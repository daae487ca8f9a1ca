import LoopStride.Access.Pass
import LoopStride.Proofs.Access.Chain
import LoopStride.Proofs.Cost.Layers
import LoopStride.Proofs.Passes.Current

/-! A run of the access pattern pass does not fail on account of the function it looks at: under a
configuration that checks, with the analyses that the pass declares, it ends with a report as long
as the handler answers and changes the function by growing it alone. -/
namespace LoopStride

section
variable {η : Type}

section
variable [Handler η]

/-- The states that a handler gets into by handling candidates. -/
def Handler.Becomes : η → η → Prop :=
  Relation.ReflTransGen fun h h' => ∃ f c, h' = (Handler.handle h f c).handler

/-- The handler answers whatever it is handed, and changes functions by growing them alone. -/
structure Handler.Complies (h : η) : Prop where
  answers : ∀ h', Becomes h h' → ∀ f c, ∃ acted, (Handler.handle h' f c).result = .ok acted
  grows : ∀ h', Becomes h h' → ∀ (f : Func) c, f.Grows (Handler.handle h' f c).func

theorem Handler.Complies.next {h : η} (hh : Handler.Complies h) (f : Func) (c : Candidate) :
    Handler.Complies (Handler.handle h f c).handler where
  answers h' hb := hh.answers h' (.head ⟨f, c, rfl⟩ hb)
  grows h' hb := hh.grows h' (.head ⟨f, c, rfl⟩ hb)

end

/-! ### Steps of the work list -/

namespace Worklist
variable {q : Inquiry} {w : Worklist η} {id : InstId} {n : Nat} {f : Func} {F : LoopForest}

theorem enqueue_frame (w : Worklist η) (id : InstId) : w.enqueue id =
    { w with queue := (w.enqueue id).queue, queued := (w.enqueue id).queued } := by
  rw [enqueue]
  split <;> rfl

theorem foldl_enqueue_frame (ids : List InstId) (w : Worklist η) : ids.foldl enqueue w =
    { w with queue := (ids.foldl enqueue w).queue, queued := (ids.foldl enqueue w).queued } := by
  induction ids generalizing w with
  | nil => rfl
  | cons id ids ih => rw [List.foldl_cons, ih, enqueue_frame]

theorem enqueueReaders_frame (q : Inquiry) (w : Worklist η) (id : InstId) :
    w.enqueueReaders q id = { w with
      queue := (w.enqueueReaders q id).queue, queued := (w.enqueueReaders q id).queued } :=
  foldl_enqueue_frame _ w

theorem mem_queue_enqueue {x : InstId} (h : x ∈ (w.enqueue id).queue) : x ∈ w.queue ∨ x = id := by
  rw [enqueue] at h
  split at h
  · exact .inl h
  · simpa using h

theorem mem_queue_foldl_enqueue {ids : List InstId} {x : InstId}
    (h : x ∈ (ids.foldl enqueue w).queue) : x ∈ w.queue ∨ x ∈ ids := by
  induction ids generalizing w with
  | nil => exact .inl h
  | cons y ids ih =>
    rcases ih h with hx | hx
    · exact (mem_queue_enqueue hx).imp_right fun h => List.mem_cons.mpr (.inl h)
    · exact .inr (List.mem_cons_of_mem _ hx)

theorem mem_queue_enqueueReaders {x : InstId} (h : x ∈ (w.enqueueReaders q id).queue) :
    x ∈ w.queue ∨ q.isRelevant w.func x = true :=
  (mem_queue_foldl_enqueue h).imp_right fun hx => (List.mem_filter.mp hx).2

variable [Handler η]

/-- What a step on `w` can come to as far as the handler goes: it is not called, or it is called once
and fails, or it is called once and tells whether it acted. -/
inductive Consults (w : Worklist η) : Worklist η × Option Fault → Prop where
  | not (w' : Worklist η) (failure? : Option Fault) : w'.handler = w.handler → w'.func = w.func →
      w'.changed = w.changed → Consults w (w', failure?)
  | failed (c : Candidate) (e : Fault) (w' : Worklist η) :
      (Handler.handle w.handler w.func c).result = .error e →
      w'.handler = (Handler.handle w.handler w.func c).handler →
      w'.func = (Handler.handle w.handler w.func c).func → Consults w (w', some e)
  | answered (c : Candidate) (acted : Bool) (w' : Worklist η) :
      (Handler.handle w.handler w.func c).result = .ok acted →
      w'.handler = (Handler.handle w.handler w.func c).handler →
      w'.func = (Handler.handle w.handler w.func c).func → w'.changed = (acted || w.changed) →
      Consults w (w', none)

theorem consults_offer (q : Inquiry) (w : Worklist η) (id : InstId) (degree : Degree)
    (r : Recurrence) : w.Consults (w.offer q id degree r) := by
  rw [offer]
  split
  · exact .not _ _ rfl rfl rfl
  · next origin _ =>
    dsimp only
    split
    · next e he => exact .failed _ e _ he rfl rfl
    · next acted hacted =>
      cases acted with
      | false => exact .answered _ false _ hacted rfl rfl rfl
      | true =>
        rw [if_pos rfl, enqueueReaders_frame]
        exact .answered _ true _ hacted rfl rfl rfl

theorem Consults.congr {v w w' w'' : Worklist η} {failure? : Option Fault}
    (h : Consults v (w', failure?))
    (hv : w.handler = v.handler ∧ w.func = v.func ∧ w.changed = v.changed)
    (hw : w''.handler = w'.handler ∧ w''.func = w'.func ∧ w''.changed = w'.changed) :
    Consults w (w'', failure?) := by
  obtain ⟨hh, hf, hc⟩ := hv
  obtain ⟨hh', hf', hc'⟩ := hw
  cases h with
  | not _ _ h1 h2 h3 =>
    exact .not _ _ (hh'.trans (h1.trans hh.symm)) (hf'.trans (h2.trans hf.symm))
      (hc'.trans (h3.trans hc.symm))
  | failed c e _ h1 h2 h3 =>
    rw [← hh, ← hf] at h1 h2 h3
    exact .failed c e _ h1 (hh'.trans h2) (hf'.trans h3)
  | answered c acted _ h1 h2 h3 h4 =>
    rw [← hh, ← hf] at h1 h2 h3
    exact .answered c acted _ h1 (hh'.trans h2) (hf'.trans h3) (hc'.trans (hc ▸ h4))

theorem consults_settle (q : Inquiry) (w : Worklist η) (id : InstId) :
    w.Consults (w.settle q id) := by
  rw [settle]
  split
  · exact .not _ _ rfl rfl rfl
  · next c notes _ =>
    cases c with
    | ineligible reason => exact .not _ _ rfl rfl rfl
    | recurrence degree r isCandidate =>
      cases isCandidate with
      | false => exact .not _ _ rfl rfl rfl
      | true =>
        have hoffer := consults_offer q { w with notes := w.notes ++ notes } id degree r
        dsimp only
        split
        · next e he =>
          rw [← Prod.eta (Worklist.offer ..), he] at hoffer
          exact hoffer.congr ⟨rfl, rfl, rfl⟩ ⟨rfl, rfl, rfl⟩
        · next he =>
          rw [← Prod.eta (Worklist.offer ..), he] at hoffer
          exact hoffer.congr ⟨rfl, rfl, rfl⟩ ⟨rfl, rfl, rfl⟩

/-- What each step keeps that succeeds holds after a run unless it fails, and what follows when a
step fails holds if it does. -/
theorem run_induct {I J : Worklist η → Prop}
    (hnext : ∀ w id rest w', I w → w.queue = id :: rest →
      settle q (w.next id rest) id = (w', none) → I w')
    (hfail : ∀ w id rest w' e, I w → w.queue = id :: rest →
      settle q (w.next id rest) id = (w', some e) → J w')
    (h : I w) : (∀ e, (run q n w).2 = .failed e → J (run q n w).1) ∧
      ((∀ e, (run q n w).2 ≠ .failed e) → I (run q n w).1) := by
  induction n generalizing w with
  | zero =>
    rw [run]
    split <;> exact ⟨fun e he => Ending.noConfusion he, fun _ => h⟩
  | succ n ih =>
    rw [run]
    split
    · exact ⟨fun e he => Ending.noConfusion he, fun _ => h⟩
    · next id rest hq =>
      split
      · next w' e hs =>
        exact ⟨fun _ _ => hfail w id rest w' e h hq hs, fun hne => absurd rfl (hne e)⟩
      · next w' hs => exact ih (hnext w id rest w' h hq hs)

/-- What a work list on `f` keeps: the function has only grown, what waits exists, and the handler
is one that complies. -/
structure Sound (f : Func) (w : Worklist η) : Prop where
  grown : f.Grows w.func
  queue_exists : ∀ id ∈ w.queue, (w.func.inst? id).isSome
  complies : Handler.Complies w.handler

theorem Sound.of_eq {w' : Worklist η} (h : w.Sound f) (hfunc : w'.func = w.func)
    (hqueue : w'.queue = w.queue) (hhandler : w'.handler = w.handler) : w'.Sound f where
  grown := hfunc ▸ h.grown
  queue_exists := by
    rw [hfunc, hqueue]
    exact h.queue_exists
  complies := hhandler ▸ h.complies

theorem isSome_of_isRelevant {f : Func} (h : q.isRelevant f id = true) : (f.inst? id).isSome := by
  rw [Inquiry.isRelevant] at h
  cases hi : f.inst? id with
  | none => simp [hi] at h
  | some i => rfl

theorem Sound.enqueueReaders (h : w.Sound f) : (w.enqueueReaders q id).Sound f := by
  have hqueue : ∀ x ∈ (w.enqueueReaders q id).queue, (w.func.inst? x).isSome := fun x hx =>
    (mem_queue_enqueueReaders hx).elim (h.queue_exists x) isSome_of_isRelevant
  rw [enqueueReaders_frame]
  exact ⟨h.grown, hqueue, h.complies⟩

/-- Handing over a candidate succeeds, since its origin can be told and the handler answers. -/
theorem Sound.offer (hq : q.oracle = (f.evolution F).oracle) (h : w.Sound f) (id : InstId)
    (degree : Degree) (r : Recurrence) :
    (w.offer q id degree r).2 = none ∧ (w.offer q id degree r).1.Sound f := by
  obtain ⟨-, origin, horigin⟩ := h.grown.origin (F := F) r.header id
  rw [Worklist.offer, hq, horigin]
  dsimp only
  set c : Candidate := ⟨id, degree, r, origin, q.gain⟩
  obtain ⟨acted, hacted⟩ := h.complies.answers w.handler .refl w.func c
  have hgrows := h.complies.grows w.handler .refl w.func c
  have hsound : Sound f { w with
      handler := (Handler.handle w.handler w.func c).handler
      func := (Handler.handle w.handler w.func c).func } :=
    ⟨h.grown.trans hgrows, fun x hx => hgrows.keptIn.isSome (h.queue_exists x hx),
      h.complies.next _ _⟩
  rw [hacted]
  cases acted with
  | false => exact ⟨rfl, hsound.of_eq rfl rfl rfl⟩
  | true =>
    refine ⟨rfl, ?_⟩
    dsimp only
    rw [if_pos rfl]
    refine Sound.of_eq (Sound.enqueueReaders ?_) rfl rfl rfl
    exact hsound.of_eq rfl rfl rfl

theorem Sound.settle (hq : q.oracle = (f.evolution F).oracle) (h : w.Sound f)
    (hid : (w.func.inst? id).isSome) :
    (w.settle q id).2 = none ∧ (w.settle q id).1.Sound f := by
  obtain ⟨i, hi⟩ := Option.isSome_iff_exists.mp hid
  obtain ⟨c, notes, hc⟩ : ∃ c notes,
      w.func.classify q.accesses q.oracle q.config.policy id = .ok (c, notes) := by
    rw [Func.classify, hi]
    exact ⟨_, _, rfl⟩
  have hnoted : Sound f { w with notes := w.notes ++ notes } := h.of_eq rfl rfl rfl
  rw [Worklist.settle, hc]
  cases c with
  | ineligible reason => exact ⟨rfl, hnoted.of_eq rfl rfl rfl⟩
  | recurrence degree r isCandidate =>
    cases isCandidate with
    | false => exact ⟨rfl, hnoted.of_eq rfl rfl rfl⟩
    | true =>
      obtain ⟨hnone, hsound⟩ := hnoted.offer hq id degree r
      dsimp only
      rw [hnone]
      exact ⟨rfl, hsound.of_eq rfl rfl rfl⟩

theorem Sound.next {rest : List InstId} (h : w.Sound f) (hq : w.queue = id :: rest) :
    (w.next id rest).Sound f ∧ (w.func.inst? id).isSome := by
  have hmem := fun x hx => h.queue_exists x (hq ▸ hx)
  exact ⟨⟨h.grown, fun x hx => hmem x (List.mem_cons_of_mem _ hx), h.complies⟩,
    hmem id List.mem_cons_self⟩

theorem sound_start {handler : η} (hh : Handler.Complies handler) :
    (start q handler f).Sound f where
  grown := .refl
  queue_exists _ hid := isSome_of_isRelevant (List.mem_filter.mp hid).2
  complies := hh

theorem run_start_not_failed {handler : η} (hq : q.oracle = (f.evolution F).oracle)
    (hh : Handler.Complies handler) (e : Fault) : (run q n (start q handler f)).2 ≠ .failed e := by
  have hstep : ∀ (w : Worklist η) id rest, w.Sound f → w.queue = id :: rest →
      ((w.next id rest).settle q id).2 = none ∧ ((w.next id rest).settle q id).1.Sound f :=
    fun w id rest h hqueue => (h.next hqueue).1.settle hq (h.next hqueue).2
  refine (run_induct (J := fun _ => False) ?_ ?_ (sound_start hh)).1 e
  · intro w id rest w' h hqueue hs
    have hkept := (hstep w id rest h hqueue).2
    rwa [hs] at hkept
  · intro w id rest w' e h hqueue hs
    have hnone := (hstep w id rest h hqueue).1
    rw [hs] at hnone
    cases hnone

end Worklist

/-! ### The pass -/

/-- The overrides of a configuration that checks can be laid over any table. -/
theorem CostTable.override_ok {config : Config} (h : config.validate = .ok ()) (t : CostTable) :
    ∃ t', t.override config.overrides = .ok t' :=
  ⟨_, override_of_known (Config.known_of_validate h)⟩

namespace AccessPass
variable [Handler η] {f : Func}

theorem prerequisites_compute (config : Config) (f : Func) (target : CostTable) :
    prerequisites config (Analyses.compute f usage.required target) =
      match target.override config.overrides with
      | .error e => .error (.config e)
      | .ok cost =>
        .ok ((f.evolution (f.flow.loopForest f.flow.dominators)).oracle, cost.gain) := by
  have hread : ∀ kind, (Analyses.compute f usage.required target).get? kind =
      .ok (f.resultOf target kind) := by
    intro kind
    rw [Analyses.get?_compute, if_pos (by cases kind <;> decide)]
  rw [prerequisites, show Analyses.dominators? _ = _ from hread .dominance,
    show Analyses.loops? _ = _ from hread .loops,
    show Analyses.evolution? _ = _ from hread .evolution,
    show Analyses.cost? _ = _ from hread .cost]
  rfl

theorem prerequisites_ok {config : Config} (h : config.validate = .ok ()) (f : Func)
    (target : CostTable) : ∃ gain,
    prerequisites config (Analyses.compute f usage.required target) =
      .ok ((f.evolution (f.flow.loopForest f.flow.dominators)).oracle, gain) := by
  obtain ⟨t, ht⟩ := CostTable.override_ok h target
  exact ⟨t.gain, by rw [prerequisites_compute, ht]⟩

theorem analyze_ok (config : Config) (gain : Int) {oracle : Oracle} {handler : η} {F : LoopForest}
    (ho : oracle = (f.evolution F).oracle) (hh : Handler.Complies handler) :
    ∃ report, (analyze config oracle gain handler f).2.1 = .ok report := by
  have hrun := Worklist.run_start_not_failed (n := config.maxSteps)
    (q := ⟨config, (f.traceAccesses config).1, oracle, gain⟩) ho hh
  rw [analyze]
  dsimp only
  split
  · next e he => exact absurd he (hrun e)
  · exact ⟨_, rfl⟩
  · exact ⟨_, rfl⟩

/-- On every function and every target, under a configuration that checks and with the analyses it
declares, the pass ends without an error for any handler that complies: each walk of its trace comes
to an end; and however the function has grown by then, every chain of extensions that it follows
ends at an instruction, and the origin of any candidate is told. -/
theorem run_ok (p : AccessPass η) (hp : p.config.validate = .ok ())
    (hh : Handler.Complies p.handler) (f : Func) (target : CostTable) :
    (∃ changed, (p.run f (Analyses.compute f usage.required target)).result = .ok changed) ∧
    (∀ root s, f.ComesTo (f.enter root ⟨[], ⟨s, 0⟩⟩) [] (f.walkFrom root s)) ∧
    ∀ evolution, (Analyses.compute f usage.required target).evolution? = .ok evolution →
      ∀ g, f.Grows g → ∀ header id,
        (∀ addition v, v ∈ g.varyingFactors evolution.oracle header addition →
          ∃ n o, g.EndsAfter n (.result v) o ∧ g.extensionOrigin (.result v) = .ok o) ∧
        ∃ o, g.originOf evolution.oracle header id = .ok o := by
  refine ⟨?_, f.comesTo_walkFrom, fun evolution he g hg header id => ?_⟩
  · obtain ⟨gain, hpre⟩ := prerequisites_ok hp f target
    obtain ⟨report, hreport⟩ := analyze_ok p.config gain (f := f) rfl hh
    rw [run, hpre]
    dsimp only
    rw [hreport]
    exact ⟨_, rfl⟩
  · have hread := Analyses.get?_compute f usage.required target .evolution
    rw [if_pos (by decide)] at hread
    obtain rfl : evolution = _ := Except.ok.inj (he.symm.trans hread)
    obtain ⟨hends, horigin⟩ := hg.origin (F := f.flow.loopForest f.flow.dominators) header id
    refine ⟨fun addition v hv => ?_, horigin⟩
    obtain ⟨n, o, hend⟩ := hends addition v hv
    exact ⟨n, o, hend, hend.extensionOrigin_eq⟩

end AccessPass
end

/-- Puts a multiple of each candidate at the end of the entry block, and says that it acted. -/
structure Multiplier where
  factor : Int64

instance : Handler Multiplier where
  handle h f c :=
    let multiple := .arith .mul (.int 64) (.result c.instruction) (.int h.factor)
    ⟨h, (f.append f.entry multiple).1, .ok true⟩

theorem Multiplier.complies (m : Multiplier) : Handler.Complies m where
  answers _ _ _ _ := ⟨true, rfl⟩
  grows _ _ f _ := .single (.append f.entry _)

/-- An address that adds up the multiples of an extended loop variable and of an extended literal;
behind the loop extensions of one another, of a parameter and of a missing instruction. -/
def circularExtensions : Func where
  name := "circular_extensions"
  params := #[.int 32]
  blocks := #[
    { terminator := .jump 1 },
    { listing := [0, 1, 2, 3, 4, 5, 6, 7], terminator := .branch (.param 0) 1 2 },
    { listing := [8, 9, 10, 11], terminator := .ret none }]
  entry := 0
  arena := #[
    ⟨.phi (.int 32) [(0, .int 0), (1, .result 7)], 1⟩,
    ⟨.cast .signExtend (.result 0) (.int 64), 1⟩,
    ⟨.arith .mul (.int 64) (.result 1) (.int 4), 1⟩,
    ⟨.cast .signExtend (.literal (.int 5 32)) (.int 64), 1⟩,
    ⟨.arith .mul (.int 64) (.result 3) (.int 4), 1⟩,
    ⟨.arith .add (.int 64) (.result 4) (.result 2), 1⟩,
    ⟨.cast .intToPtr (.result 5) .ptr, 1⟩,
    ⟨.arith .add (.int 32) (.result 0) (.int 1), 1⟩,
    ⟨.cast .signExtend (.result 9) (.int 64), 2⟩,
    ⟨.cast .zeroExtend (.result 8) (.int 64), 2⟩,
    ⟨.cast .signExtend (.param 0) (.int 64), 2⟩,
    ⟨.cast .zeroExtend (.result 40) (.int 64), 2⟩]
  uses := #[(0, 1), (1, 2), (3, 4), (4, 5), (2, 5), (5, 6), (0, 7), (9, 8), (8, 9), (40, 11), (7, 0)]

/-- The handler acts on the address here, which is then taken up again. -/
theorem AccessPass.run_ok_circularExtensions :
    (Config.validate {} = .ok () ∧ Handler.Complies (Multiplier.mk 2)) ∧
    (∃ changed, (AccessPass.run ⟨{}, Multiplier.mk 2, .notRun, [], {}⟩ circularExtensions
      (Analyses.compute circularExtensions usage.required default)).result = .ok changed) := by
  have hvalid : Config.validate {} = .ok () := rfl
  have hcomplies := Multiplier.complies ⟨2⟩
  exact ⟨⟨hvalid, hcomplies⟩,
    (run_ok ⟨{}, Multiplier.mk 2, .notRun, [], {}⟩ hvalid hcomplies circularExtensions default).1⟩

end LoopStride
