import LoopStride.Proofs.Access.Chain
import LoopStride.Proofs.Evolution.Lookups

/-! Extensions and what they extend. While an extension is worked out, what it extends is looked up and
remembered, unless the look-up comes back to the extension. So off the cycles of look-ups both follow
the same recurrence in the end. -/
namespace LoopStride.Func

def Widens (f : Func) (id source : InstId) : Prop :=
  ∃ i op, f.inst? id = some i ∧ i.operation = .cast op (.result source) ∧ op.isWidening = true

/-- A recurrence that was found for an instruction is remembered, or rests on something in progress. -/
def Kept (path : List InstId) (memo : Memo) (id : InstId) (e : Expr) : Prop :=
  e.recurrence?.isSome → memo.known[id]? = some e ∨ ∃ w ∈ memo.met, w ∈ path

/-- The memory while a path is in progress and those of `before` have been asked for. -/
structure Backed (f : Func) (F : LoopForest) (before path : List InstId) (memo : Memo) : Prop where
  apart : ∀ id ∈ path, memo.known[id]? = none
  asked : ∀ id ∈ before, id ∈ memo.known
  met : ∀ w ∈ memo.met, w ∈ path ∧ f.OnCycle F w
  known : ∀ {id source : InstId} {e : Expr}, f.Widens id source → ¬ f.OnCycle F id →
    memo.known[id]? = some e → e.recurrence?.isSome → memo.known[source]? = some e

variable {f : Func} {F : LoopForest} {before path : List InstId} {memo after : Memo}
  {s id source phi : InstId} {i : Instruction} {e : Expr} {v : Value} {n fuel : Nat}

theorem kept_unknown : Kept path memo id (.unknown v) := fun h => by cases h

theorem Kept.mono (h : Kept path memo id e) (hx : memo.Extends after) : Kept path after id e :=
  fun hrec => (h hrec).imp (hx.known id e) fun ⟨w, hw, hpath⟩ => ⟨w, hx.met hw, hpath⟩

/-- When an instruction is done with, it is remembered unless something else in progress was met. -/
theorem kept_leave : Kept path (memo.leave after path id e) id e := by
  intro _
  by_cases hnone : ∀ w ∈ after.met, w ∉ path
  · exact .inl (Memo.known_leave_self hnone)
  · obtain ⟨w, hw, hpath⟩ : ∃ w ∈ after.met, w ∈ path := by simpa using hnone
    exact .inr ⟨w, Memo.mem_met_leave.mpr (.inl ⟨hw, hpath⟩), hpath⟩

theorem Backed.leave (hm : f.Backed F before path memo) (ha : f.Backed F before (id :: path) after)
    (hnot : id ∉ path) (hi : f.inst? id = some i)
    (he : f.Evolves F (fun v a => ∀ j, v = .result j → Kept (id :: path) after j a) id i e) :
    f.Backed F before path (memo.leave after path id e) := by
  have hnew := ha.apart id List.mem_cons_self
  refine ⟨Memo.apart_leave ha.apart hnot, fun j hj => Memo.mem_known_leave (ha.asked j hj),
    fun w hw => ?_, fun {j source a} hwidens hfree hj hrec => ?_⟩
  · rcases Memo.mem_met_leave.mp hw with ⟨hw, hpath⟩ | hw
    · exact ⟨hpath, (ha.met w hw).2⟩
    · exact hm.met w hw
  · rcases Memo.known_leave_cases hj with ⟨rfl, rfl, hnone⟩ | hj
    · obtain ⟨i', op, hi', ho, hop⟩ := hwidens
      obtain rfl := Option.some.inj (hi.symm.trans hi')
      -- the source rests on nothing in progress: on the extension it would be on a cycle
      refine Memo.known_leave_of_known hnew
        ((he.of_extension ho hop hrec source rfl hrec).resolve_right ?_)
      rintro ⟨w, hw, hpath⟩
      rcases List.mem_cons.mp hpath with rfl | hpath
      · exact hfree (ha.met w hw).2
      · exact hnone w hw hpath
    · exact Memo.known_leave_of_known hnew (ha.known hwidens hfree hj hrec)

theorem Backed.lookUp (hc : f.Calls F before s path id)
    (hfuel : f.arena.size < fuel + path.length) (hm : f.Backed F before path memo) :
    let found := (f.recall F fuel path id).run memo
    f.Backed F before path found.2 ∧ memo.Extends found.2 ∧ Kept path found.2 id found.1 := by
  refine recall_induct (f.Backed F before) (fun path memo id found =>
      f.Backed F before path found.2 ∧ memo.Extends found.2 ∧ Kept path found.2 id found.1)
    Backed.asked (fun hm he => ⟨hm, .refl _, fun _ => .inl he⟩)
    (fun hm _ => ⟨hm, .refl _, kept_unknown⟩) (fun hc hm hpath => ?meets)
    (fun hm hnew hi hpath hfollow => ?leave) hc hfuel hm
  case meets path memo id =>
    have hcycle : f.OnCycle F id := by
      obtain ⟨inner, outer, rfl⟩ := List.append_of_mem hpath
      exact hc.onCycle List.mem_cons_self
    exact ⟨⟨hm.apart, hm.asked, List.forall_mem_cons.mpr ⟨⟨hpath, hcycle⟩, hm.met⟩, hm.known⟩,
      ⟨fun _ _ h => h, List.subset_cons_self _ _⟩, kept_unknown⟩
  case leave path memo id i follow =>
    have hstart : f.Backed F before (id :: path) ⟨memo.known, []⟩ :=
      ⟨List.forall_mem_cons.mpr ⟨hnew, hm.apart⟩, hm.asked, by simp, hm.known⟩
    have hfound : Carries
        (fun m => f.Backed F before (id :: path) m ∧ Memo.Extends ⟨memo.known, []⟩ m)
        (fun m v a => ∀ j, v = .result j → Kept (id :: path) m j a) ⟨memo.known, []⟩
        (f.evolve F (f.valueBy follow) id i)
        (fun m e => f.Evolves F (fun v a => ∀ j, v = .result j → Kept (id :: path) m j a) id i e) := by
      refine carries_evolve (fun v hv m hm' => carries_valueBy (fun j hj => ?_)
        (fun _ _ _ => kept_unknown) (fun c bits hv j hj => ?_) hm') ⟨hstart, .refl _⟩
      · obtain ⟨hafter, hkept, hfound⟩ := hfollow j m (hj ▸ hv) hm'.1
        exact ⟨⟨hafter, hm'.2.trans hkept⟩, fun _ _ h j hj => (h j hj).mono hkept,
          fun k hk => Value.result.inj (hj.symm.trans hk) ▸ hfound⟩
      · cases hv.symm.trans hj
    obtain ⟨⟨hafter, hextends⟩, -, he⟩ := hfound
    exact ⟨hm.leave hafter hpath hi he, Memo.extends_leave hextends hnew, kept_leave⟩

/-- An extension off the cycles that follows a recurrence has it from what it extends. -/
theorem oracle_source (hwidens : f.Widens id source) (hfree : ¬ f.OnCycle F id)
    (he : (f.evolution F).oracle id = some e) (hrec : e.recurrence?.isSome) :
    (f.evolution F).oracle source = some e := by
  have hstart : f.Backed F [] [] ⟨∅, []⟩ := by
    constructor <;> simp
  have hask : ∀ before s, s ∈ f.wanted → ∀ memo, f.Backed F before [] memo →
      f.Backed F (s :: before) [] ((f.recall F (f.arena.size + 1) [] s).run memo).2 := by
    intro before s hs memo hm
    obtain ⟨i, hi⟩ := inst?_of_mem_wanted hs
    obtain ⟨hafter, -⟩ := hm.lookUp .start (Nat.lt_succ_self f.arena.size)
    exact ⟨hafter.apart, List.forall_mem_cons.mpr ⟨known_recall hi, hafter.asked⟩, hafter.met,
      hafter.known⟩
  obtain ⟨last, memo, hm, heq⟩ := evolution_induct (fun before memo => f.Backed F before [] memo)
    hstart ((inTurn_of_forall (P := fun _ _ => True) fun _ _ => trivial).mono_of_mem
      fun before s hs _ => hask before s hs)
  rw [heq] at he ⊢
  exact hm.known hwidens hfree he hrec

/-- The merge at the end of a chain of extensions follows the recurrence of the first of them if it
draws on none of its own extensions. -/
theorem EndsAfter.recurrence? {r : Recurrence} (h : f.EndsAfter n (.result id) (some phi))
    (hfree : ∀ n w, f.EndsAfter (n + 1) (.result w) (some phi) → ¬ f.OnCycle F w)
    (hr : (f.evolution F).oracle.recurrence? id = some r) :
    (f.evolution F).oracle.recurrence? phi = some r := by
  induction n generalizing id with
  | zero =>
    cases h
    exact hr
  | succ n ih =>
    have hnot := hfree n id h
    cases h with
    | @extend _ i op source _ _ hi ho hw hend =>
      obtain ⟨e, he, hrec⟩ := Option.bind_eq_some_iff.mp hr
      cases source with
      | result source =>
        refine ih hend ?_
        have hsource := oracle_source ⟨i, op, hi, ho, hw⟩ hnot he (by rw [hrec]; rfl)
        exact Option.bind_eq_some_iff.mpr ⟨e, hsource, hrec⟩
      | _ => cases hend

end LoopStride.Func
