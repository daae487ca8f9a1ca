import LoopStride.Proofs.Expr.Depth
import LoopStride.Proofs.Func.Growth
import LoopStride.Proofs.Evolution.Placeholders

/-! Counters. A merge in the header of a loop that starts at a constant and goes on by a constant
has the closed form that says so, in any layout of the blocks and whatever else there is. The merge
and its step read each other, and the search may come upon either of them first. Below the merge, the
step is a sum with the symbol of the merge, which closes. Below the step, the merge cannot close and
is its own symbol, but it rests on the step and is not remembered. -/
namespace LoopStride

namespace Func

/-! ### A merge and its step -/

/-- Two instructions that look each other up. What is found for the merge `p` is `close` of what is
found for its step `v`, and that is `step` of what is found for the merge. -/
structure TwoCycle (f : Func) (F : LoopForest) (p v : InstId) (close step : Expr → Expr) :
    Prop where
  ne : v ≠ p
  merge : ∃ i, f.inst? p = some i ∧ .result v ∈ f.asked F p i ∧
    ∀ (follow : InstId → StateM Memo Expr) (memo : Memo),
      (f.evolve F (f.valueBy follow) p i).run memo =
        (close ((follow v).run memo).1, ((follow v).run memo).2)
  step : ∃ i, f.inst? v = some i ∧ .result p ∈ f.asked F v i ∧
    ∀ (follow : InstId → StateM Memo Expr) (memo : Memo),
      (f.evolve F (f.valueBy follow) v i).run memo =
        (step ((follow p).run memo).1, ((follow p).run memo).2)
  /-- The merge does not close on the placeholder of its step. -/
  stuck : close (.unknown (.result v)) = .unknown (.result p)

namespace TwoCycle

def stepped (p : InstId) (step : Expr → Expr) : Expr := step (.unknown (.result p))

section
variable (p v : InstId) (close step : Expr → Expr)

/-- The memory while a path is in progress: the merge is remembered in its closed form alone, and the
step either as it is found below the merge or when the merge is known. -/
structure Turning (path : List InstId) (memo : Memo) : Prop where
  apart : ∀ id ∈ path, memo.known[id]? = none
  merge : ∀ e, memo.known[p]? = some e → e = close (stepped p step)
  step : ∀ e, memo.known[v]? = some e → e = stepped p step ∨ p ∈ memo.known

/-- What one of the two may be taken for while the other one is in progress. -/
structure Answers (path : List InstId) (after : Memo) (id : InstId) (e : Expr) : Prop where
  merge : id = p → v ∈ path → e = .unknown (.result p) ∨ p ∈ after.known
  started : id = v → v ∈ path → e = .unknown (.result v) ∧ v ∈ after.met
  step : id = v → p ∈ path → v ∉ path → e = stepped p step

end

variable {f : Func} {F : LoopForest} {p v s id : InstId} {close step : Expr → Expr}
  {path : List InstId} {memo after : Memo} {i : Instruction} {e : Expr} {fuel : Nat}

theorem Turning.not_mem_known (hm : Turning p v close step path memo) (hid : id ∈ path) :
    id ∉ memo.known := by
  rw [Std.TreeMap.mem_iff_isSome_getElem?, hm.apart id hid]
  exact Bool.false_ne_true

theorem Turning.enter (hm : Turning p v close step path memo) (hnew : memo.known[id]? = none) :
    Turning p v close step (id :: path) ⟨memo.known, []⟩ :=
  ⟨List.forall_mem_cons.mpr ⟨hnew, hm.apart⟩, hm.merge, hm.step⟩

theorem Turning.meet (hm : Turning p v close step path memo) (met : List InstId) :
    Turning p v close step path ⟨memo.known, met⟩ :=
  ⟨hm.apart, hm.merge, hm.step⟩

/-- The invariant is kept when an instruction is done with, if what may be remembered is right. -/
theorem Turning.leave (ha : Turning p v close step (id :: path) after) (hnot : id ∉ path)
    (hmerge : id = p → (∀ w ∈ after.met, w ∉ path) → e = close (stepped p step))
    (hstep : id = v → e = stepped p step ∨ p ∈ after.known) :
    Turning p v close step path (memo.leave after path id e) where
  apart := Memo.apart_leave ha.apart hnot
  merge e' he' := by
    rcases Memo.known_leave_cases he' with ⟨hid, rfl, hnone⟩ | he'
    · exact hmerge hid hnone
    · exact ha.merge e' he'
  step e' he' := by
    have hkept : e' = stepped p step ∨ p ∈ after.known := by
      rcases Memo.known_leave_cases he' with ⟨hid, rfl, -⟩ | he'
      · exact hstep hid
      · exact ha.step e' he'
    exact hkept.imp_right Memo.mem_known_leave

theorem Turning.answers_known (hm : Turning p v close step path memo)
    (he : memo.known[id]? = some e) : Answers p v step path memo id e where
  merge hid _ := .inr (Std.TreeMap.mem_iff_isSome_getElem?.mpr (by rw [← hid, he]; rfl))
  started hid hpath := by
    rw [hid, hm.apart v hpath] at he
    cases he
  step hid hpath _ := (hm.step e (hid ▸ he)).resolve_right (hm.not_mem_known hpath)

/-- What a look-up finds, with the memory afterwards. -/
structure Found (p v : InstId) (close step : Expr → Expr) (path : List InstId) (memo : Memo)
    (id : InstId) (found : Expr × Memo) : Prop where
  turning : Turning p v close step path found.2
  kept : memo.Extends found.2
  answers : Answers p v step path found.2 id found.1

/-- The merge is done with: it closes, unless its step is in progress further up, and then it is not
remembered. -/
theorem Found.leave_merge {below : Expr × Memo} (hcycle : f.TwoCycle F p v close step)
    (hpath : p ∉ path) (hnew : memo.known[p]? = none)
    (hv : Found p v close step (p :: path) ⟨memo.known, []⟩ v below) :
    Found p v close step path memo p
      (close below.1, memo.leave below.2 path p (close below.1)) := by
  have hne : ¬ p = v := fun h => hcycle.ne h.symm
  refine ⟨hv.turning.leave hpath (fun _ hnone => ?_) fun h => absurd h hne,
    Memo.extends_leave hv.kept hnew, fun _ hstep => .inl ?_, fun h => absurd h hne,
    fun h => absurd h hne⟩
  · have hstep : v ∉ p :: path := fun hstep =>
      hnone v (hv.answers.started rfl hstep).2 (List.mem_of_ne_of_mem hcycle.ne hstep)
    rw [hv.answers.step rfl List.mem_cons_self hstep]
  · rw [(hv.answers.started rfl (List.mem_cons_of_mem p hstep)).1, hcycle.stuck]

/-- The step is done with: it comes of the symbol of the merge, unless the merge is known by now. -/
theorem Found.leave_step {below : Expr × Memo} (hcycle : f.TwoCycle F p v close step)
    (hpath : v ∉ path) (hnew : memo.known[v]? = none)
    (hp : Found p v close step (v :: path) ⟨memo.known, []⟩ p below) :
    Found p v close step path memo v
      (step below.1, memo.leave below.2 path v (step below.1)) := by
  have hmerge : step below.1 = stepped p step ∨ p ∈ below.2.known :=
    (hp.answers.merge rfl List.mem_cons_self).imp_left (congrArg step)
  refine ⟨hp.turning.leave hpath (fun h => absurd h hcycle.ne) fun _ => hmerge,
    Memo.extends_leave hp.kept hnew, fun h => absurd h hcycle.ne, fun _ h => absurd h hpath,
    fun _ hin _ => ?_⟩
  exact hmerge.resolve_right (hp.turning.not_mem_known (List.mem_cons_of_mem v hin))

theorem Found.leave_other (hp : id ≠ p) (hv : id ≠ v) (hpath : id ∉ path)
    (hnew : memo.known[id]? = none) (hafter : Turning p v close step (id :: path) after)
    (hkept : Memo.Extends ⟨memo.known, []⟩ after) :
    Found p v close step path memo id (e, memo.leave after path id e) :=
  ⟨hafter.leave hpath (fun h => absurd h hp) fun h => absurd h hv, Memo.extends_leave hkept hnew,
    fun h => absurd h hp, fun h => absurd h hv, fun h => absurd h hv⟩

theorem Turning.evolve {follow : InstId → StateM Memo Expr}
    (hm : Turning p v close step (id :: path) memo)
    (hfollow : ∀ j m, .result j ∈ f.asked F id i → Turning p v close step (id :: path) m →
      Found p v close step (id :: path) m j ((follow j).run m)) :
    let below := (f.evolve F (f.valueBy follow) id i).run memo
    Turning p v close step (id :: path) below.2 ∧ memo.Extends below.2 := by
  have hfound : Carries (fun m => Turning p v close step (id :: path) m ∧ memo.Extends m)
      (fun _ _ _ => True) memo (f.evolve F (f.valueBy follow) id i)
      (fun _ e => f.Evolves F (fun _ _ => True) id i e) := by
    refine carries_evolve (fun u hu m hm' => ?_) ⟨hm, .refl _⟩
    rcases valueBy_cases f follow u with ⟨j, rfl, hj⟩ | ⟨e, he⟩
    · rw [hj]
      have hj := hfollow j m hu hm'.1
      exact ⟨⟨hj.turning, hm'.2.trans hj.kept⟩, fun _ _ h => h, trivial⟩
    · rw [he]
      exact carries_pure hm' trivial
  exact hfound.1

/-- Wherever the search is, a look-up keeps the invariant and answers for the two. -/
theorem Turning.recall (hcycle : f.TwoCycle F p v close step) (hc : f.Calls F [] s path id)
    (hfuel : f.arena.size < fuel + path.length) (hm : Turning p v close step path memo) :
    Found p v close step path memo id ((f.recall F fuel path id).run memo) := by
  obtain ⟨ip, hip, haskp, hrunp⟩ := hcycle.merge
  obtain ⟨iv, hiv, haskv, hrunv⟩ := hcycle.step
  refine recall_induct (Turning p v close step) (Found p v close step) (fun _ _ h => by cases h)
    (fun hm he => ⟨hm, .refl _, hm.answers_known he⟩) (fun hm hi => ?missing)
    (fun _ hm hpath => ?meets) (fun hm hnew hi hpath hfollow => ?leave) hc hfuel hm
  case missing path memo id =>
    have hp : ¬ id = p := by
      rintro rfl
      cases hi.symm.trans hip
    have hv : ¬ id = v := by
      rintro rfl
      cases hi.symm.trans hiv
    exact ⟨hm, .refl memo, fun h => absurd h hp, fun h => absurd h hv, fun h => absurd h hv⟩
  case meets path memo id =>
    refine ⟨hm.meet _, ⟨fun _ _ h => h, List.subset_cons_self _ _⟩, fun h _ => .inl (by rw [h]),
      fun h _ => ?_, fun h _ hnot => absurd (h ▸ hpath) hnot⟩
    subst h
    exact ⟨rfl, List.mem_cons_self⟩
  case leave path memo id i follow =>
    have henter := hm.enter hnew
    by_cases hp : id = p
    · subst hp
      obtain rfl := Option.some.inj (hi.symm.trans hip)
      rw [hrunp]
      exact .leave_merge hcycle hpath hnew (hfollow v _ haskp henter)
    by_cases hv : id = v
    · subst hv
      obtain rfl := Option.some.inj (hi.symm.trans hiv)
      rw [hrunv]
      exact .leave_step hcycle hpath hnew (hfollow p _ haskv henter)
    obtain ⟨hafter, hkept⟩ := henter.evolve hfollow
    exact .leave_other hp hv hpath hnew hafter hkept

/-- If the merge has a value in the end, it is the closed form. -/
theorem oracle_eq (hcycle : f.TwoCycle F p v close step)
    (he : (f.evolution F).oracle p = some e) : e = close (stepped p step) := by
  have hstart : Turning p v close step [] ⟨∅, []⟩ := by constructor <;> simp
  obtain ⟨-, memo, hm, heq⟩ := evolution_induct (fun _ memo => Turning p v close step [] memo) hstart
    (inTurn_of_forall fun _ s _ hm =>
      (hm.recall hcycle .start (Nat.lt_succ_self f.arena.size)).turning)
  rw [heq] at he
  exact hm.merge e he

end TwoCycle
end Func

/-! ### Counters -/

namespace Scope
variable {S : Scope} {p : HeaderPhi} {v w : Value} {c e : Int64}

theorem add_unknown_const :
    S.add [.unknown v, .const e] = if e = 0 then .unknown v else .sum [.unknown v, .const e] := by
  have hterms : Terms.ofList S.add (Expr.termsOfAll [.unknown v, .const e]) =
      ⟨0 + e, [], [.unknown v]⟩ := rfl
  rw [add_eq_sumOf hterms]
  by_cases he : e = 0 <;> simp [Expr.sumOf, he]

theorem add_const_unknown : S.add [.const e, .unknown v] = S.add [.unknown v, .const e] := by
  have hterms : Terms.ofList S.add (Expr.termsOfAll [.const e, .unknown v]) =
      Terms.ofList S.add (Expr.termsOfAll [.unknown v, .const e]) := rfl
  rw [add_eq_addWith, add_eq_addWith, addWith, addWith, hterms]

theorem without_add_const : S.without (.unknown v) (S.add [.unknown v, .const e]) =
    some (.const e) := by
  rw [add_unknown_const]
  by_cases he : e = 0
  · simp [without, he, Expr.zero]
  · have hterms : Terms.ofList S.add (Expr.termsOfAll [.const e]) = ⟨0 + e, [], []⟩ := rfl
    have hrest : S.add [.const e] = .const e := by
      rw [add_eq_sumOf hterms]
      simp [Expr.sumOf, he]
    simp [without, he, hrest]

theorem close?_add_const : S.close? p (.unknown v) (.const c) (S.add [.unknown v, .const e]) =
    some (if e = 0 then .const c else .recurrence p.header [.const c, .const e]) := by
  rw [close?, without_add_const]
  by_cases he : e = 0 <;>
    simp [isInvariant, Expr.recurrenceOf, Expr.dropZeros, Expr.zero, he]

theorem close?_unknown (hne : w ≠ v) : S.close? p (.unknown v) (.const c) (.unknown w) = none := by
  simp [close?, without, hne]

end Scope

namespace Func

/-- The operation adds the constant `e` to the result of `p`; what is taken off is added negated. -/
inductive Steps (p : InstId) : Int64 → Operation → Prop where
  | add (d : Int64) (bits : Nat) : Steps p d (.arith .add (.result p) (.literal (.int d bits)))
  | addTo (d : Int64) (bits : Nat) : Steps p d (.arith .add (.literal (.int d bits)) (.result p))
  | sub (d : Int64) (bits : Nat) : Steps p (-d) (.arith .sub (.result p) (.literal (.int d bits)))

/-- A merge of two edges into the header of a loop: from outside the loop comes the constant `c`, from
inside comes an instruction that adds the constant `e` to the merge. -/
structure Counter (f : Func) (lp : Loop) (p : InstId) (c e : Int64) : Prop where
  loop : lp ∈ f.flow.loops.loops
  placed : f.blockOf? p = some lp.header
  listed : ∃ block, f.block? lp.header = some block ∧ p ∈ block.listing
  merge : ∃ i a b bits v j, f.inst? p = some i ∧ i.hasResult = true ∧
    (i.operation = .phi [(a, .literal (.int c bits)), (b, .result v)] ∨
      i.operation = .phi [(b, .result v), (a, .literal (.int c bits))]) ∧
    a ∉ lp.body ∧ b ∈ lp.body ∧ f.inst? v = some j ∧ Steps p e j.operation

variable {f : Func} {F : LoopForest} {lp : Loop} {p v : InstId} {c e : Int64} {i j : Instruction}

theorem Steps.exists_step (h : Steps p e j.operation) (hp : p < f.arena.size) :
    ∃ step : Expr → Expr, .result p ∈ f.asked F v j ∧
      (∀ (follow : InstId → StateM Memo Expr) (memo : Memo),
        (f.evolve F (f.valueBy follow) v j).run memo =
          (step ((follow p).run memo).1, ((follow p).run memo).2)) ∧
      step (.unknown (.result p)) = (f.scope F).add [.unknown (.result p), .const e] := by
  generalize ho : j.operation = o at h
  have hfollow : ∀ follow : InstId → StateM Memo Expr, f.valueBy follow (.result p) = follow p :=
    fun follow => if_pos hp
  cases h with
  | add _ bits =>
    refine ⟨fun x => (f.scope F).add [x, .const e], by simp [asked, ho], fun follow memo => ?_, rfl⟩
    rw [evolve, ho]
    dsimp only
    rw [hfollow]
    rfl
  | addTo _ bits =>
    refine ⟨fun x => (f.scope F).add [.const e, x], by simp [asked, ho], fun follow memo => ?_,
      Scope.add_const_unknown⟩
    rw [evolve, ho]
    dsimp only
    rw [hfollow]
    rfl
  | sub d bits =>
    refine ⟨fun x => (f.scope F).add [x, (f.scope F).scale (-1) (.const d)], by simp [asked, ho],
      fun follow memo => ?_, ?_⟩
    · rw [evolve, ho]
      dsimp only
      rw [hfollow]
      rfl
    · rw [Scope.scale, ← Int64.neg_eq_neg_one_mul]

namespace Counter

/-- The analysis takes the merge of a counter for one that its loop closes. -/
theorem headerPhi?_eq {l : LoopId} {incoming : List (BlockId × Value)} {a b : BlockId}
    {entering next : Value} (hl : f.flow.loops.get? l = some lp)
    (hplaced : f.blockOf? p = some lp.header) (ha : a ∉ lp.body) (hb : b ∈ lp.body)
    (hincoming : incoming = [(a, entering), (b, next)] ∨ incoming = [(b, next), (a, entering)]) :
    (f.scope f.flow.loops).headerPhi? p incoming = some ⟨l, lp.header, entering, next⟩ := by
  have hof : f.flow.loops.ofHeader? lp.header = some l :=
    Flow.ofHeader?_eq_some_iff.mpr ⟨lp, hl, rfl⟩
  have hout : f.flow.loops.contains l a = false := by
    rw [Bool.eq_false_iff, Ne, Flow.contains_iff]
    rintro ⟨lp', hlp', hin⟩
    exact ha (Option.some.inj (hl.symm.trans hlp') ▸ hin)
  have hin : f.flow.loops.contains l b = true := Flow.contains_iff.mpr ⟨lp, hl, hb⟩
  rcases hincoming with rfl | rfl <;> simp [Scope.headerPhi?, scope, hplaced, hof, hout, hin]

theorem twoCycle (h : f.Counter lp p c e) : ∃ v close step,
    f.TwoCycle f.flow.loops p v close step ∧ close (TwoCycle.stepped p step) =
      if e = 0 then .const c else .recurrence lp.header [.const c, .const e] := by
  obtain ⟨i, a, b, bits, v, j, hi, -, hphi, ha, hb, hj, hstep⟩ := h.merge
  obtain ⟨l, hl⟩ := List.mem_iff_getElem?.mp h.loop
  obtain ⟨incoming, ho, hincoming⟩ : ∃ incoming, i.operation = .phi incoming ∧
      (incoming = [(a, .literal (.int c bits)), (b, .result v)] ∨
        incoming = [(b, .result v), (a, .literal (.int c bits))]) := by
    rcases hphi with ho | ho
    · exact ⟨_, ho, .inl rfl⟩
    · exact ⟨_, ho, .inr rfl⟩
  have hheader := headerPhi?_eq hl h.placed ha hb hincoming
  obtain ⟨step, hasked, hrun, hsum⟩ :=
    hstep.exists_step (F := f.flow.loops) (v := v) (lt_size_of_inst? hi)
  have hne : v ≠ p := by
    rintro rfl
    obtain rfl := Option.some.inj (hi.symm.trans hj)
    rw [ho] at hstep
    cases hstep
  let S := f.scope f.flow.loops
  let symbol : Expr := .unknown (.result p)
  let close : Expr → Expr := fun x =>
    (S.close? ⟨l, lp.header, .literal (.int c bits), .result v⟩ symbol (.const c) x).getD symbol
  refine ⟨v, close, step, ⟨hne, ⟨i, hi, ?_, fun follow memo => ?_⟩, ⟨j, hj, hasked, hrun⟩, ?_⟩, ?_⟩
  · simp [asked, ho, hheader]
  · have hfollow : f.valueBy follow (.result v) = follow v := if_pos (lt_size_of_inst? hj)
    rw [evolve, ho]
    dsimp only
    rw [hheader]
    dsimp only
    rw [hfollow]
    rfl
  · have hclose := Scope.close?_unknown (S := S)
      (p := ⟨l, lp.header, .literal (.int c bits), .result v⟩) (v := .result p) (w := .result v)
      (c := c) fun h => hne (Value.result.inj h)
    simp only [close, symbol, hclose, Option.getD_none]
  · simp only [close, symbol, S, TwoCycle.stepped, hsum, Scope.close?_add_const, Option.getD_some]

end Counter

/-- Every counter is recognised: it has the closed form of a constant and a constant step, or is the
constant if the step is zero. -/
theorem counters_recognised (h : f.Counter lp p c e) :
    (f.evolution f.flow.loops).oracle p =
      some (if e = 0 then .const c else .recurrence lp.header [.const c, .const e]) := by
  obtain ⟨i, a, b, bits, v, j, hi, hresult, -⟩ := h.merge
  obtain ⟨block, hblock, hlisting⟩ := h.listed
  have hlisted : p ∈ f.listedIds := mem_listedIds_iff.mpr ⟨lp.header, block, hblock, hlisting⟩
  obtain ⟨x, hx⟩ := exists_oracle (F := f.flow.loops) hlisted hi hresult
  obtain ⟨v, close, step, hcycle, hclosed⟩ := h.twoCycle
  rw [hx, hcycle.oracle_eq hx, hclosed]

end Func

/-- Counts down from ten; the step is listed ahead of the merge. -/
def countdown : Func where
  name := "countdown"
  params := #[]
  blocks := #[
    { terminator := .jump 2 },
    { listing := [1], terminator := .jump 2 },
    { listing := [0, 2], terminator := .branch (.result 2) 1 3 },
    { terminator := .ret none }]
  entry := 0
  arena := #[
    ⟨.phi (.int 64) [(0, .int 10), (1, .result 1)], 2⟩,
    ⟨.arith .sub (.int 64) (.result 0) (.int 1), 1⟩,
    ⟨.compare .sgt (.result 0) (.int 0), 2⟩]
  uses := #[(0, 1), (1, 0), (0, 2)]

/-- The merge is recognised, although it is come upon below its step. -/
theorem Func.counters_recognised_countdown :
    (∃ lp, countdown.Counter lp 0 10 (-1) ∧ lp.header = 2) ∧
    (countdown.evolution countdown.flow.loops).oracle 0 =
      some (.recurrence 2 [.const 10, .const (-1)]) := by
  have hloops : countdown.flow.loops.loops = [⟨2, [1], [1, 2], none, 1⟩] := by decide +kernel
  have hcounter : countdown.Counter ⟨2, [1], [1, 2], none, 1⟩ 0 10 (-1) :=
    ⟨by simp [hloops], by decide +kernel, ⟨_, rfl, by decide⟩,
      ⟨_, 0, 1, 64, 1, _, rfl, by decide +kernel, .inl rfl, by decide, by decide, rfl, .sub 1 64⟩⟩
  exact ⟨⟨_, hcounter, rfl⟩, counters_recognised hcounter⟩

end LoopStride
