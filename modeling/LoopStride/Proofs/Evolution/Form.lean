import LoopStride.Proofs.Expr.Form
import LoopStride.Proofs.Evolution.Lookups

/-! The form of the values that are found. Every recurrence is one of a loop that leaves its
operands alone, and grows as fast as its length says. Products are in normal form, and so is every
sum but for its first term: where the recurrences of a loop cancel out beside a term that the loop
changes, what is left of them stands there as it is. -/
namespace LoopStride

open LoopStride.Expr (NormalSum NearlyNormalSum NormalProduct)

namespace Scope
variable {S : Scope} {p : HeaderPhi} {symbol start next e inc : Expr}

theorem neat_without (h : S.without symbol e = some inc) (he : S.Neat e) : S.Neat inc := by
  rcases without_eq_some h with ⟨-, rfl⟩ | ⟨ts, rfl, -, rfl⟩
  · exact neat_const
  · exact neat_add fun t ht => (orderly_sum.mp he.orderly).2 t (List.mem_of_mem_erase ht)

theorem neat_close? (h : S.close? p symbol start next = some e)
    (hl : S.forest.ofHeader? p.header = some p.loop) (hregular : next.MadeOf S.regular)
    (hstart : S.Neat start) (hnext : S.Neat next) : S.Neat e := by
  obtain ⟨inc, ops, hinc, rfl, -, hshape⟩ := close?_eq_some h hregular
  have hneat := neat_without hinc hnext
  refine neat_recurrenceOf ⟨_, hl⟩ (List.cons_ne_nil _ _) (List.forall_mem_cons.mpr ⟨hstart, ?_⟩)
  rcases hshape with rfl | ⟨k, rfl, -⟩
  · exact List.forall_mem_singleton.mpr hneat
  · exact fun o ho => neat_of_operand hneat.orderly ho

end Scope

namespace Func
variable {f : Func} {F : LoopForest} {T : Value → Expr → Prop} {id : InstId} {i : Instruction}
  {e : Expr}

theorem Evolves.neat (hT : ∀ v a, T v a → a.MadeOf (f.scope F).regular ∧ (f.scope F).Neat a)
    (he : f.Evolves F T id i e) : (f.scope F).Neat e := by
  cases he with
  | symbol => exact Scope.neat_unknown
  | add _ ha hb | address _ ha hb =>
    exact Scope.neat_add (forall_mem_pair.mpr ⟨(hT _ _ ha).2.orderly, (hT _ _ hb).2.orderly⟩)
  | sub _ ha hb =>
    have hnegated := Scope.neat_scale (c := -1) (hT _ _ hb).2
    exact Scope.neat_add (forall_mem_pair.mpr ⟨(hT _ _ ha).2.orderly, hnegated.orderly⟩)
  | mul _ ha hb => exact Scope.neat_mul (hT _ _ ha).2 (hT _ _ hb).2
  | shl _ _ ha => exact Scope.neat_scale (hT _ _ ha).2
  | cast _ ha =>
    rename_i op source a _
    rcases convert_cases op (f.width? source) i.ty.width? (.unknown (.result id)) a with
      hc | ⟨c, hc⟩ | hc
    · rw [hc]
      exact (hT _ _ ha).2
    · rw [hc]
      exact Scope.neat_const
    · rw [hc]
      exact Scope.neat_unknown
  | recurrence _ hp hstart _ hnext hclose =>
    obtain ⟨hregular, hneat⟩ := hT _ _ hnext
    have hl := (Scope.headerPhi?_eq_some hp).2.1
    exact Scope.neat_close? hclose hl hregular (hT _ _ hstart).2 hneat

theorem inherits_neat :
    f.Inherits F fun _ e => e.MadeOf (f.scope F).regular ∧ (f.scope F).Neat e where
  symbol _ := ⟨Expr.madeOf_unknown.mpr trivial, Scope.neat_unknown⟩
  literal _ _ := ⟨Expr.madeOf_const, Scope.neat_const⟩
  evolves _ he := ⟨he.regular fun _ _ => And.left, he.neat fun _ _ => id⟩

/-! ### Recurrences -/

/-- Nothing in the expression is computed anew while a loop runs: there is no symbol of an instruction
that was put into the loop, and no recurrence of the loop or of one inside it. -/
structure FixedIn (f : Func) (lp : Loop) (e : Expr) : Prop where
  symbol : ∀ q b, .unknown (.result q) ∈ e.parts → f.blockOf? q = some b → b ∉ lp.body
  recurrence : ∀ inner ∈ f.flow.loops.loops, ∀ ops, .recurrence inner.header ops ∈ e.parts →
    ¬ inner.body ⊆ lp.body

theorem fixedIn_of_isInvariant {l : LoopId} {lp : Loop} (hlp : f.flow.loops.get? l = some lp)
    (he : e.MadeOf .proper) (hinv : (f.scope f.flow.loops).isInvariant l e = true) :
    f.FixedIn lp e := by
  have hfixed := (Scope.isInvariant_iff he).mp hinv
  refine ⟨fun q b hq hb hin => ?_, fun inner hinner ops hops hsub => ?_⟩
  · have hfix := Expr.madeOf_unknown.mp (hfixed.of_mem_parts hq)
    have hcontains : f.flow.loops.contains l b = true := Flow.contains_iff.mpr ⟨lp, hlp, hin⟩
    simp [Scope.fixed, Makeup.plain, Scope.fixesValue, scope, hb, hcontains] at hfix
  · obtain ⟨m, hm⟩ := List.mem_iff_getElem?.mp hinner
    have hheader : f.flow.loops.ofHeader? inner.header = some m :=
      Flow.ofHeader?_eq_some_iff.mpr ⟨inner, hm, rfl⟩
    obtain ⟨hlen, hout, -⟩ := Expr.madeOf_recurrence.mp (hfixed.of_mem_parts hops)
    obtain ⟨o, ho⟩ := List.exists_mem_of_length_pos hlen
    have hnested := (Flow.isNestedIn_iff hm hlp).mpr hsub
    simpa [Scope.fixed, Makeup.plain, Scope.runsWithin, scope, hheader, hnested] using hout o ho

/-- Every recurrence in a value has a loop and two operands or more, which the loop leaves alone; and
a value that is a recurrence does not end in a zero, so that its degree is that of its growth. -/
theorem recurrences_faithful (f : Func)
    (he : (f.evolution f.flow.loops).oracle id = some e) :
    (∀ h ops, .recurrence h ops ∈ e.parts → ∃ lp ∈ f.flow.loops.loops, lp.header = h ∧
      2 ≤ ops.length ∧ ∀ o ∈ ops, f.FixedIn lp o) ∧
    ∀ h ops, e = .recurrence h ops → ops.getLast? ≠ some (.const 0) := by
  obtain ⟨hregular, hneat⟩ := oracle_of_inherits inherits_neat he
  refine ⟨fun h ops hops => ?_, hneat.trimmed⟩
  obtain ⟨hlen, hop, hmade⟩ := Expr.madeOf_recurrence.mp (hregular.of_mem_parts hops)
  obtain ⟨o, ho⟩ := List.exists_mem_of_length_pos (Nat.lt_of_lt_of_le Nat.two_pos hlen)
  obtain ⟨l, hl, -⟩ := hop o ho
  obtain ⟨lp, hlp, rfl⟩ := Flow.ofHeader?_eq_some_iff.mp hl
  refine ⟨lp, List.mem_of_getElem? hlp, rfl, hlen, fun o ho => ?_⟩
  obtain ⟨l', hl', hinv⟩ := hop o ho
  obtain rfl := Option.some.inj (hl'.symm.trans hl)
  exact fixedIn_of_isInvariant hlp ((hmade o ho).proper (Nat.le_succ 1)) hinv

end Func

/-- The place of an element in an array of rows of eight, row by row: 3 is eight times the row plus
the column. -/
def rowMajor : Func where
  name := "row_major"
  params := #[]
  blocks := #[
    { terminator := .jump 1 },
    { listing := [0], terminator := .jump 2 },
    { listing := [1, 2, 3, 4, 5], terminator := .branch (.result 5) 2 3 },
    { listing := [6, 7], terminator := .branch (.result 7) 1 4 },
    { terminator := .ret none }]
  entry := 0
  arena := #[
    ⟨.phi (.int 64) [(0, .int 0), (3, .result 6)], 1⟩,
    ⟨.phi (.int 64) [(1, .int 0), (2, .result 4)], 2⟩,
    ⟨.arith .mul (.int 64) (.result 0) (.int 8), 2⟩,
    ⟨.arith .add (.int 64) (.result 2) (.result 1), 2⟩,
    ⟨.arith .add (.int 64) (.result 1) (.int 1), 2⟩,
    ⟨.compare .slt (.result 4) (.int 8), 2⟩,
    ⟨.arith .add (.int 64) (.result 0) (.int 1), 3⟩,
    ⟨.compare .slt (.result 6) (.int 8), 3⟩]
  uses := #[(0, 2), (2, 3), (1, 3), (1, 4), (4, 5), (0, 6), (6, 7), (4, 1), (6, 0)]

/-- The recurrence of the rows is the start of that of the columns, whose loop leaves it alone. -/
theorem Func.recurrences_faithful_rowMajor :
    let f := rowMajor
    let e : Expr := .recurrence 2 [.recurrence 1 [.const 0, .const 8], .const 1]
    (f.evolution f.flow.loops).oracle 3 = some e ∧
    (∃ lp ∈ f.flow.loops.loops, lp.header = 2 ∧
      ∀ o ∈ [Expr.recurrence 1 [.const 0, .const 8], .const 1], f.FixedIn lp o) ∧
    ∃ lp ∈ f.flow.loops.loops, lp.header = 1 ∧ ∀ o ∈ [Expr.const 0, .const 8], f.FixedIn lp o := by
  intro f e
  have he : (f.evolution f.flow.loops).oracle 3 = some e := by decide +kernel
  obtain ⟨hall, -⟩ := Func.recurrences_faithful f he
  obtain ⟨lp, hlp, hcolumns, -, hfixed⟩ := hall 2 _ (Expr.mem_parts_self e)
  have hinner : .recurrence 1 [.const 0, .const 8] ∈ e.parts := by
    simp [e, Expr.parts, Expr.partsAll]
  obtain ⟨lp', hlp', hrows, -, hfixed'⟩ := hall 1 _ hinner
  exact ⟨he, ⟨lp, hlp, hcolumns, hfixed⟩, lp', hlp', hrows, hfixed'⟩

/-! ### Sums and products -/

/-- Values are in order: wherever they stand, products are in normal form, and sums but for their
first term. What is in order adds up to a sum in normal form altogether if its deepest recurrence has
a step left. -/
theorem Func.sums_nearly_normal (f : Func) {q : InstId} {e : Expr}
    (he : (f.evolution f.flow.loops).oracle q = some e) :
    let S := f.scope f.flow.loops
    S.Orderly e ∧
    (∀ ts, .sum ts ∈ e.parts → NearlyNormalSum ts) ∧
    (∀ fs, .product fs ∈ e.parts → NormalProduct fs) ∧
    (∀ ts us, (∀ t ∈ ts, S.Orderly t) → S.add ts = .sum us →
      (∀ r, S.deepest? S.add ts = some r → Expr.dropZeros r.operands.tail ≠ []) →
      NormalSum us) := by
  intro S
  obtain ⟨-, horderly, -⟩ := oracle_of_inherits inherits_neat he
  refine ⟨horderly, fun ts hts => horderly _ hts, fun fs hfs => ?_, fun ts us hts hsum hstep =>
    Scope.normalSum_of_add hts hsum hstep⟩
  have htidy : NormalProduct fs ∧ ∀ t ∈ fs, t.Trimmed := horderly _ hfs
  exact htidy.1

/-- Takes the count off again from its sum with what is read in each round. -/
def takenOff : Func where
  name := "taken_off"
  params := #[]
  blocks := #[
    { terminator := .jump 1 },
    { listing := [0, 1, 2, 3, 4, 5], terminator := .branch (.result 5) 1 2 },
    { terminator := .ret none }]
  entry := 0
  arena := #[
    ⟨.phi (.int 64) [(0, .int 0), (1, .result 4)], 1⟩,
    ⟨.call "read" [] (.int 64), 1⟩,
    ⟨.arith .add (.int 64) (.result 0) (.result 1), 1⟩,
    ⟨.arith .sub (.int 64) (.result 2) (.result 0), 1⟩,
    ⟨.arith .add (.int 64) (.result 0) (.int 1), 1⟩,
    ⟨.compare .slt (.result 4) (.int 16), 1⟩]
  uses := #[(0, 2), (1, 2), (2, 3), (0, 3), (0, 4), (4, 5), (4, 0)]

/-- The sum of the count and what is read is in normal form, as the count goes on. -/
theorem Func.sums_nearly_normal_takenOff :
    let f := takenOff
    let S := f.scope f.flow.loops
    let count : Expr := .recurrence 1 [.const 0, .const 1]
    let read : Expr := .unknown (.result 1)
    (f.evolution f.flow.loops).oracle 0 = some count ∧
    (f.evolution f.flow.loops).oracle 1 = some read ∧
    S.add [count, read] = .sum [count, read] ∧ NormalSum [count, read] := by
  intro f S count read
  have hcount : (f.evolution f.flow.loops).oracle 0 = some count := by decide +kernel
  have hread : (f.evolution f.flow.loops).oracle 1 = some read := by decide +kernel
  have hsum : S.add [count, read] = .sum [count, read] := by decide +kernel
  have hdeepest : S.deepest? S.add [count, read] = some ⟨1, [.const 0, .const 1]⟩ := by
    decide +kernel
  obtain ⟨horderly, -, -, hnormal⟩ := Func.sums_nearly_normal f hcount
  have hterms := forall_mem_pair.mpr ⟨horderly, (Func.sums_nearly_normal f hread).1⟩
  refine ⟨hcount, hread, hsum, hnormal _ _ hterms hsum fun r hr => ?_⟩
  obtain rfl := Option.some.inj (hdeepest.symm.trans hr)
  decide

/-- Without the count, nothing is left of its recurrence but a zero in front of what is read. -/
theorem Func.not_sums_normal_takenOff :
    takenOff.validate = .ok () ∧
    ¬ ∀ q e ts, (takenOff.evolution takenOff.flow.loops).oracle q = some e →
      .sum ts ∈ e.parts → NormalSum ts := by
  have hvalid : takenOff.defect? = none := by decide +kernel
  have hrest : (takenOff.evolution takenOff.flow.loops).oracle 3 =
      some (.sum [.zero, .unknown (.result 1)]) := by decide +kernel
  refine ⟨by rw [Func.validate, hvalid], fun h => ?_⟩
  have hnormal := h 3 _ _ hrest (Expr.mem_parts_self _)
  exact hnormal.separate.nonzero List.mem_cons_self

end LoopStride
