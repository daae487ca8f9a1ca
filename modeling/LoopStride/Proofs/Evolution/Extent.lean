import LoopStride.Proofs.Access.Chain
import LoopStride.Proofs.Evolution.Lookups

/-! Where recurrences are at home: an instruction that follows a recurrence comes after the header of
its loop on every path. So does the merge that the instruction extends, which has its place in the
header of a loop. -/
namespace LoopStride

theorem Flow.Ahead.start {g : Flow} {b : BlockId} {k : Nat} {q : BlockId × Nat}
    (h : g.Ahead (b, k) q) : g.Ahead (b, 0) q :=
  h.imp_left fun h => ⟨h.1, Nat.zero_lt_of_lt h.2⟩

theorem Flow.Ahead.of_strictlyDominates {g : Flow} {p : BlockId × Nat} {b c : BlockId} {k n : Nat}
    (h : g.Ahead p (b, k)) (hbc : g.StrictlyDominates b c) : g.Ahead p (c, n) := by
  obtain ⟨x, m⟩ := p
  rcases h with ⟨rfl, -⟩ | hs
  · exact .inr hbc
  · refine .inr ⟨hs.1.trans hbc.1, ?_⟩
    rintro rfl
    exact hbc.not_dominates hs.1

namespace Func

/-- At point `p` control has come through the headers of all loops whose rounds are counted. -/
def Counted (f : Func) (p : BlockId × Nat) (e : Expr) : Prop :=
  e.MadeOf (.plain 1 (fun _ => True) fun h => f.flow.Ahead (h, 0) p)

/-- Wherever `v` is available, the rounds that `e` speaks of are being counted. -/
structure Counts (f : Func) (v : Value) (e : Expr) : Prop where
  regular : e.MadeOf (f.scope f.flow.loops).regular
  counted : ∀ p, f.flow.Reaches p.1 → f.Available p v → f.Counted p e

variable {f : Func} {id phi : InstId} {i : Instruction} {e : Expr} {v : Value} {b : BlockId}
  {r : Recurrence} {p q : BlockId × Nat} {T : Value → Expr → Prop} {incoming : List (BlockId × Value)}
  {m : HeaderPhi} {start next : Expr} {n : Nat}

theorem Counted.mono (h : f.Counted p e) (hpq : ∀ r, f.flow.Ahead r p → f.flow.Ahead r q) :
    f.Counted q e :=
  Expr.MadeOf.mono (M := .plain 1 (fun _ => True) fun h => f.flow.Ahead (h, 0) p) (Nat.le_refl 1)
    (fun _ h => h) (fun h _ _ hh => hpq (h, 0) hh) h

theorem stable_counted : (f.scope f.flow.loops).Stable
    (.plain 1 (fun _ => True) fun h => f.flow.Ahead (h, 0) p) :=
  Scope.stable_plain (Nat.le_refl 1) (Nat.le_succ 1)

theorem counts_symbol : f.Counts v (.unknown v) :=
  ⟨Expr.madeOf_unknown.mpr trivial, fun _ _ _ => Expr.madeOf_unknown.mpr trivial⟩

theorem counts_const {c : Int64} : f.Counts v (.const c) :=
  ⟨Expr.madeOf_const, fun _ _ _ => Expr.madeOf_const⟩

/-- The operands of an instruction that is no merge are available where it is. -/
theorem counted_of_operands (hu : f.UsesDominated) (hT : ∀ v a, T v a → f.Counts v a)
    (hp : f.PlacedAt id p) (hr : f.flow.Reaches p.1) (hi : f.inst? id = some i)
    (hphi : i.isPhi = false) (he : f.Evolves f.flow.loops T id i e) : f.Counted p e := by
  have hoperands : ∀ v ∈ i.operands, ∀ a, T v a → f.Counted p a := fun v hv a ha =>
    (hT v a ha).counted p hr (hu.operands id p hp hr i hi hphi v hv)
  rcases he.madeOf_of_operands stable_counted hphi hoperands with rfl | he
  · exact Expr.madeOf_unknown.mpr trivial
  · exact he

/-- What enters a loop counts no rounds that are not counted at the latch, too; and of those the loop
leaves alone what is counted before its header. -/
theorem counted_of_close? (hv : f.WellFormed) (hu : f.UsesDominated) (hm : f.MergesFit)
    (hplace : f.PlacedAt id p) (hi : f.inst? id = some i) (ho : i.operation = .phi incoming)
    (hp : (f.scope f.flow.loops).headerPhi? id incoming = some m)
    (hstart : f.Counts m.entering start)
    (hinv : (f.scope f.flow.loops).isInvariant m.loop start = true) (hnext : f.Counts m.next next)
    (hclose : (f.scope f.flow.loops).close? m (.unknown (.result id)) start next = some e)
    (hpq : f.flow.Ahead p q) : f.Counted q e := by
  obtain ⟨hheader, b, c, hmerge⟩ := exists_mergesAt hv hm hplace hi ho hp
  have hrc := hmerge.backEdge.2.1
  have hbc : f.flow.StrictlyDominates b c := by
    refine ⟨hmerge.dominates.trans hmerge.backEdge.2, ?_⟩
    rintro rfl
    exact hmerge.outside hmerge.inside
  have hlatch : f.Counted (c, (f.listing c).length) start := by
    have havailable := hu.incoming id p hplace _ hmerge.entering.1 hmerge.dominates.reaches_left
    exact (hstart.counted (b, _) hmerge.dominates.reaches_left havailable).mono
      fun _ ha => ha.of_strictlyDominates hbc
  have hlatch' : f.Counted (c, (f.listing c).length) next :=
    hnext.counted (c, _) hrc (hu.incoming id p hplace _ hmerge.next.1 hrc)
  obtain ⟨ops, rfl, hops⟩ := Scope.close?_madeOf hclose hnext.regular hinv
  have hbefore : ∀ o ∈ start :: ops, f.Counted (m.header, 0) o := fun o ho =>
    madeOf_header hmerge.loop (.inl hmerge.inside) hrc
      ((hops o ho).2 _ Scope.stable_regular hstart.regular hnext.regular) (hops o ho).1
      (fun _ _ _ => trivial) ((hops o ho).2 _ stable_counted hlatch hlatch')
  have hahead : f.flow.Ahead (m.header, 0) q := hheader ▸ Flow.Ahead.start hpq
  exact .recurrenceOf (Nat.le_succ 1) (by simp) (fun _ _ => hahead)
    fun o ho => (hbefore o ho).mono fun _ ha => ha.trans hahead

/-- What is found for an instruction counts rounds that are counted where it is if this holds for its
operands. -/
theorem Evolves.counts (hv : f.WellFormed) (hu : f.UsesDominated) (hm : f.MergesFit)
    (hT : ∀ v a, T v a → f.Counts v a) (hi : f.inst? id = some i)
    (he : f.Evolves f.flow.loops T id i e) : f.Counts (.result id) e := by
  refine ⟨he.regular fun v a ha => (hT v a ha).regular, fun q hq hav => ?_⟩
  obtain ⟨p, hp, hpq⟩ := hav
  cases hphi : i.isPhi with
  | false =>
    have hr := (hpq.dominates hq).reaches_left
    exact (counted_of_operands hu hT hp hr hi hphi he).mono fun _ ha => ha.trans hpq
  | true =>
    cases he with
    | symbol => exact Expr.madeOf_unknown.mpr trivial
    | recurrence ho hm' hstart hinv hnext hclose =>
      exact counted_of_close? hv hu hm hp hi ho hm' (hT _ _ hstart) hinv (hT _ _ hnext) hclose hpq
    | add ho | sub ho | mul ho | shl ho | cast ho | address ho =>
      simp [Instruction.isPhi, Instruction.opcode, ho, Operation.opcode] at hphi

/-! ### Recurrences -/

/-- A recurrence is one of a loop, and control comes through the header of that loop first. -/
theorem Counts.dominates (h : f.Counts (.result id) e) (hr : e.recurrence? = some r) :
    (∃ l, f.flow.loops.ofHeader? r.header = some l) ∧
      ∀ b, id ∈ f.listing b → f.flow.Reaches b → f.flow.Dominates r.header b := by
  obtain rfl := Expr.recurrence?_eq_some_iff.mp hr
  obtain ⟨hleast, hoperand, -⟩ := Expr.madeOf_recurrence.mp h.regular
  obtain ⟨o, ho⟩ := List.exists_mem_of_length_pos (Nat.lt_of_lt_of_le Nat.two_pos hleast)
  obtain ⟨l, hl, -⟩ := hoperand o ho
  refine ⟨⟨l, hl⟩, fun b hid hb => ?_⟩
  obtain ⟨k, hp⟩ := List.mem_iff_getElem?.mp hid
  -- right behind the instruction the rounds of the loop are being counted
  have hdone : f.Available (b, k + 1) (.result id) := ⟨(b, k), hp, .inl ⟨rfl, Nat.lt_succ_self k⟩⟩
  have hahead := (Expr.madeOf_recurrence.mp (h.counted (b, k + 1) hb hdone)).2.1 o ho
  exact hahead.dominates hb

/-- The merge was put into the header of a loop. -/
def MergesInHeader (f : Func) (phi : InstId) : Prop :=
  ∃ header l, f.blockOf? phi = some header ∧ f.flow.loops.ofHeader? header = some l

/-- What is known of a value with a recurrence: its rounds are counted where the value is, and the
merge that the value extends, if it does, has that recurrence and is in a header. -/
structure Follows (f : Func) (v : Value) (e : Expr) : Prop where
  counts : f.Counts v e
  merge : e.recurrence?.isSome → ∀ n phi, f.EndsAfter n v (some phi) →
    f.MergesInHeader phi ∧ f.Counts (.result phi) e

theorem inherits_follows (hv : f.WellFormed) (hu : f.UsesDominated) (hm : f.MergesFit) :
    f.Inherits f.flow.loops f.Follows where
  symbol _ := ⟨counts_symbol, fun h => by cases h⟩
  literal _ _ := ⟨counts_const, fun h => by cases h⟩
  evolves {id i e} hi he := by
    have hcounts := he.counts hv hu hm (fun _ _ => Follows.counts) hi
    refine ⟨hcounts, fun hrec n phi hend => ?_⟩
    cases hend with
    | merge hi' hphi =>
      -- of what is found for a merge only the recurrence of a header is one
      obtain rfl := Option.some.inj (hi.symm.trans hi')
      refine ⟨?_, hcounts⟩
      cases he with
      | symbol => cases hrec
      | recurrence ho hp =>
        obtain ⟨hhome, hl, -⟩ := Scope.headerPhi?_eq_some hp
        exact ⟨_, _, hhome, hl⟩
      | add ho | sub ho | mul ho | shl ho | cast ho | address ho =>
        simp [Instruction.isPhi, Instruction.opcode, ho, Operation.opcode] at hphi
    | extend hi' ho hw hend =>
      obtain rfl := Option.some.inj (hi.symm.trans hi')
      exact (he.of_extension ho hw hrec).merge hrec _ phi hend

theorem follows_of_oracle (hv : f.WellFormed) (hu : f.UsesDominated) (hm : f.MergesFit)
    (hr : (f.evolution f.flow.loops).oracle.recurrence? id = some r) :
    f.Follows (.result id) r.toExpr := by
  obtain ⟨e, he, hrec⟩ := Option.bind_eq_some_iff.mp hr
  rw [← Expr.recurrence?_eq_some_iff.mp hrec]
  exact oracle_of_inherits (inherits_follows hv hu hm) he

end Func
end LoopStride
