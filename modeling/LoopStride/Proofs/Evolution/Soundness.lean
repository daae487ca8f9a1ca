import LoopStride.Proofs.Evolution.Memo
import LoopStride.Proofs.Evolution.Headers

/-! Symbolic values are sound: in every run, an instruction that is done has yielded the word that
its symbolic value stands for. -/
namespace LoopStride

/-! ### Words of single operations -/

theorem shiftLeft_eq_mul (x s : Int64) : x <<< s = (1 <<< s) * x := by
  rw [← Int64.toBitVec_inj, Int64.toBitVec_mul, Int64.toBitVec_shiftLeft, Int64.toBitVec_shiftLeft,
    BitVec.mul_comm, BitVec.shiftLeft_eq', BitVec.shiftLeft_eq']
  exact (BitVec.mul_twoPow_eq_shiftLeft _ _).symm

theorem shiftFactor?_eq_some {v : Value} {c : Int64} (h : shiftFactor? v = some c) :
    ∃ s bits, v = .literal (.int s bits) ∧ (0 ≤ s ∧ s < 64) ∧ c = 1 <<< s := by
  rw [shiftFactor?, Option.bind_eq_some_iff] at h
  obtain ⟨s, hs, h⟩ := h
  split at h
  · rename_i hle
    obtain ⟨h0, h62⟩ := hle
    have hlt : s < 64 := by
      rw [Int64.le_iff_toInt_le] at h62
      rw [Int64.lt_iff_toInt_lt]
      exact lt_of_le_of_lt h62 (by decide)
    cases v with
    | literal l =>
      cases l with
      | int s' bits =>
        obtain rfl : s' = s := Option.some.inj hs
        exact ⟨s', bits, rfl, ⟨h0, hlt⟩, (Option.some.inj h).symm⟩
      | null => cases hs
    | _ => cases hs
  · cases h

/-- Where all integers are 64 bits wide, a conversion keeps the value or stands for itself. -/
theorem convert_eq (op : CastOp) {source target : Option Nat} (symbol e : Expr)
    (hs : ∀ bits ∈ source, bits = 64) (ht : ∀ bits ∈ target, bits = 64) :
    convert op source target symbol e = e ∨ convert op source target symbol e = symbol := by
  have keep : ∀ {width : Option Nat} {g : Nat → Int64 → Int64} {c : Int64}, g 64 c = c →
      (∀ bits ∈ width, bits = 64) →
      ((width.map fun bits => Expr.const (g bits c)).getD symbol = .const c ∨
        (width.map fun bits => Expr.const (g bits c)).getD symbol = symbol) := by
    intro width g c hg hw
    cases width with
    | none => exact .inr rfl
    | some bits =>
      obtain rfl := hw bits rfl
      exact .inl (congrArg Expr.const hg)
  unfold convert
  split
  · split
    · exact keep (g := lowBits) (if_neg (by decide)) hs
    · exact .inl rfl
  · exact keep (g := wrapTo) (if_neg (by decide)) ht
  · exact .inr rfl
  · exact .inl rfl

namespace Func
variable {f : Func} {id : InstId} {i : Instruction} {e : Expr} {v : Value}

theorem Wide.width_of_operand (hw : f.Wide) (hi : f.inst? id = some i) (hv : v ∈ i.operands) :
    ∀ bits ∈ f.width? v, bits = 64 := by
  obtain ⟨a, hmem, rfl⟩ := exists_mem_arena hi
  intro bits hbits
  cases v with
  | literal l => exact hw.literals a hmem _ hv rfl bits hbits
  | param p =>
    obtain ⟨t, ht, hbits⟩ := Option.bind_eq_some_iff.mp hbits
    rw [← Array.getElem?_toList] at ht
    exact hw.params t (List.mem_of_getElem? ht) bits hbits
  | result j =>
    obtain ⟨k, hk, hbits⟩ := Option.bind_eq_some_iff.mp hbits
    have hsource : j ∈ a.instruction.sources :=
      List.mem_filterMap.mpr ⟨.result j, hv, rfl⟩
    have hne := hw.comparisons_unread a hmem j hsource k hk
    obtain ⟨c, hc, rfl⟩ := exists_mem_arena hk
    exact hw.results c hc hne bits hbits

/-- An expression made of what is visible wherever the operands are is visible at the operation. -/
theorem visible_of_operands {p : BlockId × Nat} (hs : f.StrictSsa) (hp : f.PlacedAt id p)
    (hi : f.inst? id = some i) (hphi : i.isPhi = false) (parts : List (Value × Expr))
    (hread : ∀ x ∈ parts, x.1 ∈ i.operands ∧ f.Shows x.1 x.2)
    (hmade : ∀ M, (f.scope f.flow.loops).Stable M → (∀ x ∈ parts, x.2.MadeOf M) → e.MadeOf M) :
    e.MadeOf (f.scope f.flow.loops).regular ∧ (f.flow.Reaches p.1 → f.Visible p e) := by
  constructor
  · exact hmade _ Scope.stable_regular fun x hx => (hread x hx).2.regular
  · intro hr
    refine hmade _ (Scope.stable_plain (Nat.le_refl 1) (Nat.le_succ 1)) fun x hx => ?_
    obtain ⟨hop, hshows⟩ := hread x hx
    exact hshows.visible p hr (hs.operands_available id p hp hr i hi hphi _ hop)

/-- An operation is told by an expression made of what its operands are told by. -/
theorem tells_of_operands (hs : f.StrictSsa) (hi : f.inst? id = some i) (hphi : i.isPhi = false)
    (parts : List (Value × Expr)) (hread : ∀ x ∈ parts, x.1 ∈ i.operands ∧ f.Tells x.1 x.2)
    (hmade : ∀ M, (f.scope f.flow.loops).Stable M → (∀ x ∈ parts, x.2.MadeOf M) → e.MadeOf M)
    (hword : ∀ inp (s : Machine), (∀ x ∈ parts, s.read inp x.1 = x.2.eval (s.reading inp)) →
      i.operation.word? (s.read inp) = some (e.eval (s.reading inp))) :
    f.Tells (.result id) e := by
  obtain ⟨p, hp⟩ := exists_placedAt hs hi
  obtain ⟨hregular, hvisible⟩ := visible_of_operands hs hp hi hphi parts
    (fun x hx => ⟨(hread x hx).1, (hread x hx).2.shows⟩) hmade
  refine tells_of_word hs hp hi hphi hregular hvisible fun inp s hr hsp => ?_
  refine hword inp s fun x hx => (hread x hx).2.word inp s hr ?_
  rw [hsp]
  exact hs.operands_available id p hp (hsp ▸ hr.reaches) i hi hphi _ (hread x hx).1

theorem tells_unary {v : Value} {a : Expr} (hs : f.StrictSsa) (hi : f.inst? id = some i)
    (hphi : i.isPhi = false) (hops : v ∈ i.operands) (ha : f.Tells v a)
    (hmade : ∀ M, (f.scope f.flow.loops).Stable M → a.MadeOf M → e.MadeOf M)
    (hword : ∀ inp (s : Machine), s.read inp v = a.eval (s.reading inp) →
      i.operation.word? (s.read inp) = some (e.eval (s.reading inp))) :
    f.Tells (.result id) e :=
  tells_of_operands hs hi hphi [(v, a)] (List.forall_mem_singleton.mpr ⟨hops, ha⟩)
    (fun M hM h => hmade M hM (h (v, a) List.mem_cons_self))
    fun inp s h => hword inp s (h (v, a) List.mem_cons_self)

theorem tells_binary {l r : Value} {a b : Expr} (hs : f.StrictSsa) (hi : f.inst? id = some i)
    (hphi : i.isPhi = false) (hops : i.operands = [l, r]) (ha : f.Tells l a) (hb : f.Tells r b)
    (hmade : ∀ M, (f.scope f.flow.loops).Stable M → a.MadeOf M → b.MadeOf M → e.MadeOf M)
    (hword : ∀ inp (s : Machine), s.read inp l = a.eval (s.reading inp) →
      s.read inp r = b.eval (s.reading inp) →
      i.operation.word? (s.read inp) = some (e.eval (s.reading inp))) :
    f.Tells (.result id) e := by
  refine tells_of_operands hs hi hphi [(l, a), (r, b)] (forall_mem_pair.mpr ⟨⟨?_, ha⟩, ?_, hb⟩)
    (fun M hM h => ?_) fun inp s h => ?_
  · simp [hops]
  · simp [hops]
  · obtain ⟨hl, hr⟩ := forall_mem_pair.mp h
    exact hmade M hM hl hr
  · obtain ⟨hl, hr⟩ := forall_mem_pair.mp h
    exact hword inp s hl hr

theorem Tells.proper (h : f.Tells v e) : e.MadeOf .proper := h.regular.proper (Nat.le_succ 1)

theorem tells_sum {l r : Value} {a b : Expr} (hs : f.StrictSsa) (hi : f.inst? id = some i)
    (hphi : i.isPhi = false) (hops : i.operands = [l, r]) (ha : f.Tells l a) (hb : f.Tells r b)
    (hword : ∀ read, i.operation.word? read = some (read l + read r)) :
    f.Tells (.result id) ((f.scope f.flow.loops).add [a, b]) := by
  refine tells_binary hs hi hphi hops ha hb
    (fun M hM ha hb => hM.madeOf_add (forall_mem_pair.mpr ⟨ha, hb⟩)) fun inp s hl hr => ?_
  rw [hword, hl, hr, Scope.eval_add (forall_mem_pair.mpr ⟨ha.proper, hb.proper⟩)]
  simp

theorem tells_difference {l r : Value} {a b : Expr} (hs : f.StrictSsa) (hi : f.inst? id = some i)
    (ho : i.operation = .arith .sub l r) (hphi : i.isPhi = false) (ha : f.Tells l a)
    (hb : f.Tells r b) :
    f.Tells (.result id)
      ((f.scope f.flow.loops).add [a, (f.scope f.flow.loops).scale (-1) b]) := by
  have hops : i.operands = [l, r] := by rw [Instruction.operands, ho, Operation.operands]
  refine tells_binary hs hi hphi hops ha hb (fun M hM ha hb =>
    hM.madeOf_add (forall_mem_pair.mpr ⟨ha, hM.madeOf_scale hb⟩)) fun inp s hl hr => ?_
  have hterms := forall_mem_pair.mpr ⟨ha.proper, Scope.stable_proper.madeOf_scale
    (S := f.scope f.flow.loops) (c := -1) hb.proper⟩
  rw [ho, Operation.word?, hl, hr, Scope.eval_add hterms, List.map_cons, List.map_cons,
    List.map_nil, List.sum_cons, List.sum_cons, List.sum_nil, Scope.eval_scale]
  congr 1
  grind

theorem tells_cast {op : CastOp} {source : Value} {a : Expr} (hs : f.StrictSsa) (hw : f.Wide)
    (hi : f.inst? id = some i) (ho : i.operation = .cast op source) (hphi : i.isPhi = false)
    (ha : f.Tells source a) :
    f.Tells (.result id)
      (convert op (f.width? source) i.ty.width? (.unknown (.result id)) a) := by
  have hops : source ∈ i.operands := by simp [Instruction.operands, ho, Operation.operands]
  have hresult : ∀ bits ∈ i.ty.width?, bits = 64 := by
    obtain ⟨c, hc, rfl⟩ := exists_mem_arena hi
    refine hw.results c hc ?_
    rw [Instruction.opcode, ho]
    intro h
    cases h
  rcases convert_eq op (.unknown (.result id)) a
    (hw.width_of_operand hi hops) hresult with he | he
  · rw [he]
    refine tells_unary hs hi hphi hops ha (fun _ _ h => h) fun inp s h => ?_
    rw [ho, Operation.word?, h]
  · rw [he]
    exact tells_symbol

theorem isPhi_eq_false {o : Operation} (ho : i.operation = o) (h : (o.opcode == .phi) = false) :
    i.isPhi = false := by
  rwa [Instruction.isPhi, Instruction.opcode, ho]

theorem operands_eq {o : Operation} (ho : i.operation = o) : i.operands = o.operands := by
  rw [Instruction.operands, ho]

/-- What is found for an instruction tells its value if what is found for its operands does. -/
theorem inherits_tells (hs : f.StrictSsa) (hh : f.Homed) (hw : f.Wide) :
    f.Inherits f.flow.loops f.Tells where
  symbol v := tells_symbol
  literal c bits := tells_literal
  evolves {id i e} hi he := by
    cases he with
    | symbol => exact tells_symbol
    | add ho ha hb =>
      exact tells_sum hs hi (isPhi_eq_false ho rfl) (operands_eq ho) ha hb fun read => by
        rw [ho, Operation.word?]
    | sub ho ha hb => exact tells_difference hs hi ho (isPhi_eq_false ho rfl) ha hb
    | mul ho ha hb =>
      refine tells_binary hs hi (isPhi_eq_false ho rfl) (operands_eq ho) ha hb
        (fun M hM ha hb => hM.madeOf_mul ha hb) fun inp s hl hr => ?_
      rw [ho, Operation.word?, hl, hr, Scope.eval_mul ha.proper hb.proper]
    | shl ho hc ha =>
      obtain ⟨s, bits, rfl, hrange, rfl⟩ := shiftFactor?_eq_some hc
      refine tells_unary hs hi (isPhi_eq_false ho rfl) (operands_eq ho ▸ List.mem_cons_self) ha
        (fun M hM h => hM.madeOf_scale h) fun inp m hl => ?_
      rw [ho, Operation.word?, hl, Scope.eval_scale, ← shiftLeft_eq_mul]
      exact if_pos hrange
    | cast ho ha => exact tells_cast hs hw hi ho (isPhi_eq_false ho rfl) ha
    | address ho ha hb =>
      exact tells_sum hs hi (isPhi_eq_false ho rfl) (operands_eq ho) ha hb fun read => by
        rw [ho, Operation.word?]
    | recurrence ho hp hstart hinv hnext he =>
      exact tells_recurrence hs hh hi ho hp hstart hinv hnext he

/-- At every point of every run, an instruction of the current block that is done holds the word
that its symbolic value stands for. -/
theorem evolution_sound (hs : f.StrictSsa) (hh : f.Homed) (hw : f.Wide) {inp : Inputs} {s : Machine}
    (hr : f.Runs inp s) (hid : id ∈ (f.listing s.block).take s.done) (hi : f.inst? id = some i)
    (hres : i.hasResult = true) :
    ∃ e, (f.evolution f.flow.loops).oracle id = some e ∧ s.value id = e.eval (s.reading inp) := by
  obtain ⟨k, hk⟩ := List.mem_iff_getElem?.mp hid
  rw [List.getElem?_take, Option.ite_none_right_eq_some] at hk
  obtain ⟨hlt, hp⟩ := hk
  have hlisted : id ∈ f.listedIds := by
    obtain ⟨block, hb, hm⟩ := exists_block_of_placedAt hp
    rw [← Array.getElem?_toList] at hb
    rw [listedIds_eq_flatMap]
    exact List.mem_flatMap.mpr ⟨block, List.mem_of_getElem? hb, List.mem_of_getElem? hm⟩
  obtain ⟨e, he⟩ := exists_oracle hlisted hi hres
  exact ⟨e, he, (oracle_of_inherits (inherits_tells hs hh hw) he).word inp s hr
    ⟨(s.block, k), hp, .inl ⟨rfl, hlt⟩⟩⟩

theorem Runs.exec_word {inp : Inputs} {s : Machine} {w : Int64} (hr : f.Runs inp s)
    (hid : (f.listing s.block)[s.done]? = some id) (hi : f.inst? id = some i)
    (hphi : i.isPhi = false) (hw : i.operation.word? (s.read inp) = some w) :
    f.Runs inp (s.yield id w) :=
  .exec hr hid hi hphi fun _ hx => Option.some.inj (hw.symm.trans hx)

end Func

/-! ### Two runs -/

/-- A machine before the first step, with zeros all over. -/
def blank : Machine := ⟨0, 0, fun _ => 0, fun _ => 0⟩

def allZero : Inputs := ⟨fun _ => 0, 0⟩

/-- Counts up from zero and adds up the counts. -/
def countAndSum : Func where
  name := "count_and_sum"
  params := #[.int 64]
  blocks := #[
    { terminator := .jump 1 },
    { listing := [0, 1, 2, 3], terminator := .branch (.param 0) 1 2 },
    { terminator := .ret (some (.result 1)) }]
  entry := 0
  arena := #[
    ⟨.phi (.int 64) [(0, .int 0), (1, .result 2)], 1⟩,
    ⟨.phi (.int 64) [(0, .int 0), (1, .result 3)], 1⟩,
    ⟨.arith .add (.int 64) (.result 0) (.int 1), 1⟩,
    ⟨.arith .add (.int 64) (.result 1) (.result 0), 1⟩]
  uses := #[]

/-- From the header of the loop back to it. -/
def countAndSumRound (s : Machine) (count total : Int64) : Machine :=
  ((s.yield 2 count).yield 3 total).enter countAndSum allZero 1

def countAndSumTwice : Machine :=
  countAndSumRound (countAndSumRound (blank.enter countAndSum allZero 1) 1 0) 2 1

theorem countAndSum_strictSsa : countAndSum.StrictSsa := by
  refine ⟨?_, ?_, ?_, ?_, ?_, ?_⟩
  · rw [Func.validate, show countAndSum.defect? = none by decide +kernel]
  all_goals decide +kernel

theorem countAndSum_runs : countAndSum.Runs allZero countAndSumTwice := by
  have h0 : countAndSum.Runs allZero blank := .start fun _ => 0
  have h1 := h0.jump (t := 1) rfl (by decide +kernel)
  have h2 := h1.exec_word (w := 1) rfl rfl rfl (by decide +kernel)
  have h3 := h2.exec_word (w := 0) rfl rfl rfl (by decide +kernel)
  have h4 := h3.jump (t := 1) rfl (by decide +kernel)
  have h5 := h4.exec_word (w := 2) rfl rfl rfl (by decide +kernel)
  have h6 := h5.exec_word (w := 1) rfl rfl rfl (by decide +kernel)
  exact h6.jump (t := 1) rfl (by decide +kernel)

theorem evolution_sound_countAndSum :
    (countAndSum.StrictSsa ∧ countAndSum.Homed ∧ countAndSum.Wide ∧
      countAndSum.Runs allZero countAndSumTwice ∧
      1 ∈ (countAndSum.listing countAndSumTwice.block).take countAndSumTwice.done) ∧
    ∃ e, (countAndSum.evolution countAndSum.flow.loops).oracle 1 = some e ∧
      countAndSumTwice.value 1 = e.eval (countAndSumTwice.reading allZero) := by
  have hh : countAndSum.Homed := by decide +kernel
  have hw : countAndSum.Wide := ⟨by decide, by decide, by decide, by decide⟩
  have hid : 1 ∈ (countAndSum.listing countAndSumTwice.block).take countAndSumTwice.done := by
    decide +kernel
  refine ⟨⟨countAndSum_strictSsa, hh, hw, countAndSum_runs, hid⟩, ?_⟩
  exact Func.evolution_sound countAndSum_strictSsa hh hw countAndSum_runs hid rfl rfl

/-- Adds up what a load yields. The load was put into a missing block and is listed in the loop, so
that it passes for a value from outside. -/
def strayLoad : Func where
  name := "stray_load"
  params := #[]
  blocks := #[
    { terminator := .jump 1 },
    { listing := [0, 2], terminator := .jump 2 },
    { listing := [1], terminator := .jump 1 }]
  entry := 0
  arena := #[
    ⟨.phi (.int 64) [(0, .int 0), (2, .result 1)], 1⟩,
    ⟨.arith .add (.int 64) (.result 0) (.result 2), 2⟩,
    ⟨.load (.int 64) .null, 9⟩]
  uses := #[]

/-- From a block before the header through the loop to the end of its last block. -/
def strayLoadRound (s : Machine) (loaded total : Int64) : Machine :=
  (((s.enter strayLoad allZero 1).yield 2 loaded).enter strayLoad allZero 2).yield 1 total

def strayLoadTwice : Machine := strayLoadRound (strayLoadRound blank 5 5) 7 12

theorem strayLoad_strictSsa : strayLoad.StrictSsa := by
  refine ⟨?_, ?_, ?_, ?_, ?_, ?_⟩
  · rw [Func.validate, show strayLoad.defect? = none by decide +kernel]
  all_goals decide +kernel

theorem strayLoad_runs : strayLoad.Runs allZero strayLoadTwice := by
  have h0 : strayLoad.Runs allZero blank := .start fun _ => 0
  have h1 := h0.jump (t := 1) rfl (by decide +kernel)
  have h2 := h1.exec (w := 5) rfl rfl rfl nofun
  have h3 := h2.jump (t := 2) rfl (by decide +kernel)
  have h4 := h3.exec_word (w := 5) rfl rfl rfl (by decide +kernel)
  have h5 := h4.jump (t := 1) rfl (by decide +kernel)
  have h6 := h5.exec (w := 7) rfl rfl rfl nofun
  have h7 := h6.jump (t := 2) rfl (by decide +kernel)
  exact h7.exec_word (w := 12) rfl rfl rfl (by decide +kernel)

/-- Without a home in its block the load counts as invariant, and the sum `12` is told as `14`. -/
theorem not_evolution_sound_strayLoad :
    (strayLoad.StrictSsa ∧ strayLoad.Wide ∧ strayLoad.Runs allZero strayLoadTwice ∧
      1 ∈ (strayLoad.listing strayLoadTwice.block).take strayLoadTwice.done ∧
      (strayLoad.inst? 1).map Instruction.hasResult = some true) ∧
    ¬ ∃ e, (strayLoad.evolution strayLoad.flow.loops).oracle 1 = some e ∧
      strayLoadTwice.value 1 = e.eval (strayLoadTwice.reading allZero) := by
  have hw : strayLoad.Wide := ⟨by decide, by decide, by decide, by decide⟩
  refine ⟨⟨strayLoad_strictSsa, hw, strayLoad_runs, by decide +kernel, rfl⟩, ?_⟩
  rintro ⟨e, he, hvalue⟩
  have hfound : (strayLoad.evolution strayLoad.flow.loops).oracle 1 =
      some (.recurrence 1 [.unknown (.result 2), .unknown (.result 2)]) := by decide +kernel
  have hdiffer : strayLoadTwice.value 1 ≠ (Expr.recurrence 1
      [.unknown (.result 2), .unknown (.result 2)]).eval (strayLoadTwice.reading allZero) := by
    decide +kernel
  rw [hfound, Option.some.injEq] at he
  exact hdiffer (he ▸ hvalue)

end LoopStride
