import LoopStride.Proofs.Expr.Depth
import LoopStride.Proofs.Access.Walk
import LoopStride.Proofs.Evolution.Equations
import LoopStride.Proofs.Evolution.Soundness

/-! Constants and bit widths. Straight-line arithmetic on literals folds to constants. Folding wraps
at 64 bits and not at the width of an instruction, so that a constant is right up to a multiple of
two to the width. Extensions rely on more than that: with a sign, on constants in the signed range
of the narrower width, and without, on constants below two to that width. What an instruction is not
computed from does not matter. -/
namespace LoopStride

/-- The number is in the signed range of the width. -/
def FitsIn (w : Nat) (c : Int64) : Prop := -2 ^ (w - 1) ≤ c.toInt ∧ c.toInt < 2 ^ (w - 1)

instance {w : Nat} {c : Int64} : Decidable (FitsIn w c) := inferInstanceAs (Decidable (_ ∧ _))

/-! ### Words of a number -/

section
variable {w n : Nat} {a b c : Int64} {k : Int}

theorem ofInt_toInt_eq_setWidth (hw : w ≤ 64) :
    BitVec.ofInt w c.toInt = c.toBitVec.setWidth w := by
  rw [← BitVec.signExtend_eq_setWidth_of_le _ hw]
  rfl

theorem ofInt_toInt_add (hw : w ≤ 64) :
    BitVec.ofInt w (a + b).toInt = BitVec.ofInt w a.toInt + BitVec.ofInt w b.toInt := by
  rw [ofInt_toInt_eq_setWidth hw, ofInt_toInt_eq_setWidth hw, ofInt_toInt_eq_setWidth hw,
    Int64.toBitVec_add, BitVec.setWidth_add _ _ hw]

theorem ofInt_toInt_sub (hw : w ≤ 64) :
    BitVec.ofInt w (a - b).toInt = BitVec.ofInt w a.toInt - BitVec.ofInt w b.toInt := by
  have hback := ofInt_toInt_add (a := a - b) (b := b) hw
  rw [Int64.sub_add_cancel] at hback
  rw [hback, BitVec.add_sub_cancel]

theorem ofInt_toInt_mul (hw : w ≤ 64) :
    BitVec.ofInt w (a * b).toInt = BitVec.ofInt w a.toInt * BitVec.ofInt w b.toInt := by
  rw [ofInt_toInt_eq_setWidth hw, ofInt_toInt_eq_setWidth hw, ofInt_toInt_eq_setWidth hw,
    Int64.toBitVec_mul, BitVec.setWidth_mul _ _ hw]

theorem toBitVec_shiftLeft_of_lt (hb : 0 ≤ b.toInt) (hlt : b.toInt < 64) :
    (a <<< b).toBitVec = a.toBitVec <<< b.toInt.toNat := by
  have hsmod : b.toBitVec.smod 64 = b.toBitVec := by
    apply BitVec.eq_of_toInt_eq
    rw [BitVec.toInt_smod, show (64 : BitVec 64).toInt = 64 by decide]
    exact Int.fmod_eq_of_lt hb hlt
  have hnat : b.toBitVec.toNat = b.toInt.toNat := by
    have hint : b.toInt = b.toBitVec.toInt := rfl
    rw [hint, BitVec.toInt_eq_toNat_cond] at hb ⊢
    split at hb <;> omega
  rw [Int64.toBitVec_shiftLeft, hsmod, BitVec.shiftLeft_eq', hnat]

theorem ofInt_toInt_shiftLeft (hw : w ≤ 64) (hb : 0 ≤ b.toInt) (hlt : b.toInt < 64) :
    BitVec.ofInt w (a <<< b).toInt = BitVec.ofInt w a.toInt <<< b.toInt.toNat := by
  rw [ofInt_toInt_eq_setWidth hw, ofInt_toInt_eq_setWidth hw, toBitVec_shiftLeft_of_lt hb hlt,
    BitVec.setWidth_shiftLeft_of_le hw]

theorem ofInt_bmod : BitVec.ofInt w (k.bmod (2 ^ w)) = BitVec.ofInt w k := by
  apply BitVec.eq_of_toInt_eq
  rw [BitVec.toInt_ofInt, BitVec.toInt_ofInt, Int.bmod_bmod]

theorem eq_toInt_ofInt_iff (hw : 1 ≤ w) :
    c.toInt = (BitVec.ofInt w c.toInt).toInt ↔ FitsIn w c := by
  constructor
  · intro h
    rw [FitsIn, h]
    exact ⟨BitVec.le_toInt _, BitVec.toInt_lt⟩
  · rintro ⟨hle, hlt⟩
    exact (BitVec.toInt_ofInt_eq_self hw hle hlt).symm

theorem ofInt_signExtend (hn : 1 ≤ n) (hc : FitsIn n c) :
    BitVec.ofInt w c.toInt = (BitVec.ofInt n c.toInt).signExtend w := by
  rw [BitVec.signExtend, ← (eq_toInt_ofInt_iff hn).mpr hc]

/-- A number below two to the width is the reading without sign of its word, once a negative one is
cut down to its low bits. -/
theorem ofInt_zeroExtend (hn : 1 ≤ n) (hn' : n ≤ 63) (hc : c.toInt < 2 ^ n) :
    BitVec.ofInt w (if c < 0 then lowBits n c else c).toInt =
      (BitVec.ofInt n c.toInt).setWidth w := by
  have hpos : (0 : Int) < 2 ^ n := Int.pow_pos (by decide)
  have hle : (2 : Int) ^ n ≤ 2 ^ 63 := by exact_mod_cast Nat.pow_le_pow_right Nat.two_pos hn'
  have hnonneg := Int.emod_nonneg c.toInt (Int.ne_of_gt hpos)
  have hlt := Int.emod_lt_of_pos c.toInt hpos
  have hread : (if c < 0 then lowBits n c else c).toInt = c.toInt % 2 ^ n := by
    split
    · rw [lowBits, if_pos ⟨hn, hn'⟩]
      exact Int64.toInt_ofInt_of_le (n := c.toInt % 2 ^ n) (by omega) (by omega)
    · next h =>
      have hzero : 0 ≤ c.toInt := by simpa [Int64.lt_iff_toInt_lt] using h
      exact (Int.emod_eq_of_lt hzero hc).symm
  have hnat : ((BitVec.ofInt n c.toInt).toNat : Int) = c.toInt % 2 ^ n := by
    rw [BitVec.toNat_ofInt, Int.toNat_of_nonneg (by exact_mod_cast hnonneg)]
    norm_cast
  rw [hread, ← hnat, BitVec.ofInt_natCast, BitVec.ofNat_toNat]

theorem ofInt_truncate (hw : 1 ≤ w) (hw' : w ≤ 63) (hn : w ≤ n) (hn' : n ≤ 64) :
    BitVec.ofInt w (wrapTo w c).toInt = (BitVec.ofInt n c.toInt).setWidth w := by
  have hread : (wrapTo w c).toInt = c.toInt.bmod (2 ^ w) := by
    have hle : (2 : Int) ^ (w - 1) ≤ 2 ^ 63 := by
      exact_mod_cast Nat.pow_le_pow_right Nat.two_pos (by omega)
    have hword : (BitVec.ofInt w c.toInt).toInt = c.toInt.bmod (2 ^ w) := BitVec.toInt_ofInt _
    have hlow := BitVec.le_toInt (BitVec.ofInt w c.toInt)
    have hhigh := BitVec.toInt_lt (x := BitVec.ofInt w c.toInt)
    rw [hword] at hlow hhigh
    rw [wrapTo, if_pos ⟨hw, hw'⟩]
    exact Int64.toInt_ofInt_of_le (n := c.toInt.bmod (2 ^ w)) (by omega) (by omega)
  rw [hread, ofInt_bmod, ofInt_toInt_eq_setWidth (Nat.le_trans hn hn'), ofInt_toInt_eq_setWidth hn',
    BitVec.setWidth_setWidth_of_le _ hn]

end

theorem Scope.add_consts {S : Scope} {a b : Int64} :
    S.add [.const a, .const b] = .const (a + b) := by
  have hterms : Terms.ofList S.add (Expr.termsOfAll [.const a, .const b]) =
      ⟨0 + b + a, [], []⟩ := rfl
  rw [add_eq_sumOf hterms, Int64.zero_add, Int64.add_comm b a]
  by_cases hzero : a + b = 0 <;> simp [Expr.sumOf, hzero]

/-! ### Arithmetic at a width -/

structure Bits where
  width : Nat
  word : BitVec width

def ArithOp.bits? {w : Nat} (x y : BitVec w) : ArithOp → Option (BitVec w)
  | .add => some (x + y)
  | .sub => some (x - y)
  | .mul => some (x * y)
  | _ => none

def CastOp.bits? {n : Nat} (x : BitVec n) (w : Nat) : CastOp → Option (BitVec w)
  | .signExtend => some (x.signExtend w)
  | .zeroExtend | .truncate => some (x.setWidth w)
  | _ => none

/-- Extensions strictly widen, truncations strictly narrow. -/
def CastOp.Resizes (n w : Nat) : CastOp → Prop
  | .signExtend => n < w
  | .zeroExtend => n < w ∧ n ≠ 63
  | .truncate => w < n
  | _ => False

namespace Func

/-- The word in a slot, where each instruction computes at the width of its type. -/
inductive Computes (f : Func) : Value → Bits → Prop where
  | literal (c : Int64) (w : Nat) : Computes f (.literal (.int c w)) ⟨w, BitVec.ofInt w c.toInt⟩
  | arith {id : InstId} {i : Instruction} {op : ArithOp} {l r : Value} {w : Nat} {x y z : BitVec w}
    (hi : f.inst? id = some i) (ho : i.operation = .arith op l r) (hty : i.ty = .int w)
    (hl : Computes f l ⟨w, x⟩) (hr : Computes f r ⟨w, y⟩) (hz : op.bits? x y = some z) :
    Computes f (.result id) ⟨w, z⟩
  | shl {id : InstId} {i : Instruction} {l : Value} {s : Int64} {bits w : Nat} {x : BitVec w}
    (hi : f.inst? id = some i) (ho : i.operation = .arith .shl l (.literal (.int s bits)))
    (hty : i.ty = .int w) (hl : Computes f l ⟨w, x⟩) :
    Computes f (.result id) ⟨w, x <<< s.toInt.toNat⟩
  | cast {id : InstId} {i : Instruction} {op : CastOp} {source : Value} {n w : Nat} {x : BitVec n}
    {z : BitVec w} (hi : f.inst? id = some i) (ho : i.operation = .cast op source)
    (hty : i.ty = .int w) (hx : Computes f source ⟨n, x⟩) (hz : op.bits? x w = some z) :
    Computes f (.result id) ⟨w, z⟩

/-- The slot holds a literal in the signed range of the width, or a result of that width among those
before. -/
inductive HoldsWidth (f : Func) (before : List InstId) (w : Nat) : Value → Prop where
  | literal {c : Int64} (hc : FitsIn w c) : HoldsWidth f before w (.literal (.int c w))
  | result {j : InstId} {i : Instruction} (hj : j ∈ before) (hi : f.inst? j = some i)
    (hty : i.ty = .int w) : HoldsWidth f before w (.result j)

/-- An instruction of straight-line arithmetic on integers of one to 64 bits. -/
inductive Straight (f : Func) (before : List InstId) (id : InstId) : Prop where
  | arith {i : Instruction} {op : ArithOp} {l r : Value} {w : Nat} (hi : f.inst? id = some i)
    (ho : i.operation = .arith op l r) (hop : op = .add ∨ op = .sub ∨ op = .mul)
    (hty : i.ty = .int w) (hw : 1 ≤ w ∧ w ≤ 64) (hl : f.HoldsWidth before w l)
    (hr : f.HoldsWidth before w r)
  | shl {i : Instruction} {l : Value} {s : Int64} {bits w : Nat} (hi : f.inst? id = some i)
    (ho : i.operation = .arith .shl l (.literal (.int s bits))) (hty : i.ty = .int w)
    (hw : 1 ≤ w ∧ w ≤ 64) (hl : f.HoldsWidth before w l) (hs : 0 ≤ s.toInt ∧ s.toInt < w)
  | cast {i : Instruction} {op : CastOp} {source : Value} {n w : Nat} (hi : f.inst? id = some i)
    (ho : i.operation = .cast op source) (hty : i.ty = .int w) (hw : 1 ≤ w ∧ w ≤ 64)
    (hn : 1 ≤ n ∧ n ≤ 64) (hsource : f.HoldsWidth before n source) (hop : op.Resizes n w)

/-- The instruction does not shift by 63, which is never folded. -/
def ShiftsBelow63 (f : Func) (id : InstId) : Prop :=
  ∀ i l bits, f.inst? id = some i → i.operation ≠ .arith .shl l (.literal (.int 63 bits))

/-- If the instruction extends a result with its sign, that has a constant in the signed range of
its width, and if it extends it without, one below two to its width. -/
def ExtendsInRange (f : Func) (o : Oracle) (id : InstId) : Prop :=
  ∀ i j n c, f.inst? id = some i → f.width? (.result j) = some n → o j = some (.const c) →
    (i.operation = .cast .signExtend (.result j) → FitsIn n c) ∧
    (i.operation = .cast .zeroExtend (.result j) → c.toInt < 2 ^ n)

/-- Whatever instruction the value in the slot is computed from has the property. -/
def Throughout (f : Func) (P : InstId → Prop) (v : Value) : Prop :=
  ∀ j, v = .result j → ∀ k, f.DrawsOn j k → P k

variable {f : Func} {F : LoopForest} {o : Oracle} {id : InstId} {i : Instruction} {v l r : Value}
  {b b' : Bits} {before ids : List InstId} {op : ArithOp} {cop : CastOp} {w n : Nat} {c s : Int64}
  {P : InstId → Prop}

theorem throughout_result : f.Throughout P (.result id) ↔ ∀ k, f.DrawsOn id k → P k := by
  refine ⟨fun h => h id rfl, fun h j hj => ?_⟩
  obtain rfl := Value.result.inj hj
  exact h

theorem Throughout.self (h : f.Throughout P (.result id)) (hi : f.inst? id = some i) : P id :=
  throughout_result.mp h id (.refl hi)

theorem Throughout.operand (h : f.Throughout P (.result id)) (hi : f.inst? id = some i)
    (hv : v ∈ i.operation.operands) : f.Throughout P v := by
  rintro j rfl k hk
  exact h id rfl k (hk.of_source hi (List.mem_filterMap.mpr ⟨.result j, hv, rfl⟩))

theorem Computes.unique (h : f.Computes v b) (h' : f.Computes v b') : b = b' := by
  induction h generalizing b' with
  | literal c w =>
    cases h'
    rfl
  | arith hi ho hty _ _ hz ihl ihr =>
    cases h' with
    | arith hi' ho' hty' hl' hr' hz' =>
      obtain rfl := Option.some.inj (hi.symm.trans hi')
      obtain ⟨rfl, rfl, rfl⟩ := Operation.arith.inj (ho.symm.trans ho')
      cases ihl hl'
      cases ihr hr'
      rw [Option.some.inj (hz.symm.trans hz')]
    | shl hi' ho' _ _ =>
      obtain rfl := Option.some.inj (hi.symm.trans hi')
      obtain ⟨rfl, -, -⟩ := Operation.arith.inj (ho.symm.trans ho')
      cases hz
    | cast hi' ho' _ _ _ =>
      obtain rfl := Option.some.inj (hi.symm.trans hi')
      cases ho.symm.trans ho'
  | shl hi ho hty _ ihl =>
    cases h' with
    | arith hi' ho' _ _ _ hz' =>
      obtain rfl := Option.some.inj (hi.symm.trans hi')
      obtain ⟨rfl, -, -⟩ := Operation.arith.inj (ho.symm.trans ho')
      cases hz'
    | shl hi' ho' _ hl' =>
      obtain rfl := Option.some.inj (hi.symm.trans hi')
      cases ho.symm.trans ho'
      cases ihl hl'
      rfl
    | cast hi' ho' _ _ _ =>
      obtain rfl := Option.some.inj (hi.symm.trans hi')
      cases ho.symm.trans ho'
  | cast hi ho hty _ hz ihx =>
    cases h' with
    | arith hi' ho' _ _ _ _ | shl hi' ho' _ _ =>
      obtain rfl := Option.some.inj (hi.symm.trans hi')
      cases ho.symm.trans ho'
    | cast hi' ho' hty' hx' hz' =>
      obtain rfl := Option.some.inj (hi.symm.trans hi')
      obtain ⟨rfl, rfl⟩ := Operation.cast.inj (ho.symm.trans ho')
      obtain rfl := Ty.int.inj (hty.symm.trans hty')
      cases ihx hx'
      rw [Option.some.inj (hz.symm.trans hz')]

/-! ### Folding -/

/-- The constant and the word in a slot, which agree as far as the width goes. -/
structure Folds (f : Func) (o : Oracle) (v : Value) (w : Nat) (c : Int64) (x : BitVec w) :
    Prop where
  seen : f.seen o v = .const c
  width : f.width? v = some w
  bounds : 1 ≤ w ∧ w ≤ 64
  computes : f.Computes v ⟨w, x⟩
  agrees : f.Throughout (f.ExtendsInRange o) v → BitVec.ofInt w c.toInt = x
  literal : (∀ j, v ≠ .result j) → FitsIn w c

theorem Folds.oracle {x : BitVec w} (h : f.Folds o (.result id) w c x) :
    o id = some (.const c) := by
  have hc := h.seen
  rw [Func.seen] at hc
  split at hc
  · cases ho : o id with
    | none =>
      rw [ho, Option.getD_none] at hc
      cases hc
    | some e => rw [← hc, ho, Option.getD_some]
  · cases hc

theorem folds_of_oracle {x : BitVec w} (hi : f.inst? id = some i) (hty : i.ty = .int w)
    (hw : 1 ≤ w ∧ w ≤ 64) (ho : o id = some (.const c)) (hx : f.Computes (.result id) ⟨w, x⟩)
    (hagrees : f.Throughout (f.ExtendsInRange o) (.result id) → BitVec.ofInt w c.toInt = x) :
    f.Folds o (.result id) w c x where
  seen := by rw [seen_result hi, ho, Option.getD_some]
  width := by simp [width?, hi, hty, Ty.width?]
  bounds := hw
  computes := hx
  agrees := hagrees
  literal h := absurd rfl (h id)

theorem HoldsWidth.folds (hv : f.HoldsWidth before w v) (hw : 1 ≤ w ∧ w ≤ 64)
    (hbefore : ∀ j ∈ before, v = .result j → ∃ w c x, f.Folds o (.result j) w c x) :
    ∃ c x, f.Folds o v w c x := by
  cases hv with
  | @literal c hc => exact ⟨c, _, rfl, rfl, hw, .literal c w, fun _ => rfl, fun _ => hc⟩
  | @result j i hj hi hty =>
    obtain ⟨w', c, x, hx⟩ := hbefore j hj rfl
    have hwidth : f.width? (.result j) = some w := by simp [width?, hi, hty, Ty.width?]
    obtain rfl := Option.some.inj (hx.width.symm.trans hwidth)
    exact ⟨c, x, hx⟩

/-- Arithmetic on constants agrees with arithmetic on words. -/
theorem outcome_arith {known : InstId → Option Expr} {a b : Int64}
    (ho : i.operation = .arith op l r) (hop : op = .add ∨ op = .sub ∨ op = .mul)
    (hl : f.seen known l = .const a) (hr : f.seen known r = .const b) (hw : w ≤ 64) :
    ∃ c, f.outcome F known id i = .const c ∧ ∀ x y : BitVec w, ∃ z, op.bits? x y = some z ∧
      (BitVec.ofInt w a.toInt = x → BitVec.ofInt w b.toInt = y → BitVec.ofInt w c.toInt = z) := by
  rcases hop with rfl | rfl | rfl
  · have houtcome : f.outcome F known id i = (f.scope F).add [f.seen known l, f.seen known r] := by
      rw [outcome, evolve, ho]
      rfl
    refine ⟨a + b, by rw [houtcome, hl, hr, Scope.add_consts], fun x y => ⟨_, rfl, ?_⟩⟩
    rintro rfl rfl
    exact ofInt_toInt_add hw
  · have houtcome : f.outcome F known id i =
        (f.scope F).add [f.seen known l, (f.scope F).scale (-1) (f.seen known r)] := by
      rw [outcome, evolve, ho]
      rfl
    refine ⟨a - b, ?_, fun x y => ⟨_, rfl, ?_⟩⟩
    · rw [houtcome, hl, hr, Scope.scale, Scope.add_consts, ← Int64.neg_eq_neg_one_mul,
        ← Int64.sub_eq_add_neg]
    · rintro rfl rfl
      exact ofInt_toInt_sub hw
  · have houtcome : f.outcome F known id i =
        (f.scope F).mul (f.seen known l) (f.seen known r) := by
      rw [outcome, evolve, ho]
      rfl
    refine ⟨a * b, ?_, fun x y => ⟨_, rfl, ?_⟩⟩
    · rw [houtcome, hl, hr, Scope.mul, Scope.scale]
    · rintro rfl rfl
      exact ofInt_toInt_mul hw

theorem outcome_shl {known : InstId → Option Expr} {a : Int64} {bits : Nat}
    (ho : i.operation = .arith .shl l (.literal (.int s bits))) (hl : f.seen known l = .const a)
    (hs : 0 ≤ s.toInt ∧ s.toInt ≤ 62) : f.outcome F known id i = .const (a <<< s) := by
  have hfactor : shiftFactor? (.literal (.int s bits)) = some (1 <<< s) :=
    if_pos ⟨Int64.le_iff_toInt_le.mpr hs.1, Int64.le_iff_toInt_le.mpr hs.2⟩
  have houtcome : f.outcome F known id i = (f.scope F).scale (1 <<< s) (f.seen known l) := by
    rw [outcome, evolve, ho]
    dsimp only
    rw [hfactor]
    rfl
  rw [houtcome, hl, Scope.scale, ← shiftLeft_eq_mul]

/-- A conversion of a constant agrees with that of its word, given that what is extended is in
range. -/
theorem outcome_cast {known : InstId → Option Expr} {a : Int64} (ho : i.operation = .cast cop v)
    (hty : i.ty = .int w) (hv : f.seen known v = .const a) (hwidth : f.width? v = some n)
    (hn : 1 ≤ n ∧ n ≤ 64) (hw : 1 ≤ w ∧ w ≤ 64) (hop : cop.Resizes n w) :
    ∃ c, f.outcome F known id i = .const c ∧ ∀ x : BitVec n, ∃ z, cop.bits? x w = some z ∧
      (BitVec.ofInt n a.toInt = x → (cop = .signExtend → FitsIn n a) →
        (cop = .zeroExtend → a.toInt < 2 ^ n) → BitVec.ofInt w c.toInt = z) := by
  have houtcome : f.outcome F known id i =
      convert cop (some n) (some w) (.unknown (.result id)) (.const a) := by
    rw [outcome, evolve, ho]
    dsimp only
    rw [hwidth, hty, ← hv]
    rfl
  rw [houtcome]
  cases cop with
  | signExtend =>
    refine ⟨a, rfl, fun x => ⟨_, rfl, ?_⟩⟩
    rintro rfl hrange -
    exact ofInt_signExtend hn.1 (hrange rfl)
  | zeroExtend =>
    have hlt : n ≤ 63 := Nat.le_of_lt_succ (Nat.lt_of_lt_of_le hop.1 hw.2)
    refine ⟨if a < 0 then lowBits n a else a, ?_, fun x => ⟨_, rfl, ?_⟩⟩
    · rw [convert]
      split <;> rfl
    · rintro rfl - hrange
      exact ofInt_zeroExtend hn.1 hlt (hrange rfl)
  | truncate =>
    have hlt : w ≤ 63 := Nat.le_of_lt_succ (Nat.lt_of_lt_of_le hop hn.2)
    refine ⟨wrapTo w a, rfl, fun x => ⟨_, rfl, ?_⟩⟩
    rintro rfl - -
    exact ofInt_truncate hw.1 hlt (Nat.le_of_lt hop) hn.2
  | intToPtr | ptrToInt | bitcast => exact hop.elim

theorem Straight.exists_inst (h : f.Straight before id) :
    ∃ i w, f.inst? id = some i ∧ i.ty = .int w ∧
      ∀ j, .result j ∈ f.asked F id i → j ∈ before := by
  have hmem : ∀ {w v}, f.HoldsWidth before w v → ∀ j, v = .result j → j ∈ before := by
    rintro w v hv j rfl
    cases hv with
    | result hj _ _ => exact hj
  cases h with
  | @arith i op l r w hi ho hop hty _ hl hr =>
    refine ⟨i, w, hi, hty, fun j hj => ?_⟩
    have hasked : f.asked F id i = [l, r] := by
      rcases hop with rfl | rfl | rfl <;> rw [asked, ho]
    rw [hasked, List.mem_pair] at hj
    rcases hj with rfl | rfl
    · exact hmem hl j rfl
    · exact hmem hr j rfl
  | @shl i l s bits w hi ho hty _ hl _ =>
    refine ⟨i, w, hi, hty, fun j hj => ?_⟩
    rw [asked, ho] at hj
    dsimp only at hj
    split at hj
    · exact hmem hl j (List.mem_singleton.mp hj).symm
    · cases hj
  | @cast i op source n w hi ho hty _ _ hsource _ =>
    refine ⟨i, w, hi, hty, fun j hj => ?_⟩
    rw [asked, ho] at hj
    exact hmem hsource j (List.mem_singleton.mp hj).symm

/-- What is extended is in range: a result by assumption, a literal as it is. -/
theorem ExtendsInRange.source {x : BitVec n} (h : f.ExtendsInRange o id) (hi : f.inst? id = some i)
    (ho : i.operation = .cast cop v) (hx : f.Folds o v n c x) :
    (cop = .signExtend → FitsIn n c) ∧ (cop = .zeroExtend → c.toInt < 2 ^ n) := by
  by_cases hresult : ∃ j, v = .result j
  · obtain ⟨j, rfl⟩ := hresult
    obtain ⟨hsigned, hunsigned⟩ := h i j n c hi hx.width hx.oracle
    exact ⟨fun hop => hsigned (hop ▸ ho), fun hop => hunsigned (hop ▸ ho)⟩
  · have hfits := hx.literal fun j hj => hresult ⟨j, hj⟩
    have hle : (2 : Int) ^ (n - 1) ≤ 2 ^ n := by
      exact_mod_cast Nat.pow_le_pow_right Nat.two_pos (Nat.sub_le n 1)
    exact ⟨fun _ => hfits, fun _ => Int.lt_of_lt_of_le hfits.2 hle⟩

/-- What folds before it folds into an instruction, as long as there is no shift by 63. -/
theorem Straight.folds (h : f.Straight before id) (h63 : f.Throughout f.ShiftsBelow63 (.result id))
    (hbefore : ∀ j ∈ before, f.Throughout f.ShiftsBelow63 (.result j) →
      ∃ w c x, f.Folds o (.result j) w c x)
    (heq : ∀ i, f.inst? id = some i → o id = some (f.outcome F o id i)) :
    ∃ w c x, f.Folds o (.result id) w c x := by
  have hoperand : ∀ {i v}, f.inst? id = some i → v ∈ i.operation.operands → ∀ j ∈ before,
      v = .result j → ∃ w c x, f.Folds o (.result j) w c x := by
    rintro i v hi hv j hj rfl
    exact hbefore j hj (h63.operand hi hv)
  cases h with
  | @arith i op l r w hi ho hop hty hw hl hr =>
    have hleft : l ∈ i.operation.operands := by simp [ho, Operation.operands]
    have hright : r ∈ i.operation.operands := by simp [ho, Operation.operands]
    obtain ⟨a, x, hx⟩ := hl.folds hw (hoperand hi hleft)
    obtain ⟨b, y, hy⟩ := hr.folds hw (hoperand hi hright)
    obtain ⟨c, hc, hbits⟩ := outcome_arith (F := F) ho hop hx.seen hy.seen hw.2
    obtain ⟨z, hz, hagree⟩ := hbits x y
    exact ⟨w, c, z, folds_of_oracle hi hty hw (by rw [heq i hi, hc])
      (.arith hi ho hty hx.computes hy.computes hz) fun h =>
        hagree (hx.agrees (h.operand hi hleft)) (hy.agrees (h.operand hi hright))⟩
  | @shl i l s bits w hi ho hty hw hl hs =>
    have hleft : l ∈ i.operation.operands := by simp [ho, Operation.operands]
    obtain ⟨a, x, hx⟩ := hl.folds hw (hoperand hi hleft)
    have hle : s.toInt ≤ 62 := by
      have hne : s.toInt ≠ 63 := fun hs => by
        obtain rfl : s = 63 := Int64.toInt_inj.mp hs
        exact h63.self hi i l bits hi ho
      omega
    have hshl : f.outcome F o id i = .const (a <<< s) := outcome_shl ho hx.seen ⟨hs.1, hle⟩
    refine ⟨w, a <<< s, _, folds_of_oracle hi hty hw (by rw [heq i hi, hshl])
      (.shl hi ho hty hx.computes) fun h => ?_⟩
    rw [← hx.agrees (h.operand hi hleft)]
    exact ofInt_toInt_shiftLeft hw.2 hs.1 (by omega)
  | @cast i op source n w hi ho hty hw hn hsource hop =>
    have hmem : source ∈ i.operation.operands := by simp [ho, Operation.operands]
    obtain ⟨a, x, hx⟩ := hsource.folds hn (hoperand hi hmem)
    obtain ⟨c, hc, hbits⟩ := outcome_cast (F := F) ho hty hx.seen hx.width hn hw hop
    obtain ⟨z, hz, hagree⟩ := hbits x
    refine ⟨w, c, z, folds_of_oracle hi hty hw (by rw [heq i hi, hc])
      (.cast hi ho hty hx.computes hz) fun h => ?_⟩
    obtain ⟨hsigned, hunsigned⟩ := (h.self hi).source hi ho hx
    exact hagree (hx.agrees (h.operand hi hmem)) hsigned hunsigned

theorem exists_folds (hf : InTurn f.Straight before ids) (hids : ids ⊆ f.listedIds)
    (hbefore : ∀ j ∈ before, f.Throughout f.ShiftsBelow63 (.result j) →
      ∃ w c x, f.Folds o (.result j) w c x)
    (heq : ∀ id ∈ f.listedIds, ∀ i, f.inst? id = some i → o id = some (f.outcome F o id i)) :
    ∀ id ∈ ids, f.Throughout f.ShiftsBelow63 (.result id) →
      ∃ w c x, f.Folds o (.result id) w c x := by
  induction ids generalizing before with
  | nil => simp
  | cons s ids ih =>
    obtain ⟨hs, hrest⟩ := hf
    obtain ⟨hlisted, hids⟩ := List.cons_subset.mp hids
    have hfolds : f.Throughout f.ShiftsBelow63 (.result s) → ∃ w c x, f.Folds o (.result s) w c x :=
      fun h63 => hs.folds h63 hbefore (heq s hlisted)
    exact List.forall_mem_cons.mpr
      ⟨hfolds, ih hrest hids (List.forall_mem_cons.mpr ⟨hfolds, hbefore⟩)⟩

theorem InTurn.exists_before {P : List InstId → InstId → Prop} (h : InTurn P before ids)
    (hid : id ∈ ids) : ∃ earlier, P earlier id := by
  induction ids generalizing before with
  | nil => cases hid
  | cons s ids ih =>
    rcases List.mem_cons.mp hid with rfl | hid
    · exact ⟨before, h.1⟩
    · exact ih h.2 hid

theorem exists_width (hf : InTurn f.Straight [] f.listedIds) (hid : id ∈ f.listedIds) :
    ∃ i w, f.inst? id = some i ∧ i.ty = .int w := by
  obtain ⟨before, h⟩ := hf.exists_before hid
  obtain ⟨i, w, hi, hty, -⟩ := h.exists_inst (F := f.flow.loops)
  exact ⟨i, w, hi, hty⟩

/-- Straight-line arithmetic looks back, so that its values satisfy their equations. -/
theorem oracle_eq_of_straight (hf : InTurn f.Straight [] f.listedIds) (hid : id ∈ f.listedIds)
    (hi : f.inst? id = some i) :
    (f.evolution F).oracle id = some (f.outcome F (f.evolution F).oracle id i) := by
  have hresult : ∀ id ∈ f.listedIds, ∀ i, f.inst? id = some i → i.hasResult = true := by
    intro id hid i hi
    obtain ⟨i', w, hi', hty⟩ := exists_width hf hid
    obtain rfl := Option.some.inj (hi.symm.trans hi')
    simp [Instruction.hasResult, hty]
  have hwanted : f.wanted = f.listedIds := by
    refine List.filter_eq_self.mpr fun id hid => ?_
    obtain ⟨i, w, hi, -⟩ := exists_width hf hid
    simp [hi, hresult id hid i hi]
  have hturn : InTurn (f.LooksBack F) [] f.wanted := by
    rw [hwanted]
    refine hf.mono fun before s hs => ?_
    obtain ⟨i, w, hi, -, hback⟩ := hs.exists_inst (F := F)
    exact ⟨i, hi, hback⟩
  obtain ⟨e, he⟩ := exists_oracle (F := F) hid hi (hresult id hid i hi)
  obtain ⟨i', hi', rfl⟩ := oracle_eq_outcome hturn he
  obtain rfl := Option.some.inj (hi.symm.trans hi')
  exact he

/-- In straight-line arithmetic, what is computed without a shift by 63 folds to a constant. If what
is extended on the way is in range, that is the word which the instruction computes, up to a
multiple of two to its width, and it is the signed reading of the word exactly if it is in the
signed range. -/
theorem constants_by_width (hf : InTurn f.Straight [] f.listedIds) (hid : id ∈ f.listedIds)
    (h63 : ∀ k, f.DrawsOn id k → f.ShiftsBelow63 k) :
    let value := (f.evolution f.flow.loops).oracle
    ∃ i w x c, f.inst? id = some i ∧ i.ty = .int w ∧ f.Computes (.result id) ⟨w, x⟩ ∧
      (∀ b, f.Computes (.result id) b → b = ⟨w, x⟩) ∧ value id = some (.const c) ∧
      ((∀ k, f.DrawsOn id k → f.ExtendsInRange value k) →
        BitVec.ofInt w c.toInt = x ∧ (c.toInt = x.toInt ↔ FitsIn w c)) := by
  intro value
  obtain ⟨w, c, x, hx⟩ := exists_folds hf (List.Subset.refl _) (by simp)
    (fun id hid i hi => oracle_eq_of_straight (F := f.flow.loops) hf hid hi) id hid
    (throughout_result.mpr h63)
  obtain ⟨i, w', hi, hty⟩ := exists_width hf hid
  have hwidth : f.width? (.result id) = some w' := by simp [width?, hi, hty, Ty.width?]
  obtain rfl := Option.some.inj (hx.width.symm.trans hwidth)
  refine ⟨i, w, x, c, hi, hty, hx.computes, fun b hb => hb.unique hx.computes, hx.oracle,
    fun h => ?_⟩
  have hagrees : BitVec.ofInt w c.toInt = x := hx.agrees (throughout_result.mpr h)
  exact ⟨hagrees, hagrees ▸ eq_toInt_ofInt_iff hx.bounds.1⟩

end Func

/-- A product of 16 bits, its low byte, that byte in 32 bits, and the product in 64 bits. -/
def lowByte : Func where
  name := "low_byte"
  params := #[]
  blocks := #[{ listing := [0, 1, 2, 3], terminator := .ret none }]
  entry := 0
  arena := #[
    ⟨.arith .mul (.int 16) (.literal (.int 200 16)) (.literal (.int 300 16)), 0⟩,
    ⟨.cast .truncate (.result 0) (.int 8), 0⟩,
    ⟨.cast .zeroExtend (.result 1) (.int 32), 0⟩,
    ⟨.cast .signExtend (.result 0) (.int 64), 0⟩]
  uses := #[(0, 1), (1, 2), (0, 3)]

/-- The product is folded to 60000, which is too great for 16 bits; its low byte is right again,
although the product is also extended with its sign. -/
theorem Func.constants_by_width_lowByte :
    let f := lowByte
    let value := (f.evolution f.flow.loops).oracle
    InTurn f.Straight [] f.listedIds ∧ 2 ∈ f.listedIds ∧
    (∀ k, f.DrawsOn 2 k → f.ShiftsBelow63 k ∧ f.ExtendsInRange value k) ∧
    ¬ f.ExtendsInRange value 3 ∧ value 0 = some (.const 60000) ∧ value 2 = some (.const 96) ∧
    f.Computes (.result 2) ⟨32, 96⟩ := by
  intro f value
  have hlisted : f.listedIds = [0, 1, 2, 3] := by decide +kernel
  have hproduct : value 0 = some (.const 60000) := by decide +kernel
  have hbyte : value 1 = some (.const 96) := by decide +kernel
  have hwide : value 2 = some (.const 96) := by decide +kernel
  have hstraight : InTurn f.Straight [] f.listedIds := by
    rw [hlisted]
    refine ⟨?_, ?_, ?_, ?_, trivial⟩
    · exact .arith rfl rfl (.inr (.inr rfl)) rfl (by decide) (.literal (by decide))
        (.literal (by decide))
    · exact .cast rfl rfl rfl (by decide) (by decide) (.result (by decide) rfl rfl)
        (show 8 < 16 by decide)
    · exact .cast rfl rfl rfl (by decide) (by decide) (.result (by decide) rfl rfl)
        (show 8 < 32 ∧ 8 ≠ 63 by decide)
    · exact .cast rfl rfl rfl (by decide) (by decide) (.result (by decide) rfl rfl)
        (show 16 < 64 by decide)
  have hid : 2 ∈ f.listedIds := by
    rw [hlisted]
    decide
  have hdraws : ∀ k, f.DrawsOn 2 k → k ∈ [2, 1, 0] := fun k hk =>
    hk.mem_of_closed (by decide) (by decide)
  have h63 : ∀ k, f.DrawsOn 2 k → f.ShiftsBelow63 k := by
    intro k hk i l bits hi ho
    have hcases := hdraws k hk
    simp only [List.mem_cons, List.not_mem_nil, or_false] at hcases
    rcases hcases with rfl | rfl | rfl <;> cases hi <;> cases ho
  have hrange : ∀ k, f.DrawsOn 2 k → f.ExtendsInRange value k := by
    intro k hk i j n c hi hn hc
    have hcases := hdraws k hk
    simp only [List.mem_cons, List.not_mem_nil, or_false] at hcases
    rcases hcases with rfl | rfl | rfl <;> cases hi
    · refine ⟨fun h => (by cases h), fun h => ?_⟩
      cases h
      obtain rfl := Option.some.inj hn
      cases Option.some.inj (hbyte.symm.trans hc)
      decide
    · exact ⟨fun h => (by cases h), fun h => (by cases h)⟩
    · exact ⟨fun h => (by cases h), fun h => (by cases h)⟩
  have hout : ¬ f.ExtendsInRange value 3 := by
    intro h
    have hfits := (h _ 0 16 60000 rfl rfl hproduct).1 rfl
    revert hfits
    decide
  refine ⟨hstraight, hid, fun k hk => ⟨h63 k hk, hrange k hk⟩, hout, hproduct, hwide, ?_⟩
  obtain ⟨i, w, x, c, hi, hty, hx, -, hc, hagrees⟩ := Func.constants_by_width hstraight hid h63
  cases hi
  cases hty
  cases Option.some.inj (hwide.symm.trans hc)
  rwa [← (hagrees hrange).1] at hx

/-- Adds two numbers whose sum is too great for their width, extends it with its sign, and shifts a
bit to the very top. -/
def wideSum : Func where
  name := "wide_sum"
  params := #[]
  blocks := #[{ listing := [0, 1, 2], terminator := .ret none }]
  entry := 0
  arena := #[
    ⟨.arith .add (.int 8) (.literal (.int 100 8)) (.literal (.int 100 8)), 0⟩,
    ⟨.cast .signExtend (.result 0) (.int 64), 0⟩,
    ⟨.arith .shl (.int 64) (.int 1) (.int 63), 0⟩]
  uses := #[(0, 1)]

/-- The sum is folded to 200 and stays that when it is extended, where the instructions compute -56;
and the shift is not folded. -/
theorem Func.not_constants_by_width_wideSum :
    let f := wideSum
    let value := (f.evolution f.flow.loops).oracle
    f.validate = .ok () ∧ InTurn f.Straight [] f.listedIds ∧
    (¬ ∀ id ∈ f.listedIds, ∀ w x c, f.Computes (.result id) ⟨w, x⟩ → value id = some (.const c) →
      c.toInt = x.toInt) ∧
    ¬ ∀ id ∈ f.listedIds, ∃ c, value id = some (.const c) := by
  intro f value
  have hvalid : f.defect? = none := by decide +kernel
  have hlisted : f.listedIds = [0, 1, 2] := by decide +kernel
  have hextended : value 1 = some (.const 200) := by decide +kernel
  have hshifted : value 2 = some (.unknown (.result 2)) := by decide +kernel
  refine ⟨by rw [validate, hvalid], ?_, fun h => ?_, fun h => ?_⟩
  · rw [hlisted]
    refine ⟨?_, ?_, ?_, trivial⟩
    · exact .arith rfl rfl (.inl rfl) rfl (by decide) (.literal (by decide)) (.literal (by decide))
    · exact .cast rfl rfl rfl (by decide) (by decide) (.result (by decide) rfl rfl)
        (show 8 < 64 by decide)
    · exact .shl rfl rfl rfl (by decide) (.literal (by decide)) (by decide)
  · have hsum : f.Computes (.result 0) ⟨8, 200⟩ :=
      .arith rfl rfl rfl (.literal 100 8) (.literal 100 8) rfl
    have hword : f.Computes (.result 1) ⟨64, -56⟩ := .cast rfl rfl rfl hsum rfl
    have hread := h 1 (by rw [hlisted]; decide) 64 _ 200 hword hextended
    revert hread
    decide
  · obtain ⟨c, hc⟩ := h 2 (by rw [hlisted]; decide)
    rw [hshifted] at hc
    cases hc

end LoopStride
