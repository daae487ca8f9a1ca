import Mathlib.Algebra.Group.Nat.Defs
import Mathlib.Logic.Function.Iterate
import LoopStride.Proofs.Expr.Meaning

/-! A constant recurrence computed by stepping it. In each round every register takes in the next one,
and the first register goes through the Newton sums of the operands. The closed form weighs the
operands by products that wrap before they are divided: its weights are binomial coefficients as long
as no product leaves the words. -/
namespace LoopStride.Recurrence

/-- One round of the difference engine: every register takes in the next one, all at once, and the
last one stays. -/
def advance : List Int64 → List Int64
  | [] => []
  | [w] => [w]
  | w :: x :: ws => (w + x) :: advance (x :: ws)

/-- What the closed form weighs operand `i` by in round `k`. -/
def weight (k : Int64) : Nat → Int64
  | 0 => 1
  | i + 1 => weight k i * (k - Int64.ofNat i) / (Int64.ofNat i + 1)

/-- The sum of words weighed by `c`, where the first word counts as number `i`. -/
def weighted (c : Nat → Int64) : Nat → List Int64 → Int64
  | _, [] => 0
  | i, w :: ws => w * c i + weighted c (i + 1) ws

def ofWords (h : BlockId) (ws : List Int64) : Recurrence := ⟨h, ws.map .const⟩

variable {k i n : Nat} {w : Int64} {ws : List Int64} {c c' : Nat → Int64} {h : BlockId}

/-! ### The engine -/

theorem newton_advance : newton k i (advance ws) = newton k i ws + newton k i ws.tail := by
  induction ws generalizing i with
  | nil => rfl
  | cons w ws ih =>
    cases ws with
    | nil => exact (Int64.add_zero _).symm
    | cons x ws =>
      have hw : newton k i (w :: x :: ws) =
          w * Int64.ofNat (k.choose i) + newton k (i + 1) (x :: ws) := newton_cons
      have hx : newton k i (x :: ws) =
          x * Int64.ofNat (k.choose i) + newton k (i + 1) ws := newton_cons
      rw [advance, newton_cons, ih, List.tail_cons, List.tail_cons, hw, hx]
      grind

/-- After `k` rounds the first register holds the sum of `wᵢ · C(k,i)`. -/
theorem headD_iterate_advance : (advance^[k] ws).headD 0 = newton k 0 ws := by
  induction k generalizing ws with
  | zero =>
    cases ws with
    | nil => rfl
    | cons w ws => exact newton_zero.symm
  | succ k ih =>
    rw [Function.iterate_succ_apply, ih, newton_advance]
    cases ws with
    | nil => rfl
    | cons w ws => exact newton_succ.symm

/-! ### The closed form -/

theorem valueFrom_ofWords {k total : Int64} :
    valueFrom k i (weight k i) total (ws.map .const) =
      some (total + weighted (weight k) i ws) := by
  induction ws generalizing i total with
  | nil => exact congrArg some (Int64.add_zero total).symm
  | cons w ws ih =>
    rw [List.map_cons, valueFrom]
    refine ih.trans (congrArg some ?_)
    rw [weighted, Int64.add_assoc]

theorem valueAt?_ofWords {k : Int64} :
    (ofWords h ws).valueAt? k = some (weighted (weight k) 0 ws) :=
  valueFrom_ofWords.trans (congrArg some (Int64.zero_add _))

theorem newton_eq_weighted :
    newton k i ws = weighted (fun i => Int64.ofNat (k.choose i)) i ws := by
  induction ws generalizing i with
  | nil => rfl
  | cons w ws ih => rw [newton_cons, weighted, ih]

theorem weighted_congr (hc : ∀ j, i ≤ j → j < i + ws.length → c j = c' j) :
    weighted c i ws = weighted c' i ws := by
  induction ws generalizing i with
  | nil => rfl
  | cons w ws ih =>
    rw [weighted, weighted, hc i (Nat.le_refl i) (by simp), ih fun j hj hlt => hc j (by omega) ?_]
    rw [List.length_cons]
    omega

/-- A one among zeros reads off its weight. -/
theorem weighted_unit (m : Nat) :
    weighted c i (List.replicate n 0 ++ 1 :: List.replicate m 0) = c (i + n) := by
  have hzeros : ∀ m i, weighted c i (List.replicate m 0) = 0 := by
    intro m
    induction m with
    | zero => exact fun _ => rfl
    | succ m ih =>
      intro i
      rw [List.replicate_succ, weighted, ih, Int64.zero_mul]
      rfl
  induction n generalizing i with
  | zero =>
    rw [List.replicate_zero, List.nil_append, weighted, hzeros, Int64.one_mul, Int64.add_zero,
      Nat.add_zero]
  | succ n ih =>
    rw [List.replicate_succ, List.cons_append, weighted, ih, Int64.zero_mul, Int64.zero_add,
      Nat.add_right_comm, Nat.add_assoc]

/-- A weight is a binomial coefficient if the products that lead up to it stay words. -/
theorem weight_eq_choose (hk : k < 2 ^ 63) (hfit : ∀ j < i, k.choose j * (k - j) < 2 ^ 63) :
    weight (Int64.ofNat k) i = Int64.ofNat (k.choose i) := by
  induction i with
  | zero => simp [weight]
  | succ i ih =>
    rw [weight, ih fun j hj => hfit j (Nat.lt_succ_of_lt hj)]
    rcases Nat.lt_trichotomy i k with hlt | rfl | hgt
    · have hone : Int64.ofNat i + 1 = Int64.ofNat (i + 1) := (Int64.ofNat_add i 1).symm
      rw [← Int64.ofNat_sub k i hlt.le, ← Int64.ofNat_mul, hone,
        ← Int64.ofNat_div (hfit i (Nat.lt_succ_self i)) (by omega), ← Nat.choose_succ_right_eq,
        Nat.mul_div_cancel _ (Nat.succ_pos i)]
    · rw [Int64.sub_self, Int64.mul_zero, Int64.zero_div, Nat.choose_succ_self]
      rfl
    · rw [Nat.choose_eq_zero_of_lt hgt, Nat.choose_eq_zero_of_lt (Nat.lt_succ_of_lt hgt)]
      exact (congrArg (· / _) Int64.zero_mul).trans Int64.zero_div

/-- The engine goes through the Newton sums of the operands, and the closed form has a value in every
round. With `n` operands it is the one that the engine comes to, whatever the operands are, if and
only if the first `n` weights are binomial coefficients. They are if the products on the way to them
stay words: always for an affine recurrence, for a quadratic one up to round 3037000500. -/
theorem valueAt?_stepped (k : Nat) (hk : k < 2 ^ 63) (n : Nat) :
    (∀ ws, (advance^[k] ws).headD 0 = newton k 0 ws) ∧
    (∀ h ws, ∃ v, (ofWords h ws).valueAt? (Int64.ofNat k) = some v) ∧
    ((∀ h ws, ws.length = n →
        (ofWords h ws).valueAt? (Int64.ofNat k) = some ((advance^[k] ws).headD 0)) ↔
      ∀ i < n, weight (Int64.ofNat k) i = Int64.ofNat (k.choose i)) ∧
    ((∀ i, i + 1 < n → k.choose i * (k - i) < 2 ^ 63) →
      ∀ i < n, weight (Int64.ofNat k) i = Int64.ofNat (k.choose i)) := by
  refine ⟨fun ws => headD_iterate_advance, fun h ws => ⟨_, valueAt?_ofWords⟩, ⟨?_, ?_⟩, ?_⟩
  · intro hagree i hi
    obtain ⟨m, rfl⟩ := Nat.exists_eq_add_of_lt hi
    have hunit := hagree 0 (List.replicate i 0 ++ 1 :: List.replicate m 0) (by simp; omega)
    rw [valueAt?_ofWords, headD_iterate_advance, newton_eq_weighted, weighted_unit, weighted_unit,
      Nat.zero_add] at hunit
    exact Option.some.inj hunit
  · intro hweight h ws hlen
    rw [valueAt?_ofWords, headD_iterate_advance, newton_eq_weighted]
    exact congrArg some (weighted_congr fun j _ hj => hweight j (by omega))
  · intro hfit i hi
    exact weight_eq_choose hk fun j hj => hfit j (by omega)

/-- In this round the last product is just short of `2 ^ 63`. -/
theorem valueAt?_stepped_triangular :
    (3037000500 < 2 ^ 63 ∧ ∀ i, i + 1 < 3 → (3037000500).choose i * (3037000500 - i) < 2 ^ 63) ∧
    (ofWords 1 [0, 0, 1]).valueAt? (Int64.ofNat 3037000500) =
      some ((advance^[3037000500] [0, 0, 1]).headD 0) := by
  have hk : 3037000500 < 2 ^ 63 := by decide
  have hfit : ∀ i, i + 1 < 3 → (3037000500).choose i * (3037000500 - i) < 2 ^ 63 := by
    intro i hi
    obtain rfl | rfl : i = 0 ∨ i = 1 := by omega
    · rw [Nat.choose_zero_right]
      decide
    · rw [Nat.choose_one_right]
      decide
  obtain ⟨-, -, hiff, hweight⟩ := valueAt?_stepped 3037000500 hk 3
  exact ⟨⟨hk, hfit⟩, hiff.mpr (hweight hfit) 1 [0, 0, 1] rfl⟩

/-- In round `2 ^ 32` the product wraps before it is halved, and the weight comes out negative. -/
theorem not_valueAt?_stepped_triangular :
    ¬ (ofWords 1 [0, 0, 1]).valueAt? (Int64.ofNat 4294967296) =
      some ((advance^[4294967296] [0, 0, 1]).headD 0) := by
  have hclosed : (ofWords 1 [0, 0, 1]).valueAt? (Int64.ofNat 4294967296) = some (-2147483648) := by
    decide
  have hengine : (advance^[4294967296] [0, 0, 1]).headD 0 = 9223372034707292160 := by
    rw [headD_iterate_advance]
    simp only [newton_cons, newton_nil, Int64.zero_mul, Int64.zero_add, Int64.one_mul,
      Int64.add_zero, Nat.zero_add, Nat.reduceAdd, Nat.choose_two_right]
    decide
  rw [hclosed, hengine]
  decide

end LoopStride.Recurrence
