import Mathlib.Data.Nat.Choose.Basic
import LoopStride.Proofs.Expr.Makeup

/-! The word an expression stands for, once its symbols have words and the loops are in certain
rounds. Symbolic addition and multiplication are addition and multiplication of words modulo
`2 ^ 64`. -/
namespace LoopStride

/-- Words for the symbols, and for each header the round its loop is in. -/
structure Reading where
  word : Value → Int64
  round : BlockId → Nat

/-- The sum of `wᵢ · C(k,i)`, where the first word counts as number `i`. -/
def newton (k : Nat) : Nat → List Int64 → Int64
  | _, [] => 0
  | i, w :: ws => w * Int64.ofNat (k.choose i) + newton k (i + 1) ws

namespace Expr

mutual

def eval (ρ : Reading) : Expr → Int64
  | const c => c
  | unknown v => ρ.word v
  | sum ts => (evalAll ρ ts).sum
  | product ts => (evalAll ρ ts).prod
  | recurrence h ts => newton (ρ.round h) 0 (evalAll ρ ts)

def evalAll (ρ : Reading) : List Expr → List Int64
  | [] => []
  | t :: ts => eval ρ t :: evalAll ρ ts

end

end Expr

/-! ### Newton sums -/

section
variable {k i : Nat} {w x : Int64} {ws xs : List Int64}

@[simp] theorem newton_nil : newton k i [] = 0 := rfl

theorem newton_cons :
    newton k i (w :: ws) = w * Int64.ofNat (k.choose i) + newton k (i + 1) ws := rfl

@[simp] theorem newton_singleton : newton k 0 [w] = w := by
  rw [newton_cons, newton_nil, Nat.choose_zero_right]
  exact (Int64.add_zero _).trans (Int64.mul_one w)

/-- Pascal's rule: the next round adds what the later words add up to. -/
theorem newton_succ : newton (k + 1) 0 (w :: ws) = newton k 0 (w :: ws) + newton k 0 ws := by
  have step : ∀ i, newton (k + 1) (i + 1) ws = newton k (i + 1) ws + newton k i ws := by
    induction ws with
    | nil => exact fun i => rfl
    | cons x xs ih =>
      intro i
      rw [newton_cons, newton_cons, newton_cons, ih (i + 1), Nat.choose_succ_succ', Int64.ofNat_add]
      grind
  rw [newton_cons, newton_cons, step 0, Nat.choose_zero_right, Nat.choose_zero_right]
  grind

theorem newton_zero : newton 0 0 (w :: ws) = w := by
  have tail : ∀ i, newton 0 (i + 1) ws = 0 := by
    induction ws with
    | nil => exact fun i => rfl
    | cons x xs ih =>
      intro i
      rw [newton_cons, ih, Nat.choose_zero_succ]
      exact (Int64.add_zero _).trans Int64.mul_zero
  rw [newton_cons, tail, Nat.choose_zero_right]
  exact (Int64.add_zero _).trans (Int64.mul_one w)

theorem newton_map_mul : newton k i (ws.map fun w => w * x) = newton k i ws * x := by
  induction ws generalizing i with
  | nil => exact (Int64.zero_mul).symm
  | cons w ws ih =>
    rw [List.map_cons, newton_cons, newton_cons, ih]
    grind

/-- Two affine sums multiply to a quadratic one. -/
theorem newton_mul {a b c d : Int64} : newton k 0 [a, b] * newton k 0 [c, d] =
    newton k 0 [a * c, a * d + (b * c + b * d), 2 * (b * d)] := by
  have square : k * k = k + 2 * k.choose 2 := by
    induction k with
    | zero => rfl
    | succ k ih =>
      rw [Nat.choose_succ_succ', Nat.choose_one_right]
      grind
  have hk := congrArg Int64.ofNat square
  rw [Int64.ofNat_mul, Int64.ofNat_add, Int64.ofNat_mul] at hk
  simp only [newton_cons, newton_nil, Nat.zero_add, Nat.reduceAdd, Nat.choose_zero_right,
    Nat.choose_one_right]
  have h1 : Int64.ofNat 1 = 1 := rfl
  have h2 : Int64.ofNat 2 = 2 := rfl
  rw [h2] at hk
  rw [h1]
  generalize Int64.ofNat k = n at hk
  generalize Int64.ofNat (k.choose 2) = m at hk
  clear square
  grind

end

theorem sum_perm {ws xs : List Int64} (h : ws.Perm xs) : ws.sum = xs.sum := by
  induction h with
  | nil => rfl
  | cons w _ ih => rw [List.sum_cons, List.sum_cons, ih]
  | swap w x ws =>
    simp only [List.sum_cons]
    grind
  | trans _ _ ih ih' => exact ih.trans ih'

namespace Expr
variable {ρ σ : Reading} {M : Makeup} {h : BlockId} {e t : Expr} {ts fs ops : List Expr} {c : Int64}

theorem evalAll_eq_map : evalAll ρ ts = ts.map (eval ρ) := by
  induction ts with
  | nil => rfl
  | cons t ts ih => rw [evalAll, ih, List.map_cons]

@[simp] theorem eval_const : (const c).eval ρ = c := by rw [eval]

@[simp] theorem eval_zero : zero.eval ρ = 0 := eval_const

@[simp] theorem eval_unknown {v : Value} : (unknown v).eval ρ = ρ.word v := by rw [eval]

@[simp] theorem eval_sum : (sum ts).eval ρ = (ts.map (eval ρ)).sum := by
  rw [eval, evalAll_eq_map]

@[simp] theorem eval_product : (product ts).eval ρ = (ts.map (eval ρ)).prod := by
  rw [eval, evalAll_eq_map]

@[simp] theorem eval_recurrence :
    (recurrence h ts).eval ρ = newton (ρ.round h) 0 (ts.map (eval ρ)) := by
  rw [eval, evalAll_eq_map]

/-- The word depends on the symbols and the headers in the expression alone. -/
theorem eval_congr (hs : ∀ v, M.symbol v → ρ.word v = σ.word v)
    (hr : ∀ h t, M.operand h t → ρ.round h = σ.round h) (he : e.MadeOf M) :
    e.eval ρ = e.eval σ := by
  have hall : ∀ {ts : List Expr}, (∀ t ∈ ts, t.MadeOf M → t.eval ρ = t.eval σ) →
      (∀ t ∈ ts, t.MadeOf M) → ts.map (eval ρ) = ts.map (eval σ) := fun ih hts =>
    List.map_congr_left fun t ht => ih t ht (hts t ht)
  induction e using byParts with
  | const c => simp
  | unknown v => simpa using hs v (madeOf_unknown.mp he)
  | sum ts ih => rw [eval_sum, eval_sum, hall ih (madeOf_sum.mp he)]
  | product ts ih => rw [eval_product, eval_product, hall ih (madeOf_product.mp he)]
  | recurrence k ts ih =>
    obtain ⟨-, hop, hts⟩ := madeOf_recurrence.mp he
    rw [eval_recurrence, eval_recurrence, hall ih hts]
    cases ts with
    | nil => rfl
    | cons t ts => rw [hr k t (hop t (by simp))]

/-! ### Small parts -/

theorem newton_dropZeros {k i : Nat} :
    newton k i ((dropZeros ts).map (eval ρ)) = newton k i (ts.map (eval ρ)) := by
  induction ts generalizing i with
  | nil => rfl
  | cons t ts ih =>
    have hrest := ih (i := i + 1)
    rw [List.map_cons, newton_cons, ← hrest, dropZeros]
    cases dropZeros ts with
    | nil =>
      by_cases ht : t = zero
      · simp [ht]
      · simp [ht, newton_cons]
    | cons u us => rfl

theorem eval_recurrenceOf :
    (recurrenceOf h ops).eval ρ = newton (ρ.round h) 0 (ops.map (eval ρ)) := by
  cases ops with
  | nil => rw [recurrenceOf, eval_recurrence]
  | cons start rest =>
    rw [recurrenceOf, List.map_cons, newton_cons, ← newton_dropZeros]
    cases dropZeros rest with
    | nil => rw [← newton_cons, List.map_nil, newton_singleton]
    | cons u us => rw [eval_recurrence, List.map_cons, newton_cons]

theorem sum_constantTerm : ((if c = 0 then [] else [const c]).map (eval ρ)).sum = c := by
  by_cases hc : c = 0 <;> simp [hc]

theorem eval_sumOf : (sumOf ts c).eval ρ = (ts.map (eval ρ)).sum + c := by
  have hall : ((ts ++ if c = 0 then [] else [const c]).map (eval ρ)).sum =
      (ts.map (eval ρ)).sum + c := by
    rw [List.map_append, List.sum_append, sum_constantTerm]
  rw [sumOf, ← hall]
  split
  · rename_i hnil
    obtain ⟨hts, hc⟩ := List.append_eq_nil_iff.mp hnil
    by_cases h0 : c = 0
    · simp [hts, h0]
    · simp [h0] at hc
  · rename_i u hu
    simp [hu]
  · exact eval_sum

theorem sum_termsOfAll : ((termsOfAll ts).map (eval ρ)).sum = (ts.map (eval ρ)).sum := by
  have hall : ∀ {ts : List Expr}, (∀ t ∈ ts, (t.terms.map (eval ρ)).sum = t.eval ρ) →
      ((termsOfAll ts).map (eval ρ)).sum = (ts.map (eval ρ)).sum := by
    intro ts hts
    induction ts with
    | nil => rfl
    | cons t ts ih =>
      rw [termsOfAll, List.map_append, List.sum_append, hts t (by simp),
        ih fun t h => hts t (by simp [h]), List.map_cons, List.sum_cons]
  have hterms : ∀ t : Expr, (t.terms.map (eval ρ)).sum = t.eval ρ := by
    intro t
    induction t using byParts with
    | sum ts ih => rw [terms, hall ih, eval_sum]
    | const | unknown | product | recurrence => simp [terms]
  exact hall fun t _ => hterms t

theorem prod_factors : (e.factors.map (eval ρ)).prod = e.eval ρ := by
  cases e with
  | product fs => rw [factors, eval_product]
  | _ => simp [factors]

theorem foldl_mul_eq (cs : List Int64) (a : Int64) : cs.foldl (· * ·) a = a * cs.prod := by
  induction cs generalizing a with
  | nil => exact (Int64.mul_one a).symm
  | cons c cs ih => rw [List.foldl_cons, ih, List.prod_cons, Int64.mul_assoc]

/-- The constant factors and the others multiply to the whole product. -/
theorem prod_constants : (fs.filterMap constant?).prod *
    ((fs.filter fun f => !f.isConstant).map (eval ρ)).prod = (fs.map (eval ρ)).prod := by
  have left_comm : ∀ a b c : Int64, b * (a * c) = a * (b * c) := by
    intro a b c
    grind
  induction fs with
  | nil => rfl
  | cons f fs ih =>
    rw [List.map_cons, List.prod_cons, ← ih]
    cases f with
    | const c => simp [constant?, isConstant, Int64.mul_assoc]
    | _ => exact left_comm _ _ _

theorem eval_productOf : (productOf fs).eval ρ = (fs.map (eval ρ)).prod := by
  rw [productOf, foldl_mul_eq, Int64.one_mul, ← prod_constants]
  generalize (fs.filterMap constant?).prod = c
  generalize fs.filter (fun f => !f.isConstant) = gs
  have hall : (((if c = 1 then [] else [const c]) ++ gs).map (eval ρ)).prod =
      c * (gs.map (eval ρ)).prod := by
    by_cases hc : c = 1 <;> simp [hc]
  rw [← hall]
  by_cases hc : c = 0
  · simp [hc]
  · rw [if_neg hc]
    split
    · rename_i u hu
      simp [hu]
    · exact eval_product

end Expr
end LoopStride
