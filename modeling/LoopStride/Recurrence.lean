import LoopStride.Expr

/-! Recurrences on their own: how fast they grow, and their value in a given round. -/
namespace LoopStride

inductive Degree where
  | invariant
  | affine
  | quadratic
  | higher (n : Nat)
  deriving DecidableEq, Repr

def Degree.render : Degree → String
  | .invariant => "invariant"
  | .affine => "affine"
  | .quadratic => "quadratic"
  | .higher n => "degree " ++ toString n

structure Recurrence where
  header : BlockId
  operands : List Expr
  deriving DecidableEq, Repr

namespace Recurrence
variable (r : Recurrence)

def toExpr : Expr := .recurrence r.header r.operands

def render : String := r.toExpr.render

def degree : Degree :=
  match r.operands.length with
  | 0 | 1 => .invariant
  | 2 => .affine
  | 3 => .quadratic
  | n + 1 => .higher n

def start? : Option Expr := r.operands[0]?

def step? : Option Expr := r.operands[1]?

def secondStep? : Option Expr := r.operands[2]?

def constant? (i : Nat) : Option Int64 := r.operands[i]?.bind Expr.constant?

/-- Adds up what the operands from number `i` on contribute in round `k`. `weight` stands for
`C(k,i)`; the next weight is `weight · (k - i) / (i + 1)`. All of it wraps, and division drops the
fraction. -/
def valueFrom (k : Int64) (i : Nat) (weight total : Int64) : List Expr → Option Int64
  | [] => some total
  | o :: os =>
    o.constant?.bind fun c =>
      valueFrom k (i + 1) (weight * (k - Int64.ofNat i) / (Int64.ofNat i + 1))
        (total + c * weight) os

def valueAt? (k : Int64) : Option Int64 := valueFrom k 0 1 0 r.operands

end Recurrence

def Expr.recurrence? : Expr → Option Recurrence
  | .recurrence h ops => some ⟨h, ops⟩
  | _ => none

theorem Expr.recurrence?_eq_some_iff {e : Expr} {r : Recurrence} :
    e.recurrence? = some r ↔ e = r.toExpr := by
  cases r
  cases e <;> simp [Expr.recurrence?, Recurrence.toExpr]

end LoopStride
