import LoopStride.Value

/-! Symbolic values: constants, opaque values, sums, products and recurrences.

The recurrence `{o₀,+,o₁,+,…}` of a loop takes the value `o₀ + o₁·C(k,1) + o₂·C(k,2) + …` in
round `k` of that loop, rounds counted from zero. -/
namespace LoopStride

inductive Expr where
  | const (c : Int64)
  /-- A value that cannot be seen through. -/
  | unknown (v : Value)
  | sum (terms : List Expr)
  | product (factors : List Expr)
  /-- A recurrence over the rounds of the loop with this header. -/
  | recurrence (header : BlockId) (operands : List Expr)
  deriving Repr

namespace Expr

mutual

def same : Expr → Expr → Bool
  | const a, const b => a == b
  | unknown v, unknown w => v == w
  | sum as, sum bs => sameAll as bs
  | product as, product bs => sameAll as bs
  | recurrence h as, recurrence h' bs => h == h' && sameAll as bs
  | _, _ => false

def sameAll : List Expr → List Expr → Bool
  | [], [] => true
  | a :: as, b :: bs => same a b && sameAll as bs
  | _, _ => false

end

mutual

theorem eq_of_same : ∀ {a b : Expr}, same a b = true → a = b
  | const _, const _, h => by simpa [same] using h
  | unknown _, unknown _, h => by simpa [same] using h
  | sum _, sum _, h => by
    simp only [same] at h
    rw [eq_of_sameAll h]
  | product _, product _, h => by
    simp only [same] at h
    rw [eq_of_sameAll h]
  | recurrence _ as, recurrence _ bs, h => by
    simp only [same, Bool.and_eq_true, beq_iff_eq] at h
    rw [h.1, eq_of_sameAll h.2]

theorem eq_of_sameAll : ∀ {as bs : List Expr}, sameAll as bs = true → as = bs
  | [], [], _ => rfl
  | _ :: _, _ :: _, h => by
    simp only [sameAll, Bool.and_eq_true] at h
    rw [eq_of_same h.1, eq_of_sameAll h.2]

end

mutual

theorem same_self : ∀ a : Expr, same a a = true
  | const _ => by simp [same]
  | unknown _ => by simp [same]
  | sum as => by simpa [same] using sameAll_self as
  | product as => by simpa [same] using sameAll_self as
  | recurrence _ as => by simpa [same] using sameAll_self as

theorem sameAll_self : ∀ as : List Expr, sameAll as as = true
  | [] => rfl
  | a :: as => by simp [sameAll, same_self a, sameAll_self as]

end

instance : DecidableEq Expr := fun a b =>
  decidable_of_iff (same a b = true) ⟨eq_of_same, fun h => h ▸ same_self a⟩

def zero : Expr := .const 0

instance : Inhabited Expr := ⟨zero⟩

def constant? : Expr → Option Int64
  | const c => some c
  | _ => none

def isConstant (e : Expr) : Bool := e.constant?.isSome

mutual

/-- The number of recurrences in an expression, at any depth. -/
def recurrences : Expr → Nat
  | const _ => 0
  | unknown _ => 0
  | sum ts => recurrencesAll ts
  | product ts => recurrencesAll ts
  | recurrence _ ts => recurrencesAll ts + 1

def recurrencesAll : List Expr → Nat
  | [] => 0
  | t :: ts => recurrences t + recurrencesAll ts

end

mutual

/-- Sums and products stand in brackets, a recurrence names the header of its loop. -/
def render : Expr → String
  | const c => toString c.toInt
  | unknown v => v.render
  | sum ts => "(" ++ " + ".intercalate (renderAll ts) ++ ")"
  | product ts => "(" ++ " * ".intercalate (renderAll ts) ++ ")"
  | recurrence h ts => "\x7b" ++ ",+,".intercalate (renderAll ts) ++ "\x7d<" ++ renderBlock h ++ ">"

def renderAll : List Expr → List String
  | [] => []
  | t :: ts => render t :: renderAll ts

end

theorem renderAll_eq_map (ts : List Expr) : renderAll ts = ts.map render := by
  induction ts with
  | nil => rfl
  | cons t ts ih => simp [renderAll, ih]

theorem recurrencesAll_append (as bs : List Expr) :
    recurrencesAll (as ++ bs) = recurrencesAll as + recurrencesAll bs := by
  induction as with
  | nil => simp [recurrencesAll]
  | cons a as ih => simp [recurrencesAll, ih, Nat.add_assoc]

end Expr
end LoopStride
