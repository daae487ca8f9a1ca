import LoopStride.Recurrence
import LoopStride.Expr.Invariance

/-! Sums and products of symbolic values. Recurrences of one loop add operand by operand; the
deepest recurrence of a sum takes into its start whatever its loop leaves alone; a recurrence times
such a factor is scaled; and two affine recurrences of one loop multiply to a quadratic one,
`{a,+,b}·{c,+,d} = {ac,+,ad+bc+bd,+,2bd}`. -/
namespace LoopStride

namespace Expr

def dropZeros : List Expr → List Expr
  | [] => []
  | t :: ts =>
    match dropZeros ts with
    | [] => if t = zero then [] else [t]
    | us => t :: us

/-- A recurrence without the zeros at its end; its start alone if nothing is left to add. -/
def recurrenceOf (header : BlockId) : List Expr → Expr
  | [] => .recurrence header []
  | start :: rest =>
    match dropZeros rest with
    | [] => start
    | us => .recurrence header (start :: us)

def sumOf (terms : List Expr) (c : Int64) : Expr :=
  match terms ++ (if c = 0 then [] else [const c]) with
  | [] => const c
  | [t] => t
  | ts => sum ts

mutual

/-- The terms of a sum, through sums within sums. -/
def terms : Expr → List Expr
  | .sum ts => termsOfAll ts
  | e => [e]

def termsOfAll : List Expr → List Expr
  | [] => []
  | t :: ts => terms t ++ termsOfAll ts

end

/-- The factors of a product; products within products are left. -/
def factors : Expr → List Expr
  | .product fs => fs
  | e => [e]

/-- The product of factors with the constants among them multiplied into one in front. -/
def productOf (fs : List Expr) : Expr :=
  let c := (fs.filterMap constant?).foldl (· * ·) 1
  if c = 0 then zero
  else
    match (if c = 1 then [] else [const c]) ++ fs.filter fun f => !f.isConstant with
    | [f] => f
    | fs => product fs

end Expr

/-- The terms of a sum by kind: the constant, the recurrences with at most one for each loop, and
all others. -/
structure Terms where
  constant : Int64
  recurrences : List Recurrence
  others : List Expr

/-- Adds operand by operand; a missing operand counts as zero. -/
def addOperands (add : List Expr → Expr) : List Expr → List Expr → List Expr
  | [], bs => bs.map fun b => add [.zero, b]
  | as, [] => as.map fun a => add [a, .zero]
  | a :: as, b :: bs => add [a, b] :: addOperands add as bs

/-- Merges a recurrence into the one of the same loop, or puts it at the end. -/
def mergeRecurrence (add : List Expr → Expr) (r : Recurrence) : List Recurrence → List Recurrence
  | [] => [r]
  | q :: qs =>
    if q.header = r.header then ⟨q.header, addOperands add q.operands r.operands⟩ :: qs
    else q :: mergeRecurrence add r qs

/-- Sorts out terms from the last to the first. -/
def Terms.ofList (add : List Expr → Expr) : List Expr → Terms
  | [] => ⟨0, [], []⟩
  | t :: ts =>
    let later := Terms.ofList add ts
    match t with
    | .const c => { later with constant := later.constant + c }
    | .recurrence h ops =>
      { later with recurrences := mergeRecurrence add ⟨h, ops⟩ later.recurrences }
    | t => { later with others := t :: later.others }

def addToStart (add : List Expr → Expr) : List Expr → List Expr → List Expr
  | start :: rest, t :: ts => add (start :: t :: ts) :: rest
  | ops, _ => ops

namespace Scope
variable (S : Scope)

def insertByDepth (r : Recurrence) : List Recurrence → List Recurrence
  | [] => [r]
  | q :: qs =>
    if S.depthOf q.header ≤ S.depthOf r.header then r :: q :: qs else q :: insertByDepth r qs

/-- The deepest first; equal depths stay in order. -/
def sortByDepth (rs : List Recurrence) : List Recurrence := rs.foldr S.insertByDepth []

/-- A sum, where `add` stands for the sums that arise inside. These hold fewer recurrences than the
whole. -/
def addWith (add : List Expr → Expr) (ts : List Expr) : Expr :=
  let parts := Terms.ofList add (Expr.termsOfAll ts)
  match S.sortByDepth parts.recurrences with
  | [] => Expr.sumOf parts.others parts.constant
  | r :: rest =>
    let rest := rest.map Recurrence.toExpr
    match S.forest.ofHeader? r.header with
    | none =>
      Expr.sumOf (Expr.recurrenceOf r.header r.operands :: (parts.others ++ rest)) parts.constant
    | some l =>
      let (absorbed, kept) := (rest ++ parts.others).partition (S.isInvariant l)
      let absorbed := absorbed ++ if parts.constant = 0 then [] else [.const parts.constant]
      Expr.sumOf (Expr.recurrenceOf r.header (addToStart add r.operands absorbed) :: kept) 0

/-- A sum with inner sums nested at most `n` deep; deeper ones are left as they are. -/
def addUpTo : Nat → List Expr → Expr
  | 0 => S.addWith fun ts => Expr.sumOf ts 0
  | n + 1 => S.addWith (addUpTo n)

/-- The sum of expressions. Each level of inner sums uses up a recurrence. -/
def add (ts : List Expr) : Expr := S.addUpTo (Expr.recurrencesAll ts) ts

mutual

def scale (c : Int64) : Expr → Expr
  | .const d => .const (c * d)
  | .recurrence h ops =>
    if c = 0 then .zero
    else if c = 1 then .recurrence h ops
    else if (S.forest.ofHeader? h).isSome then Expr.recurrenceOf h (scaleAll c ops)
    else Expr.productOf [.const c, .recurrence h ops]
  | e =>
    if c = 0 then .zero else if c = 1 then e else Expr.productOf (.const c :: e.factors)

def scaleAll (c : Int64) : List Expr → List Expr
  | [] => []
  | t :: ts => scale c t :: scaleAll c ts

end

/-- The loop with this header, if there is one and `e` is invariant in it. -/
def distributes (header : BlockId) (e : Expr) : Bool :=
  ((S.forest.ofHeader? header).map fun l => S.isInvariant l e).getD false

def mul : Expr → Expr → Expr
  | .const c, e => S.scale c e
  | e, .const c => S.scale c e
  | .recurrence h as, .recurrence h' bs =>
    if h = h' then
      match as, bs with
      | [a, b], [c, d] =>
        let square := mul b d
        Expr.recurrenceOf h [mul a c, S.add [mul a d, mul b c, square], S.scale 2 square]
      | as, bs => .product [.recurrence h as, .recurrence h' bs]
    else if S.distributes h (.recurrence h' bs) then
      Expr.recurrenceOf h (as.map fun a => mul a (.recurrence h' bs))
    else if S.distributes h' (.recurrence h as) then
      Expr.recurrenceOf h' (bs.map fun b => mul b (.recurrence h as))
    else .product [.recurrence h as, .recurrence h' bs]
  | .recurrence h as, e =>
    if S.distributes h e then Expr.recurrenceOf h (as.map fun a => mul a e)
    else Expr.productOf (.recurrence h as :: e.factors)
  | e, .recurrence h bs =>
    if S.distributes h e then Expr.recurrenceOf h (bs.map fun b => mul b e)
    else Expr.productOf (e.factors ++ [.recurrence h bs])
  | l, r => Expr.productOf (l.factors ++ r.factors)
termination_by l r => sizeOf l + sizeOf r
decreasing_by all_goals grind [→ List.sizeOf_lt_of_mem]

end Scope
end LoopStride
