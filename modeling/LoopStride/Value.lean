/-! Types and the values an instruction can read. Blocks, instructions and parameters are
named by their number in the function that owns them. -/
namespace LoopStride

abbrev FuncId := Nat
abbrev BlockId := Nat
abbrev InstId := Nat
abbrev ParamId := Nat

inductive Ty where
  | int (bits : Nat)
  | ptr
  | void
  deriving DecidableEq, Repr

namespace Ty

def isInt : Ty → Bool
  | .int _ => true
  | _ => false

def isPtr : Ty → Bool
  | .ptr => true
  | _ => false

def width? : Ty → Option Nat
  | .int bits => some bits
  | _ => none

def render : Ty → String
  | .int bits => "i" ++ toString bits
  | .ptr => "ptr"
  | .void => "void"

end Ty

/-- A constant. Integers of different widths differ even when their numbers agree. -/
inductive Literal where
  | int (number : Int64) (bits : Nat)
  | null
  deriving DecidableEq, Repr

namespace Literal

def number? : Literal → Option Int64
  | .int n _ => some n
  | .null => none

/-- The width of the constant is not shown. -/
def render : Literal → String
  | .int n _ => toString n.toInt
  | .null => "null"

end Literal

/-- What an operand slot holds. Only a `result` leads on to another instruction. -/
inductive Value where
  | result (id : InstId)
  | literal (l : Literal)
  | param (id : ParamId)
  deriving DecidableEq, Repr

namespace Value

def int (n : Int64) : Value := .literal (.int n 64)

def null : Value := .literal .null

def isLiteral : Value → Bool
  | .literal _ => true
  | _ => false

def isResult : Value → Bool
  | .result _ => true
  | _ => false

def result? : Value → Option InstId
  | .result id => some id
  | _ => none

def literal? : Value → Option Literal
  | .literal l => some l
  | _ => none

def number? : Value → Option Int64
  | .literal l => l.number?
  | _ => none

end Value

def renderInst (id : InstId) : String := "%" ++ toString id

def renderBlock (id : BlockId) : String := "%bb" ++ toString id

def renderParam (id : ParamId) : String := "%arg" ++ toString id

def Value.render : Value → String
  | .result id => renderInst id
  | .literal l => l.render
  | .param id => renderParam id

theorem Value.result?_eq_some_iff {v : Value} {id : InstId} :
    v.result? = some id ↔ v = .result id := by
  cases v <;> simp [Value.result?]

end LoopStride
