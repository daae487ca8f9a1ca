import LoopStride.Instruction

/-! Basic blocks: the instructions listed in order and the terminator that leaves the block. -/
namespace LoopStride

inductive Terminator where
  | jump (target : BlockId)
  | branch (condition : Value) (onTrue onFalse : BlockId)
  | ret (value : Option Value)
  | unreachable
  deriving DecidableEq, Repr

namespace Terminator

/-- Where control may go next. A branch whose targets coincide is a single edge. -/
def targets : Terminator → List BlockId
  | jump t => [t]
  | branch _ t e => if t = e then [t] else [t, e]
  | ret _ => []
  | unreachable => []

def reads : Terminator → Option Value
  | branch c _ _ => some c
  | ret v => v
  | _ => none

def sources (t : Terminator) : List InstId := (t.reads.bind Value.result?).toList

def render : Terminator → String
  | jump t => "br " ++ renderBlock t
  | branch c t e => "br " ++ c.render ++ ", " ++ renderBlock t ++ ", " ++ renderBlock e
  | ret (some v) => "ret " ++ v.render
  | ret none => "ret void"
  | unreachable => "unreachable"

theorem targets_nodup (t : Terminator) : t.targets.Nodup := by
  cases t with
  | branch c a b => by_cases h : a = b <;> simp [targets, h]
  | _ => simp [targets]

end Terminator

structure Block where
  name : Option String := none
  listing : List InstId := []
  terminator : Terminator := .unreachable
  deriving DecidableEq, Repr

namespace Block

def isTerminated (b : Block) : Bool := b.terminator != .unreachable

def successors (b : Block) : List BlockId := b.terminator.targets

end Block
end LoopStride
