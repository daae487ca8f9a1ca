import LoopStride.Func

/-! Building a function from its entry block on: a cursor names the block that grows. -/
namespace LoopStride

structure Builder where
  func : Func
  cursor : BlockId
  deriving DecidableEq, Repr

namespace Builder

def start (name : String) : Builder :=
  let f := Func.empty name
  ⟨f, f.entry⟩

variable (s : Builder)

/-- Moves the cursor, also to a block that does not exist. -/
def moveTo (b : BlockId) : Builder := { s with cursor := b }

def append (i : Instruction) : Builder × Except GrowthError InstId :=
  let (f, outcome) := s.func.append s.cursor i
  ({ s with func := f }, outcome)

def addParam (ty : Ty) : Builder × ParamId :=
  let (f, p) := s.func.addParam ty
  ({ s with func := f }, p)

/-- Adds a named block and leaves the cursor where it is. -/
def addBlock (name : String) : Builder × BlockId :=
  let (f, b) := s.func.addBlock (some name)
  ({ s with func := f }, b)

def addIncoming (phi : InstId) (b : BlockId) (v : Value) : Builder × Except GrowthError Unit :=
  let (f, outcome) := s.func.addIncoming phi b v
  ({ s with func := f }, outcome)

def terminate (t : Terminator) : Builder := { s with func := s.func.setTerminator s.cursor t }

end Builder
end LoopStride
