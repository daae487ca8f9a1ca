import LoopStride.Func.Check
import LoopStride.Func.Printer

/-! Programs: functions in the order added, found again by the name they had when added. -/
namespace LoopStride

structure Program where
  funcs : Array Func
  /-- The name each function was added under, the latest first. -/
  names : List (String × FuncId)
  deriving Repr

structure ProgramDefect where
  func : FuncId
  name : String
  defect : Defect
  deriving DecidableEq, Repr

def ProgramDefect.message (d : ProgramDefect) : String :=
  "Function " ++ toString d.func ++ " ('" ++ d.name ++ "'): " ++ d.defect.message

namespace Program

def empty : Program := ⟨#[], []⟩

variable (p : Program)

def add (f : Func) : Program × FuncId :=
  (⟨p.funcs.push f, (f.name, p.funcs.size) :: p.names⟩, p.funcs.size)

def get? (id : FuncId) : Option Func := p.funcs[id]?

def find? (name : String) : Option FuncId := p.names.lookup name

def set (id : FuncId) (f : Func) : Program := { p with funcs := p.funcs.setIfInBounds id f }

def defect? : Option ProgramDefect :=
  p.funcs.toList.zipIdx.findSome? fun (f, id) => f.defect?.map fun d => ⟨id, f.name, d⟩

def validate : Except ProgramDefect Unit :=
  match p.defect? with
  | none => .ok ()
  | some d => .error d

def render (level : Nat) : String :=
  "\n".intercalate (p.funcs.toList.map fun f => f.render level)

end Program
end LoopStride
