/-! Operators and opcodes, in the order and with the mnemonics of the printed form. -/
namespace LoopStride

inductive ArithOp where
  | add | sub | mul | shl | and | or | xor
  deriving DecidableEq, Repr

/-- Integer comparisons: signed but for the last. -/
inductive CompareOp where
  | eq | ne | slt | sle | sgt | sge | ult
  deriving DecidableEq, Repr

inductive CastOp where
  | intToPtr | ptrToInt | signExtend | zeroExtend | truncate | bitcast
  deriving DecidableEq, Repr

inductive Opcode where
  | arith (op : ArithOp)
  | compare
  | cast (op : CastOp)
  | phi | load | store | address | alloca | call
  deriving DecidableEq, Repr

/-- The extensions: the width changes, the number does not. -/
def CastOp.isWidening : CastOp → Bool
  | .signExtend | .zeroExtend => true
  | _ => false

def CompareOp.name : CompareOp → String
  | .eq => "eq"
  | .ne => "ne"
  | .slt => "slt"
  | .sle => "sle"
  | .sgt => "sgt"
  | .sge => "sge"
  | .ult => "ult"

def ArithOp.all : List ArithOp := [.add, .sub, .mul, .shl, .and, .or, .xor]

def CompareOp.all : List CompareOp := [.eq, .ne, .slt, .sle, .sgt, .sge, .ult]

def CastOp.all : List CastOp :=
  [.intToPtr, .ptrToInt, .signExtend, .zeroExtend, .truncate, .bitcast]

namespace Opcode

/-- Every opcode once; later ones are the greater ones. -/
def all : List Opcode :=
  ArithOp.all.map .arith ++ [.compare] ++ CastOp.all.map .cast ++
    [.phi, .load, .store, .address, .alloca, .call]

def name : Opcode → String
  | .arith .add => "add"
  | .arith .sub => "sub"
  | .arith .mul => "mul"
  | .arith .shl => "shl"
  | .arith .and => "and"
  | .arith .or => "or"
  | .arith .xor => "xor"
  | .compare => "icmp"
  | .cast .intToPtr => "inttoptr"
  | .cast .ptrToInt => "ptrtoint"
  | .cast .signExtend => "sext"
  | .cast .zeroExtend => "zext"
  | .cast .truncate => "trunc"
  | .cast .bitcast => "bitcast"
  | .phi => "phi"
  | .load => "load"
  | .store => "store"
  | .address => "getelementptr"
  | .alloca => "alloca"
  | .call => "call"

def ofName? (s : String) : Option Opcode := all.find? fun op => op.name == s

def rank (op : Opcode) : Nat := all.idxOf op

theorem mem_all (op : Opcode) : op ∈ all := by
  rcases op with op | _ | op | _ <;> (try cases op) <;> decide

theorem name_injective {a b : Opcode} (h : a.name = b.name) : a = b := by
  have key : ∀ a ∈ all, ∀ b ∈ all, a.name = b.name → a = b := by decide
  exact key a (mem_all a) b (mem_all b) h

theorem ofName?_name (op : Opcode) : ofName? op.name = some op := by
  have key : ∀ a ∈ all, ofName? a.name = some a := by decide
  exact key op (mem_all op)

theorem name_of_ofName? {s : String} {op : Opcode} (h : ofName? s = some op) : op.name = s := by
  simpa using List.find?_some h

end Opcode
end LoopStride
