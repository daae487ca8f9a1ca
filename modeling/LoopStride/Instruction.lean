import LoopStride.Value
import LoopStride.Opcode

/-! Instructions: an operation on operand slots, the type of its result and a comment.
`operands` reads the slots in order, `mapOperands` fills them anew; `operands_mapOperands` says
that both visit the same slots. -/
namespace LoopStride

inductive Operation where
  | arith (op : ArithOp) (left right : Value)
  | compare (op : CompareOp) (left right : Value)
  | cast (op : CastOp) (source : Value)
  /-- A merge: one value for each block that control may come from. -/
  | phi (incoming : List (BlockId × Value))
  | load (address : Value)
  | store (address value : Value)
  /-- The address `offset` bytes past `base`. -/
  | address (base offset : Value)
  | alloca (size : Nat)
  | call (callee : String) (args : List Value)
  deriving DecidableEq, Repr

structure Instruction where
  operation : Operation
  ty : Ty
  comment : Option String := none
  deriving DecidableEq, Repr

namespace Operation

def opcode : Operation → Opcode
  | arith op _ _ => .arith op
  | compare _ _ _ => .compare
  | cast op _ => .cast op
  | phi _ => .phi
  | load _ => .load
  | store _ _ => .store
  | address _ _ => .address
  | alloca _ => .alloca
  | call _ _ => .call

/-- The operand slots in order. A store lists the value before the address. -/
def operands : Operation → List Value
  | arith _ l r => [l, r]
  | compare _ l r => [l, r]
  | cast _ s => [s]
  | phi incoming => incoming.map (·.2)
  | load a => [a]
  | store a v => [v, a]
  | address b o => [b, o]
  | alloca _ => []
  | call _ args => args

def mapOperands (g : Value → Value) : Operation → Operation
  | arith op l r => arith op (g l) (g r)
  | compare op l r => compare op (g l) (g r)
  | cast op s => cast op (g s)
  | phi incoming => phi (incoming.map fun e => (e.1, g e.2))
  | load a => load (g a)
  | store a v => store (g a) (g v)
  | address b o => address (g b) (g o)
  | alloca n => alloca n
  | call callee args => call callee (args.map g)

@[simp] theorem operands_mapOperands (g : Value → Value) (o : Operation) :
    (o.mapOperands g).operands = o.operands.map g := by
  cases o <;> simp [mapOperands, operands, Function.comp_def]

@[simp] theorem opcode_mapOperands (g : Value → Value) (o : Operation) :
    (o.mapOperands g).opcode = o.opcode := by
  cases o <;> rfl

end Operation

namespace Instruction

def arith (op : ArithOp) (ty : Ty) (l r : Value) : Instruction := ⟨.arith op l r, ty, none⟩

/-- A comparison yields a single bit. -/
def compare (op : CompareOp) (l r : Value) : Instruction := ⟨.compare op l r, .int 1, none⟩

def cast (op : CastOp) (source : Value) (ty : Ty) : Instruction := ⟨.cast op source, ty, none⟩

def phi (ty : Ty) (incoming : List (BlockId × Value)) : Instruction := ⟨.phi incoming, ty, none⟩

def load (ty : Ty) (address : Value) : Instruction := ⟨.load address, ty, none⟩

def store (address value : Value) : Instruction := ⟨.store address value, .void, none⟩

def address (base offset : Value) : Instruction := ⟨.address base offset, .ptr, none⟩

def alloca (size : Nat) : Instruction := ⟨.alloca size, .ptr, none⟩

def call (callee : String) (args : List Value) (ty : Ty) : Instruction :=
  ⟨.call callee args, ty, none⟩

def opcode (i : Instruction) : Opcode := i.operation.opcode

def operands (i : Instruction) : List Value := i.operation.operands

/-- The instructions whose results the operand slots hold, one entry for each such slot. -/
def sources (i : Instruction) : List InstId := i.operands.filterMap Value.result?

def substitute (old new : Value) (i : Instruction) : Instruction :=
  { i with operation := i.operation.mapOperands fun v => if v = old then new else v }

@[simp] theorem operands_substitute (old new : Value) (i : Instruction) :
    (i.substitute old new).operands = i.operands.map fun v => if v = old then new else v := by
  simp [substitute, operands]

def isAdd (i : Instruction) : Bool := i.opcode == .arith .add

def isPhi (i : Instruction) : Bool := i.opcode == .phi

def formsPointer (i : Instruction) : Bool := i.opcode == .cast .intToPtr

def isWidening (i : Instruction) : Bool :=
  match i.opcode with
  | .cast op => op.isWidening
  | _ => false

theorem isPhi_iff {i : Instruction} :
    i.isPhi = true ↔ ∃ incoming, i.operation = .phi incoming := by
  obtain ⟨o, ty, comment⟩ := i
  cases o <;> simp [isPhi, opcode, Operation.opcode]

theorem isWidening_iff {i : Instruction} : i.isWidening = true ↔
    ∃ op source, i.operation = .cast op source ∧ op.isWidening = true := by
  obtain ⟨o, ty, comment⟩ := i
  cases o <;> simp [isWidening, opcode, Operation.opcode]

def hasResult (i : Instruction) : Bool := i.ty != .void

def hasSideEffects (i : Instruction) : Bool := i.opcode == .store || i.opcode == .call

end Instruction

def renderValues (vs : List Value) : String := ", ".intercalate (vs.map Value.render)

def renderIncoming (e : BlockId × Value) : String :=
  "[ " ++ e.2.render ++ ", " ++ renderBlock e.1 ++ " ]"

def Operation.render (ty : Ty) : Operation → String
  | arith op l r => (Opcode.arith op).name ++ " " ++ ty.render ++ " " ++ renderValues [l, r]
  | compare op l r => "icmp " ++ op.name ++ " " ++ renderValues [l, r]
  | cast op s => (Opcode.cast op).name ++ " " ++ s.render ++ " to " ++ ty.render
  | phi incoming =>
    "phi " ++ ty.render ++ " " ++ ", ".intercalate (incoming.map renderIncoming)
  | load a => "load " ++ ty.render ++ ", " ++ a.render
  | store a v => "store " ++ renderValues [v, a]
  | address b o => "getelementptr " ++ renderValues [b, o]
  | alloca n => "alloca " ++ toString n
  | call callee args =>
    "call " ++ ty.render ++ " @" ++ callee ++ "(" ++ renderValues args ++ ")"

def Instruction.render (i : Instruction) : String :=
  i.operation.render i.ty ++ (i.comment.map (" ; " ++ ·)).getD ""

end LoopStride
