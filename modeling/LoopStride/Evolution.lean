import Std.Data.TreeMap
import LoopStride.Func
import LoopStride.Journal
import LoopStride.Expr.Arithmetic

/-! The symbolic value of each instruction of a function, found by recursion along the operands.

Operands may form cycles through the merges of loop headers. An instruction met again while its own
value is still being worked out stands for itself; a result that rests on such a placeholder is
provisional and is not remembered, unless the instruction it stands for is the result's own. -/
namespace LoopStride

/-- The `bits` low bits of a number, read without a sign. At 63 bits the mask `(1 <<< 63) - 1` leaves
the range of a 64-bit word: it wraps to `2 ^ 63 - 1` here, where an arithmetic that traps overflow
would stop without a value. -/
def lowBits (bits : Nat) (c : Int64) : Int64 :=
  if 1 ≤ bits ∧ bits ≤ 63 then Int64.ofInt (c.toInt % Int.pow 2 bits) else c

/-- The `bits` low bits of a number, read with a sign. -/
def wrapTo (bits : Nat) (c : Int64) : Int64 :=
  if 1 ≤ bits ∧ bits ≤ 63 then Int64.ofInt (c.toInt.bmod (Nat.pow 2 bits)) else c

namespace Func
variable (f : Func)

def scope (F : LoopForest) : Scope := ⟨F, f.blockOf?⟩

def width? : Value → Option Nat
  | .literal (.int _ bits) => some bits
  | .literal .null => none
  | .result id => (f.inst? id).bind fun i => i.ty.width?
  | .param p => f.params[p]?.bind Ty.width?

end Func

def shiftFactor? (amount : Value) : Option Int64 :=
  amount.number?.bind fun s => if 0 ≤ s ∧ s ≤ 62 then some (1 <<< s) else none

/-- The value of a conversion whose source has the value `e`. Only constants are converted: an
extension of a negative one without sign, and a truncation. Any other extension or
reinterpretation keeps the value, and a truncated value that is not constant is `symbol`. -/
def convert (op : CastOp) (sourceWidth targetWidth : Option Nat) (symbol e : Expr) : Expr :=
  match op, e with
  | .zeroExtend, .const c =>
    if c < 0 then (sourceWidth.map fun bits => .const (lowBits bits c)).getD symbol else e
  | .truncate, .const c => (targetWidth.map fun bits => .const (wrapTo bits c)).getD symbol
  | .truncate, _ => symbol
  | _, e => e

structure HeaderPhi where
  loop : LoopId
  header : BlockId
  entering : Value
  next : Value

namespace Scope
variable (S : Scope)

/-- A merge of two values in a header, one from outside the loop and one from inside. -/
def headerPhi? (id : InstId) (incoming : List (BlockId × Value)) : Option HeaderPhi := do
  let header ← S.home id
  let l ← S.forest.ofHeader? header
  match incoming with
  | [(b, v), (c, w)] =>
    match S.forest.contains l b, S.forest.contains l c with
    | false, true => some ⟨l, header, v, w⟩
    | true, false => some ⟨l, header, w, v⟩
    | _, _ => none
  | _ => none

/-- What is left of a sum without one occurrence of `symbol`. -/
def without (symbol : Expr) (e : Expr) : Option Expr :=
  if e = symbol then some .zero
  else
    match e with
    | .sum ts => if symbol ∈ ts then some (S.add (ts.erase symbol)) else none
    | _ => none

/-- The recurrence of a header merge that starts at `start` and goes on as `next`: the increment is
invariant, or a recurrence of the same loop. -/
def close? (p : HeaderPhi) (symbol start next : Expr) : Option Expr := do
  let increment ← S.without symbol next
  match increment with
  | .recurrence h ops =>
    if S.forest.ofHeader? h = some p.loop then
      return Expr.recurrenceOf p.header (start :: ops)
    else if S.isInvariant p.loop increment then
      return Expr.recurrenceOf p.header [start, increment]
    else none
  | e => if S.isInvariant p.loop e then return Expr.recurrenceOf p.header [start, e] else none

end Scope

/-- The value of instruction `id` from the values it reads, which `value` finds. -/
def Func.evolve {m : Type → Type} [Monad m] (f : Func) (F : LoopForest) (value : Value → m Expr)
    (id : InstId) (i : Instruction) : m Expr :=
  let S := f.scope F
  let symbol := Expr.unknown (.result id)
  match i.operation with
  | .arith .add l r => do
    let a ← value l
    let b ← value r
    return S.add [a, b]
  | .arith .sub l r => do
    let a ← value l
    let b ← value r
    return S.add [a, S.scale (-1) b]
  | .arith .mul l r => do
    let a ← value l
    let b ← value r
    return S.mul a b
  | .arith .shl l r =>
    match shiftFactor? r with
    | some c => do
      let a ← value l
      return S.scale c a
    | none => return symbol
  | .cast op source => do
    let e ← value source
    return convert op (f.width? source) i.ty.width? symbol e
  | .address base offset => do
    let a ← value base
    let b ← value offset
    return S.add [a, b]
  | .phi incoming =>
    match S.headerPhi? id incoming with
    | none => return symbol
    | some p => do
      let start ← value p.entering
      if S.isInvariant p.loop start then
        let next ← value p.next
        return (S.close? p symbol start next).getD symbol
      else return symbol
  | _ => return symbol

/-- The values found so far, and the instructions in progress that were met again. -/
structure Memo where
  known : Std.TreeMap InstId Expr
  met : List InstId

/-- The value in an operand slot. A constant is known, an instruction that exists is followed. -/
def Func.valueBy {m : Type → Type} [Monad m] (f : Func) (follow : InstId → m Expr) :
    Value → m Expr
  | .result id => if id < f.arena.size then follow id else return .unknown (.result id)
  | .literal (.int c _) => return .const c
  | v => return .unknown v

/-- The value of instruction `id`, while those of `path` are in progress. -/
def Func.recall (f : Func) (F : LoopForest) : Nat → List InstId → InstId → StateM Memo Expr
  | 0, _, id => return .unknown (.result id)
  | fuel + 1, path, id => do
    let memo ← get
    match memo.known[id]?, f.inst? id with
    | some e, _ => return e
    | none, none => return .unknown (.result id)
    | none, some i =>
      if id ∈ path then
        set { memo with met := id :: memo.met }
        return .unknown (.result id)
      else
        set { memo with met := [] }
        let e ← f.evolve F (f.valueBy (f.recall F fuel (id :: path))) id i
        modify fun inner =>
          let unresolved := inner.met.filter path.contains
          ⟨if unresolved.isEmpty then inner.known.insert id e else inner.known,
            unresolved ++ memo.met⟩
        return e

structure Evolution where
  known : Std.TreeMap InstId Expr

abbrev Oracle := InstId → Option Expr

def Oracle.recurrence? (o : Oracle) (id : InstId) : Option Recurrence :=
  (o id).bind Expr.recurrence?

namespace Evolution

def size (e : Evolution) : Nat := e.known.size

def oracle (e : Evolution) : Oracle := fun id => e.known[id]?

def summary (e : Evolution) (name : String) : Note :=
  .trace ("scalar evolution for '" ++ name ++ "': " ++ toString e.size ++ " expressions")

end Evolution

/-- The values of all listed instructions with a result, found in the order of the listing. At most
all instructions are in progress at once. -/
def Func.evolution (f : Func) (F : LoopForest) : Evolution :=
  let ask := fun (memo : Memo) id =>
    if ((f.inst? id).map Instruction.hasResult).getD false then
      ((f.recall F (f.arena.size + 1) [] id).run memo).2
    else memo
  ⟨(f.listedIds.foldl ask ⟨∅, []⟩).known⟩

end LoopStride
