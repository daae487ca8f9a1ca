import LoopStride.Func

/-! Checking the structure of a function. The first defect is reported, in the order of blocks and
of listings. -/
namespace LoopStride

inductive Defect where
  | missingEntry (b : BlockId)
  | missingTarget (b target : BlockId)
  | unknownInstruction (b : BlockId) (id : InstId)
  | latePhi (b : BlockId) (id : InstId) (position : Nat)
  | strayIncoming (b : BlockId) (id : InstId) (source : BlockId)
  | missingOperand (id used : InstId)
  | missingParam (id : InstId) (used : ParamId)
  deriving DecidableEq, Repr

def Defect.message : Defect → String
  | .missingEntry b => "Entry block " ++ toString b ++ " does not exist"
  | .missingTarget b t =>
    "Block " ++ toString b ++ " targets non-existent block " ++ toString t
  | .unknownInstruction b id => "Block " ++ toString b ++ " lists unknown " ++ toString id
  | .latePhi b id position =>
    "Block " ++ toString b ++ ": phi " ++ toString id ++ " at position " ++ toString position ++
      " follows a non-phi instruction"
  | .strayIncoming b id source =>
    "Block " ++ toString b ++ ": phi " ++ toString id ++ " has an incoming value from " ++
      toString source ++ " which is not a predecessor"
  | .missingOperand id used =>
    "Instruction " ++ toString id ++ " uses non-existent instruction " ++ toString used
  | .missingParam id used =>
    "Instruction " ++ toString id ++ " uses non-existent argument " ++ toString used

namespace Func
variable (f : Func)

def operandDefect? (id : InstId) : Value → Option Defect
  | .result used => if used < f.arena.size then none else some (.missingOperand id used)
  | .param used => if used < f.params.size then none else some (.missingParam id used)
  | .literal _ => none

/-- Merges come before all else in their block, with values from predecessors only. -/
def phiDefect? (sources : List BlockId) (b : BlockId) (late : Bool) (position : Nat) (id : InstId)
    (incoming : List (BlockId × Value)) : Option Defect :=
  if late then some (.latePhi b id position)
  else (incoming.find? fun e => !sources.contains e.1).map fun e => .strayIncoming b id e.1

/-- The first defect in what is left of a listing. `late` tells that some instruction before it
was not a merge. -/
def listingDefect? (sources : List BlockId) (b : BlockId) (late : Bool) (position : Nat) :
    List InstId → Option Defect
  | [] => none
  | id :: rest =>
    match f.inst? id with
    | none => some (.unknownInstruction b id)
    | some i =>
      let merge := match i.operation with
        | .phi incoming => phiDefect? sources b late position id incoming
        | _ => none
      merge <|> i.operands.findSome? (f.operandDefect? id) <|>
        listingDefect? sources b (late || !i.isPhi) (position + 1) rest

/-- The first defect of a block, its targets before its listing. -/
def blockDefect? (sources : List (BlockId × List BlockId)) (b : BlockId) (block : Block) :
    Option Defect :=
  ((block.successors.find? fun t => !decide (t < f.blocks.size)).map (.missingTarget b)) <|>
    f.listingDefect? ((sources.lookup b).getD []) b false 0 block.listing

def defect? : Option Defect :=
  if f.entry < f.blocks.size then
    let sources := f.flow.predecessorMap
    f.blocks.toList.zipIdx.findSome? fun (block, b) => f.blockDefect? sources b block
  else some (.missingEntry f.entry)

def validate : Except Defect Unit :=
  match f.defect? with
  | none => .ok ()
  | some d => .error d

end Func
end LoopStride
