import LoopStride.Cost
import LoopStride.Evolution

/-! The analyses that a pass can read. They rest on one another: symbolic values on loops, loops on
dominators. A pass reads only what it declared, whatever else is at hand. -/
namespace LoopStride

structure Usage where
  required : List Analysis := []
  /-- The pass adds no block and sets no terminator. -/
  preservesFlow : Bool := false
  deriving DecidableEq, Repr

namespace Usage

def require (u : Usage) (kind : Analysis) : Usage :=
  if kind ∈ u.required then u else { u with required := u.required ++ [kind] }

def preserveFlow (u : Usage) : Usage := { u with preservesFlow := true }

def requires (u : Usage) (kind : Analysis) : Bool := u.required.contains kind

end Usage

structure Analyses where
  declared : List Analysis := []
  dominators : Option Dominators := none
  loops : Option LoopForest := none
  evolution : Option Evolution := none
  cost : Option CostTable := none

/-- What the kinds asked for rest on, themselves included. -/
def needsEvolution (kinds : List Analysis) : Bool := kinds.contains .evolution

def needsLoops (kinds : List Analysis) : Bool := needsEvolution kinds || kinds.contains .loops

def needsDominators (kinds : List Analysis) : Bool :=
  needsLoops kinds || kinds.contains .dominance

def provide (needed : Bool) (compute : Unit → α) : Option α → Option α
  | some a => some a
  | none => if needed then some (compute ()) else none

namespace Analyses

/-- Makes the kinds asked for available; results at hand stay. -/
def prepare (a : Analyses) (f : Func) (kinds : List Analysis) (target : CostTable) :
    Analyses :=
  let dominators := provide (needsDominators kinds) (fun _ => f.flow.dominators) a.dominators
  let loops :=
    match dominators with
    | some d => provide (needsLoops kinds) (fun _ => f.flow.loopForest d) a.loops
    | none => a.loops
  let evolution :=
    match loops with
    | some F => provide (needsEvolution kinds) (fun _ => f.evolution F) a.evolution
    | none => a.evolution
  { declared := kinds, dominators, loops, evolution
    cost := provide (kinds.contains .cost) (fun _ => target) a.cost }

def progress (a b : Analyses) (f : Func) : List Note :=
  let told := fun (isNew : Bool) (what : String) =>
    if isNew then [Note.trace ("computing " ++ what ++ " for '" ++ f.name ++ "'")] else []
  told (a.dominators.isNone && b.dominators.isSome) "dominance" ++
    told (a.loops.isNone && b.loops.isSome) "loop structure" ++
    (if a.evolution.isSome then [] else
      (b.evolution.map fun e =>
        told true "symbolic evolution" ++ [e.summary f.name]).getD [])

def compute (f : Func) (kinds : List Analysis) (target : CostTable) : Analyses :=
  ({} : Analyses).prepare f kinds target

def invalidate (a : Analyses) (preservesFlow : Bool) : Analyses :=
  if preservesFlow then { a with evolution := none }
  else { a with evolution := none, dominators := none, loops := none }

def read (a : Analyses) (kind : Analysis) : Option α → Except Fault α
  | some r => if kind ∈ a.declared then .ok r else .error (.missingAnalysis kind)
  | none => .error (.missingAnalysis kind)

variable (a : Analyses)

def dominators? : Except Fault Dominators := a.read .dominance a.dominators

def loops? : Except Fault LoopForest := a.read .loops a.loops

def evolution? : Except Fault Evolution := a.read .evolution a.evolution

def cost? : Except Fault CostTable := a.read .cost a.cost

end Analyses
end LoopStride
