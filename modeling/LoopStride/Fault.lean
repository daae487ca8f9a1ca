import LoopStride.Value

/-! What can go wrong in an analysis or a pass. That an instruction is no candidate is never an
error. -/
namespace LoopStride

inductive Analysis where
  | dominance | evolution | cost | loops
  deriving DecidableEq, Repr

def Analysis.name : Analysis → String
  | .dominance => "Dominance"
  | .evolution => "SymbolicEvolution"
  | .cost => "TargetCost"
  | .loops => "LoopStructure"

inductive ConfigError where
  | noSteps
  | unknownOpcode (name : String)
  | unreadable (path : String)
  | malformed
  deriving DecidableEq, Repr

def ConfigError.message : ConfigError → String
  | .noSteps => "max_worklist_steps must be at least 1"
  | .unknownOpcode name => "unknown opcode '" ++ name ++ "' in latency_overrides"
  | .unreadable path => "cannot read " ++ path
  | .malformed => "malformed document"

inductive Violation where
  | brokenExtensionChain
  | endlessExtensionChain
  | refused (reason : String)
  deriving DecidableEq, Repr

def Violation.message : Violation → String
  | .brokenExtensionChain => "an extension chain must consist of instructions"
  | .endlessExtensionChain => "an extension chain must end"
  | .refused reason => reason

inductive Fault where
  | violation (cause : Violation) (value : Value)
  | missingAnalysis (kind : Analysis)
  | unknownInstruction (id : InstId)
  | config (e : ConfigError)
  deriving DecidableEq, Repr

def Fault.message : Fault → String
  | .violation cause v => "contract violation: " ++ cause.message ++ " (at " ++ v.render ++ ")"
  | .missingAnalysis kind =>
    "analysis " ++ kind.name ++ " was not declared as required by the running pass"
  | .unknownInstruction id =>
    "instruction " ++ toString id ++ " does not belong to the function under analysis"
  | .config e => "invalid configuration: " ++ e.message

end LoopStride
