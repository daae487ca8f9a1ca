import LoopStride.Access.Worklist
import LoopStride.Pass

/-! The access pattern pass: finds the additions that compute addresses in loops and classifies how
the addresses evolve. -/
namespace LoopStride

structure AccessReport where
  function : String
  accesses : InstSet
  /-- The last classification of each addition that was looked at, in the order of the listing. -/
  classifications : List (InstId × Classification)
  candidates : List Candidate
  steps : Nat
  hitLimit : Bool
  changed : Bool
  deriving DecidableEq

namespace AccessReport

def classification? (r : AccessReport) (id : InstId) : Option Classification :=
  r.classifications.lookup id

def isCandidate (r : AccessReport) (id : InstId) : Bool :=
  r.candidates.any fun c => c.instruction == id

def ofWorklist (accesses : InstSet) (w : Worklist η) (hitLimit : Bool) : AccessReport :=
  { function := w.func.name, accesses, classifications := w.classifications
    candidates := w.candidates, steps := w.steps, hitLimit, changed := w.changed }

def summary (r : AccessReport) : Note :=
  .debug ("'" ++ r.function ++ "': " ++ toString r.accesses.size ++ " access-related, " ++
    toString r.candidates.length ++ " candidates, " ++ toString r.steps ++ " steps")

end AccessReport

inductive PassState where
  | notRun | done
  deriving DecidableEq, Repr

structure AccessPass (η : Type) where
  config : Config
  handler : η
  state : PassState := .notRun
  reports : List AccessReport := []
  log : Journal := { recording := config.recording }

namespace AccessPass
variable {η : Type}

/-- What the pass asks for, and in this order. It sets no terminator of its own. -/
def usage : Usage :=
  (((({} : Usage).require .dominance).require .evolution).require .cost).require .loops
    |>.preserveFlow

/-- What the pass reads: every analysis that it declares must be there, also those that it makes
no use of. -/
def prerequisites (config : Config) (a : Analyses) : Except Fault (Oracle × Int) := do
  let _ ← a.dominators?
  let _ ← a.loops?
  let evolution ← a.evolution?
  let cost ← a.cost?
  match cost.override config.overrides with
  | .error e => throw (.config e)
  | .ok cost => return (evolution.oracle, cost.gain)

def limitNote (config : Config) (w : Worklist η) : Note :=
  .warn ("work-list limit of " ++ toString config.maxSteps ++ " steps reached in '" ++
    w.func.name ++ "', " ++ toString w.queue.length ++ " instructions left")

def analyze [Handler η] (config : Config) (oracle : Oracle) (gain : Int) (handler : η)
    (f : Func) : Worklist η × Except Fault AccessReport × List Note :=
  let (accesses, notes) := f.traceAccesses config
  let q : Inquiry := ⟨config, accesses, oracle, gain⟩
  let (w, ending) := Worklist.run q config.maxSteps (.start q handler f)
  let notes := notes ++ w.notes
  match ending with
  | .failed e => (w, .error e, notes)
  | .drained => (w, .ok (.ofWorklist accesses w false), notes)
  | .limited => (w, .ok (.ofWorklist accesses w true), notes ++ [limitNote config w])

/-- Runs the pass. Only a run without an error leaves a report. -/
def run [Handler η] (p : AccessPass η) (f : Func) (a : Analyses) :
    PassRun (AccessPass η) :=
  match prerequisites p.config a with
  | .error e => ⟨{ p with state := .done }, f, .error e, []⟩
  | .ok (oracle, gain) =>
    let (w, outcome, notes) := analyze p.config oracle gain p.handler f
    let p := { p with state := .done, handler := w.handler, log := p.log.absorb notes }
    match outcome with
    | .error e => ⟨p, w.func, .error e, notes⟩
    | .ok report =>
      ⟨{ p with reports := p.reports ++ [report] }, w.func, .ok report.changed,
        notes ++ [report.summary]⟩

instance [Handler η] : Pass (AccessPass η) where
  name _ := "array_access_pattern"
  usage _ := usage
  run := run

end AccessPass
end LoopStride
