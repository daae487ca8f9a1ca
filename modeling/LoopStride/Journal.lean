/-! What an analysis tells while it works. Notes are values: the functions that make them return
them in order. A diagnostic is a note that a recording log keeps. -/
namespace LoopStride

inductive Level where
  | trace | debug | warn
  deriving DecidableEq, Repr

structure Note where
  level : Level
  text : String
  isDiagnostic : Bool := false
  deriving DecidableEq, Repr

/-- A line for the diagnostic log, told whether the log records or not. -/
def Note.diagnostic (line : String) : Note := ⟨.debug, line, true⟩

def Note.trace (text : String) : Note := { level := .trace, text }

def Note.debug (text : String) : Note := { level := .debug, text }

def Note.warn (text : String) : Note := { level := .warn, text }

structure Journal where
  recording : Bool := false
  lines : List String := []
  deriving DecidableEq, Repr

namespace Journal
variable (log : Journal)

def push (line : String) : Journal :=
  if log.recording then { log with lines := log.lines ++ [line] } else log

def absorb (notes : List Note) : Journal :=
  (notes.filter (·.isDiagnostic)).foldl (fun log n => log.push n.text) log

def length : Nat := log.lines.length

def isEmpty : Bool := log.lines.isEmpty

def contains (needle : String) : Bool := log.lines.any fun line => line.contains needle

def clear : Journal := { log with lines := [] }

def render : String := "".intercalate (log.lines.map (· ++ "\n"))

end Journal
end LoopStride
