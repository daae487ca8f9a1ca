import LoopStride.Cost
import LoopStride.Toml.Reader

/-! Settings of the access pattern pass, and their reading from a document. Every setting has a
default, so the empty document is a configuration. -/
namespace LoopStride

/-- Which readers of an addition count when it is asked whether the result becomes an address. -/
inductive UsePolicy where
  | anyUse
  | firstUse
  deriving DecidableEq, Repr

structure Config where
  /-- Functions whose names start like this have no body to look into; the empty text matches
  none. -/
  intrinsicStart : String := "llvm."
  policy : UsePolicy := .anyUse
  maxSteps : Nat := 65536
  recording : Bool := true
  overrides : Overrides := ∅

namespace Config

def isIntrinsic (c : Config) (name : String) : Bool :=
  c.intrinsicStart != "" && c.intrinsicStart.toList.isPrefixOf name.toList

/-- There is at least one step, and every overridden opcode exists. -/
def validate (c : Config) : Except ConfigError Unit :=
  if c.maxSteps = 0 then .error .noSteps
  else
    match c.overrides.keys.find? fun name => (Opcode.ofName? name).isNone with
    | some name => .error (.unknownOpcode name)
    | none => .ok ()

end Config

/-- A policy by name. A table of that name alone, with nothing in it, says the same. -/
def UsePolicy.ofToml? : Toml.Value → Option UsePolicy
  | .string name => ofName? name
  | .table [(name, .table [])] => ofName? name
  | .table [(name, .array [])] => ofName? name
  | _ => none
where
  ofName? (name : String) : Option UsePolicy :=
    if name = "any_use" then some .anyUse
    else if name = "first_use" then some .firstUse
    else none

def naturalBelow? (bound : Nat) : Toml.Value → Option Nat
  | .integer n => if 0 ≤ n ∧ n < bound then some n.toNat else none
  | _ => none

def Overrides.ofToml? : Toml.Value → Option Overrides
  | .table entries =>
    entries.foldlM (fun o e => do
      let cycles ← naturalBelow? UInt32.size e.2
      return o.insert e.1 (UInt32.ofNat cycles)) ∅
  | _ => none

namespace Config

/-- Takes over one entry of a document. No other names are known. -/
def set? (c : Config) (name : String) (v : Toml.Value) : Option Config :=
  match name, v with
  | "intrinsic_prefix", .string s => some { c with intrinsicStart := s }
  | "pointer_use_policy", v => (UsePolicy.ofToml? v).map fun p => { c with policy := p }
  | "max_worklist_steps", v => (naturalBelow? UInt64.size v).map fun n => { c with maxSteps := n }
  | "record_diagnostics", .boolean b => some { c with recording := b }
  | "latency_overrides", v => (Overrides.ofToml? v).map fun o => { c with overrides := o }
  | _, _ => none

def ofEntries? (entries : List (String × Toml.Value)) : Option Config :=
  entries.foldlM (fun (c : Config) e => c.set? e.1 e.2) {}

def read (text : String) : Except ConfigError Config :=
  match (Toml.parse? text).bind ofEntries? with
  | none => .error .malformed
  | some c => c.validate.map fun _ => c

/-- The configuration in a file, whose text is missing if it cannot be read. -/
def ofFile (path : String) : Option String → Except ConfigError Config
  | none => .error (.unreadable path)
  | some text => read text

end Config
end LoopStride
