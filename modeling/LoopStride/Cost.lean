import Std.Data.TreeMap
import LoopStride.Opcode
import LoopStride.Fault

/-! Latencies of the opcodes in cycles, and tables of them laid over one another. -/
namespace LoopStride

/-- New latencies by mnemonic, in the order of the mnemonics. -/
abbrev Overrides := Std.TreeMap String UInt32

def Opcode.defaultLatency : Opcode → UInt32
  | .arith .mul => 3
  | .load | .store => 2
  | .cast _ | .phi | .alloca => 0
  | .arith _ | .compare | .address | .call => 1

structure CostTable where
  latency : Opcode → UInt32

instance : Inhabited CostTable := ⟨⟨Opcode.defaultLatency⟩⟩

namespace CostTable

def set (t : CostTable) (op : Opcode) (cycles : UInt32) : CostTable :=
  ⟨fun o => if o = op then cycles else t.latency o⟩

/-- Applies overrides one after the other, up to the first name that is no opcode. -/
def overrideAll (t : CostTable) : List (String × UInt32) → Except ConfigError CostTable
  | [] => .ok t
  | (name, cycles) :: rest =>
    match Opcode.ofName? name with
    | some op => overrideAll (t.set op cycles) rest
    | none => .error (.unknownOpcode name)

def override (t : CostTable) (o : Overrides) : Except ConfigError CostTable :=
  t.overrideAll o.toList

def ofOverrides (o : Overrides) : Except ConfigError CostTable :=
  (default : CostTable).override o

/-- Cycles saved each round when a product becomes a running sum. -/
def gain (t : CostTable) : Int :=
  (t.latency (.arith .mul)).toNat - (t.latency (.arith .add)).toNat

end CostTable
end LoopStride
