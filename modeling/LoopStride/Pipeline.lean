import LoopStride.Pass
import LoopStride.Program

/-! Running passes one after the other, and again in rounds until none reports a change. Analyses
are kept from pass to pass as long as no change makes them stale. -/
namespace LoopStride

structure Pipeline (σ : Type) where
  passes : List σ
  target : CostTable := default
  rounds : Nat := 1
  rounds_pos : 0 < rounds := by decide

/-- A pipeline that repeats its passes; no rounds count as one. -/
def Pipeline.repeating (rounds : Nat) (passes : List σ) (target : CostTable) : Pipeline σ :=
  { passes, target, rounds := max rounds 1
    rounds_pos := Nat.lt_of_lt_of_le Nat.zero_lt_one (Nat.le_max_right rounds 1) }

structure Progress (σ : Type) where
  passes : List σ
  func : Func
  analyses : Analyses
  notes : List Note

structure PipelineRun (σ : Type) (α : Type) where
  passes : List σ
  subject : α
  result : Except Fault Bool
  notes : List Note

section
variable {σ : Type} [Pass σ]

def runPass (target : CostTable) (p : σ) (f : Func) (a : Analyses) : PassRun σ × Analyses :=
  let usage := Pass.usage p
  let ready := a.prepare f usage.required target
  let r := Pass.run p f ready
  let notes := a.progress ready f ++ r.notes
  match r.result with
  | .ok true =>
    let told := Note.debug
      ("pass '" ++ Pass.name r.pass ++ "' modified function '" ++ r.func.name ++ "'")
    ({ r with notes := notes ++ [told] }, ready.invalidate usage.preservesFlow)
  | _ => ({ r with notes }, ready)

/-- Runs each pass once. The result tells whether any of them reports a change; the first failure
ends the round. -/
def runRound (target : CostTable) :
    List σ → Func → Analyses → Progress σ × Except Fault Bool
  | [], f, a => (⟨[], f, a, []⟩, .ok false)
  | p :: ps, f, a =>
    let (r, a) := runPass target p f a
    match r.result with
    | .error e => (⟨r.pass :: ps, r.func, a, r.notes⟩, .error e)
    | .ok changed =>
      let (rest, result) := runRound target ps r.func a
      (⟨r.pass :: rest.passes, rest.func, rest.analyses, r.notes ++ rest.notes⟩,
        result.map fun later => changed || later)

def unsettledNote (name : String) (rounds : Nat) : Note :=
  .warn ("pass pipeline did not converge on '" ++ name ++ "' after " ++ toString rounds ++
    " iterations")

/-- Runs rounds until one changes nothing. `limit` is their number at the start, `left` how many
may still follow. -/
def runRounds (target : CostTable) (limit : Nat) :
    Nat → List σ → Func → Analyses → PipelineRun σ Func
  | 0, ps, f, _ => ⟨ps, f, .ok false, []⟩
  | left + 1, ps, f, a =>
    let (p, result) := runRound target ps f a
    match result with
    | .error e => ⟨p.passes, p.func, .error e, p.notes⟩
    | .ok false => ⟨p.passes, p.func, .ok false, p.notes⟩
    | .ok true =>
      let told := if left = 0 ∧ 1 < limit then [unsettledNote p.func.name limit] else []
      let rest := runRounds target limit left p.passes p.func p.analyses
      { rest with
        result := rest.result.map fun _ => true
        notes := p.notes ++ told ++ rest.notes }

namespace Pipeline

def run (m : Pipeline σ) (f : Func) : PipelineRun σ Func :=
  runRounds m.target m.rounds m.rounds m.passes f {}

/-- Runs the passes on functions one by one, up to the first failure. -/
def runAll (m : Pipeline σ) : List Func → PipelineRun σ (List Func)
  | [] => ⟨m.passes, [], .ok false, []⟩
  | f :: fs =>
    let r := m.run f
    match r.result with
    | .error e => ⟨r.passes, r.subject :: fs, .error e, r.notes⟩
    | .ok changed =>
      let rest := runAll { m with passes := r.passes } fs
      ⟨rest.passes, r.subject :: rest.subject, rest.result.map fun later => changed || later,
        r.notes ++ rest.notes⟩

def runProgram (m : Pipeline σ) (p : Program) : PipelineRun σ Program :=
  let r := m.runAll p.funcs.toList
  ⟨r.passes, { p with funcs := r.subject.toArray }, r.result, r.notes⟩

end Pipeline
end
end LoopStride
