import LoopStride.Analyses
import LoopStride.Journal

/-! Passes over a function. A pass is a value that carries its own state: a run gives back the pass
in its next state. -/
namespace LoopStride

structure PassRun (σ : Type) where
  pass : σ
  func : Func
  result : Except Fault Bool
  notes : List Note := []

class Pass (σ : Type) where
  name : σ → String
  usage : σ → Usage
  run : σ → Func → Analyses → PassRun σ

instance [Pass σ] [Pass τ] : Pass (σ ⊕ τ) where
  name
    | .inl p => Pass.name p
    | .inr p => Pass.name p
  usage
    | .inl p => Pass.usage p
    | .inr p => Pass.usage p
  run
    | .inl p, f, a =>
      let r := Pass.run p f a
      ⟨.inl r.pass, r.func, r.result, r.notes⟩
    | .inr p, f, a =>
      let r := Pass.run p f a
      ⟨.inr r.pass, r.func, r.result, r.notes⟩

end LoopStride
