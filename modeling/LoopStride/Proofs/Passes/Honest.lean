import LoopStride.Proofs.Access.Run

/-! Passes that tell the truth about what they change. Keeping analyses from pass to pass relies on
it. The access pattern pass is honest when its handler is. -/
namespace LoopStride

namespace Pass
variable {σ : Type} [Pass σ]

/-- The states that a pass gets into by running on functions with `I`. -/
def Becomes (I : Func → Prop) : σ → σ → Prop :=
  Relation.ReflTransGen fun p p' => ∃ f a, I f ∧ p' = (Pass.run p f a).pass

/-- On functions with `I` the pass tells the truth: where it reports no change there is none, and
where it says that it preserves the control flow it does; and it leaves no function without `I`. -/
structure Honest (I : Func → Prop) (p : σ) : Prop where
  unchanged : ∀ p', Becomes I p p' → ∀ f a, I f → (Pass.run p' f a).result = .ok false →
    (Pass.run p' f a).func = f
  keepsFlow : ∀ p', Becomes I p p' → ∀ f a, I f → (Pass.run p' f a).result = .ok true →
    (Pass.usage p').preservesFlow = true → f.KeepsFlow (Pass.run p' f a).func
  keeps : ∀ p', Becomes I p p' → ∀ f a, I f → (Pass.run p' f a).result = .ok true →
    I (Pass.run p' f a).func

variable {I : Func → Prop} {p : σ} {f : Func}

theorem Honest.next (h : Honest I p) (hf : I f) (a : Analyses) :
    Honest I (Pass.run p f a).pass where
  unchanged p' hp' := h.unchanged p' (.head ⟨f, a, hf, rfl⟩ hp')
  keepsFlow p' hp' := h.keepsFlow p' (.head ⟨f, a, hf, rfl⟩ hp')
  keeps p' hp' := h.keeps p' (.head ⟨f, a, hf, rfl⟩ hp')

end Pass

section
variable {η : Type} [Handler η]

/-- On functions with `I` the handler tells the truth: where it says that it did not act, it left
the function as it was, and where it did act it left the control flow as it was. -/
structure Handler.Honest (I : Func → Prop) (h : η) : Prop where
  unchanged : ∀ h', Becomes h h' → ∀ f c, I f → (Handler.handle h' f c).result = .ok false →
    (Handler.handle h' f c).func = f
  keepsFlow : ∀ h', Becomes h h' → ∀ f c, I f → (Handler.handle h' f c).result = .ok true →
    f.KeepsFlow (Handler.handle h' f c).func
  keeps : ∀ h', Becomes h h' → ∀ f c, I f → (Handler.handle h' f c).result = .ok true →
    I (Handler.handle h' f c).func

variable {I : Func → Prop}

theorem Handler.Honest.next {h : η} (hh : Handler.Honest I h) (f : Func) (c : Candidate) :
    Handler.Honest I (Handler.handle h f c).handler where
  unchanged h' hb := hh.unchanged h' (.head ⟨f, c, rfl⟩ hb)
  keepsFlow h' hb := hh.keepsFlow h' (.head ⟨f, c, rfl⟩ hb)
  keeps h' hb := hh.keeps h' (.head ⟨f, c, rfl⟩ hb)

namespace Worklist
variable {q : Inquiry} {w w' : Worklist η} {f : Func} {failure? : Option Fault}

/-- What an honest handler makes true of a work list on `f` as long as no step fails. -/
structure Honest (I : Func → Prop) (f : Func) (w : Worklist η) : Prop where
  handler : Handler.Honest I w.handler
  unchanged : w.changed = false → w.func = f
  keepsFlow : f.KeepsFlow w.func
  keeps : I w.func

theorem Consults.honest_handler (h : w.Consults (w', failure?)) (hw : Handler.Honest I w.handler) :
    Handler.Honest I w'.handler := by
  cases h with
  | not _ _ hhandler => exact hhandler ▸ hw
  | failed c e _ _ hhandler => exact hhandler ▸ hw.next w.func c
  | answered c acted _ _ hhandler => exact hhandler ▸ hw.next w.func c

theorem Consults.honest (h : w.Consults (w', none)) (hw : w.Honest I f) : w'.Honest I f := by
  have hhandler := h.honest_handler hw.handler
  cases h with
  | not _ _ _ hfunc hchanged =>
    exact ⟨hhandler, by rw [hfunc, hchanged]; exact hw.unchanged, hfunc ▸ hw.keepsFlow,
      hfunc ▸ hw.keeps⟩
  | answered c acted _ hres _ hfunc hchanged =>
    cases acted with
    | false =>
      rw [hw.handler.unchanged _ .refl _ c hw.keeps hres] at hfunc
      exact ⟨hhandler, by rw [hfunc, hchanged]; exact hw.unchanged, hfunc ▸ hw.keepsFlow,
        hfunc ▸ hw.keeps⟩
    | true =>
      have hflow := hw.handler.keepsFlow _ .refl _ c hw.keeps hres
      have hkeeps := hw.handler.keeps _ .refl _ c hw.keeps hres
      exact ⟨hhandler, fun h => (by rw [hchanged] at h; cases h),
        hfunc ▸ hw.keepsFlow.trans hflow, hfunc ▸ hkeeps⟩

/-- A run that fails leaves an honest handler, too. -/
theorem honest_run {handler : η} (hh : Handler.Honest I handler) (hf : I f) (n : Nat) :
    (∀ e, (run q n (start q handler f)).2 = .failed e →
      Handler.Honest I (run q n (start q handler f)).1.handler) ∧
    ((∀ e, (run q n (start q handler f)).2 ≠ .failed e) →
      (run q n (start q handler f)).1.Honest I f) := by
  have hstart : (start q handler f).Honest I f := ⟨hh, fun _ => rfl, .refl, hf⟩
  refine run_induct (J := fun w => Handler.Honest I w.handler) ?_ ?_ hstart
  · intro w id rest w' hw _ hs
    have hconsults := consults_settle q (w.next id rest) id
    rw [hs] at hconsults
    exact hconsults.honest ⟨hw.handler, hw.unchanged, hw.keepsFlow, hw.keeps⟩
  · intro w id rest w' e hw _ hs
    have hconsults := consults_settle q (w.next id rest) id
    rw [hs] at hconsults
    exact hconsults.honest_handler hw.handler

end Worklist

namespace AccessPass
variable {p p' : AccessPass η} {f : Func} {a : Analyses}

/-- The pass does not start, or what it leaves behind is what its work list left behind. -/
theorem run_cases (p : AccessPass η) (f : Func) (a : Analyses) :
    (∃ e, prerequisites p.config a = .error e ∧ (p.run f a).pass.handler = p.handler ∧
      (p.run f a).func = f ∧ (p.run f a).result = .error e ∧
      (p.run f a).pass.reports = p.reports) ∨
    ∃ oracle gain, prerequisites p.config a = .ok (oracle, gain) ∧
      let q : Inquiry := ⟨p.config, (f.traceAccesses p.config).1, oracle, gain⟩
      let r := Worklist.run q p.config.maxSteps (.start q p.handler f)
      (p.run f a).pass.handler = r.1.handler ∧ (p.run f a).func = r.1.func ∧
      ((∃ e, r.2 = .failed e ∧ (p.run f a).result = .error e ∧
          (p.run f a).pass.reports = p.reports) ∨
        ∃ limited, r.2 = (if limited then .limited else .drained) ∧
          (p.run f a).result = .ok r.1.changed ∧
          (p.run f a).pass.reports = p.reports ++ [.ofWorklist q.accesses r.1 limited]) := by
  rw [run]
  split
  · next e he => exact .inl ⟨e, he, rfl, rfl, rfl, rfl⟩
  · next oracle gain hpre =>
    refine .inr ⟨oracle, gain, hpre, ?_⟩
    rw [analyze]
    dsimp only
    rcases hrun : Worklist.run ⟨p.config, (f.traceAccesses p.config).1, oracle, gain⟩
      p.config.maxSteps (.start _ p.handler f) with ⟨w, ending⟩
    cases ending with
    | failed e => exact ⟨rfl, rfl, .inl ⟨e, rfl, rfl, rfl⟩⟩
    | drained => exact ⟨rfl, rfl, .inr ⟨false, rfl, rfl, rfl⟩⟩
    | limited => exact ⟨rfl, rfl, .inr ⟨true, rfl, rfl, rfl⟩⟩

theorem honest_handler_run (hh : Handler.Honest I p.handler) (hf : I f) (a : Analyses) :
    Handler.Honest I (p.run f a).pass.handler := by
  rcases p.run_cases f a with ⟨e, -, hhandler, -⟩ | ⟨oracle, gain, -, hhandler, -, hend⟩
  · exact hhandler ▸ hh
  · rw [hhandler]
    rcases hend with ⟨e, hend, -⟩ | ⟨limited, hend, -⟩
    · exact (Worklist.honest_run hh hf p.config.maxSteps).1 e hend
    · refine ((Worklist.honest_run hh hf p.config.maxSteps).2 fun e he => ?_).handler
      cases limited <;> cases hend.symm.trans he

/-- After a run that succeeds, the function is such as the pass reports. -/
theorem honest_run (hh : Handler.Honest I p.handler) (hf : I f) {changed : Bool}
    (hres : (p.run f a).result = .ok changed) :
    (changed = false → (p.run f a).func = f) ∧ f.KeepsFlow (p.run f a).func ∧
      I (p.run f a).func := by
  rcases p.run_cases f a with ⟨e, -, -, -, herr, -⟩ |
    ⟨oracle, gain, -, -, hfunc, ⟨e, -, herr, -⟩ | ⟨limited, hend, hok, -⟩⟩
  · cases herr.symm.trans hres
  · cases herr.symm.trans hres
  · obtain rfl := Except.ok.inj (hok.symm.trans hres)
    have hdone := (Worklist.honest_run hh hf p.config.maxSteps).2
      fun e he => by cases limited <;> cases hend.symm.trans he
    rw [hfunc]
    exact ⟨hdone.unchanged, hdone.keepsFlow, hdone.keeps⟩

/-- The pass is honest wherever its handler is. -/
theorem honest (hh : Handler.Honest I p.handler) : Pass.Honest I p := by
  have hbecomes : ∀ p', Pass.Becomes I p p' → Handler.Honest I p'.handler := by
    intro p' hp'
    induction hp' with
    | refl => exact hh
    | tail _ hstep ih =>
      obtain ⟨f, a, hf, rfl⟩ := hstep
      exact honest_handler_run ih hf a
  exact
    { unchanged := fun p' hp' f a hf hres => (honest_run (hbecomes p' hp') hf hres).1 rfl
      keepsFlow := fun p' hp' f a hf hres _ => (honest_run (hbecomes p' hp') hf hres).2.1
      keeps := fun p' hp' f a hf hres => (honest_run (hbecomes p' hp') hf hres).2.2 }

end AccessPass
end

end LoopStride
