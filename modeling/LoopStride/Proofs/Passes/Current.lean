import LoopStride.Analyses

/-! What makes the analyses at hand right for a function, and what keeps them so. Dominators and
loops read nothing but the control-flow graph, so they outlast a change that leaves it alone. -/
namespace LoopStride

abbrev Analysis.Result : Analysis → Type
  | .dominance => Dominators
  | .evolution => Evolution
  | .cost => CostTable
  | .loops => LoopForest

def Func.resultOf (f : Func) (target : CostTable) : (kind : Analysis) → kind.Result
  | .dominance => f.flow.dominators
  | .evolution => f.evolution (f.flow.loopForest f.flow.dominators)
  | .cost => target
  | .loops => f.flow.loopForest f.flow.dominators

/-- A result at hand that is right, and right if it is computed, is right when it is provided. -/
theorem provide_right {α : Type} {P : α → Prop} {needed : Bool} {compute : Unit → α} {o : Option α}
    (ho : ∀ r ∈ o, P r) (hc : P (compute ())) : ∀ r ∈ provide needed compute o, P r := by
  intro r hr
  cases o with
  | some s => exact ho r hr
  | none =>
    rw [provide] at hr
    split at hr
    · obtain rfl := Option.some.inj hr
      exact hc
    · cases hr

theorem isSome_provide {α : Type} {needed : Bool} {compute : Unit → α} {o : Option α}
    (h : needed = true) : (provide needed compute o).isSome := by
  cases o <;> simp [provide, h]

namespace Analyses

/-- Reads an analysis of any kind. -/
def get? (a : Analyses) : (kind : Analysis) → Except Fault kind.Result
  | .dominance => a.dominators?
  | .evolution => a.evolution?
  | .cost => a.cost?
  | .loops => a.loops?

/-- The result at hand, declared or not. -/
def slot (a : Analyses) : (kind : Analysis) → Option kind.Result
  | .dominance => a.dominators
  | .evolution => a.evolution
  | .cost => a.cost
  | .loops => a.loops

/-- Every result at hand is that for `f` as it is. -/
def Current (a : Analyses) (f : Func) (target : CostTable) : Prop :=
  ∀ kind, ∀ r ∈ a.slot kind, r = f.resultOf target kind

variable {a : Analyses} {f g : Func} {target : CostTable} {kinds : List Analysis} {kind : Analysis}

theorem get?_eq (a : Analyses) (kind : Analysis) : a.get? kind = a.read kind (a.slot kind) := by
  cases kind <;> rfl

theorem current_empty : Current {} f target := by
  intro kind r hr
  cases kind <;> cases hr

/-! ### Preparing -/

theorem dominators_prepare : (a.prepare f kinds target).dominators =
    provide (needsDominators kinds) (fun _ => f.flow.dominators) a.dominators := rfl

theorem loops_prepare : (a.prepare f kinds target).loops =
    match (a.prepare f kinds target).dominators with
    | some d => provide (needsLoops kinds) (fun _ => f.flow.loopForest d) a.loops
    | none => a.loops := rfl

theorem evolution_prepare : (a.prepare f kinds target).evolution =
    match (a.prepare f kinds target).loops with
    | some F => provide (needsEvolution kinds) (fun _ => f.evolution F) a.evolution
    | none => a.evolution := rfl

theorem cost_prepare : (a.prepare f kinds target).cost =
    provide (kinds.contains .cost) (fun _ => target) a.cost := rfl

theorem Current.prepare (h : a.Current f target) :
    (a.prepare f kinds target).Current f target := by
  have hdom : ∀ d ∈ (a.prepare f kinds target).dominators, d = f.flow.dominators := by
    rw [dominators_prepare]
    exact provide_right (h .dominance) rfl
  have hloops : ∀ F ∈ (a.prepare f kinds target).loops,
      F = f.flow.loopForest f.flow.dominators := by
    rw [loops_prepare]
    split
    · next d hd =>
      obtain rfl := hdom d hd
      exact provide_right (h .loops) rfl
    · exact h .loops
  intro kind
  cases kind with
  | dominance => exact hdom
  | evolution =>
    rw [slot, evolution_prepare]
    split
    · next F hF =>
      obtain rfl := hloops F hF
      exact provide_right (h .evolution) rfl
    · exact h .evolution
  | cost =>
    rw [slot, cost_prepare]
    exact provide_right (h .cost) rfl
  | loops => exact hloops

/-- What is asked for is at hand: dominators for the loops, loops for the symbolic values. -/
theorem isSome_slot_prepare (hk : kind ∈ kinds) :
    ((a.prepare f kinds target).slot kind).isSome := by
  have hdom : needsDominators kinds = true → (a.prepare f kinds target).dominators.isSome := by
    rw [dominators_prepare]
    exact isSome_provide
  have hloops : needsLoops kinds = true → (a.prepare f kinds target).loops.isSome := by
    intro h
    obtain ⟨d, hd⟩ := Option.isSome_iff_exists.mp (hdom (by simp [needsDominators, h]))
    rw [loops_prepare, hd]
    exact isSome_provide h
  cases kind with
  | dominance => exact hdom (by simp [needsDominators, hk])
  | evolution =>
    have h : needsEvolution kinds = true := by simpa [needsEvolution] using hk
    obtain ⟨F, hF⟩ := Option.isSome_iff_exists.mp (hloops (by simp [needsLoops, h]))
    rw [slot, evolution_prepare, hF]
    exact isSome_provide h
  | cost =>
    rw [slot, cost_prepare]
    exact isSome_provide (by simpa using hk)
  | loops => exact hloops (by simp [needsLoops, hk])

/-- After preparing, exactly what was asked for can be read, and it is right. -/
theorem Current.get?_prepare (h : a.Current f target) (kind : Analysis) :
    (a.prepare f kinds target).get? kind =
      if kind ∈ kinds then .ok (f.resultOf target kind) else .error (.missingAnalysis kind) := by
  rw [get?_eq]
  cases hs : (a.prepare f kinds target).slot kind with
  | none =>
    have hk : kind ∉ kinds := fun hk => by
      have hsome : ((a.prepare f kinds target).slot kind).isSome := isSome_slot_prepare hk
      rw [hs] at hsome
      cases hsome
    rw [if_neg hk, Analyses.read]
  | some r =>
    obtain rfl := h.prepare kind r hs
    rfl

theorem get?_compute (f : Func) (kinds : List Analysis) (target : CostTable) (kind : Analysis) :
    (compute f kinds target).get? kind =
      if kind ∈ kinds then .ok (f.resultOf target kind) else .error (.missingAnalysis kind) :=
  current_empty.get?_prepare kind

/-! ### Changes -/

/-- What is dropped when a function changes is enough: the rest is right for any function with the
same control-flow graph, and the cost for any function. -/
theorem Current.invalidate {preservesFlow : Bool} (h : a.Current f target)
    (hflow : preservesFlow = true → g.flow = f.flow) :
    (a.invalidate preservesFlow).Current g target := by
  intro kind r hr
  cases preservesFlow with
  | false =>
    cases kind with
    | cost => exact h .cost r hr
    | _ => cases hr
  | true =>
    have hflow := hflow rfl
    cases kind with
    | dominance => exact (h .dominance r hr).trans (by rw [Func.resultOf, Func.resultOf, hflow])
    | evolution => cases hr
    | cost => exact h .cost r hr
    | loops => exact (h .loops r hr).trans (by rw [Func.resultOf, Func.resultOf, hflow])

end Analyses
end LoopStride
