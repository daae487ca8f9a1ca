import LoopStride.Proofs.Dominators.Exact

/-! Where blocks stand in the reverse postorder. It lists the blocks that the other two searches
reach, entry first; an edge leads on in it unless its target leads back to its source; and a dominator
stands in front of what it dominates. -/
namespace LoopStride

namespace Flow

/-- The order lists the reachable blocks of the graph, existing or not, and only its cycles hold edges
that do not lead on in it. -/
structure Orders (g : Flow) (order : List BlockId) : Prop where
  nodup : order.Nodup
  mem_iff_isReachable : ∀ t, t ∈ order ↔ g.isReachable t = true
  isReachable_iff_dominators : ∀ t, g.isReachable t = true ↔ g.dominators.isReachable t = true
  head : order.head? = some g.entry
  mem_of_edge : ∀ u ∈ order, ∀ v, g.Edge u v → v ∈ order
  leads_back : ∀ u ∈ order, ∀ v ∈ order, g.Edge u v → order.idxOf v ≤ order.idxOf u →
    ∃ p, g.Path v u p
  topological : (∀ u v p, g.Edge u v → ¬ g.Path v u p) →
    ∀ u ∈ order, ∀ v ∈ order, g.Edge u v → order.idxOf u < order.idxOf v
  idxOf_le_of_dominates : ∀ a b, g.Dominates a b → order.idxOf a ≤ order.idxOf b

variable {g : Flow} {a b u v : BlockId}

theorem exists_path_back (hu : u ∈ g.reversePostorder) (he : g.Edge u v)
    (hle : g.reversePostorder.idxOf v ≤ g.reversePostorder.idxOf u) : ∃ p, g.Path v u p := by
  rcases sublist_or_leads_back hu he with hon | ⟨p, hp, -⟩
  · exact absurd (idxOf_lt_of_sublist g.reversePostorder_nodup hon) (Nat.not_lt.mpr hle)
  · exact ⟨p, hp⟩

theorem Dominates.idxOf_le (h : g.Dominates a b) :
    g.reversePostorder.idxOf a ≤ g.reversePostorder.idxOf b := by
  by_cases hab : a = b
  · exact hab ▸ Nat.le_refl _
  · exact (StrictlyDominates.idxOf_lt ⟨h, hab⟩).le

end Flow

/-- The reverse postorder of a function, whatever its terminators are. -/
theorem Func.reversePostorder_orders (f : Func) : f.flow.Orders f.flow.reversePostorder where
  nodup := f.flow.reversePostorder_nodup
  mem_iff_isReachable t := Flow.mem_reversePostorder.trans Flow.isReachable_eq_true_iff.symm
  isReachable_iff_dominators t := Flow.isReachable_eq_true_iff.trans Flow.isReachable_iff.symm
  head := by
    obtain ⟨rest, horder⟩ := f.flow.reversePostorder_eq_cons
    rw [horder, List.head?_cons]
  mem_of_edge u hu v he :=
    Flow.mem_reversePostorder.mpr ((Flow.mem_reversePostorder.mp hu).next he)
  leads_back u hu v _ he hle := Flow.exists_path_back hu he hle
  topological hacyclic u hu v _ he := by
    by_contra hlt
    obtain ⟨p, hp⟩ := Flow.exists_path_back hu he (Nat.not_lt.mp hlt)
    exact hacyclic u v p he hp
  idxOf_le_of_dominates a b h := h.idxOf_le

end LoopStride
