import LoopStride.LoopForest
import LoopStride.Proofs.Dominators.Exact

/-! The loops of a graph are its natural loops: one for each target of an edge from a block that the
target dominates, with the blocks that reach such an edge around the target as its body. -/
namespace LoopStride

/-- The loops of a graph under its own dominators. -/
def Flow.loops (g : Flow) : LoopForest := g.loopForest g.dominators

namespace Flow
variable {g : Flow} {a b c h l u v : BlockId} {i j : LoopId} {lp : Loop}

/-- An edge whose target dominates its source. -/
def BackEdge (g : Flow) (u h : BlockId) : Prop := g.Edge u h ∧ g.Dominates h u

instance : Decidable (g.BackEdge u h) := inferInstanceAs (Decidable (_ ∧ _))

/-- The header itself, and the reachable blocks that lead to the source of an edge back to the
header without passing through it. -/
def InBody (g : Flow) (h b : BlockId) : Prop :=
  b = h ∨ g.Reaches b ∧ ∃ l, g.BackEdge l h ∧ g.Leads (· ≠ h) b l

/-- Latches and body of a loop are those of the natural loop around its header. -/
structure IsNatural (g : Flow) (lp : Loop) : Prop where
  latches_nodup : lp.latches.Nodup
  mem_latches : ∀ u, u ∈ lp.latches ↔ g.BackEdge u lp.header
  body_nodup : lp.body.Nodup
  mem_body : ∀ b, b ∈ lp.body ↔ g.InBody lp.header b
  dominates_body : ∀ b ∈ lp.body, g.Dominates lp.header b

/-! ### Headers and latches -/

theorem mem_backEdges : (u, h) ∈ g.backEdges g.dominators ↔ g.BackEdge u h := by
  simp only [backEdges, List.mem_flatMap, List.mem_map, List.mem_filter, Prod.mk.injEq,
    dominates_eq_true_iff]
  constructor
  · rintro ⟨u', -, h', ⟨he, hd⟩, rfl, rfl⟩
    exact ⟨he, hd⟩
  · rintro ⟨he, hd⟩
    exact ⟨u, mem_reversePostorder.mpr hd.1, h, ⟨he, hd⟩, rfl, rfl⟩

theorem mem_headers : h ∈ g.headers g.dominators ↔ ∃ u, g.BackEdge u h := by
  simp only [headers, List.mem_filter, List.any_eq_true, beq_iff_eq]
  constructor
  · rintro ⟨-, ⟨u, h'⟩, he, rfl⟩
    exact ⟨u, mem_backEdges.mp he⟩
  · rintro ⟨u, hu⟩
    exact ⟨mem_reversePostorder.mpr hu.2.reaches_left, (u, h), mem_backEdges.mpr hu, rfl⟩

theorem headers_sublist : (g.headers g.dominators).Sublist g.reversePostorder := by
  rw [headers]
  exact List.filter_sublist

theorem headers_nodup : (g.headers g.dominators).Nodup :=
  reversePostorder_nodup.sublist headers_sublist

theorem headers_sorted : (g.headers g.dominators).Pairwise
    fun x y => g.reversePostorder.idxOf x < g.reversePostorder.idxOf y := by
  refine List.Pairwise.sublist headers_sublist ?_
  rw [List.pairwise_iff_getElem]
  intro m n hm hn hmn
  rwa [reversePostorder_nodup.idxOf_getElem, reversePostorder_nodup.idxOf_getElem]

theorem mem_latches : u ∈ g.latches g.dominators h ↔ g.BackEdge u h := by
  rw [← mem_backEdges, latches, List.mem_map]
  constructor
  · rintro ⟨⟨u, h'⟩, he, rfl⟩
    obtain ⟨he, hh⟩ := List.mem_filter.mp he
    exact beq_iff_eq.mp hh ▸ he
  · exact fun he => ⟨(u, h), List.mem_filter.mpr ⟨he, beq_self_eq_true h⟩, rfl⟩

theorem latches_nodup (hn : ∀ b, (g.next b).Nodup) : (g.latches g.dominators h).Nodup := by
  have hb : (g.backEdges g.dominators).Nodup := by
    refine List.nodup_flatMap.mpr ⟨fun b _ => ?_, ?_⟩
    · exact ((hn b).filter _).map fun _ _ he => (Prod.mk.inj he).2
    · refine reversePostorder_nodup.imp fun {x y} hxy => ?_
      intro e hx hy
      obtain ⟨_, -, rfl⟩ := List.mem_map.mp hx
      obtain ⟨_, -, he⟩ := List.mem_map.mp hy
      exact hxy (Prod.mk.inj he).1.symm
  refine (hb.filter _).map_on fun x hx y hy hxy => ?_
  have hx2 := (List.mem_filter.mp hx).2
  have hy2 := (List.mem_filter.mp hy).2
  rw [beq_iff_eq] at hx2 hy2
  exact Prod.ext hxy (hx2.trans hy2.symm)

/-! ### Bodies -/

theorem Leads.lt_size {P : BlockId → Prop} (hl : g.Leads P u v) (hv : v < g.size) :
    u < g.size :=
  hl.induct_back (fun _ => hv) fun _ he _ _ => he.lt_size

theorem BackEdge.header_lt_size (hu : g.BackEdge u h) : h < g.size :=
  hu.2.leads.lt_size hu.1.lt_size

theorem InBody.lt_size (hu : g.BackEdge u h) (hb : g.InBody h b) : b < g.size := by
  rcases hb with rfl | ⟨-, l, hl, hbl⟩
  · exact hu.header_lt_size
  · exact hbl.lt_size hl.1.lt_size

theorem InBody.dominates (hu : g.BackEdge u h) (hb : g.InBody h b) : g.Dominates h b := by
  rcases hb with rfl | ⟨hr, l, hl, hbl⟩
  · exact hu.2.reaches_left.dominates_self
  · by_contra hn
    exact hl.2.not_leads ((hr.leads_around hn).trans hbl)

/-- Where the search for a body goes on: the reachable predecessors. -/
def backward (g : Flow) (b : BlockId) : List BlockId :=
  (g.predecessors b).filter g.dominators.isReachable

theorem mem_backward : u ∈ g.backward v ↔ g.Edge u v ∧ g.Reaches u := by
  rw [backward, List.mem_filter, mem_predecessors, isReachable_iff]

theorem backward_eq_nil (hv : v ∉ (g.edges.map (·.2)).toFinset) : g.backward v = [] := by
  refine List.eq_nil_iff_forall_not_mem.mpr fun u hu => hv ?_
  rw [List.mem_toFinset, List.mem_map]
  exact ⟨(u, v), mem_edges.mpr (mem_backward.mp hu).1, rfl⟩

theorem pending_lt_searchBound (items : List BlockId) :
    items.length + pending g.backward (g.edges.map (·.2)).toFinset [h] < g.searchBound items := by
  have hlen : ∀ b, (g.backward b).length ≤ (g.predecessors b).length := by
    intro b
    exact List.length_filter_le _ _
  exact Nat.lt_succ_of_le (Nat.add_le_add_left (pending_back_le hlen) _)

/-- A search backward from the latches that avoids the header runs along the paths to a latch. -/
theorem backward_from_latch_iff : (∃ l ∈ g.latches g.dominators h, l ≠ h ∧
      Relation.ReflTransGen (fun x y => y ∈ g.backward x ∧ y ≠ h) l b) ↔
    g.Reaches b ∧ ∃ l, g.BackEdge l h ∧ g.Leads (· ≠ h) b l := by
  constructor
  · rintro ⟨l, hl, hlh, hlb⟩
    have hl := mem_latches.mp hl
    induction hlb with
    | refl => exact ⟨hl.2.1, l, hl, .refl hlh⟩
    | tail _ hy ih =>
      obtain ⟨-, l', hl', hxl⟩ := ih
      obtain ⟨he, hr⟩ := mem_backward.mp hy.1
      exact ⟨hr, l', hl', hxl.head hy.2 he⟩
  · rintro ⟨hb, l, hl, hbl⟩
    refine ⟨l, mem_latches.mpr hl, hbl.right, ?_⟩
    refine hbl.induct_back (C := fun x => g.Reaches x → Relation.ReflTransGen _ l x)
      (fun _ _ => .refl) (fun {x y} hx he _ ih hr => ?_) hb
    exact (ih (hr.next he)).tail ⟨mem_backward.mpr ⟨he, hr⟩, hx⟩

theorem mem_loopBody (hu : g.BackEdge u h) :
    b ∈ g.loopBody g.dominators h ↔ g.InBody h b := by
  have hsearch : b ∈ closure g.backward (g.searchBound (g.latches g.dominators h)) [h]
      (g.latches g.dominators h) ↔ g.InBody h b := by
    rw [mem_closure_iff (fun v => backward_eq_nil) (pending_lt_searchBound _), List.mem_singleton]
    simp only [List.mem_singleton]
    exact or_congr_right backward_from_latch_iff
  rw [loopBody, List.mem_filter, List.mem_range, List.contains_iff_mem]
  exact ⟨fun hb => hsearch.mp hb.2, fun hb => ⟨InBody.lt_size hu hb, hsearch.mpr hb⟩⟩

theorem loopBody_nodup (h : BlockId) : (g.loopBody g.dominators h).Nodup :=
  List.nodup_range.filter _

/-! ### The forest -/

theorem loops_headers : g.loops.loops.map Loop.header = g.headers g.dominators := by
  simp only [loops, loopForest, List.map_map]
  exact List.ext_getElem (by simp) (by simp)

/-- The bodies by number, from which the parents are chosen. -/
def bodies (g : Flow) : List (List BlockId) :=
  (g.headers g.dominators).map (g.loopBody g.dominators)

def parents (g : Flow) : List (Option LoopId) :=
  (g.headers g.dominators).zipIdx.map fun e => parentAmong g.bodies e.2 e.1

theorem get?_loops (i : LoopId) :
    g.loops.get? i = (g.headers g.dominators)[i]?.map fun h =>
      { header := h
        latches := g.latches g.dominators h
        body := g.loopBody g.dominators h
        parent := parentAmong g.bodies i h
        depth := (depthsOf g.parents).getD i 1 } := by
  rw [LoopForest.get?, loops, loopForest]
  cases h : (g.headers g.dominators)[i]? with
  | none => simp [h]
  | some h' => simp [h, bodies, parents, List.getD]

theorem header_of_get? (hi : g.loops.get? i = some lp) :
    (g.headers g.dominators)[i]? = some lp.header := by
  rw [get?_loops, Option.map_eq_some_iff] at hi
  obtain ⟨h, hh, rfl⟩ := hi
  exact hh

theorem latches_of_get? (hi : g.loops.get? i = some lp) :
    lp.latches = g.latches g.dominators lp.header := by
  rw [get?_loops, Option.map_eq_some_iff] at hi
  obtain ⟨h, hh, rfl⟩ := hi
  rfl

theorem body_of_get? (hi : g.loops.get? i = some lp) :
    lp.body = g.loopBody g.dominators lp.header := by
  rw [get?_loops, Option.map_eq_some_iff] at hi
  obtain ⟨h, hh, rfl⟩ := hi
  rfl

theorem backEdge_of_get? (hi : g.loops.get? i = some lp) : ∃ u, g.BackEdge u lp.header :=
  mem_headers.mp (List.mem_of_getElem? (header_of_get? hi))

theorem mem_body_iff (hi : g.loops.get? i = some lp) : b ∈ lp.body ↔ g.InBody lp.header b := by
  obtain ⟨u, hu⟩ := backEdge_of_get? hi
  rw [body_of_get? hi, mem_loopBody hu]

theorem ofHeader?_eq_some_iff :
    g.loops.ofHeader? b = some i ↔ ∃ lp, g.loops.get? i = some lp ∧ lp.header = b := by
  have hn : (g.loops.loops.map Loop.header).Nodup := loops_headers ▸ headers_nodup
  rw [LoopForest.ofHeader?, List.findIdx?_eq_some_iff_getElem]
  constructor
  · rintro ⟨hi, hb, -⟩
    exact ⟨_, List.getElem?_eq_getElem hi, by simpa using hb⟩
  · rintro ⟨lp, hi, rfl⟩
    obtain ⟨hlt, rfl⟩ := List.getElem?_eq_some_iff.mp hi
    refine ⟨hlt, by simp, fun j hj hjb => ?_⟩
    have hji : (g.loops.loops.map Loop.header)[j]? = (g.loops.loops.map Loop.header)[i]? := by
      rw [List.getElem?_map, List.getElem?_map, List.getElem?_eq_getElem (hj.trans hlt),
        List.getElem?_eq_getElem hlt]
      simpa using hjb
    have hlen : j < (g.loops.loops.map Loop.header).length := by simpa using hj.trans hlt
    exact Nat.ne_of_lt hj ((List.getElem?_inj hlen hn).mp hji)

theorem isNatural_of_mem (hn : ∀ b, (g.next b).Nodup) (hlp : lp ∈ g.loops.loops) :
    g.IsNatural lp := by
  obtain ⟨i, hi⟩ := List.mem_iff_getElem?.mp hlp
  obtain ⟨u, hu⟩ := backEdge_of_get? hi
  have hl := latches_of_get? hi
  refine ⟨hl ▸ latches_nodup hn, fun u => hl ▸ mem_latches, body_of_get? hi ▸ loopBody_nodup _,
    fun b => mem_body_iff hi, ?_⟩
  exact fun b hb => ((mem_body_iff hi).mp hb).dominates hu

end Flow

/-- There is exactly one loop for each target of an edge back to a dominator of its source, and it
is the natural loop around that target. -/
theorem Func.loops_exact (f : Func) :
    (f.flow.loops.loops.map Loop.header).Nodup ∧
    (∀ h, (∃ lp ∈ f.flow.loops.loops, lp.header = h) ↔ ∃ u, f.flow.BackEdge u h) ∧
    (∀ lp ∈ f.flow.loops.loops, f.flow.IsNatural lp) ∧
    ∀ b i, f.flow.loops.ofHeader? b = some i ↔
      ∃ lp, f.flow.loops.get? i = some lp ∧ lp.header = b := by
  refine ⟨Flow.loops_headers ▸ Flow.headers_nodup, fun h => ?_, fun lp hlp => ?_, fun b i => ?_⟩
  · rw [← Flow.mem_headers, ← Flow.loops_headers, List.mem_map]
  · exact Flow.isNatural_of_mem f.next_nodup hlp
  · exact Flow.ofHeader?_eq_some_iff

end LoopStride
