import LoopStride.Func
import LoopStride.Proofs.Flow.Search

/-! The blocks before a block. A look at all blocks and a map filled edge by edge tell the same of
them; the map has an entry for each block that is led to, and for no other. -/
namespace LoopStride

namespace Flow

variable {g : Flow} {b u : BlockId} {us : List BlockId} {m : List (BlockId × List BlockId)}

/-- Filing an edge adds its source behind what is filed under its target. -/
theorem lookup_fileEdge (e : BlockId × BlockId) (m : List (BlockId × List BlockId)) :
    ((fileEdge e m).lookup b).getD [] =
      (m.lookup b).getD [] ++ if e.2 = b then [e.1] else [] := by
  induction m with
  | nil =>
    by_cases he : e.2 = b
    · simp [fileEdge, he]
    · simp [fileEdge, List.lookup_cons, he, beq_false_of_ne (Ne.symm he)]
  | cons entry m ih =>
    obtain ⟨c, us⟩ := entry
    by_cases hc : c = e.2
    · subst hc
      by_cases he : e.2 = b
      · simp [fileEdge, he]
      · simp [fileEdge, List.lookup_cons, he, beq_false_of_ne (Ne.symm he)]
    · rw [fileEdge, if_neg hc, List.lookup_cons, List.lookup_cons]
      by_cases hb : b = c
      · simp [hb, Ne.symm hc]
      · rw [beq_false_of_ne hb]
        exact ih

theorem lookup_foldl_fileEdge (edges : List (BlockId × BlockId))
    (m : List (BlockId × List BlockId)) :
    ((edges.foldl (fun m e => fileEdge e m) m).lookup b).getD [] =
      (m.lookup b).getD [] ++ (edges.filter fun e => e.2 = b).map Prod.fst := by
  induction edges generalizing m with
  | nil => simp
  | cons e edges ih =>
    rw [List.foldl_cons, ih, lookup_fileEdge, List.append_assoc]
    by_cases he : e.2 = b <;> simp [he]

theorem lookup_predecessorMap : (g.predecessorMap.lookup b).getD [] =
    (g.edges.filter fun e => e.2 = b).map Prod.fst :=
  lookup_foldl_fileEdge g.edges []

theorem mem_lookup_predecessorMap :
    u ∈ (g.predecessorMap.lookup b).getD [] ↔ g.Edge u b := by
  rw [lookup_predecessorMap]
  simp [mem_edges]

/-! ### Both ways -/

/-- Of the edges that leave a block at most one leads to `b`. -/
theorem sources_into (hn : us.Nodup) :
    ((us.map (u, ·)).filter fun e => e.2 = b).map Prod.fst = if b ∈ us then [u] else [] := by
  have hfilter : us.filter (fun v => v = b) = List.replicate (us.count b) b := by
    rw [← List.filter_beq]
    rfl
  rw [List.filter_map, List.map_map]
  simp only [Function.comp_def, hfilter, hn.count]
  by_cases hb : b ∈ us <;> simp [hb]

/-- If no successor is named twice, what is filed under a block is what a look at all blocks
finds. -/
theorem lookup_predecessorMap_eq (hn : ∀ u, (g.next u).Nodup) :
    (g.predecessorMap.lookup b).getD [] = g.predecessors b := by
  rw [lookup_predecessorMap, predecessors, edges, List.filter_flatMap, List.map_flatMap]
  simp only [sources_into (hn _)]
  -- the edges are made block by block, in the order in which the other way looks at the blocks
  induction List.range g.size with
  | nil => rfl
  | cons u blocks ih => by_cases hu : b ∈ g.next u <;> simp [hu, ih]

theorem predecessors_ascending : (g.predecessors b).Pairwise (· < ·) :=
  List.pairwise_lt_range.filter _

/-! ### The entries of the map -/

/-- A block is filed at most once, and never without a source. -/
structure Filed (m : List (BlockId × List BlockId)) : Prop where
  once : (m.map Prod.fst).Nodup
  nonempty : ∀ entry ∈ m, entry.2 ≠ []

theorem keys_fileEdge (e : BlockId × BlockId) (m : List (BlockId × List BlockId)) :
    (fileEdge e m).map Prod.fst =
      if e.2 ∈ m.map Prod.fst then m.map Prod.fst else m.map Prod.fst ++ [e.2] := by
  induction m with
  | nil => rfl
  | cons entry m ih =>
    obtain ⟨c, us⟩ := entry
    rw [fileEdge]
    by_cases hc : c = e.2
    · simp [hc]
    · rw [if_neg hc, List.map_cons, ih]
      by_cases hm : e.2 ∈ m.map Prod.fst <;> simp [hm, Ne.symm hc]

theorem nonempty_fileEdge (e : BlockId × BlockId) (h : ∀ entry ∈ m, entry.2 ≠ []) :
    ∀ entry ∈ fileEdge e m, entry.2 ≠ [] := by
  induction m with
  | nil => simp [fileEdge]
  | cons entry m ih =>
    obtain ⟨c, us⟩ := entry
    obtain ⟨hus, hm⟩ := List.forall_mem_cons.mp h
    rw [fileEdge]
    split
    · exact List.forall_mem_cons.mpr ⟨by simp, hm⟩
    · exact List.forall_mem_cons.mpr ⟨hus, ih hm⟩

theorem Filed.fileEdge (e : BlockId × BlockId) (h : Filed m) : Filed (fileEdge e m) where
  once := by
    rw [keys_fileEdge]
    split
    · exact h.once
    · next hnew => exact List.concat_eq_append ▸ h.once.concat hnew
  nonempty := nonempty_fileEdge e h.nonempty

theorem filed_predecessorMap : Filed g.predecessorMap := by
  have hfold : ∀ (edges : List (BlockId × BlockId)) m, Filed m →
      Filed (edges.foldl (fun m e => Flow.fileEdge e m) m) := by
    intro edges
    induction edges with
    | nil => exact fun m h => h
    | cons e edges ih => exact fun m h => ih _ (h.fileEdge e)
  exact hfold g.edges [] ⟨List.nodup_nil, by simp⟩

theorem Filed.mem_iff (h : Filed m) : (b, us) ∈ m ↔ m.lookup b = some us := by
  obtain ⟨honce, -⟩ := h
  induction m with
  | nil => simp
  | cons entry m ih =>
    obtain ⟨c, vs⟩ := entry
    obtain ⟨hc, honce⟩ := List.nodup_cons.mp honce
    rw [List.lookup_cons, List.mem_cons]
    by_cases hb : b = c
    · have hnot : (c, us) ∉ m := fun hm => hc (List.mem_map.mpr ⟨(c, us), hm, rfl⟩)
      simp [hnot, hb, eq_comm]
    · simp [beq_false_of_ne hb, hb, ih honce]

/-- The entries are the lists of predecessors that are not empty. -/
theorem mem_predecessorMap (hn : ∀ u, (g.next u).Nodup) :
    (b, us) ∈ g.predecessorMap ↔ us = g.predecessors b ∧ us ≠ [] := by
  rw [← lookup_predecessorMap_eq hn]
  constructor
  · intro h
    rw [filed_predecessorMap.mem_iff.mp h]
    exact ⟨rfl, filed_predecessorMap.nonempty _ h⟩
  · rintro ⟨rfl, hne⟩
    rw [filed_predecessorMap.mem_iff]
    cases hl : g.predecessorMap.lookup b with
    | none => exact absurd (by rw [hl, Option.getD_none]) hne
    | some us => rfl

end Flow

/-- What both ways tell of the blocks before `b`, whether it exists or not: those that exist and have it
among their successors, in ascending order, each of them once even if both targets of its branch are
`b`. -/
theorem Func.predecessors_agree (f : Func) (b : BlockId) :
    f.flow.predecessors b = (f.flow.predecessorMap.lookup b).getD [] ∧
    (f.flow.predecessors b).Pairwise (· < ·) ∧
    (∀ p, p ∈ f.flow.predecessors b ↔ ∃ block, f.block? p = some block ∧ b ∈ block.successors) ∧
    (∀ us, (b, us) ∈ f.flow.predecessorMap ↔ us = f.flow.predecessors b ∧ us ≠ []) ∧
    ∀ p block c, f.block? p = some block → block.terminator = .branch c b b →
      (f.flow.predecessors b).count p = 1 ∧
      ((f.flow.predecessorMap.lookup b).getD []).count p = 1 := by
  have hmap := Flow.lookup_predecessorMap_eq (b := b) f.next_nodup
  have hmem : ∀ p, p ∈ f.flow.predecessors b ↔
      ∃ block, f.block? p = some block ∧ b ∈ block.successors :=
    fun p => Flow.mem_predecessors.trans edge_iff
  refine ⟨hmap.symm, Flow.predecessors_ascending, hmem,
    fun us => Flow.mem_predecessorMap f.next_nodup, fun p block c hp hbranch => ?_⟩
  rw [hmap, and_self]
  have hsucc : b ∈ block.successors := by simp [Block.successors, hbranch, Terminator.targets]
  exact List.count_eq_one_of_mem (Flow.predecessors_ascending.imp Nat.ne_of_lt)
    ((hmem p).mpr ⟨block, hp, hsucc⟩)

/-- Two branches lead to a block that is missing, the later one by both of its targets. -/
def strayTwins : Func :=
  { Func.empty "twins" with
    blocks := #[⟨none, [], .branch (.param 0) 1 7⟩, ⟨none, [], .branch (.param 0) 7 7⟩] }

theorem Func.predecessors_agree_strayTwins :
    strayTwins.block? 1 = some ⟨none, [], .branch (.param 0) 7 7⟩ ∧
    strayTwins.flow.predecessors 7 = [0, 1] ∧ (strayTwins.flow.predecessors 7).count 1 = 1 ∧
    (7, [0, 1]) ∈ strayTwins.flow.predecessorMap := by
  obtain ⟨-, -, -, hentries, hsingle⟩ := predecessors_agree strayTwins 7
  have hpreds : strayTwins.flow.predecessors 7 = [0, 1] := by decide +kernel
  exact ⟨rfl, hpreds, (hsingle 1 _ (.param 0) rfl rfl).1, (hentries _).mpr ⟨hpreds.symm, by simp⟩⟩

end LoopStride
