import Mathlib.Data.List.Perm.Basic
import Mathlib.Logic.Equiv.Defs
import LoopStride.Proofs.Loops.Natural

/-! One graph under two numberings of its blocks. Paths correspond, and with them dominance and
natural loops; the reverse postorders correspond, so the loops have the same numbers in both. -/
namespace LoopStride

/-- `g'` is `g` with each block `b` called `π b`, successors in the same order. -/
structure Flow.Renames (π : Equiv.Perm BlockId) (g g' : Flow) : Prop where
  entry : g'.entry = π g.entry
  next : ∀ b, g'.next (π b) = (g.next b).map π
  size : g'.size = g.size

/-- The same loops with the same numbers, their blocks called otherwise. -/
structure LoopForest.Renames (π : Equiv.Perm BlockId) (F F' : LoopForest) : Prop where
  ofHeader? : ∀ b, F'.ofHeader? (π b) = F.ofHeader? b
  contains : ∀ l b, F'.contains l (π b) = F.contains l b
  isNestedIn : ∀ l m, F'.isNestedIn l m = F.isNestedIn l m
  depthOf : ∀ l, F'.depthOf l = F.depthOf l

def Survey.rename (π : Equiv.Perm BlockId) (s : Survey) : Survey :=
  ⟨s.entered.map π, s.order.map π⟩

namespace Flow.Renames
variable {π : Equiv.Perm BlockId} {g g' : Flow} {P Q : BlockId → Prop} {a b h u v : BlockId}
  {i l : LoopId}

theorem symm (hg : g.Renames π g') : g'.Renames π.symm g where
  entry := by rw [hg.entry, Equiv.symm_apply_apply]
  next b := by
    obtain ⟨c, rfl⟩ := π.surjective b
    rw [Equiv.symm_apply_apply, hg.next, List.map_map, Equiv.symm_comp_self, List.map_id]
  size := hg.size.symm

/-! ### Paths -/

theorem edge (hg : g.Renames π g') (he : g.Edge u v) : g'.Edge (π u) (π v) := by
  rw [Edge, hg.next]
  exact List.mem_map_of_mem he

theorem path {p : List BlockId} (hg : g.Renames π g') (hp : g.Path u v p) :
    g'.Path (π u) (π v) (p.map π) := by
  induction hp with
  | here b => exact .here _
  | step he _ ih => exact .step (hg.edge he) ih

theorem leads (hg : g.Renames π g') (hPQ : ∀ b, P b → Q (π b)) (hl : g.Leads P u v) :
    g'.Leads Q (π u) (π v) := by
  obtain ⟨p, hp, hP⟩ := hl
  refine ⟨p.map π, hg.path hp, fun b hb => ?_⟩
  obtain ⟨c, hc, rfl⟩ := List.mem_map.mp hb
  exact hPQ c (hP c hc)

theorem edge_iff (hg : g.Renames π g') : g'.Edge (π u) (π v) ↔ g.Edge u v :=
  ⟨fun he => by simpa using hg.symm.edge he, hg.edge⟩

theorem leads_iff (hg : g.Renames π g') (hPQ : ∀ b, Q (π b) ↔ P b) :
    g'.Leads Q (π u) (π v) ↔ g.Leads P u v := by
  refine ⟨fun hl => ?_, hg.leads fun b => (hPQ b).mpr⟩
  have hl' := hg.symm.leads (Q := P) (fun b hb => (hPQ _).mp (by simpa using hb)) hl
  simpa using hl'

theorem reaches_iff (hg : g.Renames π g') : g'.Reaches (π b) ↔ g.Reaches b := by
  rw [Flow.reaches_iff, Flow.reaches_iff, hg.entry, hg.leads_iff fun _ => Iff.rfl]

theorem dominates_iff (hg : g.Renames π g') : g'.Dominates (π a) (π b) ↔ g.Dominates a b := by
  rw [Flow.dominates_iff, Flow.dominates_iff, hg.entry]
  exact and_congr hg.reaches_iff (not_congr (hg.leads_iff fun _ => π.injective.ne_iff))

theorem backEdge_iff (hg : g.Renames π g') : g'.BackEdge (π u) (π h) ↔ g.BackEdge u h :=
  and_congr hg.edge_iff hg.dominates_iff

theorem exists_backEdge_iff (hg : g.Renames π g') :
    (∃ u, g'.BackEdge u (π h)) ↔ ∃ u, g.BackEdge u h :=
  π.surjective.exists.trans (exists_congr fun _ => hg.backEdge_iff)

theorem inBody_iff (hg : g.Renames π g') : g'.InBody (π h) (π b) ↔ g.InBody h b := by
  refine or_congr π.injective.eq_iff (and_congr hg.reaches_iff ?_)
  refine π.surjective.exists.trans (exists_congr fun l => and_congr hg.backEdge_iff ?_)
  exact hg.leads_iff fun _ => π.injective.ne_iff

/-! ### The reverse postorder -/

theorem survey_rename (hg : g.Renames π g') (depth : Nat) (b : BlockId) (s : Survey) :
    g'.survey depth (π b) (s.rename π) = (g.survey depth b s).rename π := by
  induction depth generalizing b s with
  | zero => rfl
  | succ depth ih =>
    have hfold : ∀ (bs : List BlockId) (s : Survey),
        (bs.map π).foldl (fun s v => g'.survey depth v s) (s.rename π) =
          (bs.foldl (fun s v => g.survey depth v s) s).rename π := by
      intro bs
      induction bs with
      | nil => exact fun _ => rfl
      | cons c bs ihbs =>
        intro s
        rw [List.map_cons, List.foldl_cons, List.foldl_cons, ih, ihbs]
    have hmem : π b ∈ (s.rename π).entered ↔ b ∈ s.entered :=
      List.mem_map_of_injective π.injective
    rw [survey, survey]
    by_cases hb : b ∈ s.entered
    · rw [if_pos (hmem.mpr hb), if_pos hb]
    · rw [if_neg (mt hmem.mp hb), if_neg hb, hg.next]
      have hs := hfold (g.next b) ⟨b :: s.entered, s.order⟩
      dsimp only
      rw [show (⟨π b :: (s.rename π).entered, (s.rename π).order⟩ : Survey) =
        Survey.rename π ⟨b :: s.entered, s.order⟩ from rfl, hs]
      rfl

theorem reversePostorder_eq (hg : g.Renames π g') :
    g'.reversePostorder = g.reversePostorder.map π := by
  rw [reversePostorder, reversePostorder, hg.entry, hg.size]
  exact congrArg Survey.order (hg.survey_rename (g.size + 2) g.entry ⟨[], []⟩)

/-! ### Loops -/

theorem headers_eq (hg : g.Renames π g') :
    g'.headers g'.dominators = (g.headers g.dominators).map π := by
  have hheader : ∀ (k : Flow) h, ((k.backEdges k.dominators).any fun e => e.2 == h) = true ↔
      ∃ u, k.BackEdge u h := by
    intro k h
    simp only [List.any_eq_true, beq_iff_eq, Prod.exists, mem_backEdges]
    constructor
    · rintro ⟨u, _, hu, rfl⟩
      exact ⟨u, hu⟩
    · rintro ⟨u, hu⟩
      exact ⟨u, h, hu, rfl⟩
  rw [headers, headers, show g'.dominators.order = g'.reversePostorder from rfl,
    show g.dominators.order = g.reversePostorder from rfl, hg.reversePostorder_eq, List.filter_map]
  refine congrArg (List.map π) (List.filter_congr fun h _ => Bool.eq_iff_iff.mpr ?_)
  exact (hheader g' (π h)).trans (hg.exists_backEdge_iff.trans (hheader g h).symm)

theorem mem_loopBody_iff (hg : g.Renames π g') (hh : ∃ u, g.BackEdge u h) :
    π b ∈ g'.loopBody g'.dominators (π h) ↔ b ∈ g.loopBody g.dominators h := by
  obtain ⟨u, hu⟩ := hh
  rw [mem_loopBody hu, mem_loopBody (hg.backEdge_iff.mpr hu), hg.inBody_iff]

theorem loopBody_perm (hg : g.Renames π g') (hh : ∃ u, g.BackEdge u h) :
    (g'.loopBody g'.dominators (π h)).Perm ((g.loopBody g.dominators h).map π) := by
  refine (List.perm_ext_iff_of_nodup (loopBody_nodup _)
    ((loopBody_nodup h).map π.injective)).mpr fun b => ?_
  obtain ⟨c, rfl⟩ := π.surjective b
  rw [List.mem_map_of_injective π.injective, hg.mem_loopBody_iff hh]

theorem getD_bodies (hg : g.Renames π g') (i : LoopId) :
    (g'.bodies.getD i []).Perm ((g.bodies.getD i []).map π) := by
  rw [bodies, bodies, hg.headers_eq]
  cases hi : (g.headers g.dominators)[i]? with
  | none => simp [List.getD, hi]
  | some h =>
    have hh := mem_headers.mp (List.mem_of_getElem? hi)
    simpa [List.getD, hi] using hg.loopBody_perm hh

/-- The parent is chosen by membership in the bodies and by their sizes. -/
theorem parentAmong_eq (hg : g.Renames π g') (i : LoopId) (h : BlockId) :
    parentAmong g'.bodies i (π h) = parentAmong g.bodies i h := by
  have hlen : g'.bodies.length = g.bodies.length := by
    rw [bodies, bodies, hg.headers_eq]
    simp
  have hmem : ∀ j, (g'.bodies.getD j []).contains (π h) = (g.bodies.getD j []).contains h := by
    intro j
    rw [Bool.eq_iff_iff, List.contains_iff_mem, List.contains_iff_mem, (hg.getD_bodies j).mem_iff,
      List.mem_map_of_injective π.injective]
  have hsize : ∀ j, (g'.bodies.getD j []).length = (g.bodies.getD j []).length := fun j => by
    rw [(hg.getD_bodies j).length_eq, List.length_map]
  simp only [parentAmong, hlen, hmem, hsize]

theorem parents_eq (hg : g.Renames π g') : g'.parents = g.parents := by
  rw [parents, parents, hg.headers_eq, List.zipIdx_map, List.map_map]
  exact List.map_congr_left fun e _ => hg.parentAmong_eq e.2 e.1

theorem get?_loops_eq (hg : g.Renames π g') (i : LoopId) :
    g'.loops.get? i = (g.headers g.dominators)[i]?.map fun h =>
      { header := π h
        latches := g'.latches g'.dominators (π h)
        body := g'.loopBody g'.dominators (π h)
        parent := parentAmong g.bodies i h
        depth := (depthsOf g.parents).getD i 1 } := by
  rw [get?_loops, hg.headers_eq, List.getElem?_map, Option.map_map, hg.parents_eq]
  simp only [Function.comp_def, hg.parentAmong_eq]

theorem ofHeader?_eq (hg : g.Renames π g') (b : BlockId) :
    g'.loops.ofHeader? (π b) = g.loops.ofHeader? b := by
  refine Option.ext fun i => ?_
  rw [ofHeader?_eq_some_iff, ofHeader?_eq_some_iff, hg.get?_loops_eq, get?_loops]
  cases (g.headers g.dominators)[i]? <;> simp

theorem contains_eq (hg : g.Renames π g') (l : LoopId) (b : BlockId) :
    g'.loops.contains l (π b) = g.loops.contains l b := by
  rw [LoopForest.contains, LoopForest.contains, hg.get?_loops_eq, get?_loops]
  cases hl : (g.headers g.dominators)[l]? with
  | none => simp
  | some h =>
    have hh := mem_headers.mp (List.mem_of_getElem? hl)
    simp [hg.mem_loopBody_iff hh]

theorem enclosing_eq (hg : g.Renames π g') (n : Nat) (l : LoopId) :
    g'.loops.enclosing n l = g.loops.enclosing n l := by
  have hparent : ∀ i, (g'.loops.get? i).bind Loop.parent = (g.loops.get? i).bind Loop.parent := by
    intro i
    rw [hg.get?_loops_eq, get?_loops]
    cases (g.headers g.dominators)[i]? <;> simp
  induction n generalizing l with
  | zero => rw [LoopForest.enclosing, LoopForest.enclosing]
  | succ n ih =>
    rw [LoopForest.enclosing, LoopForest.enclosing, hparent]
    split
    · rw [ih]
    · rfl

theorem size_eq (hg : g.Renames π g') : g'.loops.size = g.loops.size := by
  have hlen := congrArg List.length hg.headers_eq
  rwa [← loops_headers, ← loops_headers, List.length_map, List.length_map, List.length_map] at hlen

theorem depthOf_eq (hg : g.Renames π g') (l : LoopId) :
    g'.loops.depthOf l = g.loops.depthOf l := by
  rw [LoopForest.depthOf, LoopForest.depthOf, hg.get?_loops_eq, get?_loops]
  cases (g.headers g.dominators)[l]? <;> simp

theorem loops (hg : g.Renames π g') : g.loops.Renames π g'.loops where
  ofHeader? := hg.ofHeader?_eq
  contains := hg.contains_eq
  isNestedIn l m := by
    rw [LoopForest.isNestedIn, LoopForest.isNestedIn, hg.size_eq, hg.enclosing_eq]
  depthOf := hg.depthOf_eq

end Flow.Renames
end LoopStride
