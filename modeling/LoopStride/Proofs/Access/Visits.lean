import Mathlib.Data.Set.Card
import LoopStride.Proofs.Access.Walk

/-! How often a walk comes to an instruction: once for each way through the operand slots that passes
no instruction twice. A way is told by the slots it takes, so two slots of an instruction that hold
the same result are two ways. -/
namespace LoopStride.Func

/-- The slots, taken one after another from `a`, lead through the instructions `nodes`, `a` the first
of them, and all of these exist. -/
inductive Route (f : Func) : InstId → List Nat → List InstId → Prop where
  | here {a : InstId} {i : Instruction} (hi : f.inst? a = some i) : Route f a [] [a]
  | step {a b : InstId} {i : Instruction} {k : Nat} {slots : List Nat} {nodes : List InstId}
    (hi : f.inst? a = some i) (hk : i.operands[k]? = some (.result b)) (h : Route f b slots nodes) :
    Route f a (k :: slots) (a :: nodes)

/-- The slots lead on from `a` and pass no instruction twice. -/
def IsSimple (f : Func) (a : InstId) (slots : List Nat) : Prop :=
  ∃ nodes, f.Route a slots nodes ∧ nodes.Nodup

/-- The same around the instructions of `path`. -/
def IsSimpleAround (f : Func) (path : List InstId) (a : InstId) (slots : List Nat) : Prop :=
  ∃ nodes, f.Route a slots nodes ∧ nodes.Nodup ∧ ∀ x ∈ nodes, x ∉ path

/-- The ways on from a list of operands, each with the number of its slot in front. -/
def slotRoutes (next : InstId → List (List Nat)) : Nat → List Value → List (List Nat)
  | _, [] => []
  | k, .result b :: vs => (next b).map (k :: ·) ++ slotRoutes next (k + 1) vs
  | k, _ :: vs => slotRoutes next (k + 1) vs

/-- The ways that a walk goes below the instructions of `path`, in its order. -/
def routes (f : Func) : Nat → List InstId → InstId → List (List Nat)
  | 0, _, _ => []
  | depth + 1, path, id =>
    match f.inst? id with
    | none => []
    | some i =>
      if id ∈ path then [] else [] :: slotRoutes (routes f depth (id :: path)) 0 i.operands

variable {f : Func} {a b id root : InstId} {i : Instruction} {path nodes : List InstId}
  {slots : List Nat} {depth : Nat} {w : Walk} {s : InstSet} {next : InstId → List (List Nat)}

theorem Route.start (h : f.Route a slots nodes) : a ∈ nodes ∧ (f.inst? a).isSome := by
  cases h with
  | here hi => exact ⟨List.mem_cons_self, by simp [hi]⟩
  | step hi _ _ => exact ⟨List.mem_cons_self, by simp [hi]⟩

theorem isSimpleAround_nil : f.IsSimpleAround [] a slots ↔ f.IsSimple a slots := by
  simp [IsSimpleAround, IsSimple]

theorem IsSimpleAround.not_mem (h : f.IsSimpleAround path a slots) : a ∉ path := by
  obtain ⟨nodes, hroute, -, hpath⟩ := h
  exact hpath a hroute.start.1

theorem IsSimpleAround.exists_inst (h : f.IsSimpleAround path a slots) :
    ∃ i, f.inst? a = some i := by
  obtain ⟨nodes, hroute, -⟩ := h
  exact Option.isSome_iff_exists.mp hroute.start.2

/-- A simple way from an instruction ends there or takes a slot and is simple around the instruction
from then on. -/
theorem isSimpleAround_iff (hi : f.inst? id = some i) (hid : id ∉ path) :
    f.IsSimpleAround path id slots ↔ slots = [] ∨ ∃ k b rest, slots = k :: rest ∧
      i.operands[k]? = some (.result b) ∧ f.IsSimpleAround (id :: path) b rest := by
  constructor
  · rintro ⟨nodes, hroute, hnodup, hpath⟩
    cases hroute with
    | here => exact .inl rfl
    | @step _ b i' k rest nodes hi' hk hrest =>
      obtain rfl : i = i' := Option.some.inj (hi.symm.trans hi')
      obtain ⟨hnot, hnodup⟩ := List.nodup_cons.mp hnodup
      refine .inr ⟨k, b, rest, rfl, hk, nodes, hrest, hnodup, fun x hx hmem => ?_⟩
      rcases List.mem_cons.mp hmem with rfl | hmem
      · exact hnot hx
      · exact hpath x (List.mem_cons_of_mem id hx) hmem
  · rintro (rfl | ⟨k, b, rest, rfl, hk, nodes, hrest, hnodup, hpath⟩)
    · exact ⟨[id], .here hi, List.nodup_singleton id, by simpa using hid⟩
    · refine ⟨id :: nodes, .step hi hk hrest, List.nodup_cons.mpr ⟨fun h => ?_, hnodup⟩, ?_⟩
      · exact hpath id h List.mem_cons_self
      · exact List.forall_mem_cons.mpr ⟨hid, fun x hx h => hpath x hx (List.mem_cons_of_mem id h)⟩

/-! ### The ways of a walk -/

theorem mem_slotRoutes {n : Nat} {vs : List Value} : slots ∈ slotRoutes next n vs ↔
    ∃ k b rest, slots = (n + k) :: rest ∧ vs[k]? = some (.result b) ∧ rest ∈ next b := by
  induction vs generalizing n with
  | nil => simp [slotRoutes]
  | cons v vs ih =>
    -- the slots behind the first are one further on than in the rest
    have hrest : slots ∈ slotRoutes next (n + 1) vs ↔ ∃ k b rest, slots = (n + (k + 1)) :: rest ∧
        (v :: vs)[k + 1]? = some (.result b) ∧ rest ∈ next b := by
      rw [ih]
      simp only [List.getElem?_cons_succ, Nat.add_assoc, Nat.add_comm 1]
    rw [← Nat.or_exists_add_one, ← hrest]
    cases v <;> simp [slotRoutes, eq_comm, and_comm]

theorem nodup_slotRoutes (hnext : ∀ b, (next b).Nodup) (n : Nat) (vs : List Value) :
    (slotRoutes next n vs).Nodup := by
  induction vs generalizing n with
  | nil => exact List.nodup_nil
  | cons v vs ih =>
    cases v with
    | literal => exact ih (n + 1)
    | param => exact ih (n + 1)
    | result b =>
      have hfirst : ((next b).map (n :: ·)).Nodup :=
        (hnext b).map fun _ _ h => (List.cons.inj h).2
      refine List.nodup_append'.mpr ⟨hfirst, ih (n + 1), fun slots hhere hlater => ?_⟩
      -- the first slot taken tells the two apart
      obtain ⟨rest, -, rfl⟩ := List.mem_map.mp hhere
      obtain ⟨k, _, _, heq, -⟩ := mem_slotRoutes.mp hlater
      have := (List.cons.inj heq).1
      omega

/-- A walk goes exactly the simple ways around its path. The induction is on the bound of the depth,
which is not met. -/
theorem mem_routes_iff (hp : f.IsTrail path) (hd : f.arena.size < depth + path.length) :
    slots ∈ f.routes depth path id ↔ f.IsSimpleAround path id slots := by
  induction depth generalizing path id slots with
  | zero =>
    have := hp.length_le
    omega
  | succ depth ih =>
    rw [routes]
    cases hi : f.inst? id with
    | none =>
      refine ⟨List.not_mem_nil.elim, fun h => ?_⟩
      obtain ⟨i, hi'⟩ := h.exists_inst
      cases hi.symm.trans hi'
    | some i =>
      dsimp only
      split
      · next hid => exact ⟨List.not_mem_nil.elim, fun h => absurd hid h.not_mem⟩
      · next hid =>
        have hbelow : ∀ {b rest}, rest ∈ f.routes depth (id :: path) b ↔
            f.IsSimpleAround (id :: path) b rest :=
          ih (hp.cons hi hid) (by rw [List.length_cons]; omega)
        rw [List.mem_cons, mem_slotRoutes, isSimpleAround_iff hi hid]
        simp only [hbelow, Nat.zero_add]

theorem nodup_routes : (f.routes depth path id).Nodup := by
  induction depth generalizing path id with
  | zero => exact List.nodup_nil
  | succ depth ih =>
    rw [routes]
    split
    · exact List.nodup_nil
    · split
      · exact List.nodup_nil
      · refine List.nodup_cons.mpr ⟨fun h => ?_, nodup_slotRoutes (fun _ => ih) 0 _⟩
        obtain ⟨k, b, rest, h, -⟩ := mem_slotRoutes.mp h
        cases h

/-! ### Visits -/

theorem visits_foldl {step : Walk → InstId → Walk}
    (hstep : ∀ w b, (step w b).visits = w.visits + (next b).length) (vs : List Value) (n : Nat)
    (w : Walk) : ((vs.filterMap Value.result?).foldl step w).visits =
      w.visits + (slotRoutes next n vs).length := by
  induction vs generalizing n w with
  | nil => rfl
  | cons v vs ih =>
    cases v with
    | literal => exact ih (n + 1) w
    | param => exact ih (n + 1) w
    | result b =>
      have hfold : (((Value.result b :: vs).filterMap Value.result?).foldl step w).visits =
          ((vs.filterMap Value.result?).foldl step (step w b)).visits := rfl
      rw [hfold, ih (n + 1), hstep, slotRoutes, List.length_append, List.length_map, Nat.add_assoc]

/-- A walk makes one visit on each of its ways. -/
theorem visits_walk :
    (f.walk depth path id w).visits = w.visits + (f.routes depth path id).length := by
  induction depth generalizing path id w with
  | zero => rfl
  | succ depth ih =>
    rw [walk, routes]
    cases f.inst? id with
    | none => rfl
    | some i =>
      dsimp only
      split
      · rfl
      · have hstep : ∀ w b, (f.walk depth (id :: path) b w).visits =
            w.visits + (f.routes depth (id :: path) b).length := fun _ _ => ih
        rw [Instruction.sources, visits_foldl hstep i.operands 0, List.length_cons, Nat.add_assoc,
          Nat.add_comm 1]

theorem encard_isSimple (f : Func) (root : InstId) (s : InstSet) :
    {slots | f.IsSimple root slots}.encard = (f.walkFrom root s).visits := by
  have hset : {slots | f.IsSimple root slots} =
      ((f.routes (f.arena.size + 1) [] root).toFinset : Set (List Nat)) := by
    ext slots
    rw [List.coe_toFinset]
    exact ((mem_routes_iff .nil (by simp)).trans isSimpleAround_nil).symm
  rw [hset, Set.encard_coe_eq_coe_finsetCard, List.toFinset_card_of_nodup nodup_routes, walkFrom,
    visits_walk, Nat.zero_add]

/-- The walk from a root ends, whatever cycles the operands form. It adds exactly what the root draws
on, and it makes as many visits as there are ways from the root that pass no instruction twice, none
if the root is missing. -/
theorem walkFrom_exact (f : Func) (root : InstId) (s : InstSet) :
    f.ComesTo (f.enter root ⟨[], ⟨s, 0⟩⟩) [] (f.walkFrom root s) ∧
    (∀ b, b ∈ (f.walkFrom root s).found ↔ b ∈ s ∨ f.DrawsOn root b) ∧
    {slots | f.IsSimple root slots}.encard = (f.walkFrom root s).visits ∧
    (f.inst? root = none → (f.walkFrom root s).visits = 0) := by
  refine ⟨f.comesTo_walkFrom root s, fun b => mem_walkFrom_iff, f.encard_isSimple root s, ?_⟩
  intro hroot
  rw [walkFrom, walk, hroot]

end LoopStride.Func
