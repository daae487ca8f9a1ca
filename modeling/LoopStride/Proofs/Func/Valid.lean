import LoopStride.Proofs.Flow.Predecessors
import LoopStride.Proofs.Func.Built

/-! What the check of a function's structure accepts. It goes once through the blocks and their
listings and stops at the first defect; that it finds none comes to six conditions on all blocks, each
stated for itself. -/
namespace LoopStride.Func
variable (f : Func)

def Has : Value → Prop
  | .result id => id < f.arena.size
  | .param p => p < f.params.size
  | .literal _ => True

/-- A function that hangs together, however it came about. -/
structure WellFormed : Prop where
  entry_exists : f.entry < f.blocks.size
  targets_exist : ∀ b t, f.flow.Edge b t → t < f.blocks.size
  listed_exist : ∀ b, ∀ id ∈ f.listing b, id < f.arena.size
  merges_first : ∀ b, (f.listing b).Pairwise fun id later =>
    f.isPhi later = true → f.isPhi id = true
  /-- A merge takes values from predecessors of the block that lists it. -/
  incoming_precedes : ∀ b, ∀ id ∈ f.listing b, ∀ e ∈ f.incoming id, f.flow.Edge e.1 b
  operands_exist : ∀ b, ∀ id ∈ f.listing b, ∀ v ∈ f.slots id, f.Has v

/-- A listed instruction is there with all it reads, and reads by edge from `sources` alone. -/
structure Sits (sources : List BlockId) (id : InstId) : Prop where
  exists_inst : id < f.arena.size
  incoming : ∀ e ∈ f.incoming id, e.1 ∈ sources
  operands : ∀ v ∈ f.slots id, f.Has v

variable {f : Func} {sources : List BlockId} {b : BlockId} {late : Bool} {position : Nat}
  {id : InstId} {ids : List InstId} {v : Value} {i : Instruction} {block : Block}

theorem operandDefect?_eq_none_iff : f.operandDefect? id v = none ↔ f.Has v := by
  cases v <;> simp [operandDefect?, Has]

/-- What a merge is checked for: its place, then where its values come from. -/
theorem phiDefect?_eq_none_iff {incoming : List (BlockId × Value)} :
    phiDefect? sources b late position id incoming = none ↔
      late = false ∧ ∀ e ∈ incoming, e.1 ∈ sources := by
  cases late <;> simp [phiDefect?]

theorem inst?_eq_none_iff : f.inst? id = none ↔ ¬ id < f.arena.size := by
  simp [inst?]

theorem operation_ne_phi {incoming : List (BlockId × Value)} (h : i.isPhi = false) :
    i.operation ≠ .phi incoming := by
  intro ho
  rw [Instruction.isPhi_iff.mpr ⟨incoming, ho⟩] at h
  cases h

theorem incoming_eq_nil (hi : f.inst? id = some i) (h : i.isPhi = false) :
    f.incoming id = [] := by
  rw [Func.incoming, hi, Option.map_some]
  split
  · next ho => exact absurd (Option.some.inj ho) (operation_ne_phi h)
  · rfl

theorem findSome?_operandDefect?_eq_none_iff (hi : f.inst? id = some i) :
    i.operands.findSome? (f.operandDefect? id) = none ↔ ∀ v ∈ f.slots id, f.Has v := by
  rw [List.findSome?_eq_none_iff, slots, hi]
  simp only [operandDefect?_eq_none_iff, Option.map_some, Option.getD_some]

/-- Down a listing `late` remembers that some instruction was no merge. -/
theorem listingDefect?_eq_none_iff : f.listingDefect? sources b late position ids = none ↔
    (∀ id ∈ ids, f.Sits sources id) ∧ (late = true → ∀ id ∈ ids, f.isPhi id = false) ∧
      ids.Pairwise fun id later => f.isPhi later = true → f.isPhi id = true := by
  -- `late` changes on the way: an instruction that is no merge sets it for the rest
  induction ids generalizing late position with
  | nil => simp [listingDefect?]
  | cons id ids ih =>
    rw [listingDefect?, List.forall_mem_cons, List.pairwise_cons]
    cases hi : f.inst? id with
    | none =>
      have hnot : ¬ f.Sits sources id := fun h => inst?_eq_none_iff.mp hi h.exists_inst
      simp [hnot]
    | some i =>
      have hsits : f.Sits sources id ↔
          (∀ e ∈ f.incoming id, e.1 ∈ sources) ∧ ∀ v ∈ f.slots id, f.Has v :=
        ⟨fun h => ⟨h.incoming, h.operands⟩, fun h => ⟨lt_size_of_inst? hi, h.1, h.2⟩⟩
      dsimp only
      rw [Option.orElse_eq_none, Option.orElse_eq_none, ih,
        findSome?_operandDefect?_eq_none_iff hi, hsits]
      have hmerge : f.isPhi id = i.isPhi := isPhi_of_inst? hi
      cases hphi : i.isPhi with
      | true =>
        obtain ⟨incoming, ho⟩ := Instruction.isPhi_iff.mp hphi
        simp only [ho, phiDefect?_eq_none_iff, incoming_of_phi hi ho]
        cases late with
        | true => simp [hmerge, hphi]
        | false =>
          simp only [hmerge, hphi, List.mem_cons, forall_eq_or_imp, Bool.not_true, Bool.or_self,
            Bool.false_eq_true, false_imp_iff, true_and, implies_true]
          tauto
      | false =>
        split
        · next incoming ho => exact absurd ho (operation_ne_phi hphi)
        · simp only [incoming_eq_nil hi hphi, hmerge, hphi, List.mem_cons, forall_eq_or_imp,
            List.not_mem_nil, Bool.not_false, Bool.or_true, true_imp_iff, Bool.false_eq_true,
            imp_false, Bool.not_eq_true]
          tauto

theorem blockDefect?_eq_none_iff : f.blockDefect? f.flow.predecessorMap b block = none ↔
    (∀ t ∈ block.successors, t < f.blocks.size) ∧
      (∀ id ∈ block.listing, f.Sits ((f.flow.predecessorMap.lookup b).getD []) id) ∧
      block.listing.Pairwise fun id later => f.isPhi later = true → f.isPhi id = true := by
  rw [blockDefect?, Option.orElse_eq_none, listingDefect?_eq_none_iff]
  simp

theorem defect?_eq_none_iff : f.defect? = none ↔ f.entry < f.blocks.size ∧
    ∀ b block, f.blocks[b]? = some block →
      f.blockDefect? f.flow.predecessorMap b block = none := by
  rw [defect?]
  by_cases hentry : f.entry < f.blocks.size
  · simp only [hentry, if_true, true_and, List.findSome?_eq_none_iff, Prod.forall,
      List.mem_zipIdx_iff_getElem?, Array.getElem?_toList]
    exact forall_comm
  · simp [hentry]

theorem listing_of_block (hb : f.blocks[b]? = some block) : f.listing b = block.listing := by
  rw [listing, block?, hb, Option.map_some, Option.getD_some]

theorem listing_eq_nil (hb : f.blocks[b]? = none) : f.listing b = [] := by
  rw [listing, block?, hb, Option.map_none, Option.getD_none]

/-- What a block lists sits well if it does so by the edges into the block. -/
theorem sits_predecessorMap_iff : f.Sits ((f.flow.predecessorMap.lookup b).getD []) id ↔
    id < f.arena.size ∧ (∀ e ∈ f.incoming id, f.flow.Edge e.1 b) ∧ ∀ v ∈ f.slots id, f.Has v := by
  simp only [← Flow.mem_lookup_predecessorMap]
  exact ⟨fun h => ⟨h.exists_inst, h.incoming, h.operands⟩, fun h => ⟨h.1, h.2.1, h.2.2⟩⟩

theorem validate_eq_ok : f.validate = .ok () ↔ f.defect? = none := by
  rw [validate]
  cases f.defect? <;> simp

/-- No defect is found where the conditions hold, each for all blocks. -/
theorem defect?_eq_none : f.defect? = none ↔ f.WellFormed := by
  rw [defect?_eq_none_iff]
  simp only [blockDefect?_eq_none_iff, sits_predecessorMap_iff]
  constructor
  · rintro ⟨hentry, hblocks⟩
    have hlisted : ∀ b, ∀ id ∈ f.listing b, id < f.arena.size ∧
        (∀ e ∈ f.incoming id, f.flow.Edge e.1 b) ∧ ∀ v ∈ f.slots id, f.Has v := by
      intro b id hid
      cases hb : f.blocks[b]? with
      | none =>
        rw [listing_eq_nil hb] at hid
        cases hid
      | some block => exact (hblocks b block hb).2.1 id (listing_of_block hb ▸ hid)
    refine ⟨hentry, fun b t he => ?_, fun b id hid => (hlisted b id hid).1, fun b => ?_,
      fun b id hid => (hlisted b id hid).2.1, fun b id hid => (hlisted b id hid).2.2⟩
    · obtain ⟨block, hb, ht⟩ := edge_iff.mp he
      exact (hblocks b block hb).1 t ht
    · cases hb : f.blocks[b]? with
      | none => exact listing_eq_nil hb ▸ .nil
      | some block => exact listing_of_block hb ▸ (hblocks b block hb).2.2
  · intro h
    refine ⟨h.entry_exists, fun b block hb => ?_⟩
    rw [← listing_of_block hb]
    exact ⟨fun t ht => h.targets_exist b t (edge_iff.mpr ⟨block, hb, ht⟩),
      fun id hid => ⟨h.listed_exist b id hid, h.incoming_precedes b id hid,
        h.operands_exist b id hid⟩, h.merges_first b⟩

/-- The check accepts the functions that hang together and no others. -/
theorem validate_exact (f : Func) : f.validate = .ok () ↔ f.WellFormed :=
  validate_eq_ok.trans defect?_eq_none

end LoopStride.Func
