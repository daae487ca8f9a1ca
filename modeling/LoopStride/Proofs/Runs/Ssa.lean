import LoopStride.Func.Check
import LoopStride.Evolution
import LoopStride.Proofs.Func.Growth
import LoopStride.Proofs.Runs.Machine

/-! Functions in strict single-assignment form: every instruction is listed once, and every use is
dominated by what it uses. -/
namespace LoopStride

/-- What is at place `p` is done whenever control is at point `q`: it comes earlier in the same
block, or in a block that strictly dominates that of `q`. -/
def Flow.Ahead (g : Flow) (p q : BlockId × Nat) : Prop :=
  p.1 = q.1 ∧ p.2 < q.2 ∨ g.StrictlyDominates p.1 q.1

instance {g : Flow} {p q : BlockId × Nat} : Decidable (g.Ahead p q) :=
  inferInstanceAs (Decidable (_ ∧ _ ∨ _ ∧ _))

namespace Func
variable (f : Func)

/-- Block `p.1` lists the instruction as its number `p.2`. -/
def PlacedAt (id : InstId) (p : BlockId × Nat) : Prop := (f.listing p.1)[p.2]? = some id

instance {id : InstId} {p : BlockId × Nat} : Decidable (f.PlacedAt id p) :=
  inferInstanceAs (Decidable (_ = _))

/-- What a value depends on is done at point `p`. -/
def Available (p : BlockId × Nat) : Value → Prop
  | .result id => ∃ q, f.PlacedAt id q ∧ f.flow.Ahead q p
  | _ => True

structure StrictSsa : Prop where
  valid : f.validate = .ok ()
  listed_once : f.listedIds.Perm (List.range f.arena.size)
  entry_not_target : f.flow.predecessors f.entry = []
  /-- A merge has one value for each predecessor of its block. -/
  merge_sources : ∀ id p, f.PlacedAt id p → f.isPhi id = true →
    ((f.incoming id).map (·.1)).Perm (f.flow.predecessors p.1)
  operands_available : ∀ id p, f.PlacedAt id p → f.flow.Reaches p.1 → ∀ i ∈ f.inst? id,
    i.isPhi = false → ∀ v ∈ i.operands, f.Available p v
  /-- A merge reads its values at the end of the blocks that they come from. -/
  incoming_available : ∀ id p, f.PlacedAt id p → ∀ e ∈ f.incoming id, f.flow.Reaches e.1 →
    f.Available (e.1, (f.listing e.1).length) e.2

/-- Every instruction is listed in the block it was put into. -/
def Homed : Prop := ∀ id p, f.PlacedAt id p → f.blockOf? id = some p.1

/-- Everything is done where it is read: an operand ahead of the instruction, and what a merge takes
over an edge at the end of the block that the edge comes from. -/
structure UsesDominated : Prop where
  operands : ∀ id p, f.PlacedAt id p → f.flow.Reaches p.1 → ∀ i ∈ f.inst? id,
    i.isPhi = false → ∀ v ∈ i.operands, f.Available p v
  incoming : ∀ id p, f.PlacedAt id p → ∀ e ∈ f.incoming id, f.flow.Reaches e.1 →
    f.Available (e.1, (f.listing e.1).length) e.2

/-- What a merge needs beyond what the check of the structure looks at. -/
structure MergesFit : Prop where
  homed : ∀ id p, f.PlacedAt id p → f.isPhi id = true → f.blockOf? id = some p.1
  /-- There is a value for every edge by which control comes to a merge. To the entry, where it starts,
  it comes without one. -/
  covered : ∀ id p, f.PlacedAt id p → f.isPhi id = true → ∀ u, f.flow.Reaches u →
    f.flow.Edge u p.1 → p.1 ≠ f.entry ∧ u ∈ (f.incoming id).map (·.1)

/-- All integers are 64 bits wide but for the results of comparisons, which no instruction reads. -/
structure Wide : Prop where
  params : ∀ t ∈ f.params.toList, ∀ bits ∈ t.width?, bits = 64
  results : ∀ p ∈ f.arena.toList, p.instruction.opcode ≠ .compare →
    ∀ bits ∈ p.instruction.ty.width?, bits = 64
  literals : ∀ p ∈ f.arena.toList, ∀ v ∈ p.instruction.operands, v.isLiteral = true →
    ∀ bits ∈ f.width? v, bits = 64
  comparisons_unread : ∀ p ∈ f.arena.toList, ∀ id ∈ p.instruction.sources, ∀ i ∈ f.inst? id,
    i.opcode ≠ .compare

end Func

/-! ### Places -/

section
variable {g : Flow} {f : Func} {p q r : BlockId × Nat} {id : InstId} {b : BlockId} {k n : Nat}
  {v : Value}

theorem Flow.Ahead.trans (hpq : g.Ahead p q) (hqr : g.Ahead q r) : g.Ahead p r := by
  obtain ⟨b, k⟩ := p
  obtain ⟨c, m⟩ := q
  obtain ⟨d, n⟩ := r
  rcases hpq with ⟨rfl, hlt⟩ | hs
  · rcases hqr with ⟨rfl, hlt'⟩ | hs'
    · exact .inl ⟨rfl, Nat.lt_trans hlt hlt'⟩
    · exact .inr hs'
  · rcases hqr with ⟨rfl, -⟩ | hs'
    · exact .inr hs
    · exact .inr ⟨hs.1.trans hs'.1, fun he => hs'.not_dominates (he ▸ hs.1)⟩

theorem Flow.Ahead.irrefl : ¬ g.Ahead p p := by
  rintro (⟨-, hlt⟩ | hs)
  · exact Nat.lt_irrefl _ hlt
  · exact hs.2 rfl

theorem Flow.Ahead.mono (h : g.Ahead p (b, k)) (hle : k ≤ n) : g.Ahead p (b, n) :=
  h.imp_left fun h => ⟨h.1, Nat.lt_of_lt_of_le h.2 hle⟩

theorem Flow.Ahead.of_succ (h : g.Ahead p (b, n + 1)) (hne : p ≠ (b, n)) : g.Ahead p (b, n) := by
  refine h.imp_left fun h => ⟨h.1, ?_⟩
  exact lt_of_le_of_ne (Nat.le_of_lt_succ h.2) fun he => hne (Prod.ext h.1 he)

theorem Flow.Ahead.dominates (h : g.Ahead p q) (hq : g.Reaches q.1) : g.Dominates p.1 q.1 := by
  rcases h with ⟨he, -⟩ | hs
  · exact he ▸ hq.dominates_self
  · exact hs.1

theorem Func.exists_block_of_placedAt (h : f.PlacedAt id (b, k)) :
    ∃ block, f.blocks[b]? = some block ∧ block.listing[k]? = some id := by
  rw [PlacedAt, listing, block?] at h
  cases hb : f.blocks[b]? with
  | none => simp [hb] at h
  | some block => exact ⟨block, rfl, by simpa [hb] using h⟩

theorem Func.listedIds_eq_range : f.listedIds = (List.range f.blocks.size).flatMap f.listing := by
  rw [listedIds_eq_flatMap, List.flatMap_def, List.flatMap_def]
  refine congrArg List.flatten (List.ext_getElem (by simp) fun b hb _ => ?_)
  have hb' : b < f.blocks.size := by simpa using hb
  simp [listing, block?, hb']

theorem Func.homed_iff : f.Homed ↔ ∀ b, ∀ id ∈ f.listing b, f.blockOf? id = some b := by
  constructor
  · intro h b id hid
    obtain ⟨k, hk⟩ := List.mem_iff_getElem?.mp hid
    exact h id (b, k) hk
  · exact fun h id p hp => h p.1 id (List.mem_of_getElem? hp)

theorem Func.listedIds_nodup (hs : f.StrictSsa) : f.listedIds.Nodup :=
  hs.listed_once.nodup_iff.mpr List.nodup_range

theorem Func.PlacedAt.unique (hs : f.StrictSsa) (hp : f.PlacedAt id p) (hq : f.PlacedAt id q) :
    p = q := by
  obtain ⟨b, k⟩ := p
  obtain ⟨c, m⟩ := q
  obtain ⟨block, hb, hk⟩ := exists_block_of_placedAt hp
  obtain ⟨block', hc, hm⟩ := exists_block_of_placedAt hq
  obtain ⟨hone, hdisj⟩ := List.nodup_flatMap.mp (listedIds_eq_flatMap ▸ listedIds_nodup hs)
  rw [← Array.getElem?_toList] at hb hc
  obtain ⟨hblt, hbe⟩ := List.getElem?_eq_some_iff.mp hb
  obtain ⟨hclt, hce⟩ := List.getElem?_eq_some_iff.mp hc
  rw [List.pairwise_iff_getElem] at hdisj
  have apart : ∀ {b c : Nat} (hblt : b < f.blocks.toList.length) (hclt : c < f.blocks.toList.length),
      id ∈ f.blocks.toList[b].listing → id ∈ f.blocks.toList[c].listing → ¬ b < c :=
    fun hblt hclt hb hc hlt => hdisj _ _ hblt hclt hlt hb hc
  have hib : id ∈ f.blocks.toList[b].listing := hbe ▸ List.mem_of_getElem? hk
  have hic : id ∈ f.blocks.toList[c].listing := hce ▸ List.mem_of_getElem? hm
  obtain rfl : b = c :=
    Nat.le_antisymm (not_lt.mp (apart hclt hblt hic hib)) (not_lt.mp (apart hblt hclt hib hic))
  obtain rfl : block = block' := Option.some.inj (hb.symm.trans hc)
  have hn := hone block (List.mem_of_getElem? hb)
  obtain ⟨hklt, hke⟩ := List.getElem?_eq_some_iff.mp hk
  obtain ⟨hmlt, hme⟩ := List.getElem?_eq_some_iff.mp hm
  rw [(hn.getElem_inj_iff).mp (hke.trans hme.symm)]

theorem Func.PlacedAt.lt_length (h : f.PlacedAt id (b, k)) : k < (f.listing b).length :=
  (List.getElem?_eq_some_iff.mp h).1

theorem Func.edge_iff_mem_incoming (hs : f.StrictSsa) (hp : f.PlacedAt id p)
    (hphi : f.isPhi id = true) {u : BlockId} :
    f.flow.Edge u p.1 ↔ u ∈ (f.incoming id).map (·.1) := by
  rw [(hs.merge_sources id p hp hphi).mem_iff, Flow.mem_predecessors]

theorem Func.StrictSsa.usesDominated (hs : f.StrictSsa) : f.UsesDominated :=
  ⟨hs.operands_available, hs.incoming_available⟩

theorem Func.StrictSsa.mergesFit (hs : f.StrictSsa) (hh : f.Homed) : f.MergesFit where
  homed id p hp _ := hh id p hp
  covered id p hp hphi u _ he := by
    refine ⟨fun hentry => ?_, (edge_iff_mem_incoming hs hp hphi).mp he⟩
    rw [hentry, ← Flow.mem_predecessors, hs.entry_not_target] at he
    cases he

theorem Func.mem_merges_iff (hs : f.StrictSsa) (hp : f.PlacedAt id p) :
    id ∈ f.merges b ↔ p.1 = b ∧ p.2 < (f.merges b).length := by
  have hpre : f.merges b <+: f.listing b := List.takeWhile_prefix _
  constructor
  · intro h
    obtain ⟨k, hk⟩ := List.mem_iff_getElem?.mp h
    obtain ⟨hlt, he⟩ := List.getElem?_eq_some_iff.mp hk
    have hq : f.PlacedAt id (b, k) :=
      List.getElem?_eq_some_iff.mpr ⟨hlt.trans_le hpre.length_le, (hpre.getElem hlt).symm.trans he⟩
    rw [hp.unique hs hq]
    exact ⟨rfl, hlt⟩
  · rintro ⟨rfl, hlt⟩
    obtain ⟨_, he⟩ := List.getElem?_eq_some_iff.mp hp
    rw [← he, ← hpre.getElem hlt]
    exact List.getElem_mem hlt

end

/-! ### Deciding these -/

section
variable {f : Func} {P : InstId → BlockId × Nat → Prop}

theorem Func.forall_placedAt_iff : (∀ id p, f.PlacedAt id p → P id p) ↔
    ∀ b < f.blocks.size, ∀ k < (f.listing b).length, ∀ id ∈ (f.listing b)[k]?, P id (b, k) := by
  constructor
  · exact fun h b _ k _ id hid => h id (b, k) hid
  · rintro h id ⟨b, k⟩ hp
    obtain ⟨block, hb, -⟩ := Func.exists_block_of_placedAt hp
    exact h b (Array.getElem?_eq_some_iff.mp hb).1 k hp.lt_length id hp

instance [∀ id p, Decidable (P id p)] : Decidable (∀ id p, f.PlacedAt id p → P id p) :=
  decidable_of_iff' _ Func.forall_placedAt_iff

instance {p : BlockId × Nat} {v : Value} : Decidable (f.Available p v) :=
  match v with
  | .result id => decidable_of_iff
      (∃ b, b < f.blocks.size ∧ ∃ k, k < (f.listing b).length ∧
        f.PlacedAt id (b, k) ∧ f.flow.Ahead (b, k) p) <| by
      constructor
      · rintro ⟨b, -, k, -, h⟩
        exact ⟨(b, k), h⟩
      · rintro ⟨⟨b, k⟩, hp, ha⟩
        obtain ⟨block, hb, -⟩ := Func.exists_block_of_placedAt hp
        exact ⟨b, (Array.getElem?_eq_some_iff.mp hb).1, k, hp.lt_length, hp, ha⟩
  | .literal _ | .param _ => isTrue trivial

instance : Decidable f.Homed := inferInstanceAs (Decidable (∀ _ _, _ → _))

end
end LoopStride
