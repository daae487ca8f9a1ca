import Mathlib.Logic.Relation
import LoopStride.Func

/-! What growing a function leaves alone: its instructions keep their places in the arena and, but
for the merges, which may gain values, they stay what they are. What is listed stays listed. -/
namespace LoopStride.Func

/-- One growth operation, whatever its outcome. -/
inductive GrowsBy (f : Func) : Func → Prop where
  | addParam (ty : Ty) : GrowsBy f (f.addParam ty).1
  | addBlock (name : Option String) : GrowsBy f (f.addBlock name).1
  | append (b : BlockId) (i : Instruction) : GrowsBy f (f.append b i).1
  | addIncoming (phi : InstId) (b : BlockId) (v : Value) : GrowsBy f (f.addIncoming phi b v).1
  | setTerminator (b : BlockId) (t : Terminator) : GrowsBy f (f.setTerminator b t)

def Grows : Func → Func → Prop := Relation.ReflTransGen GrowsBy

/-- Each instruction of `f` is the same in `g`, or a merge in both. -/
def KeptIn (f g : Func) : Prop :=
  ∀ id i, f.inst? id = some i →
    ∃ j, g.inst? id = some j ∧ (j = i ∨ i.isPhi = true ∧ j.isPhi = true)

variable {f g h : Func} {b : BlockId} {i : Instruction} {id phi : InstId} {v : Value}

theorem KeptIn.refl : f.KeptIn f := fun _ i hi => ⟨i, hi, .inl rfl⟩

theorem KeptIn.trans (hfg : f.KeptIn g) (hgh : g.KeptIn h) : f.KeptIn h := by
  intro id i hi
  obtain ⟨j, hj, hij⟩ := hfg id i hi
  obtain ⟨k, hk, hjk⟩ := hgh id j hj
  refine ⟨k, hk, ?_⟩
  rcases hij with rfl | hij
  · exact hjk
  · rcases hjk with rfl | hjk
    · exact .inr hij
    · exact .inr ⟨hij.1, hjk.2⟩

theorem KeptIn.isSome (hfg : f.KeptIn g) (hi : (f.inst? id).isSome) : (g.inst? id).isSome := by
  obtain ⟨i, hi⟩ := Option.isSome_iff_exists.mp hi
  obtain ⟨j, hj, -⟩ := hfg id i hi
  exact Option.isSome_iff_exists.mpr ⟨j, hj⟩

@[simp] theorem arena_recordUse (f : Func) (v : Value) (user : InstId) :
    (f.recordUse v user).arena = f.arena := by
  cases v <;> rfl

theorem arena_recordUses (f : Func) (vs : List Value) (user : InstId) :
    (vs.foldl (fun f v => f.recordUse v user) f).arena = f.arena := by
  induction vs generalizing f with
  | nil => rfl
  | cons v vs ih => simp [ih]

theorem arena_append : (f.append b i).1.arena = f.arena.push ⟨i, b⟩ := by
  rw [append]
  split
  · rfl
  · exact arena_recordUses _ _ _

theorem keptIn_append : f.KeptIn (f.append b i).1 := by
  intro id j hj
  refine ⟨j, ?_, .inl rfl⟩
  rw [inst?, arena_append, Array.getElem?_push_lt (lt_size_of_inst? hj),
    ← Array.getElem?_eq_getElem]
  exact hj

theorem keptIn_addIncoming : f.KeptIn (f.addIncoming phi b v).1 := by
  intro id j hj
  rw [addIncoming]
  split
  · exact KeptIn.refl id j hj
  · next p hp =>
    split
    · next incoming ho =>
      rw [inst?, arena_recordUse, Array.getElem?_setIfInBounds]
      by_cases he : phi = id
      · subst he
        obtain rfl : p.instruction = j := by simpa [inst?, hp] using hj
        refine ⟨_, by rw [if_pos rfl, if_pos (lt_size_of_inst? hj)]; rfl, .inr ?_⟩
        simp [Instruction.isPhi, Instruction.opcode, Operation.opcode, ho]
      · rw [if_neg he]
        exact ⟨j, hj, .inl rfl⟩
    · exact KeptIn.refl id j hj

theorem GrowsBy.keptIn (hfg : f.GrowsBy g) : f.KeptIn g := by
  cases hfg with
  | append b i => exact keptIn_append
  | addIncoming phi b v => exact keptIn_addIncoming
  | _ => exact KeptIn.refl

theorem Grows.keptIn (hfg : f.Grows g) : f.KeptIn g := by
  induction hfg with
  | refl => exact .refl
  | tail _ hstep ih => exact ih.trans hstep.keptIn

/-! ### Listings -/

theorem listedIds_eq_flatMap : f.listedIds = f.blocks.toList.flatMap Block.listing := by
  have key : ∀ (blocks : List Block) n, ((blocks.zipIdx n).flatMap fun e =>
      e.1.listing.map (e.2, ·)).map Prod.snd = blocks.flatMap Block.listing := by
    intro blocks
    induction blocks with
    | nil => simp
    | cons block blocks ih => simp [ih, Function.comp_def]
  exact key _ 0

theorem mem_listedIds_iff : id ∈ f.listedIds ↔
    ∃ (b : BlockId) (block : Block), f.blocks[b]? = some block ∧ id ∈ block.listing := by
  rw [listedIds_eq_flatMap, List.mem_flatMap]
  constructor
  · rintro ⟨block, hblock, hid⟩
    obtain ⟨b, hb⟩ := List.mem_iff_getElem?.mp hblock
    exact ⟨b, block, by rwa [← Array.getElem?_toList], hid⟩
  · rintro ⟨b, block, hb, hid⟩
    rw [← Array.getElem?_toList] at hb
    exact ⟨block, List.mem_of_getElem? hb, hid⟩

@[simp] theorem blocks_recordUse (f : Func) (v : Value) (user : InstId) :
    (f.recordUse v user).blocks = f.blocks := by
  cases v <;> rfl

theorem blocks_recordUses (f : Func) (vs : List Value) (user : InstId) :
    (vs.foldl (fun f v => f.recordUse v user) f).blocks = f.blocks := by
  induction vs generalizing f with
  | nil => rfl
  | cons v vs ih => simp [ih]

theorem blocks_addIncoming : (f.addIncoming phi b v).1.blocks = f.blocks := by
  rw [addIncoming]
  split
  · rfl
  · split
    · exact blocks_recordUse _ _ _
    · rfl

/-- A growth operation may list more in a block but drops nothing. -/
theorem GrowsBy.listing_subset {block : Block} (hfg : f.GrowsBy g)
    (hb : f.blocks[b]? = some block) :
    ∃ block', g.blocks[b]? = some block' ∧ block.listing ⊆ block'.listing := by
  have hlt : b < f.blocks.size := (Array.getElem?_eq_some_iff.mp hb).1
  cases hfg with
  | addParam ty => exact ⟨block, hb, List.Subset.refl _⟩
  | addBlock name =>
    refine ⟨block, ?_, List.Subset.refl _⟩
    rw [Func.addBlock, Array.getElem?_push_lt hlt, ← Array.getElem?_eq_getElem, hb]
  | addIncoming phi c v => exact ⟨block, by rw [blocks_addIncoming, hb], List.Subset.refl _⟩
  | setTerminator c t =>
    rw [Func.setTerminator, Array.getElem?_modify, hb]
    by_cases hc : c = b
    · rw [if_pos hc]
      exact ⟨_, rfl, List.Subset.refl _⟩
    · rw [if_neg hc]
      exact ⟨block, rfl, List.Subset.refl _⟩
  | append c i =>
    rw [Func.append]
    split
    · exact ⟨block, hb, List.Subset.refl _⟩
    · next grown hgrown =>
      rw [blocks_recordUses, Array.getElem?_setIfInBounds]
      by_cases hc : c = b
      · obtain rfl : grown = block := by
          rw [block?, hc, hb] at hgrown
          exact (Option.some.inj hgrown).symm
        rw [if_pos hc, if_pos (hc ▸ hlt)]
        exact ⟨_, rfl, List.subset_append_left _ _⟩
      · rw [if_neg hc]
        exact ⟨block, hb, List.Subset.refl _⟩

/-- Growing a function takes nothing off its listing. -/
theorem Grows.mem_listedIds (hfg : f.Grows g) (hid : id ∈ f.listedIds) : id ∈ g.listedIds := by
  induction hfg with
  | refl => exact hid
  | tail _ hstep ih =>
    obtain ⟨b, block, hb, hmem⟩ := mem_listedIds_iff.mp ih
    obtain ⟨block', hb', hsub⟩ := hstep.listing_subset hb
    exact mem_listedIds_iff.mpr ⟨b, block', hb', hsub hmem⟩

/-! ### Control flow -/

/-- Entry, number of blocks and terminators are those of `f`. -/
structure KeepsFlow (f g : Func) : Prop where
  entry : g.entry = f.entry
  terminators : g.blocks.map Block.terminator = f.blocks.map Block.terminator

namespace KeepsFlow

theorem refl : f.KeepsFlow f := ⟨rfl, rfl⟩

theorem trans (hfg : f.KeepsFlow g) (hgh : g.KeepsFlow h) : f.KeepsFlow h :=
  ⟨hgh.entry.trans hfg.entry, hgh.terminators.trans hfg.terminators⟩

theorem flow_eq (h : f.KeepsFlow g) : g.flow = f.flow := by
  have hflow : ∀ k : Func,
      k.flow = ⟨k.entry, (k.blocks.map Block.terminator).map Terminator.targets⟩ := by
    intro k
    rw [Array.map_map]
    rfl
  rw [hflow, hflow, h.entry, h.terminators]

theorem recordUse (f : Func) (v : Value) (user : InstId) : f.KeepsFlow (f.recordUse v user) := by
  cases v <;> exact ⟨rfl, rfl⟩

theorem recordUses (f : Func) (vs : List Value) (user : InstId) :
    f.KeepsFlow (vs.foldl (fun f v => f.recordUse v user) f) := by
  induction vs generalizing f with
  | nil => exact refl
  | cons v vs ih => exact (recordUse f v user).trans (ih _)

theorem append (f : Func) (b : BlockId) (i : Instruction) : f.KeepsFlow (f.append b i).1 := by
  rw [Func.append]
  split
  · exact ⟨rfl, rfl⟩
  · next block hblock =>
    obtain ⟨hlt, hget⟩ := Array.getElem?_eq_some_iff.mp hblock
    dsimp only
    refine KeepsFlow.trans ?_ (recordUses _ i.operands f.arena.size)
    refine ⟨rfl, ?_⟩
    ext b' hb h'
    · simp
    · by_cases he : b = b'
      · subst he
        simp [hget]
      · rw [Array.getElem_map, Array.getElem_map, Array.getElem_setIfInBounds_ne _ he]

end KeepsFlow

end LoopStride.Func
