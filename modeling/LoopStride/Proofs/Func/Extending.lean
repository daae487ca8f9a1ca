import LoopStride.Proofs.Func.Valid

/-! What it takes to extend a function so that it still hangs together. Each operation changes one
part, which the conditions on other parts read: a terminator has a say in where merges of other blocks
take their values from. -/
namespace LoopStride

namespace Func
variable (f : Func)

/-- A merge can come at the end of a block only behind merges, with values from predecessors. -/
def MayFollow (b : BlockId) : Operation → Prop
  | .phi incoming => (∀ e ∈ incoming, f.flow.Edge e.1 b) ∧ ∀ id ∈ f.listing b, f.isPhi id = true
  | _ => True

instance {f : Func} : (v : Value) → Decidable (f.Has v)
  | .result id => inferInstanceAs (Decidable (id < f.arena.size))
  | .param p => inferInstanceAs (Decidable (p < f.params.size))
  | .literal _ => isTrue trivial

instance {f : Func} {b : BlockId} : (o : Operation) → Decidable (f.MayFollow b o)
  | .phi _ => inferInstanceAs (Decidable (_ ∧ _))
  | .arith .. | .compare .. | .cast .. | .load _ | .store .. | .address .. | .alloca _
  | .call .. => isTrue trivial

end Func

/-- What an operation asks of the function. -/
def Growth.Fits (f : Func) : Growth → Prop
  | param _ => True
  | block _ => True
  | append b i => b < f.blocks.size ∧ (∀ v ∈ i.operands, f.Has v) ∧ f.MayFollow b i.operation
  | incoming phi b v => f.Homed ∧ f.Has v ∧ ∀ c ∈ f.blockOf? phi, f.flow.Edge b c
  /- A block that is no longer entered from `b` takes nothing from there. -/
  | terminator b t => (∀ c ∈ t.targets, c < f.blocks.size) ∧
      ∀ c ∈ f.flow.next b, c ∉ t.targets → ∀ id ∈ f.listing c, ∀ e ∈ f.incoming id, e.1 ≠ b

instance {f : Func} : (g : Growth) → Decidable (g.Fits f)
  | .append .. | .incoming .. | .terminator .. => inferInstanceAs (Decidable (_ ∧ _))
  | .param _ | .block _ => isTrue trivial

namespace Func

/-- Every operation fits the function as it is at that time. -/
def AllFit (f : Func) : List Growth → Prop
  | [] => True
  | g :: gs => g.Fits f ∧ (g.apply f).AllFit gs

instance decidableAllFit : (f : Func) → (gs : List Growth) → Decidable (f.AllFit gs)
  | _, [] => isTrue trivial
  | f, g :: gs =>
    have := decidableAllFit (g.apply f) gs
    inferInstanceAs (Decidable (g.Fits f ∧ (g.apply f).AllFit gs))

variable {f g : Func} {b c u : BlockId} {id phi : InstId} {i : Instruction} {v w : Value}
  {t : Terminator}

theorem Has.mono (h : f.Has v) (harena : f.arena.size ≤ g.arena.size)
    (hparams : f.params.size ≤ g.params.size) : g.Has v := by
  cases v with
  | result id => exact Nat.lt_of_lt_of_le h harena
  | literal l => trivial
  | param p => exact Nat.lt_of_lt_of_le h hparams

theorem params_recordUses (vs : List Value) (user : InstId) :
    (vs.foldl (fun f v => f.recordUse v user) f).params = f.params := by
  induction vs generalizing f with
  | nil => rfl
  | cons v vs ih =>
    rw [List.foldl_cons, ih]
    cases v <;> rfl

theorem params_append : (f.append b i).1.params = f.params := by
  rw [append]
  split
  · rfl
  · exact params_recordUses _ _

theorem size_blocks_append : (f.append b i).1.blocks.size = f.blocks.size := by
  have h := congrArg Array.size (KeepsFlow.append f b i).terminators
  rwa [Array.size_map, Array.size_map] at h

theorem inst?_append : (f.append b i).1.inst? u =
    if u = f.arena.size then some i else f.inst? u := by
  rw [inst?, inst?, arena_append, Array.getElem?_push]
  split <;> rfl

theorem isPhi_append : (f.append b i).1.isPhi u =
    if u = f.arena.size then i.isPhi else f.isPhi u := by
  rw [isPhi, isPhi, inst?_append]
  split <;> rfl

theorem incoming_append_of_ne (h : u ≠ f.arena.size) :
    (f.append b i).1.incoming u = f.incoming u := by
  rw [incoming, incoming, inst?_append, if_neg h]

theorem WellFormed.addParam (hf : f.WellFormed) (ty : Ty) : (f.addParam ty).1.WellFormed where
  entry_exists := hf.entry_exists
  targets_exist := hf.targets_exist
  listed_exist := hf.listed_exist
  merges_first := hf.merges_first
  incoming_precedes := hf.incoming_precedes
  operands_exist b id hid v hv :=
    (hf.operands_exist b id hid v hv).mono (Nat.le_refl _) (by simp [Func.addParam])

theorem edge_addBlock {name : Option String} :
    (f.addBlock name).1.flow.Edge b c ↔ f.flow.Edge b c := by
  rw [edge_iff, edge_iff, Func.addBlock, Array.getElem?_push]
  by_cases hb : b = f.blocks.size
  · simp [hb, Block.successors, Terminator.targets]
  · rw [if_neg hb]

theorem WellFormed.addBlock (hf : f.WellFormed) (name : Option String) :
    (f.addBlock name).1.WellFormed := by
  have hsize : (f.addBlock name).1.blocks.size = f.blocks.size + 1 := Array.size_push ..
  refine ⟨?_, fun b c he => ?_, fun b id hid => ?_, fun b => ?_, fun b id hid e he => ?_,
    fun b id hid => ?_⟩
  · exact hsize ▸ Nat.lt_succ_of_lt hf.entry_exists
  · exact hsize ▸ Nat.lt_succ_of_lt (hf.targets_exist b c (edge_addBlock.mp he))
  · exact hf.listed_exist b id (listing_addBlock ▸ hid)
  · rw [listing_addBlock]
    exact hf.merges_first b
  · exact edge_addBlock.mpr (hf.incoming_precedes b id (listing_addBlock ▸ hid) e he)
  · exact hf.operands_exist b id (listing_addBlock ▸ hid)

theorem mem_listing_append (hb : b < f.blocks.size) : id ∈ (f.append b i).1.listing c ↔
    id ∈ f.listing c ∨ id = f.arena.size ∧ c = b := by
  rw [listing_append hb, List.mem_append]
  split <;> simp [*]

theorem MayFollow.of_phi {incoming : List (BlockId × Value)} (h : f.MayFollow b i.operation)
    (ho : i.operation = .phi incoming) :
    (∀ e ∈ incoming, f.flow.Edge e.1 b) ∧ ∀ id ∈ f.listing b, f.isPhi id = true := by
  rwa [ho] at h

theorem WellFormed.append (hf : f.WellFormed) (hfits : (Growth.append b i).Fits f) :
    (f.append b i).1.WellFormed := by
  obtain ⟨hb, hoperands, hmay⟩ := hfits
  have hflow := (KeepsFlow.append f b i).flow_eq
  -- the new instruction has a number that no block lists so far
  have hold : ∀ {c id}, id ∈ f.listing c → id ≠ f.arena.size :=
    fun hid => Nat.ne_of_lt (hf.listed_exist _ _ hid)
  have hhas : ∀ v, f.Has v → (f.append b i).1.Has v := fun v hv =>
    hv.mono (by simp [arena_append]) (Nat.le_of_eq (congrArg Array.size params_append.symm))
  refine ⟨?_, fun c t he => ?_, fun c id hid => ?_, fun c => ?_, fun c id hid e he => ?_,
    fun c id hid v hv => ?_⟩
  · rw [size_blocks_append, (KeepsFlow.append f b i).entry]
    exact hf.entry_exists
  · rw [size_blocks_append]
    exact hf.targets_exist c t (hflow ▸ he)
  · rw [arena_append, Array.size_push]
    rcases (mem_listing_append hb).mp hid with hid | ⟨rfl, -⟩
    · exact Nat.lt_succ_of_lt (hf.listed_exist c id hid)
    · exact Nat.lt_succ_self _
  · have hkept : (f.listing c).Pairwise fun id later =>
        (f.append b i).1.isPhi later = true → (f.append b i).1.isPhi id = true := by
      refine (hf.merges_first c).imp_of_mem fun hid hlater h => ?_
      rwa [isPhi_append, isPhi_append, if_neg (hold hid), if_neg (hold hlater)]
    rw [listing_append hb]
    split
    · next hc =>
      refine List.pairwise_append.mpr ⟨hkept, List.pairwise_singleton _ _, fun id hid x hx => ?_⟩
      rw [List.mem_singleton.mp hx, isPhi_append, isPhi_append, if_pos rfl, if_neg (hold hid)]
      intro hphi
      obtain ⟨incoming, ho⟩ := Instruction.isPhi_iff.mp hphi
      exact (hmay.of_phi ho).2 id (hc ▸ hid)
    · rwa [List.append_nil]
  · rw [hflow]
    rcases (mem_listing_append hb).mp hid with hid | ⟨rfl, rfl⟩
    · exact hf.incoming_precedes c id hid e (incoming_append_of_ne (hold hid) ▸ he)
    · have hnew : (f.append c i).1.inst? f.arena.size = some i := by rw [inst?_append, if_pos rfl]
      cases hphi : i.isPhi with
      | false =>
        rw [incoming_eq_nil hnew hphi] at he
        cases he
      | true =>
        obtain ⟨incoming, ho⟩ := Instruction.isPhi_iff.mp hphi
        rw [incoming_of_phi hnew ho] at he
        exact (hmay.of_phi ho).1 e he
  · rw [slots_append] at hv
    rcases (mem_listing_append hb).mp hid with hid | ⟨rfl, -⟩
    · rw [if_neg (hold hid), List.append_nil] at hv
      exact hhas v (hf.operands_exist c id hid v hv)
    · rw [slots, inst?_eq_none_iff.mpr (Nat.lt_irrefl _), if_pos rfl] at hv
      exact hhas v (hoperands v hv)

/-- A merge that takes one more value stays what it is but for that value. -/
theorem inst?_addIncoming (f : Func) (phi : InstId) (b : BlockId) (v : Value) (u : InstId) :
    (f.addIncoming phi b v).1.inst? u = f.inst? u ∨
    u = phi ∧ ∃ i incoming, f.inst? phi = some i ∧ i.operation = .phi incoming ∧
      (f.addIncoming phi b v).1.inst? phi =
        some { i with operation := .phi (incoming ++ [(b, v)]) } := by
  rw [addIncoming]
  cases hp : f.arena[phi]? with
  | none => exact .inl rfl
  | some p =>
    dsimp only
    split
    · next incoming ho =>
      rw [inst?, inst?, inst?, inst?, arena_recordUse, Array.getElem?_setIfInBounds,
        Array.getElem?_setIfInBounds]
      by_cases hu : phi = u
      · right
        refine ⟨hu.symm, p.instruction, incoming, by rw [hp, Option.map_some], ho, ?_⟩
        rw [if_pos rfl, if_pos (Array.getElem?_eq_some_iff.mp hp).1, Option.map_some]
      · exact .inl (by rw [if_neg hu])
    · exact .inl rfl

theorem isPhi_addIncoming : (f.addIncoming phi b v).1.isPhi u = f.isPhi u := by
  rcases inst?_addIncoming f phi b v u with h | ⟨rfl, i, incoming, hi, ho, h⟩
  · rw [isPhi, isPhi, h]
  · rw [isPhi_of_inst? h, isPhi_of_inst? hi, Instruction.isPhi_iff.mpr ⟨_, rfl⟩,
      Instruction.isPhi_iff.mpr ⟨_, ho⟩]

theorem mem_incoming_addIncoming {e : BlockId × Value}
    (he : e ∈ (f.addIncoming phi b v).1.incoming u) :
    e ∈ f.incoming u ∨ u = phi ∧ e = (b, v) := by
  rcases inst?_addIncoming f phi b v u with h | ⟨rfl, i, incoming, hi, ho, h⟩
  · rw [incoming, h] at he
    exact .inl he
  · rw [incoming_of_phi h rfl, List.mem_append, List.mem_singleton] at he
    rw [incoming_of_phi hi ho]
    exact he.imp_right fun he => ⟨rfl, he⟩

theorem frame_addIncoming : (f.addIncoming phi b v).1.entry = f.entry ∧
    (f.addIncoming phi b v).1.params = f.params := by
  rw [addIncoming]
  split
  · exact ⟨rfl, rfl⟩
  · split
    · cases v <;> exact ⟨rfl, rfl⟩
    · exact ⟨rfl, rfl⟩

theorem WellFormed.addIncoming (hf : f.WellFormed) (hfits : (Growth.incoming phi b v).Fits f) :
    (f.addIncoming phi b v).1.WellFormed := by
  obtain ⟨hhomed, hv, hedge⟩ := hfits
  have hsize : (f.addIncoming phi b v).1.blocks.size = f.blocks.size := by
    rw [blocks_addIncoming]
  have hflow : (f.addIncoming phi b v).1.flow = f.flow := by
    rw [flow, flow, blocks_addIncoming, frame_addIncoming.1]
  have hhas : ∀ w, f.Has w → (f.addIncoming phi b v).1.Has w := fun w hw =>
    hw.mono (Nat.le_of_eq arena_addIncoming.symm)
      (Nat.le_of_eq (congrArg Array.size frame_addIncoming.2.symm))
  refine ⟨?_, fun c t he => ?_, fun c id hid => ?_, fun c => ?_, fun c id hid e he => ?_,
    fun c id hid w hw => ?_⟩
  · rw [hsize, frame_addIncoming.1]
    exact hf.entry_exists
  · exact hsize ▸ hf.targets_exist c t (hflow ▸ he)
  · rw [listing_addIncoming] at hid
    rw [arena_addIncoming]
    exact hf.listed_exist c id hid
  · rw [listing_addIncoming]
    refine (hf.merges_first c).imp fun h => ?_
    rwa [isPhi_addIncoming, isPhi_addIncoming]
  · rw [listing_addIncoming] at hid
    rw [hflow]
    rcases mem_incoming_addIncoming he with he | ⟨rfl, rfl⟩
    · exact hf.incoming_precedes c id hid e he
    · exact hedge c (homed_iff.mp hhomed c id hid)
  · rw [listing_addIncoming] at hid
    rw [slots_addIncoming, List.mem_append] at hw
    rcases hw with hw | hw
    · exact hhas w (hf.operands_exist c id hid w hw)
    · split at hw
      · exact hhas w (List.mem_singleton.mp hw ▸ hv)
      · cases hw

theorem edge_setTerminator : (f.setTerminator b t).flow.Edge u c ↔
    if u = b then b < f.blocks.size ∧ c ∈ t.targets else f.flow.Edge u c := by
  rw [edge_iff, edge_iff, Func.setTerminator, Array.getElem?_modify]
  by_cases hu : u = b
  · subst hu
    rw [if_pos rfl, if_pos rfl]
    cases hb : f.blocks[u]? with
    | none => simpa using fun h => absurd h (Nat.not_lt.mpr (Array.getElem?_eq_none_iff.mp hb))
    | some block => simp [Block.successors, (Array.getElem?_eq_some_iff.mp hb).1]
  · rw [if_neg hu, if_neg (Ne.symm hu)]

theorem WellFormed.setTerminator (hf : f.WellFormed) (hfits : (Growth.terminator b t).Fits f) :
    (f.setTerminator b t).WellFormed := by
  obtain ⟨htargets, hleft⟩ := hfits
  have hsize : (f.setTerminator b t).blocks.size = f.blocks.size := Array.size_modify ..
  refine ⟨hsize ▸ hf.entry_exists, fun u c he => ?_, fun c id hid => ?_, fun c => ?_,
    fun c id hid e he => ?_, fun c id hid => ?_⟩
  · rw [edge_setTerminator] at he
    rw [hsize]
    split at he
    · exact htargets c he.2
    · exact hf.targets_exist u c he
  · exact hf.listed_exist c id (listing_setTerminator ▸ hid)
  · rw [listing_setTerminator]
    exact hf.merges_first c
  · rw [listing_setTerminator] at hid
    have hbefore := hf.incoming_precedes c id hid e he
    rw [edge_setTerminator]
    split
    · next heb =>
      obtain ⟨block, hb, -⟩ := edge_iff.mp hbefore
      refine ⟨heb ▸ (Array.getElem?_eq_some_iff.mp hb).1, ?_⟩
      -- a merge would take a value from `b` without the edge to its block
      by_contra hnot
      exact hleft c (heb ▸ hbefore) hnot id hid e he heb
    · exact hbefore
  · rw [listing_setTerminator] at hid
    exact hf.operands_exist c id hid

/-! ### Any operation -/

theorem WellFormed.apply {g : Growth} (hf : f.WellFormed) (hg : g.Fits f) :
    (g.apply f).WellFormed := by
  cases g with
  | param ty => exact hf.addParam ty
  | block name => exact hf.addBlock name
  | append b i => exact hf.append hg
  | incoming phi b v => exact hf.addIncoming hg
  | terminator b t => exact hf.setTerminator hg

theorem WellFormed.growAll {gs : List Growth} (hf : f.WellFormed) (hgs : f.AllFit gs) :
    (f.growAll gs).WellFormed := by
  induction gs generalizing f with
  | nil => exact hf
  | cons g gs ih => exact ih (hf.apply hgs.1) hgs.2

/-- A function that the check accepts is accepted after every operation that fits it, and so it is
after any number of them that fit one after the other. -/
theorem growth_keeps_valid (f : Func) (hf : f.validate = .ok ()) :
    (∀ g : Growth, g.Fits f → (g.apply f).validate = .ok ()) ∧
    ∀ gs, f.AllFit gs → (f.growAll gs).validate = .ok () := by
  have hwell := defect?_eq_none.mp (validate_eq_ok.mp hf)
  refine ⟨fun g hg => ?_, fun gs hgs => ?_⟩
  · exact validate_eq_ok.mpr (defect?_eq_none.mpr (hwell.apply hg))
  · exact validate_eq_ok.mpr (defect?_eq_none.mpr (hwell.growAll hgs))

end Func

/-- Lays a loop with a merge that takes its second value last. The block behind it leads back for a
while, which no merge comes to rely on. -/
def layLoop : List Growth := [
  .block (some "loop"), .block none, .terminator 0 (.jump 1), .param (.int 64),
  .append 1 (.phi (.int 64) [(0, .param 0)]), .append 1 (.phi (.int 64) []),
  .append 1 (.arith .add (.int 64) (.result 0) (.int 1)), .terminator 1 (.branch (.result 2) 1 2),
  .incoming 0 1 (.result 2), .terminator 2 (.jump 1), .terminator 2 (.ret none)]

theorem Func.growth_keeps_valid_layLoop :
    (Func.empty "count").validate = .ok () ∧ (Func.empty "count").AllFit layLoop ∧
    ((Func.empty "count").growAll layLoop).validate = .ok () ∧
    ((Func.empty "count").growAll layLoop).incoming 0 = [(0, .param 0), (1, .result 2)] := by
  have hempty : (Func.empty "count").validate = .ok () := rfl
  have hfit : (Func.empty "count").AllFit layLoop := by decide +kernel
  exact ⟨hempty, hfit, (growth_keeps_valid _ hempty).2 layLoop hfit, by decide⟩

end LoopStride
