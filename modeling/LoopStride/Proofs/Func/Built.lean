import LoopStride.Func.Builder
import LoopStride.Proofs.Runs.Ssa

/-! What holds of every function that is built by its operations and never edited by hand: it lists
each instruction once, where it was put, and its log of uses agrees with the operands slot by slot.
Read off by reader the log gives the operands of each instruction; read off by what is read it gives
the users. -/
namespace LoopStride

/-- One operation that grows a function. -/
inductive Growth where
  | param (ty : Ty)
  | block (name : Option String)
  | append (b : BlockId) (i : Instruction)
  | incoming (phi : InstId) (b : BlockId) (v : Value)
  | terminator (b : BlockId) (t : Terminator)
  deriving DecidableEq, Repr

namespace Growth

/-- The function as the operation leaves it, whatever its outcome. -/
def apply (f : Func) : Growth → Func
  | param ty => (f.addParam ty).1
  | block name => (f.addBlock name).1
  | append b i => (f.append b i).1
  | incoming phi b v => (f.addIncoming phi b v).1
  | terminator b t => f.setTerminator b t

/-- An instruction that is appended goes into a block that exists. -/
def Lands (f : Func) : Growth → Prop
  | append b _ => b < f.blocks.size
  | _ => True

instance {f : Func} : (g : Growth) → Decidable (g.Lands f)
  | append b _ => inferInstanceAs (Decidable (b < f.blocks.size))
  | param _ | block _ | incoming _ _ _ | terminator _ _ => isTrue trivial

/-- The uses that come about, in the order of the slots: what is read, and the reader. -/
def uses (f : Func) : Growth → List (InstId × InstId)
  | append _ i => i.sources.map (·, f.arena.size)
  | incoming phi _ v => if f.isPhi phi then v.result?.toList.map (·, phi) else []
  | _ => []

end Growth

namespace Func

/-- The function after operations one after the other. -/
def growAll (f : Func) (gs : List Growth) : Func := gs.foldl Growth.apply f

/-- Every instruction goes into a block that exists at that time. -/
def AllLand (f : Func) : List Growth → Prop
  | [] => True
  | g :: gs => g.Lands f ∧ (g.apply f).AllLand gs

instance decidableAllLand : (f : Func) → (gs : List Growth) → Decidable (f.AllLand gs)
  | _, [] => isTrue trivial
  | f, g :: gs =>
    have := decidableAllLand (g.apply f) gs
    inferInstanceAs (Decidable (g.Lands f ∧ (g.apply f).AllLand gs))

/-- All uses that come about, in the order in which they do. -/
def usesAlong (f : Func) : List Growth → List (InstId × InstId)
  | [] => []
  | g :: gs => g.uses f ++ (g.apply f).usesAlong gs

/-- The operand slots of an instruction, none if it is missing. -/
def slots (f : Func) (id : InstId) : List Value := ((f.inst? id).map Instruction.operands).getD []

variable {f : Func} {g : Growth} {gs : List Growth} {b c : BlockId} {d u id phi : InstId}
  {i : Instruction} {v : Value}

theorem growAll_append {gs' : List Growth} :
    f.growAll (gs ++ gs') = (f.growAll gs).growAll gs' := List.foldl_append

/-! ### The log -/

/-- The uses in which instruction `d` is read, by reader. -/
def readersOf (d : InstId) (log : List (InstId × InstId)) : List InstId :=
  log.filterMap fun e => if e.1 = d then some e.2 else none

/-- What instruction `u` reads by the log. -/
def readBy (u : InstId) (log : List (InstId × InstId)) : List InstId :=
  log.filterMap fun e => if e.2 = u then some e.1 else none

theorem users_eq_readersOf : f.users d = readersOf d f.uses.toList := rfl

theorem count_readersOf (log : List (InstId × InstId)) :
    (readersOf d log).count u = (readBy u log).count d := by
  induction log with
  | nil => rfl
  | cons e log ih =>
    obtain ⟨a, r⟩ := e
    by_cases ha : a = d <;> by_cases hr : r = u <;>
      simp [readersOf, readBy, ha, hr] <;> simpa [readersOf, readBy] using ih

theorem uses_recordUse : (f.recordUse v u).uses.toList =
    f.uses.toList ++ v.result?.toList.map (·, u) := by
  cases v <;> simp [recordUse, Value.result?]

theorem uses_recordUses (vs : List Value) : (vs.foldl (fun f v => f.recordUse v u) f).uses.toList =
    f.uses.toList ++ (vs.filterMap Value.result?).map (·, u) := by
  induction vs generalizing f with
  | nil => simp
  | cons v vs ih =>
    rw [List.foldl_cons, ih, uses_recordUse, List.append_assoc]
    cases hv : v.result? with
    | none => rw [List.filterMap_cons_none hv]; rfl
    | some d => rw [List.filterMap_cons_some hv]; rfl

theorem uses_apply (hg : g.Lands f) : (g.apply f).uses.toList = f.uses.toList ++ g.uses f := by
  cases g with
  | append b i =>
    have hb : f.block? b = some f.blocks[b] := Array.getElem?_eq_getElem hg
    rw [Growth.apply, append, hb]
    exact uses_recordUses _
  | incoming phi b v =>
    rw [Growth.apply, addIncoming, Growth.uses, isPhi, inst?]
    cases f.arena[phi]? with
    | none => simp
    | some p =>
      dsimp only [Option.map_some, Option.getD_some]
      split
      · next incoming ho =>
        rw [if_pos (Instruction.isPhi_iff.mpr ⟨incoming, ho⟩), uses_recordUse]
      · next hno =>
        rw [if_neg fun h => ?_, List.append_nil]
        obtain ⟨incoming, ho⟩ := Instruction.isPhi_iff.mp h
        exact hno incoming ho
  | param | block | terminator => simp [Growth.apply, Growth.uses, addParam, addBlock, setTerminator]

theorem uses_growAll (hgs : f.AllLand gs) :
    (f.growAll gs).uses.toList = f.uses.toList ++ f.usesAlong gs := by
  induction gs generalizing f with
  | nil => simp [growAll, usesAlong]
  | cons g gs ih => rw [growAll, List.foldl_cons, ← growAll, ih hgs.2, uses_apply hgs.1, usesAlong,
      List.append_assoc]

/-! ### The arena -/

theorem arena_addIncoming : (f.addIncoming phi b v).1.arena.size = f.arena.size := by
  rw [addIncoming]
  split
  · rfl
  · split
    · rw [arena_recordUse, Array.size_setIfInBounds]
    · rfl

theorem slots_append : (f.append b i).1.slots u =
    f.slots u ++ if u = f.arena.size then i.operands else [] := by
  rw [slots, slots, inst?, inst?, arena_append, Array.getElem?_push]
  by_cases hu : u = f.arena.size <;> simp [hu]

theorem slots_addIncoming : (f.addIncoming phi b v).1.slots u =
    f.slots u ++ if f.isPhi phi = true ∧ u = phi then [v] else [] := by
  rw [addIncoming, isPhi, inst?]
  cases hp : f.arena[phi]? with
  | none => simp
  | some p =>
    dsimp only [Option.map_some, Option.getD_some]
    split
    · next incoming ho =>
      have hphi := Instruction.isPhi_iff.mpr ⟨incoming, ho⟩
      rw [slots, slots, inst?, inst?, arena_recordUse, Array.getElem?_setIfInBounds]
      by_cases hu : phi = u
      · subst hu
        rw [if_pos rfl, if_pos (Array.getElem?_eq_some_iff.mp hp).1, if_pos ⟨hphi, rfl⟩, hp]
        simp [Instruction.operands, ho, Operation.operands]
      · simp [hu, Ne.symm hu]
    · next hno =>
      have hphi : ¬ p.instruction.isPhi = true := fun h =>
        (Instruction.isPhi_iff.mp h).elim hno
      simp [hphi]

/-! ### Listings -/

theorem listing_append (hb : b < f.blocks.size) : (f.append b i).1.listing c =
    f.listing c ++ if c = b then [f.arena.size] else [] := by
  have hblock : f.block? b = some f.blocks[b] := Array.getElem?_eq_getElem hb
  rw [append, hblock]
  dsimp only
  rw [listing, listing, block?, block?, blocks_recordUses, Array.getElem?_setIfInBounds]
  by_cases hc : b = c
  · subst hc
    simp [hb]
  · simp [hc, Ne.symm hc]

theorem listing_addBlock {name : Option String} :
    (f.addBlock name).1.listing c = f.listing c := by
  rw [addBlock, listing, listing, block?, block?, Array.getElem?_push]
  by_cases hc : c = f.blocks.size <;> simp [hc]

theorem listing_setTerminator {t : Terminator} :
    (f.setTerminator b t).listing c = f.listing c := by
  rw [setTerminator, listing, listing, block?, block?, Array.getElem?_modify]
  by_cases hc : b = c
  · cases f.blocks[c]? <;> simp [hc]
  · rw [if_neg hc]

theorem listing_addIncoming : (f.addIncoming phi b v).1.listing c = f.listing c := by
  rw [listing, listing, block?, block?, blocks_addIncoming]

theorem blockOf?_append : (f.append b i).1.blockOf? id =
    if id = f.arena.size then some b else f.blockOf? id := by
  rw [blockOf?, blockOf?, arena_append, Array.getElem?_push]
  split <;> rfl

theorem blockOf?_addIncoming : (f.addIncoming phi b v).1.blockOf? id = f.blockOf? id := by
  rw [addIncoming]
  cases hp : f.arena[phi]? with
  | none => rfl
  | some p =>
    dsimp only
    split
    · rw [blockOf?, blockOf?, arena_recordUse, Array.getElem?_setIfInBounds]
      by_cases hid : phi = id
      · subst hid
        rw [if_pos rfl, if_pos (Array.getElem?_eq_some_iff.mp hp).1, hp]
        rfl
      · rw [if_neg hid]
    · rfl

/-! ### What every operation keeps -/

/-- The listing and the log agree with the arena. -/
structure Consistent (f : Func) : Prop where
  listed_once : f.listedIds.Perm (List.range f.arena.size)
  homed : f.Homed
  ascending : ∀ b, (f.listing b).Pairwise (· < ·)
  /-- The log holds the operands of each instruction in the order of its slots. -/
  logged : ∀ u, (f.slots u).filterMap Value.result? = readBy u f.uses.toList

theorem consistent_empty (name : String) : (Func.empty name).Consistent where
  listed_once := .refl _
  homed := homed_iff.mpr fun b id h => by cases b <;> simp [listing, block?, empty] at h
  ascending b := by cases b <;> simp [listing, block?, empty]
  logged u := by simp [slots, inst?, empty, readBy]

theorem Consistent.lt_size (hf : f.Consistent) (hid : id ∈ f.listing b) : id < f.arena.size := by
  obtain ⟨p, hp, -⟩ := Option.map_eq_some_iff.mp (homed_iff.mp hf.homed b id hid)
  exact (Array.getElem?_eq_some_iff.mp hp).1

theorem slots_apply (hg : g.Lands f) : ((g.apply f).slots u).filterMap Value.result? =
    (f.slots u).filterMap Value.result? ++ readBy u (g.uses f) := by
  cases g with
  | append b i =>
    rw [Growth.apply, slots_append, List.filterMap_append]
    by_cases hu : u = f.arena.size
    · simp [Growth.uses, readBy, hu, Instruction.sources, List.filterMap_map]
    · simp [Growth.uses, readBy, hu, List.filterMap_map, Ne.symm hu]
  | incoming phi b v =>
    rw [Growth.apply, slots_addIncoming, List.filterMap_append, Growth.uses]
    by_cases hphi : f.isPhi phi = true
    · by_cases hu : u = phi
      · cases hv : v.result? <;> simp [hphi, hu, hv, readBy]
      · cases v.result? <;> simp [hphi, hu, readBy, Ne.symm hu]
    · simp [hphi, readBy]
  | param | block | terminator =>
    simp [Growth.apply, Growth.uses, readBy, slots, inst?, addParam, addBlock, setTerminator]

theorem listedIds_append (hb : b < f.blocks.size) :
    (f.append b i).1.listedIds.Perm (f.listedIds ++ [f.arena.size]) := by
  have hsize : (f.append b i).1.blocks.size = f.blocks.size := by
    rw [append, show f.block? b = some f.blocks[b] from Array.getElem?_eq_getElem hb]
    simp [blocks_recordUses]
  have hnew : (List.range f.blocks.size).flatMap
      (fun c => if c = b then [f.arena.size] else []) = [f.arena.size] := by
    have key : ∀ n, (List.range n).flatMap (fun c => if c = b then [f.arena.size] else []) =
        if b < n then [f.arena.size] else [] := by
      intro n
      induction n with
      | zero => rfl
      | succ n ih => rw [List.range_succ, List.flatMap_append, ih]; grind
    rw [key, if_pos hb]
  have hlisting : (f.append b i).1.listing =
      fun c => f.listing c ++ if c = b then [f.arena.size] else [] :=
    funext fun _ => listing_append hb
  rw [listedIds_eq_range, listedIds_eq_range, hsize, hlisting]
  exact (List.flatMap_append_perm _ _ _).symm.trans (by rw [hnew])

/-- An operation that appends nothing leaves the listing and the places alone. -/
theorem Consistent.of_frame {h : Func} (hf : f.Consistent) (hsize : h.arena.size = f.arena.size)
    (hids : h.listedIds = f.listedIds) (hlisting : ∀ b, h.listing b = f.listing b)
    (hblock : ∀ id, h.blockOf? id = f.blockOf? id)
    (hlogged : ∀ u, (h.slots u).filterMap Value.result? = readBy u h.uses.toList) :
    h.Consistent where
  listed_once := by rw [hids, hsize]; exact hf.listed_once
  homed := homed_iff.mpr fun b id hid => by
    rw [hblock]
    exact homed_iff.mp hf.homed b id (hlisting b ▸ hid)
  ascending b := hlisting b ▸ hf.ascending b
  logged := hlogged

theorem Consistent.apply (hf : f.Consistent) (hg : g.Lands f) : (g.apply f).Consistent := by
  have hlogged : ∀ u, ((g.apply f).slots u).filterMap Value.result? =
      readBy u (g.apply f).uses.toList := by
    intro u
    rw [slots_apply hg, uses_apply hg, hf.logged, readBy, readBy, readBy, List.filterMap_append]
  cases g with
  | param ty => exact hf.of_frame rfl rfl (fun _ => rfl) (fun _ => rfl) hlogged
  | block name =>
    refine hf.of_frame rfl ?_ (fun _ => listing_addBlock) (fun _ => rfl) hlogged
    rw [listedIds_eq_flatMap, listedIds_eq_flatMap]
    simp [Growth.apply, addBlock]
  | incoming phi b v =>
    refine hf.of_frame arena_addIncoming ?_ (fun _ => listing_addIncoming)
      (fun _ => blockOf?_addIncoming) hlogged
    rw [listedIds_eq_flatMap, listedIds_eq_flatMap, Growth.apply, blocks_addIncoming]
  | terminator b t =>
    refine hf.of_frame rfl ?_ (fun _ => listing_setTerminator) (fun _ => rfl) hlogged
    have hlisting : (f.setTerminator b t).listing = f.listing :=
      funext fun _ => listing_setTerminator
    rw [listedIds_eq_range, listedIds_eq_range, Growth.apply, hlisting]
    simp [setTerminator]
  | append b i =>
    refine ⟨?_, homed_iff.mpr fun c id hid => ?_, fun c => ?_, hlogged⟩
    · rw [Growth.apply, arena_append, Array.size_push, List.range_succ]
      exact (listedIds_append hg).trans (hf.listed_once.append_right _)
    · rw [Growth.apply, listing_append hg, List.mem_append] at hid
      rw [Growth.apply, blockOf?_append]
      cases hid with
      | inl hid => rw [if_neg (Nat.ne_of_lt (hf.lt_size hid)), homed_iff.mp hf.homed c id hid]
      | inr hid => grind
    · rw [Growth.apply, listing_append hg]
      split
      · refine List.pairwise_append.mpr ⟨hf.ascending c, List.pairwise_singleton _ _, ?_⟩
        intro a ha x hx
        rw [List.mem_singleton.mp hx]
        exact hf.lt_size ha
      · rw [List.append_nil]
        exact hf.ascending c

theorem Consistent.growAll (hf : f.Consistent) (hgs : f.AllLand gs) :
    (f.growAll gs).Consistent := by
  induction gs generalizing f with
  | nil => exact hf
  | cons g gs ih => exact ih (hf.apply hgs.1) hgs.2

/-- Each reader is told once for every slot in which it reads. -/
theorem Consistent.count_users (hf : f.Consistent) :
    (f.users d).count u = (f.slots u).count (.result d) := by
  rw [users_eq_readersOf, count_readersOf, ← hf.logged, List.count_filterMap, List.count]
  refine List.countP_congr fun v _ => ?_
  rw [beq_iff_eq, beq_iff_eq, Value.result?_eq_some_iff]

theorem addIncoming_failed {e : GrowthError} (h : (f.addIncoming phi b v).2 = .error e) :
    (f.addIncoming phi b v).1 = f := by
  rw [addIncoming] at h ⊢
  split at h
  · rfl
  · split at h
    · cases h
    · rfl

end Func

/-! ### Builders -/

namespace Builder

/-- What a builder can be told. -/
inductive Command where
  | moveTo (b : BlockId)
  | append (i : Instruction)
  | param (ty : Ty)
  | block (name : String)
  | incoming (phi : InstId) (b : BlockId) (v : Value)
  | terminate (t : Terminator)
  deriving DecidableEq, Repr

def obey (s : Builder) : Command → Builder
  | .moveTo b => s.moveTo b
  | .append i => (s.append i).1
  | .param ty => (s.addParam ty).1
  | .block name => (s.addBlock name).1
  | .incoming phi b v => (s.addIncoming phi b v).1
  | .terminate t => s.terminate t

def obeyAll (s : Builder) (cs : List Command) : Builder := cs.foldl obey s

/-- What a command does to the function that is being built. -/
def growth (s : Builder) : Command → List Growth
  | .moveTo _ => []
  | .append i => [.append s.cursor i]
  | .param ty => [.param ty]
  | .block name => [.block (some name)]
  | .incoming phi b v => [.incoming phi b v]
  | .terminate t => [.terminator s.cursor t]

def growths (s : Builder) : List Command → List Growth
  | [] => []
  | c :: cs => s.growth c ++ (s.obey c).growths cs

variable {s : Builder}

theorem func_obey (c : Command) : (s.obey c).func = s.func.growAll (s.growth c) := by
  cases c <;> rfl

theorem func_obeyAll (cs : List Command) :
    (s.obeyAll cs).func = s.func.growAll (s.growths cs) := by
  induction cs generalizing s with
  | nil => rfl
  | cons c cs ih =>
    rw [growths, Func.growAll_append, ← func_obey, ← ih]
    rfl

end Builder

/-- A function that a builder made and that has grown on since lists every instruction once, in the
block it was put into and in the order of the numbers. The users of an instruction are those that
read it, once for each slot, in the order in which the slots were filled. A merge that does not exist
takes no value, and nothing comes of trying. -/
theorem Func.built_consistent (name : String) (cs : List Builder.Command) (gs : List Growth)
    (hland : (Func.empty name).AllLand ((Builder.start name).growths cs ++ gs)) :
    let f := ((Builder.start name).obeyAll cs).func.growAll gs
    f.Consistent ∧
    (∀ d u, (f.users d).count u = (f.slots u).count (.result d)) ∧
    (∀ d, f.users d = readersOf d
      ((Func.empty name).usesAlong ((Builder.start name).growths cs ++ gs))) ∧
    ∀ phi b v e, (f.addIncoming phi b v).2 = .error e → (f.addIncoming phi b v).1 = f := by
  intro f
  have hf : f = (Func.empty name).growAll ((Builder.start name).growths cs ++ gs) := by
    rw [growAll_append]
    exact congrArg (growAll · gs) (Builder.func_obeyAll cs)
  have hkept : f.Consistent := hf ▸ (consistent_empty name).growAll hland
  refine ⟨hkept, fun d u => hkept.count_users, fun d => ?_, fun phi b v e => addIncoming_failed⟩
  rw [users_eq_readersOf, hf, uses_growAll hland]
  rfl

/-- A merge that reads itself, an addition that reads twice what is not there yet and once what never
comes, and values for merges that there are not. -/
def tangle : List Builder.Command := [
  .block "loop", .terminate (.jump 1), .moveTo 1,
  .append (.phi (.int 64) []),
  .append (.call "f" [.result 2, .result 2, .result 9] (.int 64)),
  .incoming 0 1 (.result 0), .incoming 1 0 (.result 0), .incoming 7 0 (.int 1)]

/-- The function goes on to grow in its entry block. -/
def tangleOn : List Growth := [
  .param (.int 64), .append 0 (.arith .add (.int 64) (.result 0) (.param 0)),
  .incoming 0 0 (.result 2), .block none, .terminator 1 (.ret none)]

theorem Func.built_consistent_tangle :
    (Func.empty "tangle").AllLand ((Builder.start "tangle").growths tangle ++ tangleOn) ∧
    ∃ f, f = ((Builder.start "tangle").obeyAll tangle).func.growAll tangleOn ∧ f.Consistent ∧
      f.listedIds = [2, 0, 1] ∧ f.users 0 = [0, 2] ∧ f.users 2 = [1, 1, 0] ∧
      (f.users 2).count 1 = (f.slots 1).count (.result 2) := by
  have hland : (Func.empty "tangle").AllLand
    ((Builder.start "tangle").growths tangle ++ tangleOn) := by decide
  obtain ⟨hf, hcount, -, -⟩ := built_consistent "tangle" tangle tangleOn hland
  exact ⟨hland, _, rfl, hf, by decide, by decide, by decide, hcount 2 1⟩

end LoopStride
