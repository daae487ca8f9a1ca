import LoopStride.Access.Origin
import LoopStride.Proofs.Access.Walk
import LoopStride.Proofs.Evolution.Memo
import LoopStride.Proofs.Func.Growth

/-! Chains of extensions. A chain may go round in a circle or leave the instructions, and then it
cannot be followed. But an extension that evolves as a recurrence has it from its source, so a chain
that starts at a recurrence ends at an instruction of another kind. -/
namespace LoopStride.Func

/-- After `n` extensions the chain from a value is at an instruction that extends nothing; the last
argument is that instruction if it is a merge. -/
inductive EndsAfter (f : Func) : Nat → Value → Option InstId → Prop where
  | merge {id : InstId} {i : Instruction} (hi : f.inst? id = some i) (hphi : i.isPhi = true) :
      EndsAfter f 0 (.result id) (some id)
  | other {id : InstId} {i : Instruction} (hi : f.inst? id = some i) (hphi : i.isPhi = false)
      (hw : i.isWidening = false) : EndsAfter f 0 (.result id) none
  | extend {id : InstId} {i : Instruction} {op : CastOp} {source : Value} {n : Nat}
      {o : Option InstId} (hi : f.inst? id = some i) (ho : i.operation = .cast op source)
      (hw : op.isWidening = true) (hs : EndsAfter f n source o) :
      EndsAfter f (n + 1) (.result id) o

variable {f g : Func} {v : Value} {o o' : Option InstId} {id : InstId} {i : Instruction}
  {op : CastOp} {source : Value} {n m fuel : Nat}

theorem isPhi_of_cast (ho : i.operation = .cast op source) : i.isPhi = false := by
  simp [Instruction.isPhi, Instruction.opcode, ho, Operation.opcode]

theorem isWidening_of_cast (ho : i.operation = .cast op source) :
    i.isWidening = op.isWidening := by
  simp [Instruction.isWidening, Instruction.opcode, ho, Operation.opcode]

/-! ### Following a chain -/

theorem definition?_result (hi : f.inst? id = some i) :
    f.definition? (.result id) = some (id, i) := by
  simp [definition?, Value.result?, hi]

theorem EndsAfter.follow (h : f.EndsAfter n v o) (hn : n < fuel) :
    f.followExtensions fuel v = .ok o := by
  induction h generalizing fuel with
  | merge hi hphi =>
    obtain ⟨fuel, rfl⟩ := Nat.exists_eq_succ_of_ne_zero (Nat.ne_zero_of_lt hn)
    obtain ⟨incoming, ho⟩ := Instruction.isPhi_iff.mp hphi
    simp only [followExtensions, definition?_result hi, ho]
  | other hi hphi hw =>
    obtain ⟨fuel, rfl⟩ := Nat.exists_eq_succ_of_ne_zero (Nat.ne_zero_of_lt hn)
    simp only [followExtensions, definition?_result hi]
    split
    · next op source ho => rw [← isWidening_of_cast ho, hw, if_neg Bool.false_ne_true]
    · next ho =>
      rw [Instruction.isPhi_iff.mpr ⟨_, ho⟩] at hphi
      cases hphi
    · rfl
  | extend hi ho hw _ ih =>
    obtain ⟨fuel, rfl⟩ := Nat.exists_eq_succ_of_ne_zero (Nat.ne_zero_of_lt hn)
    simp only [followExtensions, definition?_result hi, ho, hw, if_true]
    exact ih (Nat.lt_of_succ_lt_succ hn)

/-- What is found at the end of a chain is there. -/
theorem exists_endsAfter_of_follow {phi : InstId} (h : f.followExtensions fuel v = .ok (some phi)) :
    ∃ n, f.EndsAfter n v (some phi) := by
  induction fuel generalizing v with
  | zero => cases h
  | succ fuel ih =>
    rw [followExtensions] at h
    cases hdef : f.definition? v with
    | none =>
      rw [hdef] at h
      cases h
    | some d =>
      obtain ⟨id, i⟩ := d
      rw [hdef] at h
      obtain ⟨j, hj, hfound⟩ := Option.bind_eq_some_iff.mp hdef
      obtain ⟨i', hi, he⟩ := Option.map_eq_some_iff.mp hfound
      obtain ⟨rfl, rfl⟩ := Prod.mk.inj he
      rw [Value.result?_eq_some_iff.mp hj]
      dsimp only at h
      split at h
      · next op source ho =>
        split at h
        · next hw =>
          obtain ⟨n, hend⟩ := ih h
          exact ⟨n + 1, .extend hi ho hw hend⟩
        · cases h
      · next incoming ho =>
        obtain rfl := Option.some.inj (Except.ok.inj h)
        exact ⟨0, .merge hi (Instruction.isPhi_iff.mpr ⟨incoming, ho⟩)⟩
      · cases h

theorem EndsAfter.unique (h : f.EndsAfter n v o) (h' : f.EndsAfter m v o') : n = m := by
  induction h generalizing m with
  | merge hi hphi =>
    cases h' with
    | merge => rfl
    | other => rfl
    | extend hi' ho' =>
      obtain rfl := Option.some.inj (hi.symm.trans hi')
      rw [isPhi_of_cast ho'] at hphi
      cases hphi
  | other hi hphi hw =>
    cases h' with
    | merge => rfl
    | other => rfl
    | extend hi' ho' hw' =>
      obtain rfl := Option.some.inj (hi.symm.trans hi')
      rw [isWidening_of_cast ho', hw'] at hw
      cases hw
  | extend hi ho hw hs ih =>
    cases h' with
    | merge hi' hphi' =>
      obtain rfl := Option.some.inj (hi.symm.trans hi')
      rw [isPhi_of_cast ho] at hphi'
      cases hphi'
    | other hi' hphi' hw' =>
      obtain rfl := Option.some.inj (hi.symm.trans hi')
      rw [isWidening_of_cast ho, hw] at hw'
      cases hw'
    | extend hi' ho' _ hs' =>
      obtain rfl := Option.some.inj (hi.symm.trans hi')
      obtain ⟨-, rfl⟩ := Operation.cast.inj (ho.symm.trans ho')
      rw [ih hs']

/-- The instructions of a chain differ from one another, for each is at its own distance from the
end. -/
theorem EndsAfter.exists_trail (h : f.EndsAfter n v o) : ∃ ids : List InstId,
    ids.length = n + 1 ∧ f.IsTrail ids ∧ ∀ id ∈ ids, ∃ m ≤ n, f.EndsAfter m (.result id) o := by
  induction h with
  | @merge id _ hi hphi =>
    refine ⟨[id], rfl, IsTrail.nil.cons hi List.not_mem_nil, ?_⟩
    simpa using .merge hi hphi
  | @other id _ hi hphi hw =>
    refine ⟨[id], rfl, IsTrail.nil.cons hi List.not_mem_nil, ?_⟩
    simpa using .other hi hphi hw
  | @extend id _ _ _ n o hi ho hw hs ih =>
    obtain ⟨ids, hlen, htrail, hids⟩ := ih
    have hend : f.EndsAfter (n + 1) (.result id) o := .extend hi ho hw hs
    have hnew : id ∉ ids := fun hmem => by
      obtain ⟨m, hm, hend'⟩ := hids id hmem
      have := hend.unique hend'
      omega
    refine ⟨id :: ids, by simp [hlen], htrail.cons hi hnew, List.forall_mem_cons.mpr ⟨?_, ?_⟩⟩
    · exact ⟨n + 1, Nat.le_refl _, hend⟩
    · intro id' hmem
      obtain ⟨m, hm, hend'⟩ := hids id' hmem
      exact ⟨m, Nat.le_succ_of_le hm, hend'⟩

theorem EndsAfter.lt_size (h : f.EndsAfter n v o) : n < f.arena.size := by
  obtain ⟨ids, hlen, htrail, -⟩ := h.exists_trail
  have := htrail.length_le
  omega

/-- A chain that ends is followed to its end. -/
theorem EndsAfter.extensionOrigin_eq (h : f.EndsAfter n v o) : f.extensionOrigin v = .ok o :=
  h.follow (Nat.lt_succ_of_lt h.lt_size)

/-- Growing a function leaves its chains as they are. -/
theorem EndsAfter.mono (h : f.EndsAfter n v o) (hfg : f.KeptIn g) : g.EndsAfter n v o := by
  induction h with
  | merge hi hphi =>
    obtain ⟨j, hj, hij⟩ := hfg _ _ hi
    refine .merge hj ?_
    rcases hij with rfl | hij
    · exact hphi
    · exact hij.2
  | other hi hphi hw =>
    obtain ⟨j, hj, hij⟩ := hfg _ _ hi
    rcases hij with rfl | hij
    · exact .other hj hphi hw
    · rw [hphi] at hij
      cases hij.1
  | extend hi ho hw _ ih =>
    obtain ⟨j, hj, hij⟩ := hfg _ _ hi
    rcases hij with rfl | hij
    · exact .extend hj ho hw ih
    · rw [isPhi_of_cast ho] at hij
      cases hij.1

/-! ### Chains that start at a recurrence -/

theorem exists_endsAfter_zero (hi : f.inst? id = some i) (hw : i.isWidening = false) :
    ∃ n o, f.EndsAfter n (.result id) o := by
  cases hphi : i.isPhi with
  | true => exact ⟨0, _, .merge hi hphi⟩
  | false => exact ⟨0, _, .other hi hphi hw⟩

theorem convert_eq_of_recurrence? {sourceWidth targetWidth : Option Nat} {symbol e : Expr}
    (hw : op.isWidening = true) (hsymbol : symbol.recurrence? = none)
    (h : (convert op sourceWidth targetWidth symbol e).recurrence?.isSome) :
    convert op sourceWidth targetWidth symbol e = e := by
  cases op with
  | signExtend => rfl
  | zeroExtend =>
    cases e with
    | const c =>
      rw [convert] at h ⊢
      split at h
      · cases sourceWidth with
        | none => simp [hsymbol] at h
        | some bits => simp [Expr.recurrence?] at h
      · next hc => exact if_neg hc
    | _ => rfl
  | _ => cases hw

/-- A recurrence that is found for an extension is what is found for its source. -/
theorem Evolves.of_extension {F : LoopForest} {T : Value → Expr → Prop} {source : Value} {e : Expr}
    (ho : i.operation = .cast op source) (hw : op.isWidening = true) (he : f.Evolves F T id i e)
    (hrec : e.recurrence?.isSome) : T source e := by
  cases he with
  | symbol => cases hrec
  | cast ho' hsource =>
    obtain ⟨rfl, rfl⟩ := Operation.cast.inj (ho.symm.trans ho')
    rw [convert_eq_of_recurrence? hw rfl hrec]
    exact hsource
  | add ho' | sub ho' | mul ho' | shl ho' | address ho' | recurrence ho' => cases ho.symm.trans ho'

/-- That chains from recurrences end passes from operands to results: an extension in the chain has
its recurrence from its source, and any other instruction ends the chain. -/
theorem inherits_endsAfter (f : Func) (F : LoopForest) :
    f.Inherits F fun v e => e.recurrence?.isSome → ∃ n o, f.EndsAfter n v o where
  symbol _ h := by cases h
  literal _ _ h := by cases h
  evolves {id i e} hi he hrec := by
    cases hw : i.isWidening with
    | false => exact exists_endsAfter_zero hi hw
    | true =>
      obtain ⟨op, source, ho, hop⟩ := Instruction.isWidening_iff.mp hw
      obtain ⟨n, o, hend⟩ := he.of_extension ho hop hrec hrec
      exact ⟨n + 1, o, .extend hi ho hop hend⟩

theorem exists_endsAfter {F : LoopForest}
    (h : ((f.evolution F).oracle.recurrence? id).isSome) :
    ∃ n o, f.EndsAfter n (.result id) o := by
  rw [Oracle.recurrence?] at h
  cases he : (f.evolution F).oracle id with
  | none => simp [he] at h
  | some e =>
    rw [he] at h
    exact oracle_of_inherits (f.inherits_endsAfter F) he h

/-! ### The origin of a candidate -/

theorem firstOrigin_ok {ids : List InstId}
    (h : ∀ id ∈ ids, ∃ n o, f.EndsAfter n (.result id) o) : ∃ o, f.firstOrigin ids = .ok o := by
  induction ids with
  | nil => exact ⟨none, rfl⟩
  | cons id ids ih =>
    obtain ⟨⟨n, o, hend⟩, hids⟩ := List.forall_mem_cons.mp h
    rw [firstOrigin, hend.extensionOrigin_eq]
    cases o with
    | none => exact ih hids
    | some phi => exact ⟨some phi, rfl⟩

theorem mem_of_firstOrigin {ids : List InstId} {phi : InstId}
    (h : f.firstOrigin ids = .ok (some phi)) :
    ∃ v ∈ ids, f.extensionOrigin (.result v) = .ok (some phi) := by
  induction ids with
  | nil => cases h
  | cons v ids ih =>
    rw [firstOrigin] at h
    split at h
    · cases h
    · next found hv =>
      cases h
      exact ⟨v, List.mem_cons_self, hv⟩
    · obtain ⟨v', hmem, hv'⟩ := ih h
      exact ⟨v', List.mem_cons_of_mem v hmem, hv'⟩

theorem recurrence?_of_mem_varyingFactors {oracle : Oracle} {header : BlockId}
    {addition : Instruction} (h : id ∈ f.varyingFactors oracle header addition) :
    (oracle.recurrence? id).isSome := by
  simp only [varyingFactors, List.mem_flatMap, List.mem_filter] at h
  obtain ⟨p, -, -, hrec⟩ := h
  cases hr : oracle.recurrence? id with
  | none => simp [hr] at hrec
  | some r => rfl

/-- However a function has grown since its values were found, the chain from a factor that evolves
in a loop comes to an end, and the origin of any instruction is told. -/
theorem Grows.origin {F : LoopForest} (hfg : f.Grows g) (header : BlockId) (id : InstId) :
    (∀ addition v, v ∈ g.varyingFactors (f.evolution F).oracle header addition →
      ∃ n o, g.EndsAfter n (.result v) o) ∧
    ∃ o, g.originOf (f.evolution F).oracle header id = .ok o := by
  have hends : ∀ addition v, v ∈ g.varyingFactors (f.evolution F).oracle header addition →
      ∃ n o, g.EndsAfter n (.result v) o := by
    intro addition v hv
    obtain ⟨n, o, hend⟩ := exists_endsAfter (recurrence?_of_mem_varyingFactors hv)
    exact ⟨n, o, hend.mono hfg.keptIn⟩
  refine ⟨hends, ?_⟩
  rw [originOf]
  split
  · exact ⟨none, rfl⟩
  · next addition _ => exact firstOrigin_ok (hends addition)

end LoopStride.Func
