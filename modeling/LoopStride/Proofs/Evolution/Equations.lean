import LoopStride.Proofs.Evolution.Lookups

/-! Values by their equations. Where every instruction looks up none but those asked for before it,
nothing is met in progress, and the value of each comes of the values of what it looks up. -/
namespace LoopStride

namespace Func
variable {f : Func} {F : LoopForest} {id s : InstId} {i : Instruction} {memo : Memo} {e : Expr}
  {before : List InstId} {known : Std.TreeMap InstId Expr}

/-- What is known of the value in a slot when that much is known of the instructions. -/
def seen (f : Func) (known : InstId → Option Expr) : Value → Expr
  | .result j =>
    if j < f.arena.size then (known j).getD (.unknown (.result j)) else .unknown (.result j)
  | .literal (.int c _) => .const c
  | v => .unknown v

/-- What comes of an instruction when that much is known of the others. -/
def outcome (f : Func) (F : LoopForest) (known : InstId → Option Expr) (id : InstId)
    (i : Instruction) : Expr :=
  Id.run (f.evolve F (fun v => pure (f.seen known v)) id i)

theorem seen_result {known : InstId → Option Expr} (hi : f.inst? id = some i) :
    f.seen known (.result id) = (known id).getD (.unknown (.result id)) :=
  if_pos (lt_size_of_inst? hi)

theorem run_bind_of_run {α β : Type} {x : StateM Memo α} {a : α} {k : α → StateM Memo β}
    (hx : x.run memo = (a, memo)) : (x >>= k).run memo = (k a).run memo := by
  rw [StateT.run_bind, hx]
  rfl

/-- Where looking up leaves the memory alone, it does not matter that there is one. -/
theorem evolve_run {value : Value → StateM Memo Expr} {g : Value → Id Expr}
    (h : ∀ v ∈ f.asked F id i, (value v).run memo = (g v, memo)) :
    (f.evolve F value id i).run memo = (Id.run (f.evolve F g id i), memo) := by
  have both : ∀ {l r : Value} {k : Expr → Expr → Expr}, f.asked F id i = [l, r] →
      (do let a ← value l; let b ← value r; return k a b : StateM Memo Expr).run memo =
        (k (g l) (g r), memo) := by
    intro l r k hasked
    rw [run_bind_of_run (h l (by simp [hasked])), run_bind_of_run (h r (by simp [hasked]))]
    rfl
  have one : ∀ {l : Value} {k : Expr → Expr}, f.asked F id i = [l] →
      (do let a ← value l; return k a : StateM Memo Expr).run memo = (k (g l), memo) := by
    intro l k hasked
    rw [run_bind_of_run (h l (by simp [hasked]))]
    rfl
  unfold Func.evolve
  dsimp only
  cases ho : i.operation with
  | arith op l r =>
    cases op with
    | add | sub | mul => exact both (by rw [Func.asked, ho])
    | shl =>
      dsimp only
      cases hc : shiftFactor? r with
      | some c => exact one (by simp [Func.asked, ho, hc])
      | none => rfl
    | and | or | xor => rfl
  | cast op source => exact one (by rw [Func.asked, ho])
  | address base offset => exact both (by rw [Func.asked, ho])
  | phi incoming =>
    dsimp only
    cases hp : (f.scope F).headerPhi? id incoming with
    | none => rfl
    | some p =>
      have hasked : f.asked F id i = [p.entering, p.next] := by simp [Func.asked, ho, hp]
      dsimp only
      rw [run_bind_of_run (h p.entering (by simp [hasked]))]
      simp only [Id.run_bind]
      by_cases hinv : (f.scope F).isInvariant p.loop (g p.entering).run = true
      · have hinv' : (f.scope F).isInvariant p.loop (g p.entering) = true := hinv
        rw [if_pos hinv, if_pos hinv', run_bind_of_run (h p.next (by simp [hasked]))]
        rfl
      · have hinv' : ¬ (f.scope F).isInvariant p.loop (g p.entering) = true := hinv
        rw [if_neg hinv, if_neg hinv']
        rfl
  | compare | load | store | alloca | call => rfl

theorem outcome_congr {known known' : InstId → Option Expr}
    (h : ∀ j, .result j ∈ f.asked F id i → known j = known' j) :
    f.outcome F known id i = f.outcome F known' id i := by
  have hagree : ∀ v ∈ f.asked F id i, f.seen known v = f.seen known' v := by
    intro v hv
    cases v with
    | result j => rw [seen, seen, h j hv]
    | literal l => cases l <;> rfl
    | param k => rfl
  -- run over a memory that nothing reads, both give the same
  let value : Value → StateM Memo Expr := fun v => pure (f.seen known v)
  have hrun : (f.evolve F value id i).run ⟨∅, []⟩ = (f.outcome F known id i, ⟨∅, []⟩) :=
    evolve_run fun _ _ => rfl
  have hrun' : (f.evolve F value id i).run ⟨∅, []⟩ = (f.outcome F known' id i, ⟨∅, []⟩) :=
    evolve_run fun v hv => congrArg (·, (⟨∅, []⟩ : Memo)) (hagree v hv)
  exact congrArg Prod.fst (hrun.symm.trans hrun')

/-- All that is known satisfies its equation, and rests on what is known. -/
structure Solved (f : Func) (F : LoopForest) (before : List InstId)
    (known : Std.TreeMap InstId Expr) : Prop where
  asked : ∀ j ∈ before, j ∈ known
  equation : ∀ (j : InstId) (e : Expr), known[j]? = some e → ∃ i, f.inst? j = some i ∧
    e = f.outcome F (known[·]?) j i ∧ ∀ k, .result k ∈ f.asked F j i → k ∈ known

/-- The instruction exists and looks up none but those of the list. -/
def LooksBack (f : Func) (F : LoopForest) (before : List InstId) (s : InstId) : Prop :=
  ∃ i, f.inst? s = some i ∧ ∀ j, .result j ∈ f.asked F s i → j ∈ before

theorem Solved.insert (hm : f.Solved F before known) (hnew : s ∉ known) (hi : f.inst? s = some i)
    (hback : ∀ j, .result j ∈ f.asked F s i → j ∈ before) :
    f.Solved F (s :: before) (known.insert s (f.outcome F (known[·]?) s i)) := by
  have hmem : ∀ j, j ∈ known.insert s (f.outcome F (known[·]?) s i) ↔ s = j ∨ j ∈ known := by
    intro j
    rw [Std.TreeMap.mem_insert, Nat.compare_eq_eq]
  -- what is looked up was known before, so that the new entry changes no equation
  have hkeep : ∀ {j} {i' : Instruction}, (∀ k, .result k ∈ f.asked F j i' → k ∈ known) →
      f.outcome F (known[·]?) j i' =
        f.outcome F ((known.insert s (f.outcome F (known[·]?) s i))[·]?) j i' := by
    intro j i' hasked
    refine outcome_congr fun k hk => ?_
    rw [Memo.getElem?_insert_known, if_neg]
    rintro rfl
    exact hnew (hasked s hk)
  have hasked : ∀ k, .result k ∈ f.asked F s i → k ∈ known := fun k hk => hm.asked k (hback k hk)
  refine ⟨List.forall_mem_cons.mpr ⟨(hmem s).mpr (.inl rfl), fun j hj =>
    (hmem j).mpr (.inr (hm.asked j hj))⟩, fun j e he => ?_⟩
  rw [Memo.getElem?_insert_known] at he
  split at he
  · next heq =>
    subst heq
    obtain rfl := Option.some.inj he
    exact ⟨i, hi, hkeep hasked, fun k hk => (hmem k).mpr (.inr (hasked k hk))⟩
  · obtain ⟨i', hi', rfl, hasked'⟩ := hm.equation j e he
    exact ⟨i', hi', hkeep hasked', fun k hk => (hmem k).mpr (.inr (hasked' k hk))⟩

theorem Solved.recall (hm : f.Solved F before memo.known) (hs : f.LooksBack F before s) :
    f.Solved F (s :: before) ((f.recall F (f.arena.size + 1) [] s).run memo).2.known := by
  obtain ⟨i, hi, hback⟩ := hs
  rw [recall_run]
  cases hnew : memo.known[s]? with
  | some e =>
    refine ⟨List.forall_mem_cons.mpr ⟨?_, hm.asked⟩, hm.equation⟩
    exact Std.TreeMap.mem_iff_isSome_getElem?.mpr (by rw [hnew]; rfl)
  | none =>
    have hnot : s ∉ memo.known := by
      rw [Std.TreeMap.mem_iff_isSome_getElem?, hnew]
      exact Bool.false_ne_true
    obtain ⟨n, hn⟩ : ∃ n, f.arena.size = n + 1 :=
      Nat.exists_eq_add_one_of_ne_zero (Nat.ne_zero_of_lt (lt_size_of_inst? hi))
    have hfound : (f.evolve F (f.valueBy (f.recall F f.arena.size [s])) s i).run ⟨memo.known, []⟩ =
        (f.outcome F (memo.known[·]?) s i, ⟨memo.known, []⟩) := by
      refine evolve_run fun v hv => ?_
      cases v with
      | result j =>
        obtain ⟨e, he⟩ := Option.isSome_iff_exists.mp
          (Std.TreeMap.mem_iff_isSome_getElem?.mp (hm.asked j (hback j hv)))
        simp only [valueBy, seen]
        split
        · rw [hn, recall_run, he]
          rfl
        · rfl
      | literal l => cases l <;> rfl
      | param k => rfl
    have hpath : s ∉ ([] : List InstId) := List.not_mem_nil
    simp only [hi, if_neg hpath, hfound]
    exact hm.insert hnot hi hback

/-- Where every instruction looks back, the values satisfy their equations. -/
theorem oracle_eq_outcome (hids : InTurn (f.LooksBack F) [] f.wanted)
    (he : (f.evolution F).oracle id = some e) :
    ∃ i, f.inst? id = some i ∧ e = f.outcome F (f.evolution F).oracle id i := by
  have hstart : f.Solved F [] (∅ : Std.TreeMap InstId Expr) := by constructor <;> simp
  obtain ⟨last, memo, hm, heq⟩ := evolution_induct (fun before memo => f.Solved F before memo.known)
    hstart (hids.mono fun _ _ hback _ hm => hm.recall hback)
  rw [heq] at he ⊢
  obtain ⟨i, hi, houtcome, -⟩ := hm.equation id e he
  exact ⟨i, hi, houtcome⟩

end Func
end LoopStride
