import Std.Data.TreeMap.Lemmas
import LoopStride.Evolution

/-! The search for symbolic values, freed of its memory: a property that passes from the values an
instruction reads to its own holds of all values found, provisional ones included, and every listed
instruction with a result has one. What a single look-up does to the memory comes last. -/
namespace LoopStride

/-- The values that may be found for an instruction if those of its operands have property `T`. -/
inductive Func.Evolves (f : Func) (F : LoopForest) (T : Value → Expr → Prop) (id : InstId)
    (i : Instruction) : Expr → Prop where
  | symbol : Evolves f F T id i (.unknown (.result id))
  | add {l r : Value} {a b : Expr} (ho : i.operation = .arith .add l r) (ha : T l a) (hb : T r b) :
    Evolves f F T id i ((f.scope F).add [a, b])
  | sub {l r : Value} {a b : Expr} (ho : i.operation = .arith .sub l r) (ha : T l a) (hb : T r b) :
    Evolves f F T id i ((f.scope F).add [a, (f.scope F).scale (-1) b])
  | mul {l r : Value} {a b : Expr} (ho : i.operation = .arith .mul l r) (ha : T l a) (hb : T r b) :
    Evolves f F T id i ((f.scope F).mul a b)
  | shl {l r : Value} {a : Expr} {c : Int64} (ho : i.operation = .arith .shl l r)
    (hc : shiftFactor? r = some c) (ha : T l a) : Evolves f F T id i ((f.scope F).scale c a)
  | cast {op : CastOp} {source : Value} {e : Expr} (ho : i.operation = .cast op source)
    (he : T source e) :
    Evolves f F T id i (convert op (f.width? source) i.ty.width? (.unknown (.result id)) e)
  | address {base offset : Value} {a b : Expr} (ho : i.operation = .address base offset)
    (ha : T base a) (hb : T offset b) : Evolves f F T id i ((f.scope F).add [a, b])
  | recurrence {incoming : List (BlockId × Value)} {p : HeaderPhi} {start next e : Expr}
    (ho : i.operation = .phi incoming) (hp : (f.scope F).headerPhi? id incoming = some p)
    (hstart : T p.entering start) (hinv : (f.scope F).isInvariant p.loop start = true)
    (hnext : T p.next next)
    (he : (f.scope F).close? p (.unknown (.result id)) start next = some e) : Evolves f F T id i e

/-- A property that passes from operands to results. -/
structure Func.Inherits (f : Func) (F : LoopForest) (T : Value → Expr → Prop) : Prop where
  symbol : ∀ v, T v (.unknown v)
  literal : ∀ c bits, T (.literal (.int c bits)) (.const c)
  evolves : ∀ {id i e}, f.inst? id = some i → f.Evolves F T id i e → T (.result id) e

def Memo.Sound (T : Value → Expr → Prop) (memo : Memo) : Prop :=
  ∀ id e, memo.known[id]? = some e → T (.result id) e

/-- The values in the slots that are looked up for an instruction. -/
def Func.asked (f : Func) (F : LoopForest) (id : InstId) (i : Instruction) : List Value :=
  match i.operation with
  | .arith .add l r | .arith .sub l r | .arith .mul l r => [l, r]
  | .arith .shl l r => if (shiftFactor? r).isSome then [l] else []
  | .cast _ source => [source]
  | .address base offset => [base, offset]
  | .phi incoming =>
    match (f.scope F).headerPhi? id incoming with
    | some p => [p.entering, p.next]
    | none => []
  | _ => []

/-- The result has property `P`, the memory has property `I` afterwards, and what `T` says of the
values found so far still holds. -/
def Carries {α : Type} (I : Memo → Prop) (T : Memo → Value → Expr → Prop) (memo : Memo)
    (x : StateM Memo α) (P : Memo → α → Prop) : Prop :=
  I (x.run memo).2 ∧ (∀ v e, T memo v e → T (x.run memo).2 v e) ∧ P (x.run memo).2 (x.run memo).1

/-- The result has property `P`, and the memory is sound afterwards and has lost nothing. -/
def Keeps {α : Type} (T : Value → Expr → Prop) (x : StateM Memo α) (P : α → Prop) : Prop :=
  ∀ memo : Memo, memo.Sound T → P (x.run memo).1 ∧ (x.run memo).2.Sound T ∧
    ∀ id ∈ memo.known, id ∈ (x.run memo).2.known

section
variable {f : Func} {F : LoopForest} {T : Value → Expr → Prop} {id : InstId} {i : Instruction}
  {fuel : Nat} {path : List InstId} {I : Memo → Prop} {J : Memo → Value → Expr → Prop} {memo : Memo}

theorem carries_pure {α : Type} {P : Memo → α → Prop} {a : α} (hm : I memo) (h : P memo a) :
    Carries I J memo (pure a) P :=
  ⟨hm, fun _ _ h => h, h⟩

theorem Carries.bind {α β : Type} {P : Memo → α → Prop} {Q : Memo → β → Prop} {x : StateM Memo α}
    {g : α → StateM Memo β} (hx : Carries I J memo x P)
    (hg : ∀ a after, I after → (∀ v e, J memo v e → J after v e) → P after a →
      Carries I J after (g a) Q) : Carries I J memo (x >>= g) Q := by
  obtain ⟨hm, hkeep, hP⟩ := hx
  obtain ⟨hm', hkeep', hQ⟩ := hg _ _ hm hkeep hP
  exact ⟨hm', fun v e h => hkeep' v e (hkeep v e h), hQ⟩

/-- What is found for an instruction comes of what is found for the slots it looks up. -/
theorem carries_evolve {value : Value → StateM Memo Expr}
    (hvalue : ∀ v ∈ f.asked F id i, ∀ memo, I memo →
      Carries I J memo (value v) fun after e => J after v e) (hm : I memo) :
    Carries I J memo (f.evolve F value id i) fun after e => f.Evolves F (J after) id i e := by
  have hsymbol : ∀ memo, I memo → Carries I J memo (pure (.unknown (.result id)))
      fun after e => f.Evolves F (J after) id i e := fun _ hm => carries_pure hm .symbol
  have both : ∀ {l r : Value} {g : Expr → Expr → Expr}, f.asked F id i = [l, r] →
      (∀ {T a b}, T l a → T r b → f.Evolves F T id i (g a b)) →
      Carries I J memo (do let a ← value l; let b ← value r; return g a b)
        fun after e => f.Evolves F (J after) id i e := by
    intro l r g hasked hg
    refine (hvalue l (by simp [hasked]) memo hm).bind fun a after hm _ ha => ?_
    refine (hvalue r (by simp [hasked]) after hm).bind fun b last hm hkeep hb => ?_
    exact carries_pure hm (hg (hkeep l a ha) hb)
  have one : ∀ {l : Value} {g : Expr → Expr}, f.asked F id i = [l] →
      (∀ {T a}, T l a → f.Evolves F T id i (g a)) →
      Carries I J memo (do let a ← value l; return g a)
        fun after e => f.Evolves F (J after) id i e := by
    intro l g hasked hg
    exact (hvalue l (by simp [hasked]) memo hm).bind fun a after hm _ ha => carries_pure hm (hg ha)
  unfold Func.evolve
  dsimp only
  split
  · rename_i l r ho
    exact both (by rw [Func.asked, ho]) fun ha hb => .add ho ha hb
  · rename_i l r ho
    exact both (by rw [Func.asked, ho]) fun ha hb => .sub ho ha hb
  · rename_i l r ho
    exact both (by rw [Func.asked, ho]) fun ha hb => .mul ho ha hb
  · rename_i l r ho
    split
    · rename_i c hc
      exact one (by simp [Func.asked, ho, hc]) fun ha => .shl ho hc ha
    · exact hsymbol memo hm
  · rename_i op source ho
    exact one (by rw [Func.asked, ho]) fun ha => .cast ho ha
  · rename_i base offset ho
    exact both (by rw [Func.asked, ho]) fun ha hb => .address ho ha hb
  · rename_i incoming ho
    split
    · exact hsymbol memo hm
    · rename_i p hp
      have hasked : f.asked F id i = [p.entering, p.next] := by simp [Func.asked, ho, hp]
      refine (hvalue p.entering (by simp [hasked]) memo hm).bind fun start after hm _ hstart => ?_
      split
      · rename_i hinv
        refine (hvalue p.next (by simp [hasked]) after hm).bind fun next last hm hkeep hnext =>
          carries_pure hm ?_
        cases hc : (f.scope F).close? p (.unknown (.result id)) start next with
        | none => exact .symbol
        | some e => exact .recurrence ho hp (hkeep _ _ hstart) hinv hnext hc
      · exact hsymbol after hm
  · exact hsymbol memo hm

theorem keeps_pure {α : Type} {P : α → Prop} {a : α} (h : P a) : Keeps T (pure a) P :=
  fun _ hm => ⟨h, hm, fun _ h => h⟩

theorem keeps_evolve {value : Value → StateM Memo Expr} (hvalue : ∀ v, Keeps T (value v) (T v)) :
    Keeps T (f.evolve F value id i) (f.Evolves F T id i) := by
  intro memo hm
  have hfound : Carries (fun after => after.Sound T ∧ ∀ id ∈ memo.known, id ∈ after.known)
      (fun _ => T) memo (f.evolve F value id i) fun _ e => f.Evolves F T id i e := by
    refine carries_evolve (fun v _ after h => ?_) ⟨hm, fun _ h => h⟩
    obtain ⟨hv, hsound, hkeep⟩ := hvalue v after h.1
    exact ⟨⟨hsound, fun id hid => hkeep id (h.2 id hid)⟩, fun _ _ h => h, hv⟩
  exact ⟨hfound.2.2, hfound.1⟩

theorem recall_run (memo : Memo) : (f.recall F (fuel + 1) path id).run memo =
    match memo.known[id]?, f.inst? id with
    | some e, _ => (e, memo)
    | none, none => (.unknown (.result id), memo)
    | none, some i =>
      if id ∈ path then (.unknown (.result id), ⟨memo.known, id :: memo.met⟩)
      else
        let found := (f.evolve F (f.valueBy (f.recall F fuel (id :: path))) id i).run ⟨memo.known, []⟩
        let unresolved := found.2.met.filter path.contains
        (found.1, ⟨if unresolved.isEmpty then found.2.known.insert id found.1 else found.2.known,
          unresolved ++ memo.met⟩) := by
  rw [Func.recall]
  change (match memo.known[id]?, f.inst? id with
    | some e, _ => (pure e : StateM Memo Expr)
    | none, none => pure (.unknown (.result id))
    | none, some i => _).run memo = _
  split
  · rfl
  · rfl
  · split
    · rfl
    · rfl

theorem Memo.getElem?_insert_known (known : Std.TreeMap InstId Expr) {j : InstId} {e : Expr} :
    (known.insert id e)[j]? = if id = j then some e else known[j]? := by
  rw [Std.TreeMap.getElem?_insert]
  simp only [Nat.compare_eq_eq]

theorem Memo.Sound.insert {memo : Memo} {e : Expr} {met : List InstId} (hm : memo.Sound T)
    (he : T (.result id) e) : Memo.Sound T ⟨memo.known.insert id e, met⟩ := by
  intro j e' hj
  rw [Memo.getElem?_insert_known] at hj
  split at hj
  · next heq => exact heq ▸ Option.some.inj hj ▸ he
  · exact hm j e' hj

theorem Func.valueBy_cases {m : Type → Type} [Monad m] (f : Func) (follow : InstId → m Expr)
    (u : Value) :
    (∃ j, u = .result j ∧ f.valueBy follow u = follow j) ∨ ∃ e, f.valueBy follow u = pure e := by
  cases u with
  | result j =>
    rw [Func.valueBy]
    split
    · exact .inl ⟨j, rfl, rfl⟩
    · exact .inr ⟨_, rfl⟩
  | literal l =>
    cases l with
    | int c bits => exact .inr ⟨_, rfl⟩
    | null => exact .inr ⟨_, rfl⟩
  | param k => exact .inr ⟨_, rfl⟩

theorem carries_valueBy {v : Value} {follow : InstId → StateM Memo Expr}
    (hfollow : ∀ j, v = .result j → Carries I J memo (follow j) fun after e => J after v e)
    (hsymbol : (∀ j, v = .result j → f.inst? j = none) → J memo v (.unknown v))
    (hliteral : ∀ c bits, v = .literal (.int c bits) → J memo v (.const c)) (hm : I memo) :
    Carries I J memo (f.valueBy follow v) fun after e => J after v e := by
  have hplain : (∀ j, v ≠ .result j) → J memo v (.unknown v) := fun h =>
    hsymbol fun j hj => absurd hj (h j)
  cases v with
  | result j =>
    rw [Func.valueBy]
    split
    · exact hfollow j rfl
    · next hlt =>
      refine carries_pure hm (hsymbol fun k hk => ?_)
      rw [← Value.result.inj hk, Func.inst?, Array.getElem?_eq_none (Nat.le_of_not_lt hlt),
        Option.map_none]
  | literal l =>
    cases l with
    | int c bits => exact carries_pure hm (hliteral c bits rfl)
    | null => exact carries_pure hm (hplain fun _ h => by cases h)
  | param k => exact carries_pure hm (hplain fun _ h => by cases h)

theorem keeps_valueBy (hT : f.Inherits F T) {follow : InstId → StateM Memo Expr}
    (hfollow : ∀ id, Keeps T (follow id) (T (.result id))) (v : Value) :
    Keeps T (f.valueBy follow v) (T v) := by
  cases v with
  | result j =>
    rw [Func.valueBy]
    split
    · exact hfollow j
    · exact keeps_pure (hT.symbol _)
  | literal l =>
    cases l with
    | int c bits => exact keeps_pure (hT.literal c bits)
    | null => exact keeps_pure (hT.symbol _)
  | param p => exact keeps_pure (hT.symbol _)

theorem keeps_recall (hT : f.Inherits F T) :
    Keeps T (f.recall F fuel path id) (T (.result id)) := by
  -- the fuel bounds the depth of the search; sound memory is handed from one operand to the next
  induction fuel generalizing path id with
  | zero => exact keeps_pure (hT.symbol _)
  | succ fuel ih =>
    intro memo hm
    rw [recall_run]
    split
    · rename_i e he
      exact ⟨hm id e he, hm, fun _ h => h⟩
    · exact ⟨hT.symbol _, hm, fun _ h => h⟩
    · rename_i i _ hi
      split
      · exact ⟨hT.symbol _, hm, fun _ h => h⟩
      · have hfound : Keeps T (f.evolve F (f.valueBy (f.recall F fuel (id :: path))) id i)
            (f.Evolves F T id i) := keeps_evolve (keeps_valueBy hT fun _ => ih)
        obtain ⟨hP, hm', hsub⟩ := hfound ⟨memo.known, []⟩ hm
        have he := hT.evolves hi hP
        refine ⟨he, ?_⟩
        dsimp only
        split
        · exact ⟨hm'.insert he, fun j hj => Std.TreeMap.mem_insert.mpr (.inr (hsub j hj))⟩
        · exact ⟨hm', hsub⟩

theorem known_recall (hi : f.inst? id = some i) {memo : Memo} :
    id ∈ ((f.recall F (fuel + 1) [] id).run memo).2.known := by
  rw [recall_run]
  cases hk : memo.known[id]? with
  | some e => exact Std.TreeMap.mem_iff_isSome_getElem?.mpr (by rw [hk]; rfl)
  | none =>
    simp [hi]

/-- Asking for an instruction from the start, as is done for each that is listed. -/
def Func.ask (f : Func) (F : LoopForest) (memo : Memo) (id : InstId) : Memo :=
  if ((f.inst? id).map Instruction.hasResult).getD false then
    ((f.recall F (f.arena.size + 1) [] id).run memo).2
  else memo

theorem Func.evolution_eq : f.evolution F = ⟨(f.listedIds.foldl (f.ask F) ⟨∅, []⟩).known⟩ := rfl

theorem ask_spec (hT : f.Inherits F T) {memo : Memo} (hm : memo.Sound T) :
    (f.ask F memo id).Sound T ∧ ∀ j ∈ memo.known, j ∈ (f.ask F memo id).known := by
  rw [Func.ask]
  split
  · exact (keeps_recall hT memo hm).2
  · exact ⟨hm, fun _ h => h⟩

/-- Whatever the analysis tells has a property that passes from operands to results. -/
theorem Func.oracle_of_inherits (hT : f.Inherits F T) {e : Expr}
    (h : (f.evolution F).oracle id = some e) : T (.result id) e := by
  have key : ∀ (ids : List InstId) (memo : Memo), memo.Sound T →
      (ids.foldl (f.ask F) memo).Sound T := by
    intro ids
    induction ids with
    | nil => exact fun _ hm => hm
    | cons j ids ih => exact fun memo hm => ih _ (ask_spec hT hm).1
  rw [evolution_eq] at h
  exact key f.listedIds ⟨∅, []⟩ (fun j e hj => by simp at hj) id e h

theorem Func.exists_oracle (hid : id ∈ f.listedIds) (hi : f.inst? id = some i)
    (hres : i.hasResult = true) : ∃ e, (f.evolution F).oracle id = some e := by
  have hT : f.Inherits F fun _ _ => True := ⟨fun _ => trivial, fun _ _ => trivial, fun _ _ => trivial⟩
  have hsound : ∀ memo : Memo, memo.Sound fun _ _ => True := fun _ _ _ _ => trivial
  have key : ∀ (ids : List InstId) (memo : Memo), (id ∈ memo.known ∨ id ∈ ids) →
      id ∈ (ids.foldl (f.ask F) memo).known := by
    intro ids
    induction ids with
    | nil => exact fun memo h => h.resolve_right List.not_mem_nil
    | cons j ids ih =>
      intro memo h
      refine ih _ ?_
      cases h with
      | inl h => exact .inl ((ask_spec hT (hsound memo)).2 id h)
      | inr h =>
        cases h with
        | head =>
          refine .inl ?_
          rw [ask, hi, Option.map_some, Option.getD_some, hres, if_pos rfl]
          exact known_recall hi
        | tail _ h => exact .inr h
  exact Option.isSome_iff_exists.mp
    (Std.TreeMap.mem_iff_isSome_getElem?.mp (key f.listedIds ⟨∅, []⟩ (.inr hid)))

end

/-! ### The memory in the course of the search -/

/-- What was known stays known, and what was met stays met. -/
structure Memo.Extends (memo after : Memo) : Prop where
  known : ∀ (id : InstId) (e : Expr), memo.known[id]? = some e → after.known[id]? = some e
  met : memo.met ⊆ after.met

theorem Memo.Extends.refl (memo : Memo) : memo.Extends memo := ⟨fun _ _ h => h, fun _ h => h⟩

theorem Memo.Extends.trans {a b c : Memo} (h : a.Extends b) (h' : b.Extends c) : a.Extends c :=
  ⟨fun id e he => h'.known id e (h.known id e he), fun _ hw => h'.met (h.met hw)⟩

namespace Memo
variable {memo after : Memo} {path : List InstId} {id j : InstId} {e e' : Expr}

/-- The memory once the value of an instruction is found, which is remembered if it rests on nothing
in progress. -/
def leave (memo after : Memo) (path : List InstId) (id : InstId) (e : Expr) : Memo :=
  let unresolved := after.met.filter path.contains
  ⟨if unresolved.isEmpty then after.known.insert id e else after.known, unresolved ++ memo.met⟩

theorem known_leave_of_ne (hne : id ≠ j) :
    (memo.leave after path id e).known[j]? = after.known[j]? := by
  unfold leave
  dsimp only
  split
  · rw [getElem?_insert_known, if_neg hne]
  · rfl

theorem known_leave_of_known (hnew : after.known[id]? = none) (hj : after.known[j]? = some e') :
    (memo.leave after path id e).known[j]? = some e' := by
  rw [known_leave_of_ne, hj]
  rintro rfl
  cases hnew.symm.trans hj

theorem apart_leave (ha : ∀ j ∈ id :: path, after.known[j]? = none) (hnot : id ∉ path) :
    ∀ j ∈ path, (memo.leave after path id e).known[j]? = none := by
  intro j hj
  rw [known_leave_of_ne]
  · exact ha j (List.mem_cons_of_mem id hj)
  · rintro rfl
    exact hnot hj

theorem mem_met_leave {w : InstId} : w ∈ (memo.leave after path id e).met ↔
    (w ∈ after.met ∧ w ∈ path) ∨ w ∈ memo.met := by
  simp [leave]

/-- What is remembered afterwards is new and rests on nothing in progress, or it was remembered
before. -/
theorem known_leave_cases (h : (memo.leave after path id e).known[j]? = some e') :
    (id = j ∧ e = e' ∧ ∀ w ∈ after.met, w ∉ path) ∨ after.known[j]? = some e' := by
  by_cases hj : id = j
  · unfold leave at h
    dsimp only at h
    split at h
    · next hnone =>
      rw [getElem?_insert_known, if_pos hj] at h
      refine .inl ⟨hj, Option.some.inj h, fun w hw hpath => ?_⟩
      have hmem : w ∈ after.met.filter path.contains :=
        List.mem_filter.mpr ⟨hw, by simpa using hpath⟩
      rw [List.isEmpty_iff.mp hnone] at hmem
      cases hmem
    · exact .inr h
  · rw [known_leave_of_ne hj] at h
    exact .inr h

theorem mem_known_leave (h : j ∈ after.known) : j ∈ (memo.leave after path id e).known := by
  unfold leave
  dsimp only
  split
  · exact Std.TreeMap.mem_insert.mpr (.inr h)
  · exact h

theorem known_leave_self (hnone : ∀ w ∈ after.met, w ∉ path) :
    (memo.leave after path id e).known[id]? = some e := by
  have hempty : after.met.filter path.contains = [] :=
    List.filter_eq_nil_iff.mpr fun w hw => by simpa using hnone w hw
  simp only [leave, hempty, List.isEmpty_nil, if_true, getElem?_insert_known]

theorem extends_leave (hx : Extends ⟨memo.known, []⟩ after) (hnew : memo.known[id]? = none) :
    memo.Extends (memo.leave after path id e) where
  known j e' hj := by
    rw [known_leave_of_ne]
    · exact hx.known j e' hj
    · rintro rfl
      rw [hnew] at hj
      cases hj
  met := List.subset_append_right _ _

end Memo

end LoopStride
