import Mathlib.Logic.Relation
import LoopStride.Proofs.Evolution.Headers
import LoopStride.Proofs.Evolution.Memo

/-! What the value of an instruction is made of, and which values are looked up for it. Nothing comes
in that was not in the values of its operands, apart from its own symbol, which is then the whole
value. The look-ups that may be in progress at one time form a path that holds no instruction
twice, so that the bound of the depth is never used up; what passes from the look-ups below one to
that one holds of all of them, and what each of them keeps holds in the end. -/
namespace LoopStride

/-- A conversion keeps the value, or gives a constant, or stands for itself. -/
theorem convert_cases (op : CastOp) (source target : Option Nat) (symbol e : Expr) :
    convert op source target symbol e = e ∨ (∃ c, convert op source target symbol e = .const c) ∨
      convert op source target symbol e = symbol := by
  have hwidth : ∀ (width : Option Nat) (g : Nat → Int64),
      (∃ c, (width.map fun bits => Expr.const (g bits)).getD symbol = .const c) ∨
        (width.map fun bits => Expr.const (g bits)).getD symbol = symbol := by
    intro width g
    cases width with
    | none => exact .inr rfl
    | some bits => exact .inl ⟨g bits, rfl⟩
  unfold convert
  split
  · split
    · exact .inr (hwidth source _)
    · exact .inl rfl
  · exact .inr (hwidth target _)
  · exact .inr (.inr rfl)
  · exact .inl rfl

namespace Scope
variable {S : Scope} {p : HeaderPhi} {symbol start next e : Expr}

/-- The recurrence of a merge has operands that its loop leaves alone, made of nothing new. -/
theorem close?_madeOf (h : S.close? p symbol start next = some e)
    (hregular : next.MadeOf S.regular) (hinv : S.isInvariant p.loop start = true) :
    ∃ ops, e = .recurrenceOf p.header (start :: ops) ∧
      ∀ o ∈ start :: ops, S.isInvariant p.loop o = true ∧
        ∀ M, S.Stable M → start.MadeOf M → next.MadeOf M → o.MadeOf M := by
  obtain ⟨inc, ops, hinc, rfl, hops, hshape⟩ := close?_eq_some h hregular
  refine ⟨ops, rfl, List.forall_mem_cons.mpr ⟨⟨hinv, fun _ _ hstart _ => hstart⟩, fun o ho => ?_⟩⟩
  refine ⟨hops o ho, fun M hM _ hnext => ?_⟩
  have hmade := madeOf_without hM hinc hnext
  rcases hshape with rfl | ⟨k, rfl, -⟩
  · exact List.mem_singleton.mp ho ▸ hmade
  · exact (Expr.madeOf_recurrence.mp hmade).2.2 o ho

end Scope

namespace Func
variable {f : Func} {F : LoopForest} {T : Value → Expr → Prop} {M : Makeup} {id : InstId}
  {i : Instruction} {e : Expr}

/-- What is found for an instruction that is no merge is made of what is found for its operands, or
is its own symbol. -/
theorem Evolves.madeOf_of_operands (hM : (f.scope F).Stable M) (hphi : i.isPhi = false)
    (hT : ∀ v ∈ i.operands, ∀ a, T v a → a.MadeOf M) (he : f.Evolves F T id i e) :
    e = .unknown (.result id) ∨ e.MadeOf M := by
  have hop : ∀ {o : Operation}, i.operation = o → i.operands = o.operands := fun ho => by
    rw [Instruction.operands, ho]
  cases he with
  | symbol => exact .inl rfl
  | add ho ha hb | address ho ha hb =>
    rw [hop ho, Operation.operands, forall_mem_pair] at hT
    exact .inr (hM.madeOf_add (forall_mem_pair.mpr ⟨hT.1 _ ha, hT.2 _ hb⟩))
  | sub ho ha hb =>
    rw [hop ho, Operation.operands, forall_mem_pair] at hT
    exact .inr (hM.madeOf_add (forall_mem_pair.mpr ⟨hT.1 _ ha, hM.madeOf_scale (hT.2 _ hb)⟩))
  | mul ho ha hb =>
    rw [hop ho, Operation.operands, forall_mem_pair] at hT
    exact .inr (hM.madeOf_mul (hT.1 _ ha) (hT.2 _ hb))
  | shl ho _ ha =>
    rw [hop ho, Operation.operands, forall_mem_pair] at hT
    exact .inr (hM.madeOf_scale (hT.1 _ ha))
  | @cast op source a ho ha =>
    rw [hop ho, Operation.operands, List.forall_mem_singleton] at hT
    rcases convert_cases op (f.width? source) i.ty.width? (.unknown (.result id)) a with
      hc | ⟨c, hc⟩ | hc
    · exact .inr (by rw [hc]; exact hT a ha)
    · exact .inr (by rw [hc]; exact Expr.madeOf_const)
    · exact .inl hc
  | recurrence ho =>
    rw [Instruction.isPhi_iff.mpr ⟨_, ho⟩] at hphi
    cases hphi

/-- What is found for an instruction is made of what is found for its operands, or is its own
symbol. -/
theorem Evolves.madeOf (hM : (f.scope F).Stable M)
    (hop : ∀ {h l o}, (f.scope F).forest.ofHeader? h = some l →
      (f.scope F).isInvariant l o = true → M.operand h o)
    (hT : ∀ v a, T v a → a.MadeOf (f.scope F).regular ∧ a.MadeOf M)
    (he : f.Evolves F T id i e) : e = .unknown (.result id) ∨ e.MadeOf M := by
  cases hphi : i.isPhi with
  | false => exact he.madeOf_of_operands hM hphi fun v _ a ha => (hT v a ha).2
  | true =>
    cases he with
    | symbol => exact .inl rfl
    | recurrence _ hp hstart hinv hnext hclose =>
      obtain ⟨hregular, hnext⟩ := hT _ _ hnext
      obtain ⟨ops, rfl, hops⟩ := Scope.close?_madeOf hclose hregular hinv
      have hl := (Scope.headerPhi?_eq_some hp).2.1
      exact .inr (.recurrenceOf hM.least_le (by simp) (fun o ho => hop hl (hops o ho).1)
        fun o ho => (hops o ho).2 M hM (hT _ _ hstart).2 hnext)
    | add ho | sub ho | mul ho | shl ho | cast ho | address ho =>
      simp [Instruction.isPhi, Instruction.opcode, ho, Operation.opcode] at hphi

theorem Evolves.regular (hT : ∀ v a, T v a → a.MadeOf (f.scope F).regular)
    (he : f.Evolves F T id i e) : e.MadeOf (f.scope F).regular := by
  have hmade := he.madeOf Scope.stable_regular (fun hl hinv => ⟨_, hl, hinv⟩)
    fun v a ha => ⟨hT v a ha, hT v a ha⟩
  rcases hmade with rfl | hmade
  · exact Expr.madeOf_unknown.mpr trivial
  · exact hmade

theorem Evolves.symbols {A : Value → Prop}
    (hT : ∀ v a, T v a → a.MadeOf (f.scope F).regular ∧ ∀ w ∈ a.symbols, A w)
    (he : f.Evolves F T id i e) : e = .unknown (.result id) ∨ ∀ w ∈ e.symbols, A w := by
  have hM : (f.scope F).Stable (.plain 1 A fun _ => True) :=
    Scope.stable_plain (Nat.le_refl 1) (Nat.le_succ 1)
  refine (he.madeOf hM (fun _ _ => trivial) fun v a ha => ?_).imp_right fun h w hw => h.symbol hw
  obtain ⟨hregular, hA⟩ := hT v a ha
  exact ⟨hregular, (hregular.proper (Nat.le_succ 1)).of_symbols hA⟩

/-! ### Look-ups -/

/-- The instructions whose values are looked up for that of an instruction. -/
def asksFor (f : Func) (F : LoopForest) (a : InstId) : List InstId :=
  (((f.inst? a).map (f.asked F a)).getD []).filterMap Value.result?

/-- The value of the instruction is looked up in the course of finding it. -/
def OnCycle (f : Func) (F : LoopForest) (id : InstId) : Prop :=
  Relation.TransGen (fun a b => b ∈ f.asksFor F a) id id

/-- When `s` is asked for and those of `before` are known, an instruction may be looked up while those
of a path are in progress, the latest first. What is known or in progress is not taken up again. -/
inductive Calls (f : Func) (F : LoopForest) (before : List InstId) (s : InstId) :
    List InstId → InstId → Prop where
  | start : Calls f F before s [] s
  | ask {path : List InstId} {a b : InstId} (h : Calls f F before s path a) (hbefore : a ∉ before)
    (hpath : a ∉ path) (hb : b ∈ f.asksFor F a) : Calls f F before s (a :: path) b

variable {before path inner outer : List InstId} {s a b z y : InstId}

theorem mem_asksFor (hi : f.inst? a = some i) (hb : .result b ∈ f.asked F a i) :
    b ∈ f.asksFor F a := by
  rw [asksFor, hi]
  exact List.mem_filterMap.mpr ⟨_, hb, rfl⟩

theorem lt_size_of_mem_asksFor (hb : b ∈ f.asksFor F a) : a < f.arena.size := by
  rw [asksFor] at hb
  cases hi : f.inst? a with
  | none => simp [hi] at hb
  | some i => exact lt_size_of_inst? hi

theorem Calls.nodup (h : f.Calls F before s path b) : path.Nodup := by
  induction h with
  | start => exact List.nodup_nil
  | ask _ _ hpath _ ih => exact List.nodup_cons.mpr ⟨hpath, ih⟩

theorem Calls.length_le (h : f.Calls F before s path b) : path.length ≤ f.arena.size := by
  have hlt : ∀ a ∈ path, a < f.arena.size := by
    induction h with
    | start => simp
    | ask _ _ _ hb ih => exact List.forall_mem_cons.mpr ⟨lt_size_of_mem_asksFor hb, ih⟩
  have hsub : path ⊆ List.range f.arena.size := fun a ha => List.mem_range.mpr (hlt a ha)
  simpa using (h.nodup.subperm hsub).length_le

/-- What is in progress from `z` on leads from `z` to the look-up. -/
theorem Calls.chain (h : f.Calls F before s (inner ++ z :: outer) b) (hy : y ∈ z :: inner) :
    Relation.ReflTransGen (fun a b => b ∈ f.asksFor F a) z y ∧
      Relation.TransGen (fun a b => b ∈ f.asksFor F a) y b := by
  induction inner generalizing b y with
  | nil =>
    cases h with
    | ask _ _ _ hb =>
      obtain rfl := List.mem_singleton.mp hy
      exact ⟨.refl, .single hb⟩
  | cons a inner ih =>
    cases h with
    | ask h _ _ hb =>
      have hz := (ih h List.mem_cons_self).2
      rcases List.mem_cons.mp hy with rfl | hy
      · exact ⟨.refl, hz.tail hb⟩
      rcases List.mem_cons.mp hy with rfl | hy
      · exact ⟨hz.to_reflTransGen, .single hb⟩
      · exact (ih h (List.mem_cons_of_mem z hy)).imp_right fun h => h.tail hb

/-- Where a look-up meets an instruction in progress, everything in progress since is on a cycle. -/
theorem Calls.onCycle (h : f.Calls F before s (inner ++ z :: outer) z) (hy : y ∈ z :: inner) :
    f.OnCycle F y :=
  (h.chain hy).2.trans_left (h.chain hy).1

/-- A list of look-ups that holds the first one and those that follow holds them all. -/
theorem Calls.mem_of_closed {calls : List (List InstId × InstId)} (hstart : ([], s) ∈ calls)
    (hask : ∀ c ∈ calls, c.2 ∉ before → c.2 ∉ c.1 → ∀ b ∈ f.asksFor F c.2, (c.2 :: c.1, b) ∈ calls)
    (h : f.Calls F before s path a) : (path, a) ∈ calls := by
  induction h with
  | start => exact hstart
  | ask _ hbefore hpath hb ih => exact hask _ ih hbefore hpath _ hb

/-! ### The search -/

/-- A property of all look-ups, shown for each from those below it. The induction is on the bound of
the depth, which the look-ups in progress never use up. -/
theorem recall_induct (Inv : List InstId → Memo → Prop)
    (Found : List InstId → Memo → InstId → Expr × Memo → Prop)
    (asked : ∀ {path memo}, Inv path memo → ∀ id ∈ before, id ∈ memo.known)
    (known : ∀ {path memo id e}, Inv path memo → memo.known[id]? = some e →
      Found path memo id (e, memo))
    (missing : ∀ {path memo id}, Inv path memo → f.inst? id = none →
      Found path memo id (.unknown (.result id), memo))
    (meets : ∀ {path memo id}, f.Calls F before s path id → Inv path memo → id ∈ path →
      Found path memo id (.unknown (.result id), ⟨memo.known, id :: memo.met⟩))
    (leave : ∀ {path memo id i} {follow : InstId → StateM Memo Expr}, Inv path memo →
      memo.known[id]? = none → f.inst? id = some i → id ∉ path →
      (∀ j m, .result j ∈ f.asked F id i → Inv (id :: path) m →
        Found (id :: path) m j ((follow j).run m)) →
      let below := (f.evolve F (f.valueBy follow) id i).run ⟨memo.known, []⟩
      Found path memo id (below.1, memo.leave below.2 path id below.1))
    {fuel : Nat} {memo : Memo} (hc : f.Calls F before s path id)
    (hfuel : f.arena.size < fuel + path.length) (hm : Inv path memo) :
    Found path memo id ((f.recall F fuel path id).run memo) := by
  induction fuel generalizing path id memo with
  | zero =>
    have := hc.length_le
    omega
  | succ fuel ih =>
    rw [recall_run]
    split
    · next e he => exact known hm he
    · next _ hi => exact missing hm hi
    · next i hnew hi =>
      split
      · next hpath => exact meets hc hm hpath
      · next hpath =>
        have hbefore : id ∉ before := fun h => by
          have hknown := Std.TreeMap.mem_iff_isSome_getElem?.mp (asked hm id h)
          rw [hnew] at hknown
          cases hknown
        refine leave hm hnew hi hpath fun j m hj hm => ?_
        exact ih (.ask hc hbefore hpath (mem_asksFor hi hj)) (by rw [List.length_cons]; omega) hm

/-! ### The order of asking -/

/-- The listed instructions with a result, in the order in which they are asked for. -/
def wanted (f : Func) : List InstId :=
  f.listedIds.filter fun id => ((f.inst? id).map Instruction.hasResult).getD false

theorem evolution_eq_foldl_wanted : f.evolution F =
    ⟨(f.wanted.foldl (fun memo id => ((f.recall F (f.arena.size + 1) [] id).run memo).2)
      ⟨∅, []⟩).known⟩ := by
  rw [wanted, List.foldl_filter]
  rfl

theorem inst?_of_mem_wanted (h : y ∈ f.wanted) : ∃ i, f.inst? y = some i := by
  have hresult := (List.mem_filter.mp h).2
  cases hi : f.inst? y with
  | none => simp [hi] at hresult
  | some i => exact ⟨i, rfl⟩

/-- Every instruction of a list has property `P` with those ahead of it, the latest first. -/
def InTurn (P : List InstId → InstId → Prop) : List InstId → List InstId → Prop
  | _, [] => True
  | before, s :: rest => P before s ∧ InTurn P (s :: before) rest

theorem inTurn_of_forall {P : List InstId → InstId → Prop} {ids : List InstId}
    (h : ∀ before s, P before s) : InTurn P before ids := by
  induction ids generalizing before with
  | nil => trivial
  | cons s ids ih => exact ⟨h before s, ih⟩

theorem InTurn.mono_of_mem {P Q : List InstId → InstId → Prop} {ids : List InstId}
    (hPQ : ∀ before, ∀ s ∈ ids, P before s → Q before s) (h : InTurn P before ids) :
    InTurn Q before ids := by
  induction ids generalizing before with
  | nil => trivial
  | cons s ids ih =>
    exact ⟨hPQ before s List.mem_cons_self h.1,
      ih (fun before z hz => hPQ before z (List.mem_cons_of_mem s hz)) h.2⟩

theorem InTurn.mono {P Q : List InstId → InstId → Prop} {ids : List InstId}
    (hPQ : ∀ before s, P before s → Q before s) (h : InTurn P before ids) : InTurn Q before ids :=
  h.mono_of_mem fun before s _ => hPQ before s

/-- What holds of the empty memory and is kept by asking, in turn, holds of the memory in the end. -/
theorem evolution_induct (Inv : List InstId → Memo → Prop) (hstart : Inv [] ⟨∅, []⟩)
    (hask : InTurn (fun before s => ∀ memo, Inv before memo →
      Inv (s :: before) ((f.recall F (f.arena.size + 1) [] s).run memo).2) [] f.wanted) :
    ∃ before memo, Inv before memo ∧ f.evolution F = ⟨memo.known⟩ := by
  have key : ∀ (ids before : List InstId) (memo : Memo), Inv before memo →
      InTurn (fun before s => ∀ memo, Inv before memo →
        Inv (s :: before) ((f.recall F (f.arena.size + 1) [] s).run memo).2) before ids →
      ∃ last, Inv last (ids.foldl
        (fun memo id => ((f.recall F (f.arena.size + 1) [] id).run memo).2) memo) := by
    intro ids
    induction ids with
    | nil => exact fun before memo hm _ => ⟨before, hm⟩
    | cons s ids ih => exact fun before memo hm hturn => ih _ _ (hturn.1 memo hm) hturn.2
  obtain ⟨last, hm⟩ := key f.wanted [] ⟨∅, []⟩ hstart hask
  exact ⟨last, _, hm, evolution_eq_foldl_wanted⟩

end Func
end LoopStride
