import LoopStride.Proofs.Evolution.Lookups

/-! What becomes of placeholders. A value that still rests on the placeholder of something in progress
is not remembered; but a merge that does not close because of a placeholder stands for itself, and
its symbol may be left in a value that is remembered. What is proved is how far this goes: such a
merge is on a cycle of look-ups, and there is none if every cycle is entered by a merge in the header
of a loop that holds the rest of it. -/
namespace LoopStride

namespace Func

/-- How values rest on placeholders: `tie y z` if that of `y` may rest on the placeholder of `z`. Once
`z` is done with and has a closed form, a symbol in it that is tied to it is loose. -/
structure Ties (f : Func) (F : LoopForest) where
  tie : InstId → InstId → Prop
  loose : InstId → Prop
  closes : ∀ {T z i e y}, (∀ v a, T v a → a.MadeOf (f.scope F).regular) → f.inst? z = some i →
    f.Evolves F T z i e → e ≠ .unknown (.result z) → .result y ∈ e.symbols → tie y z → loose y

namespace Ties

section
variable {f : Func} {F : LoopForest} (D : f.Ties F)

/-- Instruction `w` of a path has everything tied to it that came into progress since. -/
def Holds (path : List InstId) (w : InstId) : Prop :=
  w ∈ path ∧ D.tie w w ∧ ∀ inner outer, path = inner ++ w :: outer → ∀ y ∈ inner, D.tie y w

/-- Whatever is met again holds what is in progress since. -/
def Meets (before : List InstId) (s : InstId) : Prop :=
  ∀ path z, f.Calls F before s path z → z ∈ path → D.Holds path z

/-- The symbol of `y` is all there is to know of `y`, or it is loose. -/
def Settled (known : Std.TreeMap InstId Expr) (y : InstId) : Prop :=
  known[y]? = some (.unknown (.result y)) ∨ f.inst? y = none ∨ D.loose y

/-- The symbols of a value are settled or tied to something that was met again. -/
def Accounts (memo : Memo) (e : Expr) : Prop :=
  e.MadeOf (f.scope F).regular ∧
    ∀ y, .result y ∈ e.symbols → D.Settled memo.known y ∨ ∃ w ∈ memo.met, D.tie y w

/-- The memory while a path is in progress and those of `before` have been asked for. -/
structure Ordered (before path : List InstId) (memo : Memo) : Prop where
  apart : ∀ id ∈ path, memo.known[id]? = none
  asked : ∀ id ∈ before, id ∈ memo.known
  known : ∀ (id : InstId) (e : Expr), memo.known[id]? = some e →
    e.MadeOf (f.scope F).regular ∧ ∀ y, .result y ∈ e.symbols → D.Settled memo.known y
  met : ∀ w ∈ memo.met, D.Holds path w

end

variable {f : Func} {F : LoopForest} {D : f.Ties F} {memo after : Memo} {id s y w : InstId}
  {i : Instruction} {e : Expr} {before path : List InstId} {fuel : Nat} {v : Value}

theorem Holds.of_cons (h : D.Holds (id :: path) w) (hw : w ∈ path) : D.Holds path w :=
  ⟨hw, h.2.1, fun inner outer hsplit y hy =>
    h.2.2 (id :: inner) outer (by rw [hsplit]; rfl) y (List.mem_cons_of_mem id hy)⟩

theorem Holds.tie_head (h : D.Holds (id :: path) w) (hw : w ∈ path) : D.tie id w := by
  obtain ⟨inner, outer, hsplit⟩ := List.append_of_mem hw
  exact h.2.2 (id :: inner) outer (by rw [hsplit]; rfl) id List.mem_cons_self

theorem Settled.mono (h : D.Settled memo.known y) (hx : memo.Extends after) :
    D.Settled after.known y :=
  h.imp_left (hx.known y _)

theorem Accounts.mono (h : D.Accounts memo e) (hx : memo.Extends after) : D.Accounts after e :=
  ⟨h.1, fun y hy => (h.2 y hy).imp (·.mono hx) fun ⟨w, hw, ht⟩ => ⟨w, hx.met hw, ht⟩⟩

theorem accounts_symbol
    (h : ∀ y, v = .result y → D.Settled memo.known y ∨ ∃ w ∈ memo.met, D.tie y w) :
    D.Accounts memo (.unknown v) :=
  ⟨Expr.madeOf_unknown.mpr trivial, fun y hy => h y (List.mem_singleton.mp hy).symm⟩

theorem accounts_missing (hi : f.inst? id = none) : D.Accounts memo (.unknown (.result id)) :=
  accounts_symbol fun y hy => .inl (.inr (.inl (by rw [← Value.result.inj hy]; exact hi)))

theorem Ordered.accounts (hm : D.Ordered before path memo) (he : memo.known[id]? = some e) :
    D.Accounts memo e :=
  (hm.known id e he).imp_right fun h y hy => .inl (h y hy)

/-! ### When an instruction is done with -/

/-- A symbol of what is found for an instruction is its own, settled, or tied to something further
up the path. -/
theorem Ordered.symbol_cases (ha : D.Ordered before (id :: path) after) (hi : f.inst? id = some i)
    (he : f.Evolves F (fun _ => D.Accounts after) id i e) (hy : .result y ∈ e.symbols) :
    (y = id ∧ e = .unknown (.result id)) ∨ D.Settled after.known y ∨
      ∃ w ∈ after.met, w ∈ path ∧ D.tie y w := by
  by_cases hself : e = .unknown (.result id)
  · subst hself
    exact .inl ⟨Value.result.inj (List.mem_singleton.mp hy), rfl⟩
  refine .inr ?_
  have hsymbols := he.symbols (A := fun v => ∀ y, v = .result y →
    D.Settled after.known y ∨ ∃ w ∈ after.met, D.tie y w)
    fun _ a ha => ⟨ha.1, fun w hw y hy => ha.2 y (hy ▸ hw)⟩
  refine (hsymbols.resolve_left hself _ hy y rfl).elim .inl fun ⟨w, hw, ht⟩ => ?_
  rcases List.mem_cons.mp (ha.met w hw).1 with rfl | hpath
  · exact .inl (.inr (.inr (D.closes (fun _ _ => And.left) hi he hself hy ht)))
  · exact .inr ⟨w, hw, hpath, ht⟩

theorem Settled.leave (h : D.Settled after.known y) (hnew : after.known[id]? = none) :
    D.Settled (memo.leave after path id e).known y :=
  h.imp_left (Memo.known_leave_of_known hnew)

/-- What the value of an instruction is left with is settled or tied to something further up, whether
the value is remembered or not. -/
theorem Ordered.symbols_leave (ha : D.Ordered before (id :: path) after) (hi : f.inst? id = some i)
    (he : f.Evolves F (fun _ => D.Accounts after) id i e) (hy : .result y ∈ e.symbols) :
    D.Settled (memo.leave after path id e).known y ∨
      ∃ w ∈ after.met, w ∈ path ∧ D.tie y w := by
  rcases ha.symbol_cases hi he hy with ⟨rfl, rfl⟩ | hy | htied
  · by_cases hnone : ∀ w ∈ after.met, w ∉ path
    · exact .inl (.inl (Memo.known_leave_self hnone))
    · -- what rests on something further up is not remembered
      obtain ⟨w, hw, hpath⟩ : ∃ w ∈ after.met, w ∈ path := by simpa using hnone
      exact .inr ⟨w, hw, hpath, (ha.met w hw).tie_head hpath⟩
  · exact .inl (hy.leave (ha.apart id List.mem_cons_self))
  · exact .inr htied

/-- The memory once the value of an instruction is found, and what the value is left with. -/
theorem Ordered.leave (hm : D.Ordered before path memo)
    (ha : D.Ordered before (id :: path) after) (hnot : id ∉ path) (hi : f.inst? id = some i)
    (he : f.Evolves F (fun _ => D.Accounts after) id i e) :
    D.Ordered before path (memo.leave after path id e) ∧
      D.Accounts (memo.leave after path id e) e := by
  have hregular := he.regular fun _ _ => And.left
  have hnew := ha.apart id List.mem_cons_self
  refine ⟨⟨Memo.apart_leave ha.apart hnot, fun j hj => Memo.mem_known_leave (ha.asked j hj),
    fun j e' hj => ?_, fun w hw => ?_⟩, hregular, fun y hy => ?_⟩
  · rcases Memo.known_leave_cases hj with ⟨rfl, rfl, hnone⟩ | hj
    · refine ⟨hregular, fun y hy => (ha.symbols_leave hi he hy).resolve_right ?_⟩
      rintro ⟨w, hw, hpath, -⟩
      exact hnone w hw hpath
    · exact (ha.known j e' hj).imp_right fun h y hy => (h y hy).leave hnew
  · rcases Memo.mem_met_leave.mp hw with ⟨hw, hpath⟩ | hw
    · exact (ha.met w hw).of_cons hpath
    · exact hm.met w hw
  · exact (ha.symbols_leave hi he hy).imp_right fun ⟨w, hw, hpath, ht⟩ =>
      ⟨w, Memo.mem_met_leave.mpr (.inl ⟨hw, hpath⟩), ht⟩

/-! ### The search -/

/-- A look-up keeps the memory in order and accounts for what it gives. -/
theorem Ordered.lookUp (hD : D.Meets before s) (hc : f.Calls F before s path id)
    (hfuel : f.arena.size < fuel + path.length) (hm : D.Ordered before path memo) :
    let found := (f.recall F fuel path id).run memo
    D.Ordered before path found.2 ∧ memo.Extends found.2 ∧ D.Accounts found.2 found.1 := by
  refine recall_induct (D.Ordered before) (fun path memo _ found => D.Ordered before path found.2 ∧
    memo.Extends found.2 ∧ D.Accounts found.2 found.1) Ordered.asked
    (fun hm he => ⟨hm, .refl _, hm.accounts he⟩) (fun hm hi => ⟨hm, .refl _, accounts_missing hi⟩)
    (fun hc hm hpath => ?meets) (fun hm hnew hi hpath hfollow => ?leave) hc hfuel hm
  case meets path memo id =>
    have hholds := hD path id hc hpath
    refine ⟨⟨hm.apart, hm.asked, hm.known, List.forall_mem_cons.mpr ⟨hholds, hm.met⟩⟩,
      ⟨fun _ _ h => h, List.subset_cons_self _ _⟩, accounts_symbol fun y hy => ?_⟩
    obtain rfl := Value.result.inj hy
    exact .inr ⟨id, List.mem_cons_self, hholds.2.1⟩
  case leave path memo id i follow =>
    have hstart : D.Ordered before (id :: path) ⟨memo.known, []⟩ :=
      ⟨List.forall_mem_cons.mpr ⟨hnew, hm.apart⟩, hm.asked, hm.known, by simp⟩
    have hfound : Carries
        (fun m => D.Ordered before (id :: path) m ∧ Memo.Extends ⟨memo.known, []⟩ m)
        (fun m _ => D.Accounts m) ⟨memo.known, []⟩ (f.evolve F (f.valueBy follow) id i)
        (fun m e => f.Evolves F (fun _ => D.Accounts m) id i e) := by
      refine carries_evolve (fun v hv m hm' => carries_valueBy (fun j hj => ?_) (fun hmissing => ?_)
        (fun _ _ _ => ⟨Expr.madeOf_const, fun y hy => by cases hy⟩) hm') ⟨hstart, .refl _⟩
      · obtain ⟨hafter, hkept, haccounts⟩ := hfollow j m (hj ▸ hv) hm'.1
        exact ⟨⟨hafter, hm'.2.trans hkept⟩, fun _ _ h => h.mono hkept, haccounts⟩
      · exact accounts_symbol fun y hy => .inl (.inr (.inl (hmissing y hy)))
    obtain ⟨⟨hafter, hextends⟩, -, he⟩ := hfound
    obtain ⟨hordered, haccounts⟩ := hm.leave hafter hpath hi he
    exact ⟨hordered, Memo.extends_leave hextends hnew, haccounts⟩

theorem Ordered.recall (hD : D.Meets before s) (hs : s ∈ f.wanted)
    (hm : D.Ordered before [] memo) :
    D.Ordered (s :: before) [] ((f.recall F (f.arena.size + 1) [] s).run memo).2 := by
  obtain ⟨i, hi⟩ := inst?_of_mem_wanted hs
  obtain ⟨hafter, -⟩ := hm.lookUp hD .start (Nat.lt_succ_self f.arena.size)
  exact ⟨hafter.apart, List.forall_mem_cons.mpr ⟨known_recall hi, hafter.asked⟩, hafter.known,
    hafter.met⟩

/-- Nothing is in progress in the end, and the symbols that are left are settled. -/
theorem settled_of_oracle (hD : InTurn D.Meets [] f.wanted)
    (h : (f.evolution F).oracle id = some e) (hy : .result y ∈ e.symbols) :
    (f.evolution F).oracle y = some (.unknown (.result y)) ∨ f.inst? y = none ∨ D.loose y := by
  have hstart : D.Ordered [] [] ⟨∅, []⟩ := by
    constructor <;> simp
  obtain ⟨last, memo, hm, heq⟩ := evolution_induct (fun before memo => D.Ordered before [] memo)
    hstart (hD.mono_of_mem fun _ _ hs hmeets _ hm => hm.recall hmeets hs)
  rw [heq] at h ⊢
  exact (hm.known id e h).2 y hy

end Ties

variable {f : Func} {F : LoopForest} {before path : List InstId} {s y z : InstId} {i : Instruction}
  {e : Expr}

/-! ### Cycles -/

/-- Whatever is tied or loose is on a cycle. -/
def cycleTies (f : Func) (F : LoopForest) : f.Ties F where
  tie y _ := f.OnCycle F y
  loose := f.OnCycle F
  closes _ _ _ _ _ h := h

theorem meets_cycleTies : (f.cycleTies F).Meets before s := by
  intro path z hc hz
  have hself : f.OnCycle F z := by
    obtain ⟨inner, outer, rfl⟩ := List.append_of_mem hz
    exact hc.onCycle List.mem_cons_self
  exact ⟨hz, hself, fun inner outer hsplit y hy =>
    (hsplit ▸ hc).onCycle (List.mem_cons_of_mem z hy)⟩

/-! ### Cycles that are entered by a merge in a header -/

/-- What the analysis takes for a merge in the header of a loop. -/
def headerMerge? (f : Func) (F : LoopForest) (id : InstId) : Option HeaderPhi :=
  match (f.inst? id).map Instruction.operation with
  | some (.phi incoming) => (f.scope F).headerPhi? id incoming
  | _ => none

/-- Instruction `z` is a merge in the header of a loop, and `y` was put into that loop. -/
def InLoopOf (f : Func) (F : LoopForest) (z y : InstId) : Prop :=
  ∃ p b, f.headerMerge? F z = some p ∧ f.blockOf? y = some b ∧ F.contains p.loop b = true

instance : Decidable (f.InLoopOf F z y) :=
  decidable_of_iff (∃ p ∈ f.headerMerge? F z, ∃ b ∈ f.blockOf? y, F.contains p.loop b = true)
    ⟨fun ⟨p, hp, b, hb, h⟩ => ⟨p, b, hp, hb, h⟩, fun ⟨p, b, hp, hb, h⟩ => ⟨p, hp, b, hb, h⟩⟩

/-- Instructions in progress are met again only in a merge in the header of a loop, and all that is in
progress since was put into that loop. -/
def MeetsInHeaders (f : Func) (F : LoopForest) (before : List InstId) (s : InstId) : Prop :=
  ∀ inner z outer, f.Calls F before s (inner ++ z :: outer) z → ∀ y ∈ z :: inner, f.InLoopOf F z y

/-- It is enough to go through a list that holds all look-ups. -/
theorem meetsInHeaders_of_closed (calls : List (List InstId × InstId))
    (h : ([], s) ∈ calls ∧ (∀ c ∈ calls, c.2 ∉ before → c.2 ∉ c.1 →
        ∀ b ∈ f.asksFor F c.2, (c.2 :: c.1, b) ∈ calls) ∧
      ∀ c ∈ calls, ∀ inner ∈ c.1.inits, c.1[inner.length]? = some c.2 →
        ∀ y ∈ c.2 :: inner, f.InLoopOf F c.2 y) : f.MeetsInHeaders F before s := by
  intro inner z outer hc
  refine h.2.2 _ (hc.mem_of_closed h.1 h.2.1) inner ?_ (by simp)
  exact (List.mem_inits _ _).mpr (List.prefix_append _ _)

/-- A merge that closes is left with nothing that was put into its loop. -/
theorem Evolves.not_inLoopOf {T : Value → Expr → Prop}
    (hT : ∀ v a, T v a → a.MadeOf (f.scope F).regular) (hi : f.inst? z = some i)
    (he : f.Evolves F T z i e) (hne : e ≠ .unknown (.result z)) (hy : .result y ∈ e.symbols) :
    ¬ f.InLoopOf F z y := by
  rintro ⟨p, b, hp, hb, hin⟩
  have hmerge : ∃ incoming, i.operation = .phi incoming ∧
      (f.scope F).headerPhi? z incoming = some p := by
    rw [headerMerge?, hi, Option.map_some] at hp
    split at hp
    · next incoming ho => exact ⟨incoming, Option.some.inj ho, hp⟩
    · cases hp
  obtain ⟨incoming, ho, hp⟩ := hmerge
  cases he with
  | symbol => exact hne rfl
  | @recurrence _ _ start _ _ ho' hp' hstart hinv hnext hclose =>
    obtain rfl := Operation.phi.inj (ho.symm.trans ho')
    obtain rfl := Option.some.inj (hp.symm.trans hp')
    obtain ⟨ops, rfl, hops⟩ := Scope.close?_madeOf hclose (hT _ _ hnext) hinv
    have hfixed : ∀ o ∈ start :: ops,
        o.MadeOf (.plain 1 ((f.scope F).fixesValue p.loop · = true) fun _ => True) := by
      intro o ho
      have hproper := (hops o ho).2 .proper Scope.stable_proper
        ((hT _ _ hstart).proper (Nat.le_succ 1)) ((hT _ _ hnext).proper (Nat.le_succ 1))
      exact Expr.MadeOf.mono (M := (f.scope F).fixed p.loop) (Nat.le_refl 1) (fun _ h => h)
        (fun _ _ _ _ => trivial) ((Scope.isInvariant_iff hproper).mp (hops o ho).1)
    have hfix := (Expr.MadeOf.recurrenceOf (h := p.header) (Nat.le_succ 1) (by simp)
      (fun _ _ => trivial) hfixed).symbol hy
    simp [Makeup.plain, Scope.fixesValue, scope, hb, hin] at hfix
  | add ho' | sub ho' | mul ho' | shl ho' | cast ho' | address ho' => cases ho.symm.trans ho'

/-- A merge in the header of a loop holds what was put into the loop, and nothing is loose. -/
def loopTies (f : Func) (F : LoopForest) : f.Ties F where
  tie y z := f.InLoopOf F z y
  loose _ := False
  closes hT hi he hne hy htie := he.not_inLoopOf hT hi hne hy htie

theorem MeetsInHeaders.meets (h : f.MeetsInHeaders F before s) : (f.loopTies F).Meets before s := by
  intro path z hc hz
  have hself : f.InLoopOf F z z := by
    obtain ⟨inner, outer, rfl⟩ := List.append_of_mem hz
    exact h inner z outer hc z List.mem_cons_self
  exact ⟨hz, hself, fun inner outer hsplit y hy =>
    h inner z outer (hsplit ▸ hc) y (List.mem_cons_of_mem z hy)⟩

/-- A symbol that a value is left with is all there is to know of its instruction, or the instruction
is on a cycle of look-ups. It is all there is to know if the instructions are asked for in an order in
which every cycle is entered by a merge in the header of a loop that holds the rest of it. -/
theorem symbols_settled (f : Func) :
    let F := f.flow.loops
    let value := (f.evolution F).oracle
    (∀ q e p i, value q = some e → f.inst? p = some i → .result p ∈ e.symbols →
      value p = some (.unknown (.result p)) ∨ f.OnCycle F p) ∧
    (InTurn (f.MeetsInHeaders F) [] f.wanted →
      ∀ q e p i, value q = some e → f.inst? p = some i → .result p ∈ e.symbols →
        value p = some (.unknown (.result p))) := by
  intro F value
  constructor
  · intro q e p i hq hp hsymbol
    have hturn : InTurn (f.cycleTies F).Meets [] f.wanted :=
      inTurn_of_forall fun _ _ => meets_cycleTies
    rcases Ties.settled_of_oracle hturn hq hsymbol with h | h | h
    · exact .inl h
    · cases hp.symm.trans h
    · exact .inr h
  · intro hturn q e p i hq hp hsymbol
    have hmeets : InTurn (f.loopTies F).Meets [] f.wanted := hturn.mono fun _ _ h => h.meets
    rcases Ties.settled_of_oracle hmeets hq hsymbol with h | h | h
    · exact h
    · cases hp.symm.trans h
    · exact h.elim

end Func

/-- Counts to sixteen and adds up the count on the way, with the two merges of its loop in a given
order: 0 is the total and 1 the count. -/
def total (merges : List InstId) : Func where
  name := "total"
  params := #[]
  blocks := #[
    { terminator := .jump 1 },
    { listing := merges ++ [2, 3, 4], terminator := .branch (.result 4) 1 2 },
    { listing := [5, 6], terminator := .ret none }]
  entry := 0
  arena := #[
    ⟨.phi (.int 64) [(0, .int 0), (1, .result 3)], 1⟩,
    ⟨.phi (.int 64) [(0, .int 0), (1, .result 2)], 1⟩,
    ⟨.arith .add (.int 64) (.result 1) (.int 1), 1⟩,
    ⟨.arith .add (.int 64) (.result 0) (.result 2), 1⟩,
    ⟨.compare .slt (.result 2) (.int 16), 1⟩,
    ⟨.call "read" [] (.int 64), 2⟩,
    ⟨.arith .add (.int 64) (.result 5) (.result 2), 2⟩]
  uses := #[(1, 2), (0, 3), (2, 3), (2, 4), (3, 0), (2, 1), (5, 6), (2, 6)]

/-- With the count first, both merges close, and nothing is left opaque but what is read. -/
theorem Func.symbols_settled_countFirst :
    let f := total [1, 0]
    InTurn (f.MeetsInHeaders f.flow.loops) [] f.wanted ∧
    (f.evolution f.flow.loops).oracle 0 = some (.recurrence 1 [.const 0, .const 1, .const 1]) ∧
    (f.evolution f.flow.loops).oracle 6 =
      some (.recurrence 1 [.sum [.unknown (.result 5), .const 1], .const 1]) ∧
    (f.evolution f.flow.loops).oracle 5 = some (.unknown (.result 5)) := by
  intro f
  have hturn : InTurn (f.MeetsInHeaders f.flow.loops) [] f.wanted := by
    have hwanted : f.wanted = [1, 0, 2, 3, 4, 5, 6] := by decide +kernel
    rw [hwanted]
    refine ⟨?_, ?_, ?_, ?_, ?_, ?_, ?_, trivial⟩
    · exact meetsInHeaders_of_closed [([], 1), ([1], 2), ([2, 1], 1)] (by decide +kernel)
    · exact meetsInHeaders_of_closed
        [([], 0), ([0], 3), ([3, 0], 0), ([3, 0], 2), ([2, 3, 0], 1)] (by decide +kernel)
    · exact meetsInHeaders_of_closed [([], 2), ([2], 1)] (by decide +kernel)
    · exact meetsInHeaders_of_closed [([], 3), ([3], 0), ([3], 2)] (by decide +kernel)
    · exact meetsInHeaders_of_closed [([], 4)] (by decide +kernel)
    · exact meetsInHeaders_of_closed [([], 5)] (by decide +kernel)
    · exact meetsInHeaders_of_closed [([], 6), ([6], 5), ([6], 2)] (by decide +kernel)
  have htotal : (f.evolution f.flow.loops).oracle 0 =
      some (.recurrence 1 [.const 0, .const 1, .const 1]) := by decide +kernel
  have hsum : (f.evolution f.flow.loops).oracle 6 =
      some (.recurrence 1 [.sum [.unknown (.result 5), .const 1], .const 1]) := by decide +kernel
  have hread : f.inst? 5 = some (.call "read" [] (.int 64)) := by decide +kernel
  exact ⟨hturn, htotal, hsum, (symbols_settled f).2 hturn 6 _ 5 _ hsum hread (by decide)⟩

/-- With the total first, the count is looked up below its own increment, and the increment keeps a
value that rests on the placeholder of the count. -/
theorem Func.not_symbols_settled_totalFirst :
    let f := total [0, 1]
    f.validate = .ok () ∧
    ¬ ∀ q e p, (f.evolution f.flow.loops).oracle q = some e → .result p ∈ e.symbols →
      (f.evolution f.flow.loops).oracle p = some (.unknown (.result p)) := by
  intro f
  have hvalid : f.defect? = none := by decide +kernel
  have hcount : (f.evolution f.flow.loops).oracle 1 =
      some (.recurrence 1 [.const 0, .const 1]) := by decide +kernel
  have hincrement : (f.evolution f.flow.loops).oracle 2 =
      some (.sum [.unknown (.result 1), .const 1]) := by decide +kernel
  refine ⟨by rw [validate, hvalid], fun h => ?_⟩
  have hplain := h 2 _ 1 hincrement (by decide)
  rw [hcount] at hplain
  cases hplain

end LoopStride
