import Mathlib.Tactic.ByContra
import LoopStride.Config
import LoopStride.Proofs.Cost.ByteOrder

/-! Layers of overrides over a table of latencies. What a layer makes of a table depends on what it
says of each mnemonic and on the first name in it that is none; so layers add up to one that says
what the last of them says. -/
namespace LoopStride

theorem Opcode.ofName?_eq_none_iff {name : String} :
    ofName? name = none ↔ ∀ op : Opcode, op.name ≠ name := by
  constructor
  · rintro h op rfl
    rw [ofName?_name] at h
    cases h
  · intro h
    cases hop : ofName? name with
    | none => rfl
    | some op => exact absurd (name_of_ofName? hop) (h op)

namespace Overrides
variable {o o' u : Overrides} {name other : String}

/-- There are only mnemonics in it. -/
def Known (o : Overrides) : Prop := ∀ name ∈ o, ∃ op : Opcode, op.name = name

/-- Of the names that are no mnemonics the first by its bytes. -/
structure FirstUnknown (o : Overrides) (name : String) : Prop where
  mem : name ∈ o
  unknown : ∀ op : Opcode, op.name ≠ name
  first : ∀ other ∈ o, (∀ op : Opcode, op.name ≠ other) → other ≠ name →
    utf8Bytes name < utf8Bytes other

/-- Both together, where `o'` wins. -/
def IsUnion (o o' u : Overrides) : Prop := ∀ name : String, u[name]? = o'[name]?.or o[name]?

/-- The first name that is no mnemonic, as a search through the names finds it. -/
def unknown? (o : Overrides) : Option String :=
  o.keys.find? fun name => (Opcode.ofName? name).isNone

theorem unknown?_eq_none_iff : o.unknown? = none ↔ o.Known := by
  simp only [unknown?, List.find?_eq_none, Std.TreeMap.mem_keys, Option.isNone_iff_eq_none,
    Opcode.ofName?_eq_none_iff, Known, not_forall, not_not]

theorem FirstUnknown.unique (h : o.FirstUnknown name) (h' : o.FirstUnknown other) :
    name = other := by
  by_contra hne
  have hlt := h.first other h'.mem h'.unknown (Ne.symm hne)
  exact List.lt_asymm hlt (h'.first name h.mem h.unknown hne)

theorem firstUnknown_of_unknown? (h : o.unknown? = some name) : o.FirstUnknown name := by
  obtain ⟨hname, before, after, hkeys, hbefore⟩ := List.find?_eq_some_iff_append.mp h
  have hsorted := keys_byteOrder o
  have hmem : ∀ other, other ∈ o ↔ other ∈ before ∨ other = name ∨ other ∈ after := by
    intro other
    rw [← Std.TreeMap.mem_keys, hkeys, List.mem_append, List.mem_cons]
  rw [hkeys] at hsorted
  refine ⟨(hmem name).mpr (.inr (.inl rfl)), ?_, fun other hother hunknown hne => ?_⟩
  · exact Opcode.ofName?_eq_none_iff.mp (Option.isNone_iff_eq_none.mp hname)
  · rcases (hmem other).mp hother with hin | rfl | hin
    · have hknown := hbefore other hin
      rw [Opcode.ofName?_eq_none_iff.mpr hunknown] at hknown
      cases hknown
    · exact absurd rfl hne
    · exact List.rel_of_pairwise_cons (List.pairwise_append.mp hsorted).2.1 hin

theorem unknown?_eq_some_iff : o.unknown? = some name ↔ o.FirstUnknown name := by
  refine ⟨firstUnknown_of_unknown?, fun h => ?_⟩
  cases hu : o.unknown? with
  | none =>
    obtain ⟨op, hop⟩ := unknown?_eq_none_iff.mp hu name h.mem
    exact absurd hop (h.unknown op)
  | some other => rw [h.unique (firstUnknown_of_unknown? hu)]

theorem IsUnion.mem_iff (h : IsUnion o o' u) : name ∈ u ↔ name ∈ o ∨ name ∈ o' := by
  simp only [Std.TreeMap.mem_iff_isSome_getElem?, h name, Option.isSome_or, Bool.or_eq_true,
    or_comm]

theorem IsUnion.known_iff (h : IsUnion o o' u) : u.Known ↔ o.Known ∧ o'.Known := by
  simp only [Known, h.mem_iff, or_imp, forall_and]

/-- Next to mnemonics alone the same name stays the first that is none. -/
theorem IsUnion.unknown?_eq (h : IsUnion o o' u) (ho : o.Known) : u.unknown? = o'.unknown? := by
  cases hu : o'.unknown? with
  | none => exact unknown?_eq_none_iff.mpr (h.known_iff.mpr ⟨ho, unknown?_eq_none_iff.mp hu⟩)
  | some name =>
    obtain ⟨hmem, hunknown, hfirst⟩ := unknown?_eq_some_iff.mp hu
    refine unknown?_eq_some_iff.mpr
      ⟨h.mem_iff.mpr (.inr hmem), hunknown, fun other hother hno => ?_⟩
    rcases h.mem_iff.mp hother with hin | hin
    · obtain ⟨op, hop⟩ := ho other hin
      exact absurd hop (hno op)
    · exact hfirst other hin hno

end Overrides

/-- The check of a configuration looks for the same name. -/
theorem Config.validate_eq (c : Config) (h : 1 ≤ c.maxSteps) : c.validate =
    match c.overrides.unknown? with
    | some name => .error (.unknownOpcode name)
    | none => .ok () := by
  rw [validate, if_neg (Nat.ne_of_gt h)]
  rfl

theorem Config.known_of_validate {c : Config} (h : c.validate = .ok ()) : c.overrides.Known := by
  rcases Nat.eq_zero_or_pos c.maxSteps with hzero | hpos
  · rw [validate, if_pos hzero] at h
    cases h
  · rw [c.validate_eq hpos] at h
    cases hu : c.overrides.unknown? with
    | none => exact Overrides.unknown?_eq_none_iff.mp hu
    | some name =>
      rw [hu] at h
      cases h

namespace CostTable
variable {t t' : CostTable} {o o' u : Overrides} {entries : List (String × UInt32)}

/-- The table that says what `o` says, and of other opcodes what `t` says. -/
def under (t : CostTable) (o : Overrides) : CostTable :=
  ⟨fun op => o[op.name]?.getD (t.latency op)⟩

/-- One layer after the other, the first one over the default table. -/
def layered : List Overrides → Except ConfigError CostTable
  | [] => .ok default
  | o :: os => (ofOverrides o).bind fun t => os.foldlM override t

theorem latency_set {first op : Opcode} {cycles : UInt32} :
    (t.set first cycles).latency op = if op = first then cycles else t.latency op := rfl

theorem overrideAll_of_unknown {name : String}
    (h : (entries.map Prod.fst).find? (fun name => (Opcode.ofName? name).isNone) = some name) :
    t.overrideAll entries = .error (.unknownOpcode name) := by
  induction entries generalizing t with
  | nil => cases h
  | cons e entries ih =>
    rw [List.map_cons, List.find?_cons] at h
    rw [overrideAll]
    cases hop : Opcode.ofName? e.1 with
    | none =>
      rw [hop] at h
      obtain rfl : e.1 = name := by simpa using h
      rfl
    | some op =>
      rw [hop] at h
      exact ih h

/-- If no name is there twice and all are mnemonics, each opcode gets what is said of it. -/
theorem overrideAll_of_known (hnodup : (entries.map Prod.fst).Nodup)
    (hknown : ∀ e ∈ entries, (Opcode.ofName? e.1).isSome) : ∃ t', t.overrideAll entries = .ok t' ∧
      ∀ op : Opcode, (∀ cycles, (op.name, cycles) ∈ entries → t'.latency op = cycles) ∧
        (op.name ∉ entries.map Prod.fst → t'.latency op = t.latency op) := by
  induction entries generalizing t with
  | nil => exact ⟨t, rfl, fun op => ⟨by simp, fun _ => rfl⟩⟩
  | cons e entries ih =>
    obtain ⟨he, hentries⟩ := List.forall_mem_cons.mp hknown
    obtain ⟨hfresh, hnodup⟩ := List.nodup_cons.mp hnodup
    obtain ⟨first, hfirst⟩ := Option.isSome_iff_exists.mp he
    obtain ⟨t', ht', hlatency⟩ := ih (t := t.set first e.2) hnodup hentries
    have hname := Opcode.name_of_ofName? hfirst
    refine ⟨t', by rw [overrideAll, hfirst]; exact ht', fun op => ⟨fun cycles hmem => ?_, ?_⟩⟩
    · rcases List.mem_cons.mp hmem with rfl | hmem
      · obtain rfl := Opcode.name_injective hname
        rw [(hlatency first).2 hfresh, latency_set, if_pos rfl]
      · exact (hlatency op).1 cycles hmem
    · intro hnot
      rw [List.map_cons, List.mem_cons, not_or] at hnot
      rw [(hlatency op).2 hnot.2, latency_set, if_neg]
      rintro rfl
      exact hnot.1 hname

/-- What a layer makes of a table, or the first name in the way. -/
theorem override_eq (t : CostTable) (o : Overrides) : t.override o =
    match o.unknown? with
    | some name => .error (.unknownOpcode name)
    | none => .ok (t.under o) := by
  have hkeys : o.toList.map Prod.fst = o.keys := Std.TreeMap.map_fst_toList_eq_keys
  cases hu : o.unknown? with
  | some name => exact overrideAll_of_unknown (hkeys ▸ hu)
  | none =>
    have hknown : ∀ e ∈ o.toList, (Opcode.ofName? e.1).isSome := by
      intro e he
      have hin : e.1 ∈ o.keys := hkeys ▸ List.mem_map_of_mem he
      simpa [Option.isSome_iff_ne_none] using List.find?_eq_none.mp hu e.1 hin
    obtain ⟨t', ht', hlatency⟩ :=
      overrideAll_of_known (t := t) (hkeys ▸ Std.TreeMap.nodup_keys) hknown
    have htable : t' = t.under o := by
      refine congrArg CostTable.mk (funext fun op => ?_)
      cases hop : o[op.name]? with
      | some cycles =>
        exact (hlatency op).1 cycles (Std.TreeMap.mem_toList_iff_getElem?_eq_some.mpr hop)
      | none =>
        refine (hlatency op).2 fun hin => ?_
        rw [hkeys, Std.TreeMap.mem_keys, Std.TreeMap.mem_iff_isSome_getElem?, hop] at hin
        cases hin
    rw [override, ht', htable]

theorem override_of_known (h : o.Known) : t.override o = .ok (t.under o) := by
  rw [override_eq, Overrides.unknown?_eq_none_iff.mpr h]

theorem exists_refused (h : ¬ o.Known) :
    ∃ name, o.FirstUnknown name ∧ t.override o = .error (.unknownOpcode name) := by
  obtain ⟨name, hname⟩ := Option.ne_none_iff_exists'.mp (mt Overrides.unknown?_eq_none_iff.mp h)
  exact ⟨name, Overrides.unknown?_eq_some_iff.mp hname, by rw [override_eq, hname]⟩

theorem under_under (h : Overrides.IsUnion o o' u) : (t.under o).under o' = t.under u := by
  refine congrArg CostTable.mk (funext fun op => ?_)
  rw [h op.name]
  cases o'[op.name]? <;> rfl

/-- The second layer is laid over what the first one makes; if it is refused, then so is the union,
and for the same name. -/
theorem override_override (hu : o.IsUnion o' u) (ho : o.Known) :
    (t.override o).bind (·.override o') = t.override u := by
  rw [override_of_known ho, Except.bind, override_eq, override_eq t u, hu.unknown?_eq ho,
    under_under hu]

/-- If the first layer is refused, then so is the union, though maybe for a name of the second. -/
theorem toOption_override_override (hu : o.IsUnion o' u) :
    ((t.override o).bind (·.override o')).toOption = (t.override u).toOption := by
  by_cases ho : o.Known
  · rw [override_override hu ho]
  · obtain ⟨name, -, hname⟩ := exists_refused (t := t) ho
    obtain ⟨other, -, hother⟩ := exists_refused (t := t) fun h => ho (hu.known_iff.mp h).1
    rw [hname, hother]
    rfl

theorem latency_foldl_under (layers : List Overrides) (t : CostTable) (op : Opcode) :
    (layers.foldl under t).latency op =
      (layers.reverse.findSome? fun o => o[op.name]?).getD (t.latency op) := by
  induction layers generalizing t with
  | nil => rfl
  | cons o layers ih =>
    rw [List.foldl_cons, ih, List.reverse_cons, List.findSome?_append]
    cases layers.reverse.findSome? fun o => o[op.name]? with
    | some cycles => rfl
    | none => cases h : o[op.name]? <;> simp [under, h]

theorem foldlM_override {layers : List Overrides} (h : ∀ o ∈ layers, o.Known) (t : CostTable) :
    layers.foldlM override t = .ok (layers.foldl under t) := by
  induction layers generalizing t with
  | nil => rfl
  | cons o layers ih =>
    obtain ⟨ho, hlayers⟩ := List.forall_mem_cons.mp h
    rw [List.foldlM_cons, override_of_known ho]
    exact ih hlayers _

theorem layered_eq_foldlM (layers : List Overrides) :
    layered layers = layers.foldlM override default := by
  cases layers <;> rfl

theorem toInt_gain (t : CostTable) :
    (Int64.ofNat (t.latency (.arith .mul)).toNat -
      Int64.ofNat (t.latency (.arith .add)).toNat).toInt = t.gain := by
  have hmul := (t.latency (.arith .mul)).toNat_lt
  have hadd := (t.latency (.arith .add)).toNat_lt
  rw [Int64.toInt_sub, Int64.toInt_ofNat_of_lt (by omega), Int64.toInt_ofNat_of_lt (by omega), gain]
  exact Int.bmod_eq_of_le (by omega) (by omega)

/-- Layers of mnemonics, one over the other, make a table in which each opcode has what the last layer
that names it says. Two layers in turn come to their union, and if either is refused, so is the union.
A layer with other names is refused for the first of these, and so is a configuration that has it. -/
theorem layers_compose :
    (∀ layers : List Overrides, (∀ o ∈ layers, o.Known) → ∃ t, layered layers = .ok t ∧
      ∀ op : Opcode, t.latency op =
        (layers.reverse.findSome? fun o => o[op.name]?).getD op.defaultLatency) ∧
    (∀ t : CostTable, t.gain = (t.latency (.arith .mul)).toNat - (t.latency (.arith .add)).toNat ∧
      (Int64.ofNat (t.latency (.arith .mul)).toNat -
        Int64.ofNat (t.latency (.arith .add)).toNat).toInt = t.gain) ∧
    (∀ (t : CostTable) (o o' u : Overrides), o.IsUnion o' u →
      (o.Known → (t.override o).bind (·.override o') = t.override u) ∧
      ((t.override o).bind (·.override o')).toOption = (t.override u).toOption) ∧
    ∀ (t : CostTable) (o : Overrides), ¬ o.Known → ∃ name, o.FirstUnknown name ∧
      t.override o = .error (.unknownOpcode name) ∧
      ∀ c : Config, c.overrides = o → 1 ≤ c.maxSteps →
        c.validate = .error (.unknownOpcode name) := by
  refine ⟨fun layers h => ?_, fun t => ⟨rfl, toInt_gain t⟩,
    fun t o o' u hu => ⟨override_override hu, toOption_override_override hu⟩, fun t o ho => ?_⟩
  · exact ⟨_, (layered_eq_foldlM layers).trans (foldlM_override h default),
      latency_foldl_under layers default⟩
  · obtain ⟨name, hfirst, hname⟩ := exists_refused (t := t) ho
    refine ⟨name, hfirst, hname, fun c hc hsteps => ?_⟩
    rw [c.validate_eq hsteps, hc, Overrides.unknown?_eq_some_iff.mpr hfirst]

end CostTable

/-- A slow multiplier, a slower one, and names of operations that there are not. -/
def slowMul : Overrides := (∅ : Overrides).insertMany [("mul", 5), ("add", 2)]

def slowerMul : Overrides := (∅ : Overrides).insert "mul" 7

def misnamed : Overrides := (∅ : Overrides).insertMany [("muladd", 1), ("load", 4), ("fma", 1)]

theorem CostTable.layers_compose_slowMul :
    (∃ t, layered [slowMul, slowerMul] = .ok t ∧ t.latency (.arith .mul) = 7 ∧
      t.latency (.arith .add) = 2 ∧ t.latency .load = 2 ∧ t.gain = 5) ∧
    ((default : CostTable).override slowMul).bind (·.override misnamed) =
      (default : CostTable).override (slowMul ∪ misnamed) ∧
    (default : CostTable).override misnamed = .error (.unknownOpcode "fma") ∧
    ({ overrides := misnamed } : Config).validate = .error (.unknownOpcode "fma") := by
  have hslow : slowMul.Known := Overrides.unknown?_eq_none_iff.mp (by decide +kernel)
  have hslower : slowerMul.Known := Overrides.unknown?_eq_none_iff.mp (by decide +kernel)
  have hmisnamed : misnamed.unknown? = some "fma" := by decide +kernel
  obtain ⟨hlayers, hgain, hunion, hrefused⟩ := layers_compose
  obtain ⟨t, ht, hlatency⟩ := hlayers [slowMul, slowerMul] (by simp [hslow, hslower])
  obtain ⟨name, hfirst, hname, hcheck⟩ := hrefused default misnamed fun h => by
    rw [Overrides.unknown?_eq_none_iff.mpr h] at hmisnamed
    cases hmisnamed
  obtain rfl := hfirst.unique (Overrides.unknown?_eq_some_iff.mp hmisnamed)
  have hmul : t.latency (.arith .mul) = 7 := (hlatency _).trans (by decide +kernel)
  have hadd : t.latency (.arith .add) = 2 := (hlatency _).trans (by decide +kernel)
  refine ⟨⟨t, ht, hmul, hadd, (hlatency _).trans (by decide +kernel), ?_⟩, ?_, hname,
    hcheck _ rfl (by decide)⟩
  · rw [(hgain t).1, hmul, hadd]
    decide
  · exact (hunion default slowMul misnamed _ fun name => Std.TreeMap.getElem?_union).1 hslow

end LoopStride
