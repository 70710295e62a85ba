import Arbor.Proofs.Language.Generated
import Mathlib.Data.List.Nodup
import Mathlib.Logic.Relation
import Mathlib.Tactic.Tauto

/-!
# The hierarchy of a generated language

Entries are put in an order in which every base comes before what derives from it
(`basesFirst_order`), so a type finds the ancestry of its base among the types built so far. What is
built for an entry is said once (`Grammar.Built`): its place, the entry it comes from, and that its
ancestry holds the positions of exactly the names that are reached from its own name by following
declared bases. All types of a generated language are built so (`built_ofGrammar`).
-/

namespace Arbor

namespace Grammar

/-! ## Declared bases -/

/-- An entry named `a` is declared to derive from `b`; without a declaration it derives from the
root. -/
def HasBase (entries : List TypeSpec) (a b : String) : Prop :=
  ∃ entry ∈ entries, entry.name = a ∧ entry.base.getD rootName = b

/-- Following zero or more declared bases leads from the first name to the second. -/
def Derives (entries : List TypeSpec) : String → String → Prop :=
  Relation.ReflTransGen (HasBase entries)

theorem derives_perm {entries order : List TypeSpec} (perm : order.Perm entries) (a b : String) :
    Derives order a b ↔ Derives entries a b := by
  have bases : HasBase order = HasBase entries := by
    funext a b
    simp only [HasBase, perm.mem_iff]
  rw [Derives, bases, Derives]

/-- The way up from an entry begins with its base. -/
theorem derives_entry {entries : List TypeSpec} (distinct : (entries.map TypeSpec.name).Nodup)
    {entry : TypeSpec} (he : entry ∈ entries) (name : String) :
    Derives entries entry.name name ↔
      name = entry.name ∨ Derives entries (entry.base.getD rootName) name := by
  constructor
  · intro h
    rcases Relation.ReflTransGen.cases_head h with same | ⟨b, ⟨other, ho, named, base⟩, rest⟩
    · exact .inl same.symm
    · cases List.inj_on_of_nodup_map distinct ho he named
      exact .inr (base ▸ rest)
  · rintro (rfl | h)
    · exact .refl
    · exact .head ⟨entry, he, rfl, rfl⟩ h

theorem derives_root {entries : List TypeSpec}
    (unreserved : ∀ entry ∈ entries, entry.name ∉ reservedNames) (name : String) :
    Derives entries rootName name ↔ name = rootName := by
  constructor
  · intro h
    rcases Relation.ReflTransGen.cases_head h with same | ⟨b, ⟨entry, he, named, -⟩, -⟩
    · exact same.symm
    · have reserved : entry.name ∈ reservedNames := by
        rw [named]
        decide
      exact absurd reserved (unreserved entry he)
  · rintro rfl
    exact .refl

/-! ## Bases come first -/

/-- Every entry derives from a known name or from an entry before it. -/
def BasesFirst (known : List String) : List TypeSpec → Prop
  | [] => True
  | entry :: rest => entry.base.getD rootName ∈ known ∧ BasesFirst (entry.name :: known) rest

theorem BasesFirst.mono {known more : List String} {entries : List TypeSpec}
    (h : BasesFirst known entries) (sub : known ⊆ more) : BasesFirst more entries := by
  induction entries generalizing known more with
  | nil => trivial
  | cons entry rest ih => exact ⟨sub h.1, ih h.2 (List.cons_subset_cons _ sub)⟩

theorem BasesFirst.append {known : List String} {entries later : List TypeSpec}
    (h : BasesFirst known entries)
    (h' : BasesFirst (entries.map TypeSpec.name ++ known) later) :
    BasesFirst known (entries ++ later) := by
  induction entries generalizing known with
  | nil => exact h'
  | cons entry rest ih =>
    refine ⟨h.1, ih h.2 (h'.mono ?_)⟩
    intro name hn
    simp only [List.map_cons, List.cons_append, List.mem_cons, List.mem_append] at hn ⊢
    tauto

theorem isReady_iff {generated : List String} (root : rootName ∈ generated) (entry : TypeSpec) :
    isReady generated entry = true ↔ entry.base.getD rootName ∈ generated := by
  unfold isReady
  cases entry.base with
  | none => simp [root]
  | some base => simp

theorem basesFirst_round {generated : List String} (root : rootName ∈ generated)
    (pending : List TypeSpec) : BasesFirst generated (round generated pending).1 := by
  induction pending generalizing generated with
  | nil => trivial
  | cons entry rest ih =>
    unfold round
    split
    · rename_i ready
      exact ⟨(isReady_iff root entry).mp ready, ih (List.mem_cons_of_mem _ root)⟩
    · exact ih root

theorem basesFirst_orderFrom {generated : List String} {pending order : List TypeSpec}
    (root : rootName ∈ generated) (h : orderFrom generated pending = .ok order) :
    BasesFirst generated order := by
  induction generated, pending using orderFrom.induct generalizing order with
  | case1 generated pending empty =>
    rw [orderFrom_done empty] at h
    cases h
    trivial
  | case2 generated pending nonempty waiting next =>
    rw [orderFrom_stuck nonempty next] at h
    cases h
  | case3 generated pending nonempty entry ready waiting next ih =>
    rw [orderFrom_step nonempty next] at h
    obtain ⟨later, hl, rfl⟩ := except_map_eq_ok h
    have first := basesFirst_round root pending
    rw [next] at first
    exact first.append (ih (List.mem_append_right _ root) hl)

theorem basesFirst_order {entries order : List TypeSpec} (h : Grammar.order entries = .ok order) :
    BasesFirst [rootName] order :=
  basesFirst_orderFrom (List.mem_singleton_self _) h

/-! ## Positions of names -/

/-- The names of a language, each at the index of its type. -/
def typeNames (order : List TypeSpec) : List String := rootName :: order.map TypeSpec.name

theorem WellNamed.nodup_typeNames {order : List TypeSpec} (named : WellNamed order) :
    (typeNames order).Nodup := by
  refine List.nodup_cons.mpr ⟨fun member => ?_, named.distinct⟩
  obtain ⟨entry, he, same⟩ := List.mem_map.mp member
  exact named.unreserved entry he (by rw [same]; decide)

theorem indexOf?_eq_some {order : List TypeSpec} (distinct : (typeNames order).Nodup)
    {name : String} {i : Nat} :
    indexOf? order name = some i ↔ (typeNames order)[i]? = some name := by
  rw [indexOf?, ← typeNames, List.idxOf?_eq_some_iff, List.getElem?_eq_some_iff]
  refine exists_congr fun bound => ⟨And.left, fun found => ⟨found, fun j before same => ?_⟩⟩
  have := distinct.getElem_inj_iff.mp (same.trans found.symm)
  omega

theorem indexOf?_eq_none {order : List TypeSpec} {name : String} :
    indexOf? order name = none ↔ name ∉ typeNames order :=
  List.idxOf?_eq_none_iff

/-- The index of the base of an entry is the position of its name. -/
theorem baseIndex_eq {order : List TypeSpec} (distinct : (typeNames order).Nodup)
    {entry : TypeSpec} {i : Nat}
    (place : (typeNames order)[i]? = some (entry.base.getD rootName)) :
    (entry.base.bind (indexOf? order)).getD 0 = i := by
  rw [← indexOf?_eq_some distinct] at place
  cases declared : entry.base with
  | none =>
    rw [declared] at place
    have root : indexOf? order rootName = some 0 := (indexOf?_eq_some distinct).mpr rfl
    exact Option.some.inj (root.symm.trans place)
  | some base =>
    rw [declared] at place
    rw [Option.bind_some, show indexOf? order base = some i from place, Option.getD_some]

/-! ## Types -/

section Types

variable {order : List TypeSpec} {primitives : PrimitiveTable} {id : Nat} {checked : Bool}

/-- The entry that a type comes from. -/
def ComesFrom (order : List TypeSpec) (primitives : PrimitiveTable) (type : NodeType)
    (entry : TypeSpec) : Prop :=
  entry ∈ order ∧ type.name = entry.name ∧ type.kind = entry.kind ∧
    resolveFields order primitives entry = .ok type.fields

/-- What the type at a position of a language is. -/
structure Built (order : List TypeSpec) (primitives : PrimitiveTable) (id : Nat) (checked : Bool)
    (i : Nat) (type : NodeType) : Prop where
  name : (typeNames order)[i]? = some type.name
  index : type.index = i
  language : type.language = id
  checks : type.checked = checked
  origin : i = 0 ∨ ∃ entry, ComesFrom order primitives type entry
  root : 0 ∈ type.ancestry
  /-- The ancestry holds the positions of the names that the type derives from. -/
  ancestry : ∀ j, j ∈ type.ancestry ↔
    ∃ name, (typeNames order)[j]? = some name ∧ Derives order type.name name

theorem built_rootType (named : WellNamed order) :
    Built order primitives id checked 0 (rootType id checked) where
  name := rfl
  index := rfl
  language := rfl
  checks := rfl
  origin := .inl rfl
  root := List.mem_singleton_self 0
  ancestry j := by
    simp only [rootType, List.mem_singleton, derives_root named.unreserved, exists_eq_right]
    rw [← indexOf?_eq_some named.nodup_typeNames]
    have root : indexOf? order rootName = some 0 :=
      (indexOf?_eq_some named.nodup_typeNames).mpr rfl
    rw [root, Option.some.injEq, eq_comm]

theorem built_nextType (named : WellNamed order) {built : List NodeType}
    (earlier : ∀ i type, built[i]? = some type → Built order primitives id checked i type)
    {entry : TypeSpec} (he : entry ∈ order)
    (place : (typeNames order)[built.length]? = some entry.name)
    (base : entry.base.getD rootName ∈ (typeNames order).take built.length) {fields : List Field}
    (resolved : resolveFields order primitives entry = .ok fields) :
    Built order primitives id checked built.length
      (nextType order id checked built entry fields) := by
  have distinct := named.nodup_typeNames
  obtain ⟨i, before, there⟩ := List.mem_take_iff_getElem.mp base
  have inside : i < built.length := by omega
  have there : (typeNames order)[i]? = some (entry.base.getD rootName) :=
    List.getElem?_eq_some_iff.mpr ⟨_, there⟩
  have parent := earlier i built[i] (List.getElem?_eq_getElem inside)
  have parentName : built[i].name = entry.base.getD rootName :=
    Option.some.inj (parent.name.symm.trans there)
  have ancestry : (nextType order id checked built entry fields).ancestry =
      built.length :: built[i].ancestry := by
    simp only [nextType, baseIndex_eq distinct there, List.getElem?_eq_getElem inside]
  refine ⟨place, rfl, rfl, rfl, .inr ⟨entry, he, rfl, rfl, resolved⟩, ?_, fun j => ?_⟩
  · rw [ancestry]
    exact List.mem_cons_of_mem _ parent.root
  · rw [ancestry, List.mem_cons, parent.ancestry, parentName]
    have own : j = built.length ↔ (typeNames order)[j]? = some entry.name := by
      rw [← indexOf?_eq_some distinct] at place ⊢
      rw [place, Option.some.injEq, eq_comm]
    change _ ↔ ∃ name, _ ∧ Derives order entry.name name
    simp only [derives_entry named.distinct he, own, and_or_left, exists_or, exists_eq_right]

theorem built_buildTypes (named : WellNamed order) {entries : List TypeSpec}
    {fields : List (List Field)}
    (resolved : List.Forall₂ (fun entry fields => resolveFields order primitives entry = .ok fields)
      entries fields)
    {built : List NodeType}
    (earlier : ∀ i type, built[i]? = some type → Built order primitives id checked i type)
    (rest : (typeNames order).drop built.length = entries.map TypeSpec.name)
    (mem : ∀ entry ∈ entries, entry ∈ order)
    (basesFirst : BasesFirst ((typeNames order).take built.length) entries) :
    ∀ i type, (buildTypes order id checked built (entries.zip fields))[i]? = some type →
      Built order primitives id checked i type := by
  induction resolved generalizing built with
  | nil =>
    rw [List.zip_nil_left, buildTypes]
    exact earlier
  | @cons entry fs entries fields hf _ ih =>
    rw [List.zip_cons_cons, buildTypes]
    rw [List.map_cons] at rest
    rw [List.forall_mem_cons] at mem
    have place : (typeNames order)[built.length]? = some entry.name := by
      rw [← List.head?_drop, rest]
      rfl
    have next := built_nextType named earlier mem.1 place basesFirst.1 hf
    apply ih
    · intro i type found
      rcases Nat.lt_trichotomy i built.length with before | rfl | after
      · rw [List.getElem?_append_left before] at found
        exact earlier i type found
      · rw [List.getElem?_concat_length] at found
        cases found
        exact next
      · rw [List.getElem?_eq_none (by simp; omega)] at found
        cases found
    · rw [List.length_append, ← List.drop_drop, rest]
      rfl
    · exact mem.2
    · refine basesFirst.2.mono fun name member => ?_
      rw [List.length_append, List.length_singleton, List.take_add_one, place]
      simpa [or_comm] using member

end Types

end Grammar

/-- The types of a generated language are the root and one for each entry, in an order in which
bases come first, and each is built as its entry says. -/
theorem Language.built_ofGrammar {id : Nat} {g : Grammar} {options : Options} {l : Language}
    (h : Language.ofGrammar id g options = .ok l) :
    ∃ order, order.Perm g.entries ∧ Grammar.WellNamed order ∧ l.id = id ∧
      l.types.map NodeType.name = Grammar.typeNames order ∧
      ∀ i type, l.types[i]? = some type →
        Grammar.Built order options.primitives id options.checked i type := by
  obtain ⟨checkedNames, order, fields, ordered, resolved, rfl⟩ := ofGrammar_eq_ok_iff.mp h
  obtain ⟨_, checkedEntries, -⟩ := except_bind_eq_ok checkedNames
  have resolved := forall₂_of_mapM_ok resolved
  have perm := Grammar.order_perm ordered
  have named := (Grammar.wellNamed_of_checkEntries checkedEntries).1.perm perm
  obtain ⟨types, built, described⟩ := Grammar.buildTypes_eq resolved id options.checked
    [Grammar.rootType id options.checked]
  refine ⟨order, perm, named, rfl, ?_, ?_⟩
  · rw [built, List.map_append, Grammar.names_of_describes described]
    rfl
  · refine Grammar.built_buildTypes named resolved ?_ rfl (fun _ he => he)
      (Grammar.basesFirst_order ordered)
    intro i type found
    rw [List.getElem?_singleton] at found
    split at found
    · rename_i first
      cases found
      cases first
      exact Grammar.built_rootType named
    · cases found

end Arbor
