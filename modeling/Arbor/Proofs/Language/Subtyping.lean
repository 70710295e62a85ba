import Arbor.Proofs.Language.Conformance

/-!
# The types of a language and the types they derive from

Types are built one after the other. An entry comes after its base, so its type looks up the base
among those that are built already (`base_nextType`) and goes on the ancestry of that type
(`Linked`). Hence the ancestry of a type holds the indices of its ancestors, and the test for
subtypes decides whether declared bases lead from one name to the other.
-/

namespace Arbor

namespace Grammar

/-! ## Bases are built first -/

section Building

variable {order : List TypeSpec} {id : Nat} {checked : Bool}

theorem buildTypes_append (built : List NodeType) (done rest : List (TypeSpec × List Field)) :
    buildTypes order id checked built (done ++ rest) =
      buildTypes order id checked (buildTypes order id checked built done) rest := by
  induction done generalizing built with
  | nil => rfl
  | cons pair done ih => exact ih _

theorem names_buildTypes (built : List NodeType) (pairs : List (TypeSpec × List Field)) :
    (buildTypes order id checked built pairs).map NodeType.name =
      built.map NodeType.name ++ (pairs.map Prod.fst).map TypeSpec.name := by
  induction pairs generalizing built with
  | nil => simp [buildTypes]
  | cons pair pairs ih =>
    rw [buildTypes, ih]
    simp [nextType]

theorem BasesFirst.split {known : List String} {done rest : List TypeSpec} {entry : TypeSpec}
    (h : BasesFirst known (done ++ entry :: rest)) :
    entry.base.getD rootName ∈ known ∨ entry.base.getD rootName ∈ done.map TypeSpec.name := by
  induction done generalizing known with
  | nil => exact .inl h.1
  | cons first done ih =>
    have later := ih h.2
    simp only [List.mem_cons, List.map_cons] at later ⊢
    tauto

theorem wellNamed_order {entries : List TypeSpec} (checkedNames : checkNames entries = .ok ())
    (ordered : Grammar.order entries = .ok order) : WellNamed order := by
  obtain ⟨_, checkedEntries, -⟩ := except_bind_eq_ok checkedNames
  exact (wellNamed_of_checkEntries checkedEntries).1.perm (order_perm ordered)

/-- When the type of an entry is built, its base has been built: the name of the base is that of
the root or of an entry before it. -/
theorem base_nextType (named : WellNamed order) (basesFirst : BasesFirst [rootName] order)
    {fields : List (List Field)} (each : order.length = fields.length)
    {done rest : List (TypeSpec × List Field)} {entry : TypeSpec} {fs : List Field}
    (split : order.zip fields = done ++ (entry, fs) :: rest) :
    (rootName :: (done.map Prod.fst).map TypeSpec.name)[
      (entry.base.bind (indexOf? order)).getD 0]? = some (entry.base.getD rootName) := by
  have entries : order = done.map Prod.fst ++ entry :: rest.map Prod.fst := by
    rw [← List.map_fst_zip (Nat.le_of_eq each), split, List.map_append, List.map_cons]
  have before : entry.base.getD rootName ∈ rootName :: (done.map Prod.fst).map TypeSpec.name := by
    rw [entries] at basesFirst
    simpa using basesFirst.split
  obtain ⟨i, place⟩ := List.mem_iff_getElem?.mp before
  have whole : (typeNames order)[i]? = some (entry.base.getD rootName) := by
    rw [typeNames, entries, List.map_append, ← List.cons_append, List.getElem?_append_left, place]
    exact (List.getElem?_eq_some_iff.mp place).1
  rw [baseIndex_eq named.nodup_typeNames whole, place]

/-! ## Links -/

/-- What ties the type at a position to the others. -/
inductive Link (types : List NodeType) (i : Nat) (type : NodeType) : Prop
  | root : i = 0 → type.base = none → type.ancestry = [0] → Link types i type
  | derived {b : Nat} {parent : NodeType} :
      b < i → types[b]? = some parent → type.base = some b →
        type.ancestry = i :: parent.ancestry → Link types i type

def Linked (types : List NodeType) : Prop :=
  ∀ i type, types[i]? = some type → Link types i type

theorem Link.append {types : List NodeType} {i : Nat} {type : NodeType} (h : Link types i type)
    (more : List NodeType) : Link (types ++ more) i type := by
  cases h with
  | root first base ancestry => exact .root first base ancestry
  | derived before found base ancestry =>
    refine .derived before ?_ base ancestry
    rw [List.getElem?_append_left (List.getElem?_eq_some_iff.mp found).1, found]

theorem linked_rootType : Linked [rootType id checked] := by
  intro i type found
  cases i with
  | zero =>
    cases found
    exact .root rfl rfl rfl
  | succ i => cases found

theorem Linked.next {built : List NodeType} (linked : Linked built) {entry : TypeSpec}
    (back : (entry.base.bind (indexOf? order)).getD 0 < built.length) (fs : List Field) :
    Linked (built ++ [nextType order id checked built entry fs]) := by
  intro i type found
  rcases Nat.lt_trichotomy i built.length with before | rfl | after
  · rw [List.getElem?_append_left before] at found
    exact (linked i type found).append _
  · rw [List.getElem?_concat_length] at found
    cases found
    have parent := List.getElem?_eq_getElem back
    refine .derived back ((List.getElem?_append_left back).trans parent) rfl ?_
    simp only [nextType, parent]
  · rw [List.getElem?_eq_none (by simp; omega)] at found
    cases found

theorem Linked.buildTypes {built : List NodeType} (linked : Linked built)
    {pairs : List (TypeSpec × List Field)}
    (back : ∀ done entry fs rest, pairs = done ++ (entry, fs) :: rest →
      (entry.base.bind (indexOf? order)).getD 0 < built.length + done.length) :
    Linked (buildTypes order id checked built pairs) := by
  induction pairs generalizing built with
  | nil => exact linked
  | cons pair pairs ih =>
    obtain ⟨entry, fs⟩ := pair
    refine ih (linked.next (back [] entry fs pairs rfl) fs) fun done other gs rest split => ?_
    have later := back ((entry, fs) :: done) other gs rest (by rw [split, List.cons_append])
    rw [List.length_append, List.length_singleton]
    rw [List.length_cons] at later
    omega

end Building

end Grammar

/-! ## Ancestors -/

namespace Language

section Ancestors

variable {l : Language}
  (indexed : ∀ (i : Nat) (type : NodeType), l.types[i]? = some type → type.index = i)
  (linked : Grammar.Linked l.types)

theorem ancestors_root {type : NodeType} (base : l.base? type = none) :
    l.ancestors type = [type] := by
  rw [ancestors, base]

theorem ancestors_derived {type parent : NodeType} (base : l.base? type = some parent)
    (before : parent.index < type.index) : l.ancestors type = type :: l.ancestors parent := by
  rw [ancestors, base]
  simp only [before, if_true]

theorem head?_ancestors (type : NodeType) : (l.ancestors type).head? = some type := by
  rw [ancestors, List.head?_cons]

include indexed in
theorem getElem?_index {type : NodeType} (ht : type ∈ l.types) :
    l.types[type.index]? = some type := by
  obtain ⟨i, place⟩ := List.mem_iff_getElem?.mp ht
  rwa [indexed i type place]

include indexed linked

/-- Every type is the root or derives from another one of smaller index. -/
theorem cases_base {type : NodeType} (ht : type ∈ l.types) :
    (type.index = 0 ∧ type.base = none ∧ type.ancestry = [0]) ∨
      ∃ parent ∈ l.types, type.base = some parent.index ∧ parent.index < type.index ∧
        type.ancestry = type.index :: parent.ancestry := by
  obtain ⟨i, place⟩ := List.mem_iff_getElem?.mp ht
  have index := indexed i type place
  cases linked i type place with
  | root first base ancestry => exact .inl ⟨index.trans first, base, ancestry⟩
  | @derived b parent before found base ancestry =>
    have place := indexed b parent found
    refine .inr ⟨parent, List.mem_of_getElem? found, ?_, ?_, ?_⟩
    · rw [place, base]
    · rwa [place, index]
    · rw [ancestry, index]

omit linked in
theorem base?_eq_some {type parent : NodeType} (hp : parent ∈ l.types)
    (base : type.base = some parent.index) : l.base? type = some parent := by
  rw [base?, base, Option.bind_some, getElem?_index indexed hp]

theorem base_induction {motive : (type : NodeType) → type ∈ l.types → Prop}
    (root : ∀ type (ht : type ∈ l.types), type.index = 0 → l.base? type = none →
      type.ancestry = [0] → motive type ht)
    (derived : ∀ type (ht : type ∈ l.types) parent (hp : parent ∈ l.types),
      l.base? type = some parent → parent.index < type.index →
        type.ancestry = type.index :: parent.ancestry → motive parent hp → motive type ht)
    (type : NodeType) (ht : type ∈ l.types) : motive type ht := by
  obtain ⟨i, hi⟩ : ∃ i, type.index = i := ⟨_, rfl⟩
  induction i using Nat.strong_induction_on generalizing type with
  | _ i ih =>
    subst hi
    rcases cases_base indexed linked ht with
      ⟨first, base, ancestry⟩ | ⟨parent, hp, base, before, ancestry⟩
    · exact root type ht first (by rw [base?, base, Option.bind_none]) ancestry
    · exact derived type ht parent hp (base?_eq_some indexed hp base) before ancestry
        (ih parent.index before parent hp rfl)

theorem ancestry_eq {type : NodeType} (ht : type ∈ l.types) :
    type.ancestry = (l.ancestors type).map NodeType.index := by
  induction type, ht using base_induction indexed linked with
  | root type _ first base ancestry =>
    rw [ancestry, ancestors_root base, List.map_singleton, first]
  | derived type _ parent _ base before ancestry ih =>
    rw [ancestry, ancestors_derived base before, List.map_cons, ih]

/-- The ancestors of a type are linked by their bases and end at the first type. -/
theorem ancestors_chain {type : NodeType} (ht : type ∈ l.types) :
    (l.ancestors type).IsChain (fun a b => l.base? a = some b) ∧
      (l.ancestors type).getLast? = l.types[0]? := by
  induction type, ht using base_induction indexed linked with
  | root type ht first base _ =>
    rw [ancestors_root base, ← first, getElem?_index indexed ht]
    exact ⟨List.isChain_singleton _, rfl⟩
  | derived type _ parent _ base before _ ih =>
    rw [ancestors_derived base before]
    refine ⟨List.isChain_cons.mpr ⟨fun next first => ?_, ih.1⟩, ?_⟩
    · rw [head?_ancestors] at first
      cases first
      exact base
    · have some : (l.ancestors parent).getLast? ≠ none := by
        rw [Ne, List.getLast?_eq_none_iff, ← List.head?_eq_none_iff, head?_ancestors]
        exact Option.some_ne_none parent
      rw [List.getLast?_cons, ← ih.2]
      cases last : (l.ancestors parent).getLast? with
      | none => exact absurd last some
      | some _ => rfl

theorem ancestry_descends {type : NodeType} (ht : type ∈ l.types) :
    type.ancestry.Pairwise (· > ·) ∧ ∀ i ∈ type.ancestry, i ≤ type.index := by
  induction type, ht using base_induction indexed linked with
  | root type _ first _ ancestry =>
    simp [ancestry]
  | derived type _ parent _ _ before ancestry ih =>
    rw [ancestry, List.pairwise_cons, List.forall_mem_cons]
    refine ⟨⟨fun i hi => ?_, ih.1⟩, Nat.le_refl _, fun i hi => ?_⟩
    · exact Nat.lt_of_le_of_lt (ih.2 i hi) before
    · exact Nat.le_of_lt (Nat.lt_of_le_of_lt (ih.2 i hi) before)

theorem getLast?_ancestry {type : NodeType} (ht : type ∈ l.types) :
    type.ancestry.getLast? = some 0 := by
  obtain ⟨first, place⟩ : ∃ first, l.types[0]? = some first := by
    obtain ⟨i, place⟩ := List.mem_iff_getElem?.mp ht
    have bound := (List.getElem?_eq_some_iff.mp place).1
    exact ⟨_, List.getElem?_eq_getElem (Nat.zero_lt_of_lt bound)⟩
  rw [ancestry_eq indexed linked ht, List.getLast?_map, (ancestors_chain indexed linked ht).2,
    place, Option.map_some, indexed 0 first place]

/-- An ancestor has a smaller index, so that types which are subtypes of each other are one. -/
theorem isSubtypeOf_antisymm {a b : NodeType} (ha : a ∈ l.types) (hb : b ∈ l.types)
    (ab : a.isSubtypeOf b = true) (ba : b.isSubtypeOf a = true) : a = b := by
  have above {a b : NodeType} (ha : a ∈ l.types) (h : a.isSubtypeOf b = true) :
      b.index ≤ a.index := by
    rw [NodeType.isSubtypeOf, Bool.and_eq_true, List.contains_iff_mem] at h
    exact (ancestry_descends indexed linked ha).2 _ h.2
  have same : a.index = b.index := Nat.le_antisymm (above hb ba) (above ha ab)
  have place := getElem?_index indexed ha
  rw [same, getElem?_index indexed hb] at place
  exact (Option.some.inj place).symm

end Ancestors

/-! ## Generated languages -/

theorem linked_ofGrammar {id : Nat} {g : Grammar} {options : Options} {l : Language}
    (h : Language.ofGrammar id g options = .ok l) : Grammar.Linked l.types := by
  obtain ⟨checkedNames, order, fields, ordered, resolved, rfl⟩ := ofGrammar_eq_ok_iff.mp h
  have named := Grammar.wellNamed_order checkedNames ordered
  have each := (forall₂_of_mapM_ok resolved).length_eq
  refine Grammar.linked_rootType.buildTypes fun done entry fs rest split => ?_
  have base := Grammar.base_nextType named (Grammar.basesFirst_order ordered) each split
  have back := (List.getElem?_eq_some_iff.mp base).1
  simp only [List.length_cons, List.length_map] at back
  rw [List.length_singleton]
  omega

/-- Building goes on from the types of the entries before, and finds the base among them. -/
theorem lookups_ofGrammar {id : Nat} {g : Grammar} {options : Options} {l : Language}
    (h : Language.ofGrammar id g options = .ok l) {order : List TypeSpec}
    {fields : List (List Field)} (ordered : Grammar.order g.entries = .ok order)
    (resolved : order.mapM (Grammar.resolveFields order options.primitives) = .ok fields)
    {done rest : List (TypeSpec × List Field)} {entry : TypeSpec} {fs : List Field}
    (split : order.zip fields = done ++ (entry, fs) :: rest) :
    let built := Grammar.buildTypes order id options.checked
      [Grammar.rootType id options.checked] done
    l.types = Grammar.buildTypes order id options.checked built ((entry, fs) :: rest) ∧
      ∃ b parent, (Grammar.nextType order id options.checked built entry fs).base = some b ∧
        built[b]? = some parent ∧ parent.name = entry.base.getD rootName := by
  intro built
  obtain ⟨checkedNames, order', fields', ordered', resolved', rfl⟩ := ofGrammar_eq_ok_iff.mp h
  cases ordered.symm.trans ordered'
  cases resolved.symm.trans resolved'
  have named := Grammar.wellNamed_order checkedNames ordered
  have each := (forall₂_of_mapM_ok resolved).length_eq
  have base := Grammar.base_nextType named (Grammar.basesFirst_order ordered) each split
  have names : built.map NodeType.name =
      rootName :: (done.map Prod.fst).map TypeSpec.name :=
    Grammar.names_buildTypes [Grammar.rootType id options.checked] done
  rw [← names, List.getElem?_map, Option.map_eq_some_iff] at base
  obtain ⟨parent, found, same⟩ := base
  exact ⟨by rw [split, Grammar.buildTypes_append], _, parent, rfl, found, same⟩

theorem language_ofGrammar {id : Nat} {g : Grammar} {options : Options} {l : Language}
    (h : Language.ofGrammar id g options = .ok l) : ∀ type ∈ l.types, type.language = id := by
  intro type ht
  obtain ⟨order, -, -, -, -, built⟩ := built_ofGrammar h
  obtain ⟨i, place⟩ := List.mem_iff_getElem?.mp ht
  exact (built i type place).language

/-- The types stand at their indices, names tell them apart, and bases lead from every type to the
first one, along the indices that its ancestry holds. -/
structure SingleRooted (l : Language) : Prop where
  index : ∀ (i : Nat) (type : NodeType), l.types[i]? = some type → type.index = i
  get? : ∀ type ∈ l.types, ∀ name, l.get? name = some type ↔ name = type.name
  root : ∃ root, l.types[0]? = some root ∧ root.name = rootName ∧ root.base = none
  base : ∀ type ∈ l.types, type.index ≠ 0 → ∃ parent ∈ l.types,
    type.base = some parent.index ∧ l.base? type = some parent ∧ parent.index < type.index
  ancestors : ∀ type ∈ l.types, (l.ancestors type).head? = some type ∧
    (l.ancestors type).IsChain (fun a b => l.base? a = some b) ∧
      (l.ancestors type).getLast? = l.types[0]?
  ancestry : ∀ type ∈ l.types, type.ancestry = (l.ancestors type).map NodeType.index ∧
    type.ancestry.Pairwise (· > ·) ∧ type.ancestry.getLast? = some 0

theorem singleRooted {l : Language}
    (indexed : ∀ (i : Nat) (type : NodeType), l.types[i]? = some type → type.index = i)
    (linked : Grammar.Linked l.types) (named : l.WellNamed) {order : List TypeSpec}
    (names : l.types.map NodeType.name = Grammar.typeNames order) : l.SingleRooted where
  index := indexed
  get? type ht name := by
    refine ⟨fun found => ?_, fun same => same ▸ named.get?_name ht⟩
    have same := List.find?_some (p := fun other : NodeType => other.name == name) found
    exact (beq_iff_eq.mp same).symm
  root := by
    obtain ⟨root, rest, types, same, -⟩ := List.map_eq_cons_iff.mp names
    have place : l.types[0]? = some root := by rw [types, List.getElem?_cons_zero]
    refine ⟨root, place, same, ?_⟩
    cases linked 0 root place with
    | root _ base _ => exact base
    | derived before _ _ _ => exact absurd before (Nat.not_lt_zero _)
  base type ht later := by
    rcases cases_base indexed linked ht with ⟨first, -, -⟩ | ⟨parent, hp, base, before, -⟩
    · exact absurd first later
    · exact ⟨parent, hp, base, base?_eq_some indexed hp base, before⟩
  ancestors type ht := ⟨head?_ancestors type, ancestors_chain indexed linked ht⟩
  ancestry type ht :=
    ⟨ancestry_eq indexed linked ht, (ancestry_descends indexed linked ht).1,
      getLast?_ancestry indexed linked ht⟩

/-- Types that bear different numbers are not subtypes of each other. -/
theorem not_isSubtypeOf {a b : NodeType} (h : a.language ≠ b.language) :
    a.isSubtypeOf b = false := by
  rw [NodeType.isSubtypeOf, beq_false_of_ne h, Bool.false_and]

section Subtypes

variable {g : Grammar} {primitives : PrimitiveTable} {l : Language} {order : List TypeSpec}
  {checked : Bool} (perm : order.Perm g.entries)
  (built : ∀ i type, l.types[i]? = some type → Grammar.Built order primitives l.id checked i type)

include perm built

theorem isSubtypeOf_iff_derives {a b : NodeType} (ha : a ∈ l.types) (hb : b ∈ l.types) :
    a.isSubtypeOf b = true ↔ Grammar.Derives g.entries a.name b.name := by
  obtain ⟨i, placeA⟩ := List.mem_iff_getElem?.mp ha
  obtain ⟨j, placeB⟩ := List.mem_iff_getElem?.mp hb
  have builtA := built i a placeA
  have builtB := built j b placeB
  rw [NodeType.isSubtypeOf, builtA.language, builtB.language, beq_self_eq_true, Bool.true_and,
    List.contains_iff_mem, builtB.index]
  exact Grammar.mem_ancestry perm built ha builtB.name

end Subtypes

/-- A generated language is a hierarchy under one root, and its test for subtypes is the declared
one. Whenever a type is built, it looks its base up among the types built before and finds the one
with the declared name. The types are those of the entries and the root, at their indices; every
type but the root has a base before it, and its ancestry holds the indices of its ancestors. One
type is a subtype of another if declared bases lead from its name to that of the other, which is a
partial order with the root at its top. Types of languages with different numbers are not
related. -/
theorem ofGrammar_hierarchy {id : Nat} {g : Grammar} {options : Options} {l : Language}
    (generated : Language.ofGrammar id g options = .ok l) :
    (∀ order fields, Grammar.order g.entries = .ok order →
      order.mapM (Grammar.resolveFields order options.primitives) = .ok fields →
        ∀ done entry fs rest, order.zip fields = done ++ (entry, fs) :: rest →
          let built := Grammar.buildTypes order id options.checked
            [Grammar.rootType id options.checked] done
          l.types = Grammar.buildTypes order id options.checked built ((entry, fs) :: rest) ∧
            ∃ b parent, (Grammar.nextType order id options.checked built entry fs).base = some b ∧
              built[b]? = some parent ∧ parent.name = entry.base.getD rootName) ∧
    l.SingleRooted ∧
    (l.types.map NodeType.name).Perm (rootName :: g.entries.map TypeSpec.name) ∧
    (∀ a ∈ l.types, ∀ b ∈ l.types,
      a.isSubtypeOf b = true ↔ Grammar.Derives g.entries a.name b.name) ∧
    (∀ a ∈ l.types, a.isSubtypeOf a = true) ∧
    (∀ a ∈ l.types, ∀ b ∈ l.types,
      a.isSubtypeOf b = true → b.isSubtypeOf a = true → a = b) ∧
    (∀ a ∈ l.types, ∀ b ∈ l.types, ∀ c ∈ l.types,
      a.isSubtypeOf b = true → b.isSubtypeOf c = true → a.isSubtypeOf c = true) ∧
    (∃ top, l.get? rootName = some top ∧ ∀ a ∈ l.types, a.isSubtypeOf top = true) ∧
    ∀ id' g' options' l', id' ≠ id → Language.ofGrammar id' g' options' = .ok l' →
      ∀ a ∈ l.types, ∀ b ∈ l'.types, a.isSubtypeOf b = false ∧ b.isSubtypeOf a = false := by
  obtain ⟨order, perm, named, rfl, names, built⟩ := built_ofGrammar generated
  have indexed (i type place) := (built i type place).index
  have linked := linked_ofGrammar generated
  have rooted := singleRooted indexed linked (wellNamed_ofGrammar generated) names
  have subtype {a b : NodeType} (ha : a ∈ l.types) (hb : b ∈ l.types) :=
    isSubtypeOf_iff_derives perm built ha hb
  refine ⟨?_, rooted, ?_, fun a ha b hb => subtype ha hb, fun a ha => (subtype ha ha).mpr .refl,
    fun a ha b hb => isSubtypeOf_antisymm indexed linked ha hb,
    fun a ha b hb c hc ab bc => ?_, ?_, ?_⟩
  · exact fun _ _ ordered resolved _ _ _ _ => lookups_ofGrammar generated ordered resolved
  · rw [names, Grammar.typeNames]
    exact (perm.map TypeSpec.name).cons rootName
  · exact (subtype ha hc).mpr (((subtype ha hb).mp ab).trans ((subtype hb hc).mp bc))
  · obtain ⟨top, place, same, -⟩ := rooted.root
    have ht := List.mem_of_getElem? place
    refine ⟨top, (rooted.get? top ht rootName).mpr same.symm, fun a ha => (subtype ha ht).mpr ?_⟩
    rw [same]
    exact Grammar.derives_rootName perm built ha
  · intro id' g' options' l' other generated' a ha b hb
    have language := language_ofGrammar generated a ha
    have language' := language_ofGrammar generated' b hb
    exact ⟨not_isSubtypeOf (by rw [language, language']; exact other.symm),
      not_isSubtypeOf (by rw [language, language']; exact other)⟩

/-- Two entries come before their bases. The other language has nothing but its root. -/
theorem ofGrammar_hierarchy_block :
    Language.ofGrammar 0 blockGrammar { checked := true } = .ok blockLanguage ∧
      Language.ofGrammar 1 {} {} = .ok ⟨1, [Grammar.rootType 1 false], false⟩ ∧
      blockLanguage.SingleRooted ∧ Grammar.Derives blockGrammar.entries "int" "expr" ∧
      ¬ Grammar.Derives blockGrammar.entries "Block" "expr" ∧
      ∀ a ∈ blockLanguage.types, a.isSubtypeOf (Grammar.rootType 1 false) = false := by
  have generated :
      Language.ofGrammar 0 blockGrammar { checked := true } = .ok blockLanguage := by
    cbv
  have other : Language.ofGrammar 1 {} {} = .ok ⟨1, [Grammar.rootType 1 false], false⟩ := by
    cbv
  obtain ⟨-, rooted, -, subtype, -, -, -, -, foreign⟩ := ofGrammar_hierarchy generated
  refine ⟨generated, other, rooted, ?_, fun derives => ?_, fun a ha => ?_⟩
  · exact (subtype intType (by decide) exprType (by decide)).mp (by decide)
  · have sub := (subtype blockType (by decide) exprType (by decide)).mpr derives
    exact absurd sub (by decide)
  · exact (foreign 1 {} {} _ (by decide) other a ha _ List.mem_cons_self).1

end Language

end Arbor
