import Mathlib
import Arbor.Proofs.Language.Hierarchy
import Arbor.Proofs.Tree.Nodes

/-!
# What checked construction accepts

A grammar says by names which values a field takes: instances of a declared type or of one that
derives from it, primitives of a kind, sequences of them, absence, and pattern terms in the place of
anything (`Grammar.Conforms`). Construction works on indices and ancestries instead. In a generated
and checked language both say the same.
-/

namespace Arbor

variable {ι : Type}

/-! ## What the grammar says -/

namespace Grammar

section Declarations

variable (g : Grammar) (primitives : PrimitiveTable) (l : Language)

/-- No type of the grammar has the name, so that it can stand for a primitive kind. -/
def Unshadowed (name : String) : Prop :=
  name ≠ rootName ∧ name ∉ g.entries.map TypeSpec.name

/-- The values that a type name stands for. -/
inductive Instance : String → Tree ι → Prop
  | root {id : ι} {type : NodeType} {values : List (Tree ι)} :
      type ∈ l.types → Instance rootName (.node id type values)
  | declared {name : String} {id : ι} {type : NodeType} {values : List (Tree ι)} :
      name ∈ g.entries.map TypeSpec.name → type ∈ l.types → Derives g.entries type.name name →
        Instance name (.node id type values)
  | primitive {name : String} {p : Prim} :
      g.Unshadowed name → primitives.lookup name = some p.kind → Instance name (.prim p)
  | object {name : String} {value : Tree ι} :
      g.Unshadowed name → primitives.lookup name = some .object → Instance name value

/-- The values that a field takes. -/
inductive Conforms : FieldSpec → Tree ι → Prop
  | pattern {field : FieldSpec} (term : Pattern) : Conforms field (.pattern term)
  | sequence {field : FieldSpec} {id : ι} {items : List (Tree ι)} :
      field.arity = .sequence →
        (∀ item ∈ items, item.isPattern = true ∨ Instance g primitives l field.typeName item) →
          Conforms field (.seq id items)
  | absent {field : FieldSpec} : field.arity = .optional → Conforms field .absent
  | one {field : FieldSpec} {value : Tree ι} :
      field.arity ≠ .sequence → Instance g primitives l field.typeName value →
        Conforms field value

end Declarations

end Grammar

/-- The nodes in a tree that bear the number of the language are of its types. -/
def Language.Owns (l : Language) (t : Tree ι) : Prop :=
  ∀ n ∈ t.nodes, n.type.language = l.id → n.type ∈ l.types

theorem Language.Owns.type {l : Language} {id : ι} {type : NodeType} {values : List (Tree ι)}
    (h : l.Owns (.node id type values)) : type.language = l.id → type ∈ l.types :=
  h ⟨id, type, values⟩ List.mem_cons_self

theorem Language.Owns.item {l : Language} {id : ι} {items : List (Tree ι)}
    (h : l.Owns (.seq id items)) : ∀ item ∈ items, l.Owns item :=
  Tree.forall_nodes_seq_iff.mp h

/-! ## What validation checks -/

namespace NodeType

theorem checkElement_ok {type : NodeType} {field : Field} {value : Tree ι} :
    type.checkElement field value = .ok () ↔
      field.target = .primitive .object ∨
        value.isSeq = false ∧ type.acceptsElement field value = true := by
  unfold checkElement
  split
  · simp_all
  split
  · simp_all
  split
  · simp_all
  split <;> simp_all

theorem checkItems_ok {type : NodeType} {field : Field} {items : List (Tree ι)} :
    type.checkItems field items = .ok () ↔
      ∀ item ∈ items, item.isPattern = true ∨ type.checkElement field item = .ok () := by
  induction items with
  | nil => simp [checkItems]
  | cons item rest ih =>
    rw [checkItems, List.forall_mem_cons, ← ih]
    split
    · simp_all
    · cases type.checkElement field item with
      | error e => simp_all [bind, Except.bind]
      | ok _ => simp_all [bind, Except.bind]

theorem checkFields_ok {type : NodeType} {fields : List (Field × Tree ι)} :
    type.checkFields fields = .ok () ↔ ∀ f ∈ fields, type.checkField f.1 f.2 = .ok () := by
  induction fields with
  | nil => simp [checkFields]
  | cons f rest ih =>
    obtain ⟨field, value⟩ := f
    rw [checkFields, List.forall_mem_cons, ← ih]
    cases type.checkField field value <;> simp [bind, Except.bind]

theorem construct_ok_iff {type : NodeType} {id : ι} {values : List (Tree ι)} :
    (∃ n, type.construct id values = .ok n) ↔ type.validate values = .ok () := by
  constructor
  · rintro ⟨n, built⟩
    exact (of_construct_ok built).2
  · intro valid
    exact ⟨⟨id, type, values⟩, by rw [construct, valid]; rfl⟩

theorem validate_ok_iff {type : NodeType} (checked : type.checked = true)
    {values : List (Tree ι)} :
    type.validate values = .ok () ↔
      type.kind = .concrete ∧ values.length = type.fields.length ∧
        ∀ f ∈ type.fields.zip values, type.checkField f.1 f.2 = .ok () := by
  rw [validate, isAbstract, if_pos checked, checkFields_ok.symm]
  cases type.kind with
  | abstract => simp
  | concrete =>
    split
    · simp_all
    split <;> simp_all

end NodeType

/-! ## Both say the same -/

namespace Grammar

theorem arity_of_resolveField {order : List TypeSpec} {primitives : PrimitiveTable}
    {entry : TypeSpec} {spec : FieldSpec} {field : Field}
    (h : resolveField order primitives entry spec = .ok field) : field.arity = spec.arity := by
  unfold resolveField at h
  split at h
  · cases h
    rfl
  split at h
  · cases h
    rfl
  · cases h

section Generated

variable {g : Grammar} {primitives : PrimitiveTable} {l : Language} {order : List TypeSpec}
  {checked : Bool} (perm : order.Perm g.entries) (named : WellNamed order)
  (built : ∀ i type, l.types[i]? = some type → Built order primitives l.id checked i type)

include perm in
theorem mem_typeNames {name : String} :
    name ∈ typeNames order ↔ name = rootName ∨ name ∈ g.entries.map TypeSpec.name := by
  rw [typeNames, List.mem_cons, (perm.map TypeSpec.name).mem_iff]

include perm in
theorem unshadowed_iff {name : String} : g.Unshadowed name ↔ name ∉ typeNames order := by
  rw [mem_typeNames perm, not_or, Unshadowed]

/-- A name without a position stands for what its kind accepts, sequences apart unless the kind
accepts anything. -/
theorem instance_of_kind {name : String} (unshadowed : g.Unshadowed name) {kind : PrimitiveKind}
    (found : primitives.lookup name = some kind) {value : Tree ι} :
    kind = .object ∨ value.isSeq = false ∧ kind.accepts value = true ↔
      Instance g primitives l name value := by
  constructor
  · rintro (rfl | ⟨-, accepted⟩)
    · exact .object unshadowed found
    · unfold PrimitiveKind.accepts at accepted
      split at accepted
      · exact .object unshadowed found
      · rename_i p _
        rw [← beq_iff_eq.mp accepted] at found
        exact .primitive unshadowed found
      · cases accepted
  · intro h
    cases h with
    | root ht => exact absurd rfl unshadowed.1
    | declared declared => exact absurd declared unshadowed.2
    | @primitive _ p _ found' =>
      rw [found'] at found
      cases found
      right
      cases p <;> exact ⟨rfl, rfl⟩
    | object _ found' =>
      rw [found'] at found
      cases found
      exact .inl rfl

include perm built

/-- The ancestry of a type tells the declared types that it derives from, and the root. -/
theorem mem_ancestry {type : NodeType} (ht : type ∈ l.types) {name : String} {index : Nat}
    (place : (typeNames order)[index]? = some name) :
    index ∈ type.ancestry ↔ Derives g.entries type.name name := by
  obtain ⟨i, found⟩ := List.mem_iff_getElem?.mp ht
  rw [(built i type found).ancestry, place]
  simp only [Option.some.injEq, exists_eq_left', derives_perm perm]

theorem derives_rootName {type : NodeType} (ht : type ∈ l.types) :
    Derives g.entries type.name rootName := by
  obtain ⟨i, found⟩ := List.mem_iff_getElem?.mp ht
  exact (mem_ancestry perm built ht rfl).mp (built i type found).root

/-- A name that has a position stands for the nodes whose ancestry holds it. -/
theorem instance_of_position {name : String} {index : Nat}
    (place : (typeNames order)[index]? = some name) {value : Tree ι} (owned : l.Owns value) :
    (∃ id type values, value = .node id type values ∧ type.language = l.id ∧
      index ∈ type.ancestry) ↔ Instance g primitives l name value := by
  have known : name ∈ typeNames order := List.mem_iff_getElem?.mpr ⟨index, place⟩
  constructor
  · rintro ⟨id, type, values, rfl, language, ancestor⟩
    have ht := owned.type language
    rcases (mem_typeNames perm).mp known with rfl | declared
    · exact .root ht
    · exact .declared declared ht ((mem_ancestry perm built ht place).mp ancestor)
  · intro h
    have language {type : NodeType} (ht : type ∈ l.types) : type.language = l.id := by
      obtain ⟨i, found⟩ := List.mem_iff_getElem?.mp ht
      exact (built i type found).language
    cases h with
    | root ht =>
      exact ⟨_, _, _, rfl, language ht,
        (mem_ancestry perm built ht place).mpr (derives_rootName perm built ht)⟩
    | declared _ ht derives =>
      exact ⟨_, _, _, rfl, language ht, (mem_ancestry perm built ht place).mpr derives⟩
    | primitive unshadowed => exact absurd known ((unshadowed_iff perm).mp unshadowed)
    | object unshadowed => exact absurd known ((unshadowed_iff perm).mp unshadowed)

include named

theorem checkElement_iff_instance {type : NodeType} (language : type.language = l.id)
    {entry : TypeSpec} {spec : FieldSpec} {field : Field}
    (resolved : resolveField order primitives entry spec = .ok field) {value : Tree ι}
    (owned : l.Owns value) :
    type.checkElement field value = .ok () ↔ Instance g primitives l spec.typeName value := by
  rw [NodeType.checkElement_ok]
  unfold resolveField at resolved
  split at resolved
  · rename_i index found
    cases resolved
    rw [indexOf?_eq_some named.nodup_typeNames] at found
    rw [← instance_of_position perm built found owned]
    cases value <;> simp [Tree.isSeq, NodeType.acceptsElement, language]
  · rename_i missing
    rw [indexOf?_eq_none, ← unshadowed_iff perm] at missing
    split at resolved
    · rename_i kind found
      cases resolved
      rw [← instance_of_kind missing found, Target.primitive.injEq]
      rfl
    · cases resolved

theorem checkField_iff_conforms {type : NodeType} (language : type.language = l.id)
    {entry : TypeSpec} {spec : FieldSpec} {field : Field}
    (resolved : resolveField order primitives entry spec = .ok field) {value : Tree ι}
    (owned : l.Owns value) :
    type.checkField field value = .ok () ↔ Conforms g primitives l spec value := by
  have element {value : Tree ι} (owned : l.Owns value) :=
    checkElement_iff_instance perm named built language resolved owned
  unfold NodeType.checkField
  rw [arity_of_resolveField resolved]
  split
  · rename_i pattern
    cases value with
    | pattern term => exact iff_of_true rfl (.pattern term)
    | _ => cases pattern
  rename_i notPattern
  split
  · rename_i sequence
    split
    · rw [NodeType.checkItems_ok]
      constructor
      · intro h
        refine .sequence sequence fun item hi => ?_
        exact (h item hi).imp_right (element (owned.item item hi)).mp
      · intro h
        cases h with
        | sequence _ h =>
          exact fun item hi => (h item hi).imp_right (element (owned.item item hi)).mpr
        | one other => exact absurd sequence other
    · rename_i notSeq
      refine iff_of_false nofun fun h => ?_
      cases h with
      | pattern => exact notPattern rfl
      | sequence => exact notSeq _ _ rfl
      | absent optional => cases sequence.symm.trans optional
      | one other => exact other sequence
  · rename_i optional
    split
    · rename_i absent
      cases value with
      | absent => exact iff_of_true rfl (.absent optional)
      | _ => cases absent
    · rename_i present
      rw [element owned]
      refine ⟨.one (by simp [optional]), fun h => ?_⟩
      cases h with
      | pattern => exact absurd rfl notPattern
      | sequence sequence => cases optional.symm.trans sequence
      | absent => exact absurd rfl present
      | one _ h => exact h
  · rename_i single
    rw [element owned]
    refine ⟨.one (by simp [single]), fun h => ?_⟩
    cases h with
    | pattern => exact absurd rfl notPattern
    | sequence sequence => cases single.symm.trans sequence
    | absent optional => cases single.symm.trans optional
    | one _ h => exact h

theorem validate_iff_conforms {type : NodeType} (language : type.language = l.id)
    (checks : type.checked = true) {entry : TypeSpec}
    (origin : ComesFrom order primitives type entry) {values : List (Tree ι)}
    (owned : ∀ v ∈ values, l.Owns v) :
    type.validate values = .ok () ↔
      entry.kind = .concrete ∧ List.Forall₂ (Conforms g primitives l) entry.fields values := by
  obtain ⟨-, -, kind, resolved⟩ := origin
  rw [NodeType.validate_ok_iff checks, kind]
  refine and_congr_right fun _ => ?_
  have resolved := forall₂_of_mapM_ok resolved
  generalize entry.fields = specs at resolved
  generalize type.fields = fields at resolved
  induction resolved generalizing values with
  | nil => cases values <;> simp
  | cons hf _ ih =>
    cases values with
    | nil => simp
    | cons value values =>
      rw [List.forall_mem_cons] at owned
      have rest : _ ↔ _ := ih owned.2
      rw [List.forall₂_cons, ← rest,
        ← checkField_iff_conforms perm named built language hf owned.1, List.zip_cons_cons,
        List.forall_mem_cons, List.length_cons, List.length_cons, Nat.add_right_cancel_iff]
      exact and_left_comm

end Generated

end Grammar

namespace Language

theorem exists_type {id : Nat} {g : Grammar} {options : Options} {l : Language}
    (generated : Language.ofGrammar id g options = .ok l) {order : List TypeSpec}
    (names : l.types.map NodeType.name = Grammar.typeNames order) {entry : TypeSpec}
    (he : entry ∈ order) : ∃ type ∈ l.types, type.name = entry.name ∧
      l.get? entry.name = some type := by
  have known : entry.name ∈ l.types.map NodeType.name := by
    rw [names]
    exact List.mem_cons_of_mem _ (List.mem_map_of_mem he)
  obtain ⟨type, ht, same⟩ := List.mem_map.mp known
  exact ⟨type, ht, same, same ▸ (wellNamed_ofGrammar generated).get?_name ht⟩

/-- In a generated and checked language, a node of a declared type can be built of exactly the
values that the grammar describes: the type is concrete, and there is one value for each field,
which conforms to the declaration of the field. -/
theorem construct_iff_conforms {id : Nat} {g : Grammar} {options : Options} {l : Language}
    (generated : Language.ofGrammar id g options = .ok l) (checked : options.checked = true)
    {entry : TypeSpec} (declared : entry ∈ g.entries) :
    ∃ type, l.get? entry.name = some type ∧
      ∀ (label : ι) (values : List (Tree ι)), (∀ v ∈ values, l.Owns v) →
        ((∃ n, type.construct label values = .ok n) ↔
          entry.kind = .concrete ∧
            List.Forall₂ (g.Conforms options.primitives l) entry.fields values) := by
  obtain ⟨order, perm, named, rfl, names, built⟩ := built_ofGrammar generated
  have he := perm.mem_iff.mpr declared
  obtain ⟨type, ht, same, found⟩ := exists_type generated names he
  obtain ⟨i, place⟩ := List.mem_iff_getElem?.mp ht
  have origin : Grammar.ComesFrom order options.primitives type entry := by
    rcases (built i type place).origin with rfl | ⟨other, origin⟩
    · have root : rootName = entry.name := (Option.some.inj (built 0 type place).name).trans same
      exact absurd (root ▸ List.mem_cons_self) (named.unreserved entry he)
    · cases List.inj_on_of_nodup_map named.distinct origin.1 he (origin.2.1.symm.trans same)
      exact origin
  refine ⟨type, found, fun label values owned => ?_⟩
  rw [NodeType.construct_ok_iff]
  exact Grammar.validate_iff_conforms perm named built (built i type place).language
    ((built i type place).checks.trans checked) origin owned

/-- Two levels of abstract types, the lower one declared first, and an entry with the name of a
primitive kind. -/
def blockGrammar : Grammar :=
  ⟨[⟨"Block", none, .concrete, [⟨"body", "expr", .sequence⟩, ⟨"tag", "int", .single⟩]⟩,
    ⟨"int", some "literal", .concrete, [⟨"n", "object", .single⟩]⟩,
    ⟨"literal", some "expr", .abstract, []⟩,
    ⟨"expr", none, .abstract, []⟩]⟩

def exprType : NodeType := ⟨"expr", 0, 1, .abstract, some 0, [1, 0], [], true⟩

def blockType : NodeType :=
  .plain "Block" 2 [⟨"body", "expr", .sequence, .node 1⟩, ⟨"tag", "int", .single, .node 4⟩]

def literalType : NodeType := ⟨"literal", 0, 3, .abstract, some 1, [3, 1, 0], [], true⟩

def intType : NodeType := .derived "int" 4 [3, 1, 0] [.object "n"]

def blockLanguage : Language :=
  ⟨0, [Grammar.rootType 0 true, exprType, blockType, literalType, intType], true⟩

/-- The field `tag` takes a node of the entry `int`, and not an integer. -/
theorem construct_iff_conforms_block :
    let number : Value := .node 0 intType [.seq 1 []]
    let body : Value := .seq 2 [number, .pattern .wildcard]
    Language.ofGrammar 0 blockGrammar { checked := true } = .ok blockLanguage ∧
      ∃ type, blockLanguage.get? "Block" = some type ∧
        (∃ n, type.construct 3 [body, number] = .ok n) ∧
          ¬∃ n, type.construct 3 [body, .prim (.int 7)] = .ok n := by
  intro number body
  have generated :
      Language.ofGrammar 0 blockGrammar { checked := true } = .ok blockLanguage := by
    cbv
  have declared : ⟨"Block", none, .concrete,
      [⟨"body", "expr", .sequence⟩, ⟨"tag", "int", .single⟩]⟩ ∈ blockGrammar.entries :=
    List.mem_cons_self
  obtain ⟨type, found, accepts⟩ := construct_iff_conforms generated rfl declared (ι := Ident)
  have ownNumber : blockLanguage.Owns number := by
    unfold Owns
    decide
  have ownBody : blockLanguage.Owns body := by
    unfold Owns
    decide
  refine ⟨generated, type, found, (accepts 3 _ ?_).mpr ⟨rfl, ?_⟩, fun built => ?_⟩
  · simpa using ⟨ownBody, ownNumber⟩
  · have isInt : blockGrammar.Instance PrimitiveTable.standard blockLanguage "int" number :=
      .declared (by decide) (by decide) .refl
    have isExpr : blockGrammar.Instance PrimitiveTable.standard blockLanguage "expr" number := by
      refine .declared (by decide) (by decide) ?_
      refine .head (b := "literal") ⟨_, .tail _ (.head _), rfl, rfl⟩ ?_
      exact .single ⟨_, .tail _ (.tail _ (.head _)), rfl, rfl⟩
    refine .cons (.sequence rfl ?_) (.cons (.one (by decide) isInt) .nil)
    simpa [Tree.isPattern] using isExpr
  · have owned : blockLanguage.Owns (.prim (.int 7) : Value) := List.forall_mem_nil _
    obtain ⟨-, conforms⟩ := (accepts 3 _ (by simpa using ⟨ownBody, owned⟩)).mp built
    cases conforms with
    | cons _ rest =>
      cases rest with
      | cons tag _ =>
        cases tag with
        | one _ isInt =>
          generalize named : "int" = name at isInt
          cases isInt with
          | primitive unshadowed => exact unshadowed.2 (named ▸ by decide)
          | object unshadowed => exact unshadowed.2 (named ▸ by decide)

end Language

end Arbor
