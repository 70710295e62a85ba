import Arbor.Proofs.Tree.Valuation
import Arbor.Tree.Construct

/-!
# The nodes of trees

Which nodes occur in a tree, what holds of a tree if it holds of its parts (`Hereditary`), and that
the validity of a node depends only on the shapes of its values: an equal node is as valid, whatever
objects it is made of.
-/

namespace Arbor

variable {ι κ : Type}

namespace Tree

mutual

/-- The nodes that occur in a tree, each before those inside it. -/
def nodes : Tree ι → List (Node ι)
  | .node id type values => ⟨id, type, values⟩ :: nodesAll values
  | .seq _ items => nodesAll items
  | .prim _ | .absent | .pattern _ => []

def nodesAll : List (Tree ι) → List (Node ι)
  | [] => []
  | t :: ts => nodes t ++ nodesAll ts

end

@[simp] theorem nodesAll_eq_flatMap (ts : List (Tree ι)) : nodesAll ts = ts.flatMap nodes := by
  induction ts with
  | nil => rfl
  | cons t ts ih => rw [nodesAll, ih, List.flatMap_cons]

theorem eq_toTree_of_node? {t : Tree ι} {n : Node ι} (h : t.node? = some n) : t = n.toTree := by
  cases t with
  | node id type values =>
    cases h
    rfl
  | _ => cases h

theorem forall_nodes_node_iff {P : Node ι → Prop} {id : ι} {type : NodeType}
    {values : List (Tree ι)} :
    (∀ n ∈ (Tree.node id type values).nodes, P n) ↔
      P ⟨id, type, values⟩ ∧ ∀ v ∈ values, ∀ n ∈ v.nodes, P n := by
  rw [nodes, List.forall_mem_cons, nodesAll_eq_flatMap, List.forall_mem_flatMap]

theorem forall_nodes_seq_iff {P : Node ι → Prop} {id : ι} {items : List (Tree ι)} :
    (∀ n ∈ (Tree.seq id items).nodes, P n) ↔ ∀ v ∈ items, ∀ n ∈ v.nodes, P n := by
  rw [nodes, nodesAll_eq_flatMap, List.forall_mem_flatMap]

/-- Every node has one value for each field of its type. -/
def Full (t : Tree ι) : Prop := ∀ n ∈ t.nodes, n.values.length = n.type.fields.length

instance (t : Tree ι) : Decidable t.Full :=
  inferInstanceAs (Decidable (∀ n ∈ t.nodes, n.values.length = n.type.fields.length))

theorem full_node {id : ι} {type : NodeType} {values : List (Tree ι)} :
    (Tree.node id type values).Full ↔
      values.length = type.fields.length ∧ ∀ v ∈ values, v.Full :=
  forall_nodes_node_iff

theorem full_seq {id : ι} {items : List (Tree ι)} :
    (Tree.seq id items).Full ↔ ∀ v ∈ items, v.Full :=
  forall_nodes_seq_iff

/-- Every node passes the validation of its type. -/
def Valid (t : Tree ι) : Prop := ∀ n ∈ t.nodes, n.type.validate n.values = .ok ()

theorem valid_node {id : ι} {type : NodeType} {values : List (Tree ι)} :
    (Tree.node id type values).Valid ↔
      type.validate values = .ok () ∧ ∀ v ∈ values, v.Valid :=
  forall_nodes_node_iff

theorem valid_seq {id : ι} {items : List (Tree ι)} :
    (Tree.seq id items).Valid ↔ ∀ v ∈ items, v.Valid :=
  forall_nodes_seq_iff

/-- A property that valid nodes and sequences have if their parts do, and only then. -/
structure Hereditary (P : Tree ι → Prop) : Prop where
  node : ∀ {id : ι} {type : NodeType} {values : List (Tree ι)}, type.validate values = .ok () →
    (∀ v ∈ values, P v) → P (.node id type values)
  values : ∀ {id : ι} {type : NodeType} {values : List (Tree ι)},
    P (.node id type values) → ∀ v ∈ values, P v
  seq : ∀ {id : ι} {items : List (Tree ι)}, P (.seq id items) ↔ ∀ v ∈ items, P v

theorem full_iff_every {t : Tree ι} :
    t.Full ↔ t.Every (fun type n => n = type.fields.length) fun _ => True := by
  induction t using Tree.ind with
  | node id type values ih =>
    rw [full_node, Every, everyAll_iff]
    exact and_congr_right fun _ => forall₂_congr ih
  | seq id items ih =>
    rw [full_seq, Every, everyAll_iff]
    exact forall₂_congr ih
  | prim p => simp [Full, nodes, Every]
  | absent => simp [Full, nodes, Every]
  | pattern p => simp [Full, nodes, Every]

/-! ## Heights -/

theorem height_pos (t : Tree ι) : 0 < t.height := by
  cases t <;> simp [height]

theorem height_le_heightAll {t : Tree ι} {ts : List (Tree ι)} (h : t ∈ ts) :
    t.height ≤ heightAll ts := by
  induction h with
  | head ts => exact Nat.le_max_left _ _
  | tail _ _ ih => exact Nat.le_trans ih (Nat.le_max_right _ _)

/-- A part of a tree fits into what is left of an allowance for the whole. -/
theorem height_le_of_mem {t : Tree ι} {ts : List (Tree ι)} {allowance : Nat}
    (deep : heightAll ts + 1 ≤ allowance + 1) (h : t ∈ ts) : t.height ≤ allowance :=
  Nat.le_trans (height_le_heightAll h) (Nat.le_of_succ_le_succ deep)

/-! ## Shapes -/

@[simp] theorem describe_shape (t : Tree ι) : t.shape.describe = t.describe := by
  cases t <;> simp [shape, describe]

@[simp] theorem isPattern_shape (t : Tree ι) : t.shape.isPattern = t.isPattern := by
  cases t <;> rfl

@[simp] theorem isSeq_shape (t : Tree ι) : t.shape.isSeq = t.isSeq := by
  cases t <;> rfl

@[simp] theorem isAbsent_shape (t : Tree ι) : t.shape.isAbsent = t.isAbsent := by
  cases t <;> rfl

end Tree

namespace NodeType

theorem acceptsElement_shape (type : NodeType) (field : Field) (t : Tree ι) :
    type.acceptsElement field t.shape = type.acceptsElement field t := by
  unfold acceptsElement
  cases field.target with
  | node index => cases t <;> rfl
  | primitive kind => cases kind <;> cases t <;> rfl

theorem checkElement_shape (type : NodeType) (field : Field) (t : Tree ι) :
    type.checkElement field t.shape = type.checkElement field t := by
  simp only [checkElement, Tree.isSeq_shape, Tree.describe_shape, Tree.isAbsent_shape,
    acceptsElement_shape]

theorem checkItems_shape (type : NodeType) (field : Field) (items : List (Tree ι)) :
    type.checkItems field (items.map Tree.shape) = type.checkItems field items := by
  induction items with
  | nil => rfl
  | cons item rest ih =>
    simp only [List.map_cons, checkItems, Tree.isPattern_shape, checkElement_shape, ih]

theorem checkField_shape (type : NodeType) (field : Field) (t : Tree ι) :
    type.checkField field t.shape = type.checkField field t := by
  simp only [checkField, Tree.isPattern_shape, Tree.isAbsent_shape, checkElement_shape]
  cases field.arity with
  | sequence =>
    cases t with
    | seq id items => simp only [Tree.shape, Tree.shapeAll_eq_map, checkItems_shape]
    | _ => rfl
  | _ => rfl

theorem checkFields_shape (type : NodeType) (fields : List Field) (values : List (Tree ι)) :
    type.checkFields (fields.zip (values.map Tree.shape)) =
      type.checkFields (fields.zip values) := by
  induction fields generalizing values with
  | nil => rfl
  | cons field fields ih =>
    cases values with
    | nil => rfl
    | cons value values =>
      simp only [List.map_cons, List.zip_cons_cons, checkFields, checkField_shape, ih]

theorem validate_shape (type : NodeType) (values : List (Tree ι)) :
    type.validate (values.map Tree.shape) = type.validate values := by
  simp only [validate, List.length_map, checkFields_shape]

theorem validate_congr (type : NodeType) {vs : List (Tree ι)} {ws : List (Tree κ)}
    (h : vs.map Tree.shape = ws.map Tree.shape) : type.validate vs = type.validate ws := by
  rw [← validate_shape, h, validate_shape]

theorem length_of_validate {type : NodeType} {values : List (Tree ι)}
    (h : type.validate values = .ok ()) : values.length = type.fields.length := by
  unfold validate at h
  split at h
  · cases h
  split at h
  · cases h
  · rename_i same
    exact Decidable.not_not.mp same

theorem of_construct_ok {type : NodeType} {id : ι} {values : List (Tree ι)} {n : Node ι}
    (h : type.construct id values = .ok n) :
    n = ⟨id, type, values⟩ ∧ type.validate values = .ok () := by
  unfold construct at h
  cases valid : type.validate values with
  | error e =>
    rw [valid] at h
    cases h
  | ok _ =>
    rw [valid] at h
    cases h
    exact ⟨rfl, rfl⟩

end NodeType

namespace Tree

theorem hereditary_full : Hereditary (Full : Tree ι → Prop) where
  node valid inner := full_node.mpr ⟨NodeType.length_of_validate valid, inner⟩
  values full := (full_node.mp full).2
  seq := full_seq

theorem hereditary_valid : Hereditary (Valid : Tree ι → Prop) where
  node valid inner := valid_node.mpr ⟨valid, inner⟩
  values valid := (valid_node.mp valid).2
  seq := valid_seq

end Tree

/-! ## Types by their place -/

/-- A field that takes any one value. -/
def Field.object (name : String) : Field := ⟨name, "object", .single, .primitive .object⟩

namespace NodeType

/-- A concrete type, with the indices of the types above it. -/
def derived (name : String) (index : Nat) (above : List Nat) (fields : List Field) : NodeType where
  name := name
  language := 0
  index := index
  kind := .concrete
  base := above.head?
  ancestry := index :: above
  fields := fields
  checked := true

/-- A concrete type right below the root of its language. -/
def plain (name : String) (index : Nat) (fields : List Field) : NodeType :=
  derived name index [0] fields

/-- A plain type with one field, which holds anything. -/
def unary (name : String) (index : Nat) : NodeType :=
  plain name index [.object "value"]

end NodeType

end Arbor
