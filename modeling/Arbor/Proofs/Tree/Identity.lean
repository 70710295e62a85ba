import Arbor.Proofs.Tree.Valuation

/-!
# The objects that values are made of

An identity stands for one object, and an object does not change. The supply of identities is above
all that have been given out, so an object that is made later is none of those made before.
-/

namespace Arbor

/-- What the identities that have been given out stand for: those below the bound. -/
structure Heap where
  bound : Ident
  object : Ident → Shape

namespace Tree

variable {ι : Type}

mutual

/-- The nodes and sequences that a tree is made of, under their labels. -/
def objects : Tree ι → List (ι × Shape)
  | .node id type values => (id, .node () type (shapeAll values)) :: objectsAll values
  | .seq id items => (id, .seq () (shapeAll items)) :: objectsAll items
  | .prim _ | .absent | .pattern _ => []

def objectsAll : List (Tree ι) → List (ι × Shape)
  | [] => []
  | t :: ts => objects t ++ objectsAll ts

end

@[simp] theorem objectsAll_eq_flatMap (ts : List (Tree ι)) :
    objectsAll ts = ts.flatMap objects := by
  induction ts with
  | nil => rfl
  | cons t ts ih => rw [objectsAll, ih, List.flatMap_cons]

section

variable {P : ι × Shape → Prop} {id : ι}

theorem forall_objects_node {type : NodeType} {values : List (Tree ι)} :
    (∀ o ∈ (Tree.node id type values).objects, P o) ↔
      P (id, .node () type (shapeAll values)) ∧ ∀ v ∈ values, ∀ o ∈ v.objects, P o := by
  rw [objects, List.forall_mem_cons, objectsAll_eq_flatMap, List.forall_mem_flatMap]

theorem forall_objects_seq {items : List (Tree ι)} :
    (∀ o ∈ (Tree.seq id items).objects, P o) ↔
      P (id, .seq () (shapeAll items)) ∧ ∀ v ∈ items, ∀ o ∈ v.objects, P o := by
  rw [objects, List.forall_mem_cons, objectsAll_eq_flatMap, List.forall_mem_flatMap]

end

/-- All objects of the value were made before the supply of identities came to the bound. -/
def Below (bound : Ident) (t : Value) : Prop := ∀ o ∈ t.objects, o.1 < bound

instance (bound : Ident) (t : Value) : Decidable (t.Below bound) :=
  inferInstanceAs (Decidable (∀ o ∈ t.objects, o.1 < bound))

/-- All objects of the value are on the heap. -/
def On (heap : Heap) (t : Value) : Prop :=
  ∀ o ∈ t.objects, o.1 < heap.bound ∧ heap.object o.1 = o.2

instance (heap : Heap) (t : Value) : Decidable (t.On heap) :=
  inferInstanceAs (Decidable (∀ o ∈ t.objects, o.1 < heap.bound ∧ heap.object o.1 = o.2))

/-- The objects of the value are on the heap or newer than it: no identity has been given out
twice. -/
def Honest (heap : Heap) (t : Value) : Prop :=
  ∀ o ∈ t.objects, o.1 < heap.bound → heap.object o.1 = o.2

theorem On.honest {heap : Heap} {t : Value} (h : t.On heap) : t.Honest heap :=
  fun o ho _ => (h o ho).2

/-- What has the identity of an object on the heap is equal to it. -/
theorem shape_eq_of_identical {heap : Heap} {t old : Value} (honest : t.Honest heap)
    (on : old.On heap) (h : t.identical old = true) : t.shape = old.shape := by
  cases old with
  | node id type values =>
    cases t with
    | node =>
      cases eq_of_beq h
      obtain ⟨known, same⟩ := (forall_objects_node.mp on).1
      exact ((forall_objects_node.mp honest).1 known).symm.trans same
    | _ => cases h
  | seq id items =>
    cases t with
    | seq =>
      cases eq_of_beq h
      obtain ⟨known, same⟩ := (forall_objects_seq.mp on).1
      exact ((forall_objects_seq.mp honest).1 known).symm.trans same
    | _ => cases h
  | prim p =>
    cases t with
    | prim q => rw [eq_of_beq h]
    | _ => cases h
  | absent =>
    cases t with
    | absent => rfl
    | _ => cases h
  | pattern p =>
    cases t with
    | pattern q => rw [eq_of_beq h]
    | _ => cases h

end Tree

end Arbor
