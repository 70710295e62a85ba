import Mathlib
import Arbor.Proofs.Traversal.Walking
import Arbor.Proofs.Tree.Identity

/-!
# What walks rebuild

A walk puts new values over those of a node that have changed, and keeps the items of a sequence
before the first that has changed. It finds out what has changed by identities. Up to identities it
makes no difference, as long as no identity is given out twice: a rebuilt node has the shapes that
the edits of its fields give, whether they are changes or not (`nodeAfter_draws`), and so has a
rebuilt sequence (`seqAfter_draws`).
-/

namespace Arbor

open Arbor.Tree

variable {σ α β : Type}

/-! ## Edits up to identities -/

namespace Edit

/-- What stands in the place of a value after an edit, up to identities: one tree or several. -/
def outline (old : Value) : Edit → Shape ⊕ List Shape
  | .unchanged => .inl old.shape
  | .replace new => .inl new.shape
  | .splice values => .inr (values.map shape)

/-- The edited value where there is room for one value only. -/
def whole (old : Value) (e : Edit) : Shape := (e.outline old).elim id (Tree.seq ())

/-- The edited value as items of a sequence. -/
def parts (old : Value) (e : Edit) : List Shape := (e.outline old).elim (fun s => [s]) id

theorem map_shape_items (old : Value) (e : Edit) : (e.items old).map shape = e.parts old := by
  cases e <;> rfl

section

variable {heap : Heap} {old new : Value} {e : Edit}

/-- An edit that gives the value itself gives something equal to it. -/
theorem outline_of_honest (h : e.All (Tree.Honest heap)) (on : old.On heap)
    (same : e.changes old = false) : e.outline old = .inl old.shape := by
  cases e with
  | unchanged => rfl
  | replace new =>
    have identical : new.identical old = true := by simpa [changes] using same
    rw [outline, shape_eq_of_identical h on identical]
  | splice values => cases same

theorem outline_ofValue (honest : new.Honest heap) (on : old.On heap) :
    (ofValue old new).outline old = .inl new.shape := by
  unfold ofValue
  split
  · rename_i identical
    rw [outline, shape_eq_of_identical honest on identical]
  · rfl

end

end Edit

/-! ## Drawing identities -/

theorem Tree.honest_node {heap : Heap} {id : Ident} (new : heap.bound ≤ id) {type : NodeType}
    {values : List Value} (honest : ∀ v ∈ values, v.Honest heap) :
    Tree.Honest heap (.node id type values) :=
  forall_objects_node.mpr ⟨fun old => absurd new (Nat.not_le.mpr old), honest⟩

theorem Tree.honest_seq {heap : Heap} {id : Ident} (new : heap.bound ≤ id) {items : List Value}
    (honest : ∀ v ∈ items, v.Honest heap) : Tree.Honest heap (.seq id items) :=
  forall_objects_seq.mpr ⟨fun old => absurd new (Nat.not_le.mpr old), honest⟩

/-- What resolving the edit of a value draws and gives. -/
theorem run_resolve {heap : Heap} {old : Value} {e : Edit} (honest : old.Honest heap)
    (h : e.All (Honest heap)) {w : World σ} (new : heap.bound ≤ w.next) :
    ∃ v m, (Effect.resolve old e).run w = (.ok v, { w with next := m }) ∧ w.next ≤ m ∧
      v.Honest heap ∧ v.shape = e.whole old := by
  cases e with
  | unchanged => exact ⟨old, w.next, rfl, Nat.le_refl _, honest, rfl⟩
  | replace new => exact ⟨new, w.next, rfl, Nat.le_refl _, h, rfl⟩
  | splice values =>
    refine ⟨.seq w.next values, w.next + 1, rfl, Nat.le_succ _, honest_seq new h, ?_⟩
    rw [shape, shapeAll_eq_map]
    rfl

/-- The node is made of honest objects, and of the shape of the other one. -/
structure Node.Formed (heap : Heap) (n : Node Ident) (m : Node Unit) : Prop where
  honest : n.toTree.Honest heap
  shape : n.toTree.shape = m.toTree

/-- Nodes of values of the same shapes are refused for the same reason. -/
theorem NodeType.construct_shapes (type : NodeType) {values : List Value} {ts : List Shape}
    (shapes : values.map shape = ts) :
    (type.construct () ts).mapError Error.construction =
      match type.validate values with
      | .ok () => .ok ⟨(), type, ts⟩
      | .error e => .error (.construction e) := by
  rw [construct, ← shapes, validate_shape]
  cases type.validate values <;> rfl

theorem Node.formed_of_shapes {heap : Heap} (n : Node Ident) (honest : n.toTree.Honest heap) :
    n.Formed heap ⟨(), n.type, n.values.map Tree.shape⟩ where
  honest := honest
  shape := by rw [Node.toTree, Tree.shape, shapeAll_eq_map, Node.toTree]

namespace Walk

/-- From the state the walk has the result, and all that it does is to draw identities. -/
def Draws (walk : Walk σ α) (s : WalkState σ) (result : Except Error α) : Prop :=
  ∃ m, walk.run s = (result, { s with world := { s.world with next := m } }) ∧ s.world.next ≤ m

theorem draws_pure (x : α) (s : WalkState σ) : Draws (pure x) s (.ok x) :=
  ⟨s.world.next, rfl, Nat.le_refl _⟩

theorem draws_ofEffect {a : Effect σ α} {s : WalkState σ} {result : Except Error α} {m : Ident}
    (run : a.run s.world = (result, { s.world with next := m })) (le : s.world.next ≤ m) :
    Draws (ofEffect a) s result := by
  refine ⟨m, ?_, le⟩
  change ((a.run s.world).1, { s with world := (a.run s.world).2 }) = _
  rw [run]

/-! ## Parts one after the other -/

/-- What two ways to go through values have given for each of them. -/
inductive Alongside (P : Value → α → β → Prop) : List Value → List α → List β → Prop
  | nil : Alongside P [] [] []
  | cons {v : Value} {vs : List Value} {x : α} {xs : List α} {y : β} {ys : List β} :
      P v x y → Alongside P vs xs ys → Alongside P (v :: vs) (x :: xs) (y :: ys)

namespace Alongside

variable {P : Value → α → β → Prop} {olds : List Value} {xs : List α} {ys : List β}

theorem length (h : Alongside P olds xs ys) : xs.length = olds.length := by
  induction h with
  | nil => rfl
  | cons _ _ ih => exact congrArg Nat.succ ih

theorem map {γ : Type} {Q : Value → α → γ → Prop} {f : β → γ} (h : Alongside P olds xs ys)
    (imp : ∀ v x y, P v x y → Q v x (f y)) : Alongside Q olds xs (ys.map f) := by
  induction h with
  | nil => exact .nil
  | cons first _ ih => exact .cons (imp _ _ _ first) ih

theorem left {Q : α → Prop} (h : Alongside P olds xs ys) (imp : ∀ v x y, P v x y → Q x) :
    ∀ x ∈ xs, Q x := by
  induction h with
  | nil => exact List.forall_mem_nil _
  | cons first _ ih => exact List.forall_mem_cons.mpr ⟨imp _ _ _ first, ih⟩

theorem right {Q : β → Prop} (h : Alongside P olds xs ys) (imp : ∀ v x y, P v x y → Q y) :
    ∀ y ∈ ys, Q y := by
  induction h with
  | nil => exact List.forall_mem_nil _
  | cons first _ ih => exact List.forall_mem_cons.mpr ⟨imp _ _ _ first, ih⟩

end Alongside

variable {heap : Heap} {old : Value} {olds : List Value} {s : WalkState σ}

/-! ## Fields -/

/-- A tree of the shape stands in a field after the walk, in an honest new value or in the old
one. -/
structure Stands (heap : Heap) (old : Value) (new : Option Value) (t : Shape) : Prop where
  shape : (new.getD old).shape = t
  honest : ∀ v, new = some v → v.Honest heap

theorem settle_draws {e : Edit} (on : old.On heap) (honest : e.All (Honest heap))
    (new : heap.bound ≤ s.world.next) :
    ∃ found, Draws (settle e old) s (.ok found) ∧ Stands heap old found (e.whole old) := by
  rw [settle]
  cases changed : e.changes old with
  | false =>
    have same : old.shape = e.whole old := by
      rw [Edit.whole, Edit.outline_of_honest honest on changed]
      rfl
    exact ⟨none, draws_pure none s, same, fun _ none => by cases none⟩
  | true =>
    obtain ⟨v, m, resolved, le, made, whole⟩ := run_resolve on.honest honest new
    obtain ⟨m, drawn, le⟩ := draws_ofEffect resolved le
    refine ⟨some v, ⟨m, run_bind_of_ok drawn _, le⟩, whole, ?_⟩
    rintro _ ⟨⟩
    exact made

theorem Alongside.overlay {news : List (Option Value)} {ts : List Shape}
    (h : Alongside (Stands heap) olds news ts) : (overlay news olds).map shape = ts := by
  induction h with
  | nil => rfl
  | cons first _ ih => exact congrArg₂ List.cons first.shape ih

/-- A node has after the walk the shapes that the walk has put into its fields. If nothing is new it
is the node itself, which is valid. -/
theorem nodeAfter_draws {node : Node Ident} (valid : node.type.validate node.values = .ok ())
    (on : node.toTree.On heap) {news : List (Option Value)} {ts : List Shape}
    (along : Alongside (Stands heap) node.values news ts) (new : heap.bound ≤ s.world.next) :
    ∃ result, Draws (nodeAfter NodeType.validate node news) s result ∧
      Results (Node.Formed heap) result ((node.type.construct () ts).mapError .construction) := by
  have inner : ∀ v ∈ node.values, v.On heap := (forall_objects_node.mp on).2
  have shapes := along.overlay
  by_cases calm : ∀ new ∈ news, new = none
  · rw [overlay_none calm] at shapes
    rw [nodeAfter_unchanged calm, NodeType.construct_shapes _ shapes, valid]
    refine ⟨.ok node, draws_pure node s, .ok ?_⟩
    rw [← shapes]
    exact node.formed_of_shapes on.honest
  · have changed : news.any Option.isSome = true := by
      simpa [List.any_eq_true, Option.isSome_iff_ne_none] using calm
    have run := run_rebuild NodeType.validate node (overlay news node.values) s.world
    rw [nodeAfter, changed, if_pos rfl, NodeType.construct_shapes _ shapes]
    cases checked : node.type.validate (overlay news node.values) with
    | error e =>
      rw [checked] at run
      exact ⟨_, draws_ofEffect run (Nat.le_refl _), .error _⟩
    | ok _ =>
      rw [checked] at run
      refine ⟨_, draws_ofEffect run (Nat.le_succ _), .ok ?_⟩
      rw [← shapes]
      refine Node.formed_of_shapes ⟨_, _, _⟩ (honest_node new (all_overlay ?_ ?_))
      · exact along.left fun _ _ _ stands => stands.honest
      · exact fun v hv => (inner v hv).honest

/-! ## Items -/

/-- Honest values of the shapes stand in the place of an item after its edit. -/
structure Spells (heap : Heap) (old : Value) (e : Edit) (ts : List Shape) : Prop where
  parts : e.parts old = ts
  honest : e.All (Honest heap)

namespace Alongside

variable {edits : List Edit} {news : List (List Shape)}

theorem items (h : Alongside (Spells heap) olds edits news) :
    ((edits.zip olds).flatMap fun p => p.1.items p.2).map shape = news.flatten := by
  induction h with
  | nil => rfl
  | cons first _ ih =>
    rw [List.zip_cons_cons, List.flatMap_cons, List.map_append, List.flatten_cons,
      Edit.map_shape_items, first.parts, ih]

/-- The items before the first change are kept, and those after it are taken from their edits. -/
theorem spliced (h : Alongside (Spells heap) olds edits news) (on : ∀ v ∈ olds, v.On heap) :
    (Walk.spliced (edits.zip olds)).map shape = news.flatten := by
  induction h with
  | nil => rfl
  | @cons old olds e edits ts news first rest ih =>
    rw [List.forall_mem_cons] at on
    rw [List.zip_cons_cons, Walk.spliced, List.flatten_cons]
    split
    · rw [List.map_append, Edit.map_shape_items, first.parts, rest.items]
    · rename_i same
      have kept : [old.shape] = ts := by
        rw [← first.parts, Edit.parts,
          Edit.outline_of_honest first.honest on.1 (Bool.eq_false_iff.mpr same)]
        rfl
      rw [List.map_cons, ih on.2, ← kept]
      rfl

end Alongside

theorem seqAfter_draws {seq : Seq Ident} (on : seq.toTree.On heap) {edits : List Edit}
    {news : List (List Shape)} (along : Alongside (Spells heap) seq.items edits news)
    (new : heap.bound ≤ s.world.next) :
    ∃ after, Draws (seqAfter seq edits) s (.ok after) ∧ after.toTree.Honest heap ∧
      after.toTree.shape = .seq () news.flatten := by
  have inner : ∀ v ∈ seq.items, v.On heap := (forall_objects_seq.mp on).2
  have shapes := along.spliced inner
  rw [seqAfter]
  cases changed : anyChange (edits.zip seq.items) with
  | false =>
    rw [spliced_of_calm changed along.length] at shapes
    refine ⟨seq, draws_pure seq s, on.honest, ?_⟩
    rw [Seq.toTree, shape, shapeAll_eq_map, shapes]
  | true =>
    refine ⟨⟨s.world.next, Walk.spliced (edits.zip seq.items)⟩,
      ⟨s.world.next + 1, rfl, Nat.le_succ _⟩, honest_seq new (all_spliced fun p hp => ?_), ?_⟩
    · refine ⟨?_, (inner _ (List.of_mem_zip hp).2).honest⟩
      exact along.left (fun _ _ _ spells => spells.honest) _ (List.of_mem_zip hp).1
    · rw [Seq.toTree, shape, shapeAll_eq_map, shapes]

end Walk

end Arbor
