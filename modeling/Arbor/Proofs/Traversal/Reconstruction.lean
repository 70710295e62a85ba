import Mathlib
import Arbor.Proofs.Traversal.Rebuilding

/-!
# Walks that rebuild everything

The plain way to transform a tree is to visit its values in order and to make every node and every
sequence anew from what the visits of its parts have given (`Handlers.reconstruct`).

A walk that rebuilds only what has changed gives an equal tree or the same failure, and leaves the
caller in the same state, if the handlers do not tell apart what the two walks tell them: objects
from their copies, and how many changes have been counted (`Handlers.Blind`). The two walks are
followed side by side (`visit_tracks`).

Handlers written as scripts could also give an identity to a second object. That they do not is part
of being blind: their answers are made of objects on the heap and of new ones (`Tree.Honest`).
-/

namespace Arbor

open Arbor.Tree

variable {σ : Type}

/-! ## The plain walk -/

/-- A new node, if it is valid. -/
def Effect.newNode (type : NodeType) (values : List Value) : Effect σ (Node Ident) := do
  Effect.ofExcept .construction (type.construct (← Effect.fresh) values)

namespace Walk

/-- Makes a node of what its fields become. Several values in the place of one are a sequence. -/
def remakeNode (visit : Value → Walk σ Edit) (node : Node Ident) : Walk σ (Node Ident) := do
  let news ← collect (fun v => do ofEffect (Effect.resolve v (← visit v))) node.parts
  ofEffect (Effect.newNode node.type news)

/-- Makes a sequence of what its items become. Several values in the place of one are several
items. -/
def remakeSeq (visit : Value → Walk σ Edit) (seq : Seq Ident) : Walk σ (Seq Ident) := do
  let news ← collect (fun v => do return (← visit v).items v) seq.parts
  return ⟨← ofEffect Effect.fresh, news.flatten⟩

end Walk

/-- Nodes and sequences are always made anew. -/
def Ways.plain (visit : Value → Walk σ Edit) : Ways σ where
  visit := visit
  descend := Walk.remakeNode visit
  each := Walk.remakeSeq visit

namespace Handlers

/-- Visits a value by the plain walk, with an allowance for the nesting of visits. -/
def reconstruct (h : Handlers σ) : Nat → Value → Walk σ Edit
  | 0, _ => throw .tooDeep
  | allowance + 1, value => do
    let plain := Ways.plain (h.reconstruct allowance)
    let slot ← Walk.arrive
    match value with
    | .node id type values =>
      let node : Node Ident := ⟨id, type, values⟩
      Walk.inNode node slot ((h.node node).play plain)
    | .seq id items =>
      let after ← Walk.inSeq slot.field (plain.each ⟨id, items⟩)
      return .replace after.toTree
    | .pattern term => (h.pattern term).play plain
    | .prim p => (h.leaf (.prim p)).play plain
    | .absent => (h.leaf .absent).play plain

/-- Transforms a tree by the plain walk. -/
def reconstructed (h : Handlers σ) (allowance : Nat) (tree : Value) : Effect σ Value := do
  let edit ← fun w =>
    let (result, after) := (h.reconstruct allowance tree).run ⟨{}, w⟩
    (result, after.world)
  Effect.resolve tree edit

end Handlers

/-! ## What handlers do not see -/

/-- The context as it is known to a handler that does not ask for the changes. -/
def Context.uncounted (cx : Context) : Context := { cx with changed := 0 }

/-- Two worlds that differ in identities only. `R` says when two states of the caller do. -/
structure World.Twins (heap : Heap) (R : σ → σ → Prop) (w w' : World σ) : Prop where
  left : heap.bound ≤ w.next
  right : heap.bound ≤ w'.next
  log : w.log.map Record.line = w'.log.map Record.line
  user : R w.user w'.user

/-- Two values that differ in identities only, and in none that was given out before. -/
structure Tree.Twins (heap : Heap) (v v' : Value) : Prop where
  shape : v.shape = v'.shape
  left : v.Honest heap
  right : v'.Honest heap

/-- Two edits of one value that mean the same. -/
structure Edit.Twins (heap : Heap) (old : Value) (e e' : Edit) : Prop where
  outline : e.outline old = e'.outline old
  left : e.All (Tree.Honest heap)
  right : e'.All (Tree.Honest heap)

/-- Two scripts for one value that go on in the same way whatever they are told, as long as they are
told the same up to identities and counted changes. They may visit any valid value on the heap, such
as the parts of their own one by one. -/
inductive Script.Blind (heap : Heap) (R : σ → σ → Prop) (old : Value) :
    Script σ Edit → Script σ Edit → Prop
  | answer {r r' : Except Error Edit} :
      Results (Edit.Twins heap old) r r' → Blind heap R old (.answer r) (.answer r')
  | look {next next' : Context → Script σ Edit} :
      (∀ cx cx', cx.uncounted = cx'.uncounted → Blind heap R old (next cx) (next' cx')) →
        Blind heap R old (.look next) (.look next')
  | read {next next' : World σ → Script σ Edit} :
      (∀ w w', World.Twins heap R w w' → Blind heap R old (next w) (next' w')) →
        Blind heap R old (.read next) (.read next')
  | write {w w' : World σ} {next next' : Script σ Edit} :
      World.Twins heap R w w' → Blind heap R old next next' →
        Blind heap R old (.write w next) (.write w' next')
  | atField (name : String) {next next' : Script σ Edit} :
      Blind heap R old next next' → Blind heap R old (.atField name next) (.atField name next')
  | atIndex (index : Nat) {next next' : Script σ Edit} :
      Blind heap R old next next' → Blind heap R old (.atIndex index next) (.atIndex index next')
  | visit {value : Value} {next next' : Except Error Edit → Script σ Edit} :
      value.Valid → value.On heap →
        (∀ r r', Results (Edit.Twins heap value) r r' → Blind heap R old (next r) (next' r')) →
          Blind heap R old (.visit value next) (.visit value next')
  | descend {node : Node Ident} {next next' : Except Error (Node Ident) → Script σ Edit} :
      node.toTree.Valid → node.toTree.On heap →
        (∀ r r', Results (fun n n' => Tree.Twins heap n.toTree n'.toTree) r r' →
          Blind heap R old (next r) (next' r')) →
            Blind heap R old (.descend node next) (.descend node next')
  | each {seq : Seq Ident} {next next' : Except Error (Seq Ident) → Script σ Edit} :
      seq.toTree.Valid → seq.toTree.On heap →
        (∀ r r', Results (fun q q' => Tree.Twins heap q.toTree q'.toTree) r r' →
          Blind heap R old (next r) (next' r')) →
            Blind heap R old (.each seq next) (.each seq next')

/-- The handlers observe neither identities nor the count of changes, and a node of which a field
has changed is checked like any new one. -/
structure Handlers.Blind (heap : Heap) (R : σ → σ → Prop) (h : Handlers σ) : Prop where
  node : ∀ n : Node Ident, n.toTree.Valid → n.toTree.On heap →
    Script.Blind heap R n.toTree (h.node n) (h.node n)
  pattern : ∀ term, Script.Blind heap R (.pattern term) (h.pattern term) (h.pattern term)
  prim : ∀ p, Script.Blind heap R (.prim p) (h.leaf (.prim p)) (h.leaf (.prim p))
  absent : Script.Blind heap R .absent (h.leaf .absent) (h.leaf .absent)
  check : h.check = NodeType.validate

/-! ## Side by side -/

section SideBySide

variable {heap : Heap} {R : σ → σ → Prop}

theorem World.Twins.draw {m m' : Ident} {w w' : World σ} (h : World.Twins heap R w w')
    (left : w.next ≤ m) (right : w'.next ≤ m') :
    World.Twins heap R { w with next := m } { w' with next := m' } :=
  ⟨Nat.le_trans h.left left, Nat.le_trans h.right right, h.log, h.user⟩

theorem resolve_tracks {old : Value} {e e' : Edit} (honest : old.Honest heap)
    (h : Edit.Twins heap old e e') :
    Tracks (World.Twins heap R) (Tree.Twins heap) (Effect.resolve old e)
      (Effect.resolve old e') := by
  intro w w' twins
  obtain ⟨v, m, run, le, made, whole⟩ := run_resolve honest h.left twins.left
  obtain ⟨v', m', run', le', made', whole'⟩ := run_resolve honest h.right twins.right
  rw [run, run']
  refine ⟨.ok ⟨?_, made, made'⟩, twins.draw le le'⟩
  rw [whole, whole', Edit.whole, Edit.whole, h.outline]

theorem newNode_draws (type : NodeType) {values : List Value} {ts : List Shape}
    (shapes : values.map shape = ts) (honest : ∀ v ∈ values, v.Honest heap) {s : WalkState σ}
    (new : heap.bound ≤ s.world.next) :
    ∃ result, Walk.Draws (Walk.ofEffect (Effect.newNode type values)) s result ∧
      Results (Node.Formed heap) result ((type.construct () ts).mapError .construction) := by
  have fresh : (Effect.fresh : Effect σ Ident).run s.world =
      (.ok s.world.next, { s.world with next := s.world.next + 1 }) := rfl
  have run : (Effect.newNode type values).run s.world = _ := run_bind_of_ok fresh _
  rw [NodeType.construct] at run
  rw [NodeType.construct_shapes type shapes]
  cases checked : type.validate values with
  | error e =>
    rw [checked] at run
    exact ⟨_, Walk.draws_ofEffect run (Nat.le_succ _), .error _⟩
  | ok _ =>
    rw [checked] at run
    refine ⟨_, Walk.draws_ofEffect run (Nat.le_succ _), .ok ?_⟩
    rw [← shapes]
    exact Node.formed_of_shapes ⟨_, _, _⟩ (honest_node new honest)

namespace Walk

/-- The states of two walks that go side by side. -/
structure Beside (heap : Heap) (R : σ → σ → Prop) (s s' : WalkState σ) : Prop where
  context : s.context.uncounted = s'.context.uncounted
  world : World.Twins heap R s.world s'.world

/-- Two walks that only draw identities stay side by side. -/
theorem Draws.beside {α α' : Type} {P : α → α' → Prop} {a : Walk σ α} {b : Walk σ α'}
    {s s' : WalkState σ} {r : Except Error α} {r' : Except Error α'} (left : Draws a s r)
    (right : Draws b s' r') (beside : Beside heap R s s') (results : Results P r r') :
    Results P (a.run s).1 (b.run s').1 ∧ Beside heap R (a.run s).2 (b.run s').2 := by
  obtain ⟨m, run, le⟩ := left
  obtain ⟨m', run', le'⟩ := right
  rw [run, run']
  exact ⟨results, beside.context, beside.world.draw le le'⟩

theorem tracks_observe {α α' : Type} {P : α → α' → Prop} {a : Walk σ α} {b : Walk σ α'}
    (h : Tracks (Beside heap R) P a b) :
    Tracks (Beside heap R) (Results P) (observe a) (observe b) := by
  intro s s' beside
  obtain ⟨results, after⟩ := h s s' beside
  rw [run_observe, run_observe]
  revert results after
  rcases a.run s with ⟨r, t⟩
  rcases b.run s' with ⟨r', t'⟩
  intro results after
  change Results P r r' at results
  cases results with
  | ok twins => exact ⟨.ok (.ok twins), after⟩
  | error e =>
    cases e with
    | tooDeep => exact ⟨.error _, after⟩
    | _ => exact ⟨.ok (.error _), after⟩

/-- A move that does not depend on the changes counted. -/
theorem tracks_onContext (f : Context → Context) (h : ∀ cx, (f cx).uncounted = f cx.uncounted) :
    Tracks (Beside heap R) (fun _ _ => True) (onContext f) (onContext f) := by
  intro s s' beside
  refine ⟨.ok trivial, ?_, beside.world⟩
  exact (h _).trans ((congrArg f beside.context).trans (h _).symm)

theorem tracks_announce (place : Place) :
    Tracks (Beside heap R) (fun _ _ => True) (onContext fun cx => cx.announce place)
      (onContext fun cx => cx.announce place) :=
  tracks_onContext _ fun _ => by cases place <;> rfl

theorem tracks_arrive : Tracks (Beside heap R) Eq (arrive : Walk σ Slot) arrive := by
  intro s s' beside
  have slot := congrArg Context.slot beside.context
  exact ⟨.ok slot, congrArg Context.arrive beside.context, beside.world⟩

section Places

variable {α α' : Type} {P : α → α' → Prop} {a : Walk σ α} {b : Walk σ α'}

theorem tracks_inNode (node : Node Ident) (slot : Slot) (h : Tracks (Beside heap R) P a b) :
    Tracks (Beside heap R) P (inNode node slot a) (inNode node slot b) := by
  intro s s' beside
  have entered : s.context.uncounted.enter node slot = s'.context.uncounted.enter node slot :=
    congrArg (fun cx => cx.enter node slot) beside.context
  obtain ⟨results, after⟩ := h { s with context := s.context.enter node slot }
    { s' with context := s'.context.enter node slot } ⟨entered, beside.world⟩
  exact ⟨results, congrArg Context.leave after.context, after.world⟩

theorem tracks_inSeq (field : Option String) (h : Tracks (Beside heap R) P a b) :
    Tracks (Beside heap R) P (inSeq field a) (inSeq field b) := by
  intro s s' beside
  have set (field : Option String) {cx cx' : Context} (h : cx.uncounted = cx'.uncounted) :
      Context.uncounted { cx with seqField := field } =
        Context.uncounted { cx' with seqField := field } :=
    congrArg (fun cx : Context => { cx with seqField := field }) h
  have outer := congrArg Context.seqField beside.context
  change s.context.seqField = s'.context.seqField at outer
  obtain ⟨results, after⟩ := h { s with context := { s.context with seqField := field } }
    { s' with context := { s'.context with seqField := field } }
    ⟨set field beside.context, beside.world⟩
  refine ⟨results, ?_, after.world⟩
  exact (set s.context.seqField after.context).trans (by rw [outer]; rfl)

/-- Counting a change in the first walk makes no difference. -/
theorem tracks_count {a : Walk σ Edit} {b : Walk σ Edit} {P : Edit → Edit → Prop} (old : Value)
    (h : Tracks (Beside heap R) P a b) :
    Tracks (Beside heap R) P (do
      let edit ← a
      if edit.changes old then onContext Context.countChange
      return edit) b := by
  intro s s' beside
  obtain ⟨results, after⟩ := h s s' beside
  rw [run_bind]
  revert results after
  rcases a.run s with ⟨_ | edit, t⟩
  · exact fun results after => ⟨results, after⟩
  · intro results after
    dsimp only
    split <;> exact ⟨results, after.context, after.world⟩

end Places

end Walk

/-! ## Fields and items -/

namespace Walk

theorem collect_tracks {α β : Type} {P : Value → α → β → Prop} {f : Value → Walk σ α}
    {g : Value → Walk σ β} {parts : List Part}
    (h : ∀ part ∈ parts, Tracks (Beside heap R) (P part.value) (f part.value) (g part.value)) :
    Tracks (Beside heap R) (Alongside P (parts.map Part.value)) (collect f parts)
      (collect g parts) := by
  induction parts with
  | nil => exact tracks_pure .nil
  | cons part parts ih =>
    rw [List.forall_mem_cons] at h
    refine (tracks_announce part.place).bind fun _ _ _ => h.1.bind fun x y first => ?_
    exact (ih h.2).bind fun xs ys rest => tracks_pure (.cons first rest)

variable {visit visit' : Value → Walk σ Edit} {old : Value}

/-- The value that stands in a field after one walk, if it is a new one, and after the other. -/
def Fields (heap : Heap) (old : Value) (new : Option Value) (new' : Value) : Prop :=
  Stands heap old new new'.shape ∧ new'.Honest heap

theorem exchange_tracks (on : old.On heap)
    (h : Tracks (Beside heap R) (Edit.Twins heap old) (visit old) (visit' old)) :
    Tracks (Beside heap R) (Fields heap old) (exchange visit old)
      (do ofEffect (Effect.resolve old (← visit' old))) := by
  refine h.bind fun e e' twins s s' beside => ?_
  obtain ⟨new, left, stands⟩ := settle_draws on twins.left beside.world.left
  obtain ⟨new', m, resolved, le, made, whole⟩ :=
    run_resolve on.honest twins.right beside.world.right
  refine left.beside (draws_ofEffect resolved le) beside (.ok ⟨?_, made⟩)
  rw [whole, Edit.whole, ← twins.outline]
  exact stands

/-- Going down into a valid node. -/
theorem descend_tracks {node : Node Ident} (valid : node.toTree.Valid) (on : node.toTree.On heap)
    (h : ∀ v ∈ node.values,
      Tracks (Beside heap R) (Edit.Twins heap v) (visit v) (visit' v)) :
    Tracks (Beside heap R) (fun n n' => Tree.Twins heap n.toTree n'.toTree)
      (descend NodeType.validate visit node) (remakeNode visit' node) := by
  have parts : ∀ v ∈ node.values, v.On heap := (forall_objects_node.mp on).2
  have checked := (valid_node.mp valid).1
  have gathered := collect_tracks (P := Fields heap) (f := exchange visit)
    (g := fun v => do ofEffect (Effect.resolve v (← visit' v))) fun part member =>
      exchange_tracks (parts _ (Node.value_mem_of_part member))
        (h _ (Node.value_mem_of_part member))
  rw [Node.values_of_parts (NodeType.length_of_validate checked)] at gathered
  rw [descend_eq]
  refine gathered.bind fun news news' along s s' beside => ?_
  -- Both nodes are compared with the one of the shapes that the plain walk has found.
  obtain ⟨made, left, formed⟩ := nodeAfter_draws checked on
    (along.map fun _ _ _ fields => fields.1) beside.world.left
  obtain ⟨made', right, formed'⟩ := newNode_draws node.type rfl
    (along.right fun _ _ _ fields => fields.2) beside.world.right
  refine left.beside right beside ((formed.join formed').mono ?_)
  rintro n n' ⟨model, own, own'⟩
  exact ⟨own.shape.trans own'.shape.symm, own.honest, own'.honest⟩

/-- The edit of an item in one walk, and what the other walk puts in its place. -/
def Items (heap : Heap) (old : Value) (e : Edit) (news : List Value) : Prop :=
  Spells heap old e (news.map shape) ∧ ∀ v ∈ news, v.Honest heap

theorem items_tracks (on : old.On heap)
    (h : Tracks (Beside heap R) (Edit.Twins heap old) (visit old) (visit' old)) :
    Tracks (Beside heap R) (Items heap old) (visit old) (do return (← visit' old).items old) := by
  rw [← bind_pure (visit old)]
  refine h.bind fun e e' twins => tracks_pure ⟨⟨?_, twins.left⟩, twins.right.items on.honest⟩
  rw [Edit.map_shape_items, Edit.parts, twins.outline, Edit.parts]

theorem each_tracks {seq : Seq Ident} (on : seq.toTree.On heap)
    (h : ∀ v ∈ seq.items, Tracks (Beside heap R) (Edit.Twins heap v) (visit v) (visit' v)) :
    Tracks (Beside heap R) (fun q q' => Tree.Twins heap q.toTree q'.toTree) (each visit seq)
      (remakeSeq visit' seq) := by
  have parts : ∀ v ∈ seq.items, v.On heap := (forall_objects_seq.mp on).2
  have gathered := collect_tracks (P := Items heap) (g := fun v => do return (← visit' v).items v)
    fun part member => items_tracks (parts _ (Seq.value_mem_of_part member))
      (h _ (Seq.value_mem_of_part member))
  rw [Seq.values_of_parts] at gathered
  rw [each_eq]
  refine gathered.bind fun edits news along s s' beside => ?_
  obtain ⟨after, left, honest, shapes⟩ := seqAfter_draws on
    (along.map fun _ _ _ items => items.1) beside.world.left
  have right : Draws (do return Seq.mk (← ofEffect Effect.fresh) news.flatten) s'
      (.ok ⟨s'.world.next, news.flatten⟩) :=
    ⟨s'.world.next + 1, rfl, Nat.le_succ _⟩
  refine left.beside right beside (.ok ⟨?_, honest, honest_seq beside.world.right ?_⟩)
  · rw [shapes, Seq.toTree, shape, shapeAll_eq_map, List.map_flatten]
  · intro v hv
    obtain ⟨items, member, hv⟩ := List.mem_flatten.mp hv
    exact along.right (fun _ _ _ items => items.2) items member v hv

end Walk

/-! ## Scripts -/

/-- The first way of going on and the second one go side by side. -/
structure Ways.Beside (heap : Heap) (R : σ → σ → Prop) (ways ways' : Ways σ) : Prop where
  visit : ∀ v : Value, v.Valid → v.On heap →
    Tracks (Walk.Beside heap R) (Edit.Twins heap v) (ways.visit v) (ways'.visit v)
  descend : ∀ n : Node Ident, n.toTree.Valid → n.toTree.On heap →
    Tracks (Walk.Beside heap R) (fun n n' => Tree.Twins heap n.toTree n'.toTree) (ways.descend n)
      (ways'.descend n)
  each : ∀ q : Seq Ident, q.toTree.Valid → q.toTree.On heap →
    Tracks (Walk.Beside heap R) (fun q q' => Tree.Twins heap q.toTree q'.toTree) (ways.each q)
      (ways'.each q)

/-- Ways are side by side if the visits that they are made of are. -/
theorem Handlers.ways_beside {h : Handlers σ} (checked : h.check = NodeType.validate)
    {visit visit' : Value → Walk σ Edit}
    (visits : ∀ v : Value, v.Valid → v.On heap →
      Tracks (Walk.Beside heap R) (Edit.Twins heap v) (visit v) (visit' v)) :
    (h.ways visit).Beside heap R (Ways.plain visit') where
  visit := visits
  descend n valid on := by
    have parts : ∀ v ∈ n.values, v.On heap := (forall_objects_node.mp on).2
    rw [ways, checked]
    exact Walk.descend_tracks valid on fun v hv =>
      visits v ((valid_node.mp valid).2 v hv) (parts v hv)
  each q valid on := by
    have parts : ∀ v ∈ q.items, v.On heap := (forall_objects_seq.mp on).2
    exact Walk.each_tracks on fun v hv => visits v (valid_seq.mp valid v hv) (parts v hv)

/-- A script that is blind goes the same way in both walks. -/
theorem Script.Blind.tracks {old : Value} {script script' : Script σ Edit}
    (blind : Script.Blind heap R old script script') {ways ways' : Ways σ}
    (beside : ways.Beside heap R ways') :
    Tracks (Walk.Beside heap R) (Edit.Twins heap old) (script.play ways) (script'.play ways') := by
  induction blind with
  | answer results => exact fun s s' beside => ⟨results, beside⟩
  | look _ ih => exact fun s s' beside => ih _ _ beside.context s s' beside
  | read _ ih => exact fun s s' beside => ih _ _ beside.world s s' beside
  | write twins _ ih => exact fun s s' beside => ih _ _ ⟨beside.context, twins⟩
  | atField name _ ih => exact (Walk.tracks_announce (.field name)).bind fun _ _ _ => ih
  | atIndex index _ ih => exact (Walk.tracks_announce (.item index)).bind fun _ _ _ => ih
  | visit valid on _ ih => exact (Walk.tracks_observe (beside.visit _ valid on)).bind ih
  | descend valid on _ ih => exact (Walk.tracks_observe (beside.descend _ valid on)).bind ih
  | each valid on _ ih => exact (Walk.tracks_observe (beside.each _ valid on)).bind ih

/-! ## Visits -/

open Walk in
/-- Both walks visit a valid tree side by side. -/
theorem Handlers.visit_tracks {h : Handlers σ} (blind : h.Blind heap R) {allowance : Nat}
    {value : Value} (valid : value.Valid) (on : value.On heap) :
    Tracks (Beside heap R) (Edit.Twins heap value) (h.visit allowance value)
      (h.reconstruct allowance value) := by
  induction allowance generalizing value with
  | zero => exact fun s s' beside => ⟨.error _, beside⟩
  | succ allowance ih =>
    have beside := ways_beside blind.check fun _ valid on => ih valid on
    rw [visit, reconstruct]
    refine tracks_arrive.bind ?_
    rintro slot _ rfl
    refine tracks_count _ ?_
    cases value with
    | node id type values =>
      exact tracks_inNode _ _ ((blind.node ⟨id, type, values⟩ valid on).tracks beside)
    | seq id items =>
      refine (tracks_inSeq _ (beside.each ⟨id, items⟩ valid on)).bind fun after after' twins => ?_
      refine tracks_pure ⟨?_, Edit.all_ofValue twins.left, twins.right⟩
      rw [Edit.outline_ofValue twins.left on, Edit.outline, twins.shape]
    | prim p => exact (blind.prim p).tracks beside
    | absent => exact blind.absent.tracks beside
    | pattern term => exact (blind.pattern term).tracks beside

end SideBySide

/-- Rebuilding only what has changed gives what rebuilding everything gives: from equal states an
equal tree or the same failure, and equal states again. -/
theorem Handlers.process_reconstructs {heap : Heap} {R : σ → σ → Prop} {h : Handlers σ}
    (blind : h.Blind heap R) {tree : Value} (valid : tree.Valid) (on : tree.On heap)
    (allowance : Nat) :
    Tracks (World.Twins heap R) (fun t t' => t.same t' = true) (h.process allowance tree)
      (h.reconstructed allowance tree) := by
  have edits : Tracks (World.Twins heap R) (Edit.Twins heap tree)
      (fun w => ((h.walk allowance tree w).1.1, (h.walk allowance tree w).2))
      (fun w => (((h.reconstruct allowance tree).run ⟨{}, w⟩).1,
        ((h.reconstruct allowance tree).run ⟨{}, w⟩).2.world)) := by
    intro w w' twins
    obtain ⟨results, beside⟩ := visit_tracks blind valid on ⟨{}, w⟩ ⟨{}, w'⟩ ⟨rfl, twins⟩
    exact ⟨results, beside.world⟩
  refine (edits.bind fun e e' twins => resolve_tracks on.honest twins).mono ?_
  exact fun t t' twins => (same_iff t t').mpr twins.shape

namespace Handlers

/-- What stands in parentheses. -/
def bare {ι : Type} : Tree ι → Tree ι
  | .node id type [t] => if type.name = "Paren" then t else .node id type [t]
  | t => t

theorem shape_bare {ι : Type} : (t : Tree ι) → (bare t).shape = bare t.shape
  | .node id type [t] => by
    simp only [bare, shape, shapeAll]
    split <;> rfl
  | .node _ _ [] | .node _ _ (_ :: _ :: _) | .seq _ _ | .prim _ | .absent | .pattern _ => rfl

theorem honest_bare {heap : Heap} : {t : Value} → t.Honest heap → (bare t).Honest heap
  | .node id type [t], honest => by
    rw [bare]
    split
    · exact (forall_objects_node.mp honest).2 t List.mem_cons_self
    · exact honest
  | .node _ _ [], honest | .node _ _ (_ :: _ :: _), honest | .seq _ _, honest | .prim _, honest
  | .absent, honest | .pattern _, honest => honest

/-- Counts nodes and leaves, drops parentheses and leaves out zeros. -/
def baring : Handlers Nat where
  node n := .read fun w => .write { w with user := w.user + 1 } <|
    .descend n fun after =>
      .answer (after.map fun after => Edit.ofValue n.toTree (bare after.toTree))
  pattern _ := pure .unchanged
  leaf v := .read fun w => .write { w with user := w.user + 1 } <|
    pure (if v.identical (.prim (.int 0)) then .splice [] else .unchanged)

theorem blind_baring (heap : Heap) : baring.Blind heap Eq := by
  have unchanged (old : Value) : Edit.Twins heap old .unchanged .unchanged :=
    ⟨rfl, trivial, trivial⟩
  have leaf (v : Value) : Script.Blind heap Eq v (baring.leaf v) (baring.leaf v) := by
    refine .read fun w w' twins =>
      .write ⟨twins.left, twins.right, twins.log, ?_⟩ (.answer (.ok ?_))
    · exact congrArg Nat.succ twins.user
    · split
      · exact ⟨rfl, List.forall_mem_nil _, List.forall_mem_nil _⟩
      · exact unchanged v
  refine ⟨fun n valid on => ?_, fun term => .answer (.ok (unchanged _)), fun p => leaf _, leaf _,
    rfl⟩
  refine .read fun w w' twins => .write ⟨twins.left, twins.right, twins.log, ?_⟩ ?_
  · exact congrArg Nat.succ twins.user
  · refine .descend valid on fun r r' results => .answer ?_
    cases results with
    | error e => exact .error e
    | @ok after after' twins =>
      have left := honest_bare twins.left
      have right := honest_bare twins.right
      refine .ok ⟨?_, Edit.all_ofValue left, Edit.all_ofValue right⟩
      rw [Edit.outline_ofValue left on, Edit.outline_ofValue right on, shape_bare, shape_bare,
        twins.shape]

def unary (name : String) (index : Nat) (id : Ident) (value : Value) : Value :=
  .node id (.unary name index) [value]

def minusFive : Value := unary "Neg" 1 0 (.prim (.int 5))

/-- The first item and the last one are one object. -/
def grouped : Value :=
  unary "Neg" 1 4
    (.seq 3 [minusFive, unary "Paren" 2 2 (.prim (.int 7)), .prim (.int 0), minusFive])

def groupedHeap : Heap where
  bound := 5
  object i := (grouped.objects.lookup i).getD .absent

theorem process_reconstructs_grouped :
    grouped.Valid ∧ grouped.On groupedHeap ∧
      ((baring.process 4 grouped).run ⟨5, [], 0⟩).1 =
        .ok (unary "Neg" 1 6 (.seq 5 [minusFive, .prim (.int 7), minusFive])) ∧
      Tracks (World.Twins groupedHeap Eq) (fun t t' => t.same t' = true) (baring.process 4 grouped)
        (baring.reconstructed 4 grouped) := by
  have valid : grouped.Valid := by
    unfold Tree.Valid
    decide
  have on : grouped.On groupedHeap := by decide
  refine ⟨valid, on, ?_, process_reconstructs (blind_baring _) valid on 4⟩
  cbv

end Handlers

end Arbor
