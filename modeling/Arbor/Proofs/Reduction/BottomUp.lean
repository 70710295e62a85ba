import Mathlib
import Arbor.Proofs.Reduction.NormalForm
import Arbor.Proofs.Unify.Honesty

/-!
# One pass is bottom-up reduction

Without fixpoint mode a reduction is a function of the shape of a tree, written down here by
recursion (`Reducer.bottomUp`): the parts first, then the node made of them, then the rules in order
on that node. It knows nothing of identities, contexts and edits.

A pass walks a tree and rebuilds only what has changed, and it finds out what has changed by
identities. So the two agree as long as no identity is given out twice: the objects of the tree are
on a heap, and the rules put in objects of the heap and new ones only (`Rule.Honest`). They are
followed side by side, the state of a walk beside the number of replacements (`visit_follows`).
-/

namespace Arbor

open Arbor.Tree

variable {σ : Type}

/-! ## Reduction of shapes -/

namespace Tree

mutual

/-- A value of a shape. -/
def sample : Shape → Value
  | .node _ type values => .node 0 type (sampleAll values)
  | .seq _ items => .seq 0 (sampleAll items)
  | .prim p => .prim p
  | .absent => .absent
  | .pattern p => .pattern p

def sampleAll : List Shape → List Value
  | [] => []
  | s :: ss => sample s :: sampleAll ss

end

mutual

theorem shape_sample : (s : Shape) → s.sample.shape = s
  | .node _ _ values => by rw [sample, shape, shapeAll_sampleAll values]
  | .seq _ items => by rw [sample, shape, shapeAll_sampleAll items]
  | .prim _ | .absent | .pattern _ => rfl

theorem shapeAll_sampleAll : (ss : List Shape) → shapeAll (sampleAll ss) = ss
  | [] => rfl
  | s :: ss => by rw [sampleAll, shapeAll, shape_sample s, shapeAll_sampleAll ss]

end

end Tree

namespace Rule

/-- What a rule decides for values of a shape, found out in a world. -/
def decision (r : Rule σ) (w : World σ) (s : Shape) : Except Error (Option Verdict) :=
  ((r.apply s.sample).run w).1.map (Option.map Outcome.verdict)

/-- The replacement by the first rule that matches and does not defer. -/
def replacement (w : World σ) (s : Shape) : List (Rule σ) → Except Error (Option Shape)
  | [] => return none
  | r :: rest => do
    match ← r.decision w s with
    | none | some .defer => replacement w s rest
    | some .keep => return none
    | some (.replace t) => return some t

end Rule

namespace Reducer

/-- Failures over the number of replacements so far. -/
abbrev Counting := ExceptT Error (StateM Nat)

def Counting.ofExcept {α : Type} (result : Except Error α) : Counting α := fun n => (result, n)

/-- Tries the rules on a node and counts a replacement. -/
def replaced (rules : List (Rule σ)) (w : World σ) (s : Shape) : Counting (Option Shape) := do
  match ← Counting.ofExcept (Rule.replacement w s rules) with
  | none => return none
  | some t =>
    modify (· + 1)
    return some t

mutual

/-- Reduces the fields of every node in order, constructs the node anew and replaces it if the rules
say so. A replacement is not reduced again. -/
def bottomUp (rules : List (Rule σ)) (w : World σ) : Shape → Counting Shape
  | .node _ type values => do
    let news ← bottomUpAll rules w values
    let node ← Counting.ofExcept ((type.construct () news).mapError .construction)
    match ← replaced rules w node.toTree with
    | none => return node.toTree
    | some t => return t
  | .seq _ items => do
    let news ← bottomUpAll rules w items
    return .seq () news
  | .prim p => return .prim p
  | .absent => return .absent
  | .pattern p => return .pattern p

def bottomUpAll (rules : List (Rule σ)) (w : World σ) : List Shape → Counting (List Shape)
  | [] => return []
  | s :: ss => do
    let new ← bottomUp rules w s
    let news ← bottomUpAll rules w ss
    return new :: news

end

end Reducer

/-! ## Honest rules -/

namespace Rule

variable {heap : Heap}

/-- The objects that the rule puts in are those of the heap and new ones, and no identity of the
heap comes back to the supply. -/
structure Honest (heap : Heap) (r : Rule σ) : Prop where
  pattern : r.pattern.Honest heap
  action : ∀ s w, s.Honest heap → heap.bound ≤ w.next →
    heap.bound ≤ ((r.action s).run w).2.next ∧
      ∀ v, ((r.action s).run w).1 = .ok (.replace v) → v.Honest heap

theorem honest_ofTemplate (name : Option String) {pattern template : Value}
    (hp : pattern.Honest heap) (ht : template.Honest heap) :
    (ofTemplate name pattern template : Rule σ).Honest heap where
  pattern := hp
  action s w bound new := by
    simp only [ofTemplate]
    rw [run_bind, run_instantiate]
    cases applied : s.apply template w.next with
    | error e => exact ⟨new, fun _ made => by cases made⟩
    | ok made =>
      obtain ⟨u, next⟩ := made
      obtain ⟨le, honest⟩ := Substitution.apply_honest bound ht new applied
      refine ⟨Nat.le_trans new le, ?_⟩
      rintro _ ⟨⟩
      exact honest

theorem apply_honest {r : Rule σ} (honest : r.Honest heap) {v : Value} (own : v.Honest heap)
    {w : World σ} (new : heap.bound ≤ w.next) :
    heap.bound ≤ ((r.apply v).run w).2.next ∧
      ∀ u, ((r.apply v).run w).1 = .ok (some (.replace u)) → u.Honest heap := by
  let solution := Unify.solveAll [(r.pattern, v)] w.next
  let after : World σ :=
    { w with
      next := solution.next
      log := (solution.trace.map fun b => Record.bound b.1 b.2).reverse ++ w.log }
  have solved : (Effect.unify? r.pattern v).run w = (.ok solution.result.toOption, after) := rfl
  obtain ⟨le, bound⟩ := Unify.solve_honest [(r.pattern, v)] {} w.next
    (List.forall_mem_singleton.mpr ⟨honest.pattern, own⟩) (List.forall_mem_nil _) new
  have new' : heap.bound ≤ after.next := Nat.le_trans new le
  rw [apply, run_bind_of_ok solved]
  cases found : solution.result with
  | error e => exact ⟨new', fun _ made => by cases made⟩
  | ok s =>
    obtain ⟨kept, made⟩ := honest.action s after (bound s found) new'
    dsimp only [Except.toOption]
    rw [run_bind]
    rcases acted : (r.action s).run after with ⟨_ | outcome, w'⟩
    · rw [acted] at kept
      exact ⟨kept, fun _ made => by cases made⟩
    · rw [acted] at kept made
      refine ⟨kept, ?_⟩
      rintro u ⟨⟩
      exact made u rfl

theorem firstReplacement_follows {rules : List (Rule σ)} (functional : ∀ r ∈ rules, r.Functional)
    (honest : ∀ r ∈ rules, r.Honest heap) {n : Node Ident} (own : n.toTree.Honest heap)
    (w₀ : World σ) {w : World σ} (new : heap.bound ≤ w.next) :
    heap.bound ≤ ((firstReplacement n rules).run w).2.next ∧
      Results (fun found t => found.map shape = t ∧ ∀ v, found = some v → v.Honest heap)
        ((firstReplacement n rules).run w).1 (replacement w₀ n.toTree.shape rules) := by
  induction rules generalizing w with
  | nil => exact ⟨new, .ok ⟨rfl, fun _ none => by cases none⟩⟩
  | cons r rest ih =>
    rw [List.forall_mem_cons] at functional honest
    obtain ⟨kept, made⟩ := apply_honest honest.1 own new
    have decided : ((r.apply n.toTree).run w).1.map (Option.map Outcome.verdict) =
        r.decision w₀ n.toTree.shape :=
      apply_congr functional.1 (shape_sample _).symm w w₀
    rw [firstReplacement, run_bind, replacement, ← decided]
    rcases applied : (r.apply n.toTree).run w with ⟨_ | found, w'⟩
    · rw [applied] at kept
      exact ⟨kept, .error _⟩
    rw [applied] at kept made
    cases found with
    | none => exact ih functional.2 honest.2 kept
    | some outcome =>
      cases outcome with
      | defer => exact ih functional.2 honest.2 (w := { w' with log := _ }) kept
      | keep => exact ⟨kept, .ok ⟨rfl, fun _ none => by cases none⟩⟩
      | replace v =>
        refine ⟨kept, .ok ⟨rfl, ?_⟩⟩
        rintro _ ⟨⟩
        exact made v rfl

end Rule

/-! ## Side by side -/

/-- The world of a reducer that has made so many replacements. -/
structure Tallies (heap : Heap) (w : World (Progress σ)) (n : Nat) : Prop where
  new : heap.bound ≤ w.next
  steps : w.user.steps = n

/-- The edit puts one tree of honest objects in the place of a value. -/
structure Edit.Becomes (heap : Heap) (old : Value) (e : Edit) (t : Shape) : Prop where
  honest : e.All (Tree.Honest heap)
  outline : e.outline old = .inl t

namespace Walk

section Worlds

variable {α β : Type} {T : World σ → Nat → Prop} {P : α → β → Prop} {a : Walk σ α}
  {b : ExceptT Error (StateM Nat) β}

/-- A walk beside a count that only the world has to agree with. -/
abbrev Follows (T : World σ → Nat → Prop) (P : α → β → Prop) (a : Walk σ α)
    (b : ExceptT Error (StateM Nat) β) : Prop :=
  Tracks (fun s n => T s.world n) P a b

theorem Follows.ofEffect {a : Effect σ α} (h : Tracks T P a b) :
    Follows T P (Walk.ofEffect a) b :=
  fun s n tallies => h s.world n tallies

theorem Follows.placed (f : Context → Context) (h : Follows T P a b) :
    Follows T P (onContext f >>= fun _ => a) b := by
  intro s n tallies
  have placed : (onContext f).run s = (.ok (), { s with context := f s.context }) := rfl
  rw [run_bind_of_ok placed]
  exact h { s with context := f s.context } n tallies

theorem Moves.follows {outer : Walk σ α} (moves : Moves outer a) (h : Follows T P a b) :
    Follows T P outer b := by
  intro s n tallies
  obtain ⟨s₀, world, result, after⟩ := moves s
  have start : T s₀.world n := by
    rw [world]
    exact tallies
  obtain ⟨results, states⟩ := h s₀ n start
  refine ⟨result ▸ results, ?_⟩
  change T (outer.run s).2.world _
  rw [after]
  exact states

end Worlds

end Walk

theorem Handlers.visit_follows {T : World σ → Nat → Prop} {β : Type} {P : Edit → β → Prop}
    {h : Handlers σ} {allowance : Nat} {value : Value} {b : ExceptT Error (StateM Nat) β}
    (handled : ∀ slot, Walk.Follows T P (h.handle (h.ways (h.visit allowance)) slot value) b) :
    Walk.Follows T P (h.visit (allowance + 1) value) b := by
  intro s n tallies
  have inner := handled s.context.slot { s with context := s.context.arrive } n tallies
  rw [run_visit]
  revert inner
  rcases (h.handle (h.ways (h.visit allowance)) s.context.slot value).run
    { s with context := s.context.arrive } with ⟨_ | edit, after⟩
  · exact id
  · intro inner
    dsimp only
    split <;> exact inner

/-! ## Parts -/

namespace Reducer

open Walk

section Parts

variable {heap : Heap} {rules : List (Rule σ)} {w₀ : World σ}
  {visit : Value → Walk (Progress σ) Edit}

/-- Drawing identities changes no count. -/
theorem Draws.follows {α β : Type} {P : α → β → Prop} {a : Walk (Progress σ) α}
    {s : WalkState (Progress σ)} {x : Except Error α} {y : Except Error β} {n : Nat}
    (h : Draws a s x) (tallies : Tallies heap s.world n) (results : Results P x y) :
    Results P (a.run s).1 y ∧ Tallies heap (a.run s).2.world n := by
  obtain ⟨m, run, le⟩ := h
  rw [run]
  exact ⟨results, Nat.le_trans tallies.new le, tallies.steps⟩

theorem collect_follows {α : Type} {P : Value → α → Shape → Prop}
    {f : Value → Walk (Progress σ) α} {parts : List Part}
    (each : ∀ part ∈ parts, Follows (Tallies heap) (P part.value) (f part.value)
      (bottomUp rules w₀ part.value.shape)) :
    Follows (Tallies heap) (Alongside P (parts.map Part.value)) (collect f parts)
      (bottomUpAll rules w₀ (shapeAll (parts.map Part.value))) := by
  induction parts with
  | nil => exact tracks_pure .nil
  | cons part parts ih =>
    rw [List.forall_mem_cons] at each
    rw [collect, List.map_cons, shapeAll, bottomUpAll]
    refine Follows.placed _ (each.1.bind fun x t first => ?_)
    exact (ih each.2).bind fun xs ts rest => tracks_pure (.cons first rest)

theorem exchange_follows {old : Value} (on : old.On heap)
    (h : Follows (Tallies heap) (Edit.Becomes heap old) (visit old)
      (bottomUp rules w₀ old.shape)) :
    Follows (Tallies heap) (Stands heap old) (exchange visit old)
      (bottomUp rules w₀ old.shape) := by
  rw [← bind_pure (bottomUp rules w₀ old.shape)]
  refine h.bind fun e t becomes s n tallies => ?_
  obtain ⟨new, drawn, stands⟩ := settle_draws on becomes.honest tallies.new
  rw [Edit.whole, becomes.outline] at stands
  exact Draws.follows drawn tallies (.ok stands)

theorem descend_follows {node : Node Ident} (valid : node.type.validate node.values = .ok ())
    (on : node.toTree.On heap)
    (each : ∀ v ∈ node.values,
      Follows (Tallies heap) (Edit.Becomes heap v) (visit v) (bottomUp rules w₀ v.shape)) :
    Follows (Tallies heap) (Node.Formed heap) (descend NodeType.validate visit node) (do
      let news ← bottomUpAll rules w₀ (shapeAll node.values)
      Counting.ofExcept ((node.type.construct () news).mapError .construction)) := by
  have parts : ∀ v ∈ node.values, v.On heap := (forall_objects_node.mp on).2
  have gathered := collect_follows (P := Stands heap) fun part member =>
    exchange_follows (parts _ (Node.value_mem_of_part member))
      (each _ (Node.value_mem_of_part member))
  rw [Node.values_of_parts (NodeType.length_of_validate valid)] at gathered
  rw [descend_eq]
  refine gathered.bind fun news ts along s n tallies => ?_
  obtain ⟨made, drawn, formed⟩ := nodeAfter_draws valid on along tallies.new
  exact Draws.follows drawn tallies formed

theorem each_follows {seq : Seq Ident} (on : seq.toTree.On heap)
    (each : ∀ v ∈ seq.items,
      Follows (Tallies heap) (Edit.Becomes heap v) (visit v) (bottomUp rules w₀ v.shape)) :
    Follows (Tallies heap)
      (fun after ts => after.toTree.Honest heap ∧ after.toTree.shape = .seq () ts)
      (Walk.each visit seq) (bottomUpAll rules w₀ (shapeAll seq.items)) := by
  have gathered := collect_follows (P := Edit.Becomes heap) fun part member =>
    each part.value (Seq.value_mem_of_part member)
  rw [Seq.values_of_parts] at gathered
  rw [each_eq, ← bind_pure (bottomUpAll rules w₀ (shapeAll seq.items))]
  refine gathered.bind fun edits ts along s n tallies => ?_
  have spelled : Alongside (Spells heap) seq.items edits (ts.map fun t => [t]) := by
    refine along.map fun old e t becomes => ⟨?_, becomes.honest⟩
    rw [Edit.parts, becomes.outline]
    rfl
  obtain ⟨after, drawn, honest, shapes⟩ := seqAfter_draws on spelled tallies.new
  refine Draws.follows drawn tallies (.ok ⟨honest, shapes.trans ?_⟩)
  rw [← List.flatMap_def, List.flatMap_singleton']

end Parts

/-! ## One pass -/

section Pass

variable {heap : Heap} {r : Reducer σ} (single : r.fixpoint = false)

include single

theorem run_countStep_single (w : World (Progress σ)) :
    r.countStep.run w =
      (.ok (), { w with user := { w.user with steps := w.user.steps + 1 } }) := by
  rw [run_countStep, if_neg fun limited => by simp [single] at limited]

theorem reduceNode_eq (node : Node Ident) :
    r.reduceNode node = r.tryRules node >>= fun found =>
      match found with
      | none => pure none
      | some value => r.countStep >>= fun _ => pure (some value) := by
  rw [reduceNode]
  congr 1
  funext found
  cases found with
  | none => rfl
  | some value =>
    dsimp only
    rw [single]
    rfl

variable (functional : ∀ rule ∈ r.rules, rule.Functional)
  (honest : ∀ rule ∈ r.rules, rule.Honest heap) (w₀ : World σ)

include functional honest

theorem reduceNode_follows {n : Node Ident} (own : n.toTree.Honest heap) :
    Tracks (Tallies heap)
      (fun found t => found.map shape = t ∧ ∀ v, found = some v → v.Honest heap)
      (r.reduceNode n) (replaced r.rules w₀ n.toTree.shape) := by
  rw [reduceNode_eq single, replaced]
  have tried : Tracks (Tallies heap)
      (fun found t => found.map shape = t ∧ ∀ v, found = some v → v.Honest heap) (r.tryRules n)
      (Counting.ofExcept (Rule.replacement w₀ n.toTree.shape r.rules)) := by
    intro w m tallies
    obtain ⟨new, results⟩ := Rule.firstReplacement_follows functional honest own w₀
      (w := { next := w.next, log := w.log, user := w.user.user }) tallies.new
    exact ⟨results, new, tallies.steps⟩
  refine tried.bind ?_
  rintro found _ ⟨rfl, made⟩
  cases found with
  | none => exact tracks_pure ⟨rfl, made⟩
  | some value =>
    intro w m tallies
    rw [run_bind_of_ok (run_countStep_single single w)]
    exact ⟨.ok ⟨rfl, made⟩, tallies.new, congrArg Nat.succ tallies.steps⟩

theorem node_follows {visit : Value → Walk (Progress σ) Edit} {node : Node Ident}
    (valid : node.type.validate node.values = .ok ()) (on : node.toTree.On heap)
    (each : ∀ v ∈ node.values,
      Follows (Tallies heap) (Edit.Becomes heap v) (visit v) (bottomUp r.rules w₀ v.shape)) :
    Follows (Tallies heap) (Edit.Becomes heap node.toTree)
      ((r.handlers.node node).play (r.handlers.ways visit))
      (bottomUp r.rules w₀ node.toTree.shape) := by
  rw [play_node, Node.toTree, shape, bottomUp, ← bind_assoc]
  refine (descend_follows valid on each).bind ?_
  rintro after m ⟨made, same⟩
  -- The rules are tried on the node as it is after its fields, not on the one that was visited.
  rw [← same]
  refine (Follows.ofEffect (reduceNode_follows single functional honest w₀ made)).bind ?_
  rintro found _ ⟨rfl, put⟩
  cases found with
  | none => exact tracks_pure ⟨Edit.all_ofValue made, Edit.outline_ofValue made on⟩
  | some value => exact tracks_pure ⟨put value rfl, rfl⟩

theorem visit_follows {allowance : Nat} {value : Value} (valid : value.Valid)
    (on : value.On heap) (deep : value.height ≤ allowance) :
    Follows (Tallies heap) (Edit.Becomes heap value) (r.handlers.visit allowance value)
      (bottomUp r.rules w₀ value.shape) := by
  induction allowance generalizing value with
  | zero => exact absurd value.height_pos (Nat.not_lt.mpr deep)
  | succ allowance ih =>
    apply Handlers.visit_follows
    intro slot
    cases value with
    | node id type values =>
      rw [valid_node] at valid
      have parts : ∀ v ∈ values, v.On heap := (forall_objects_node.mp on).2
      apply (moves_inNode _ _ _).follows
      let node : Node Ident := ⟨id, type, values⟩
      change Follows _ (Edit.Becomes heap node.toTree) ((r.handlers.node node).play _)
        (bottomUp r.rules w₀ node.toTree.shape)
      exact node_follows single functional honest w₀ valid.1 on fun v hv =>
        ih (valid.2 v hv) (parts v hv) (height_le_of_mem deep hv)
    | seq id items =>
      rw [valid_seq] at valid
      have parts : ∀ v ∈ items, v.On heap := (forall_objects_seq.mp on).2
      rw [shape, bottomUp]
      have on' : (Seq.toTree ⟨id, items⟩).On heap := on
      refine ((moves_inSeq _ _).follows (each_follows on' fun v hv =>
        ih (valid v hv) (parts v hv) (height_le_of_mem deep hv))).bind ?_
      rintro after ts ⟨made, shape⟩
      refine tracks_pure ⟨Edit.all_ofValue made, ?_⟩
      rw [Edit.outline_ofValue made on, shape]
    | prim p => exact tracks_pure ⟨trivial, rfl⟩
    | absent => exact tracks_pure ⟨trivial, rfl⟩
    | pattern p => exact tracks_pure ⟨trivial, rfl⟩

theorem walking_follows {tree : Value} (valid : tree.Valid) (on : tree.On heap) :
    Tracks (Tallies heap) (fun p t => p.1.Becomes heap tree t) (r.walking tree)
      (bottomUp r.rules w₀ tree.shape) := by
  intro w n tallies
  obtain ⟨results, states⟩ := visit_follows single functional honest w₀ valid on
    (Nat.le_refl _) ⟨{}, w⟩ n tallies
  exact ⟨Results.map results, states⟩

theorem pass_follows {tree : Value} (valid : tree.Valid) (on : tree.On heap) (number : Nat) :
    Tracks (Tallies heap) (fun v t => v.shape = t) (r.pass number tree)
      (bottomUp r.rules w₀ tree.shape) := by
  intro w n tallies
  have current : (get : Effect (Progress σ) (World (Progress σ))).run w = (.ok w, w) := rfl
  rw [pass_eq, run_bind_of_ok current, ← bind_pure (bottomUp r.rules w₀ tree.shape)]
  refine (walking_follows single functional honest w₀ valid on).bind ?_ w n tallies
  rintro ⟨edit, cx⟩ t ⟨-, outline⟩ w' n' tallies
  cases edit with
  | unchanged => exact ⟨.ok (Sum.inl.inj outline), tallies.new, tallies.steps⟩
  | replace value => exact ⟨.ok (Sum.inl.inj outline), tallies.new, tallies.steps⟩
  | splice values => cases outline

end Pass

/-! ## No replacements -/

/-- A visit that counts no replacement leaves the value as it is. -/
def Keeps (visit : Value → Walk (Progress σ) Edit) (v : Value) : Prop :=
  ∀ e s s', (visit v).run s = (.ok e, s') → s.world.user.steps ≤ s'.world.user.steps ∧
    (s'.world.user.steps = s.world.user.steps → e = .unchanged)

section Keeps

variable {visit : Value → Walk (Progress σ) Edit} {s s' : WalkState (Progress σ)}

theorem keeps_visited {values : List Value} {edits : List Edit}
    (each : ∀ v ∈ values, Keeps visit v) (h : Visited visit values edits s s') :
    s.world.user.steps ≤ s'.world.user.steps ∧
      (s'.world.user.steps = s.world.user.steps → ∀ e ∈ edits, e = .unchanged) := by
  induction h with
  | nil user =>
    rw [user]
    exact ⟨Nat.le_refl _, fun _ => List.forall_mem_nil _⟩
  | cons user first _ ih =>
    rw [List.forall_mem_cons] at each
    obtain ⟨le, own⟩ := each.1 _ _ _ first
    obtain ⟨le', others⟩ := ih each.2
    rw [user] at le own
    refine ⟨Nat.le_trans le le', fun same => ?_⟩
    exact List.forall_mem_cons.mpr ⟨own (by omega), others (by omega)⟩

variable {r : Reducer σ} (single : r.fixpoint = false)

include single

theorem reduceNode_keeps {n : Node Ident} {found : Option Value} {w w' : World (Progress σ)}
    (h : (r.reduceNode n).run w = (.ok found, w')) :
    w.user.steps ≤ w'.user.steps ∧ (w'.user.steps = w.user.steps → found = none) := by
  rw [reduceNode_eq single] at h
  obtain ⟨tried, w₁, ran, h⟩ := run_bind_eq_ok h
  obtain ⟨steps, -⟩ := lift_ok ran
  cases tried with
  | none =>
    cases h
    exact ⟨Nat.le_of_eq steps.symm, fun _ => rfl⟩
  | some value =>
    rw [run_bind_of_ok (run_countStep_single single w₁)] at h
    cases h
    have counted : w₁.user.steps + 1 = w.user.steps + 1 := congrArg Nat.succ steps
    change w.user.steps ≤ w₁.user.steps + 1 ∧ (w₁.user.steps + 1 = w.user.steps → _)
    exact ⟨by omega, fun same => by omega⟩

theorem node_keeps {n : Node Ident} (full : n.toTree.Full) (each : ∀ v ∈ n.values, Keeps visit v)
    {edit : Edit}
    (run : ((r.handlers.node n).play (r.handlers.ways visit)).run s = (.ok edit, s')) :
    s.world.user.steps ≤ s'.world.user.steps ∧
      (s'.world.user.steps = s.world.user.steps → edit = .unchanged) := by
  rw [play_node] at run
  obtain ⟨reduced, s₁, descended, run⟩ := run_bind_eq_ok run
  obtain ⟨found, s₂, tried, answer⟩ := run_bind_eq_ok run
  obtain ⟨edits, visited, -, calm⟩ := descend_ok full descended
  obtain ⟨le, inner⟩ := keeps_visited each visited
  obtain ⟨le', own⟩ := reduceNode_keeps single (ofEffect_ok tried).1
  have state : s' = s₂ := by
    cases found <;> cases answer <;> rfl
  rw [state]
  refine ⟨Nat.le_trans le le', fun same => ?_⟩
  -- Nothing was counted below, so the rules were tried on the node itself and declined it.
  cases own (by omega)
  cases calm (inner (by omega))
  cases answer
  exact Edit.ofValue_self _

theorem visit_keeps {allowance : Nat} {value : Value} (full : value.Full) :
    Keeps (r.handlers.visit allowance) value := by
  induction allowance generalizing value with
  | zero => exact fun e s s' run => by (cases run)
  | succ allowance ih =>
    intro edit s s' run
    obtain ⟨s₁, handled, world⟩ := Handlers.visit_ok run
    rw [world]
    cases value with
    | node id type values =>
      obtain ⟨s₂, s₃, before, played, after⟩ := (moves_inNode _ _ _).ok handled
      have full' : (Node.toTree ⟨id, type, values⟩).Full := full
      have kept := node_keeps single full' (fun v hv => ih ((full_node.mp full).2 v hv)) played
      rw [before, ← after] at kept
      exact kept
    | seq id items =>
      obtain ⟨after, s₂, s₃, before, walked, rfl, world'⟩ := Handlers.handle_seq_ok handled
      have full' : (Seq.toTree ⟨id, items⟩).Full := full
      obtain ⟨edits, visited, -, calm⟩ := each_ok full' walked
      obtain ⟨le, inner⟩ := keeps_visited (fun v hv => ih (full_seq.mp full v hv)) visited
      rw [← world', before] at le inner
      refine ⟨le, fun same => ?_⟩
      cases calm (inner same)
      exact Edit.ofValue_self _
    | prim p =>
      cases handled
      exact ⟨Nat.le_refl _, fun _ => rfl⟩
    | absent =>
      cases handled
      exact ⟨Nat.le_refl _, fun _ => rfl⟩
    | pattern p =>
      cases handled
      exact ⟨Nat.le_refl _, fun _ => rfl⟩

theorem pass_keeps {number : Nat} {tree t : Value} (full : tree.Full) {w w' : World (Progress σ)}
    (h : (r.pass number tree).run w = (.ok t, w')) (same : w'.user.steps = w.user.steps) :
    t = tree := by
  rw [pass_eq] at h
  obtain ⟨_, w₀, current, h⟩ := run_bind_eq_ok h
  cases current
  obtain ⟨⟨edit, cx⟩, w₁, walked, h⟩ := run_bind_eq_ok h
  obtain ⟨value, w₂, resolved, h⟩ := run_bind_eq_ok h
  cases h
  obtain ⟨user, calm, -⟩ := resolve_ok resolved
  obtain ⟨s₁, visited, rfl⟩ := walking_ok walked
  have still := (visit_keeps single full edit _ s₁ visited).2
  exact calm (still ((congrArg Progress.steps user).symm.trans same))

end Keeps

/-- A reduction without fixpoint mode gives what bottom-up reduction of the shape gives, an equal
tree or the same failure, after the same number of replacements, and if there were none it gives the
very tree. It does not matter in which world the decisions of the rules are found out. -/
theorem process_bottomUp {heap : Heap} {r : Reducer σ} (single : r.fixpoint = false)
    (functional : ∀ rule ∈ r.rules, rule.Functional)
    (honest : ∀ rule ∈ r.rules, rule.Honest heap) {tree : Value} (valid : tree.Valid)
    (on : tree.On heap) {w : World σ} (new : heap.bound ≤ w.next) (w₀ : World σ) :
    ((r.process tree w).1.1.map shape, (r.process tree w).1.2) =
        (bottomUp r.rules w₀ tree.shape).run 0 ∧
      ∀ t, (r.process tree w).1 = (.ok t, 0) → t = tree := by
  let start : World (Progress σ) := { next := w.next, log := w.log, user := ⟨0, w.user⟩ }
  have once : r.run tree = r.pass 1 tree := by
    rw [run, single]
    rfl
  have ran : (r.process tree w).1 =
      (((r.pass 1 tree).run start).1, ((r.pass 1 tree).run start).2.user.steps) := by
    rw [← once]
    rfl
  rw [ran]
  constructor
  · obtain ⟨results, tallies⟩ :=
      pass_follows single functional honest w₀ valid on 1 start 0 ⟨new, rfl⟩
    exact Prod.ext (Results.map results).eq tallies.steps
  · intro t given
    have full : tree.Full := fun n hn => NodeType.length_of_validate (valid n hn)
    obtain ⟨result, steps⟩ := Prod.mk.inj given
    exact pass_keeps single full (Prod.ext result rfl) steps

def negThree : Value := .node 1 (.unary "Neg" 1) [three]

def boxThree : Value := .node 2 (.unary "Box" 2) [three]

/-- The first rule leaves to the second what it matches, and what the third puts in is not tried
again. -/
def unwrapping : Reducer Unit where
  rules :=
    [{ pattern := negThree, action := fun _ => pure .defer },
     .ofTemplate none negThree three,
     .ofTemplate none boxThree negThree]

/-- The last item is the object in the box. -/
def wrapped : Value :=
  .node 5 (.unary "Neg" 1) [.seq 4 [.node 3 (.unary "Box" 2) [negThree], negThree]]

def wrappedHeap : Heap where
  bound := 6
  object i := ((boxThree.objects ++ wrapped.objects).lookup i).getD .absent

def unwrapped : Value := .node 8 (.unary "Neg" 1) [.seq 7 [negThree, three]]

theorem process_bottomUp_unwrapping :
    wrapped.Valid ∧ wrapped.On wrappedHeap ∧
      (∀ rule ∈ unwrapping.rules, rule.Functional ∧ rule.Honest wrappedHeap) ∧
      (unwrapping.process wrapped ⟨6, [], ()⟩).1 = (.ok unwrapped, 3) ∧
      (bottomUp unwrapping.rules ⟨0, [], ()⟩ wrapped.shape).run 0 = (.ok unwrapped.shape, 3) := by
  have valid : wrapped.Valid := by
    unfold Tree.Valid
    decide
  have on : wrapped.On wrappedHeap := by decide
  have negHonest : negThree.Honest wrappedHeap := Tree.On.honest (by decide)
  have boxHonest : boxThree.Honest wrappedHeap := Tree.On.honest (by decide)
  have rules : ∀ rule ∈ unwrapping.rules, rule.Functional ∧ rule.Honest wrappedHeap := by
    simp only [unwrapping, List.forall_mem_cons]
    refine ⟨⟨fun _ _ _ _ _ => rfl, negHonest, ?_⟩, ⟨Rule.functional_ofTemplate _ _ _, ?_⟩,
      ⟨Rule.functional_ofTemplate _ _ _, ?_⟩, List.forall_mem_nil _⟩
    · exact fun _ _ _ new => ⟨new, fun _ made => by cases made⟩
    · exact Rule.honest_ofTemplate none negHonest (List.forall_mem_nil _)
    · exact Rule.honest_ofTemplate none boxHonest negHonest
  have reduced : (unwrapping.process wrapped ⟨6, [], ()⟩).1 = (.ok unwrapped, 3) := by cbv
  have new : wrappedHeap.bound ≤ (World.mk 6 [] ()).next := Nat.le_refl 6
  have agree := (process_bottomUp rfl (fun rule hr => (rules rule hr).1)
    (fun rule hr => (rules rule hr).2) valid on new ⟨0, [], ()⟩).1
  rw [reduced] at agree
  exact ⟨valid, on, rules, reduced, agree.symm⟩

end Reducer

end Arbor
