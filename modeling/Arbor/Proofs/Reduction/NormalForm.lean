import Mathlib
import Arbor.Proofs.Reduction.Rules
import Arbor.Proofs.Traversal.Walking
import Arbor.Reduction.Reducer

/-!
# Reduction to normal forms

A pass that counts no replacement has tried the rules on every node of the tree, and has left the
tree as it is. Every other pass of a run in fixpoint mode counts at least one, so there are no more
passes than the step limit allows, and a run that succeeds ends with a pass of the first kind. Its
result is a normal form: the rules decline all nodes, and another run changes nothing.
-/

namespace Arbor

namespace Reducer

open Arbor.Tree Walk

variable {σ : Type} {r : Reducer σ}

/-! ## Counting replacements -/

theorem lift_ok {α : Type} {a : Effect σ α} {x : α} {w w' : World (Progress σ)}
    (h : (Progress.lift a).run w = (.ok x, w')) :
    w'.user.steps = w.user.steps ∧ ∃ v v', a.run v = (.ok x, v') := by
  obtain ⟨result, state⟩ := Prod.mk.inj h
  exact ⟨(congrArg (fun w => w.user.steps) state).symm, _, _, Prod.ext result rfl⟩

theorem run_countStep (w : World (Progress σ)) :
    r.countStep.run w =
      (if r.fixpoint ∧ r.stepLimit < w.user.steps + 1 then .error (.stepLimitExceeded r.stepLimit)
        else .ok (),
        { w with user := { w.user with steps := w.user.steps + 1 } }) := by
  change (if r.fixpoint ∧ r.stepLimit < w.user.steps + 1 then
    throw (.stepLimitExceeded r.stepLimit) else pure () : Effect (Progress σ) Unit).run _ = _
  split <;> rfl

theorem countStep_ok (fixpoint : r.fixpoint = true) {w w' : World (Progress σ)}
    (h : r.countStep.run w = (.ok (), w')) :
    w'.user.steps = w.user.steps + 1 ∧ w'.user.steps ≤ r.stepLimit := by
  rw [run_countStep] at h
  split at h
  · cases h
  · rename_i within
    cases h
    exact ⟨rfl, Nat.not_lt.mp fun beyond => within ⟨fixpoint, beyond⟩⟩

/-- How the count of replacements may go on in fixpoint mode. -/
structure Counted (r : Reducer σ) (before after : Nat) : Prop where
  le : before ≤ after
  limited : before ≤ r.stepLimit → after ≤ r.stepLimit

theorem Counted.refl (n : Nat) : Counted r n n := ⟨Nat.le_refl n, id⟩

theorem Counted.trans {a b c : Nat} (first : Counted r a b) (second : Counted r b c) :
    Counted r a c :=
  ⟨Nat.le_trans first.le second.le, fun within => second.limited (first.limited within)⟩

theorem settle_ok (fixpoint : r.fixpoint = true) (proper : ∀ rule ∈ r.rules, rule.Proper)
    {bound : Nat} {value v : Value} (full : value.Full) {w w' : World (Progress σ)}
    (h : (r.settle bound value).run w = (.ok v, w')) :
    Counted r w.user.steps w'.user.steps ∧ v.Full := by
  induction bound generalizing value w with
  | zero =>
    cases h
    exact ⟨.refl _, full⟩
  | succ bound ih =>
    rw [settle] at h
    split at h
    · cases h
      exact ⟨.refl _, full⟩
    · rename_i node isNode
      rw [eq_toTree_of_node? isNode] at full
      obtain ⟨result, w₁, tried, h⟩ := run_bind_eq_ok h
      obtain ⟨steps, v₁, v₂, first⟩ := lift_ok tried
      cases result with
      | none =>
        cases h
        rw [steps, eq_toTree_of_node? isNode]
        exact ⟨.refl _, full⟩
      | some next =>
        obtain ⟨_, w₂, counted, h⟩ := run_bind_eq_ok h
        obtain ⟨grown, within⟩ := countStep_ok fixpoint counted
        obtain ⟨rest, settled⟩ := ih (Rule.firstReplacement_full proper full first) h
        refine ⟨?_, settled⟩
        rw [← steps]
        exact .trans ⟨grown ▸ Nat.le_succ _, fun _ => within⟩ rest

/-- In fixpoint mode, a node is left alone by all rules or a replacement is counted. -/
theorem reduceNode_ok (fixpoint : r.fixpoint = true)
    (functional : ∀ rule ∈ r.rules, rule.Functional) (proper : ∀ rule ∈ r.rules, rule.Proper)
    {node : Node Ident} (full : node.toTree.Full) {result : Option Value}
    {w w' : World (Progress σ)} (h : (r.reduceNode node).run w = (.ok result, w')) :
    Counted r w.user.steps w'.user.steps ∧
      match result with
      | none => Rule.Declines node r.rules
      | some v => w.user.steps < w'.user.steps ∧ v.Full := by
  rw [reduceNode] at h
  obtain ⟨found, w₁, tried, h⟩ := run_bind_eq_ok h
  obtain ⟨steps, v₁, v₂, first⟩ := lift_ok tried
  cases found with
  | none =>
    cases h
    rw [steps]
    exact ⟨.refl _, Rule.declines_of_none functional first⟩
  | some value =>
    obtain ⟨_, w₂, counted, h⟩ := run_bind_eq_ok h
    obtain ⟨grown, within⟩ := countStep_ok fixpoint counted
    rw [if_pos fixpoint] at h
    obtain ⟨v, w₃, settled, answer⟩ := run_bind_eq_ok h
    cases answer
    obtain ⟨rest, settled⟩ :=
      settle_ok fixpoint proper (Rule.firstReplacement_full proper full first) settled
    rw [← steps]
    refine ⟨.trans ⟨grown ▸ Nat.le_succ _, fun _ => within⟩ rest, ?_, settled⟩
    exact Nat.lt_of_lt_of_le (grown ▸ Nat.lt_succ_self _) rest.le

/-! ## One pass -/

/-- What visits in fixpoint mode have done, given the nodes of the visited values, the edits, and
the counts before and after: if nothing has been counted, the rules decline all the nodes and
nothing has changed. -/
structure Passed (r : Reducer σ) (nodes : List (Node Ident)) (edits : List Edit)
    (before after : Nat) : Prop extends Counted r before after where
  full : ∀ e ∈ edits, e.All Tree.Full
  still : after = before →
    (∀ e ∈ edits, e = .unchanged) ∧ ∀ n ∈ nodes, Rule.Declines n r.rules

theorem Passed.append {ns ms : List (Node Ident)} {es fs : List Edit} {a b c : Nat}
    (first : Passed r ns es a b) (second : Passed r ms fs b c) :
    Passed r (ns ++ ms) (es ++ fs) a c where
  toCounted := first.toCounted.trans second.toCounted
  full := List.forall_mem_append.mpr ⟨first.full, second.full⟩
  still same := by
    have := first.le
    have := second.le
    obtain ⟨edits, nodes⟩ := first.still (by omega)
    obtain ⟨edits', nodes'⟩ := second.still (by omega)
    exact ⟨List.forall_mem_append.mpr ⟨edits, edits'⟩, List.forall_mem_append.mpr ⟨nodes, nodes'⟩⟩

def Passes (r : Reducer σ) (visit : Value → Walk (Progress σ) Edit) (v : Value) : Prop :=
  ∀ e s s', (visit v).run s = (.ok e, s') →
    Passed r v.nodes [e] s.world.user.steps s'.world.user.steps

theorem passed_of_visited {visit : Value → Walk (Progress σ) Edit} {values : List Value}
    {edits : List Edit} {s s' : WalkState (Progress σ)} (each : ∀ v ∈ values, Passes r visit v)
    (h : Visited visit values edits s s') :
    Passed r (nodesAll values) edits s.world.user.steps s'.world.user.steps := by
  induction h with
  | nil user =>
    rw [user]
    exact ⟨.refl _, List.forall_mem_nil _, fun _ => ⟨List.forall_mem_nil _, List.forall_mem_nil _⟩⟩
  | cons user first _ ih =>
    rw [List.forall_mem_cons] at each
    rw [← user]
    exact (each.1 _ _ _ first).append (ih each.2)

theorem passed_unchanged (steps : Nat) : Passed r [] [.unchanged] steps steps where
  toCounted := .refl steps
  full := List.forall_mem_singleton.mpr trivial
  still _ := ⟨List.forall_mem_singleton.mpr rfl, List.forall_mem_nil _⟩

theorem seq_passed {visit : Value → Walk (Progress σ) Edit} (q : Seq Ident) {after : Seq Ident}
    (full : q.toTree.Full) (each : ∀ v ∈ q.items, Passes r visit v)
    {s s' : WalkState (Progress σ)} (run : (Walk.each visit q).run s = (.ok after, s')) :
    Passed r q.toTree.nodes [Edit.ofValue q.toTree after.toTree] s.world.user.steps
      s'.world.user.steps := by
  obtain ⟨edits, visited, fulls, calm⟩ := each_ok full run
  have inner := passed_of_visited each visited
  refine ⟨inner.toCounted, ?_, fun same => ?_⟩
  · exact List.forall_mem_singleton.mpr (Edit.all_ofValue (fulls inner.full))
  · obtain ⟨unchanged, nodes⟩ := inner.still same
    cases calm unchanged
    rw [Edit.ofValue_self]
    exact ⟨List.forall_mem_singleton.mpr rfl, nodes⟩

/-- The handler of a node goes down first and then tries the rules. -/
theorem play_node (visit : Value → Walk (Progress σ) Edit) (n : Node Ident) :
    (r.handlers.node n).play (r.handlers.ways visit) =
      descend NodeType.validate visit n >>= fun reduced =>
        ofEffect (r.reduceNode reduced) >>= fun
          | none => pure (Edit.ofValue n.toTree reduced.toTree)
          | some value => pure (.replace value) := by
  change Script.play (r.handlers.ways visit) (Script.descending n >>= _) = _
  rw [Script.play_bind, Script.play_descending]
  congr 1
  funext reduced
  rw [Script.play_bind, Script.play_ofEffect]
  congr 1
  funext result
  cases result <;> rfl

/-- The walk of a pass, which tells the context beside the edit. -/
def walking (r : Reducer σ) (tree : Value) : Effect (Progress σ) (Edit × Context) := fun w =>
  let ((result, cx), after) := r.handlers.walk tree.height tree w
  (result.map fun edit => (edit, cx), after)

theorem pass_eq (number : Nat) (tree : Value) :
    r.pass number tree = do
      let before := (← get).user.steps
      let (edit, cx) ← r.walking tree
      let value ← Effect.resolve tree edit
      Effect.emit (.passed number cx.visited cx.changed ((← get).user.steps - before))
      return value :=
  rfl

theorem walking_ok {tree : Value} {edit : Edit} {cx : Context} {w w' : World (Progress σ)}
    (h : (r.walking tree).run w = (.ok (edit, cx), w')) :
    ∃ s, (r.handlers.visit tree.height tree).run ⟨{}, w⟩ = (.ok edit, s) ∧ s.world = w' := by
  rcases visited : (r.handlers.visit tree.height tree).run ⟨{}, w⟩ with ⟨result, s⟩
  have outcome : r.handlers.walk tree.height tree w = ((result, s.context), s.world) := by
    rw [Handlers.walk, visited]
  change (match r.handlers.walk tree.height tree w with
    | ((result, cx), after) => (result.map fun edit => (edit, cx), after)) = _ at h
  rw [outcome] at h
  cases result with
  | error e => cases h
  | ok e =>
    cases h
    exact ⟨s, rfl, rfl⟩

section Visits

variable (fixpoint : r.fixpoint = true) (functional : ∀ rule ∈ r.rules, rule.Functional)
  (proper : ∀ rule ∈ r.rules, rule.Proper)

include fixpoint functional proper

theorem node_passed {visit : Value → Walk (Progress σ) Edit} (n : Node Ident)
    (full : n.toTree.Full) (each : ∀ v ∈ n.values, Passes r visit v) {edit : Edit}
    {s s' : WalkState (Progress σ)}
    (run : ((r.handlers.node n).play (r.handlers.ways visit)).run s = (.ok edit, s')) :
    Passed r n.toTree.nodes [edit] s.world.user.steps s'.world.user.steps := by
  rw [play_node] at run
  obtain ⟨reduced, s₁, descended, run⟩ := run_bind_eq_ok run
  obtain ⟨result, s₂, tried, run⟩ := run_bind_eq_ok run
  obtain ⟨edits, visited, fulls, calm⟩ := descend_ok full descended
  have inner := passed_of_visited each visited
  obtain ⟨counted, outcome⟩ :=
    reduceNode_ok fixpoint functional proper (fulls inner.full) (ofEffect_ok tried).1
  cases result with
  | none =>
    cases run
    refine ⟨inner.toCounted.trans counted, ?_, fun same => ?_⟩
    · exact List.forall_mem_singleton.mpr (Edit.all_ofValue (fulls inner.full))
    · -- Nothing was counted below either, so the rules were tried on the node itself.
      have := inner.le
      have := counted.le
      obtain ⟨unchanged, nodes⟩ := inner.still (by omega)
      cases calm unchanged
      rw [Edit.ofValue_self]
      exact ⟨List.forall_mem_singleton.mpr rfl, List.forall_mem_cons.mpr ⟨outcome, nodes⟩⟩
  | some value =>
    cases run
    refine ⟨inner.toCounted.trans counted, List.forall_mem_singleton.mpr outcome.2, fun same => ?_⟩
    have := inner.le
    have := outcome.1
    omega

theorem visit_passes {allowance : Nat} {value : Value} (full : value.Full) :
    Passes r (r.handlers.visit allowance) value := by
  induction allowance generalizing value with
  | zero => exact fun e s s' run => by (cases run)
  | succ allowance ih =>
    intro edit s s' run
    obtain ⟨s₁, handled, world⟩ := Handlers.visit_ok run
    rw [world]
    cases value with
    | node id type values =>
      obtain ⟨s₂, s₃, before, played, after⟩ := (moves_inNode _ _ _).ok handled
      have inner := (full_node.mp full).2
      rw [after, ← before]
      exact node_passed fixpoint functional proper ⟨id, type, values⟩ full
        (fun v hv => ih (inner v hv)) played
    | seq id items =>
      obtain ⟨after, s₂, s₃, before, walked, rfl, world'⟩ := Handlers.handle_seq_ok handled
      have inner := full_seq.mp full
      rw [world', ← before]
      exact seq_passed ⟨id, items⟩ full (fun v hv => ih (inner v hv)) walked
    | prim p =>
      cases handled
      exact passed_unchanged _
    | absent =>
      cases handled
      exact passed_unchanged _
    | pattern p =>
      cases handled
      exact passed_unchanged _

theorem pass_ok {number : Nat} {tree t : Value} (full : tree.Full) {w w' : World (Progress σ)}
    (h : (r.pass number tree).run w = (.ok t, w')) :
    Counted r w.user.steps w'.user.steps ∧ t.Full ∧
      (w'.user.steps = w.user.steps → t = tree ∧ ∀ n ∈ tree.nodes, Rule.Declines n r.rules) := by
  rw [pass_eq] at h
  obtain ⟨_, w₀, current, h⟩ := run_bind_eq_ok h
  cases current
  obtain ⟨⟨edit, cx⟩, w₁, walked, h⟩ := run_bind_eq_ok h
  obtain ⟨value, w₂, resolved, h⟩ := run_bind_eq_ok h
  cases h
  obtain ⟨user, calm, resolves⟩ := resolve_ok resolved
  obtain ⟨s₁, visited, rfl⟩ := walking_ok walked
  have inner := visit_passes fixpoint functional proper full edit _ s₁ visited
  change Counted r w.user.steps w₂.user.steps ∧ t.Full ∧ (w₂.user.steps = w.user.steps → _)
  rw [user]
  refine ⟨inner.toCounted, resolves full (List.forall_mem_singleton.mp inner.full), fun same => ?_⟩
  obtain ⟨unchanged, nodes⟩ := inner.still same
  exact ⟨calm (unchanged edit (List.mem_singleton_self edit)), nodes⟩

theorem passes_ok {bound number : Nat} {tree t : Value} (full : tree.Full)
    {w w' : World (Progress σ)} (within : w.user.steps ≤ r.stepLimit)
    (enough : r.stepLimit < w.user.steps + bound)
    (h : (r.passes bound number tree).run w = (.ok t, w')) :
    ∀ n ∈ t.nodes, Rule.Declines n r.rules := by
  -- On the passes that are left: one that goes on has counted something, so `enough` is kept, and
  -- within the limit not all of them can.
  induction bound generalizing number tree w with
  | zero => omega
  | succ bound ih =>
    rw [passes] at h
    obtain ⟨_, w₀, current, h⟩ := run_bind_eq_ok h
    cases current
    obtain ⟨value, w₁, passed, h⟩ := run_bind_eq_ok h
    obtain ⟨_, w₂, current, h⟩ := run_bind_eq_ok h
    cases current
    obtain ⟨counted, full', still⟩ := pass_ok fixpoint functional proper full passed
    split at h
    · rename_i same
      cases h
      obtain ⟨rfl, nodes⟩ := still same
      exact nodes
    · rename_i more
      have := counted.le
      exact ih full' (counted.limited within) (by omega) h

end Visits

/-! ## Runs on normal forms -/

theorem lift_gives {α : Type} {a : Effect σ α} {x : α} (h : ∀ w, ∃ w', a.run w = (.ok x, w')) :
    Gives (fun w => w.user.steps) (Progress.lift a) x := by
  intro w
  obtain ⟨v, run⟩ := h { next := w.next, log := w.log, user := w.user.user }
  have result : ((Progress.lift a).run w).1 = .ok x := congrArg Prod.fst run
  exact ⟨_, Prod.ext result rfl, rfl⟩

theorem reduceNode_gives {n : Node Ident} (h : Rule.Declines n r.rules) :
    Gives (fun w => w.user.steps) (r.reduceNode n) none :=
  (lift_gives h.firstReplacement).bind (gives_pure none)

/-- A value whose nodes the rules decline is left as it is, and nothing is counted. -/
theorem visit_gives {allowance : Nat} {value : Value}
    (normal : ∀ n ∈ value.nodes, Rule.Declines n r.rules) (deep : value.height ≤ allowance) :
    Gives ((fun w => w.user.steps) ∘ WalkState.world) (r.handlers.visit allowance value)
      .unchanged := by
  induction allowance generalizing value with
  | zero => exact absurd value.height_pos (Nat.not_lt.mpr deep)
  | succ allowance ih =>
    apply Handlers.visit_gives
    intro slot
    cases value with
    | node id type values =>
      obtain ⟨declined, inner⟩ := forall_nodes_node_iff.mp normal
      apply (moves_inNode _ _ _).gives
      rw [play_node]
      refine (descend_gives fun v hv => ih (inner v hv) ?_).bind
        ((gives_ofEffect (reduceNode_gives declined)).bind ?_)
      · exact height_le_of_mem deep hv
      · dsimp only
        rw [Edit.ofValue_self]
        exact gives_pure _
    | seq id items =>
      have inner := forall_nodes_seq_iff.mp normal
      refine Handlers.handle_seq_gives fun v hv => ih (inner v hv) ?_
      exact height_le_of_mem deep hv
    | prim p => exact gives_pure _
    | absent => exact gives_pure _
    | pattern p => exact gives_pure _

theorem pass_gives {t : Value} (normal : ∀ n ∈ t.nodes, Rule.Declines n r.rules) (number : Nat) :
    Gives (fun w => w.user.steps) (r.pass number t) t := by
  intro w
  obtain ⟨s, visited, kept⟩ := visit_gives normal (Nat.le_refl t.height) ⟨{}, w⟩
  have walked : (r.walking t).run w = (.ok (.unchanged, s.context), s.world) := by
    change (match r.handlers.walk t.height t w with
      | ((result, cx), after) => (result.map fun edit => (edit, cx), after)) = _
    rw [Handlers.walk, visited]
    rfl
  have current : (get : Effect (Progress σ) (World (Progress σ))).run w = (.ok w, w) := rfl
  rw [pass_eq, run_bind_of_ok current, run_bind_of_ok walked]
  exact ⟨_, rfl, kept⟩

theorem run_gives {t : Value} (normal : ∀ n ∈ t.nodes, Rule.Declines n r.rules) :
    Gives (fun w => w.user.steps) (r.run t) t := by
  rw [run]
  split
  · intro w
    obtain ⟨w', passed, kept⟩ := pass_gives normal 1 w
    refine ⟨w', ?_, kept⟩
    have current : (get : Effect (Progress σ) (World (Progress σ))).run w = (.ok w, w) := rfl
    have current' : (get : Effect (Progress σ) (World (Progress σ))).run w' = (.ok w', w') := rfl
    rw [passes, run_bind_of_ok current, run_bind_of_ok passed, run_bind_of_ok current', if_pos kept]
    rfl
  · exact pass_gives normal 1

/-! ## Normal forms -/

/-- What a run in fixpoint mode gives is a normal form: the rules decline all its nodes, so every
run with these rules gives the very same object and counts nothing. -/
theorem process_normal (fixpoint : r.fixpoint = true)
    (functional : ∀ rule ∈ r.rules, rule.Functional) (proper : ∀ rule ∈ r.rules, rule.Proper)
    {tree t : Value} (full : tree.Full) {w : World σ} {steps : Nat}
    (h : (r.process tree w).1 = (.ok t, steps)) :
    (∀ n ∈ t.nodes, Rule.Declines n r.rules) ∧
      ∀ again : Reducer σ, again.rules = r.rules → ∀ w', (again.process t w').1 = (.ok t, 0) := by
  have normal : ∀ n ∈ t.nodes, Rule.Declines n r.rules := by
    rcases ran : (r.run tree).run { next := w.next, log := w.log, user := ⟨0, w.user⟩ } with
      ⟨result, after⟩
    rw [process, ran] at h
    cases h
    rw [run, if_pos fixpoint] at ran
    exact passes_ok fixpoint functional proper full (Nat.zero_le _) (by simp) ran
  refine ⟨normal, fun again same w' => ?_⟩
  rw [← same] at normal
  obtain ⟨after, ran, kept⟩ :=
    run_gives normal { next := w'.next, log := w'.log, user := ⟨0, w'.user⟩ }
  rw [process, ran]
  exact congrArg (Prod.mk _) kept

def three : Value := .prim (.int 3)

/-- The second rule makes work for the first, but inside a sequence and so for the next pass. -/
def unboxing : Reducer Unit where
  rules :=
    [.ofTemplate none (.node 0 (.unary "Neg" 1) [three]) three,
     .ofTemplate none (.node 1 (.unary "Box" 2) [three])
       (.seq 2 [.node 3 (.unary "Neg" 1) [three]]),
     { pattern := .node 4 (.unary "Neg" 1) [.pattern (.var "x")], action := fun _ => pure .keep }]
  fixpoint := true
  stepLimit := 2

def boxed : Value := .node 5 (.unary "Neg" 1) [.seq 6 [.node 7 (.unary "Box" 2) [three]]]

def unboxed : Value := .node 12 (.unary "Neg" 1) [.seq 11 [.seq 10 [three]]]

theorem process_normal_unboxing :
    (unboxing.process boxed ⟨8, [], ()⟩).1 = (.ok unboxed, 2) ∧
      (∀ n ∈ unboxed.nodes, Rule.Declines n unboxing.rules) ∧
      ∀ again : Reducer Unit, again.rules = unboxing.rules →
        ∀ w, (again.process unboxed w).1 = (.ok unboxed, 0) := by
  have reduced : (unboxing.process boxed ⟨8, [], ()⟩).1 = (.ok unboxed, 2) := by cbv
  refine ⟨reduced, process_normal rfl ?_ ?_ (by decide) reduced⟩
  · simp only [unboxing, List.forall_mem_cons]
    refine ⟨Rule.functional_ofTemplate _ _ _, Rule.functional_ofTemplate _ _ _, ?_, ?_⟩
    · exact fun _ _ _ _ _ => rfl
    · exact List.forall_mem_nil _
  · simp only [unboxing, List.forall_mem_cons]
    refine ⟨Rule.proper_ofTemplate _ (by decide) (by decide),
      Rule.proper_ofTemplate _ (by decide) (by decide), ?_, List.forall_mem_nil _⟩
    exact ⟨by decide, fun s w v w' _ kept => by (cases kept)⟩

end Reducer

end Arbor
