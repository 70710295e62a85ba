import Mathlib
import Arbor.Proofs.Limits
import Arbor.Proofs.Reduction.NormalForm

/-!
# The step limit

In fixpoint mode a node is reduced again and again at its place, and the tree is passed over again
and again. Neither loop has an end of its own, but every turn of them except the last counts a
replacement, and all of a run's replacements are counted together against the step limit. So a run
ends, and a run with a higher limit does the same until the lower one is passed (`process_cut`).
-/

namespace Arbor

variable {σ : Type}

/-! ## Failures -/

namespace Rule

/-- The failures within the limit: what the action of a rule makes of a substitution, and what comes
of building a node again. -/
inductive Raised (rules : List (Rule σ)) : Error → Prop
  | action {rule : Rule σ} {s : Substitution} {w : World σ} {e : Error} (member : rule ∈ rules) :
      ((rule.action s).run w).1 = .error e → Raised rules e
  | construction {node : Node Ident} {id : Ident} {values : List Value}
      {cause : ConstructionError} :
      node.withValues id values = .error cause → Raised rules (.construction cause)

variable {rules : List (Rule σ)}

theorem unify?_raises {P : Error → Prop} (left right : Value) :
    Raises P (Effect.unify? left right : Effect σ (Option Substitution)) :=
  raises_of_ok fun w => ⟨_, run_unify? left right w⟩

theorem apply_raises {rule : Rule σ} (member : rule ∈ rules) (value : Value) :
    Raises (Raised rules) (rule.apply value) := by
  refine (unify?_raises rule.pattern value).bind fun found => ?_
  cases found with
  | none => exact raises_pure none
  | some s =>
    have acts : Raises (Raised rules) (rule.action s) := fun _ _ failed => .action member failed
    exact acts.bind fun outcome => raises_pure (some outcome)

theorem firstReplacement_raises (node : Node Ident) {tried : List (Rule σ)}
    (among : ∀ rule ∈ tried, rule ∈ rules) :
    Raises (Raised rules) (firstReplacement node tried) := by
  have emits (record : Record) : Raises (Raised rules) (Effect.emit record : Effect σ Unit) :=
    raises_of_ok fun _ => ⟨_, _, rfl⟩
  induction tried with
  | nil => exact raises_pure none
  | cons rule rest ih =>
    rw [List.forall_mem_cons] at among
    apply (apply_raises among.1 node.toTree).bind
    intro decided
    match decided with
    | none => exact ih among.2
    | some .defer => exact (emits _).bind fun _ => ih among.2
    | some .keep => exact raises_pure none
    | some (.replace value) => exact (emits _).bind fun _ => raises_pure (some value)

end Rule

namespace Reducer

open Arbor.Tree Walk

/-- The reducer in fixpoint mode with a step limit. -/
def limited (rules : List (Rule σ)) (limit : Nat) : Reducer σ where
  rules := rules
  fixpoint := true
  stepLimit := limit

/-- The failure beyond the limit, and those within it. -/
def cap (rules : List (Rule σ)) (limit : Nat) : Cap Error where
  limit := limit
  exceeded := .stepLimitExceeded limit
  Raised := Rule.Raised rules

def steps (w : World (Progress σ)) : Nat :=
  w.user.steps

variable {rules : List (Rule σ)} {m n : Nat}

/-! ## At one place -/

theorem limits_countStep (le : m ≤ n) :
    (cap rules m).Limits steps (limited rules m).countStep (limited rules n).countStep where
  grows w := by
    rw [run_countStep]
    exact Nat.le_succ w.user.steps
  runs w within := by
    rw [run_countStep, run_countStep]
    by_cases beyond : m < w.user.steps + 1
    · rw [if_pos ⟨rfl, beyond⟩]
      exact .off (Nat.le_antisymm (Nat.succ_le_succ within) beyond) beyond
    · rw [if_neg fun h => beyond h.2, if_neg fun h => beyond (Nat.lt_of_le_of_lt le h.2)]
      exact .same (Nat.not_lt.mp beyond) fun e failed => by cases failed

theorem limits_tryRules (node : Node Ident) :
    (cap rules m).Limits steps ((limited rules m).tryRules node)
      ((limited rules n).tryRules node) := by
  apply Cap.limits_self (fun _ => rfl)
  intro w e failed
  exact Rule.firstReplacement_raises node (fun _ member => member) _ e failed

/-- One turn of the loop at a place: the next value to reduce, or the one that stays. -/
def refire (r : Reducer σ) (value : Value) : Effect (Progress σ) (Value ⊕ Value) :=
  match value.node? with
  | none => return .inr value
  | some current => do
    match ← r.tryRules current with
    | none => return .inr value
    | some next =>
      r.countStep
      return .inl next

theorem repeats_settle (r : Reducer σ) : Repeats r.settle r.refire where
  zero value := ⟨value, rfl⟩
  succ bound value := by
    rw [settle, refire]
    cases value.node? with
    | none => rfl
    | some node =>
      dsimp only
      rw [bind_assoc]
      congr 1
      funext found
      cases found with
      | none => rfl
      | some next => simp only [bind_assoc, pure_bind, Sum.elim_inl]

theorem advances_refire (limit : Nat) : Advances steps (limited rules limit).refire := by
  intro value w next w' ran
  rw [refire] at ran
  split at ran
  · cases ran
  · obtain ⟨found, w₁, tried, ran⟩ := run_bind_eq_ok ran
    obtain ⟨same, -⟩ := lift_ok tried
    cases found with
    | none => cases ran
    | some value' =>
      obtain ⟨_, w₂, counted, answer⟩ := run_bind_eq_ok ran
      cases answer
      have grown := (countStep_ok rfl counted).1
      rw [steps, steps, grown, same]
      exact Nat.lt_succ_self _

theorem limits_refire (le : m ≤ n) (value : Value) :
    (cap rules m).Limits steps ((limited rules m).refire value)
      ((limited rules n).refire value) := by
  unfold refire
  cases value.node? with
  | none => exact Cap.limits_pure _
  | some node =>
    apply (limits_tryRules node).bind
    intro found
    cases found with
    | none => exact Cap.limits_pure _
    | some next => exact (limits_countStep le).bind fun _ => Cap.limits_pure _

theorem limits_settle (le : m ≤ n) (value : Value) :
    (cap rules m).Limits steps ((limited rules m).settle (m + 1) value)
      ((limited rules n).settle (n + 1) value) where
  grows := (repeats_settle _).grows (fun x => (limits_refire le x).grows) (n + 1) value
  runs w within := by
    apply Cap.Limits.repeats (limits_refire le) (advances_refire m) (repeats_settle _)
      (repeats_settle _) (m + 1) (n + 1) value within
    · exact Nat.lt_add_left _ (Nat.lt_succ_self m)
    · exact Nat.lt_add_left _ (Nat.lt_succ_of_le le)

theorem limits_reduceNode (le : m ≤ n) (node : Node Ident) :
    (cap rules m).Limits steps ((limited rules m).reduceNode node)
      ((limited rules n).reduceNode node) := by
  apply (limits_tryRules node).bind
  intro found
  cases found with
  | none => exact Cap.limits_pure none
  | some value =>
    apply (limits_countStep le).bind
    intro _
    exact (limits_settle le value).bind fun settled => Cap.limits_pure (some settled)

/-! ## Below one place -/

section Walks

variable {c : Cap Error}

theorem limits_resolve (old : Value) (edit : Edit) :
    c.Limits steps (Effect.resolve old edit : Effect (Progress σ) Value)
      (Effect.resolve old edit) := by
  apply Cap.limits_self
  · intro w
    cases edit <;> rfl
  · apply raises_of_ok
    intro w
    cases edit <;> exact ⟨_, _, rfl⟩

theorem limits_fresh :
    c.Limits steps (Effect.fresh : Effect (Progress σ) Ident) Effect.fresh :=
  Cap.limits_self (fun _ => rfl) (raises_of_ok fun _ => ⟨_, _, rfl⟩)

theorem limits_rebuild (node : Node Ident) (values : List Value) :
    (cap rules m).Limits steps
      (Effect.rebuild NodeType.validate node values : Effect (Progress σ) (Node Ident))
      (Effect.rebuild NodeType.validate node values) := by
  apply Cap.limits_self
  · intro w
    rw [run_rebuild]
    split <;> rfl
  · intro w e failed
    rw [run_rebuild] at failed
    cases checked : node.type.validate values with
    | ok _ =>
      rw [checked] at failed
      cases failed
    | error cause =>
      rw [checked] at failed
      cases failed
      have refused : node.withValues w.next values = .error cause := by
        rw [Node.withValues, NodeType.construct, checked]
        rfl
      exact .construction refused

theorem limits_ofEffect {α : Type} {a b : Effect (Progress σ) α} (h : c.Limits steps a b) :
    c.Limits (steps ∘ WalkState.world) (ofEffect a) (ofEffect b) :=
  h.around WalkState.world (fun s w => { s with world := w }) (fun _ => rfl) fun _ _ => rfl

theorem limits_inNode {α : Type} {a b : Walk (Progress σ) α}
    (h : c.Limits (steps ∘ WalkState.world) a b) (node : Node Ident) (slot : Slot) :
    c.Limits (steps ∘ WalkState.world) (inNode node slot a) (inNode node slot b) :=
  h.around (fun s => { s with context := s.context.enter node slot })
    (fun _ s => { s with context := s.context.leave }) (fun _ => rfl) fun _ _ => rfl

theorem limits_inSeq {α : Type} {a b : Walk (Progress σ) α}
    (h : c.Limits (steps ∘ WalkState.world) a b) (field : Option String) :
    c.Limits (steps ∘ WalkState.world) (inSeq field a) (inSeq field b) :=
  h.around (fun s : WalkState (Progress σ) =>
      { s with context := { s.context with seqField := field } })
    (fun s s' => { s' with context := { s'.context with seqField := s.context.seqField } })
    (fun _ => rfl) fun _ _ => rfl

theorem limits_onContext (f : Context → Context) :
    c.Limits (steps ∘ WalkState.world) (onContext f : Walk (Progress σ) Unit) (onContext f) :=
  Cap.limits_self (fun _ => rfl) (raises_of_ok fun _ => ⟨_, _, rfl⟩)

theorem compatible_limits :
    Compatible NodeType.validate fun α (a b : Walk (Progress σ) α) =>
      (cap rules m).Limits (steps ∘ WalkState.world) a b where
  pure := Cap.limits_pure
  bind := Cap.Limits.bind
  move f _ _ := limits_onContext f
  resolve old edit := limits_ofEffect (limits_resolve old edit)
  rebuild node values := limits_ofEffect (limits_rebuild node values)
  fresh := limits_ofEffect limits_fresh

theorem limits_node (le : m ≤ n) {visit visit' : Value → Walk (Progress σ) Edit}
    (node : Node Ident) (each : ∀ v ∈ node.values,
      (cap rules m).Limits (steps ∘ WalkState.world) (visit v) (visit' v)) :
    (cap rules m).Limits (steps ∘ WalkState.world)
      (((limited rules m).handlers.node node).play ((limited rules m).handlers.ways visit))
      (((limited rules n).handlers.node node).play ((limited rules n).handlers.ways visit')) := by
  rw [play_node, play_node]
  apply (compatible_limits.descend visit visit' node each).bind
  intro reduced
  apply (limits_ofEffect (limits_reduceNode le reduced)).bind
  intro result
  cases result with
  | none => exact Cap.limits_pure _
  | some value => exact Cap.limits_pure _

/-- The walk of a tree never uses up its allowance, so it fails by the rules, by the nodes that are
built again or by the limit only. -/
theorem limits_visit (le : m ≤ n) {allowance : Nat} {value : Value}
    (deep : value.height ≤ allowance) :
    (cap rules m).Limits (steps ∘ WalkState.world)
      ((limited rules m).handlers.visit allowance value)
      ((limited rules n).handlers.visit allowance value) := by
  induction allowance generalizing value with
  | zero => exact absurd value.height_pos (Nat.not_lt.mpr deep)
  | succ allowance ih =>
    have arrives : (cap rules m).Limits (steps ∘ WalkState.world)
        (arrive : Walk (Progress σ) Slot) arrive :=
      Cap.limits_self (fun _ => rfl) (raises_of_ok fun _ => ⟨_, _, rfl⟩)
    apply arrives.bind
    intro slot
    apply Cap.Limits.bind
    · cases value with
      | node id type values =>
        exact limits_inNode
          (limits_node le ⟨id, type, values⟩ fun v hv => ih (height_le_of_mem deep hv)) _ slot
      | seq id items =>
        have walked := compatible_limits.each _ _ ⟨id, items⟩
          fun v hv => ih (height_le_of_mem deep hv)
        exact (limits_inSeq walked slot.field).bind fun after => Cap.limits_pure _
      | prim p => exact Cap.limits_pure _
      | absent => exact Cap.limits_pure _
      | pattern p => exact Cap.limits_pure _
    · intro edit
      dsimp only
      split
      · exact (limits_onContext _).bind fun _ => Cap.limits_pure edit
      · exact Cap.limits_pure edit

end Walks

/-! ## Passes -/

theorem run_telling {α : Type} (walk : Walk σ α) (s : WalkState σ) :
    (do let x ← walk; return (x, (← get).context) : Walk σ (α × Context)).run s =
      ((walk.run s).1.map fun x => (x, (walk.run s).2.context), (walk.run s).2) := by
  rw [run_bind]
  rcases walk.run s with ⟨_ | x, s'⟩ <;> rfl

theorem walking_eq (r : Reducer σ) (tree : Value) :
    r.walking tree = around (fun w => ⟨{}, w⟩) (fun _ s => s.world) (do
      let edit ← r.handlers.visit tree.height tree
      return (edit, (← get).context)) := by
  funext w
  have told := run_telling (r.handlers.visit tree.height tree) ⟨{}, w⟩
  exact (congrArg (fun outcome => (outcome.1, outcome.2.world)) told).symm

theorem limits_walking (le : m ≤ n) (tree : Value) :
    (cap rules m).Limits steps ((limited rules m).walking tree)
      ((limited rules n).walking tree) := by
  rw [walking_eq, walking_eq]
  refine Cap.Limits.around (.bind (limits_visit le (Nat.le_refl tree.height)) fun edit => ?_)
    (fun w => ⟨{}, w⟩) (fun _ s => s.world) (fun _ => rfl) fun _ _ => rfl
  exact Cap.limits_get.bind fun s => Cap.limits_pure (edit, s.context)

theorem limits_pass (le : m ≤ n) (number : Nat) (tree : Value) :
    (cap rules m).Limits steps ((limited rules m).pass number tree)
      ((limited rules n).pass number tree) := by
  rw [pass_eq, pass_eq]
  refine Cap.limits_get.bind fun before => (limits_walking le tree).bind fun walked => ?_
  refine (limits_resolve tree walked.1).bind fun value => Cap.limits_get.bind fun after => ?_
  have emits (record : Record) : (cap rules m).Limits steps
      (Effect.emit record : Effect (Progress σ) Unit) (Effect.emit record) :=
    Cap.limits_self (fun _ => rfl) (raises_of_ok fun _ => ⟨_, _, rfl⟩)
  exact (emits _).bind fun _ => Cap.limits_pure value

/-- One turn of the loop over the tree: the number of the next pass and its tree, or the result. -/
def repass (r : Reducer σ) (p : Nat × Value) : Effect (Progress σ) (Nat × Value ⊕ Value) := do
  let before := (← get).user.steps
  let value ← r.pass p.1 p.2
  if (← get).user.steps = before then return .inr value else return .inl (p.1 + 1, value)

theorem repeats_passes (r : Reducer σ) :
    Repeats (fun bound p => r.passes bound p.1 p.2) r.repass where
  zero p := ⟨p.2, rfl⟩
  succ bound p := by
    simp only [passes, repass, bind_assoc]
    refine bind_congr fun before => bind_congr fun value => bind_congr fun after => ?_
    split <;> rfl

theorem advances_repass (limit : Nat) : Advances steps (limited rules limit).repass := by
  intro p w p' w' ran
  obtain ⟨_, w₀, current, ran⟩ := run_bind_eq_ok ran
  cases current
  obtain ⟨value, w₁, passed, ran⟩ := run_bind_eq_ok ran
  obtain ⟨_, w₂, current, ran⟩ := run_bind_eq_ok ran
  cases current
  have grows : Leads (Grows steps) ((limited rules limit).pass p.1 p.2) :=
    (limits_pass (Nat.le_refl limit) p.1 p.2).grows
  have grown := grows w
  rw [passed] at grown
  split at ran
  · cases ran
  · rename_i more
    cases ran
    exact Nat.lt_of_le_of_ne grown (Ne.symm more)

theorem limits_repass (le : m ≤ n) (p : Nat × Value) :
    (cap rules m).Limits steps ((limited rules m).repass p) ((limited rules n).repass p) := by
  refine Cap.limits_get.bind fun before => (limits_pass le p.1 p.2).bind fun value => ?_
  apply Cap.limits_get.bind
  intro after
  split
  · exact Cap.limits_pure _
  · exact Cap.limits_pure _

/-! ## Runs -/

/-- The state in which a run starts. -/
def start (w : World σ) : World (Progress σ) where
  next := w.next
  log := w.log
  user := ⟨0, w.user⟩

/-- What a run tells at its end. -/
def finish (outcome : Except Error Value × World (Progress σ)) :
    (Except Error Value × Nat) × World σ :=
  ((outcome.1, outcome.2.user.steps),
    { next := outcome.2.next, log := outcome.2.log, user := outcome.2.user.user })

theorem process_eq (r : Reducer σ) (tree : Value) (w : World σ) :
    r.process tree w = finish ((r.run tree).run (start w)) :=
  rfl

theorem run_limited (limit : Nat) (tree : Value) :
    (limited rules limit).run tree = (limited rules limit).passes (limit + 1) 1 tree :=
  if_pos rfl

/-- Within the lower limit both runs have one outcome. Otherwise the first is cut off with one
replacement more than allowed, and the second makes that one too. -/
theorem process_cut (le : m ≤ n) (tree : Value) (w : World σ) :
    ((limited rules n).process tree w = (limited rules m).process tree w ∧
        ((limited rules m).process tree w).1.2 ≤ m ∧
        ∀ e, ((limited rules m).process tree w).1.1 = .error e → Rule.Raised rules e) ∨
      ((limited rules m).process tree w).1 = (.error (.stepLimitExceeded m), m + 1) ∧
        m < ((limited rules n).process tree w).1.2 := by
  have cut := Cap.Limits.repeats (limits_repass le) (advances_repass m)
    (repeats_passes (limited rules m)) (repeats_passes (limited rules n)) (m + 1) (n + 1) (1, tree)
    (w := start w) (Nat.zero_le m) (Nat.lt_add_left _ (Nat.lt_succ_self m))
    (Nat.lt_add_left _ (Nat.lt_succ_of_le le))
  simp only [← run_limited] at cut
  rw [process_eq, process_eq]
  generalize ((limited rules m).run tree).run (start w) = short at cut
  generalize ((limited rules n).run tree).run (start w) = long at cut
  cases cut with
  | same within raised => exact .inl ⟨rfl, within, raised⟩
  | off first beyond => exact .inr ⟨congrArg (Prod.mk _) first, beyond⟩

/-- Puts a node into a sequence, where the next pass finds it again. -/
def nesting : Rule Unit :=
  .ofTemplate none (.node 0 (.unary "Box" 2) [three])
    (.seq 1 [.node 2 (.unary "Box" 2) [three]])

def box : Value := .node 3 (.unary "Box" 2) [three]

/-- Fails as if a limit of five had been passed. -/
def pretending : Rule Unit where
  pattern := .node 0 (.unary "Box" 2) [three]
  action _ := throw (.stepLimitExceeded 5)

/-- A run can fail with the failure of its limit before it has made any replacement. -/
theorem limit_failure_of_action :
    ¬∀ (rules : List (Rule Unit)) (m n : Nat) (tree : Value) (w : World Unit) (k : Nat),
      (∀ rule ∈ rules, rule.Functional) → m ≤ n →
        ((limited rules m).process tree w).1 = (.error (.stepLimitExceeded m), k) →
          k = m + 1 ∧ m < ((limited rules n).process tree w).1.2 := by
  intro claim
  have failed : ((limited [pretending] 5).process box ⟨4, [], ()⟩).1 =
      (.error (.stepLimitExceeded 5), 0) := by
    cbv
  have functional : ∀ rule ∈ [pretending], rule.Functional :=
    List.forall_mem_singleton.mpr fun _ _ _ _ _ => rfl
  have counted := (claim [pretending] 5 5 box _ 0 functional (Nat.le_refl 5) failed).1
  cases counted

/-- The step limit only cuts runs off. What a run gives within its limit, a tree or a failure, is
what it gives with every higher limit. A run that fails by its limit has counted one replacement
more than that, and with a higher limit it counts no less; apart from this, the failure may be one
that an action has raised itself. -/
theorem step_limit_cuts_off (rules : List (Rule σ)) {m n : Nat} (le : m ≤ n) (tree : Value)
    (w : World σ) :
    (∀ t k, ((limited rules m).process tree w).1 = (.ok t, k) →
      (limited rules n).process tree w = (limited rules m).process tree w ∧ k ≤ m) ∧
      (∀ k, ((limited rules m).process tree w).1 = (.error (.stepLimitExceeded m), k) →
        k = m + 1 ∧ m < ((limited rules n).process tree w).1.2 ∨
          (∃ rule ∈ rules, ∃ s v, ((rule.action s).run v).1 = .error (.stepLimitExceeded m)) ∧
            (limited rules n).process tree w = (limited rules m).process tree w ∧ k ≤ m) ∧
      ∀ e k, e ≠ .stepLimitExceeded m → ((limited rules m).process tree w).1 = (.error e, k) →
        (limited rules n).process tree w = (limited rules m).process tree w ∧ k ≤ m := by
  rcases process_cut le tree w with ⟨same, within, raised⟩ | ⟨cut, beyond⟩
  · refine ⟨fun t k h => ?_, fun k h => .inr ?_, fun e k _ h => ?_⟩
    · rw [h] at within
      exact ⟨same, within⟩
    · rw [h] at within raised
      cases raised _ rfl with
      | action member failed => exact ⟨⟨_, member, _, _, failed⟩, same, within⟩
    · rw [h] at within
      exact ⟨same, within⟩
  · rw [cut]
    refine ⟨fun t k h => ?_, fun k h => .inl ?_, fun e k other h => ?_⟩
    · cases h
    · cases h
      exact ⟨rfl, beyond⟩
    · cases h
      exact absurd rfl other

theorem step_limit_cuts_off_nesting :
    2 ≤ 7 ∧ ((limited unboxing.rules 2).process boxed ⟨8, [], ()⟩).1 = (.ok unboxed, 2) ∧
      (limited unboxing.rules 7).process boxed ⟨8, [], ()⟩ =
        (limited unboxing.rules 2).process boxed ⟨8, [], ()⟩ ∧
      ((limited [nesting] 2).process box ⟨4, [], ()⟩).1 = (.error (.stepLimitExceeded 2), 3) ∧
      2 < ((limited [nesting] 7).process box ⟨4, [], ()⟩).1.2 := by
  have le : 2 ≤ 7 := by decide
  have reduced : ((limited unboxing.rules 2).process boxed ⟨8, [], ()⟩).1 = (.ok unboxed, 2) := by
    cbv
  have cut : ((limited [nesting] 2).process box ⟨4, [], ()⟩).1 =
      (.error (.stepLimitExceeded 2), 3) := by
    cbv
  refine ⟨le, reduced, ((step_limit_cuts_off unboxing.rules le boxed _).1 _ _ reduced).1, cut, ?_⟩
  rcases (step_limit_cuts_off [nesting] le box _).2.1 _ cut with ⟨-, beyond⟩ | ⟨-, -, within⟩
  · exact beyond
  · exact absurd within (by decide)

end Reducer

end Arbor
