import Arbor.Proofs.Reduction.NormalForm
import Arbor.Proofs.Unify.Matching

/-!
# Reduction of well-typed trees

A node is validated when it is made, and only against its own values. What is valid at all depths
stays so in a reduction: a pattern that matches binds its variables to parts of the tree, an
instance of a template consists of such parts and of nodes that have been validated, and so do the
nodes that are rebuilt above a replacement. So the trees that come out of a reduction by safe rules
are well-typed.
-/

namespace Arbor

open Arbor.Tree

variable {σ : Type}

/-- A tree without pattern terms in which every node passes the validation of its type. -/
structure Tree.WellTyped {ι : Type} (t : Tree ι) : Prop where
  valid : t.Valid
  ground : t.Ground

theorem Tree.hereditary_wellTyped {ι : Type} : Hereditary (WellTyped : Tree ι → Prop) where
  node valid inner :=
    ⟨valid_node.mpr ⟨valid, fun v hv => (inner v hv).valid⟩,
      trivial, everyAll_iff.mpr fun v hv => (inner v hv).ground⟩
  values typed v hv := ⟨(valid_node.mp typed.valid).2 v hv, typed.ground.of_node v hv⟩
  seq :=
    ⟨fun typed v hv => ⟨valid_seq.mp typed.valid v hv, typed.ground.of_seq v hv⟩,
      fun inner => ⟨valid_seq.mpr fun v hv => (inner v hv).valid,
        everyAll_iff.mpr fun v hv => (inner v hv).ground⟩⟩

/-! ## Instances -/

namespace Tree

mutual

/-- The checked instance of a tree with the property has it, if the values put in do. -/
theorem Hereditary.instantiate {P : Value → Prop} (hereditary : Hereditary P)
    {find : String → Option Value} (found : ∀ x v, find x = some v → P v) (v : Value) (own : P v)
    {next n : Ident} {r : Option Value}
    (h : instantiate NodeType.validate find v next = .ok (r, n)) : P (r.getD v) := by
  match v with
  | .node id type values =>
    simp only [Tree.instantiate, bind, Except.bind] at h
    split at h
    · cases h
    · rename_i p hp
      obtain ⟨changed, m⟩ := p
      have parts := hereditary.instantiateAll found values (hereditary.values own) hp
      cases changed with
      | none =>
        cases h
        exact own
      | some changed =>
        dsimp only at h
        split at h
        · cases h
        · rename_i valid
          cases h
          exact hereditary.node valid parts
  | .seq id items =>
    simp only [Tree.instantiate, bind, Except.bind] at h
    split at h
    · cases h
    · rename_i p hp
      obtain ⟨changed, m⟩ := p
      have parts := hereditary.instantiateAll found items (hereditary.seq.mp own) hp
      cases changed with
      | none =>
        cases h
        exact own
      | some changed =>
        cases h
        exact hereditary.seq.mpr parts
  | .pattern (.var x) =>
    rw [Tree.instantiate] at h
    cases hx : find x with
    | none =>
      rw [hx] at h
      cases h
      exact own
    | some u =>
      rw [hx] at h
      cases h
      split
      · exact own
      · exact found x u hx
  | .pattern .wildcard | .prim _ | .absent =>
    cases h
    exact own

theorem Hereditary.instantiateAll {P : Value → Prop} (hereditary : Hereditary P)
    {find : String → Option Value} (found : ∀ x v, find x = some v → P v) (vs : List Value)
    (own : ∀ v ∈ vs, P v) {next n : Ident} {r : Option (List Value)}
    (h : instantiateAll NodeType.validate find vs next = .ok (r, n)) :
    ∀ v ∈ r.getD vs, P v := by
  match vs with
  | [] =>
    cases h
    exact List.forall_mem_nil _
  | v :: vs =>
    rw [List.forall_mem_cons] at own
    simp only [Tree.instantiateAll, bind, Except.bind] at h
    split at h
    · cases h
    · rename_i p hp
      split at h
      · cases h
      · rename_i q hq
        have head := hereditary.instantiate found v own.1 hp
        have tail := hereditary.instantiateAll found vs own.2 hq
        obtain ⟨first, m⟩ := p
        obtain ⟨others, m'⟩ := q
        cases first <;> cases others <;> cases h <;> exact List.forall_mem_cons.mpr ⟨head, tail⟩

end

end Tree

/-! ## Rules -/

namespace Rule

/-- Whenever all variables of the pattern are bound, and to well-typed values only, a replacement is
well-typed. -/
def Safe (r : Rule σ) : Prop :=
  ∀ s : Substitution, (∀ x ∈ r.pattern.vars, s.contains x = true) →
    (∀ x v, s.get? x = some v → v.WellTyped) → Yields (Outcome.All WellTyped) (r.action s)

theorem unify?_yields {p t : Value} (ground : t.Ground) :
    Yields (fun found => ∀ s, found = some s → Unify.BindsParts p t s)
      (Effect.unify? p t : Effect σ (Option Substitution)) := by
  intro found w w' run
  obtain ⟨after, solved⟩ := run_unify? p t w
  rw [solved] at run
  cases run
  exact fun s hs => Unify.solve_pair_binds ground hs

theorem apply_yields {r : Rule σ} (safe : r.Safe) {value : Value} (typed : value.WellTyped) :
    Yields (fun found => ∀ o, found = some o → o.All WellTyped) (r.apply value) := by
  refine (unify?_yields typed.ground).bind fun found binds => ?_
  cases found with
  | none => exact yields_pure nofun
  | some s =>
    -- The tree is ground, so the bindings are parts of it and need no check of their own.
    obtain ⟨parts, captured, bound, values⟩ := binds s rfl
    have inner := hereditary_wellTyped.captures r.pattern value typed captured
    refine (safe s (fun x hx => (bound x).mpr hx) fun x v hv => ?_).bind fun o outcome => ?_
    · exact inner (x, v) (values x v hv).1
    · refine yields_pure ?_
      rintro _ ⟨⟩
      exact outcome

/-- A rule with a template is safe if the template is valid and has no other pattern terms than
variables of the pattern. -/
theorem safe_ofTemplate (name : Option String) {pattern template : Value} (valid : template.Valid)
    (free : template.WildcardFree) (vars : ∀ x ∈ template.vars, x ∈ pattern.vars) :
    (ofTemplate name pattern template : Rule σ).Safe := by
  intro s bound typed
  refine Yields.bind (P := WellTyped) ?_ fun v typed => yields_pure typed
  intro v w w' run
  rw [run_instantiate] at run
  split at run
  · rename_i applied
    cases run
    -- Validity goes along the objects, since what is shared with the template is not validated
    -- again; groundness depends on the shape only.
    refine ⟨?_, every_shape.mp ?_⟩
    · obtain ⟨changed, instantiated, rfl⟩ := Substitution.apply_ok applied
      exact hereditary_valid.instantiate (fun x v hv => (typed x v hv).valid) template valid
        instantiated
    · rw [Substitution.shape_apply applied]
      refine free.subst_into (fun ne => ne rfl) fun x hx => ?_
      obtain ⟨v, hv⟩ := Option.isSome_iff_exists.mp (bound x (vars x hx))
      rw [Substitution.valuation, standing_some hv]
      exact every_shape.mpr (typed x v hv).ground
  · cases run

end Rule

/-! ## Runs -/

namespace Reducer

open Walk

variable {r : Reducer σ}

section Runs

variable (safe : ∀ rule ∈ r.rules, rule.Safe)

include safe

theorem tryRules_yields {node : Node Ident} (typed : node.toTree.WellTyped) :
    Yields (fun found => ∀ v, found = some v → v.WellTyped) (r.tryRules node) := by
  intro found w w' run
  obtain ⟨-, v, v', first⟩ := lift_ok run
  have each (rule) (hr : rule ∈ r.rules) := Rule.apply_yields (safe rule hr) typed
  exact Rule.firstReplacement_yields each found v v' first

theorem settle_yields {bound : Nat} {value : Value} (typed : value.WellTyped) :
    Yields WellTyped (r.settle bound value) := by
  induction bound generalizing value with
  | zero => exact yields_pure typed
  | succ bound ih =>
    rw [settle]
    split
    · exact yields_pure typed
    · rename_i node isNode
      have own : node.toTree.WellTyped := eq_toTree_of_node? isNode ▸ typed
      refine (tryRules_yields safe own).bind fun found next => ?_
      cases found with
      | none => exact yields_pure typed
      | some v => exact (yields_any _).bind fun _ _ => ih (next v rfl)

theorem reduceNode_yields {node : Node Ident} (typed : node.toTree.WellTyped) :
    Yields (fun found => ∀ v, found = some v → v.WellTyped) (r.reduceNode node) := by
  refine (tryRules_yields safe typed).bind fun found next => ?_
  cases found with
  | none => exact yields_pure nofun
  | some value =>
    refine (yields_any _).bind fun _ _ => ?_
    split
    · refine (settle_yields safe (next value rfl)).bind fun v settled => yields_pure ?_
      rintro _ ⟨⟩
      exact settled
    · exact yields_pure next

theorem visit_yields {allowance : Nat} {value : Value} (typed : value.WellTyped) :
    Yields (Edit.All WellTyped) (r.handlers.visit allowance value) := by
  induction allowance generalizing value with
  | zero => exact fun _ _ _ run => by (cases run)
  | succ allowance ih =>
    apply Handlers.visit_yields
    intro slot
    cases value with
    | node id type values =>
      have inner := hereditary_wellTyped.values typed
      refine (moves_inNode _ _ _).yields ?_
      rw [play_node]
      refine (descend_yields hereditary_wellTyped ⟨id, type, values⟩ typed fun v hv =>
        ih (inner v hv)).bind fun reduced own => ?_
      refine (yields_ofEffect (reduceNode_yields safe own)).bind fun found next => ?_
      cases found with
      | none => exact yields_pure (Edit.all_ofValue own)
      | some v => exact yields_pure (next v rfl)
    | seq id items =>
      have inner := hereditary_wellTyped.seq.mp typed
      exact Handlers.handle_seq_yields hereditary_wellTyped typed fun v hv => ih (inner v hv)
    | prim p => exact yields_pure trivial
    | absent => exact yields_pure trivial
    | pattern p => exact yields_pure trivial

theorem pass_yields {number : Nat} {tree : Value} (typed : tree.WellTyped) :
    Yields WellTyped (r.pass number tree) := by
  have walked : Yields (fun found : Edit × Context => found.1.All WellTyped) (r.walking tree) := by
    intro found w w' run
    obtain ⟨s, visited, -⟩ := walking_ok run
    exact visit_yields safe typed found.1 _ s visited
  rw [pass_eq]
  refine (yields_any _).bind fun _ _ => walked.bind fun found edit => ?_
  refine (resolve_yields hereditary_wellTyped typed edit).bind fun value own => ?_
  exact (yields_any _).bind fun _ _ => (yields_any _).bind fun _ _ => yields_pure own

theorem passes_yields {bound number : Nat} {tree : Value} (typed : tree.WellTyped) :
    Yields WellTyped (r.passes bound number tree) := by
  induction bound generalizing number tree with
  | zero => exact yields_pure typed
  | succ bound ih =>
    refine (yields_any _).bind fun _ _ => (pass_yields safe typed).bind fun value own =>
      (yields_any _).bind fun _ _ => ?_
    split
    · exact yields_pure own
    · exact ih own

theorem run_yields {tree : Value} (typed : tree.WellTyped) : Yields WellTyped (r.run tree) := by
  rw [run]
  split
  · exact passes_yields safe typed
  · exact pass_yields safe typed

end Runs

/-- Reduction of a well-typed tree by safe rules, in either mode, fails or gives a well-typed tree.
Rules with templates are safe if the template is valid and has no pattern terms but variables of the
pattern. -/
theorem process_wellTyped :
    (∀ name pattern template, template.Valid → template.WildcardFree →
      (∀ x ∈ template.vars, x ∈ pattern.vars) →
        (Rule.ofTemplate name pattern template : Rule σ).Safe) ∧
    ∀ r : Reducer σ, (∀ rule ∈ r.rules, rule.Safe) → ∀ tree : Value, tree.WellTyped →
      ∀ w, (∃ e, (r.process tree w).1.1 = .error e) ∨
        ∃ t, (r.process tree w).1.1 = .ok t ∧ t.WellTyped := by
  refine ⟨fun name pattern template => Rule.safe_ofTemplate name, fun r safe tree typed w => ?_⟩
  have yields := run_yields safe typed
  rcases ran : (r.run tree).run { next := w.next, log := w.log, user := ⟨0, w.user⟩ } with
    ⟨result, after⟩
  rw [process, ran]
  cases result with
  | error e => exact .inl ⟨e, rfl⟩
  | ok t => exact .inr ⟨t, rfl, yields t _ after ran⟩

/-- A type of expressions with one field. -/
def signType (name : String) (index : Nat) (target : Target) : NodeType where
  name := name
  language := 0
  index := index
  kind := .concrete
  base := some 1
  ancestry := [index, 1, 0]
  fields := [⟨"of", "of", .single, target⟩]
  checked := true

def minus (id : Ident) (value : Value) : Value := .node id (signType "Minus" 2 (.node 1)) [value]

def plus (id : Ident) (value : Value) : Value := .node id (signType "Plus" 3 (.node 1)) [value]

def number (id : Ident) : Value := .node id (signType "Number" 4 (.primitive .int)) [.prim (.int 7)]

def operand : Value := .pattern (.var "x")

/-- Makes something for the next rule. -/
def unplus : Rule Unit := .ofTemplate none (plus 0 operand) (minus 1 (minus 2 operand))

def unminus : Rule Unit := .ofTemplate none (minus 3 (minus 4 operand)) operand

def signs : Reducer Unit where
  rules := [unplus, unminus, { pattern := .pattern .wildcard, action := fun _ => pure .keep }]
  fixpoint := true

theorem process_wellTyped_signs :
    let tree := minus 7 (plus 6 (number 5))
    tree.WellTyped ∧ (∀ rule ∈ signs.rules, rule.Safe) ∧
      ((unplus.apply (plus 6 (number 5))).run ⟨8, [], ()⟩).1 =
        .ok (some (.replace (minus 9 (minus 8 (number 5))))) ∧
      ((∃ e, (signs.process tree ⟨8, [], ()⟩).1.1 = .error e) ∨
        ∃ t, (signs.process tree ⟨8, [], ()⟩).1.1 = .ok t ∧ t.WellTyped) := by
  intro tree
  have typed : tree.WellTyped := by
    constructor
    · unfold Valid
      decide
    · simp [tree, minus, plus, number, Ground, Every, EveryAll]
  obtain ⟨templates, keeps⟩ := process_wellTyped (σ := Unit)
  have safe : ∀ rule ∈ signs.rules, rule.Safe := by
    simp only [signs, List.forall_mem_cons]
    refine ⟨templates _ _ _ ?_ ?_ ?_, templates _ _ _ ?_ ?_ ?_, fun _ _ _ => ?_,
      List.forall_mem_nil _⟩
    · unfold Valid
      decide
    · simp [minus, operand, WildcardFree, Every, EveryAll]
    · decide
    · unfold Valid
      decide
    · simp [operand, WildcardFree, Every]
    · decide
    · exact yields_pure trivial
  exact ⟨typed, safe, by cbv, keeps signs safe tree typed ⟨8, [], ()⟩⟩

end Reducer

end Arbor
