import Mathlib
import Arbor.Language.Generate
import Arbor.Proofs.Unify.Matching

/-!
# Validity of solutions

Solving rebuilds nodes without checks, also in the values that are bound. A node in a bound value is
the instance of a node of the unified trees (`solve_nodesUnder`), and although that one is valid its
instance need not be: a variable may stand in a field whose declaration its value does not conform
to. The values are valid wherever the checked instances of both trees exist, and also if one of the
trees is ground.
-/

namespace Arbor

namespace Tree

variable {ι κ : Type} {P : NodeType → List Shape → Prop} {σ τ : Valuation}

/-! ## Nodes under a valuation -/

/-- The type of every node and its values under a valuation are as `P` says. -/
def NodesUnder (P : NodeType → List Shape → Prop) (σ : Valuation) (t : Tree ι) : Prop :=
  ∀ n ∈ t.nodes, P n.type (n.values.map (subst σ))

theorem nodesUnder_node {id : ι} {type : NodeType} {values : List (Tree ι)} :
    (Tree.node id type values).NodesUnder P σ ↔
      P type (values.map (subst σ)) ∧ ∀ v ∈ values, v.NodesUnder P σ :=
  forall_nodes_node_iff

theorem nodesUnder_seq {id : ι} {items : List (Tree ι)} :
    (Tree.seq id items).NodesUnder P σ ↔ ∀ v ∈ items, v.NodesUnder P σ :=
  forall_nodes_seq_iff

theorem nodesUnder_leaf {t : Tree ι} (leaf : t.nodes = []) : t.NodesUnder P σ := by
  simp [NodesUnder, leaf]

theorem nodesUnder_unbound {t : Tree ι} :
    t.NodesUnder P unbound ↔ ∀ n ∈ t.nodes, P n.type (n.values.map shape) := by
  rw [NodesUnder, (funext subst_unbound : (subst unbound : Tree ι → Shape) = shape)]

/-- The nodes of an instance are the instances of nodes and the nodes that are put in. -/
theorem NodesUnder.subst {t : Tree ι} (h : t.NodesUnder P fun x => (τ x).subst σ)
    (into : ∀ x ∈ t.vars, (τ x).NodesUnder P σ) : (t.subst τ).NodesUnder P σ := by
  induction t using Tree.ind with
  | node id type values ih =>
    rw [nodesUnder_node] at h
    simp only [vars, varsAll_eq_flatMap, List.mem_flatMap] at into
    simp only [Tree.subst, substAll_eq_map, nodesUnder_node, List.map_map, List.forall_mem_map]
    constructor
    · rw [(funext (subst_subst τ σ) : Tree.subst σ ∘ Tree.subst τ = Tree.subst _)]
      exact h.1
    · intro v hv
      exact ih v hv (h.2 v hv) fun x hx => into x ⟨v, hv, hx⟩
  | seq id items ih =>
    rw [nodesUnder_seq] at h
    simp only [vars, varsAll_eq_flatMap, List.mem_flatMap] at into
    simp only [Tree.subst, substAll_eq_map, nodesUnder_seq, List.forall_mem_map]
    intro v hv
    exact ih v hv (h v hv) fun x hx => into x ⟨v, hv, hx⟩
  | prim p => exact nodesUnder_leaf rfl
  | absent => exact nodesUnder_leaf rfl
  | pattern p =>
    cases p with
    | var x => exact into x (by simp [vars])
    | wildcard => exact nodesUnder_leaf rfl

theorem nodesUnder_shape {t : Tree ι} : t.shape.NodesUnder P σ ↔ t.NodesUnder P σ := by
  induction t using Tree.ind with
  | node id type values ih =>
    simp only [shape, shapeAll_eq_map, nodesUnder_node, List.map_map, List.forall_mem_map]
    rw [(funext (subst_shape σ) : subst σ ∘ shape = subst σ)]
    exact and_congr_right fun _ => forall₂_congr ih
  | seq id items ih =>
    simp only [shape, shapeAll_eq_map, nodesUnder_seq, List.forall_mem_map]
    exact forall₂_congr ih
  | prim p => exact iff_of_true (nodesUnder_leaf rfl) (nodesUnder_leaf rfl)
  | absent => exact iff_of_true (nodesUnder_leaf rfl) (nodesUnder_leaf rfl)
  | pattern p => exact iff_of_true (nodesUnder_leaf rfl) (nodesUnder_leaf rfl)

/-- A binding that has been made no longer matters to the value that it binds. -/
theorem NodesUnder.bound {x : String} {t : Tree ι} (notMem : x ∉ t.vars)
    (h : t.NodesUnder P fun y => (binding x t y).subst σ) : t.NodesUnder P σ := by
  rw [← nodesUnder_shape, ← subst_binding_of_notMem (t := t) notMem]
  apply h.subst
  intro y hy
  have ne : y ≠ x := fun e => notMem (e ▸ hy)
  rw [binding_of_ne t ne]
  exact nodesUnder_leaf rfl

theorem NodesUnder.subst_binding {x : String} {t : Tree κ} {u : Tree ι} (notMem : x ∉ t.vars)
    (hu : u.NodesUnder P fun y => (binding x t y).subst σ)
    (ht : t.NodesUnder P fun y => (binding x t y).subst σ) :
    (u.subst (binding x t)).NodesUnder P σ := by
  apply hu.subst
  intro y hy
  rw [binding]
  split
  · exact nodesUnder_shape.mpr (ht.bound notMem)
  · exact nodesUnder_leaf rfl

/-! ## Checked instances -/

mutual

/-- Where the checked instance of a valid tree exists, the instances of its nodes are valid. -/
theorem nodesUnder_of_instantiate {find : String → Option Value} (v : Value) (valid : v.Valid)
    {next n : Ident} {r : Option Value}
    (h : instantiate NodeType.validate find v next = .ok (r, n)) :
    v.NodesUnder (fun type values => type.validate values = .ok ()) (standing find) := by
  match v with
  | .node id type values =>
    rw [valid_node] at valid
    rw [nodesUnder_node]
    simp only [instantiate, bind, Except.bind] at h
    split at h
    · cases h
    · rename_i p hp
      obtain ⟨changed, m⟩ := p
      refine ⟨?_, nodesUnder_of_instantiateAll values valid.2 hp⟩
      rw [← shape_instantiateAll values hp, NodeType.validate_shape]
      cases changed with
      | none => exact valid.1
      | some changed =>
        dsimp only at h
        split at h
        · cases h
        · assumption
  | .seq id items =>
    rw [valid_seq] at valid
    rw [nodesUnder_seq]
    simp only [instantiate, bind, Except.bind] at h
    split at h
    · cases h
    · rename_i p hp
      exact nodesUnder_of_instantiateAll items valid hp
  | .pattern _ | .prim _ | .absent => exact nodesUnder_leaf rfl

theorem nodesUnder_of_instantiateAll {find : String → Option Value} (vs : List Value)
    (valid : ∀ v ∈ vs, v.Valid) {next n : Ident} {r : Option (List Value)}
    (h : instantiateAll NodeType.validate find vs next = .ok (r, n)) :
    ∀ v ∈ vs, v.NodesUnder (fun type values => type.validate values = .ok ()) (standing find) := by
  match vs with
  | [] => exact List.forall_mem_nil _
  | v :: vs =>
    rw [List.forall_mem_cons] at valid ⊢
    simp only [instantiateAll, bind, Except.bind] at h
    split at h
    · cases h
    · rename_i p hp
      split at h
      · cases h
      · rename_i q hq
        exact ⟨nodesUnder_of_instantiate v valid.1 hp,
          nodesUnder_of_instantiateAll vs valid.2 hq⟩

end

end Tree

namespace Unify

open Arbor.Tree

variable {P : NodeType → List Shape → Prop}

/-! ## Runs -/

theorem Asks.nodesUnder_split {σ : Valuation} {l r : Value} {eqs : List Equation}
    (asks : Asks l r (.split eqs)) (hl : l.NodesUnder P σ) (hr : r.NodesUnder P σ) :
    ∀ e ∈ eqs, e.1.NodesUnder P σ ∧ e.2.NodesUnder P σ := by
  have zip {vs ws : List Value} (hv : ∀ v ∈ vs, v.NodesUnder P σ)
      (hw : ∀ w ∈ ws, w.NodesUnder P σ) (e : Equation) (he : e ∈ vs.zip ws) :
      e.1.NodesUnder P σ ∧ e.2.NodesUnder P σ :=
    ⟨hv _ (List.of_mem_zip he).1, hw _ (List.of_mem_zip he).2⟩
  cases asks with
  | wildLeft => simp
  | wildRight => simp
  | equal _ => simp
  | node _ => exact zip (nodesUnder_node.mp hl).2 (nodesUnder_node.mp hr).2
  | seq _ => exact zip (nodesUnder_seq.mp hl) (nodesUnder_seq.mp hr)

theorem Asks.nodesUnder_bind {σ : Valuation} {l r t : Value} {x : String}
    (asks : Asks l r (.bind x t)) (hl : l.NodesUnder P σ) (hr : r.NodesUnder P σ) :
    x ∉ t.vars ∧ t.NodesUnder P σ := by
  cases asks with
  | bindLeft notMem => exact ⟨notMem, hr⟩
  | bindRight notMem => exact ⟨notMem, hl⟩

theorem nodesUnder_restAfter {σ : Valuation} {x : String} {t : Value} {rest : List Equation}
    (notMem : x ∉ t.vars) (ht : t.NodesUnder P fun y => (binding x t y).subst σ)
    (h : ∀ e ∈ rest, e.1.NodesUnder P (fun y => (binding x t y).subst σ) ∧
      e.2.NodesUnder P fun y => (binding x t y).subst σ) (next : Ident) :
    ∀ e ∈ (restAfter x t rest next).1, e.1.NodesUnder P σ ∧ e.2.NodesUnder P σ := by
  have parts := (forall_expandEquations (P := fun l r => l.NodesUnder P σ ∧ r.NodesUnder P σ)
    (Substitution.single x t) rest next).mpr
  simp only [nodesUnder_shape, standing_single] at parts
  exact parts fun e he =>
    ⟨(h e he).1.subst_binding notMem ht, (h e he).2.subst_binding notMem ht⟩

theorem nodesUnder_bind {σ : Valuation} {s : Substitution} {x : String} {t : Value} {next : Ident}
    (notMem : x ∉ t.vars) (ht : t.NodesUnder P fun y => (binding x t y).subst σ)
    (h : ∀ y v, s.get? y = some v → v.NodesUnder P fun z => (binding x t z).subst σ) (y : String)
    (v : Value) (hv : (s.bind x t next).1.get? y = some v) : v.NodesUnder P σ := by
  have shapes := s.shape_get?_bind x y t next
  rw [hv, Option.map_some] at shapes
  rw [← nodesUnder_shape]
  split at shapes
  · rw [Option.some.inj shapes]
    exact nodesUnder_shape.mpr (ht.bound notMem)
  · obtain ⟨u, hu, e⟩ := Option.map_eq_some_iff.mp shapes.symm
    rw [← e]
    exact (h y u hu).subst_binding notMem ht

/-- What holds of the nodes of all equations under the bindings that are still to be made holds of
the nodes in the solution. -/
theorem solve_nodesUnder (pending : List Equation) (found : Substitution) (next : Ident)
    {s : Substitution} (h : (solve pending found next).result = .ok s)
    (nodes : ∀ e ∈ pending, e.1.NodesUnder P (inOrder (solve pending found next).trace) ∧
      e.2.NodesUnder P (inOrder (solve pending found next).trace))
    (nodesFound : ∀ y v, found.get? y = some v →
      v.NodesUnder P (inOrder (solve pending found next).trace)) :
    ∀ y v, s.get? y = some v → v.NodesUnder P unbound := by
  induction pending, found, next using solve.induct with
  | case1 found next =>
    rw [solve_nil] at h nodesFound
    cases h
    exact nodesFound
  | case2 found next l r rest e step =>
    rw [solve_error step] at h
    cases h
  | case3 found next l r rest eqs step ih =>
    rw [solve_split step] at h nodes nodesFound
    rw [List.forall_mem_cons] at nodes
    refine ih h ?_ nodesFound
    rw [List.forall_mem_append]
    refine ⟨fun e he => ?_, nodes.2⟩
    exact (matchStep_asks step).nodesUnder_split nodes.1.1 nodes.1.2 e (List.mem_reverse.mp he)
  | case4 found next l r rest x t step pending bound ih =>
    obtain ⟨result, trace⟩ := solve_bind step rest found next
    rw [trace] at nodes nodesFound
    rw [List.forall_mem_cons] at nodes
    obtain ⟨notMem, ht⟩ := (matchStep_asks step).nodesUnder_bind nodes.1.1 nodes.1.2
    exact ih (result ▸ h) (nodesUnder_restAfter notMem ht nodes.2 next)
      (nodesUnder_bind notMem ht nodesFound)

/-- What holds of the nodes of two trees under their unifier holds of the nodes in the unifier. -/
theorem solveAll_nodes {a b : Value} {next : Ident} {s : Substitution}
    (h : (solveAll [(a, b)] next).result = .ok s) (ha : a.NodesUnder P s.valuation)
    (hb : b.NodesUnder P s.valuation) {x : String} {v : Value} (hv : s.get? x = some v) :
    ∀ n ∈ v.nodes, P n.type (n.values.map shape) := by
  rw [solveAll_valuation h] at ha hb
  refine nodesUnder_unbound.mp ?_
  exact solve_nodesUnder [(a, b)] {} next h (List.forall_mem_singleton.mpr ⟨ha, hb⟩) nofun x v hv

theorem valid_of_binds {p t : Value} {s : Substitution} (binds : BindsParts p t s) (valid : t.Valid)
    {x : String} {v : Value} (hv : s.get? x = some v) : v.Valid := by
  obtain ⟨parts, captured, -, bound⟩ := binds
  exact hereditary_valid.captures p t valid captured _ (bound x v hv).1

/-- Every node in a value that unification binds is the instance of a node of the unified trees. If
all nodes of these are valid and their checked instances exist, or one of them is ground, then all
nodes in the bound values are valid. -/
theorem unification_valid {σ : Type} (w : World σ) {a b : Value} {s : Substitution}
    (unified : ((Effect.unify a b).run w).1 = .ok s) {x : String} {v : Value}
    (bound : s.get? x = some v) :
    (∀ n ∈ v.nodes, ∃ m ∈ a.nodes ++ b.nodes,
      ∀ i, n.toTree.same (m.toTree.expand s.get? i).1 = true) ∧
    (a.Valid → b.Valid → ((∃ i r, s.apply a i = .ok r) ∧ ∃ i r, s.apply b i = .ok r) ∨
      a.Ground ∨ b.Ground → v.Valid) := by
  have solved := run_unify_ok.mp unified
  constructor
  · have instances := solveAll_nodes (P := fun type values => ∃ m ∈ a.nodes ++ b.nodes,
      m.type = type ∧ m.values.map (Tree.subst s.valuation) = values) solved
      (fun m hm => ⟨m, List.mem_append_left _ hm, rfl, rfl⟩)
      (fun m hm => ⟨m, List.mem_append_right _ hm, rfl, rfl⟩) bound
    intro n hn
    obtain ⟨m, hm, type, values⟩ := instances n hn
    refine ⟨m, hm, fun i => ?_⟩
    rw [same_iff, shape_expand]
    simp only [Node.toTree, shape, Tree.subst, shapeAll_eq_map, substAll_eq_map, type]
    rw [← values]
    rfl
  · rintro validA validB (⟨⟨i, r, applyA⟩, ⟨j, q, applyB⟩⟩ | groundA | groundB)
    · obtain ⟨_, checkedA, -⟩ := Substitution.apply_ok applyA
      obtain ⟨_, checkedB, -⟩ := Substitution.apply_ok applyB
      have valid := solveAll_nodes solved (nodesUnder_of_instantiate a validA checkedA)
        (nodesUnder_of_instantiate b validB checkedB) bound
      simp only [NodeType.validate_shape] at valid
      exact valid
    · have swap := solve_swap [(b, a)] {} w.next (by simpa using groundA)
      refine valid_of_binds (solve_pair_binds groundA (swap.symm.trans ?_)) validA bound
      exact congrArg Except.toOption solved
    · exact valid_of_binds (solve_pair_binds groundB (congrArg Except.toOption solved)) validB bound

/-! ## An ill-typed value -/

def numberGrammar : Grammar := Grammar.sum {} "expr" [("Num", [⟨"n", "int", .single⟩])]

def numberType : NodeType := .derived "Num" 2 [1, 0] [⟨"n", "int", .single, .primitive .int⟩]

def numberLanguage : Language where
  id := 0
  types := [Grammar.rootType 0 true, ⟨"expr", 0, 1, .abstract, some 0, [1, 0], [], true⟩, numberType]
  checked := true

/-- A variable and a number that holds it. -/
def numbered : Value :=
  .seq 0 [.pattern (.var "X"), .node 1 numberType [.pattern (.var "X")]]

/-- A primitive value and a variable. -/
def unnumbered (p : Prim) : Value := .seq 2 [.prim p, .pattern (.var "Y")]

theorem unify_numbered (p : Prim) :
    ((Effect.unify numbered (unnumbered p)).run (⟨3, [], ()⟩ : World Unit)).1 =
      .ok ⟨[("X", .prim p), ("Y", .node 3 numberType [.prim p])]⟩ := by
  rw [run_unify_ok, solveAll, List.reverse_singleton,
    solve_split (l := numbered) (r := unnumbered p) rfl]
  refine (solve_bind (x := "Y") rfl _ _ _).1.trans ?_
  refine (solve_bind (x := "X") rfl _ _ _).1.trans ?_
  exact congrArg Solution.result (solve_nil _ _)

theorem valid_numbered (p : Prim) : numbered.Valid ∧ (unnumbered p).Valid := by
  constructor
  · unfold Valid
    decide
  · simp [Valid, unnumbered, nodes]

/-- An integer fits into the number, and both trees have a checked instance. -/
theorem unification_valid_number :
    let s : Substitution := ⟨[("X", .prim (.int 5)), ("Y", .node 3 numberType [.prim (.int 5)])]⟩
    ((Effect.unify numbered (unnumbered (.int 5))).run (⟨3, [], ()⟩ : World Unit)).1 = .ok s ∧
      (∃ r, s.apply numbered 4 = .ok r) ∧ (∃ r, s.apply (unnumbered (.int 5)) 4 = .ok r) ∧
      Valid (.node 3 numberType [.prim (.int 5)] : Value) := by
  intro s
  have unified := unify_numbered (.int 5)
  obtain ⟨validLeft, validRight⟩ := valid_numbered (.int 5)
  refine ⟨unified, ⟨_, rfl⟩, ⟨_, rfl⟩, ?_⟩
  apply (unification_valid _ unified (x := "Y") rfl).2 validLeft validRight
  exact .inl ⟨⟨4, _, rfl⟩, 4, _, rfl⟩

/-- A string does not: in a generated and checked language, unification of two trees of valid nodes
binds a variable to a node that is not valid. -/
theorem exists_invalid_bound :
    Language.ofGrammar 0 numberGrammar { checked := true } = .ok numberLanguage ∧
      ∃ a b : Value, (∀ n ∈ a.nodes ++ b.nodes, n.type ∈ numberLanguage.types) ∧ a.Valid ∧ b.Valid ∧
        ∃ s, ((Effect.unify a b).run (⟨3, [], ()⟩ : World Unit)).1 = .ok s ∧
          ∃ x v, s.get? x = some v ∧ ¬ v.Valid := by
  obtain ⟨validLeft, validRight⟩ := valid_numbered (.str "text")
  refine ⟨by cbv, numbered, unnumbered (.str "text"), by decide, validLeft, validRight, _,
    unify_numbered _, "Y", _, rfl, ?_⟩
  unfold Valid
  decide

end Unify

end Arbor
