import Mathlib
import Arbor.Proofs.Unify.Congruence
import Arbor.Proofs.Unify.Correctness

/-!
# The order of equations

Which equation is solved first decides what a variable is bound to, and a wildcard in that value is
compared once for every place of the variable. So equations with wildcards may be solved in one
order only. No order fails if the equations hold, up to wildcards, for values that have none
(`solve_succeeds`): such values keep the equations true through all bindings, since agreement is
transitive through a tree without wildcards (`Tree.agrees_trans`). A run that binds no wildcard has
found values of this kind, and where wildcards stand against trees without variables every run is
like that (`solve_guarded`).
-/

namespace Arbor

namespace Tree

variable {ι : Type} {t u v : Tree ι} {vs us ws : List (Tree ι)}

/-! ## Agreement -/

/-- What two trees that agree look like. -/
inductive Agreement : Tree ι → Tree ι → Prop
  | wildLeft (u : Tree ι) : Agreement (.pattern .wildcard) u
  | wildRight (t : Tree ι) : Agreement t (.pattern .wildcard)
  | node {i j : ι} {type : NodeType} {vs ws : List (Tree ι)} :
      List.Forall₂ (fun v w => v.agrees w = true) vs ws →
        Agreement (.node i type vs) (.node j type ws)
  | seq {i j : ι} {vs ws : List (Tree ι)} :
      List.Forall₂ (fun v w => v.agrees w = true) vs ws → Agreement (.seq i vs) (.seq j ws)
  | prim (p : Prim) : Agreement (.prim p) (.prim p)
  | absent : Agreement .absent .absent
  | var (x : String) : Agreement (.pattern (.var x)) (.pattern (.var x))

theorem agreesAll_iff_forall₂ :
    agreesAll vs ws = true ↔ List.Forall₂ (fun v w => v.agrees w = true) vs ws := by
  induction vs generalizing ws with
  | nil => cases ws <;> simp [agreesAll]
  | cons v vs ih => cases ws <;> simp [agreesAll, ih]

theorem agreement (h : t.agrees u = true) : Agreement t u := by
  unfold agrees at h
  split at h
  · exact .wildLeft u
  · exact .wildRight t
  · simp only [Bool.and_eq_true, beq_iff_eq] at h
    obtain ⟨rfl, parts⟩ := h
    exact .node (agreesAll_iff_forall₂.mp parts)
  · exact .seq (agreesAll_iff_forall₂.mp h)
  · rw [beq_iff_eq] at h
    subst h
    exact .prim _
  · exact .absent
  · rw [beq_iff_eq] at h
    subst h
    exact .var _
  · cases h

theorem agrees_node {i j : ι} {type : NodeType}
    (h : List.Forall₂ (fun v w => v.agrees w = true) vs ws) :
    (Tree.node i type vs).agrees (Tree.node j type ws) = true := by
  simp [agrees, agreesAll_iff_forall₂.mpr h]

theorem agrees_seq {i j : ι} (h : List.Forall₂ (fun v w => v.agrees w = true) vs ws) :
    (Tree.seq i vs).agrees (Tree.seq j ws) = true := by
  simp [agrees, agreesAll_iff_forall₂.mpr h]

theorem agrees_symm (h : t.agrees u = true) : u.agrees t = true := by
  have flip {vs ws : List (Tree ι)}
      (ih : ∀ v ∈ vs, ∀ {u : Tree ι}, v.agrees u = true → u.agrees v = true)
      (parts : List.Forall₂ (fun v w => v.agrees w = true) vs ws) :
      List.Forall₂ (fun w v => w.agrees v = true) ws vs := by
    have both := (List.forall₂_and_left vs ws).mpr ⟨ih, parts⟩
    exact (both.imp fun v w h => h.1 h.2).flip
  induction t using Tree.ind generalizing u with
  | node id type values ih =>
    cases agreement h with
    | wildRight => rfl
    | node parts => exact agrees_node (flip ih parts)
  | seq id items ih =>
    cases agreement h with
    | wildRight => rfl
    | seq parts => exact agrees_seq (flip ih parts)
  | prim p => cases agreement h <;> simp [agrees]
  | absent => cases agreement h <;> rfl
  | pattern p =>
    cases agreement h with
    | wildLeft => exact agrees_wildcard u
    | wildRight => rfl
    | var x => simp [agrees]

theorem forall₂_through {R S : Tree ι → Tree ι → Prop}
    (through : ∀ u ∈ us, ∀ v w, R v u → R u w → S v w) (left : List.Forall₂ R vs us)
    (right : List.Forall₂ R us ws) : List.Forall₂ S vs ws := by
  induction left generalizing ws with
  | nil =>
    cases right
    exact .nil
  | cons head tail ih =>
    rw [List.forall_mem_cons] at through
    cases right with
    | cons head' tail' => exact .cons (through.1 _ _ head head') (ih through.2 tail')

/-- Agreement is transitive through a tree without wildcards. -/
theorem agrees_trans (free : u.WildcardFree) (left : t.agrees u = true)
    (right : u.agrees v = true) : t.agrees v = true := by
  induction u using Tree.ind generalizing t v with
  | node id type values ih =>
    simp only [WildcardFree, Every, true_and, everyAll_iff] at free ih
    cases agreement left with
    | wildLeft => rfl
    | node parts =>
      cases agreement right with
      | wildRight => rfl
      | node parts' =>
        exact agrees_node (forall₂_through (fun u hu _ _ => ih u hu (free u hu)) parts parts')
  | seq id items ih =>
    simp only [WildcardFree, Every, everyAll_iff] at free ih
    cases agreement left with
    | wildLeft => rfl
    | seq parts =>
      cases agreement right with
      | wildRight => rfl
      | seq parts' =>
        exact agrees_seq (forall₂_through (fun u hu _ _ => ih u hu (free u hu)) parts parts')
  | prim p =>
    cases agreement left with
    | wildLeft => rfl
    | prim => exact right
  | absent =>
    cases agreement left with
    | wildLeft => rfl
    | absent => exact right
  | pattern p =>
    cases agreement left with
    | wildLeft => rfl
    | wildRight => exact absurd rfl free
    | var x => exact right

/-- A tree that agrees with one without wildcards is not larger. -/
theorem size_le_of_agrees (free : u.WildcardFree) (h : t.agrees u = true) : t.size ≤ u.size := by
  have sizes {vs ws : List (Tree ι)}
      (ih : ∀ w ∈ ws, ∀ v : Tree ι, v.agrees w = true → v.size ≤ w.size)
      (parts : List.Forall₂ (fun v w => v.agrees w = true) vs ws) : sizeAll vs ≤ sizeAll ws := by
    induction parts with
    | nil => exact Nat.le_refl _
    | cons head _ tail =>
      rw [List.forall_mem_cons] at ih
      exact Nat.add_le_add (ih.1 _ head) (tail ih.2)
  induction u using Tree.ind generalizing t with
  | node id type values ih =>
    simp only [WildcardFree, Every, true_and, everyAll_iff] at free ih
    cases agreement h with
    | wildLeft => exact Unify.size_pos _
    | node parts => exact Nat.succ_le_succ (sizes (fun w hw _ => ih w hw (free w hw)) parts)
  | seq id items ih =>
    simp only [WildcardFree, Every, everyAll_iff] at free ih
    cases agreement h with
    | wildLeft => exact Unify.size_pos _
    | seq parts => exact Nat.succ_le_succ (sizes (fun w hw _ => ih w hw (free w hw)) parts)
  | prim p => cases agreement h <;> exact Nat.le_refl _
  | absent => cases agreement h <;> exact Nat.le_refl _
  | pattern p =>
    cases agreement h with
    | wildLeft => exact Nat.le_refl _
    | wildRight => exact absurd rfl free
    | var x => exact Nat.le_refl _

/-! ## Agreement of instances -/

/-- An instance agrees with whatever another one agrees with, if this is so for what the variables
stand for. -/
theorem agrees_subst_mono {σ τ : Valuation}
    (h : ∀ x, ∀ w : Shape, (τ x).agrees w = true → (σ x).agrees w = true) {w : Shape}
    (agree : (t.subst τ).agrees w = true) : (t.subst σ).agrees w = true := by
  have parts_mono {vs : List (Tree ι)} {ws : List Shape}
      (ih : ∀ v ∈ vs, ∀ {w : Shape}, (v.subst τ).agrees w = true → (v.subst σ).agrees w = true)
      (parts : List.Forall₂ (fun v w => v.agrees w = true) (vs.map (subst τ)) ws) :
      List.Forall₂ (fun v w => v.agrees w = true) (vs.map (subst σ)) ws := by
    rw [List.forall₂_map_left_iff] at parts ⊢
    have both := (List.forall₂_and_left vs ws).mpr ⟨ih, parts⟩
    exact both.imp fun v w h => h.1 h.2
  induction t using Tree.ind generalizing w with
  | node id type values ih =>
    simp only [subst, substAll_eq_map] at agree ⊢
    cases agreement agree with
    | wildRight => rfl
    | node parts => exact agrees_node (parts_mono ih parts)
  | seq id items ih =>
    simp only [subst, substAll_eq_map] at agree ⊢
    cases agreement agree with
    | wildRight => rfl
    | seq parts => exact agrees_seq (parts_mono ih parts)
  | prim p => exact agree
  | absent => exact agree
  | pattern p =>
    cases p with
    | var x => exact h x w agree
    | wildcard => rfl

/-- A binding that holds for values without wildcards may be substituted: what agrees for them
agrees as before. -/
theorem agrees_subst_binding {x : String} {b : Tree ι} {τ : Valuation} (free : (τ x).WildcardFree)
    (bound : (τ x).agrees (b.subst τ) = true) (agree : (t.subst τ).agrees (u.subst τ) = true) :
    ((t.subst (binding x b)).subst τ).agrees ((u.subst (binding x b)).subst τ) = true := by
  have weaker (y : String) (w : Shape) (h : (τ y).agrees w = true) :
      ((binding x b y).subst τ).agrees w = true := by
    by_cases hy : y = x
    · subst hy
      rw [binding_self, subst_shape]
      exact agrees_trans free (agrees_symm bound) h
    · rw [binding_of_ne b hy]
      exact h
  rw [subst_subst, subst_subst]
  exact agrees_symm (agrees_subst_mono weaker (agrees_symm (agrees_subst_mono weaker agree)))

end Tree

open Arbor.Tree

namespace Unify

/-! ## Steps -/

variable {τ : Valuation} {l r : Value}

theorem bindStep_agrees (free : ∀ x, (τ x).WildcardFree) {x : String} {t : Value}
    (h : (τ x).agrees (t.subst τ) = true) : ∃ step, bindStep x t = .ok step := by
  unfold bindStep
  split
  · exact ⟨_, rfl⟩
  · rename_i other
    split
    · rename_i circular
      have larger := size_lt_size_subst τ ((occurs_iff x t).mp circular) other
      have smaller := size_le_of_agrees (free x) (agrees_symm h)
      omega
    · exact ⟨_, rfl⟩

/-- An equation that holds up to wildcards for values without wildcards does not fail. -/
theorem matchStep_agrees (free : ∀ x, (τ x).WildcardFree)
    (h : (l.subst τ).agrees (r.subst τ) = true) : ∃ step, matchStep l r = .ok step := by
  have lengths {vs ws : List Value}
      (h : agreesAll (vs.map (Tree.subst τ)) (ws.map (Tree.subst τ)) = true) :
      vs.length = ws.length := by
    simpa using (agreesAll_iff.mp h).1
  cases l with
  | node id type values =>
    cases r with
    | node id' type' values' =>
      simp only [Tree.subst, substAll_eq_map, agrees, Bool.and_eq_true, beq_iff_eq] at h
      exact ⟨_, if_pos ⟨h.1, lengths h.2⟩⟩
    | pattern q =>
      cases q with
      | var y => exact bindStep_agrees free (agrees_symm h)
      | wildcard => exact ⟨_, rfl⟩
    | _ => exact absurd h Bool.false_ne_true
  | seq id items =>
    cases r with
    | seq id' items' =>
      simp only [Tree.subst, substAll_eq_map, agrees] at h
      exact ⟨_, if_pos (lengths h)⟩
    | pattern q =>
      cases q with
      | var y => exact bindStep_agrees free (agrees_symm h)
      | wildcard => exact ⟨_, rfl⟩
    | _ => exact absurd h Bool.false_ne_true
  | prim p =>
    cases r with
    | prim q =>
      simp only [Tree.subst, agrees, beq_iff_eq] at h
      exact ⟨_, (matchStep_prim p q).trans (if_pos h)⟩
    | pattern q =>
      cases q with
      | var y => exact bindStep_agrees free (agrees_symm h)
      | wildcard => exact ⟨_, rfl⟩
    | _ => exact absurd h Bool.false_ne_true
  | absent =>
    cases r with
    | absent => exact ⟨_, rfl⟩
    | pattern q =>
      cases q with
      | var y => exact bindStep_agrees free (agrees_symm h)
      | wildcard => exact ⟨_, rfl⟩
    | _ => exact absurd h Bool.false_ne_true
  | pattern p =>
    cases p with
    | wildcard => exact ⟨_, rfl⟩
    | var x =>
      cases r with
      | pattern q =>
        cases q with
        | var y => exact bindStep_agrees free h
        | wildcard => exact ⟨_, rfl⟩
      | _ => exact bindStep_agrees free h

theorem Asks.agrees_split {eqs : List Equation} (asks : Asks l r (.split eqs))
    (h : (l.subst τ).agrees (r.subst τ) = true) :
    ∀ e ∈ eqs, (e.1.subst τ).agrees (e.2.subst τ) = true := by
  have zip {vs ws : List Value}
      (h : agreesAll (vs.map (Tree.subst τ)) (ws.map (Tree.subst τ)) = true) :
      ∀ e ∈ vs.zip ws, (e.1.subst τ).agrees (e.2.subst τ) = true := by
    rw [agreesAll_iff, List.zip_map, List.forall_mem_map] at h
    exact h.2
  cases asks with
  | wildLeft => exact List.forall_mem_nil _
  | wildRight => exact List.forall_mem_nil _
  | equal => exact List.forall_mem_nil _
  | node => exact zip (by simpa [Tree.subst, Tree.agrees] using h)
  | seq => exact zip (by simpa [Tree.subst, Tree.agrees] using h)

theorem Asks.agrees_bind {x : String} {t : Value} (asks : Asks l r (.bind x t))
    (h : (l.subst τ).agrees (r.subst τ) = true) : (τ x).agrees (t.subst τ) = true := by
  cases asks with
  | bindLeft => exact h
  | bindRight => exact agrees_symm h

/-! ## Runs -/

/-- Equations that hold up to wildcards for values without wildcards are solved, in whatever order
they stand. -/
theorem solve_succeeds (pending : List Equation) (found : Substitution) (next : Ident)
    (free : ∀ x, (τ x).WildcardFree)
    (holds : ∀ e ∈ pending, (e.1.subst τ).agrees (e.2.subst τ) = true) :
    ∃ s, (solve pending found next).result = .ok s := by
  induction pending, found, next using solve.induct with
  | case1 found next => exact ⟨found, congrArg Solution.result (solve_nil found next)⟩
  | case2 found next l r rest e step =>
    obtain ⟨_, step'⟩ := matchStep_agrees free (holds (l, r) (.head _))
    rw [step] at step'
    cases step'
  | case3 found next l r rest eqs step ih =>
    rw [List.forall_mem_cons] at holds
    rw [solve_split step]
    apply ih
    rw [List.forall_mem_append]
    refine ⟨fun e he => ?_, holds.2⟩
    exact (matchStep_asks step).agrees_split holds.1 e (List.mem_reverse.mp he)
  | case4 found next l r rest x t step pending bound ih =>
    rw [List.forall_mem_cons] at holds
    rw [(solve_bind step rest found next).1]
    apply ih
    have value := (matchStep_asks step).agrees_bind holds.1
    have parts := (forall_expandEquations (P := fun l r => (l.subst τ).agrees (r.subst τ) = true)
      (Substitution.single x t) rest next).mpr
    simp only [standing_single, subst_shape] at parts
    exact parts fun e he => agrees_subst_binding (free x) value (holds.2 e he)

/-- Where one side of the equation has a wildcard, the other side has no variables. -/
def Guarded (e : Equation) : Prop :=
  (e.1.WildcardFree ∨ e.2.vars = []) ∧ (e.2.WildcardFree ∨ e.1.vars = [])

theorem Asks.guarded_split {eqs : List Equation} (asks : Asks l r (.split eqs))
    (guarded : Guarded (l, r)) : ∀ e ∈ eqs, Guarded e := by
  have zip {vs ws : List Value}
      (left : (∀ v ∈ vs, v.WildcardFree) ∨ ∀ w ∈ ws, w.vars = [])
      (right : (∀ w ∈ ws, w.WildcardFree) ∨ ∀ v ∈ vs, v.vars = []) :
      ∀ e ∈ vs.zip ws, Guarded e := by
    rintro ⟨v, w⟩ mem
    obtain ⟨hv, hw⟩ := List.of_mem_zip mem
    exact ⟨left.imp (fun h => h v hv) fun h => h w hw, right.imp (fun h => h w hw) fun h => h v hv⟩
  cases asks with
  | wildLeft => exact List.forall_mem_nil _
  | wildRight => exact List.forall_mem_nil _
  | equal => exact List.forall_mem_nil _
  | node =>
    simp only [Guarded, WildcardFree, Every, true_and, everyAll_iff, vars, varsAll_eq_flatMap,
      List.flatMap_eq_nil_iff] at guarded
    exact zip guarded.1 guarded.2
  | seq =>
    simp only [Guarded, WildcardFree, Every, everyAll_iff, vars, varsAll_eq_flatMap,
      List.flatMap_eq_nil_iff] at guarded
    exact zip guarded.1 guarded.2

theorem Asks.guarded_bind {x : String} {t : Value} (asks : Asks l r (.bind x t))
    (guarded : Guarded (l, r)) : t.WildcardFree := by
  cases asks with
  | bindLeft => exact guarded.2.resolve_right (List.cons_ne_nil x [])
  | bindRight => exact guarded.1.resolve_right (List.cons_ne_nil x [])

theorem guarded_restAfter {x : String} {t : Value} {rest : List Equation} (free : t.WildcardFree)
    (guarded : ∀ e ∈ rest, Guarded e) (next : Ident) :
    ∀ e ∈ (restAfter x t rest next).1, Guarded e := by
  have closed {v : Value} (h : v.vars = []) : (v.subst (binding x t)).vars = [] := by
    rw [subst_binding_of_notMem (h ▸ List.not_mem_nil), vars_shape, h]
  have parts := (forall_expandEquations
    (P := fun l r => (l.WildcardFree ∨ r.vars = []) ∧ (r.WildcardFree ∨ l.vars = []))
    (Substitution.single x t) rest next).mpr
  simp only [standing_single, WildcardFree, every_shape, vars_shape] at parts
  refine parts fun e he => ⟨?_, ?_⟩
  · exact (guarded e he).1.imp (fun h => Every.subst_binding h free) closed
  · exact (guarded e he).2.imp (fun h => Every.subst_binding h free) closed

/-- Solving guarded equations binds no wildcard. -/
theorem solve_guarded (pending : List Equation) (found : Substitution) (next : Ident)
    {s : Substitution} (h : (solve pending found next).result = .ok s)
    (guarded : ∀ e ∈ pending, Guarded e)
    (free : ∀ y v, found.get? y = some v → v.WildcardFree) :
    ∀ y v, s.get? y = some v → v.WildcardFree := by
  induction pending, found, next using solve.induct with
  | case1 found next =>
    rw [solve_nil] at h
    cases h
    exact free
  | case2 found next l r rest e step =>
    rw [solve_error step] at h
    cases h
  | case3 found next l r rest eqs step ih =>
    rw [solve_split step] at h
    rw [List.forall_mem_cons] at guarded
    refine ih h ?_ free
    rw [List.forall_mem_append]
    refine ⟨fun e he => ?_, guarded.2⟩
    exact (matchStep_asks step).guarded_split guarded.1 e (List.mem_reverse.mp he)
  | case4 found next l r rest x t step pending bound ih =>
    obtain ⟨result, -⟩ := solve_bind step rest found next
    rw [List.forall_mem_cons] at guarded
    have value := (matchStep_asks step).guarded_bind guarded.1
    exact ih (result ▸ h) (guarded_restAfter value guarded.2 next) (every_bind value free)

/-! ## Orders -/

/-- The values of the substitution have no wildcards and make the two sides of every equation
agree. -/
structure Satisfies (equations : List Equation) (t : Substitution) : Prop where
  free : ∀ x v, t.get? x = some v → v.WildcardFree
  agrees : ∀ l r, (l, r) ∈ equations → ∀ m n,
    (l.expand t.get? m).1.agrees (r.expand t.get? n).1 = true

theorem Satisfies.succeeds {equations : List Equation} {t : Substitution}
    (h : Satisfies equations t) (next : Ident) :
    ∃ s, (solveAll equations next).result = .ok s := by
  apply solve_succeeds (τ := t.valuation)
  · exact fun x => every_standing (nofun : Pattern.var x ≠ .wildcard) (h.free x)
  · rintro ⟨l, r⟩ mem
    have agree := h.agrees l r (List.mem_reverse.mp mem) 0 0
    rwa [← agrees_shape, shape_expand, shape_expand] at agree

theorem satisfies_of_solveAll {equations : List Equation} {next : Ident} {s : Substitution}
    (h : (solveAll equations next).result = .ok s)
    (free : ∀ x v, s.get? x = some v → v.WildcardFree) : Satisfies equations s := by
  refine ⟨free, fun l r mem m n => ?_⟩
  rw [← agrees_shape, shape_expand, shape_expand]
  exact solveAll_agrees h mem

theorem Satisfies.perm {equations equations' : List Equation} {t : Substitution}
    (perm : equations.Perm equations') (h : Satisfies equations t) : Satisfies equations' t :=
  ⟨h.free, fun l r mem => h.agrees l r (perm.mem_iff.mpr mem)⟩

/-- The order of equations does not matter where wildcards are not bound. If the equations hold for
values without wildcards, they are solved in every order. If they are solved in one order, and no
value that is bound has a wildcard, they are solved in every other one. If no equation has a
wildcard on one side and a variable on the other, they are solved in both of two orders or in
neither. -/
theorem unification_reorders {σ : Type} (w w' : World σ) {equations equations' : List Equation}
    (perm : equations.Perm equations') :
    ((∃ t, Satisfies equations t) →
      (∃ s, ((Effect.unifyAll equations).run w).1 = .ok s) ∧
        ∃ s, ((Effect.unifyAll equations').run w').1 = .ok s) ∧
    (∀ s, ((Effect.unifyAll equations).run w).1 = .ok s →
      (∀ x v, s.get? x = some v → v.WildcardFree) →
        ∃ s', ((Effect.unifyAll equations').run w').1 = .ok s') ∧
    ((∀ e ∈ equations, Guarded e) →
      ((∃ s, ((Effect.unifyAll equations).run w).1 = .ok s) ↔
        ∃ s, ((Effect.unifyAll equations').run w').1 = .ok s)) := by
  simp only [result_unifyAll_ok]
  have bound {equations : List Equation} (guarded : ∀ e ∈ equations, Guarded e) {next : Ident}
      {s : Substitution} (h : (solveAll equations next).result = .ok s) :
      Satisfies equations s := by
    refine satisfies_of_solveAll h (solve_guarded _ _ _ h (fun e he => ?_) nofun)
    exact guarded e (List.mem_reverse.mp he)
  refine ⟨fun ⟨t, ht⟩ => ⟨ht.succeeds _, (ht.perm perm).succeeds _⟩,
    fun s hs free => ((satisfies_of_solveAll hs free).perm perm).succeeds _, fun guarded => ?_⟩
  constructor
  · rintro ⟨s, hs⟩
    exact ((bound guarded hs).perm perm).succeeds _
  · rintro ⟨s, hs⟩
    have guarded' : ∀ e ∈ equations', Guarded e := fun e he => guarded e (perm.mem_iff.mpr he)
    exact ((bound guarded' hs).perm perm.symm).succeeds _

/-- The first equation binds a variable of the second one, which has a wildcard beside it. -/
theorem unification_reorders_pair :
    let one : Value := .prim (.int 1)
    let pair : Equation := (.pattern (.var "X"), .seq 0 [one, .pattern (.var "Y")])
    let beside : Equation :=
      (.seq 1 [.pattern (.var "X"), .pattern .wildcard], .seq 2 [.seq 3 [one, .absent], one])
    let t : Substitution := ⟨[("X", .seq 4 [one, .absent]), ("Y", .absent)]⟩
    let w : World Unit := ⟨5, [], ()⟩
    [pair, beside].Perm [beside, pair] ∧ (∀ e ∈ [pair, beside], Guarded e) ∧
      Satisfies [pair, beside] t ∧
      (∃ s, ((Effect.unifyAll [pair, beside]).run w).1 = .ok s) ∧
      ∃ s, ((Effect.unifyAll [beside, pair]).run w).1 = .ok s := by
  intro one pair beside t w
  have perm : [pair, beside].Perm [beside, pair] := .swap _ _ _
  have guarded : ∀ e ∈ [pair, beside], Guarded e := by
    simp [pair, beside, one, Guarded, WildcardFree, Every, vars]
  have satisfied : Satisfies [pair, beside] t := by
    constructor
    · intro x v hv
      simp only [t, Substitution.get?, Substitution.lookup_cons, List.lookup_nil] at hv
      split at hv
      · cases hv
        simp [one, WildcardFree, Every]
      · split at hv
        · cases hv
          trivial
        · cases hv
    · intro l r mem m n
      simp only [pair, beside, List.mem_cons, Prod.mk.injEq, List.not_mem_nil, or_false] at mem
      rcases mem with ⟨rfl, rfl⟩ | ⟨rfl, rfl⟩ <;> rfl
  obtain ⟨solved, -⟩ := (unification_reorders w w perm).1 ⟨t, satisfied⟩
  exact ⟨perm, guarded, satisfied, solved, ((unification_reorders w w perm).2.2 guarded).mp solved⟩

/-! ## An order that fails -/

/-- A variable and a sequence of one item. -/
def sequenceEquation (id : Ident) (item : Value) : Equation := (.pattern (.var "X"), .seq id [item])

/-- In the second order the variable is bound to a sequence with a wildcard, which agrees with both
of the others. -/
theorem exists_failing_order :
    ∃ equations equations' : List Equation, equations.Perm equations' ∧
      (¬ ∃ s, ((Effect.unifyAll equations).run (⟨3, [], ()⟩ : World Unit)).1 = .ok s) ∧
      ∃ s, ((Effect.unifyAll equations').run (⟨3, [], ()⟩ : World Unit)).1 = .ok s := by
  let one := sequenceEquation 0 (.prim (.int 1))
  let two := sequenceEquation 1 (.prim (.int 2))
  let any := sequenceEquation 2 (.pattern .wildcard)
  refine ⟨[any, one, two], [one, two, any], ?_, ?_, ?_⟩
  · exact (List.perm_append_comm : ([any] ++ [one, two]).Perm _)
  · rintro ⟨s, h⟩
    rw [result_unifyAll_ok, solveAll, List.reverse_cons] at h
    have h := (solve_bind (x := "X") rfl _ _ _).1.symm.trans h
    have h := (congrArg Solution.result (solve_split rfl _ _ _)).symm.trans h
    have h := (congrArg Solution.result (solve_error rfl _ _ _)).symm.trans h
    cases h
  · refine ⟨⟨[("X", .seq 2 [.pattern .wildcard])]⟩, result_unifyAll_ok.mpr ?_⟩
    refine (solve_bind (x := "X") rfl _ _ _).1.trans ?_
    refine (congrArg Solution.result (solve_split rfl _ _ _)).trans ?_
    refine (congrArg Solution.result (solve_split rfl _ _ _)).trans ?_
    refine (congrArg Solution.result (solve_split rfl _ _ _)).trans ?_
    refine (congrArg Solution.result (solve_split rfl _ _ _)).trans ?_
    exact congrArg Solution.result (solve_nil _ _)

end Unify

end Arbor
