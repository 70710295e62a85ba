import Arbor.Proofs.Unify.Congruence
import Arbor.Proofs.Unify.Correctness
import Mathlib.Data.List.Zip
import Mathlib.Logic.Equiv.Basic

/-!
# Unification is symmetric

An equation between two variables binds the left one, so exchanging the sides of equations exchanges
the roles of variables from then on. Two runs on equations with exchanged sides therefore keep step
up to a renaming, to which every equation between two variables adds a transposition
(`matchStep_mirrors`, `solve_mirrors`).
-/

namespace Arbor

namespace MatchFailure

def SameKind (e e' : MatchFailure) : Prop :=
  e.ctorIdx = e'.ctorIdx

end MatchFailure

namespace Tree

variable {ι κ : Type}

/-! ## Renaming -/

/-- The shape of a tree with other names for its variables. -/
def rename (ρ : Equiv.Perm String) (t : Tree ι) : Shape :=
  t.subst fun x => .pattern (.var (ρ x))

theorem rename_subst (ρ : Equiv.Perm String) (σ : Valuation) (t : Tree ι) :
    (t.rename ρ).subst σ = t.subst fun x => σ (ρ x) :=
  subst_subst _ _ t

theorem subst_rename (ρ : Equiv.Perm String) (σ : Valuation) (t : Tree ι) :
    (t.subst σ).rename ρ = t.subst fun x => (σ x).rename ρ :=
  subst_subst _ _ t

theorem rename_symm (ρ : Equiv.Perm String) (t : Tree ι) :
    (t.rename ρ).rename ρ.symm = t.shape := by
  rw [rename, rename_subst, ← subst_unbound]
  apply subst_congr
  intro x _
  simp [unbound]

theorem mem_vars_rename {ρ : Equiv.Perm String} {t : Tree ι} {x : String} :
    ρ x ∈ (t.rename ρ).vars ↔ x ∈ t.vars := by
  simp [rename, mem_vars_subst, vars]

/-- How a tree looks after a renaming. -/
inductive Renamed (ρ : Equiv.Perm String) : Tree ι → Tree κ → Prop
  | node {i : ι} {j : κ} {type : NodeType} {vs : List (Tree ι)} {ws : List (Tree κ)} :
      ws.map shape = vs.map (rename ρ) → Renamed ρ (.node i type vs) (.node j type ws)
  | seq {i : ι} {j : κ} {vs : List (Tree ι)} {ws : List (Tree κ)} :
      ws.map shape = vs.map (rename ρ) → Renamed ρ (.seq i vs) (.seq j ws)
  | prim (p : Prim) : Renamed ρ (.prim p) (.prim p)
  | absent : Renamed ρ .absent .absent
  | var (x : String) : Renamed ρ (.pattern (.var x)) (.pattern (.var (ρ x)))
  | wildcard : Renamed ρ (.pattern .wildcard) (.pattern .wildcard)

theorem renamed {ρ : Equiv.Perm String} {t : Tree ι} {u : Tree κ} (h : u.shape = t.rename ρ) :
    Renamed ρ t u := by
  unfold rename at h
  cases t with
  | node i type vs => cases u with
    | node j type' ws =>
      simp only [shape, subst, shapeAll_eq_map, substAll_eq_map, node.injEq, true_and] at h
      obtain ⟨rfl, h⟩ := h
      exact .node h
    | _ => cases h
  | seq i vs => cases u with
    | seq j ws =>
      simp only [shape, subst, shapeAll_eq_map, substAll_eq_map, seq.injEq, true_and] at h
      exact .seq h
    | _ => cases h
  | prim p => cases u with
    | prim q =>
      cases h
      exact .prim p
    | _ => cases h
  | absent => cases u with
    | absent => exact .absent
    | _ => cases h
  | pattern p => cases p with
    | var x => cases u with
      | pattern q =>
        cases h
        exact .var x
      | _ => cases h
    | wildcard => cases u with
      | pattern q =>
        cases h
        exact .wildcard
      | _ => cases h

end Tree

open Arbor.Tree

/-- What a variable stands for under a substitution. -/
def Substitution.image (s : Substitution) (x : String) : Value :=
  (s.get? x).getD (.pattern (.var x))

namespace Unify

/-! ## Steps -/

/-- An equation with exchanged sides and other names. -/
def mirror (ρ : Equiv.Perm String) (e : Equation) : Shape × Shape :=
  (e.2.rename ρ, e.1.rename ρ)

/-- How the step for an equation looks after exchanging its sides and a renaming. -/
inductive Mirrors (ρ : Equiv.Perm String) :
    Except MatchFailure Step → Except MatchFailure Step → Prop
  | fail {e e' : MatchFailure} : e.SameKind e' → Mirrors ρ (.error e) (.error e')
  | split {eqs eqs' : List Equation} : eqs'.map outline = eqs.map (mirror ρ) →
      Mirrors ρ (.ok (.split eqs)) (.ok (.split eqs'))
  | bind {x : String} {t t' : Value} : t'.shape = t.rename ρ →
      Mirrors ρ (.ok (.bind x t)) (.ok (.bind (ρ x) t'))
  | exchange {x y : String} : x ≠ y →
      Mirrors ρ (.ok (.bind x (.pattern (.var y)))) (.ok (.bind (ρ y) (.pattern (.var (ρ x)))))

variable {ρ : Equiv.Perm String}

theorem bindStep_mirrors {t t' : Value} (h : t'.shape = t.rename ρ) (x : String) :
    Mirrors ρ (bindStep x t) (bindStep (ρ x) t') := by
  have occurs : t'.occurs (ρ x) = t.occurs x := by
    rw [Bool.eq_iff_iff, occurs_iff, occurs_iff, ← vars_shape t', h, mem_vars_rename]
  have isVar : t'.var? = some (ρ x) ↔ t.var? = some x := by
    cases renamed h <;> simp [var?]
  simp only [bindStep, occurs, isVar]
  split
  · exact .split rfl
  split
  · exact .fail rfl
  · exact .bind h

theorem mirror_zip {vs ws vs' ws' : List Value} (hv : vs'.map shape = vs.map (rename ρ))
    (hw : ws'.map shape = ws.map (rename ρ)) :
    (ws'.zip vs').map outline = (vs.zip ws).map (mirror ρ) := by
  have outlines : (ws'.zip vs').map outline = (ws'.map shape).zip (vs'.map shape) :=
    (List.zip_map ..).symm
  have mirrors : (ws.zip vs).map (Prod.map (rename ρ) (rename ρ)) = (vs.zip ws).map (mirror ρ) := by
    rw [← List.zip_swap vs ws, List.map_map]
    rfl
  rw [outlines, hv, hw, List.zip_map, mirrors]

theorem matchStep_mirrors {l r l' r' : Value} (hl : l'.shape = r.rename ρ)
    (hr : r'.shape = l.rename ρ) : Mirrors ρ (matchStep l r) (matchStep l' r') := by
  have left := bindStep_mirrors hl
  have right := bindStep_mirrors hr
  have lengths {vs vs' : List Value} (h : vs'.map shape = vs.map (rename ρ)) :
      vs'.length = vs.length := by
    simpa using congrArg List.length h
  cases renamed hr with
  | node hv => cases renamed hl with
    | node hw =>
      simp only [matchStep, lengths hv, lengths hw]
      split
      · rename_i same
        rw [if_pos ⟨same.1.symm, same.2.symm⟩]
        exact .split (mirror_zip hv hw)
      · rename_i differ
        rw [if_neg fun same => differ ⟨same.1.symm, same.2.symm⟩]
        exact .fail rfl
    | var y => exact right y
    | wildcard => exact .split rfl
    | _ => exact .fail rfl
  | seq hv => cases renamed hl with
    | seq hw =>
      simp only [matchStep, lengths hv, lengths hw]
      split
      · rename_i same
        rw [if_pos same.symm]
        exact .split (mirror_zip hv hw)
      · rename_i differ
        rw [if_neg fun same => differ same.symm]
        exact .fail rfl
    | var y => exact right y
    | wildcard => exact .split rfl
    | _ => exact .fail rfl
  | prim p => cases renamed hl with
    | prim q =>
      rw [matchStep_prim, matchStep_prim]
      by_cases same : p = q
      · rw [if_pos same, if_pos same.symm]
        exact .split rfl
      · rw [if_neg same, if_neg (Ne.symm same)]
        exact .fail rfl
    | var y => exact right y
    | wildcard => exact .split rfl
    | _ => exact .fail rfl
  | absent => cases renamed hl with
    | absent => exact .split rfl
    | var y => exact right y
    | wildcard => exact .split rfl
    | _ => exact .fail rfl
  | var x => cases renamed hl with
    | var y =>
      change Mirrors ρ (bindStep x (.pattern (.var y))) (bindStep (ρ y) (.pattern (.var (ρ x))))
      rw [bindStep_var, bindStep_var]
      by_cases same : x = y
      · rw [if_pos same, if_pos (congrArg ρ same.symm)]
        exact .split rfl
      · rw [if_neg same, if_neg fun h => same (ρ.injective h).symm]
        exact .exchange same
    | wildcard => exact .split rfl
    | _ => exact left x
  | wildcard =>
    rw [matchStep_wildcard]
    exact .split rfl

/-! ## Runs -/

theorem rename_binding {x : String} {t t' : Value} (h : t'.shape = t.rename ρ) (y : String) :
    binding (ρ x) t' (ρ y) = (binding x t y).rename ρ := by
  by_cases hy : y = x
  · subst hy
    rw [binding_self, binding_self, h, rename, rename, subst_shape]
  · rw [binding_of_ne t hy, binding_of_ne t' fun e => hy (ρ.injective e)]
    rfl

theorem rename_exchange {x y : String} (hxy : x ≠ y) (z : String) :
    binding (ρ y) (.pattern (.var (ρ x)) : Value) (ρ z) =
      (binding x (.pattern (.var y) : Value) z).rename ((Equiv.swap x y).trans ρ) := by
  by_cases hx : z = x
  · subst hx
    rw [binding_self, binding_of_ne _ fun e => hxy (ρ.injective e)]
    simp [unbound, shape, rename, subst]
  · rw [binding_of_ne _ hx]
    by_cases hy : z = y
    · subst hy
      simp [shape, rename, unbound, subst]
    · rw [binding_of_ne _ fun e => hy (ρ.injective e)]
      simp [rename, unbound, subst, Equiv.swap_apply_of_ne_of_ne hx hy]

/-- Substituting a new binding keeps equations mirrored, if the binding is mirrored. -/
theorem mirror_restAfter {ρ' : Equiv.Perm String} {x x' : String} {t t' : Value}
    (h : ∀ y, binding x' t' (ρ y) = (binding x t y).rename ρ') {rest rest' : List Equation}
    (mirrored : rest'.map outline = rest.map (mirror ρ)) (next next' : Ident) :
    (restAfter x' t' rest' next').1.map outline =
      (restAfter x t rest next).1.map (mirror ρ') := by
  have side (v : Value) :
      (v.rename ρ).subst (binding x' t') = (v.subst (binding x t)).rename ρ' := by
    rw [rename_subst, subst_rename]
    exact subst_congr fun y _ => h y
  have mirrorOutline (eqs : List Equation) (τ : Equiv.Perm String) :
      eqs.map (mirror τ) = (eqs.map outline).map fun e => (e.2.rename τ, e.1.rename τ) := by
    rw [List.map_map]
    refine List.map_congr_left fun e _ => ?_
    simp only [mirror, Function.comp, outline, rename, subst_shape]
  rw [mirrorOutline, map_outline_expandEquations, map_outline_expandEquations, mirrored,
    standing_single, standing_single, List.map_map, List.map_map, List.map_map]
  refine List.map_congr_left fun e _ => ?_
  simp only [Function.comp, mirror, outline, subst_shape, side]

theorem inOrder_mirror {ρ' τ : Equiv.Perm String} {x x' : String} {t t' : Value}
    {later later' : List (String × Value)}
    (h : ∀ y, binding x' t' (ρ y) = (binding x t y).rename ρ')
    (ih : ∀ y, inOrder later' (ρ' y) = (inOrder later y).rename τ) (y : String) :
    inOrder ((x', t') :: later') (ρ y) = (inOrder ((x, t) :: later) y).rename τ := by
  simp only [inOrder]
  rw [h, rename_subst, subst_rename]
  exact subst_congr fun z _ => ih z

theorem cons_of_mirror {l r : Value} {rest pending' : List Equation}
    (h : pending'.map outline = ((l, r) :: rest).map (mirror ρ)) :
    ∃ l' r' rest', pending' = (l', r') :: rest' ∧
      Mirrors ρ (matchStep l r) (matchStep l' r') ∧ rest'.map outline = rest.map (mirror ρ) := by
  cases pending' with
  | nil => cases h
  | cons e rest' =>
    simp only [List.map_cons, List.cons.injEq, outline, mirror, Prod.mk.injEq] at h
    exact ⟨e.1, e.2, rest', rfl, matchStep_mirrors h.1.1 h.1.2, h.2⟩

theorem Mirrors.exists_bind {x : String} {t : Value} {outcome : Except MatchFailure Step}
    (h : Mirrors ρ (.ok (.bind x t)) outcome) :
    ∃ x' t' ρ', outcome = .ok (.bind x' t') ∧
      (∀ y, binding x' t' (ρ y) = (binding x t y).rename ρ') ∧
      ∀ y, y ≠ x → y ∉ t.vars → ρ' y = ρ y := by
  cases h with
  | bind value => exact ⟨_, _, ρ, rfl, rename_binding value, fun _ _ _ => rfl⟩
  | @exchange _ z hxz =>
    refine ⟨_, _, (Equiv.swap x z).trans ρ, rfl, rename_exchange hxz, fun y hx hz => ?_⟩
    have hz : y ≠ z := fun e => hz (by simp [vars, e])
    simp [Equiv.swap_apply_of_ne_of_ne hx hz]

/-- Two runs that both succeed, with bindings that differ by a renaming of variables in `V`, or fail
in the same way. -/
def RunsMirror (V : List String) (ρ : Equiv.Perm String) (a b : Solution) : Prop :=
  (∃ s s', a.result = .ok s ∧ b.result = .ok s' ∧
    ∃ τ : Equiv.Perm String, (∀ x, x ∉ V → τ x = x) ∧
      ∀ y, inOrder b.trace (ρ y) = (inOrder a.trace y).rename τ) ∨
  ∃ e e', a.result = .error e ∧ b.result = .error e' ∧ e.SameKind e'

theorem RunsMirror.bind {V : List String} {ρ' : Equiv.Perm String} {a b a' b' : Solution}
    {x x' : String} {t t' : Value} (h : RunsMirror V ρ' a b)
    (result : a'.result = a.result ∧ a'.trace = (x, t) :: a.trace)
    (result' : b'.result = b.result ∧ b'.trace = (x', t') :: b.trace)
    (bindings : ∀ y, binding x' t' (ρ y) = (binding x t y).rename ρ') : RunsMirror V ρ a' b' := by
  rw [RunsMirror, result.1, result.2, result'.1, result'.2]
  obtain ⟨s, s', ok, ok', τ, fixed, later⟩ | failed := h
  · exact .inl ⟨s, s', ok, ok', τ, fixed, inOrder_mirror bindings later⟩
  · exact .inr failed

theorem solve_mirrors {V : List String} (pending : List Equation) (found : Substitution)
    (next : Ident) {pending' : List Equation} {found' : Substitution} {next' : Ident}
    (mirrored : pending'.map outline = pending.map (mirror ρ)) (within : eqVars pending ⊆ V)
    (fixed : ∀ x, x ∉ V → ρ x = x) :
    RunsMirror V ρ (solve pending found next) (solve pending' found' next') := by
  induction pending, found, next using solve.induct generalizing ρ pending' found' next' with
  | case1 found next =>
    rw [List.map_nil, List.map_eq_nil_iff] at mirrored
    subst mirrored
    rw [solve_nil, solve_nil]
    exact .inl ⟨found, found', rfl, rfl, ρ, fixed, fun y => rfl⟩
  | case2 found next l r rest e step =>
    obtain ⟨l', r', rest', rfl, mirrors, -⟩ := cons_of_mirror mirrored
    rw [step] at mirrors
    generalize step' : matchStep l' r' = outcome at mirrors
    cases mirrors with
    | fail kind =>
      rw [solve_error step, solve_error step']
      exact .inr ⟨_, _, rfl, rfl, kind⟩
  | case3 found next l r rest eqs step ih =>
    obtain ⟨l', r', rest', rfl, mirrors, others⟩ := cons_of_mirror mirrored
    rw [step] at mirrors
    generalize step' : matchStep l' r' = outcome at mirrors
    cases mirrors with
    | split parts =>
      rw [solve_split step, solve_split step']
      refine ih ?_ (fun y hy => within (eqVars_split step hy)) fixed
      rw [List.map_append, List.map_append, List.map_reverse, List.map_reverse, parts, others]
  | case4 found next l r rest x t step pending =>
    rename_i bound ih
    obtain ⟨l', r', rest', rfl, mirrors, others⟩ := cons_of_mirror mirrored
    rw [step] at mirrors
    obtain ⟨x', t', ρ', step', bindings, moved⟩ := mirrors.exists_bind
    obtain ⟨hx, ht⟩ := mem_eqVars_of_bind step rest
    refine RunsMirror.bind (ih (mirror_restAfter bindings others next next') ?_ fun y hy => ?_)
      (solve_bind step rest found next) (solve_bind step' rest' found' next') bindings
    · exact fun y hy => within (eqVars_bind step y hy).1
    · rw [moved y (fun e => hy (within (e ▸ hx))) fun mem => hy (within (ht y mem).1), fixed y hy]

/-! ## Two trees -/

theorem solveAll_mirror (a b : Value) (next next' : Ident) :
    RunsMirror (a.vars ++ b.vars) (Equiv.refl String) (solveAll [(a, b)] next)
      (solveAll [(b, a)] next') := by
  have same (t : Value) : t.rename (Equiv.refl String) = t.shape := subst_unbound t
  have mirrored : [(b, a)].reverse.map outline =
      [(a, b)].reverse.map (mirror (Equiv.refl String)) := by
    simp [mirror, outline, same]
  exact solve_mirrors [(a, b)].reverse {} next mirrored (by simp [eqVars]) fun x _ => rfl

theorem shape_image (s : Substitution) (x : String) : (s.image x).shape = s.valuation x := by
  rw [Substitution.image, Substitution.valuation]
  cases h : s.get? x with
  | none => exact (standing_none h).symm
  | some v => exact (standing_some h).symm

/-- Unification is symmetric: it succeeds on two trees in either order or in neither. The two
solutions differ by a renaming of variables of the trees: each of them, renamed, gives every
variable what the other one gives it. Two failures are of the same kind. -/
theorem unification_symmetric {σ : Type} (w w' : World σ) (a b : Value) :
    ((∃ s, ((Effect.unify a b).run w).1 = .ok s) ↔ ∃ s, ((Effect.unify b a).run w').1 = .ok s) ∧
    (∀ s s', ((Effect.unify a b).run w).1 = .ok s → ((Effect.unify b a).run w').1 = .ok s' →
      ∃ ρ : Equiv.Perm String, (∀ x, x ∉ a.vars → x ∉ b.vars → ρ x = x) ∧
        ∀ x, (s.image x).rename ρ = (s'.image x).shape ∧
          (s'.image x).rename ρ.symm = (s.image x).shape) ∧
    ∀ e e', ((Effect.unify a b).run w).1 = .error e → ((Effect.unify b a).run w').1 = .error e' →
      ∃ f f', e = .mismatch f ∧ e' = .mismatch f' ∧ f.SameKind f' := by
  rw [run_unify, run_unify]
  obtain ⟨s, s', ok, ok', ρ, fixed, bindings⟩ | ⟨f, f', failed, failed', kind⟩ :=
    solveAll_mirror a b w.next w'.next
  · have forth (x : String) : (s.image x).rename ρ = (s'.image x).shape := by
      rw [rename, ← subst_shape, shape_image, shape_image, solveAll_valuation ok,
        solveAll_valuation ok']
      exact (bindings x).symm
    have back (x : String) : (s'.image x).rename ρ.symm = (s.image x).shape := by
      rw [rename, ← subst_shape, ← forth]
      exact rename_symm ρ _
    rw [ok, ok']
    refine ⟨⟨fun _ => ⟨s', rfl⟩, fun _ => ⟨s, rfl⟩⟩, ?_, ?_⟩
    · rintro _ _ ⟨⟩ ⟨⟩
      refine ⟨ρ, fun x ha hb => fixed x ?_, fun x => ⟨forth x, back x⟩⟩
      simp [ha, hb]
    · rintro _ _ ⟨⟩
  · rw [failed, failed']
    refine ⟨⟨?_, ?_⟩, ?_, ?_⟩
    · rintro ⟨_, ⟨⟩⟩
    · rintro ⟨_, ⟨⟩⟩
    · rintro _ _ ⟨⟩
    · rintro _ _ ⟨⟩ ⟨⟩
      exact ⟨f, f', rfl, rfl, kind⟩

/-- Two trees of variables, of which the two orders bind different ones, and a variable and a tree
that contains it. -/
theorem unification_symmetric_variables :
    let x : Value := .pattern (.var "X")
    let y : Value := .pattern (.var "Y")
    let a : Value := .seq 0 [x, x]
    let b : Value := .seq 1 [y, .pattern (.var "Z")]
    let c : Value := .seq 2 [x]
    let s : Substitution := ⟨[("X", y), ("Z", y)]⟩
    let s' : Substitution := ⟨[("Y", x), ("Z", x)]⟩
    let w : World Unit := { next := 3, user := () }
    ((Effect.unify a b).run w).1 = .ok s ∧ ((Effect.unify b a).run w).1 = .ok s' ∧
      (∃ ρ : Equiv.Perm String, ∀ x, (s.image x).rename ρ = (s'.image x).shape) ∧
      ∃ f f', ((Effect.unify x c).run w).1 = .error (.mismatch f) ∧
        ((Effect.unify c x).run w).1 = .error (.mismatch f') ∧ f.SameKind f' := by
  intro x y a b c s s' w
  have forth : ((Effect.unify a b).run w).1 = .ok s := by
    rw [run_unify_ok, solveAll, List.reverse_singleton, solve_split rfl]
    refine (solve_bind (x := "X") rfl _ _ _).1.trans ?_
    refine (solve_bind (x := "Z") rfl _ _ _).1.trans ?_
    exact congrArg Solution.result (solve_nil _ _)
  have back : ((Effect.unify b a).run w).1 = .ok s' := by
    rw [run_unify_ok, solveAll, List.reverse_singleton, solve_split rfl]
    refine (solve_bind (x := "Z") rfl _ _ _).1.trans ?_
    refine (solve_bind (x := "Y") rfl _ _ _).1.trans ?_
    exact congrArg Solution.result (solve_nil _ _)
  have fails : ((Effect.unify x c).run w).1 = .error (.mismatch (.circular "X" c.display)) := by
    rw [run_unify, solveAll, List.reverse_singleton, solve_error rfl]
    rfl
  have fails' : ((Effect.unify c x).run w).1 = .error (.mismatch (.circular "X" c.display)) := by
    rw [run_unify, solveAll, List.reverse_singleton, solve_error rfl]
    rfl
  obtain ⟨ρ, -, images⟩ := (unification_symmetric w w a b).2.1 s s' forth back
  obtain ⟨f, f', e, e', kind⟩ := (unification_symmetric w w x c).2.2 _ _ fails fails'
  exact ⟨forth, back, ⟨ρ, fun x => (images x).1⟩, f, f', fails.trans (congrArg _ e),
    fails'.trans (congrArg _ e'), kind⟩

end Unify

end Arbor
