import Arbor.Proofs.Runs
import Arbor.Proofs.Tree.Nodes
import Arbor.Proofs.Unify.Solving

/-!
# Unification looks at shapes only

Equal equations, made of whatever objects, have equal solutions, whichever identities are free
(`solve_congr`). The same is said of instantiation: equal substitutions give equal instances of a
template, or the same refusal of a rebuilt node (`apply_congr`).
-/

namespace Arbor

namespace Tree

variable {ι κ : Type}

/-- How two trees of one shape look. -/
inductive Alike : Tree ι → Tree κ → Prop
  | node {i : ι} {j : κ} {type : NodeType} {vs : List (Tree ι)} {ws : List (Tree κ)} :
      vs.map shape = ws.map shape → Alike (.node i type vs) (.node j type ws)
  | seq {i : ι} {j : κ} {vs : List (Tree ι)} {ws : List (Tree κ)} :
      vs.map shape = ws.map shape → Alike (.seq i vs) (.seq j ws)
  | prim (p : Prim) : Alike (.prim p) (.prim p)
  | absent : Alike .absent .absent
  | pattern (p : Pattern) : Alike (.pattern p) (.pattern p)

theorem alike {t : Tree ι} {u : Tree κ} (h : t.shape = u.shape) : Alike t u := by
  cases t <;> cases u <;> simp only [shape, shapeAll_eq_map, reduceCtorEq, node.injEq, seq.injEq,
    prim.injEq, pattern.injEq, true_and] at h
  · obtain ⟨rfl, h⟩ := h
    exact .node h
  · exact .seq h
  · subst h
    exact .prim _
  · exact .absent
  · subst h
    exact .pattern _

theorem vars_shape (t : Tree ι) : t.shape.vars = t.vars := by
  induction t using Tree.ind with
  | node id type values ih =>
    simp only [shape, vars, shapeAll_eq_map, varsAll_eq_flatMap, List.flatMap_def, List.map_map]
    exact congrArg List.flatten (List.map_congr_left ih)
  | seq id items ih =>
    simp only [shape, vars, shapeAll_eq_map, varsAll_eq_flatMap, List.flatMap_def, List.map_map]
    exact congrArg List.flatten (List.map_congr_left ih)
  | prim p => rfl
  | absent => rfl
  | pattern p => cases p <;> rfl

theorem occurs_congr {t : Tree ι} {u : Tree κ} (h : t.shape = u.shape) (x : String) :
    t.occurs x = u.occurs x := by
  rw [Bool.eq_iff_iff, occurs_iff, occurs_iff, ← vars_shape t, h, vars_shape]

theorem var?_congr {t : Tree ι} {u : Tree κ} (h : t.shape = u.shape) : t.var? = u.var? := by
  cases alike h with
  | pattern p => cases p <;> rfl
  | _ => rfl

end Tree

open Arbor.Tree

namespace Unify

/-! ## Steps -/

/-- What an equation comes down to, up to identities. -/
def Step.outline : Step → List (Shape × Shape) ⊕ String × Shape
  | .split eqs => .inl (eqs.map Unify.outline)
  | .bind x t => .inr (x, t.shape)

theorem bindStep_congr {t t' : Value} (h : t.shape = t'.shape) (x : String) :
    (bindStep x t).toOption.map Step.outline = (bindStep x t').toOption.map Step.outline := by
  simp only [bindStep, occurs_congr h, var?_congr h]
  split
  · rfl
  split
  · rfl
  · simp [Except.toOption, Step.outline, h]

theorem outline_zip {vs vs' ws ws' : List Value} (hv : vs.map shape = vs'.map shape)
    (hw : ws.map shape = ws'.map shape) :
    (vs.zip ws).map outline = (vs'.zip ws').map outline := by
  have split (vs ws : List Value) :
      (vs.zip ws).map outline = (vs.map shape).zip (ws.map shape) := by
    rw [List.zip_map]
    rfl
  rw [split, split, hv, hw]

theorem matchStep_congr {l l' r r' : Value} (hl : l.shape = l'.shape) (hr : r.shape = r'.shape) :
    (matchStep l r).toOption.map Step.outline = (matchStep l' r').toOption.map Step.outline := by
  have left := bindStep_congr hl
  have right := bindStep_congr hr
  have lengths {vs vs' : List Value} (h : vs.map shape = vs'.map shape) :
      vs.length = vs'.length := by
    simpa using congrArg List.length h
  cases alike hl with
  | node hv =>
    cases alike hr with
    | node hw =>
      simp only [matchStep, lengths hv, lengths hw]
      split
      · simp [Except.toOption, Step.outline, outline_zip hv hw]
      · rfl
    | pattern p =>
      cases p with
      | var x => exact left x
      | wildcard => rfl
    | _ => rfl
  | seq hv =>
    cases alike hr with
    | seq hw =>
      simp only [matchStep, lengths hv, lengths hw]
      split
      · simp [Except.toOption, Step.outline, outline_zip hv hw]
      · rfl
    | pattern p =>
      cases p with
      | var x => exact left x
      | wildcard => rfl
    | _ => rfl
  | prim p =>
    cases alike hr <;> rfl
  | absent =>
    cases alike hr <;> rfl
  | pattern p =>
    cases p with
    | wildcard => rfl
    | var x =>
      cases alike hr with
      | pattern q => rfl
      | _ => exact right x

theorem matchStep_ok_congr {l l' r r' : Value} (hl : l.shape = l'.shape) (hr : r.shape = r'.shape)
    {step : Step} (h : matchStep l r = .ok step) :
    ∃ step', matchStep l' r' = .ok step' ∧ step.outline = step'.outline := by
  have same := matchStep_congr hl hr
  rw [h] at same
  cases h' : matchStep l' r' with
  | error e =>
    rw [h'] at same
    cases same
  | ok step' =>
    rw [h'] at same
    exact ⟨step', rfl, Option.some.inj same⟩

theorem matchStep_error_congr {l l' r r' : Value} (hl : l.shape = l'.shape)
    (hr : r.shape = r'.shape) {e : MatchFailure} (h : matchStep l r = .error e) :
    ∃ e', matchStep l' r' = .error e' := by
  have same := matchStep_congr hl hr
  rw [h] at same
  cases h' : matchStep l' r' with
  | error e' => exact ⟨e', rfl⟩
  | ok step =>
    rw [h'] at same
    cases same

/-! ## Bindings -/

theorem outline_expandEquations {x : String} {t t' : Value} (ht : t.shape = t'.shape)
    {eqs eqs' : List Equation} (h : eqs.map outline = eqs'.map outline) (next next' : Ident) :
    (expandEquations (Substitution.single x t) eqs next).1.map outline =
      (expandEquations (Substitution.single x t') eqs' next').1.map outline := by
  have binds : binding x t = binding x t' := by
    funext y
    rw [binding, binding, ht]
  rw [map_outline_expandEquations, map_outline_expandEquations, standing_single, standing_single,
    h, binds]

end Unify

namespace Substitution

/-- The bindings up to identities. -/
def outline (s : Substitution) : List (String × Shape) :=
  s.bindings.map fun b => (b.1, b.2.shape)

theorem map_insertBinding {x : String} {t t' : Value} (ht : t.shape = t'.shape)
    {bs bs' : List (String × Value)}
    (h : bs.map (fun b => (b.1, b.2.shape)) = bs'.map fun b => (b.1, b.2.shape)) :
    (insertBinding x t bs).map (fun b => (b.1, b.2.shape)) =
      (insertBinding x t' bs').map fun b => (b.1, b.2.shape) := by
  induction bs generalizing bs' with
  | nil =>
    cases bs' with
    | nil => simp [insertBinding, ht]
    | cons b bs' => cases h
  | cons b bs ih =>
    cases bs' with
    | nil => cases h
    | cons b' bs' =>
      obtain ⟨y, v⟩ := b
      obtain ⟨y', v'⟩ := b'
      simp only [List.map_cons, List.cons.injEq, Prod.mk.injEq] at h
      obtain ⟨⟨rfl, hv⟩, rest⟩ := h
      unfold insertBinding
      split
      · simp [ht, rest]
      split
      · simp [ht, hv, rest]
      · simp [hv, ih rest]

theorem map_expandBindings (find : String → Option Value) (bs : List (String × Value))
    (next : Ident) :
    (expandBindings find bs next).1.map (fun b => (b.1, b.2.shape)) =
      (bs.map fun b => (b.1, b.2.shape)).map fun b => (b.1, b.2.subst (standing find)) := by
  induction bs generalizing next with
  | nil => rfl
  | cons b bs ih => simp only [expandBindings, List.map_cons, ih, shape_expand, subst_shape]

theorem outline_bind {s s' : Substitution} (h : s.outline = s'.outline) {x : String} {t t' : Value}
    (ht : t.shape = t'.shape) (next next' : Ident) :
    (s.bind x t next).1.outline = (s'.bind x t' next').1.outline := by
  have binds : standing (single x t) = standing (single x t') := by
    rw [standing_single, standing_single]
    funext y
    rw [binding, binding, ht]
  refine map_insertBinding ht ?_
  rw [map_expandBindings, map_expandBindings, binds]
  exact congrArg _ h

end Substitution

namespace Unify

theorem cons_of_outline {l r : Value} {rest eqs : List Equation}
    (h : ((l, r) :: rest).map outline = eqs.map outline) :
    ∃ l' r' rest', eqs = (l', r') :: rest' ∧ l.shape = l'.shape ∧ r.shape = r'.shape ∧
      rest.map outline = rest'.map outline := by
  cases eqs with
  | nil => cases h
  | cons e eqs =>
    obtain ⟨l', r'⟩ := e
    simp only [List.map_cons, List.cons.injEq, outline, Prod.mk.injEq] at h
    exact ⟨l', r', eqs, rfl, h.1.1, h.1.2, h.2⟩

/-- Equal equations have equal solutions, and if one list has none, neither has the other. -/
theorem solve_congr (pending : List Equation) (found : Substitution) (next : Ident)
    {pending' : List Equation} {found' : Substitution} {next' : Ident}
    (hp : pending.map outline = pending'.map outline) (hf : found.outline = found'.outline) :
    (solve pending found next).result.toOption.map Substitution.outline =
      (solve pending' found' next').result.toOption.map Substitution.outline := by
  -- The induction follows the run on the left, and the one on the right keeps step with it.
  induction pending, found, next using solve.induct generalizing pending' found' next' with
  | case1 found next =>
    rw [List.map_nil, eq_comm, List.map_eq_nil_iff] at hp
    subst hp
    rw [solve_nil, solve_nil]
    simp [Except.toOption, hf]
  | case2 found next l r rest e step =>
    obtain ⟨l', r', rest', rfl, hl, hr, -⟩ := cons_of_outline hp
    obtain ⟨e', step'⟩ := matchStep_error_congr hl hr step
    rw [solve_error step, solve_error step']
    rfl
  | case3 found next l r rest eqs step ih =>
    obtain ⟨l', r', rest', rfl, hl, hr, hrest⟩ := cons_of_outline hp
    obtain ⟨other, step', same⟩ := matchStep_ok_congr hl hr step
    cases other with
    | bind x t => cases same
    | split eqs' =>
      have parts : eqs.map outline = eqs'.map outline := Sum.inl.inj same
      rw [solve_split step, solve_split step']
      apply ih _ hf
      rw [List.map_append, List.map_append, List.map_reverse, List.map_reverse, parts, hrest]
  | case4 found next l r rest x t step pending =>
    rename_i bound ih
    obtain ⟨l', r', rest', rfl, hl, hr, hrest⟩ := cons_of_outline hp
    obtain ⟨other, step', same⟩ := matchStep_ok_congr hl hr step
    cases other with
    | split eqs => cases same
    | bind x' t' =>
      obtain ⟨rfl, ht⟩ := Prod.mk.inj (Sum.inr.inj same)
      rw [(solve_bind step rest found next).1, (solve_bind step' rest' found' next').1]
      exact ih (outline_expandEquations ht hrest _ _) (Substitution.outline_bind hf ht _ _)

end Unify

/-! ## Instances -/

namespace Tree

mutual

theorem instantiate_congr {find find' : String → Option Value}
    (h : ∀ x, (find x).map shape = (find' x).map shape) (v : Value) (next next' : Ident) :
    (instantiate NodeType.validate find v next).map (fun r => r.1.map shape) =
      (instantiate NodeType.validate find' v next').map fun r => r.1.map shape := by
  match v with
  | .node id type values =>
    rcases cases_of_map_eq (instantiateAll_congr h values next next') with
      ⟨e, left, right⟩ | ⟨⟨changed, m⟩, ⟨changed', m'⟩, left, right, same⟩
    · simp only [instantiate, left, right]
    · simp only [instantiate, left, right, bind, Except.bind]
      rcases option_cases_of_map_eq same with ⟨rfl, rfl⟩ | ⟨vs, ws, rfl, rfl, alike⟩
      · rfl
      · dsimp only
        rw [type.validate_congr alike]
        cases type.validate ws with
        | error e => rfl
        | ok _ => simp [Except.map, pure, Except.pure, shape, alike]
  | .seq id items =>
    rcases cases_of_map_eq (instantiateAll_congr h items next next') with
      ⟨e, left, right⟩ | ⟨⟨changed, m⟩, ⟨changed', m'⟩, left, right, same⟩
    · simp only [instantiate, left, right]
    · simp only [instantiate, left, right, bind, Except.bind]
      rcases option_cases_of_map_eq same with ⟨rfl, rfl⟩ | ⟨vs, ws, rfl, rfl, alike⟩
      · rfl
      · simp [Except.map, pure, Except.pure, shape, alike]
  | .pattern (.var x) =>
    rcases option_cases_of_map_eq (h x) with ⟨left, right⟩ | ⟨u, u', left, right, alike⟩
    · simp only [instantiate, left, right]
      rfl
    · simp only [instantiate, left, right, Except.map, pure, Except.pure, var?_congr alike]
      split
      · rfl
      · simp [alike]
  | .pattern .wildcard | .prim _ | .absent => rfl

theorem instantiateAll_congr {find find' : String → Option Value}
    (h : ∀ x, (find x).map shape = (find' x).map shape) (vs : List Value) (next next' : Ident) :
    (instantiateAll NodeType.validate find vs next).map (fun r => r.1.map (List.map shape)) =
      (instantiateAll NodeType.validate find' vs next').map fun r => r.1.map (List.map shape) := by
  match vs with
  | [] => rfl
  | v :: vs =>
    rcases cases_of_map_eq (instantiate_congr h v next next') with
      ⟨e, left, right⟩ | ⟨⟨first, m⟩, ⟨first', m'⟩, left, right, same⟩
    · simp only [instantiateAll, left, right]
      rfl
    rcases cases_of_map_eq (instantiateAll_congr h vs m m') with
      ⟨e, left', right'⟩ | ⟨⟨others, n⟩, ⟨others', n'⟩, left', right', same'⟩
    · simp only [instantiateAll, left, right, left', right', bind, Except.bind]
    · simp only [instantiateAll, left, right, left', right', bind, Except.bind]
      cases first <;> cases first' <;> cases others <;> cases others' <;>
        simp_all [Except.map, pure, Except.pure]

end

end Tree

namespace Substitution

theorem lookup_outline (bs : List (String × Value)) (x : String) :
    (bs.map fun b => (b.1, b.2.shape)).lookup x = (bs.lookup x).map shape := by
  induction bs with
  | nil => rfl
  | cons b bs ih =>
    obtain ⟨y, v⟩ := b
    simp only [List.map_cons, List.lookup_cons, ih]
    split <;> rfl

theorem get?_congr {s s' : Substitution} (h : s.outline = s'.outline) (x : String) :
    (s.get? x).map shape = (s'.get? x).map shape := by
  rw [get?, get?, ← lookup_outline, ← lookup_outline]
  exact congrArg (List.lookup x) h

theorem apply_congr {s s' : Substitution} (h : s.outline = s'.outline) (template : Value)
    (next next' : Ident) :
    (s.apply template next).map (fun r => r.1.shape) =
      (s'.apply template next').map fun r => r.1.shape := by
  rcases cases_of_map_eq (instantiate_congr (get?_congr h) template next next') with
    ⟨e, left, right⟩ | ⟨⟨changed, m⟩, ⟨changed', m'⟩, left, right, same⟩
  · simp only [apply, left, right]
  · simp only [apply, left, right, Bind.bind, Except.bind]
    cases changed <;> cases changed' <;> simp_all [Except.map, pure, Except.pure]

end Substitution

end Arbor
