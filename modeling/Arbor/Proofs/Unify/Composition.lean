import Arbor.Proofs.Unify.Idempotence

/-!
# Solutions are compositions of bindings

The solver keeps a map in which every binding has been pushed through the ones before it. One pass
with that map does what the bindings do when they are substituted one after the other, in the order
in which they were made (`expandInOrder`). So the map holds, for each variable, the value that it was
bound to with all later bindings substituted in it.
-/

namespace Arbor

open Arbor.Tree

namespace Tree

/-- Substitutes single bindings one after the other. -/
def expandInOrder : List (String × Value) → Value → Ident → Value × Ident
  | [], v, next => (v, next)
  | b :: bindings, v, next =>
    let once := v.expand (Substitution.single b.1 b.2) next
    expandInOrder bindings once.1 once.2

end Tree

namespace Unify

/-! ## Bindings in a row -/

theorem shape_expandInOrder (bindings : List (String × Value)) (v : Value) (next : Ident) :
    (expandInOrder bindings v next).1.shape = v.subst (inOrder bindings) := by
  induction bindings generalizing v next with
  | nil => rw [expandInOrder, inOrder, subst_unbound]
  | cons b bindings ih =>
    obtain ⟨x, t⟩ := b
    rw [expandInOrder, ih, ← subst_shape, shape_expand, standing_single, subst_inOrder]

theorem inOrder_cons (x : String) (t : Value) (rest : List (String × Value)) (y : String) :
    inOrder ((x, t) :: rest) y = (binding x t y).subst (inOrder rest) := rfl

theorem inOrder_of_notMem {bindings : List (String × Value)} {x : String}
    (h : x ∉ bindings.map Prod.fst) : inOrder bindings x = unbound x := by
  induction bindings with
  | nil => rfl
  | cons b bindings ih =>
    obtain ⟨y, t⟩ := b
    rw [List.map_cons, List.mem_cons, not_or] at h
    rw [inOrder_cons, binding_of_ne t (x := y) h.1]
    exact ih h.2

theorem inOrder_append (before after : List (String × Value)) (y : String) :
    inOrder (before ++ after) y = (inOrder before y).subst (inOrder after) := by
  induction before generalizing y with
  | nil => rfl
  | cons b before ih =>
    obtain ⟨x, t⟩ := b
    rw [List.cons_append, inOrder_cons, inOrder_cons, subst_subst]
    exact subst_congr fun z _ => ih z

/-- A variable that is bound once stands for its value with the later bindings substituted in it. -/
theorem inOrder_bound {before after : List (String × Value)} {x : String} (t : Value)
    (h : x ∉ before.map Prod.fst) :
    inOrder (before ++ (x, t) :: after) x = t.subst (inOrder after) := by
  rw [inOrder_append, inOrder_of_notMem h]
  change inOrder ((x, t) :: after) x = _
  rw [inOrder_cons, binding_self, subst_shape]

/-! ## Runs -/

theorem get?_solveAll {equations : List Equation} {next : Ident} {s : Substitution}
    (h : (solveAll equations next).result = .ok s) {before after : List (String × Value)}
    {x : String} {t : Value} (made : (solveAll equations next).trace = before ++ (x, t) :: after) :
    ∃ v, s.get? x = some v ∧ v.shape = t.subst (inOrder after) := by
  obtain ⟨resolved, names⟩ := solveAll_resolved h
  have distinct := names.nodup_iff.mpr resolved.distinct
  have mem := names.mem_iff (a := x)
  rw [made, List.map_append, List.map_cons] at distinct mem
  obtain ⟨v, hv⟩ := Option.ne_none_iff_exists'.mp (Substitution.mem_names.mp (mem.mp (by simp)))
  refine ⟨v, hv, ?_⟩
  have once : x ∉ before.map Prod.fst := fun hx =>
    (List.nodup_append.mp distinct).2.2 x hx x (.head _) rfl
  rw [← standing_some hv]
  change s.valuation x = _
  rw [solveAll_valuation h, made, inOrder_bound t once]

/-- The substitution that unification finds is the composition of its bindings. Substituting it in a
tree in one pass, with or without checks, gives what the single bindings give when they are
substituted one after the other, in the order in which they were made and recorded. It binds each of
their variables to the value of the binding with all later bindings substituted in it. -/
theorem unification_composes {σ : Type} (equations : List Equation) (w w' : World σ)
    (s : Substitution) (h : (Effect.unifyAll equations).run w = (.ok s, w')) :
    let made := (solveAll equations w.next).trace
    w'.log = (made.map fun b => Record.bound b.1 b.2).reverse ++ w.log ∧
    (∀ (t : Value) (m n : Ident),
      (t.expand s.get? m).1.same (expandInOrder made t n).1 = true) ∧
    (∀ (t r : Value) (m m' n : Ident), s.apply t m = .ok (r, m') →
      r.same (expandInOrder made t n).1 = true) ∧
    ∀ before x t after, made = before ++ (x, t) :: after →
      ∃ v, s.get? x = some v ∧ ∀ n, v.same (expandInOrder after t n).1 = true := by
  intro made
  obtain ⟨solved, log⟩ := run_unifyAll_ok h
  have composed := solveAll_valuation solved
  simp only [same_iff, shape_expandInOrder]
  refine ⟨log, fun t m n => ?_, fun t r m m' n applied => ?_, fun before x t after split => ?_⟩
  · exact (shape_expand s.get? t m).trans (congrArg t.subst composed)
  · rw [Substitution.shape_apply applied, composed]
  · obtain ⟨v, hv, shape⟩ := get?_solveAll solved split
    exact ⟨v, hv, fun _ => shape⟩

/-- Three bindings, each with the variable of the next one in its value. -/
theorem unification_composes_chain :
    let x : Value := .pattern (.var "X")
    let y : Value := .pattern (.var "Y")
    let z : Value := .pattern (.var "Z")
    let two : Value := .prim (.int 2)
    let first : Value := .seq 2 [y, two]
    let later : List (String × Value) := [("Y", .seq 3 [z]), ("Z", two)]
    let equations : List Equation := [(.seq 0 [z, y, x], .seq 1 [two, .seq 3 [z], first])]
    let s : Substitution :=
      ⟨[("X", .seq 6 [.seq 5 [two], two]), ("Y", .seq 7 [two]), ("Z", two)]⟩
    let w : World Unit := { next := 4, user := () }
    (∃ w', (Effect.unifyAll equations).run w = (.ok s, w')) ∧
      (solveAll equations 4).trace = ("X", first) :: later ∧
      (∀ (t : Value) (m n : Ident),
        (t.expand s.get? m).1.same (expandInOrder (("X", first) :: later) t n).1 = true) ∧
      ∃ v, s.get? "X" = some v ∧ ∀ n, v.same (expandInOrder later first n).1 = true := by
  intro x y z two first later equations s w
  have trace : (solveAll equations 4).trace = ("X", first) :: later := by
    rw [solveAll, List.reverse_singleton, solve_split rfl]
    refine (solve_bind (x := "X") rfl _ _ _).2.trans (congrArg _ ?_)
    refine (solve_bind (x := "Y") rfl _ _ _).2.trans (congrArg _ ?_)
    refine (solve_bind (x := "Z") rfl _ _ _).2.trans (congrArg _ ?_)
    exact congrArg Solution.trace (solve_nil _ _)
  have solved : (solveAll equations 4).result = .ok s := by
    rw [solveAll, List.reverse_singleton, solve_split rfl]
    refine (solve_bind (x := "X") rfl _ _ _).1.trans ?_
    refine (solve_bind (x := "Y") rfl _ _ _).1.trans ?_
    refine (solve_bind (x := "Z") rfl _ _ _).1.trans ?_
    exact congrArg Solution.result (solve_nil _ _)
  obtain ⟨w', h⟩ : ∃ w', (Effect.unifyAll equations).run w = (.ok s, w') :=
    ⟨_, (run_unifyAll w equations).trans
      (Prod.ext (congrArg (Except.mapError Error.mismatch) solved) rfl)⟩
  obtain ⟨-, expand, -, bound⟩ := unification_composes equations w w' s h
  refine ⟨⟨w', h⟩, trace, ?_, bound [] "X" first later trace⟩
  rw [← trace]
  exact expand

end Unify

end Arbor
