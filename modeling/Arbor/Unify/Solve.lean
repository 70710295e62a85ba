import Arbor.Unify.Measure
import Arbor.World

/-!
Unification: solving equations between values.

The last equation is solved first. An equation that splits leaves its parts in its place. A variable
that is bound is replaced at once in all other equations and in the values bound before, so no bound
variable occurs in a bound value. During solving nodes are rebuilt without checks.
-/

namespace Arbor

namespace Unify

def expandEquations (find : String → Option Value) :
    List Equation → Ident → List Equation × Ident
  | [], next => ([], next)
  | (l, r) :: rest, next =>
    let left := l.expand find next
    let right := r.expand find left.2
    let others := expandEquations find rest right.2
    ((left.1, right.1) :: others.1, others.2)

structure Solution where
  result : Except MatchFailure Substitution
  /-- The bindings in the order in which they were made. -/
  trace : List (String × Value)
  /-- The first identity that is still free. -/
  next : Ident

theorem eqVars_expandEquations (x : String) (t : Value) (eqs : List Equation) (next : Ident) :
    ∀ y ∈ eqVars (expandEquations (Substitution.single x t) eqs next).1,
      (y ∈ eqVars eqs ∧ y ≠ x) ∨ y ∈ t.vars := by
  induction eqs generalizing next with
  | nil => simp [expandEquations, eqVars]
  | cons e eqs ih =>
    obtain ⟨l, r⟩ := e
    intro y hy
    simp only [expandEquations, eqVars, List.flatMap_cons, List.mem_append] at hy
    simp only [eqVars, List.flatMap_cons, List.mem_append]
    rcases hy with (hy | hy) | hy
    · have := vars_expand x t l _ y hy
      grind
    · have := vars_expand x t r _ y hy
      grind
    · have := ih _ y hy
      simp only [eqVars] at this
      grind

/-- Solves equations, the first of the list first, after some variables have been bound. -/
def solve (pending : List Equation) (found : Substitution) (next : Ident) : Solution :=
  match pending with
  | [] => ⟨.ok found, [], next⟩
  | (l, r) :: rest =>
    match _step : matchStep l r with
    | .error e => ⟨.error e, [], next⟩
    | .ok (.split eqs) => solve (eqs.reverse ++ rest) found next
    | .ok (.bind x t) =>
      let pending := expandEquations (Substitution.single x t) rest next
      let bound := found.bind x t pending.2
      let solution := solve pending.1 bound.1 bound.2
      { solution with trace := (x, t) :: solution.trace }
termination_by (distinctCount (eqVars pending), eqSize pending)
decreasing_by
  · obtain ⟨hv, hs⟩ := matchStep_split _step
    apply Prod.Lex.right'
    · apply distinctCount_mono
      intro y hy
      simp only [eqVars, List.flatMap_append, List.mem_append, List.flatMap_cons] at hy ⊢
      rcases hy with hy | hy
      · have hy : y ∈ eqVars eqs := by simpa [eqVars] using hy
        have := hv hy
        simp only [List.mem_append] at this
        exact Or.inl this
      · exact Or.inr hy
    · rw [eqSize_append, eqSize_reverse]
      simp only [eqSize]
      omega
  · obtain ⟨hx, ht, hv⟩ := matchStep_bind _step
    apply Prod.Lex.left
    refine distinctCount_lt (x := x) ?_ ?_ ?_
    · intro y hy
      simp only [eqVars, List.flatMap_cons, List.mem_append]
      rcases eqVars_expandEquations x t rest next y hy with ⟨hy, -⟩ | hy
      · exact Or.inr hy
      · have := hv hy
        simp only [List.mem_append] at this
        exact Or.inl this
    · simp only [eqVars, List.flatMap_cons, List.mem_append] at hx ⊢
      exact Or.inl hx
    · intro hy
      rcases eqVars_expandEquations x t rest next x hy with ⟨-, hne⟩ | hy
      · exact hne rfl
      · exact ht hy

/-- Solves a list of equations from its end. -/
def solveAll (equations : List Equation) (next : Ident) : Solution :=
  solve equations.reverse {} next

end Unify

namespace Effect

variable {σ : Type}

/-- Solves equations and records the bindings, also those made before a failure. -/
def solveEquations (equations : List Equation) : Effect σ (Except MatchFailure Substitution) := do
  let w ← get
  let solution := Unify.solveAll equations w.next
  let records := solution.trace.map fun (name, value) => Record.bound name value
  set { w with next := solution.next, log := records.reverse ++ w.log }
  return solution.result

/-- The substitution that makes all equations hold. -/
def unifyAll (equations : List Equation) : Effect σ Substitution := do
  ofExcept .mismatch (← solveEquations equations)

def unify (left right : Value) : Effect σ Substitution :=
  unifyAll [(left, right)]

/-- The substitution that makes two values equal, if there is one. -/
def unify? (left right : Value) : Effect σ (Option Substitution) := do
  return (← solveEquations [(left, right)]).toOption

def instantiate (s : Substitution) (template : Value) : Effect σ Value :=
  drawing .construction (s.apply template)

end Effect

end Arbor
