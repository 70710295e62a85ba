import Mathlib
import Arbor.Proofs.Language.Subtyping
import Arbor.Proofs.Tree.Equality
import Arbor.Proofs.Tree.Nodes
import Arbor.Proofs.Unify.Solving

/-!
# Telling types apart

Shapes are compared, and equations taken apart, by looking at types as a whole and at the numbers of
values. That is more than a comparison needs to look at: the types of languages with numbers of
their own are told apart by language and index (`apart_of_generated`), and a full node has as many
values as its type has fields. Over such types, comparing shapes is comparing values
(`same_eq_equivalent`), and solving is solving with steps that look at language and index only
(`outcome_iff`).
-/

namespace Arbor

variable {ι κ : Type}

/-- Language and index tell the types apart. -/
def NodeType.Apart (types : NodeType → Prop) : Prop :=
  ∀ s t, types s → types t → s.same t = true → s = t

theorem NodeType.Apart.same_eq {types : NodeType → Prop} (apart : NodeType.Apart types)
    {s t : NodeType} (hs : types s) (ht : types t) : s.same t = decide (s = t) := by
  rw [Bool.eq_iff_iff, decide_eq_true_iff]
  exact ⟨apart s t hs ht, fun same => NodeType.same_iff.mpr (congrArg NodeType.essence same)⟩

/-- The types of languages that bear numbers of their own are told apart by language and index. -/
theorem NodeType.apart_of_generated {languages : Nat → Option Language}
    (generated : ∀ id l, languages id = some l →
      ∃ g options, Language.ofGrammar id g options = .ok l) :
    NodeType.Apart fun type => ∃ id l, languages id = some l ∧ type ∈ l.types := by
  rintro s t ⟨id, l, numbered, hs⟩ ⟨id', l', numbered', ht⟩ same
  rw [NodeType.same, Bool.and_eq_true, beq_iff_eq, beq_iff_eq] at same
  obtain ⟨g, options, made⟩ := generated id l numbered
  obtain ⟨g', options', made'⟩ := generated id' l' numbered'
  obtain ⟨order, -, -, -, -, built⟩ := Language.built_ofGrammar made
  have indexed (i type place) := (built i type place).index
  have number : id = id' := by
    rw [← Language.language_ofGrammar made s hs, ← Language.language_ofGrammar made' t ht, same.1]
  subst number
  cases numbered.symm.trans numbered'
  have place := Language.getElem?_index indexed hs
  rw [same.2, Language.getElem?_index indexed ht] at place
  exact (Option.some.inj place).symm

namespace Tree

/-- All nodes are full and of the types. -/
def Over (types : NodeType → Prop) (t : Tree ι) : Prop :=
  t.Every (fun type n => types type ∧ n = type.fields.length) fun _ => True

variable {types : NodeType → Prop}

theorem over_node {id : ι} {type : NodeType} {values : List (Tree ι)} :
    (Tree.node id type values).Over types ↔
      (types type ∧ values.length = type.fields.length) ∧ ∀ v ∈ values, v.Over types := by
  rw [Over, Every, everyAll_iff]
  rfl

theorem over_seq {id : ι} {items : List (Tree ι)} :
    (Tree.seq id items).Over types ↔ ∀ v ∈ items, v.Over types := by
  rw [Over, Every, everyAll_iff]
  rfl

theorem sameAll_eq_equivalentAll {ts : List (Tree ι)} {us : List (Tree κ)}
    (h : ∀ t ∈ ts, ∀ u ∈ us, t.same u = t.equivalent u) :
    sameAll ts us = equivalentAll ts us := by
  induction ts generalizing us with
  | nil => cases us <;> rfl
  | cons t ts ih =>
    cases us with
    | nil => rfl
    | cons u us =>
      have tail := ih fun t ht u hu => h t (.tail _ ht) u (.tail _ hu)
      rw [sameAll, equivalentAll, h t (.head _) u (.head _), tail]

theorem same_eq_equivalent (apart : NodeType.Apart types) {t : Tree ι} {u : Tree κ}
    (ht : t.Over types) (hu : u.Over types) : t.same u = t.equivalent u := by
  induction t using Tree.ind generalizing u with
  | node id type values ih =>
    cases u with
    | node id' type' values' =>
      rw [over_node] at ht hu
      have parts := sameAll_eq_equivalentAll fun v hv w hw => ih v hv (ht.2 v hv) (hu.2 w hw)
      rw [same, equivalent, parts, apart.same_eq ht.1.1 hu.1.1, Bool.beq_eq_decide_eq]
    | _ => rfl
  | seq id items ih =>
    cases u with
    | seq id' items' =>
      rw [over_seq] at ht hu
      exact sameAll_eq_equivalentAll fun v hv w hw => ih v hv (ht v hv) (hu w hw)
    | _ => rfl
  | prim p =>
    cases u with
    | prim q => rw [same, equivalent, Bool.eq_iff_iff, beq_iff_eq, Prim.same_iff]
    | _ => rfl
  | absent => cases u <;> rfl
  | pattern p => cases u <;> rfl

end Tree

namespace Unify

open Arbor.Tree

/-! ## Steps that look at language and index -/

/-- What an equation comes down to if nodes are compared by the language and index of their types
only, and constants as values. -/
def keyStep : Value → Value → Except MatchFailure Step
  | .node _ s vs, .node _ t ws =>
    if s.same t then .ok (.split (vs.zip ws)) else .error (.nodeMismatch s.name t.name)
  | .prim p, .prim q =>
    if (Tree.prim p).equal (.prim q) then .ok (.split [])
    else .error (.constant (Tree.prim p : Value).display (Tree.prim q : Value).display)
  | left, right => matchStep left right

variable {types : NodeType → Prop}

theorem matchStep_eq_keyStep (apart : NodeType.Apart types) {l r : Value} (hl : l.Over types)
    (hr : r.Over types) : matchStep l r = keyStep l r := by
  unfold keyStep
  split
  · rename_i i s vs j t ws
    rw [over_node] at hl hr
    have types : s.same t = true ↔ s = t ∧ vs.length = ws.length := by
      rw [apart.same_eq hl.1.1 hr.1.1, decide_eq_true_iff, hl.1.2, hr.1.2]
      exact ⟨fun same => ⟨same, by rw [same]⟩, And.left⟩
    rw [matchStep, if_congr types rfl rfl]
  · rename_i p q
    rw [matchStep_prim, if_congr Prim.same_iff.symm rfl rfl]
    rfl
  · rfl

/-- What solving equations with given steps comes to. -/
inductive Outcome (step : Value → Value → Except MatchFailure Step) :
    List Equation → Substitution → Ident → Solution → Prop
  | nil {found : Substitution} {next : Ident} : Outcome step [] found next ⟨.ok found, [], next⟩
  | fail {l r : Value} {e : MatchFailure} {rest : List Equation} {found : Substitution}
      {next : Ident} : step l r = .error e →
        Outcome step ((l, r) :: rest) found next ⟨.error e, [], next⟩
  | split {l r : Value} {eqs rest : List Equation} {found : Substitution} {next : Ident}
      {solution : Solution} : step l r = .ok (.split eqs) →
        Outcome step (eqs.reverse ++ rest) found next solution →
          Outcome step ((l, r) :: rest) found next solution
  | bind {l r t : Value} {x : String} {rest : List Equation} {found : Substitution} {next : Ident}
      {solution : Solution} : step l r = .ok (.bind x t) →
        Outcome step (restAfter x t rest next).1 (found.bind x t (restAfter x t rest next).2).1
            (found.bind x t (restAfter x t rest next).2).2 solution →
          Outcome step ((l, r) :: rest) found next
            { solution with trace := (x, t) :: solution.trace }

theorem Outcome.unique {step : Value → Value → Except MatchFailure Step} {pending : List Equation}
    {found : Substitution} {next : Ident} {s s' : Solution} (h : Outcome step pending found next s)
    (h' : Outcome step pending found next s') : s = s' := by
  induction h generalizing s' with
  | nil =>
    cases h'
    rfl
  | fail failed =>
    cases h' with
    | fail failed' =>
      cases failed.symm.trans failed'
      rfl
    | split split _ => cases failed.symm.trans split
    | bind bound _ => cases failed.symm.trans bound
  | split split _ ih =>
    cases h' with
    | fail failed => cases split.symm.trans failed
    | split split' rest =>
      cases split.symm.trans split'
      exact ih rest
    | bind bound _ => cases split.symm.trans bound
  | bind bound _ ih =>
    cases h' with
    | fail failed => cases bound.symm.trans failed
    | split split _ => cases bound.symm.trans split
    | bind bound' rest =>
      cases bound.symm.trans bound'
      rw [ih rest]

theorem outcome_solve (apart : NodeType.Apart types) (pending : List Equation)
    (found : Substitution) (next : Ident)
    (made : ∀ e ∈ pending, e.1.Over types ∧ e.2.Over types) :
    Outcome keyStep pending found next (solve pending found next) := by
  induction pending, found, next using solve.induct with
  | case1 found next =>
    rw [solve_nil]
    exact .nil
  | case2 found next l r rest e step =>
    rw [List.forall_mem_cons] at made
    rw [solve_error step]
    exact .fail ((matchStep_eq_keyStep apart made.1.1 made.1.2).symm.trans step)
  | case3 found next l r rest eqs step ih =>
    rw [List.forall_mem_cons] at made
    rw [solve_split step]
    refine .split ((matchStep_eq_keyStep apart made.1.1 made.1.2).symm.trans step) (ih ?_)
    rw [List.forall_mem_append]
    refine ⟨fun e he => ?_, made.2⟩
    exact (matchStep_asks step).every_split made.1.1 made.1.2 e (List.mem_reverse.mp he)
  | case4 found next l r rest x t step pending bound ih =>
    rw [List.forall_mem_cons] at made
    have ht : t.Over types := (matchStep_asks step).every_bind made.1.1 made.1.2
    rw [solve_bind_eq step]
    refine .bind ((matchStep_eq_keyStep apart made.1.1 made.1.2).symm.trans step) (ih ?_)
    exact every_restAfter ht made.2 next

/-- Over types that are told apart by language and index, solving is solving with steps that look at
nothing else. -/
theorem outcome_iff (apart : NodeType.Apart types) {pending : List Equation}
    (made : ∀ e ∈ pending, e.1.Over types ∧ e.2.Over types) (found : Substitution) (next : Ident)
    (solution : Solution) :
    Outcome keyStep pending found next solution ↔ solution = solve pending found next := by
  have solved := outcome_solve apart pending found next made
  exact ⟨fun h => h.unique solved, fun same => same ▸ solved⟩

end Unify

end Arbor
