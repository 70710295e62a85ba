import Arbor.Unify.Solve

/-!
Rules: a pattern, and what to do with the values that it matches.
-/

namespace Arbor

/-- What a rule decides for a value that it matches. -/
inductive Outcome where
  | replace (value : Value)
  /-- Leaves the value to the next rule. -/
  | defer
  /-- Keeps the value and ends the search for a rule. -/
  | keep

structure Rule (σ : Type) where
  name : Option String := none
  pattern : Value
  action : Substitution → Effect σ Outcome

namespace Rule

variable {σ : Type}

/-- Replaces every match by an instance of a template. -/
def ofTemplate (name : Option String) (pattern template : Value) : Rule σ where
  name := name
  pattern := pattern
  action s := do return .replace (← Effect.instantiate s template)

def text (r : Rule σ) : String :=
  r.name.getD r.pattern.display

def summary (r : Rule σ) : String :=
  let name :=
    match r.name with
    | some name => "Some(" ++ String.ofList (Text.quoted name) ++ ")"
    | none => "None"
  "Rule \x7b name: " ++ name ++ ", pattern: " ++ r.pattern.display ++ ", .. \x7d"

def apply (r : Rule σ) (value : Value) : Effect σ (Option Outcome) := do
  match ← Effect.unify? r.pattern value with
  | some s => return some (← r.action s)
  | none => return none

/-- The replacement that the first deciding rule gives for a node. -/
def firstReplacement (node : Node Ident) : List (Rule σ) → Effect σ (Option Value)
  | [] => return none
  | r :: rest => do
    match ← r.apply node.toTree with
    | none => firstReplacement node rest
    | some .defer =>
      Effect.emit (.deferred r.text node.type.name)
      firstReplacement node rest
    | some .keep => return none
    | some (.replace value) =>
      Effect.emit (.replaced r.text node.type.name)
      return some value

end Rule

end Arbor
