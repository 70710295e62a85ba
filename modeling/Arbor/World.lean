import Arbor.Error
import Arbor.Language.Generate
import Arbor.Tree.Display

/-!
What operations with effects thread through: a supply of identities, the records made so far, and a
state of the caller's own. An operation that fails keeps the effects it had before.
-/

namespace Arbor

/-! ## Records -/

inductive Level where
  | trace
  | debug
deriving DecidableEq

def Level.name : Level → String
  | .trace => "TRACE"
  | .debug => "DEBUG"

inductive Record where
  | typeGenerated (index : Nat) (entry : TypeSpec)
  | languageGenerated (size : Nat) (checked : Bool)
  | bound (name : String) (value : Value)
  /-- A rule matched a node of a type and left it to the next rule. -/
  | deferred (rule type : String)
  | replaced (rule type : String)
  | passed (number visited changed replacements : Nat)

namespace Record

def level : Record → Level
  | .typeGenerated .. | .bound .. | .deferred .. => .trace
  | .languageGenerated .. | .replaced .. | .passed .. => .debug

def text : Record → String
  | .typeGenerated index entry => "type #" ++ toString index ++ " " ++ entry.text
  | .languageGenerated size checked =>
    let how := if checked then "type" else "not"
    s!"generated language _: {size} node types, {how} checked"
  | .bound name value => "bind " ++ name ++ " := " ++ value.display
  | .deferred rule type => s!"rule {rule} deferred on {type}"
  | .replaced rule type => s!"rule {rule} rewrote {type}"
  | .passed number visited changed replacements =>
    s!"rewrite pass {number}: {visited} values visited, {changed} changed, "
      ++ s!"{replacements} replacements"

def line (r : Record) : String :=
  r.level.name ++ " " ++ r.text

end Record

/-! ## Effects -/

structure World (σ : Type) where
  /-- No object has this identity or a greater one. -/
  next : Ident := 0
  /-- The records, the newest first. -/
  log : List Record := []
  user : σ

abbrev Effect (σ : Type) := ExceptT Error (StateM (World σ))

namespace Effect

variable {σ : Type}

/-- An identity that no object has. -/
def fresh : Effect σ Ident := do
  let w ← get
  set { w with next := w.next + 1 }
  return w.next

def emit (r : Record) : Effect σ Unit :=
  modify fun w => { w with log := r :: w.log }

def ofExcept {ε α : Type} (wrap : ε → Error) (result : Except ε α) : Effect σ α :=
  match result with
  | .ok a => return a
  | .error e => throw (wrap e)

/-- A computation that only draws identities. -/
def drawing {ε α : Type} (wrap : ε → Error) (build : Ident → Except ε (α × Ident)) :
    Effect σ α := do
  let w ← get
  match build w.next with
  | .ok (a, next) =>
    set { w with next := next }
    return a
  | .error e => throw (wrap e)

/-- Generates a language, with a number from the supply, and records its types. -/
def generate (g : Grammar) (options : Options) : Effect σ Language := do
  let id ← fresh
  let language ← ofExcept .grammar (Language.ofGrammar id g options)
  let order ← ofExcept .grammar (Grammar.order g.entries)
  for (entry, i) in order.zipIdx do
    emit (.typeGenerated (i + 1) entry)
  emit (.languageGenerated language.size options.checked)
  return language

end Effect

end Arbor
