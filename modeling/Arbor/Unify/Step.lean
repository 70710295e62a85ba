import Arbor.Error
import Arbor.Tree.Display
import Arbor.Tree.Equality

/-!
One step of unification: what a single equation between two values asks for.
-/

namespace Arbor

/-- Two values to be made equal. -/
abbrev Equation := Value × Value

namespace Unify

/-- What an equation comes down to. -/
inductive Step where
  /-- Other equations, possibly none. -/
  | split (equations : List Equation)
  /-- A variable and the value it has to stand for. -/
  | bind (name : String) (value : Value)

/-- A variable equals itself, stands for a value without it, and for no other value. -/
def bindStep (x : String) (t : Value) : Except MatchFailure Step :=
  if t.var? = some x then .ok (.split [])
  else if t.occurs x then .error (.circular x t.display)
  else .ok (.bind x t)

def matchStep : Value → Value → Except MatchFailure Step
  | .pattern .wildcard, _ => .ok (.split [])
  | _, .pattern .wildcard => .ok (.split [])
  | .pattern (.var x), right => bindStep x right
  | left, .pattern (.var x) => bindStep x left
  | .node _ s vs, .node _ t ws =>
    if s = t ∧ vs.length = ws.length then .ok (.split (vs.zip ws))
    else .error (.nodeMismatch s.name t.name)
  | .node _ s _, other => .error (.nodeVsNonNode s.name other.display)
  | other, .node _ t _ => .error (.nodeVsNonNode t.name other.display)
  | .seq _ vs, .seq _ ws =>
    if vs.length = ws.length then .ok (.split (vs.zip ws))
    else .error (.lengthMismatch vs.length ws.length)
  | .seq _ _, other => .error (.seqVsNonSeq other.display)
  | other, .seq _ _ => .error (.seqVsNonSeq other.display)
  | left, right =>
    if left.same right then .ok (.split []) else .error (.constant left.display right.display)

end Unify

end Arbor
