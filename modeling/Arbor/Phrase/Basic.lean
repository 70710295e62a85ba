import Arbor.Prim

/-!
Phrases: the structure of a written tree before its names are looked up.
-/

namespace Arbor

inductive Phrase where
  | literal (value : Prim)
  | absent
  | tuple (items : List Phrase)
  /-- A name with arguments, each of them positional or given by keyword. -/
  | call (name : String) (args : List (Option String × Phrase))

end Arbor
