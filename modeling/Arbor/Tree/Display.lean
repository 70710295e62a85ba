import Arbor.Tree.Basic

/-!
The one-line text of trees, as it is read back, and the short description that messages use.
-/

namespace Arbor

def Pattern.chars : Pattern → List Char
  | .var x => "PatVar(id = ".toList ++ Text.quoted x ++ [')']
  | .wildcard => "Wildcard()".toList

namespace Tree

variable {ι : Type}

def separated (texts : List (List Char)) : List Char :=
  List.intercalate [',', ' '] texts

mutual

/-- A node is its type name with its fields in parentheses; a sequence is its items in parentheses,
with a final comma if there is only one. -/
def chars : Tree ι → List Char
  | .node _ type values =>
    type.name.toList ++ '(' :: (separated (fieldTexts type.fields values) ++ [')'])
  | .seq _ [item] => '(' :: (chars item ++ [',', ')'])
  | .seq _ items => '(' :: (separated (itemTexts items) ++ [')'])
  | .prim p => p.chars
  | .absent => ['N', 'o', 'n', 'e']
  | .pattern p => p.chars

def fieldTexts : List Field → List (Tree ι) → List (List Char)
  | f :: fs, v :: vs => (f.name.toList ++ [' ', '=', ' '] ++ chars v) :: fieldTexts fs vs
  | _, _ => []

def itemTexts : List (Tree ι) → List (List Char)
  | [] => []
  | v :: vs => chars v :: itemTexts vs

end

def display (t : Tree ι) : String :=
  String.ofList t.chars

def describe : Tree ι → String
  | .node _ type _ => type.name
  | .seq _ items => "sequence of " ++ toString items.length
  | .prim p => p.kind.name ++ " " ++ String.ofList p.chars
  | .absent => "None"
  | .pattern p => String.ofList p.chars

end Tree

end Arbor
