import Arbor.Layout
import Arbor.Tree.Display

/-!
The dump of a tree: one field or item per line, aligned under the first one after the opening
parenthesis. It has the tokens of the one-line text.
-/

namespace Arbor.Tree

open Layout

variable {ι : Type}

def punct (chars : List Char) : Doc :=
  .text .punctuation chars

/-- Parts in parentheses, on lines of their own. -/
def enclosed (depth : Nat) (parts : List Doc) (after : Doc) : Doc :=
  .append (.text (.paren depth) ['('])
    (.append (.align (Doc.separated (.append (punct [',']) .line) parts))
      (.append after (.text (.paren depth) [')'])))

def fieldDoc (name : List Char) (value : Doc) : Doc :=
  .append (.text .fieldName name) (.append (punct [' ', '=', ' ']) value)

def patternDoc (depth : Nat) : Pattern → Doc
  | .var x =>
    .append (.text .patternTerm "PatVar".toList)
      (enclosed depth [fieldDoc ['i', 'd'] (.text .literal (Text.quoted x))] .empty)
  | .wildcard => .append (.text .patternTerm "Wildcard".toList) (enclosed depth [] .empty)

mutual

def doc (depth : Nat) : Tree ι → Doc
  | .node _ type values =>
    .append (.text .typeName type.name.toList)
      (enclosed depth (fieldDocs (depth + 1) type.fields values) .empty)
  | .seq _ [item] => enclosed depth [doc (depth + 1) item] (punct [','])
  | .seq _ items => enclosed depth (itemDocs (depth + 1) items) .empty
  | .prim p => .text .literal p.chars
  | .absent => .text .keyword ['N', 'o', 'n', 'e']
  | .pattern p => patternDoc depth p

def fieldDocs (depth : Nat) : List Field → List (Tree ι) → List Doc
  | f :: fs, v :: vs => fieldDoc f.name.toList (doc depth v) :: fieldDocs depth fs vs
  | _, _ => []

def itemDocs (depth : Nat) : List (Tree ι) → List Doc
  | [] => []
  | v :: vs => doc depth v :: itemDocs depth vs

end

def dumpChars (t : Tree ι) : List Char :=
  plain (t.doc 0).pieces

def dump (t : Tree ι) : String :=
  String.ofList t.dumpChars

def colored (t : Tree ι) : String :=
  String.ofList (styled (t.doc 0).pieces)

end Arbor.Tree
