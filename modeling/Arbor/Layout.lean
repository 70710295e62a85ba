import Arbor.Text.Width

/-!
Documents with styled text and aligned lines, and how they are laid out.

A document is text, line breaks and alignment: inside an aligned document every line starts in the
column where the document itself starts. A layout is a list of pieces, which is written plainly
or with terminal styles.
-/

namespace Arbor.Layout

/-- What a piece of text is, which decides how it looks. -/
inductive Style where
  | punctuation
  /-- Matching parentheses share the depth they stand at. -/
  | paren (depth : Nat)
  | typeName
  | fieldName
  | literal
  | keyword
  | patternTerm
deriving DecidableEq

inductive Doc where
  | empty
  | text (style : Style) (chars : List Char)
  | append (first second : Doc)
  | line
  | align (inner : Doc)

/-- The documents one after the other, with `separator` between them. -/
def Doc.separated (separator : Doc) : List Doc → Doc
  | [] => .empty
  | [d] => d
  | d :: rest => .append d (.append separator (Doc.separated separator rest))

inductive Piece where
  | text (style : Style) (chars : List Char)
  /-- A line break and the number of spaces after it. -/
  | newline (indent : Nat)
deriving DecidableEq

/-- The pieces of a document that starts in a column, and the column where it ends. New lines start
in column `indent`. -/
def Doc.layout : Doc → (indent column : Nat) → List Piece × Nat
  | .empty, _, column => ([], column)
  | .text style chars, _, column => ([.text style chars], column + Text.width chars)
  | .append first second, indent, column =>
    let (left, middle) := first.layout indent column
    let (right, finish) := second.layout indent middle
    (left ++ right, finish)
  | .line, indent, _ => ([.newline indent], indent)
  | .align inner, _, column => inner.layout column column

def Doc.pieces (d : Doc) : List Piece :=
  (d.layout 0 0).1

/-! ## Plain text -/

def newlineChars (indent : Nat) : List Char :=
  '\n' :: List.replicate indent ' '

def Piece.plain : Piece → List Char
  | .text _ chars => chars
  | .newline indent => newlineChars indent

def plain (pieces : List Piece) : List Char :=
  pieces.flatMap Piece.plain

/-! ## Terminal styles -/

inductive Color where
  | red
  | green
  | yellow
  | blue
  | magenta
  | cyan
  | white
deriving DecidableEq

def Color.digit : Color → Char
  | .red => '1'
  | .green => '2'
  | .yellow => '3'
  | .blue => '4'
  | .magenta => '5'
  | .cyan => '6'
  | .white => '7'

structure Look where
  color : Option Color := none
  bold : Bool := false
  dimmed : Bool := false
deriving DecidableEq

def parenColor (depth : Nat) : Color :=
  match depth % 6 with
  | 0 => .blue
  | 1 => .green
  | 2 => .white
  | 3 => .yellow
  | 4 => .red
  | _ => .magenta

def Style.look : Style → Look
  | .punctuation => { dimmed := true }
  | .paren depth => { color := some (parenColor depth), dimmed := true }
  | .typeName => { color := some .magenta }
  | .fieldName => { color := some .cyan }
  | .literal => { color := some .green }
  | .keyword => { color := some .cyan, bold := true }
  | .patternTerm => { color := some .yellow, bold := true }

def escapeChar : Char := '\x1b'

def control (parameter : List Char) : List Char :=
  escapeChar :: '[' :: (parameter ++ ['m'])

def Look.start (look : Look) : List Char :=
  control ['0']
    ++ (if look.bold then control ['1'] else [])
    ++ (if look.dimmed then control ['2'] else [])
    ++ (match look.color with
        | some color => control ['3', color.digit]
        | none => [])

/-- Text between control sequences; line breaks have no style. -/
def Piece.styled : Piece → List Char
  | .text style chars => style.look.start ++ chars ++ control ['0']
  | .newline indent => newlineChars indent

def styled (pieces : List Piece) : List Char :=
  pieces.flatMap Piece.styled

end Arbor.Layout
