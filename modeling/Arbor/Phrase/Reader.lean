import Arbor.Phrase.Basic
import Arbor.Text.Blank

/-!
Reading phrases.

A value is `-inf`, a number, a string, a byte string, one of the words `None`, `true`, `false`, `inf`
and `NaN`, a name with arguments in parentheses, or values in parentheses. Blanks are free between
tokens. A value in parentheses with no comma after it is just that value.

Every reader takes the text from where it starts and returns what it read together with the rest, or
nothing. A reader that gives up leaves the text to the next alternative; an alternative that succeeds
is final.
-/

namespace Arbor.Phrase

open Text

abbrev Reader (α : Type) := List Char → Option (α × List Char)

/-! ## Tokens -/

def isWordStart (c : Char) : Bool :=
  let n := c.toNat
  (Nat.ble 97 n && Nat.ble n 122) || (Nat.ble 65 n && Nat.ble n 90) || n == 95

def isWordRest (c : Char) : Bool :=
  isWordStart c || isDigit c

def readWord : Reader (List Char)
  | [] => none
  | c :: rest =>
    if isWordStart c then some (c :: rest.takeWhile isWordRest, rest.dropWhile isWordRest)
    else none

def readSymbol (symbol : Char) : Reader Unit
  | [] => none
  | c :: rest => if c = symbol then some ((), rest) else none

/-- One given character with blanks around it. -/
def readPadded (symbol : Char) : Reader Unit := fun text =>
  (readSymbol symbol (skipBlanks text)).map fun (_, rest) => ((), skipBlanks rest)

def readDigits : Reader (List Char) := fun text =>
  let digits := text.takeWhile isDigit
  if digits.isEmpty then none else some (digits, text.dropWhile isDigit)

def readFraction (text : List Char) : Option (List Char) × List Char :=
  match text with
  | '.' :: rest =>
    match readDigits rest with
    | some (digits, after) => (some digits, after)
    | none => (none, text)
  | _ => (none, text)

/-- The sign of an exponent: whether it is a minus, and the rest. -/
def readSign : List Char → Bool × List Char
  | '-' :: rest => (true, rest)
  | '+' :: rest => (false, rest)
  | text => (false, text)

/-- The value of the digits of an exponent. Once it has reached 65536, which is far beyond the range
of numbers, no more digits are added. -/
def exponentValue (digits : List Char) : Nat :=
  digits.foldl (fun n c => if n < 65536 then 10 * n + (c.toNat - 48) else n) 0

def readExponent (text : List Char) : Option Int × List Char :=
  match text with
  | c :: rest =>
    if c = 'e' ∨ c = 'E' then
      let (negative, unsigned) := readSign rest
      match readDigits unsigned with
      | some (digits, after) =>
        let n : Int := exponentValue digits
        (some (if negative then -n else n), after)
      | none => (none, text)
    else (none, text)
  | [] => (none, text)

/-- An integer, if it fits into 64 bits. -/
def integer? (negative : Bool) (digits : List Char) : Option Prim :=
  let n : Int := digitsValue digits
  let i := if negative then -n else n
  if -9223372036854775808 ≤ i ∧ i < 9223372036854775808 then some (.int (Int64.ofInt i)) else none

/-- The number with the given parts. Without fraction and exponent it is an integer. -/
def number? (negative : Bool) (whole : List Char) (fraction : Option (List Char))
    (exp : Option Int) : Option Prim :=
  if fraction.isNone ∧ exp.isNone then integer? negative whole
  else
    let decimals := fraction.getD []
    let d : Decimal := ⟨digitsValue (whole ++ decimals), exp.getD 0 - decimals.length⟩
    some (.float (Float64.ofDecimal negative d))

def readUnsigned (negative : Bool) : Reader Prim := fun text =>
  match readDigits text with
  | none => none
  | some (whole, rest) =>
    let (fraction, rest) := readFraction rest
    let (exp, rest) := readExponent rest
    (number? negative whole fraction exp).map fun p => (p, rest)

def readNumber : Reader Prim
  | '-' :: rest => readUnsigned true rest
  | text => readUnsigned false text

/-- A literal that starts with a sign, a digit or a quote. -/
def readLiteral (text : List Char) : Option (Prim × List Char) :=
  match text with
  | '-' :: 'i' :: 'n' :: 'f' :: rest => some (.float .negInfinity, rest)
  | '\x22' :: rest => (readString .plain rest).map fun (s, after) => (.str (String.ofList s), after)
  | 'b' :: '\x22' :: rest => (readBytes .plain rest).map fun (b, after) => (.bytes b, after)
  | _ => readNumber text

/-- The words that are values by themselves. -/
def keyword? (word : List Char) : Option Phrase :=
  if word = ['N', 'o', 'n', 'e'] then some .absent
  else if word = ['t', 'r', 'u', 'e'] then some (.literal (.bool true))
  else if word = ['f', 'a', 'l', 's', 'e'] then some (.literal (.bool false))
  else if word = ['i', 'n', 'f'] then some (.literal (.float .infinity))
  else if word = ['N', 'a', 'N'] then some (.literal (.float .nan))
  else none

/-! ## Arguments and items -/

/-- Items after a first one, each after a comma. `final` says whether a comma that no item follows
is taken along. At most `bound` items are read. -/
def readMore {α : Type} (item : Reader α) (final : Bool) : Nat → List Char → List α × List Char
  | 0, text => ([], text)
  | bound + 1, text =>
    match text with
    | ',' :: rest =>
      match item rest with
      | some (a, after) =>
        let (more, finish) := readMore item final bound after
        (a :: more, finish)
      | none => ([], if final then rest else text)
    | _ => ([], text)

def padded {α : Type} (item : Reader α) : Reader α := fun text =>
  (item (skipBlanks text)).map fun (a, rest) => (a, skipBlanks rest)

def readKeywordArg (value : Reader Phrase) : Reader (Option String × Phrase) := fun text => do
  let (word, rest) ← readWord text
  let (_, rest) ← readPadded '=' rest
  let (phrase, rest) ← value rest
  return ((some (String.ofList word), phrase), rest)

def readArg (value : Reader Phrase) : Reader (Option String × Phrase) := fun text =>
  match readKeywordArg value text with
  | some result => some result
  | none => (value text).map fun (phrase, rest) => ((none, phrase), rest)

/-- Arguments in parentheses, with an optional comma after the last. -/
def readArgs (value : Reader Phrase) : Reader (List (Option String × Phrase)) := fun text => do
  let (_, rest) ← readPadded '(' text
  let (args, rest) :=
    match padded (readArg value) rest with
    | some (first, after) =>
      let (more, finish) := readMore (padded (readArg value)) true after.length after
      (first :: more, finish)
    | none => ([], rest)
  let (_, rest) ← readPadded ')' rest
  return (args, rest)

def readCall (value : Reader Phrase) : Reader Phrase := fun text =>
  match readWord text with
  | none => none
  | some (word, rest) =>
    match readArgs value rest with
    | some (args, after) => some (.call (String.ofList word) args, after)
    | none => (keyword? word).map fun phrase => (phrase, rest)

/-- Whether a comma was read, and the rest. -/
def readComma (text : List Char) : Bool × List Char :=
  match readPadded ',' text with
  | some (_, rest) => (true, rest)
  | none => (false, text)

def readItems (value : Reader Phrase) (first : Phrase) (text : List Char) : Phrase × List Char :=
  let (more, rest) := readMore (padded value) false text.length text
  let (comma, rest) := readComma rest
  if more.isEmpty && !comma then (first, rest) else (.tuple (first :: more), rest)

def readTuple (value : Reader Phrase) : Reader Phrase := fun text => do
  let (_, rest) ← readPadded '(' text
  let (phrase, rest) :=
    match padded value rest with
    | some (first, after) => readItems value first after
    | none => (.tuple [], rest)
  let (_, rest) ← readSymbol ')' rest
  return (phrase, rest)

/-! ## Values -/

/-- A value whose parentheses are nested less than `bound` deep. -/
def readValue : Nat → Reader Phrase
  | 0, _ => none
  | bound + 1, text =>
    match readLiteral text with
    | some (p, rest) => some (.literal p, rest)
    | none =>
      match readCall (readValue bound) text with
      | some result => some result
      | none => readTuple (readValue bound) text

/-- The phrase that is the whole of a text, apart from blanks around it. -/
def read? (text : List Char) : Option Phrase := do
  let (phrase, rest) ← readValue (text.length + 1) (skipBlanks text)
  if (skipBlanks rest).isEmpty then some phrase else none

end Arbor.Phrase
