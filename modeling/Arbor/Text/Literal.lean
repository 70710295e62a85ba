import Arbor.Text.Printable

/-!
String and byte literals: how they are written and how they are read back.

A string literal stands between double quotes. Backslash, double quote, newline, carriage return,
tab and NUL have escapes of their own, and any other character may also be written by its code point
in hexadecimal digits between braces. A byte literal stands between double quotes after a `b`;
a byte outside the printable ASCII range is written by its two hexadecimal digits.

The readers take the text after the opening quote and return what follows the closing one.
-/

namespace Arbor.Text

def hexValue? (c : Char) : Option Nat :=
  let n := c.toNat
  if 48 ≤ n ∧ n ≤ 57 then some (n - 48)
  else if 97 ≤ n ∧ n ≤ 102 then some (n - 87)
  else if 65 ≤ n ∧ n ≤ 70 then some (n - 55)
  else none

/-- The character with a given code point; surrogates and too large numbers have none. -/
def charOfCode? (code : Nat) : Option Char :=
  if h : code.isValidChar then some (Char.ofNatAux code h) else none

/-! ## Writing -/

/-- One character of a string literal; `hidden` selects the characters written by code point. -/
def writeChar (hidden : Char → Bool) (c : Char) : List Char :=
  if c = '\\' then ['\\', '\\']
  else if c = '\x22' then ['\\', '\x22']
  else if c = '\n' then ['\\', 'n']
  else if c = '\r' then ['\\', 'r']
  else if c = '\t' then ['\\', 't']
  else if c = '\x00' then ['\\', '0']
  else if hidden c then '\\' :: 'u' :: '\x7b' :: (Nat.toDigits 16 c.toNat ++ ['\x7d'])
  else [c]

def writeString (hidden : Char → Bool) (s : List Char) : List Char :=
  '\x22' :: (s.flatMap (writeChar hidden) ++ ['\x22'])

/-- The literal that shows every printable character as itself. -/
def quoted (s : String) : List Char :=
  writeString isHidden s.toList

def writeByte (b : UInt8) : List Char :=
  let n := b.toNat
  if n = 9 then ['\\', 't']
  else if n = 13 then ['\\', 'r']
  else if n = 10 then ['\\', 'n']
  else if n = 39 then ['\\', '\x27']
  else if n = 34 then ['\\', '\x22']
  else if n = 92 then ['\\', '\\']
  else if 32 ≤ n ∧ n ≤ 126 then [Char.ofNat n]
  else ['\\', 'x', Nat.digitChar (n / 16), Nat.digitChar (n % 16)]

def writeBytes (bytes : List UInt8) : List Char :=
  'b' :: '\x22' :: (bytes.flatMap writeByte ++ ['\x22'])

/-! ## Reading -/

/-- The character that a one-letter escape stands for. -/
def namedEscape? (c : Char) : Option Char :=
  if c = '\\' then some '\\'
  else if c = '\x22' then some '\x22'
  else if c = '\x27' then some '\x27'
  else if c = 'n' then some '\n'
  else if c = 'r' then some '\r'
  else if c = 't' then some '\t'
  else if c = '0' then some '\x00'
  else none

/-- Where a reader stands inside a string literal. -/
inductive StringState where
  | plain
  /-- After a backslash. -/
  | escape
  /-- After the letter that announces a code point. -/
  | brace
  /-- Inside the braces, with the value and number of the digits read so far. -/
  | code (value digits : Nat)

def readString : StringState → List Char → Option (List Char × List Char)
  | _, [] => none
  | .plain, c :: rest =>
    if c = '\x22' then some ([], rest)
    else if c = '\\' then readString .escape rest
    else (readString .plain rest).map fun (s, after) => (c :: s, after)
  | .escape, c :: rest =>
    if c = 'u' then readString .brace rest
    else
      match namedEscape? c with
      | some d => (readString .plain rest).map fun (s, after) => (d :: s, after)
      | none => none
  | .brace, c :: rest =>
    if c = '\x7b' then readString (.code 0 0) rest else none
  | .code value digits, c :: rest =>
    if c = '\x7d' then
      if digits = 0 then none
      else
        match charOfCode? value with
        | some d => (readString .plain rest).map fun (s, after) => (d :: s, after)
        | none => none
    else if digits < 6 then
      match hexValue? c with
      | some d => readString (.code (16 * value + d) (digits + 1)) rest
      | none => none
    else none

/-- Where a reader stands inside a byte literal. -/
inductive BytesState where
  | plain
  /-- After a backslash. -/
  | escape
  /-- Before the first of two hexadecimal digits. -/
  | high
  /-- Between two hexadecimal digits, with the value of the first. -/
  | low (value : Nat)

def readBytes : BytesState → List Char → Option (List UInt8 × List Char)
  | _, [] => none
  | .plain, c :: rest =>
    if c = '\x22' then some ([], rest)
    else if c = '\\' then readBytes .escape rest
    else if c.toNat < 128 then
      (readBytes .plain rest).map fun (bs, after) => (UInt8.ofNat c.toNat :: bs, after)
    else none
  | .escape, c :: rest =>
    if c = 'x' then readBytes .high rest
    else
      match namedEscape? c with
      | some d => (readBytes .plain rest).map fun (bs, after) => (UInt8.ofNat d.toNat :: bs, after)
      | none => none
  | .high, c :: rest =>
    match hexValue? c with
    | some d => readBytes (.low d) rest
    | none => none
  | .low value, c :: rest =>
    match hexValue? c with
    | some d =>
      (readBytes .plain rest).map fun (bs, after) => (UInt8.ofNat (16 * value + d) :: bs, after)
    | none => none

end Arbor.Text
