import Arbor.Text.Emoji
import Arbor.Text.Invisible

/-!
Display width: the number of columns that a text takes on a terminal.

A text of ASCII characters takes one column per character. In other texts some sequences are drawn
as one: a line break, pictures that are joined, coloured or chosen by a variation selector, and
ligatures of some scripts. So the width is found from the end of the text, and each character adds
to it what it makes of the text after it.
-/

namespace Arbor.Text

/-! ## Single characters -/

/-- Characters of East Asian width `W` or `F`. -/
def wideRanges : Ranges :=
  [(0x1100, 0x115f), (0x231a, 0x231b), (0x2329, 0x232a), (0x23e9, 0x23ec), (0x23f0, 0x23f0),
   (0x23f3, 0x23f3), (0x25fd, 0x25fe), (0x2614, 0x2615), (0x2630, 0x2637), (0x2648, 0x2653),
   (0x267f, 0x267f), (0x268a, 0x268f), (0x2693, 0x2693), (0x26a1, 0x26a1), (0x26aa, 0x26ab),
   (0x26bd, 0x26be), (0x26c4, 0x26c5), (0x26ce, 0x26ce), (0x26d4, 0x26d4), (0x26ea, 0x26ea),
   (0x26f2, 0x26f3), (0x26f5, 0x26f5), (0x26fa, 0x26fa), (0x26fd, 0x26fd), (0x2705, 0x2705),
   (0x270a, 0x270b), (0x2728, 0x2728), (0x274c, 0x274c), (0x274e, 0x274e), (0x2753, 0x2755),
   (0x2757, 0x2757), (0x2795, 0x2797), (0x27b0, 0x27b0), (0x27bf, 0x27bf), (0x2b1b, 0x2b1c),
   (0x2b50, 0x2b50), (0x2b55, 0x2b55), (0x2e80, 0x2e99), (0x2e9b, 0x2ef3), (0x2f00, 0x2fd5),
   (0x2ff0, 0x303e), (0x3041, 0x3096), (0x3099, 0x30ff), (0x3105, 0x312f), (0x3131, 0x318e),
   (0x3190, 0x31e5), (0x31ef, 0x321e), (0x3220, 0x3247), (0x3250, 0xa48c), (0xa490, 0xa4c6),
   (0xa960, 0xa97c), (0xac00, 0xd7a3), (0xf900, 0xfaff), (0xfe10, 0xfe19), (0xfe30, 0xfe52),
   (0xfe54, 0xfe66), (0xfe68, 0xfe6b), (0xff01, 0xff60), (0xffe0, 0xffe6), (0x16fe0, 0x16fe4),
   (0x16ff0, 0x16ff6), (0x17000, 0x18cda), (0x18cff, 0x18d20), (0x18d80, 0x18df2),
   (0x18e00, 0x19191), (0x191a0, 0x191d2), (0x1aff0, 0x1aff3), (0x1aff5, 0x1affb),
   (0x1affd, 0x1affe), (0x1b000, 0x1b128), (0x1b132, 0x1b132), (0x1b150, 0x1b152),
   (0x1b155, 0x1b155), (0x1b164, 0x1b168), (0x1b170, 0x1b2fb), (0x1d300, 0x1d356),
   (0x1d360, 0x1d376), (0x1f004, 0x1f004), (0x1f0cf, 0x1f0cf), (0x1f18e, 0x1f18e),
   (0x1f191, 0x1f19a), (0x1f1ae, 0x1f1ae), (0x1f200, 0x1f202), (0x1f210, 0x1f23b),
   (0x1f240, 0x1f248), (0x1f250, 0x1f251), (0x1f260, 0x1f265), (0x1f300, 0x1f320),
   (0x1f32d, 0x1f335), (0x1f337, 0x1f37c), (0x1f37e, 0x1f393), (0x1f3a0, 0x1f3ca),
   (0x1f3cf, 0x1f3d3), (0x1f3e0, 0x1f3f0), (0x1f3f4, 0x1f3f4), (0x1f3f8, 0x1f43e),
   (0x1f440, 0x1f440), (0x1f442, 0x1f4fc), (0x1f4ff, 0x1f53d), (0x1f54b, 0x1f54e),
   (0x1f550, 0x1f567), (0x1f57a, 0x1f57a), (0x1f595, 0x1f596), (0x1f5a4, 0x1f5a4),
   (0x1f5fb, 0x1f64f), (0x1f680, 0x1f6c5), (0x1f6cc, 0x1f6cc), (0x1f6d0, 0x1f6d2),
   (0x1f6d5, 0x1f6d9), (0x1f6dc, 0x1f6df), (0x1f6eb, 0x1f6ec), (0x1f6f4, 0x1f6fc),
   (0x1f7da, 0x1f7da), (0x1f7e0, 0x1f7eb), (0x1f7f0, 0x1f7f0), (0x1f90c, 0x1f93a),
   (0x1f93c, 0x1f945), (0x1f947, 0x1f9ff), (0x1fa70, 0x1fa7c), (0x1fa80, 0x1fac6),
   (0x1fac8, 0x1fac8), (0x1facc, 0x1fadd), (0x1fadf, 0x1faeb), (0x1faef, 0x1fafa),
   (0x20000, 0x2fffd), (0x30000, 0x3fffd)]

def charWidth (c : Char) : Nat :=
  if c.toNat = 0x17d8 then 3
  else if c.toNat = 0x115f ∨ c.toNat = 0x17a4 then 2
  else if isInvisible c then 0
  else if wideRanges.contains c then 2
  else 1

def isJoiner (c : Char) : Bool :=
  c.toNat == 0x200d

/-! ## How a text starts -/

/-- The end of a ligature, or all of it but its start. -/
inductive LigaturePart where
  | alef
  | lamed
  | joinedLamed
  | ya
  | joinedYa
  | vowelAndYa
  /-- A consonant of Tifinagh. -/
  | consonant
  | joinedConsonant
  | joinerAndConsonant
  /-- A tone letter of Lisu that may end a pair. -/
  | tone
  | orkhonI
  | joinedOrkhonI
  /-- A letter of Khmer that has a subscript form. -/
  | subscriptLetter
deriving DecidableEq

/-- The end of a sequence of pictures. -/
inductive PicturePart where
  | picture
  | skinTone
  | flagLetter
  | flagLetters
  /-- A picture after a joiner. The parts below all end in one. -/
  | joined
  | joinedKeycap
  | joinedFlagLetter
  | joinedFlags
  | joinedFlagsAndLetter
  /-- Letters in front of the end of a tag. -/
  | tagLetters (count : Nat)
  /-- Digits in front of letters and the end of a tag. -/
  | tagDigits (count : Nat)
deriving DecidableEq

/-- The start of a text, as far as it bears on the width of what stands before it. -/
inductive Opening where
  | other
  | lineFeed
  | ligature (part : LigaturePart)
  | picture (part : PicturePart)
  /-- An odd number of vowel signs of Kirat Rai, two of which make one. -/
  | oddVowels
  | evenVowels
deriving DecidableEq

/-- How a variation selector wants the character before it. -/
inductive Selector where
  | picture
  | text
  | fullwidth
deriving DecidableEq

/-- A text, by the selectors at its start that still ask for a form, and by what stands after
them. -/
structure Tail where
  /-- The last one read comes first. -/
  selectors : List Selector := []
  opening : Opening := .other
deriving DecidableEq

def Selector.ofChar? (c : Char) : Option Selector :=
  if c.toNat = 0xfe0f then some .picture
  else if c.toNat = 0xfe0e then some .text
  else if c.toNat = 0xfe01 then some .fullwidth
  else none

def isTifinaghConsonant (c : Char) : Bool :=
  isBetween 0x2d31 0x2d65 c || c.toNat == 0x2d6f

/-- The letters that are written under the one before them, after the sign that asks for it. -/
def hasSubscript (c : Char) : Bool :=
  Ranges.contains
    [(0x1780, 0x1782), (0x1784, 0x1787), (0x1789, 0x178c), (0x178e, 0x1793), (0x1795, 0x1798),
     (0x179b, 0x179d), (0x17a0, 0x17a0), (0x17a2, 0x17a2), (0x17a7, 0x17a7), (0x17ab, 0x17ac),
     (0x17af, 0x17af)] c

/-- Arabic letters of the joining group of Alef. -/
def isAlef (c : Char) : Bool :=
  Ranges.contains
    [(0x622, 0x623), (0x625, 0x625), (0x627, 0x627), (0x671, 0x673), (0x675, 0x675),
     (0x773, 0x774), (0x870, 0x882)] c

/-- Arabic letters of the joining group of Lam. -/
def isLam (c : Char) : Bool :=
  Ranges.contains
    [(0x644, 0x644), (0x6b5, 0x6b8), (0x76a, 0x76a), (0x8a6, 0x8a6), (0x8c7, 0x8c7)] c

def Opening.ofChar (c : Char) : Opening :=
  if c = '\n' then .lineFeed
  else if isAlef c then .ligature .alef
  else if c.toNat = 0x5dc then .ligature .lamed
  else if c.toNat = 0x1a10 then .ligature .ya
  else if isTifinaghConsonant c then .ligature .consonant
  else if isBetween 0xa4fc 0xa4fd c then .ligature .tone
  else if c.toNat = 0x10c03 then .ligature .orkhonI
  else if hasSubscript c then .ligature .subscriptLetter
  else if c.toNat = 0x16d67 then .oddVowels
  else if c.toNat = 0x16d68 then .evenVowels
  else if isFlagLetter c then .picture .flagLetter
  else if isSkinTone c then .picture .skinTone
  else if isEmoji c then .picture .picture
  else .other

/-! ## Sequences -/

/-- What a character adds to the width of the text after it, and how the text starts with it. -/
abbrev Extension := Int × Opening

namespace LigaturePart

/-- The part with a joiner before it. -/
def join : LigaturePart → LigaturePart
  | .lamed => .joinedLamed
  | .ya => .joinedYa
  | .consonant => .joinedConsonant
  | .orkhonI => .joinedOrkhonI
  | part => part

/-- The ligature, or more of it, if the character is what comes before the part. -/
def complete? (c : Char) : LigaturePart → Option Extension
  | .alef => if isLam c then some (0, .other) else none
  | .joinedLamed => if c.toNat = 0x5d0 then some (0, .other) else none
  | .joinedYa => if c.toNat = 0x1a17 then some (0, .ligature .vowelAndYa) else none
  | .vowelAndYa => if c.toNat = 0x1a15 then some (0, .other) else none
  | .consonant => if c.toNat = 0x2d7f then some (1, .ligature .joinerAndConsonant) else none
  | .joinedConsonant =>
    if c.toNat = 0x2d7f then some (1, .ligature .joinerAndConsonant)
    else if isTifinaghConsonant c then some (0, .other)
    else none
  | .joinerAndConsonant => if isTifinaghConsonant c then some (-1, .other) else none
  | .tone => if isBetween 0xa4f8 0xa4fb c then some (0, .other) else none
  | .joinedOrkhonI => if c.toNat = 0x10c32 then some (0, .other) else none
  | .subscriptLetter => if c.toNat = 0x17d2 then some (-1, .other) else none
  | .lamed | .ya | .orkhonI => none

/-- Ignorable marks and joiners may stand anywhere in a ligature. In Arabic it is any mark that
letters join across, but no joiner. -/
def extend? (c : Char) (part : LigaturePart) : Option Extension :=
  if part = .alef then
    if isTransparent c then some (0, .ligature .alef) else part.complete? c
  else if isJoiner c then some (0, .ligature part.join)
  else if isIgnorableMark c then some (0, .ligature part)
  else part.complete? c

end LigaturePart

/-- Pictures joined, coloured or tagged are one picture. Flag letters pair up before a joiner. -/
def PicturePart.extend? (c : Char) : PicturePart → Option Extension
  | .picture => if isJoiner c then some (0, .picture .joined) else none
  | .skinTone =>
    if takesSkinTone c then some (0, .picture .picture)
    else if isJoiner c then some (0, .picture .joined)
    else none
  | .flagLetter => if isFlagLetter c then some (1, .picture .flagLetters) else none
  | .flagLetters =>
    if isFlagLetter c then some (1, .picture .flagLetters)
    else if isJoiner c then some (0, .picture .joined)
    else none
  | .joined =>
    if c.toNat = 0x20e3 then some (0, .picture .joinedKeycap)
    else if isFlagLetter c then some (1, .picture .joinedFlagLetter)
    else if isSkinTone c then some (0, .picture .skinTone)
    else if c.toNat = 0xe007f then some (0, .picture (.tagLetters 0))
    else if isEmoji c then some (0, .picture .picture)
    else none
  | .joinedKeycap => none
  | .joinedFlagLetter => if isFlagLetter c then some (-1, .picture .joinedFlags) else none
  | .joinedFlags =>
    if isFlagLetter c then some (3, .picture .joinedFlagsAndLetter)
    else if isJoiner c then some (0, .picture .joined)
    else none
  | .joinedFlagsAndLetter =>
    if isFlagLetter c then some (-1, .picture .joinedFlags)
    else if isJoiner c then some (0, .picture .joined)
    else none
  | .tagLetters n =>
    if isTagLetter c ∧ n < 6 then some (0, .picture (.tagLetters (n + 1)))
    else if isTagDigit c ∧ n < 5 then some (0, .picture (.tagDigits 1))
    else if c.toNat = 0x1f3f4 ∧ 3 ≤ n then some (0, .picture .picture)
    else none
  | .tagDigits n =>
    if isTagDigit c ∧ n < 3 then some (0, .picture (.tagDigits (n + 1)))
    else if c.toNat = 0x1f3f4 ∧ n = 3 then some (0, .picture .picture)
    else none

namespace Opening

/-- What a character is drawn as one with, if it is. -/
def extend? (c : Char) : Opening → Option Extension
  | .other => none
  | .lineFeed => if c = '\r' then some (0, .other) else none
  | .ligature part => part.extend? c
  | .picture part => part.extend? c
  | .oddVowels =>
    if c.toNat = 0x16d63 ∨ c.toNat = 0x16d69 then some (0, .other)
    else if c.toNat = 0x16d67 then some (0, .evenVowels)
    else if c.toNat = 0x16d68 then some (1, .oddVowels)
    else none
  | .evenVowels => if c.toNat = 0x16d63 then some (0, .other) else none

def extend (c : Char) (opening : Opening) : Extension :=
  (opening.extend? c).getD (charWidth c, .ofChar c)

/-- Whether a picture chosen by a selector would be joined to the text. -/
def isJoined (opening : Opening) : Bool :=
  opening == .picture .joined || opening == .picture .joinedKeycap

def isLigature : Opening → Bool
  | .ligature _ => true
  | _ => false

/-- What is left of an opening behind a selector that has no use. -/
def unselected (opening : Opening) : Opening :=
  if opening.isLigature then opening else .other

/-- What is left of an opening behind a selector. -/
def behind (opening : Opening) (s : Selector) : Opening :=
  if s = .picture ∧ opening.isJoined then opening else opening.unselected

end Opening

def isQuotationMark (c : Char) : Bool :=
  isBetween 0x2018 0x2019 c || isBetween 0x201c 0x201d c

/-- A character in the form that a selector asks for, if it has such a form. -/
def Selector.extend? (c : Char) (opening : Opening) : Selector → Option Extension
  | .picture =>
    if hasEmojiForm c then some (if opening.isJoined then 0 else 2, .picture .picture) else none
  | .text => if hasTextForm c then some (1, .other) else none
  | .fullwidth => if isQuotationMark c then some (2, .other) else none

namespace Tail

def selected? (c : Char) (tail : Tail) : Option Extension :=
  tail.selectors.findSome? (Selector.extend? c tail.opening)

/-- How the text starts, once its selectors have found no use. -/
def visible (tail : Tail) : Opening :=
  if tail.selectors.isEmpty then tail.opening else tail.opening.unselected

/-- A selector in front of a text. Before a ligature the selectors add up, but one for a picture
speaks to the next character only. Elsewhere a selector replaces those after it. -/
def select (s : Selector) (tail : Tail) : Tail :=
  let opening := tail.visible.behind s
  let rest := tail.selectors.filter fun t => t ≠ .picture ∧ t ≠ s
  { selectors := s :: if opening.isLigature then rest else [], opening }

/-- A character in front of a text: what it adds to the width, and the longer text. -/
def extend (c : Char) (tail : Tail) : Int × Tail :=
  match Selector.ofChar? c with
  | some s => (0, tail.select s)
  | none =>
    let (width, opening) := (tail.selected? c).getD (tail.visible.extend c)
    (width, { opening })

end Tail

/-! ## Texts -/

/-- The width of a text and how it starts. -/
def measure : List Char → Int × Tail
  | [] => (0, {})
  | c :: rest =>
    let (width, tail) := measure rest
    let (added, tail) := tail.extend c
    (width + added, tail)

def isAscii (c : Char) : Bool :=
  Nat.blt c.toNat 128

def width (text : List Char) : Nat :=
  if text.all isAscii then text.length else (measure text).1.toNat

end Arbor.Text
