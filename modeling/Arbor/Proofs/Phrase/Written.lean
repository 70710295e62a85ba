import Arbor.Phrase.Reader
import Arbor.Proofs.Text.Literal

/-!
# The grammar of phrases

`Written p text` says that a text, without blanks around it, is a way to write the phrase `p`.
Blanks are free between the tokens: after an opening parenthesis, around a comma, around the sign
between a keyword and its value, and before a closing parenthesis.

A value is followed by the end of the text, a comma or a closing parenthesis, with blanks before it
(`Stops`). Nothing that a token could go on with is among these characters, and no value starts with
a blank or with a closing parenthesis.
-/

namespace Arbor.Phrase

open Text

/-! ## Tokens -/

def Blanks (text : List Char) : Prop := ∀ c ∈ text, isBlank c = true

theorem blanks_nil : Blanks [] := fun _ h => by cases h

def isWord : List Char → Bool
  | [] => false
  | c :: rest => isWordStart c && rest.all isWordRest

structure Digits (text : List Char) : Prop where
  nonempty : text ≠ []
  digits : ∀ c ∈ text, isDigit c = true

inductive FractionText : Option (List Char) → List Char → Prop
  | none : FractionText none []
  | some {digits : List Char} : Digits digits → FractionText (some digits) ('.' :: digits)

inductive SignText : Bool → List Char → Prop
  | none : SignText false []
  | plus : SignText false ['+']
  | minus : SignText true ['-']

inductive ExponentText : Option Int → List Char → Prop
  | none : ExponentText none []
  | some {letter : Char} {negative : Bool} {sign digits : List Char} :
      letter = 'e' ∨ letter = 'E' → SignText negative sign → Digits digits →
        ExponentText
          (some (if negative then -(exponentValue digits : Int) else exponentValue digits))
          (letter :: (sign ++ digits))

/-- A number: a minus sign if it is negative, digits, a fraction and an exponent. -/
inductive NumberText : Prim → List Char → Prop
  | mk {negative : Bool} {whole fractionText exponentText : List Char}
      {fraction : Option (List Char)} {exponent : Option Int} {p : Prim} :
      Digits whole → FractionText fraction fractionText → ExponentText exponent exponentText →
        number? negative whole fraction exponent = some p →
          NumberText p
            ((if negative then ['-'] else []) ++ (whole ++ (fractionText ++ exponentText)))

inductive LiteralText : Prim → List Char → Prop
  | negInfinity : LiteralText (.float .negInfinity) ['-', 'i', 'n', 'f']
  | number {p : Prim} {text : List Char} : NumberText p text → LiteralText p text
  | string {s body : List Char} :
      StringBody s body → LiteralText (.str (String.ofList s)) ('\x22' :: (body ++ ['\x22']))
  | bytes {bs : List UInt8} {body : List Char} :
      BytesBody bs body → LiteralText (.bytes bs) ('b' :: '\x22' :: (body ++ ['\x22']))

inductive ConstantText : Phrase → List Char → Prop
  | absent : ConstantText .absent ['N', 'o', 'n', 'e']
  | yes : ConstantText (.literal (.bool true)) ['t', 'r', 'u', 'e']
  | no : ConstantText (.literal (.bool false)) ['f', 'a', 'l', 's', 'e']
  | infinity : ConstantText (.literal (.float .infinity)) ['i', 'n', 'f']
  | nan : ConstantText (.literal (.float .nan)) ['N', 'a', 'N']

/-! ## Lists -/

/-- Items after a first one, each after a comma. -/
inductive More {α : Type} (item : α → List Char → Prop) : List α → List Char → Prop
  | done : More item [] []
  | next {x : α} {xs : List α} {a text b more : List Char} :
      Blanks a → item x text → Blanks b → More item xs more →
        More item (x :: xs) (',' :: (a ++ (text ++ (b ++ more))))

inductive FinalComma : Bool → List Char → Prop
  | none : FinalComma false []
  | some {a : List Char} : Blanks a → FinalComma true (',' :: a)

inductive ArgText (value : Phrase → List Char → Prop) :
    Option String × Phrase → List Char → Prop
  | positional {p : Phrase} {text : List Char} : value p text → ArgText value (none, p) text
  | keyword {p : Phrase} {word a b text : List Char} :
      isWord word = true → Blanks a → Blanks b → value p text →
        ArgText value (some (String.ofList word), p) (word ++ (a ++ '=' :: (b ++ text)))

inductive ArgsText (value : Phrase → List Char → Prop) :
    List (Option String × Phrase) → List Char → Prop
  | none : ArgsText value [] []
  | some {x : Option String × Phrase} {xs : List (Option String × Phrase)} {comma : Bool}
      {text b more last : List Char} :
      ArgText value x text → Blanks b → More (ArgText value) xs more → FinalComma comma last →
        ArgsText value (x :: xs) (text ++ (b ++ (more ++ last)))

/-! ## Values -/

inductive Written : Phrase → List Char → Prop
  | literal {p : Prim} {text : List Char} : LiteralText p text → Written (.literal p) text
  | constant {p : Phrase} {text : List Char} : ConstantText p text → Written p text
  | call {word a b text : List Char} {args : List (Option String × Phrase)} :
      isWord word = true → Blanks a → Blanks b → ArgsText Written args text →
        Written (.call (String.ofList word) args) (word ++ (a ++ '(' :: (b ++ (text ++ [')']))))
  | unit {a : List Char} : Blanks a → Written (.tuple []) ('(' :: (a ++ [')']))
  | group {p : Phrase} {a text b : List Char} :
      Blanks a → Written p text → Blanks b → Written p ('(' :: (a ++ (text ++ (b ++ [')']))))
  | tuple {p : Phrase} {ps : List Phrase} {comma : Bool} {a text b more last : List Char} :
      Blanks a → Written p text → Blanks b → More Written ps more → FinalComma comma last →
        ps ≠ [] ∨ comma = true →
          Written (.tuple (p :: ps)) ('(' :: (a ++ (text ++ (b ++ (more ++ (last ++ [')']))))))

/-! ## Boundaries -/

/-- The text does not go on with a character of a class. -/
def Ends (p : Char → Bool) (rest : List Char) : Prop := ∀ c ∈ rest.head?, p c = false

theorem Ends.cons {p : Char → Bool} {c : Char} (h : p c = false) (rest : List Char) :
    Ends p (c :: rest) := by
  intro d hd
  rwa [← Option.some.inj hd]

theorem takeWhile_run {p : Char → Bool} {run rest : List Char} (h : ∀ c ∈ run, p c = true)
    (ends : Ends p rest) : (run ++ rest).takeWhile p = run := by
  rw [List.takeWhile_append_of_pos h]
  cases rest with
  | nil => simp
  | cons c rest => simp [ends c rfl]

theorem dropWhile_run {p : Char → Bool} {run rest : List Char} (h : ∀ c ∈ run, p c = true)
    (ends : Ends p rest) : (run ++ rest).dropWhile p = rest := by
  rw [List.dropWhile_append_of_pos h]
  cases rest with
  | nil => rfl
  | cons c rest => simp [ends c rfl]

theorem skipBlanks_append {a rest : List Char} (ha : Blanks a) (ends : Ends isBlank rest) :
    skipBlanks (a ++ rest) = rest :=
  dropWhile_run ha ends

theorem skipBlanks_of_ends {rest : List Char} (ends : Ends isBlank rest) :
    skipBlanks rest = rest :=
  skipBlanks_append blanks_nil ends

theorem skipBlanks_skipBlanks (text : List Char) :
    skipBlanks (skipBlanks text) = skipBlanks text := by
  apply skipBlanks_of_ends
  intro c hc
  have := List.head?_dropWhile_not isBlank text
  simp only [skipBlanks] at hc
  rw [Option.mem_def.mp hc] at this
  simpa using this

theorem blanks_outside {c : Char} (h : isBlank c = true) : c.toNat ≤ 32 ∨ 133 ≤ c.toNat := by
  simp only [isBlank, blankRanges, Ranges.contains, Bool.and_eq_true, Bool.or_eq_true,
    Nat.ble_eq] at h
  omega

/-- What may follow a value. -/
def Stops (rest : List Char) : Prop :=
  ∀ c ∈ (skipBlanks rest).head?, c = ',' ∨ c = ')'

theorem Stops.ends {p : Char → Bool} {rest : List Char} (h : Stops rest)
    (blank : ∀ c, isBlank c = true → p c = false) (comma : p ',' = false)
    (closing : p ')' = false) : Ends p rest := by
  intro c hc
  cases rest with
  | nil => cases hc
  | cons d rest =>
    obtain rfl := Option.some.inj hc
    by_cases hd : isBlank d = true
    · exact blank d hd
    · have : d = ',' ∨ d = ')' := h d (by simp [skipBlanks, hd])
      rcases this with rfl | rfl
      · exact comma
      · exact closing

/-! ## Beginnings -/

theorem isBlank_eq_false {c : Char} (low : 32 < c.toNat) (high : c.toNat < 133) :
    isBlank c = false := by
  rw [Bool.eq_false_iff]
  intro blank
  have := blanks_outside blank
  omega

theorem isDigit_bounds {c : Char} (h : isDigit c = true) : 48 ≤ c.toNat ∧ c.toNat ≤ 57 := by
  simpa [isDigit] using h

theorem isWordStart_bounds {c : Char} (h : isWordStart c = true) :
    65 ≤ c.toNat ∧ c.toNat ≤ 122 := by
  simp only [isWordStart, Bool.or_eq_true, Bool.and_eq_true, Nat.ble_eq, beq_iff_eq] at h
  omega

theorem isWord_cons {word : List Char} (h : isWord word = true) :
    ∃ c rest, word = c :: rest ∧ isWordStart c = true ∧ ∀ d ∈ rest, isWordRest d = true := by
  cases word with
  | nil => cases h
  | cons c rest =>
    rw [isWord, Bool.and_eq_true, List.all_eq_true] at h
    exact ⟨c, rest, rfl, h.1, h.2⟩

theorem Digits.cons {text : List Char} (h : Digits text) :
    ∃ c rest, text = c :: rest ∧ isDigit c = true := by
  cases text with
  | nil => exact absurd rfl h.nonempty
  | cons c rest => exact ⟨c, rest, rfl, h.digits c List.mem_cons_self⟩

/-- The text starts with a character that is no blank. -/
def Begins (text : List Char) : Prop := ∃ c rest, text = c :: rest ∧ isBlank c = false

theorem Begins.cons {c : Char} (low : 32 < c.toNat) (high : c.toNat < 133) (rest : List Char) :
    Begins (c :: rest) :=
  ⟨c, rest, rfl, isBlank_eq_false low high⟩

theorem Begins.append {text : List Char} (h : Begins text) (rest : List Char) :
    Begins (text ++ rest) := by
  obtain ⟨c, tail, rfl, hc⟩ := h
  exact ⟨c, tail ++ rest, rfl, hc⟩

theorem Begins.ends {text : List Char} (h : Begins text) : Ends isBlank text := by
  obtain ⟨c, tail, rfl, hc⟩ := h
  exact Ends.cons hc tail

theorem begins_word {word : List Char} (h : isWord word = true) : Begins word := by
  obtain ⟨c, rest, rfl, hc, -⟩ := isWord_cons h
  have := isWordStart_bounds hc
  exact Begins.cons (by omega) (by omega) rest

theorem Digits.begins {text : List Char} (h : Digits text) : Begins text := by
  obtain ⟨c, rest, rfl, hc⟩ := h.cons
  have := isDigit_bounds hc
  exact Begins.cons (by omega) (by omega) rest

theorem LiteralText.begins {p : Prim} {text : List Char} (h : LiteralText p text) :
    Begins text := by
  cases h with
  | negInfinity => exact Begins.cons (by decide) (by decide) _
  | number h =>
    obtain @⟨negative, _, _, _, _, _, _, whole, -, -, -⟩ := h
    cases negative with
    | false => exact whole.begins.append _
    | true => exact Begins.cons (by decide) (by decide) _
  | string _ => exact Begins.cons (by decide) (by decide) _
  | bytes _ => exact Begins.cons (by decide) (by decide) _

theorem ConstantText.isWord {p : Phrase} {text : List Char} (h : ConstantText p text) :
    isWord text = true := by
  cases h <;> rfl

theorem Written.begins {p : Phrase} {text : List Char} (h : Written p text) : Begins text := by
  cases h with
  | literal h => exact h.begins
  | constant h => exact begins_word h.isWord
  | call word _ _ _ => exact (begins_word word).append _
  | unit _ => exact Begins.cons (by decide) (by decide) _
  | group _ _ _ => exact Begins.cons (by decide) (by decide) _
  | tuple _ _ _ _ _ _ => exact Begins.cons (by decide) (by decide) _

theorem ArgText.begins {x : Option String × Phrase} {text : List Char}
    (h : ArgText Written x text) : Begins text := by
  cases h with
  | positional h => exact h.begins
  | keyword word _ _ _ => exact (begins_word word).append _

end Arbor.Phrase
