import Arbor.Proofs.Phrase.Written

/-!
# The grammar of phrases over tokens

`Spelled p tokens` says that a list of tokens is a way to write the phrase `p`, and
`Spaced tokens text` that a text consists of the tokens with blanks before, between and after them.
A text of the tokens of a phrase is a written form of it with blanks around it
(`written_of_spelled`): wherever the blanks are, the written forms allow them.
-/

namespace Arbor.Phrase

open Text

/-! ## Tokens -/

abbrev Token := List Char

/-- A number: an integer that fits into 64 bits, or digits with a fraction, an exponent or both. -/
inductive Numeral : Prim → Token → Prop
  | integer {negative : Bool} {whole : List Char} {i : Int} :
      Digits whole → i = (if negative then -(digitsValue whole : Int) else digitsValue whole) →
        -9223372036854775808 ≤ i → i < 9223372036854775808 →
          Numeral (.int (Int64.ofInt i)) ((if negative then ['-'] else []) ++ whole)
  | float {negative : Bool} {whole fractionText exponentText : List Char}
      {fraction : Option (List Char)} {exponent : Option Int} :
      Digits whole → FractionText fraction fractionText → ExponentText exponent exponentText →
        fractionText ++ exponentText ≠ [] →
          Numeral
            (.float (Float64.ofDecimal negative
              ⟨digitsValue (whole ++ fraction.getD []),
                exponent.getD 0 - (fraction.getD []).length⟩))
            ((if negative then ['-'] else []) ++ (whole ++ (fractionText ++ exponentText)))

theorem integer?_eq_some {negative : Bool} {digits : List Char} {p : Prim} :
    integer? negative digits = some p ↔
      ∃ i : Int, i = (if negative then -(digitsValue digits : Int) else digitsValue digits) ∧
        -9223372036854775808 ≤ i ∧ i < 9223372036854775808 ∧ p = .int (Int64.ofInt i) := by
  simp only [integer?, Option.ite_none_right_eq_some, Option.some.injEq, exists_eq_left, and_assoc,
    eq_comm (a := p)]

theorem numeral_iff {p : Prim} {text : List Char} : Numeral p text ↔ NumberText p text := by
  constructor
  · intro h
    cases h with
    | @integer negative whole i digits value low high =>
      have number : number? negative whole none none = some (.int (Int64.ofInt i)) :=
        integer?_eq_some.mpr ⟨i, value, low, high, rfl⟩
      simpa using NumberText.mk digits .none .none number
    | float digits fraction exponent some =>
      refine .mk digits fraction exponent (if_neg ?_)
      rintro ⟨noFraction, noExponent⟩
      cases fraction with
      | some => cases noFraction
      | none =>
        cases exponent with
        | some => cases noExponent
        | none => exact some rfl
  · rintro ⟨digits, fraction, exponent, number⟩
    rw [number?] at number
    split at number
    · rename_i whole
      cases fraction with
      | some => cases whole.1
      | none =>
        cases exponent with
        | some => cases whole.2
        | none =>
          obtain ⟨i, value, low, high, rfl⟩ := integer?_eq_some.mp number
          simpa using Numeral.integer digits value low high
    · rename_i parts
      cases number
      refine .float digits fraction exponent fun empty => parts ?_
      obtain ⟨rfl, rfl⟩ := List.append_eq_nil_iff.mp empty
      cases fraction
      cases exponent
      exact ⟨rfl, rfl⟩

/-! ## Phrases -/

/-- The comma that may follow the last item. -/
def trailing (comma : Bool) : List Token := if comma then [[',']] else []

/-- Items after a first one, each after a comma. -/
inductive Further {α : Type} (item : α → List Token → Prop) : List α → List Token → Prop
  | done : Further item [] []
  | next {x : α} {xs : List α} {tokens more : List Token} :
      item x tokens → Further item xs more → Further item (x :: xs) ([','] :: (tokens ++ more))

inductive SpelledArg (value : Phrase → List Token → Prop) :
    Option String × Phrase → List Token → Prop
  | positional {p : Phrase} {tokens : List Token} :
      value p tokens → SpelledArg value (none, p) tokens
  | keyword {p : Phrase} {word : Token} {tokens : List Token} :
      isWord word = true → value p tokens →
        SpelledArg value (some (String.ofList word), p) (word :: ['='] :: tokens)

inductive SpelledArgs (value : Phrase → List Token → Prop) :
    List (Option String × Phrase) → List Token → Prop
  | none : SpelledArgs value [] []
  | some {x : Option String × Phrase} {xs : List (Option String × Phrase)}
      {tokens more : List Token} (comma : Bool) :
      SpelledArg value x tokens → Further (SpelledArg value) xs more →
        SpelledArgs value (x :: xs) (tokens ++ (more ++ trailing comma))

/-- The tokens that a phrase may be written with. -/
inductive Spelled : Phrase → List Token → Prop
  | negInfinity : Spelled (.literal (.float .negInfinity)) [['-', 'i', 'n', 'f']]
  | number {p : Prim} {token : Token} : Numeral p token → Spelled (.literal p) [token]
  | string {s body : List Char} :
      StringBody s body →
        Spelled (.literal (.str (String.ofList s))) ['\x22' :: (body ++ ['\x22'])]
  | bytes {bs : List UInt8} {body : List Char} :
      BytesBody bs body → Spelled (.literal (.bytes bs)) ['b' :: '\x22' :: (body ++ ['\x22'])]
  | constant {p : Phrase} {word : Token} : ConstantText p word → Spelled p [word]
  | call {word : Token} {args : List (Option String × Phrase)} {tokens : List Token} :
      isWord word = true → SpelledArgs Spelled args tokens →
        Spelled (.call (String.ofList word) args) (word :: ['('] :: (tokens ++ [[')']]))
  | unit : Spelled (.tuple []) [['('], [')']]
  | group {p : Phrase} {tokens : List Token} :
      Spelled p tokens → Spelled p (['('] :: (tokens ++ [[')']]))
  | tuple {p : Phrase} {ps : List Phrase} {tokens more : List Token} (comma : Bool) :
      Spelled p tokens → Further Spelled ps more → ps ≠ [] ∨ comma = true →
        Spelled (.tuple (p :: ps)) (['('] :: (tokens ++ (more ++ (trailing comma ++ [[')']]))))

/-! ## Blanks -/

/-- The tokens in order, with blanks before, between and after them. -/
inductive Spaced : List Token → List Char → Prop
  | nil {a : List Char} : Blanks a → Spaced [] a
  | cons {a text : List Char} {token : Token} {tokens : List Token} :
      Blanks a → Spaced tokens text → Spaced (token :: tokens) (a ++ (token ++ text))

theorem Blanks.append {a b : List Char} (ha : Blanks a) (hb : Blanks b) : Blanks (a ++ b) :=
  List.forall_mem_append.mpr ⟨ha, hb⟩

theorem Spaced.after {tokens : List Token} {a text : List Char} (ha : Blanks a)
    (h : Spaced tokens text) : Spaced tokens (a ++ text) := by
  cases h with
  | nil hb => exact .nil (ha.append hb)
  | cons hb h =>
    rw [← List.append_assoc]
    exact .cons (ha.append hb) h

theorem spaced_append {ts us : List Token} {text : List Char} :
    Spaced (ts ++ us) text ↔ ∃ x y, text = x ++ y ∧ Spaced ts x ∧ Spaced us y := by
  constructor
  · intro h
    induction ts generalizing text with
    | nil => exact ⟨[], text, rfl, .nil blanks_nil, h⟩
    | cons t ts ih =>
      obtain _ | ⟨ha, h⟩ := h
      obtain ⟨x, y, rfl, hx, hy⟩ := ih h
      exact ⟨_, y, by simp, .cons ha hx, hy⟩
  · rintro ⟨x, y, rfl, hx, hy⟩
    induction hx with
    | nil ha => exact hy.after ha
    | cons ha _ ih =>
      simp only [List.append_assoc, List.cons_append]
      exact .cons ha ih

theorem spaced_singleton {token : Token} {text : List Char} (h : Spaced [token] text) :
    ∃ a b, text = a ++ (token ++ b) ∧ Blanks a ∧ Blanks b := by
  obtain _ | ⟨ha, _ | _⟩ := h
  exact ⟨_, _, rfl, ha, ‹_›⟩

/-! ## Written forms -/

/-- A text of the given kind with blanks around it. -/
def Padded {α : Type} (item : α → List Char → Prop) (x : α) (text : List Char) : Prop :=
  ∃ a t b, text = a ++ (t ++ b) ∧ Blanks a ∧ item x t ∧ Blanks b

theorem padded_token {α : Type} {item : α → List Char → Prop} {x : α} {token : Token}
    {text : List Char} (h : Spaced [token] text) (written : item x token) :
    Padded item x text := by
  obtain ⟨a, b, rfl, ha, hb⟩ := spaced_singleton h
  exact ⟨a, token, b, rfl, ha, written, hb⟩

theorem finalComma_of_spaced {comma : Bool} {text : List Char}
    (h : Spaced (trailing comma ++ [[')']]) text) :
    ∃ a last b, text = a ++ (last ++ ')' :: b) ∧ Blanks a ∧ FinalComma comma last ∧ Blanks b := by
  cases comma with
  | false =>
    obtain ⟨a, b, rfl, ha, hb⟩ := spaced_singleton h
    exact ⟨a, [], b, rfl, ha, .none, hb⟩
  | true =>
    obtain _ | ⟨ha, h⟩ := h
    obtain ⟨c, b, rfl, hc, hb⟩ := spaced_singleton h
    exact ⟨_, ',' :: c, b, by simp, ha, .some hc, hb⟩

/-- The items after a first one, up to the closing parenthesis. Blanks before a comma belong to the
item before it. -/
theorem more_of_spaced {α : Type} {item : α → List Token → Prop} {written : α → List Char → Prop}
    {xs : List α} {more : List Token} (h : Further item xs more) {comma : Bool} {text : List Char}
    {bound : Nat}
    (items : ∀ {x ts z}, item x ts → ts.length < bound → Spaced ts z → Padded written x z)
    (short : more.length ≤ bound) (spaced : Spaced (more ++ (trailing comma ++ [[')']])) text) :
    ∃ a m last b, text = a ++ (m ++ (last ++ ')' :: b)) ∧ Blanks a ∧ More written xs m ∧
      FinalComma comma last ∧ Blanks b := by
  induction h generalizing text with
  | done =>
    obtain ⟨a, last, b, rfl, ha, hl, hb⟩ := finalComma_of_spaced spaced
    exact ⟨a, [], last, b, rfl, ha, .done, hl, hb⟩
  | @next x xs tokens more hx _ ih =>
    simp only [List.length_cons, List.length_append] at short
    rw [List.cons_append, List.append_assoc] at spaced
    obtain _ | ⟨ha, spaced⟩ := spaced
    obtain ⟨y, z, rfl, hy, hz⟩ := spaced_append.mp spaced
    obtain ⟨c, t, d, rfl, hc, ht, hd⟩ := items hx (by omega) hy
    obtain ⟨e, m, last, b, rfl, he, hm, hl, hb⟩ := ih (by omega) hz
    exact ⟨_, ',' :: (c ++ (t ++ ((d ++ e) ++ m))), last, b, by simp, ha,
      .next hc ht (hd.append he) hm, hl, hb⟩

theorem argText_of_spaced {x : Option String × Phrase} {tokens : List Token} {text : List Char}
    {bound : Nat}
    (values : ∀ {p ts z}, Spelled p ts → ts.length < bound → Spaced ts z → Padded Written p z)
    (h : SpelledArg Spelled x tokens) (short : tokens.length < bound)
    (spaced : Spaced tokens text) : Padded (ArgText Written) x text := by
  cases h with
  | positional h =>
    obtain ⟨a, t, b, rfl, ha, ht, hb⟩ := values h short spaced
    exact ⟨a, t, b, rfl, ha, .positional ht, hb⟩
  | keyword word h =>
    simp only [List.length_cons] at short
    obtain _ | ⟨ha, _ | ⟨hb, spaced⟩⟩ := spaced
    obtain ⟨c, t, d, rfl, hc, ht, hd⟩ := values h (by omega) spaced
    exact ⟨_, _, d, by simp, ha, .keyword word hb hc ht, hd⟩

theorem argsText_of_spaced {args : List (Option String × Phrase)} {tokens : List Token}
    {text : List Char} {bound : Nat}
    (values : ∀ {p ts z}, Spelled p ts → ts.length < bound → Spaced ts z → Padded Written p z)
    (h : SpelledArgs Spelled args tokens) (short : tokens.length < bound)
    (spaced : Spaced (tokens ++ [[')']]) text) :
    ∃ a t b, text = a ++ (t ++ ')' :: b) ∧ Blanks a ∧ ArgsText Written args t ∧ Blanks b := by
  cases h with
  | none =>
    obtain ⟨a, b, rfl, ha, hb⟩ := spaced_singleton spaced
    exact ⟨a, [], b, rfl, ha, .none, hb⟩
  | some comma hx hm =>
    simp only [List.length_append] at short
    simp only [List.append_assoc] at spaced
    obtain ⟨y, z, rfl, hy, hz⟩ := spaced_append.mp spaced
    obtain ⟨a, t, c, rfl, ha, ht, hc⟩ := argText_of_spaced values hx (by omega) hy
    obtain ⟨d, m, last, b, rfl, hd, hm, hl, hb⟩ :=
      more_of_spaced hm (argText_of_spaced values) (by omega) hz
    exact ⟨a, t ++ ((c ++ d) ++ (m ++ last)), b, by simp, ha, .some ht (hc.append hd) hm hl, hb⟩

/-- A text of the tokens of a phrase is a written form with blanks around it. The induction is on a
bound of the number of tokens: what stands between parentheses has fewer. -/
theorem written_of_spelled (bound : Nat) {p : Phrase} {tokens : List Token} {text : List Char}
    (h : Spelled p tokens) (short : tokens.length < bound) (spaced : Spaced tokens text) :
    Padded Written p text := by
  induction bound generalizing p tokens text with
  | zero => exact absurd short (Nat.not_lt_zero _)
  | succ bound ih =>
    cases h with
    | negInfinity => exact padded_token spaced (.literal .negInfinity)
    | number h => exact padded_token spaced (.literal (.number (numeral_iff.mp h)))
    | string h => exact padded_token spaced (.literal (.string h))
    | bytes h => exact padded_token spaced (.literal (.bytes h))
    | constant h => exact padded_token spaced (.constant h)
    | call word h =>
      simp only [List.length_cons, List.length_append] at short
      obtain _ | ⟨ha, _ | ⟨hb, spaced⟩⟩ := spaced
      obtain ⟨c, t, d, rfl, hc, ht, hd⟩ := argsText_of_spaced ih h (by omega) spaced
      exact ⟨_, _, d, by simp, ha, .call word hb hc ht, hd⟩
    | unit =>
      obtain _ | ⟨ha, spaced⟩ := spaced
      obtain ⟨c, d, rfl, hc, hd⟩ := spaced_singleton spaced
      exact ⟨_, _, d, by simp, ha, .unit hc, hd⟩
    | group h =>
      simp only [List.length_cons, List.length_append] at short
      obtain _ | ⟨ha, spaced⟩ := spaced
      obtain ⟨y, z, rfl, hy, hz⟩ := spaced_append.mp spaced
      obtain ⟨c, t, d, rfl, hc, ht, hd⟩ := ih h (by omega) hy
      obtain ⟨e, b, rfl, he, hb⟩ := spaced_singleton hz
      exact ⟨_, _, b, by simp, ha, .group hc ht (hd.append he), hb⟩
    | tuple comma h hm some =>
      simp only [List.length_cons, List.length_append] at short
      obtain _ | ⟨ha, spaced⟩ := spaced
      obtain ⟨y, z, rfl, hy, hz⟩ := spaced_append.mp spaced
      obtain ⟨c, t, d, rfl, hc, ht, hd⟩ := ih h (by omega) hy
      obtain ⟨e, m, last, b, rfl, he, hm, hl, hb⟩ := more_of_spaced hm ih (by omega) hz
      exact ⟨_, _, b, by simp, ha, .tuple hc ht (hd.append he) hm hl some, hb⟩

end Arbor.Phrase
