import Arbor.Proofs.Phrase.Written

/-!
# Reading written phrases

The reader reads every written form of a phrase as that phrase (`readValue_written`,
`read?_written`). It commits to the first alternative that succeeds, so for every production the
alternatives before it have to fail: no word starts a literal, no positional argument starts like
one with a keyword.
-/

namespace Arbor.Phrase

open Text

/-! ## Numbers -/

/-- The characters that a number could go on with. -/
def numberPart (c : Char) : Bool := isDigit c || c == '.' || c == 'e' || c == 'E'

theorem Ends.mono {p q : Char → Bool} {rest : List Char} (h : Ends q rest)
    (le : ∀ c, p c = true → q c = true) : Ends p rest := by
  intro c hc
  rw [Bool.eq_false_iff]
  intro holds
  have := le c holds
  rw [h c hc] at this
  cases this

theorem numberPart_ends_digit {rest : List Char} (h : Ends numberPart rest) : Ends isDigit rest :=
  h.mono fun c hc => by simp [numberPart, hc]

theorem FractionText.ends {fraction : Option (List Char)} {text rest : List Char}
    (h : FractionText fraction text) {p : Char → Bool} (dot : p '.' = false)
    (ends : Ends p rest) : Ends p (text ++ rest) := by
  cases h with
  | none => exact ends
  | some _ => exact Ends.cons dot _

theorem ExponentText.ends {exponent : Option Int} {text rest : List Char}
    (h : ExponentText exponent text) {p : Char → Bool} (small : p 'e' = false)
    (large : p 'E' = false) (ends : Ends p rest) : Ends p (text ++ rest) := by
  cases h with
  | none => exact ends
  | some letter _ _ =>
    rcases letter with rfl | rfl
    · exact Ends.cons small _
    · exact Ends.cons large _

theorem readDigits_append {digits rest : List Char} (h : Digits digits)
    (ends : Ends isDigit rest) : readDigits (digits ++ rest) = some (digits, rest) := by
  have nonempty : digits.isEmpty = false := by simpa using h.nonempty
  simp [readDigits, takeWhile_run h.digits ends, dropWhile_run h.digits ends, nonempty]

theorem readDigits_of_ends {rest : List Char} (ends : Ends isDigit rest) :
    readDigits rest = none := by
  have := @takeWhile_run isDigit [] rest (by simp) ends
  rw [List.nil_append] at this
  simp [readDigits, this]

theorem readFraction_append {fraction : Option (List Char)} {text rest : List Char}
    (h : FractionText fraction text) (ends : Ends isDigit rest) (dot : Ends (· == '.') rest) :
    readFraction (text ++ rest) = (fraction, rest) := by
  cases h with
  | none =>
    rw [List.nil_append, readFraction]
    rintro tail rfl
    simpa using dot '.' rfl
  | some digits =>
    rw [List.cons_append, readFraction, readDigits_append digits ends]

theorem readSign_append {negative : Bool} {sign digits : List Char} (h : SignText negative sign)
    (hd : Digits digits) (rest : List Char) :
    readSign (sign ++ (digits ++ rest)) = (negative, digits ++ rest) := by
  cases h with
  | none =>
    obtain ⟨c, tail, rfl, hc⟩ := hd.cons
    have bounds := isDigit_bounds hc
    rw [List.nil_append, List.cons_append]
    unfold readSign
    split
    · rename_i heq
      cases heq
      simp at bounds
    · rename_i heq
      cases heq
      simp at bounds
    · rfl
  | plus => rfl
  | minus => rfl

theorem readExponent_append {exponent : Option Int} {text rest : List Char}
    (h : ExponentText exponent text) (ends : Ends isDigit rest)
    (letter : Ends (fun c => c == 'e' || c == 'E') rest) :
    readExponent (text ++ rest) = (exponent, rest) := by
  cases h with
  | none =>
    cases rest with
    | nil => rfl
    | cons c tail =>
      have other : ¬ (c = 'e' ∨ c = 'E') := by simpa using letter c rfl
      rw [List.nil_append, readExponent, if_neg other]
  | some letter sign digits =>
    rw [List.cons_append, List.append_assoc, readExponent, if_pos letter,
      readSign_append sign digits]
    simp only [readDigits_append digits ends]

theorem readNumber_append {p : Prim} {text rest : List Char} (h : NumberText p text)
    (ends : Ends numberPart rest) : readNumber (text ++ rest) = some (p, rest) := by
  obtain @⟨negative, whole, fractionText, exponentText, _, _, _, digits, fraction, exponent,
    value⟩ := h
  have unsigned : readUnsigned negative (whole ++ (fractionText ++ (exponentText ++ rest))) =
      some (p, rest) := by
    have afterExponent := numberPart_ends_digit ends
    have afterFraction := exponent.ends (p := isDigit) rfl rfl afterExponent
    have dot := exponent.ends (p := (· == '.')) rfl rfl (ends.mono fun c hc => by
      simp [numberPart, beq_iff_eq.mp hc])
    have letter : Ends (fun c => c == 'e' || c == 'E') rest := ends.mono fun c hc => by
      simp only [numberPart, Bool.or_assoc]
      simp [hc]
    rw [readUnsigned, readDigits_append digits (fraction.ends rfl afterFraction)]
    simp only [readFraction_append fraction afterFraction dot,
      readExponent_append exponent afterExponent letter, value, Option.map_some]
  cases negative with
  | true => simpa [readNumber] using unsigned
  | false =>
    obtain ⟨c, tail, rfl, hc⟩ := digits.cons
    have bounds := isDigit_bounds hc
    have minus : c ≠ '-' := by
      rintro rfl
      simp at bounds
    simp only [Bool.false_eq_true, if_false, List.nil_append, List.append_assoc, List.cons_append]
    rw [readNumber.eq_2]
    · exact unsigned
    · intro rest heq
      exact minus (List.cons.inj heq).1

/-! ## Literals and words -/

theorem NumberText.cases_head {p : Prim} {text : List Char} (h : NumberText p text) :
    ∃ c rest, isDigit c = true ∧ (text = c :: rest ∨ text = '-' :: c :: rest) := by
  obtain @⟨negative, _, fractionText, exponentText, _, _, _, digits, -, -, -⟩ := h
  obtain ⟨c, tail, rfl, hc⟩ := digits.cons
  refine ⟨c, tail ++ (fractionText ++ exponentText), hc, ?_⟩
  cases negative with
  | false => exact .inl rfl
  | true => exact .inr rfl

theorem readLiteral_append {p : Prim} {text rest : List Char} (h : LiteralText p text)
    (ends : Ends numberPart rest) : readLiteral (text ++ rest) = some (p, rest) := by
  cases h with
  | negInfinity => rfl
  | number h =>
    have reads := readNumber_append h ends
    obtain ⟨c, tail, hc, heq⟩ := h.cases_head
    have bounds := isDigit_bounds hc
    have other {d : Char} (hd : d.toNat < 48 ∨ 57 < d.toNat) : c ≠ d := by
      rintro rfl
      omega
    rw [← reads]
    apply readLiteral.eq_4
    · intro rest' heq'
      rcases heq with rfl | rfl
      · exact other (by decide) (List.cons.inj heq').1
      · exact other (by decide) (List.cons.inj (List.cons.inj heq').2).1
    · intro rest' heq'
      rcases heq with rfl | rfl
      · exact other (by decide) (List.cons.inj heq').1
      · simp at heq'
    · intro rest' heq'
      rcases heq with rfl | rfl
      · exact other (by decide) (List.cons.inj heq').1
      · simp at heq'
  | string h => simp [readLiteral, readString_body h]
  | bytes h => simp [readLiteral, readBytes_body h]

theorem readLiteral_word {word rest : List Char} (h : isWord word = true)
    (quote : Ends (· == '\x22') rest) : readLiteral (word ++ rest) = none := by
  obtain ⟨c, tail, rfl, hc, ht⟩ := isWord_cons h
  have bounds := isWordStart_bounds hc
  have other {d : Char} (hd : d.toNat < 65) : c ≠ d := by
    rintro rfl
    omega
  have next : Ends (· == '\x22') (tail ++ rest) := by
    cases tail with
    | nil => exact quote
    | cons d tail =>
      apply Ends.cons
      rw [beq_eq_false_iff_ne]
      rintro rfl
      exact absurd (ht _ List.mem_cons_self) (by decide)
  rw [List.cons_append, readLiteral.eq_4, readNumber.eq_2, readUnsigned, readDigits_of_ends]
  · apply Ends.cons
    rw [Bool.eq_false_iff]
    intro digit
    have := isDigit_bounds digit
    omega
  · exact fun _ heq => other (by decide) (List.cons.inj heq).1
  · exact fun _ heq => other (by decide) (List.cons.inj heq).1
  · exact fun _ heq => other (by decide) (List.cons.inj heq).1
  · intro rest' heq
    rw [(List.cons.inj heq).2] at next
    simpa using next '\x22' rfl

theorem readLiteral_symbol {c : Char} (symbol : c = '(' ∨ c = ')') (rest : List Char) :
    readLiteral (c :: rest) = none := by
  have digit : isDigit c = false := by rcases symbol with rfl | rfl <;> rfl
  have stuck := readDigits_of_ends (Ends.cons digit rest)
  rcases symbol with rfl | rfl <;> simp [readLiteral, readNumber, readUnsigned, stuck]

theorem readWord_append {word rest : List Char} (h : isWord word = true)
    (ends : Ends isWordRest rest) : readWord (word ++ rest) = some (word, rest) := by
  obtain ⟨c, tail, rfl, hc, ht⟩ := isWord_cons h
  simp [readWord, hc, takeWhile_run ht ends, dropWhile_run ht ends]

theorem readWord_eq_none {c : Char} (h : isWordStart c = false) (rest : List Char) :
    readWord (c :: rest) = none := by
  simp [readWord, h]

theorem keyword?_constant {p : Phrase} {text : List Char} (h : ConstantText p text) :
    keyword? text = some p := by
  cases h <;> rfl

theorem readPadded_append (symbol : Char) {a : List Char} (ha : Blanks a)
    (solid : isBlank symbol = false) (rest : List Char) :
    readPadded symbol (a ++ symbol :: rest) = some ((), skipBlanks rest) := by
  simp [readPadded, skipBlanks_append ha (Ends.cons solid rest), readSymbol]

theorem readPadded_eq_none {symbol : Char} {text : List Char}
    (h : Ends (· == symbol) (skipBlanks text)) : readPadded symbol text = none := by
  unfold readPadded
  cases skipped : skipBlanks text with
  | nil => rfl
  | cons c rest =>
    rw [skipped] at h
    have : c ≠ symbol := by simpa using h c rfl
    simp [readSymbol, this]

/-! ## Lists -/

/-- The reader reads the texts of items that are shorter than a bound, up to blanks after them. -/
def Reads {α : Type} (read : Reader α) (item : α → List Char → Prop) (bound : Nat) : Prop :=
  ∀ {x text rest}, item x text → text.length < bound → Stops rest →
    ∃ after, read (text ++ rest) = some (x, after) ∧ skipBlanks after = skipBlanks rest

/-- The text goes on with a comma or a closing parenthesis. -/
def Closes (text : List Char) : Prop := ∃ c rest, text = c :: rest ∧ (c = ',' ∨ c = ')')

theorem Closes.ends {text : List Char} (h : Closes text) : Ends isBlank text := by
  obtain ⟨c, rest, rfl, rfl | rfl⟩ := h
  · exact Ends.cons rfl rest
  · exact Ends.cons rfl rest

theorem Closes.stops {text : List Char} (h : Closes text) {b : List Char} (hb : Blanks b) :
    Stops (b ++ text) := by
  intro c hc
  rw [skipBlanks_append hb h.ends] at hc
  obtain ⟨d, rest, rfl, hd⟩ := h
  rwa [← Option.some.inj hc]

theorem FinalComma.closes {comma : Bool} {last : List Char} (h : FinalComma comma last)
    (tail : List Char) : Closes (last ++ ')' :: tail) := by
  cases h with
  | none => exact ⟨')', tail, rfl, .inr rfl⟩
  | @some a _ => exact ⟨',', a ++ ')' :: tail, rfl, .inl rfl⟩

theorem More.closes {α : Type} {item : α → List Char → Prop} {xs : List α} {more : List Char}
    (h : More item xs more) {rest : List Char} (closes : Closes rest) : Closes (more ++ rest) := by
  cases h with
  | done => exact closes
  | next _ _ _ _ => exact ⟨',', _, rfl, .inl rfl⟩

theorem padded_append {α : Type} {read : Reader α} {x : α} {a text rest after : List Char}
    (ha : Blanks a) (begins : Begins text) (reads : read (text ++ rest) = some (x, after)) :
    padded read (a ++ (text ++ rest)) = some (x, skipBlanks after) := by
  rw [padded, skipBlanks_append ha (begins.append rest).ends, reads]
  rfl

theorem padded_closing {α : Type} {read : Reader α} {a tail : List Char} (ha : Blanks a)
    (stuck : read (')' :: tail) = none) : padded read (a ++ ')' :: tail) = none := by
  rw [padded, skipBlanks_append ha (Ends.cons rfl tail), stuck]
  rfl

section

variable {α : Type} {read : Reader α} {item : α → List Char → Prop} {bound : Nat}

theorem padded_item (reads : Reads read item bound) {x : α} {a text b rest : List Char}
    (ha : Blanks a) (h : item x text) (begins : Begins text) (short : text.length < bound)
    (hb : Blanks b) (closes : Closes rest) :
    padded read (a ++ (text ++ (b ++ rest))) = some (x, rest) := by
  obtain ⟨after, result, skipped⟩ := reads h short (closes.stops hb)
  rw [padded_append ha begins result, skipped, skipBlanks_append hb closes.ends]

theorem readMore_append (reads : Reads read item bound)
    (begins : ∀ {x text}, item x text → Begins text) (stuck : ∀ tail, read (')' :: tail) = none)
    {xs : List α} {more last : List Char} {comma : Bool} (h : More item xs more)
    (hl : FinalComma comma last) (short : more.length ≤ bound) {fuel : Nat}
    (enough : more.length + last.length ≤ fuel) (final : Bool) (tail : List Char) :
    readMore (padded read) final fuel (more ++ (last ++ ')' :: tail)) =
      (xs, (if final then last.drop 1 else last) ++ ')' :: tail) := by
  induction h generalizing fuel with
  | done =>
    cases hl with
    | none => cases fuel <;> cases final <;> rfl
    | some ha =>
      obtain ⟨fuel, rfl⟩ : ∃ k, fuel = k + 1 := Nat.exists_eq_succ_of_ne_zero (by
        simp only [List.length_cons] at enough
        omega)
      have nothing := padded_closing ha (stuck tail)
      cases final <;> simp [readMore, nothing]
  | @next x xs a text b more ha hx hb hm ih =>
    simp only [List.length_cons, List.length_append] at short enough
    obtain ⟨fuel, rfl⟩ : ∃ k, fuel = k + 1 := Nat.exists_eq_succ_of_ne_zero (by omega)
    have closes : Closes (more ++ (last ++ ')' :: tail)) := hm.closes (hl.closes tail)
    have first := padded_item reads ha hx (begins hx) (by omega) hb closes
    simp only [List.cons_append, List.append_assoc, readMore, first]
    rw [ih (by omega) (by omega)]

end

/-! ## Arguments -/

theorem stops_numberPart {rest : List Char} (h : Stops rest) : Ends numberPart rest := by
  refine h.ends (fun c hc => ?_) rfl rfl
  have outside := blanks_outside hc
  rw [Bool.eq_false_iff]
  intro part
  simp only [numberPart, Bool.or_eq_true, beq_iff_eq] at part
  rcases part with ((digit | rfl) | rfl) | rfl
  · have := isDigit_bounds digit
    omega
  · exact absurd outside (by decide)
  · exact absurd outside (by decide)
  · exact absurd outside (by decide)

theorem isWordRest_blank {c : Char} (hc : isBlank c = true) : isWordRest c = false := by
  have outside := blanks_outside hc
  rw [Bool.eq_false_iff]
  intro rest
  rw [isWordRest, Bool.or_eq_true] at rest
  rcases rest with start | digit
  · have := isWordStart_bounds start
    omega
  · have := isDigit_bounds digit
    omega

theorem quote_blank {c : Char} (hc : isBlank c = true) : (c == '\x22') = false := by
  rw [beq_eq_false_iff_ne]
  rintro rfl
  exact absurd (blanks_outside hc) (by decide)

theorem Blanks.ends {p : Char → Bool} {a rest : List Char} (ha : Blanks a)
    (blank : ∀ c, isBlank c = true → p c = false) (ends : Ends p rest) : Ends p (a ++ rest) := by
  cases a with
  | nil => exact ends
  | cons c a => exact Ends.cons (blank c (ha c List.mem_cons_self)) _

theorem Stops.word_ends {rest : List Char} (h : Stops rest) : Ends isWordRest rest :=
  h.ends (fun _ => isWordRest_blank) rfl rfl

theorem Stops.readPadded {rest : List Char} (h : Stops rest) {symbol : Char}
    (comma : symbol ≠ ',') (closing : symbol ≠ ')') : readPadded symbol rest = none := by
  apply readPadded_eq_none
  intro c hc
  rw [beq_eq_false_iff_ne]
  rcases h c hc with rfl | rfl
  · exact comma.symm
  · exact closing.symm

/-- No positional argument is taken for one with a keyword. -/
theorem readKeywordArg_written {p : Phrase} {text rest : List Char} (value : Reader Phrase)
    (h : Written p text) (stops : Stops rest) : readKeywordArg value (text ++ rest) = none := by
  have noWord {c : Char} (hc : isWordStart c = false) (tail : List Char) :
      readKeywordArg value (c :: tail) = none := by
    simp [readKeywordArg, readWord_eq_none hc]
  have noSign {word tail : List Char} (hw : isWord word = true) (ends : Ends isWordRest tail)
      (sign : readPadded '=' tail = none) : readKeywordArg value (word ++ tail) = none := by
    simp [readKeywordArg, readWord_append hw ends, sign]
  cases h with
  | literal h =>
    cases h with
    | negInfinity => exact noWord rfl _
    | number h =>
      obtain ⟨c, tail, hc, rfl | rfl⟩ := h.cases_head
      · apply noWord
        rw [Bool.eq_false_iff]
        intro start
        have := isDigit_bounds hc
        have := isWordStart_bounds start
        omega
      · exact noWord rfl _
    | string _ => exact noWord rfl _
    | @bytes _ body _ =>
      have sign : readPadded '=' ('\x22' :: (body ++ ['\x22'] ++ rest)) = none := by
        apply readPadded_eq_none
        rw [skipBlanks_of_ends (Ends.cons rfl _)]
        exact Ends.cons rfl _
      change readKeywordArg value (['b'] ++ '\x22' :: (body ++ ['\x22'] ++ rest)) = none
      exact noSign rfl (Ends.cons rfl _) sign
  | constant h => exact noSign h.isWord stops.word_ends (stops.readPadded (by decide) (by decide))
  | @call word a b text _ hw ha _ _ =>
    rw [List.append_assoc, List.append_assoc]
    apply noSign hw
    · exact ha.ends (fun _ => isWordRest_blank) (Ends.cons rfl _)
    · apply readPadded_eq_none
      rw [List.cons_append, skipBlanks_append ha (Ends.cons rfl _)]
      exact Ends.cons rfl _
  | unit _ => exact noWord rfl _
  | group _ _ _ => exact noWord rfl _
  | tuple _ _ _ _ _ _ => exact noWord rfl _

section

variable {value : Reader Phrase} {bound : Nat}

theorem reads_arg (reads : Reads value Written bound) :
    Reads (readArg value) (ArgText Written) bound := by
  intro x text rest h short stops
  cases h with
  | positional h =>
    obtain ⟨after, result, skipped⟩ := reads h short stops
    refine ⟨after, ?_, skipped⟩
    rw [readArg, readKeywordArg_written value h stops, result]
    rfl
  | @keyword p word a b text hw ha hb h =>
    simp only [List.length_append, List.length_cons] at short
    obtain ⟨after, result, skipped⟩ := reads h (by omega) stops
    refine ⟨after, ?_, skipped⟩
    have ends : Ends isWordRest (a ++ '=' :: (b ++ (text ++ rest))) :=
      ha.ends (fun _ => isWordRest_blank) (Ends.cons rfl _)
    have sign : readPadded '=' (a ++ '=' :: (b ++ (text ++ rest))) = some ((), text ++ rest) := by
      rw [readPadded_append '=' ha rfl, skipBlanks_append hb (h.begins.append rest).ends]
    simp [readArg, readKeywordArg, readWord_append hw ends, sign, result]

theorem readArg_closing (stuck : ∀ tail, value (')' :: tail) = none) (tail : List Char) :
    readArg value (')' :: tail) = none := by
  have noWord : readWord (')' :: tail) = none := readWord_eq_none rfl tail
  simp [readArg, readKeywordArg, noWord, stuck]

theorem readArgs_append (reads : Reads value Written bound)
    (stuck : ∀ tail, value (')' :: tail) = none) {args : List (Option String × Phrase)}
    {a b text : List Char} (ha : Blanks a) (hb : Blanks b) (h : ArgsText Written args text)
    (short : text.length < bound) (rest : List Char) :
    readArgs value (a ++ '(' :: (b ++ (text ++ ')' :: rest))) = some (args, skipBlanks rest) := by
  have opened := readPadded_append '(' ha rfl (b ++ (text ++ ')' :: rest))
  have closed (last : List Char) (hl : Blanks last) :
      readPadded ')' (last ++ ')' :: rest) = some ((), skipBlanks rest) :=
    readPadded_append ')' hl rfl rest
  cases h with
  | none =>
    have nothing := padded_closing (a := []) blanks_nil (readArg_closing stuck rest)
    have closing := closed [] blanks_nil
    rw [List.nil_append] at nothing closing
    rw [List.nil_append, skipBlanks_append hb (Ends.cons rfl rest)] at opened
    simp [readArgs, opened, nothing, closing]
  | @some x xs comma text b' more last hx hb' hm hl =>
    simp only [List.length_append] at short
    have closes : Closes (more ++ (last ++ ')' :: rest)) := hm.closes (hl.closes rest)
    have first :=
      padded_item (reads_arg reads) (a := []) blanks_nil hx hx.begins (by omega) hb' closes
    have enough : more.length + last.length ≤ (more ++ (last ++ ')' :: rest)).length := by simp
    have others := readMore_append (reads_arg reads) ArgText.begins (readArg_closing stuck) hm hl
      (by omega) enough true rest
    have closing := closed (last.drop 1) (by
      cases hl with
      | none => exact blanks_nil
      | some ha => exact ha)
    simp only [List.append_assoc] at opened
    rw [skipBlanks_append hb (hx.begins.append _).ends] at opened
    rw [List.nil_append] at first
    rw [if_pos rfl] at others
    simp only [readArgs, List.append_assoc, opened, Option.bind_eq_bind, Option.bind_some, first,
      others, closing]
    rfl

/-! ## Tuples -/

theorem readTuple_unit (stuck : ∀ tail, value (')' :: tail) = none) {a : List Char} (ha : Blanks a)
    (rest : List Char) :
    readTuple value ('(' :: (a ++ ')' :: rest)) = some (.tuple [], rest) := by
  have opened := readPadded_append '(' blanks_nil rfl (a ++ ')' :: rest)
  rw [List.nil_append, skipBlanks_append ha (Ends.cons rfl rest)] at opened
  have nothing := padded_closing (a := []) blanks_nil (stuck rest)
  rw [List.nil_append] at nothing
  simp [readTuple, opened, nothing, readSymbol]

theorem readTuple_items (reads : Reads value Written bound)
    (stuck : ∀ tail, value (')' :: tail) = none) {p : Phrase} {ps : List Phrase} {comma : Bool}
    {a text b more last : List Char} (ha : Blanks a) (h : Written p text) (hb : Blanks b)
    (hm : More Written ps more) (hl : FinalComma comma last)
    (short : text.length + more.length < bound) (rest : List Char) :
    readTuple value ('(' :: (a ++ (text ++ (b ++ (more ++ (last ++ ')' :: rest)))))) =
      some (if ps = [] ∧ comma = false then p else .tuple (p :: ps), rest) := by
  have opened := readPadded_append '(' blanks_nil rfl
    (a ++ (text ++ (b ++ (more ++ (last ++ ')' :: rest)))))
  rw [List.nil_append, skipBlanks_append ha (h.begins.append _).ends] at opened
  have closes : Closes (more ++ (last ++ ')' :: rest)) := hm.closes (hl.closes rest)
  have first := padded_item reads (a := []) blanks_nil h h.begins (by omega) hb closes
  rw [List.nil_append] at first
  have enough : more.length + last.length ≤ (more ++ (last ++ ')' :: rest)).length := by simp
  have others := readMore_append reads Written.begins stuck hm hl (by omega) enough false rest
  rw [if_neg Bool.false_ne_true] at others
  have final : readComma (last ++ ')' :: rest) = (comma, ')' :: rest) := by
    cases hl with
    | none =>
      rw [List.nil_append, readComma, readPadded_eq_none]
      rw [skipBlanks_of_ends (Ends.cons rfl rest)]
      exact Ends.cons rfl rest
    | @some c hc =>
      have read := readPadded_append ',' blanks_nil rfl (c ++ ')' :: rest)
      rw [List.nil_append, skipBlanks_append hc (Ends.cons rfl rest)] at read
      rw [List.cons_append, readComma, read]
  simp only [readTuple, opened, Option.bind_eq_bind, Option.bind_some, first, readItems, others,
    final]
  cases ps <;> cases comma <;> rfl

end

/-! ## Values -/

theorem readCall_symbol (value : Reader Phrase) {c : Char} (symbol : isWordStart c = false)
    (rest : List Char) : readCall value (c :: rest) = none := by
  rw [readCall, readWord_eq_none symbol]

theorem readValue_closing (bound : Nat) (tail : List Char) :
    readValue bound (')' :: tail) = none := by
  cases bound with
  | zero => rfl
  | succ bound =>
    have opened : readPadded '(' (')' :: tail) = none := by
      apply readPadded_eq_none
      rw [skipBlanks_of_ends (Ends.cons rfl tail)]
      exact Ends.cons rfl tail
    rw [readValue, readLiteral_symbol (.inr rfl), readCall_symbol _ rfl, readTuple, opened]
    rfl

theorem readValue_parens {bound : Nat} {rest : List Char} {result : Phrase × List Char}
    (h : readTuple (readValue bound) ('(' :: rest) = some result) :
    readValue (bound + 1) ('(' :: rest) = some result := by
  rw [readValue, readLiteral_symbol (.inl rfl), readCall_symbol _ rfl, h]

/-- Every written form of a phrase is read as it. The induction is on the bound of nesting: what
stands between parentheses is shorter than the whole. -/
theorem readValue_written (bound : Nat) : Reads (readValue bound) Written bound := by
  induction bound with
  | zero => exact fun _ short _ => absurd short (Nat.not_lt_zero _)
  | succ bound ih =>
    intro p text rest h short stops
    cases h with
    | literal h =>
      refine ⟨rest, ?_, rfl⟩
      rw [readValue, readLiteral_append h (stops_numberPart stops)]
    | constant h =>
      -- A constant is a word that no arguments follow.
      have args : readArgs (readValue bound) rest = none := by
        rw [readArgs, stops.readPadded (by decide) (by decide)]
        rfl
      have quote : Ends (· == '\x22') rest := stops.ends (fun _ => quote_blank) rfl rfl
      refine ⟨rest, ?_, rfl⟩
      rw [readValue, readLiteral_word h.isWord quote, readCall,
        readWord_append h.isWord stops.word_ends]
      simp only [args, keyword?_constant h, Option.map_some]
    | @call word a b text args hw ha hb h =>
      simp only [List.length_append, List.length_cons] at short
      simp only [List.append_assoc, List.cons_append, List.nil_append]
      have ends : Ends isWordRest (a ++ '(' :: (b ++ (text ++ ')' :: rest))) :=
        ha.ends (fun _ => isWordRest_blank) (Ends.cons rfl _)
      have quote : Ends (· == '\x22') (a ++ '(' :: (b ++ (text ++ ')' :: rest))) :=
        ha.ends (fun _ => quote_blank) (Ends.cons rfl _)
      refine ⟨skipBlanks rest, ?_, skipBlanks_skipBlanks rest⟩
      rw [readValue, readLiteral_word hw quote, readCall, readWord_append hw ends]
      simp only [readArgs_append ih (readValue_closing bound) ha hb h (by omega)]
    | @unit a ha =>
      refine ⟨rest, ?_, rfl⟩
      simpa using readValue_parens (readTuple_unit (readValue_closing bound) ha rest)
    | @group p a text b ha h hb =>
      simp only [List.length_append, List.length_cons] at short
      refine ⟨rest, ?_, rfl⟩
      have read := readTuple_items ih (readValue_closing bound) ha h hb .done .none
        (by simp; omega) rest
      simpa using readValue_parens read
    | @tuple p ps comma a text b more last ha h hb hm hl several =>
      simp only [List.length_append, List.length_cons] at short
      refine ⟨rest, ?_, rfl⟩
      have read := readTuple_items ih (readValue_closing bound) ha h hb hm hl (by omega) rest
      have items : ¬ (ps = [] ∧ comma = false) := by
        rintro ⟨rfl, rfl⟩
        simp at several
      rw [if_neg items] at read
      simpa using readValue_parens read

theorem read?_written {p : Phrase} {a text b : List Char} (ha : Blanks a) (h : Written p text)
    (hb : Blanks b) : read? (a ++ (text ++ b)) = some p := by
  have skipped : skipBlanks b = [] := by
    have nothing : Ends isBlank [] := fun c hc => by cases hc
    have := skipBlanks_append hb nothing
    rwa [List.append_nil] at this
  have stops : Stops b := by
    intro c hc
    rw [skipped] at hc
    cases hc
  obtain ⟨after, read, rest⟩ := readValue_written ((a ++ (text ++ b)).length + 1) h
    (by simp only [List.length_append]; omega) stops
  rw [read?, skipBlanks_append ha (h.begins.append b).ends, read]
  simp [rest, skipped]

end Arbor.Phrase
