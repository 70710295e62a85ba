import Arbor.Proofs.Phrase.Reading
import Arbor.Proofs.Phrase.Spelling

/-!
# What the reader accepts

A reader takes the beginning of a text and leaves the rest. `Takes text tokens rest` says that what
it took consists of the given tokens, up to blanks, and `Accepts` that the tokens are always a way
to write what the reader returns. Every reader has a lemma of this form; together with
`read?_written` this gives that a text is read as a phrase if and only if it consists of tokens of
the phrase.
-/

namespace Arbor.Phrase

open Text

/-! ## Taking tokens -/

def Takes (text : List Char) (tokens : List Token) (rest : List Char) : Prop :=
  ∃ taken, text = taken ++ rest ∧ Spaced tokens taken

theorem takes_token (token : Token) (rest : List Char) : Takes (token ++ rest) [token] rest := by
  have spaced : Spaced [token] ([] ++ (token ++ [])) := .cons blanks_nil (.nil blanks_nil)
  exact ⟨token, rfl, by simpa using spaced⟩

theorem takes_nothing (text : List Char) : Takes text [] text :=
  ⟨[], rfl, .nil blanks_nil⟩

theorem Takes.trans {text mid rest : List Char} {ts us : List Token} (h : Takes text ts mid)
    (h' : Takes mid us rest) : Takes text (ts ++ us) rest := by
  obtain ⟨x, rfl, hx⟩ := h
  obtain ⟨y, rfl, hy⟩ := h'
  exact ⟨x ++ y, (List.append_assoc x y rest).symm, spaced_append.mpr ⟨x, y, rfl, hx, hy⟩⟩

theorem takes_blanks (text : List Char) : Takes text [] (skipBlanks text) := by
  refine ⟨text.takeWhile isBlank, List.takeWhile_append_dropWhile.symm, .nil ?_⟩
  exact List.all_eq_true.mp List.all_takeWhile

theorem Takes.blanksBefore {text rest : List Char} {tokens : List Token}
    (h : Takes (skipBlanks text) tokens rest) : Takes text tokens rest :=
  (takes_blanks text).trans h

theorem Takes.blanksAfter {text rest : List Char} {tokens : List Token}
    (h : Takes text tokens rest) : Takes text tokens (skipBlanks rest) := by
  simpa using h.trans (takes_blanks rest)

theorem takes_word {text word rest : List Char} (h : readWord text = some (word, rest)) :
    isWord word = true ∧ Takes text [word] rest := by
  cases text with
  | nil => cases h
  | cons c text =>
    rw [readWord] at h
    split at h
    · rename_i start
      cases h
      constructor
      · rw [isWord, start, Bool.true_and]
        exact List.all_takeWhile
      · have := takes_token (c :: text.takeWhile isWordRest) (text.dropWhile isWordRest)
        rwa [List.cons_append, List.takeWhile_append_dropWhile] at this
    · cases h

theorem takes_symbol {symbol : Char} {text rest : List Char} {u : Unit}
    (h : readSymbol symbol text = some (u, rest)) : Takes text [[symbol]] rest := by
  cases text with
  | nil => cases h
  | cons c text =>
    rw [readSymbol] at h
    split at h
    · rename_i same
      cases h
      exact same ▸ takes_token [c] _
    · cases h

theorem takes_padded {symbol : Char} {text rest : List Char} {u : Unit}
    (h : readPadded symbol text = some (u, rest)) : Takes text [[symbol]] rest := by
  obtain ⟨⟨_, after⟩, read, result⟩ := Option.map_eq_some_iff.mp h
  cases result
  exact (takes_symbol read).blanksBefore.blanksAfter

/-! ## Literals -/

theorem digits_of_readDigits {text digits rest : List Char}
    (h : readDigits text = some (digits, rest)) : text = digits ++ rest ∧ Digits digits := by
  rw [readDigits] at h
  split at h
  · cases h
  · rename_i nonempty
    cases h
    refine ⟨List.takeWhile_append_dropWhile.symm, by simpa using nonempty, ?_⟩
    exact List.all_eq_true.mp List.all_takeWhile

theorem fraction_of_readFraction {text rest : List Char} {fraction : Option (List Char)}
    (h : readFraction text = (fraction, rest)) :
    ∃ t, text = t ++ rest ∧ FractionText fraction t := by
  unfold readFraction at h
  split at h
  · split at h
    · rename_i read
      cases h
      obtain ⟨rfl, digits⟩ := digits_of_readDigits read
      exact ⟨_, rfl, .some digits⟩
    · cases h
      exact ⟨[], rfl, .none⟩
  · cases h
    exact ⟨[], rfl, .none⟩

theorem sign_of_readSign {text rest : List Char} {negative : Bool}
    (h : readSign text = (negative, rest)) :
    ∃ sign, text = sign ++ rest ∧ SignText negative sign := by
  unfold readSign at h
  split at h
  · cases h
    exact ⟨['-'], rfl, .minus⟩
  · cases h
    exact ⟨['+'], rfl, .plus⟩
  · cases h
    exact ⟨[], rfl, .none⟩

theorem exponent_of_readExponent {text rest : List Char} {exponent : Option Int}
    (h : readExponent text = (exponent, rest)) :
    ∃ t, text = t ++ rest ∧ ExponentText exponent t := by
  cases text with
  | nil =>
    cases h
    exact ⟨[], rfl, .none⟩
  | cons c text =>
    rcases signed : readSign text with ⟨negative, unsigned⟩
    obtain ⟨sign, rfl, signText⟩ := sign_of_readSign signed
    simp only [readExponent, signed] at h
    split at h
    · rename_i letter
      split at h
      · rename_i read
        cases h
        obtain ⟨rfl, digits⟩ := digits_of_readDigits read
        exact ⟨_, by simp, .some letter signText digits⟩
      · cases h
        exact ⟨[], rfl, .none⟩
    · cases h
      exact ⟨[], rfl, .none⟩

theorem number_of_readUnsigned {negative : Bool} {text rest : List Char} {p : Prim}
    (h : readUnsigned negative text = some (p, rest)) :
    ∃ t, text = t ++ rest ∧ NumberText p ((if negative then ['-'] else []) ++ t) := by
  cases read : readDigits text with
  | none => simp [readUnsigned, read] at h
  | some result =>
    obtain ⟨whole, afterWhole⟩ := result
    rcases readsFraction : readFraction afterWhole with ⟨fraction, afterFraction⟩
    rcases readsExponent : readExponent afterFraction with ⟨exponent, afterExponent⟩
    simp only [readUnsigned, read, readsFraction, readsExponent] at h
    obtain ⟨q, number, result⟩ := Option.map_eq_some_iff.mp h
    cases result
    obtain ⟨rfl, digits⟩ := digits_of_readDigits read
    obtain ⟨ft, rfl, fractionText⟩ := fraction_of_readFraction readsFraction
    obtain ⟨et, rfl, exponentText⟩ := exponent_of_readExponent readsExponent
    exact ⟨whole ++ (ft ++ et), by simp, .mk digits fractionText exponentText number⟩

theorem number_of_readNumber {text rest : List Char} {p : Prim}
    (h : readNumber text = some (p, rest)) : ∃ t, text = t ++ rest ∧ NumberText p t := by
  unfold readNumber at h
  split at h
  · obtain ⟨t, rfl, number⟩ := number_of_readUnsigned h
    exact ⟨_, rfl, number⟩
  · exact number_of_readUnsigned h

theorem spelled_of_readLiteral {text rest : List Char} {p : Prim}
    (h : readLiteral text = some (p, rest)) :
    ∃ token, text = token ++ rest ∧ Spelled (.literal p) [token] := by
  unfold readLiteral at h
  split at h
  · cases h
    exact ⟨_, rfl, .negInfinity⟩
  · obtain ⟨⟨s, after⟩, read, result⟩ := Option.map_eq_some_iff.mp h
    cases result
    obtain ⟨body, rfl, written⟩ := body_of_readString read
    exact ⟨_, by simp, .string written⟩
  · obtain ⟨⟨bs, after⟩, read, result⟩ := Option.map_eq_some_iff.mp h
    cases result
    obtain ⟨body, rfl, written⟩ := body_of_readBytes read
    exact ⟨_, by simp, .bytes written⟩
  · obtain ⟨t, rfl, number⟩ := number_of_readNumber h
    exact ⟨t, rfl, .number (numeral_iff.mpr number)⟩

theorem constant_of_keyword? {word : List Char} {p : Phrase} (h : keyword? word = some p) :
    ConstantText p word := by
  unfold keyword? at h
  split at h
  · rename_i same
    cases h
    exact same ▸ .absent
  split at h
  · rename_i same
    cases h
    exact same ▸ .yes
  split at h
  · rename_i same
    cases h
    exact same ▸ .no
  split at h
  · rename_i same
    cases h
    exact same ▸ .infinity
  split at h
  · rename_i same
    cases h
    exact same ▸ .nan
  · cases h

/-! ## Lists -/

/-- The reader takes tokens of what it returns. -/
def Accepts {α : Type} (read : Reader α) (item : α → List Token → Prop) : Prop :=
  ∀ ⦃text x rest⦄, read text = some (x, rest) → ∃ tokens, item x tokens ∧ Takes text tokens rest

section

variable {α : Type} {read : Reader α} {item : α → List Token → Prop}

theorem Accepts.padded (accepts : Accepts read item) : Accepts (padded read) item := by
  intro text x rest h
  obtain ⟨⟨_, after⟩, result, same⟩ := Option.map_eq_some_iff.mp h
  cases same
  obtain ⟨tokens, spelled, takes⟩ := accepts result
  exact ⟨tokens, spelled, takes.blanksBefore.blanksAfter⟩

/-- The items are read to the last comma that one follows; a final comma is taken only on demand. -/
theorem Accepts.readMore (accepts : Accepts read item) {final : Bool} {bound : Nat}
    {text rest : List Char} {xs : List α} (h : readMore read final bound text = (xs, rest)) :
    ∃ more comma, Further item xs more ∧ (comma = true → final = true) ∧
      Takes text (more ++ trailing comma) rest := by
  induction bound generalizing text xs with
  | zero =>
    cases h
    exact ⟨[], false, .done, nofun, takes_nothing _⟩
  | succ bound ih =>
    unfold Phrase.readMore at h
    split at h
    · rename_i tail
      have takesComma := takes_token [','] tail
      split at h
      · rename_i x after result
        cases h
        obtain ⟨tokens, spelled, takes⟩ := accepts result
        obtain ⟨more, comma, further, onDemand, takesMore⟩ := ih rfl
        refine ⟨_, comma, .next spelled further, onDemand, ?_⟩
        simpa using (takesComma.trans takes).trans takesMore
      · cases final with
        | true =>
          cases h
          exact ⟨[], true, .done, fun _ => rfl, takesComma⟩
        | false =>
          cases h
          exact ⟨[], false, .done, nofun, takes_nothing _⟩
    · cases h
      exact ⟨[], false, .done, nofun, takes_nothing _⟩

end

/-! ## Arguments and items -/

section

variable {value : Reader Phrase}

theorem accepts_readArg (accepts : Accepts value Spelled) :
    Accepts (readArg value) (SpelledArg Spelled) := by
  intro text x rest h
  unfold readArg at h
  split at h
  · rename_i result keyword
    cases h
    simp only [readKeywordArg, Option.bind_eq_bind, Option.bind_eq_some_iff, Prod.exists] at keyword
    obtain ⟨word, _, readsWord, _, _, readsSign, p, _, readsValue, result⟩ := keyword
    cases result
    obtain ⟨isWord, takesWord⟩ := takes_word readsWord
    obtain ⟨tokens, spelled, takes⟩ := accepts readsValue
    exact ⟨_, .keyword isWord spelled, (takesWord.trans (takes_padded readsSign)).trans takes⟩
  · obtain ⟨⟨p, after⟩, result, same⟩ := Option.map_eq_some_iff.mp h
    cases same
    obtain ⟨tokens, spelled, takes⟩ := accepts result
    exact ⟨tokens, .positional spelled, takes⟩

theorem accepts_readArgs (accepts : Accepts value Spelled) :
    Accepts (readArgs value) fun args tokens =>
      ∃ inner, SpelledArgs Spelled args inner ∧ tokens = ['('] :: (inner ++ [[')']]) := by
  intro text args rest h
  simp only [readArgs, Option.bind_eq_bind, Option.bind_eq_some_iff, Prod.exists] at h
  obtain ⟨_, opened, readsOpen, h⟩ := h
  cases readsFirst : padded (readArg value) opened with
  | none =>
    simp only [readsFirst] at h
    obtain ⟨_, _, readsClose, result⟩ := h
    cases result
    exact ⟨_, ⟨[], .none, rfl⟩, (takes_padded readsOpen).trans (takes_padded readsClose)⟩
  | some result =>
    obtain ⟨first, after⟩ := result
    rcases readsMore : readMore (padded (readArg value)) true after.length after with ⟨xs, finish⟩
    simp only [readsFirst, readsMore] at h
    obtain ⟨_, _, readsClose, result⟩ := h
    cases result
    have arg := accepts_readArg accepts
    obtain ⟨tokens, spelled, takes⟩ := arg.padded readsFirst
    obtain ⟨more, comma, further, -, takesMore⟩ := arg.padded.readMore readsMore
    refine ⟨_, ⟨_, .some comma spelled further, rfl⟩, ?_⟩
    simpa using
      (((takes_padded readsOpen).trans takes).trans takesMore).trans (takes_padded readsClose)

theorem accepts_readCall (accepts : Accepts value Spelled) : Accepts (readCall value) Spelled := by
  intro text p rest h
  unfold readCall at h
  split at h
  · cases h
  · rename_i word after readsWord
    obtain ⟨isWord, takesWord⟩ := takes_word readsWord
    split at h
    · rename_i readsArgs
      cases h
      obtain ⟨_, ⟨inner, spelled, rfl⟩, takes⟩ := accepts_readArgs accepts readsArgs
      exact ⟨_, .call isWord spelled, takesWord.trans takes⟩
    · obtain ⟨q, constant, same⟩ := Option.map_eq_some_iff.mp h
      cases same
      exact ⟨_, .constant (constant_of_keyword? constant), takesWord⟩

theorem takes_comma {text rest : List Char} {comma : Bool} (h : readComma text = (comma, rest)) :
    Takes text (trailing comma) rest := by
  unfold readComma at h
  split at h
  · rename_i read
    cases h
    exact takes_padded read
  · cases h
    exact takes_nothing _

/-- One value without a comma after it is that value. -/
theorem takes_items (accepts : Accepts value Spelled) {first p : Phrase} {text rest : List Char}
    (h : readItems value first text = (p, rest)) :
    ∃ ps more comma, Further Spelled ps more ∧ Takes text (more ++ trailing comma) rest ∧
      p = if ps = [] ∧ comma = false then first else .tuple (first :: ps) := by
  rcases readsMore : readMore (padded value) false text.length text with ⟨ps, finish⟩
  rcases readsComma : readComma finish with ⟨comma, closing⟩
  obtain ⟨more, noComma, further, onDemand, takesMore⟩ := accepts.padded.readMore readsMore
  obtain rfl : noComma = false := Bool.eq_false_iff.mpr fun h => by cases onDemand h
  have takes := takesMore.trans (takes_comma readsComma)
  simp only [trailing, Bool.false_eq_true, if_false, List.append_nil] at takes
  simp only [readItems, readsMore, readsComma] at h
  refine ⟨ps, more, comma, further, ?_, ?_⟩
  · split at h <;> cases h <;> exact takes
  · split at h <;> cases h <;> simp_all

theorem accepts_readTuple (accepts : Accepts value Spelled) :
    Accepts (readTuple value) Spelled := by
  intro text p rest h
  simp only [readTuple, Option.bind_eq_bind, Option.bind_eq_some_iff, Prod.exists] at h
  obtain ⟨_, opened, readsOpen, h⟩ := h
  cases readsFirst : padded value opened with
  | none =>
    simp only [readsFirst] at h
    obtain ⟨_, _, readsClose, result⟩ := h
    cases result
    exact ⟨_, .unit, (takes_padded readsOpen).trans (takes_symbol readsClose)⟩
  | some result =>
    obtain ⟨first, after⟩ := result
    rcases readsItems : readItems value first after with ⟨q, closing⟩
    simp only [readsFirst, readsItems] at h
    obtain ⟨_, _, readsClose, result⟩ := h
    cases result
    obtain ⟨tokens, spelled, takes⟩ := accepts.padded readsFirst
    obtain ⟨ps, more, comma, further, takesItems, rfl⟩ := takes_items accepts readsItems
    have takesAll := (((takes_padded readsOpen).trans takes).trans takesItems).trans
      (takes_symbol readsClose)
    split
    · rename_i single
      obtain ⟨rfl, rfl⟩ := single
      cases further
      exact ⟨_, .group spelled, by simpa [trailing] using takesAll⟩
    · rename_i several
      refine ⟨_, .tuple comma spelled further ?_, by simpa using takesAll⟩
      by_cases alone : ps = []
      · exact .inr (by simpa [alone] using several)
      · exact .inl alone

end

/-! ## Values -/

theorem accepts_readValue (bound : Nat) : Accepts (readValue bound) Spelled := by
  induction bound with
  | zero => exact fun _ _ _ h => nomatch h
  | succ bound ih =>
    intro text p rest h
    unfold readValue at h
    split at h
    · rename_i read
      cases h
      obtain ⟨token, rfl, spelled⟩ := spelled_of_readLiteral read
      exact ⟨_, spelled, takes_token token _⟩
    split at h
    · rename_i read
      cases h
      exact accepts_readCall ih read
    · exact accepts_readTuple ih h

theorem spelled_of_read? {text : List Char} {p : Phrase} (h : read? text = some p) :
    ∃ tokens, Spelled p tokens ∧ Spaced tokens text := by
  simp only [read?, Option.bind_eq_bind, Option.bind_eq_some_iff, Prod.exists] at h
  obtain ⟨q, rest, read, h⟩ := h
  split at h
  · rename_i finished
    cases h
    obtain ⟨tokens, spelled, takes⟩ := accepts_readValue _ read
    obtain ⟨taken, rfl, spaced⟩ := takes.blanksBefore.blanksAfter
    rw [List.isEmpty_iff.mp finished, List.append_nil]
    exact ⟨tokens, spelled, spaced⟩
  · cases h

theorem read?_eq_some_iff {text : List Char} {p : Phrase} :
    read? text = some p ↔ ∃ tokens, Spelled p tokens ∧ Spaced tokens text := by
  refine ⟨spelled_of_read?, ?_⟩
  rintro ⟨tokens, spelled, spaced⟩
  obtain ⟨a, t, b, rfl, ha, written, hb⟩ :=
    written_of_spelled _ spelled (Nat.lt_succ_self _) spaced
  exact read?_written ha written hb

/-- A text is read as a phrase exactly if it consists of tokens of the phrase, with blanks wherever
there are any. So a text has one phrase at most, and the same tokens with other blanks are read
alike. -/
theorem reading_exact :
    (∀ (text : List Char) (p : Phrase),
      read? text = some p ↔ ∃ tokens, Spelled p tokens ∧ Spaced tokens text) ∧
    (∀ (text : List Char) (ts us : List Token) (p q : Phrase), Spaced ts text → Spelled p ts →
      Spaced us text → Spelled q us → p = q) ∧
    ∀ (tokens : List Token) (p : Phrase), Spelled p tokens → ∀ text text', Spaced tokens text →
      Spaced tokens text' → read? text = read? text' := by
  refine ⟨fun text p => read?_eq_some_iff, ?_, ?_⟩
  · intro text ts us p q spacedP spelledP spacedQ spelledQ
    have readP := read?_eq_some_iff.mpr ⟨ts, spelledP, spacedP⟩
    have readQ := read?_eq_some_iff.mpr ⟨us, spelledQ, spacedQ⟩
    exact Option.some.inj (readP.symm.trans readQ)
  · intro tokens p spelled text text' spaced spaced'
    have read := read?_eq_some_iff.mpr ⟨tokens, spelled, spaced⟩
    have read' := read?_eq_some_iff.mpr ⟨tokens, spelled, spaced'⟩
    exact read.trans read'.symm

/-- An argument with a keyword and a comma after it, without blanks and with blanks everywhere. -/
theorem reading_exact_keyword :
    let p : Phrase := .call "F" [(some "x", .literal (.int 1))]
    let tokens : List Token := [['F'], ['('], ['x'], ['='], ['1'], [','], [')']]
    let tight := ['F', '(', 'x', '=', '1', ',', ')']
    let loose := ['\t', 'F', ' ', '(', '\n', 'x', ' ', '=', ' ', '1', ' ', ',', ' ', ')', '\n']
    Spelled p tokens ∧ Spaced tokens tight ∧ Spaced tokens loose ∧ read? tight = some p ∧
      read? tight = read? loose := by
  intro p tokens tight loose
  have digits : Digits ['1'] := ⟨List.cons_ne_nil _ _, List.forall_mem_singleton.mpr rfl⟩
  have one : Numeral (.int 1) ['1'] :=
    @Numeral.integer false ['1'] 1 digits rfl (by decide) (by decide)
  have spelled : Spelled p tokens := .call rfl (.some true (.keyword rfl (.number one)) .done)
  have blank {c : Char} (h : isBlank c = true) : Blanks [c] := by simpa [Blanks] using h
  have spacedTight : Spaced tokens tight :=
    .cons (a := []) blanks_nil <| .cons (a := []) blanks_nil <| .cons (a := []) blanks_nil <|
      .cons (a := []) blanks_nil <| .cons (a := []) blanks_nil <| .cons (a := []) blanks_nil <|
        .cons (a := []) blanks_nil <| .nil blanks_nil
  have spacedLoose : Spaced tokens loose :=
    .cons (a := ['\t']) (blank rfl) <| .cons (a := [' ']) (blank rfl) <|
      .cons (a := ['\n']) (blank rfl) <| .cons (a := [' ']) (blank rfl) <|
        .cons (a := [' ']) (blank rfl) <| .cons (a := [' ']) (blank rfl) <|
          .cons (a := [' ']) (blank rfl) <| .nil (blank rfl)
  obtain ⟨reads, -, respaced⟩ := reading_exact
  exact ⟨spelled, spacedTight, spacedLoose, (reads tight p).mpr ⟨tokens, spelled, spacedTight⟩,
    respaced tokens p spelled tight loose spacedTight spacedLoose⟩

end Arbor.Phrase
