import Arbor.Text.Literal

/-!
# String and byte literals

`StringBody s body` and `BytesBody bs body` say how the contents of a literal may be written between
the quotes. The readers read every such body up to the closing quote (`readString_body`,
`readBytes_body`), and what is written is such a body, whichever characters are written by their
code points (`stringBody_write`, `bytesBody_write`). The readers accept nothing else
(`body_of_readString`, `body_of_readBytes`). Apart from the characters of a string that are shown as
they are, all that is written is printable ASCII (`notMem_writeString`, `notMem_writeBytes`).
-/

namespace Arbor.Text

/-! ## Hexadecimal digits -/

def IsHex (c : Char) : Prop := (hexValue? c).isSome = true

/-- The number that hexadecimal digits continue. -/
def hexNumber (start : Nat) (digits : List Char) : Nat :=
  digits.foldl (fun n c => 16 * n + (hexValue? c).getD 0) start

theorem hexValue?_digitChar : ∀ d < 16, hexValue? (Nat.digitChar d) = some d := by
  decide

theorem isHex_toDigits (n : Nat) : ∀ c ∈ Nat.toDigits 16 n, IsHex c := by
  induction n using Nat.base_induction 16 (by decide) with
  | single m hm =>
    rw [Nat.toDigits_of_lt_base hm]
    simp [IsHex, hexValue?_digitChar m hm]
  | digit m k hk hm ih =>
    rw [← Nat.toDigits_append_toDigits (by decide) hm hk, Nat.toDigits_of_lt_base hk]
    rw [List.forall_mem_append]
    exact ⟨ih, by simp [IsHex, hexValue?_digitChar k hk]⟩

theorem hexNumber_toDigits (n : Nat) : hexNumber 0 (Nat.toDigits 16 n) = n := by
  induction n using Nat.base_induction 16 (by decide) with
  | single m hm =>
    rw [Nat.toDigits_of_lt_base hm]
    simp [hexNumber, hexValue?_digitChar m hm]
  | digit m k hk hm ih =>
    rw [← Nat.toDigits_append_toDigits (by decide) hm hk, Nat.toDigits_of_lt_base hk]
    rw [hexNumber] at ih ⊢
    simp [ih, hexValue?_digitChar k hk]

/-! ## Strings -/

/-- The digits of a code point escape and the character that it stands for. -/
structure CodePoint (digits : List Char) (c : Char) : Prop where
  nonempty : digits ≠ []
  short : digits.length ≤ 6
  hex : ∀ d ∈ digits, IsHex d
  value : charOfCode? (hexNumber 0 digits) = some c

/-- The ways to write the characters of a string between the quotes. -/
inductive StringBody : List Char → List Char → Prop
  | nil : StringBody [] []
  | plain {c : Char} {s body : List Char} :
      c ≠ '\x22' → c ≠ '\\' → StringBody s body → StringBody (c :: s) (c :: body)
  | named {c d : Char} {s body : List Char} :
      namedEscape? c = some d → StringBody s body → StringBody (d :: s) ('\\' :: c :: body)
  | code {digits : List Char} {c : Char} {s body : List Char} :
      CodePoint digits c → StringBody s body →
        StringBody (c :: s) ('\\' :: 'u' :: '\x7b' :: (digits ++ '\x7d' :: body))

theorem readString_digits (digits : List Char) (value count : Nat) (rest : List Char)
    (hex : ∀ d ∈ digits, IsHex d) (short : count + digits.length ≤ 6) :
    readString (.code value count) (digits ++ rest) =
      readString (.code (hexNumber value digits) (count + digits.length)) rest := by
  induction digits generalizing value count with
  | nil => rfl
  | cons d digits ih =>
    rw [List.forall_mem_cons] at hex
    obtain ⟨n, hn⟩ := Option.isSome_iff_exists.mp hex.1
    have hd : d ≠ '\x7d' := by
      rintro rfl
      simp [hexValue?] at hn
    rw [List.length_cons] at short
    rw [List.cons_append, readString, if_neg hd, if_pos (by omega), hn]
    dsimp only
    rw [ih _ _ hex.2 (by omega), hexNumber, hexNumber, List.foldl_cons, hn, List.length_cons]
    congr 2
    omega

theorem readString_body {s body : List Char} (h : StringBody s body) (rest : List Char) :
    readString .plain (body ++ '\x22' :: rest) = some (s, rest) := by
  induction h with
  | nil => rfl
  | plain hq hb _ ih => simp [readString, hq, hb, ih]
  | @named c d s body hc _ ih =>
    have hu : c ≠ 'u' := by
      rintro rfl
      simp [namedEscape?] at hc
    simp [readString, hu, hc, ih]
  | @code digits c s body hc _ ih =>
    have opened (tail : List Char) :
        readString .plain ('\\' :: 'u' :: '\x7b' :: tail) = readString (.code 0 0) tail := rfl
    have positive : 0 + digits.length ≠ 0 := by simpa using hc.nonempty
    simp only [List.cons_append, List.append_assoc]
    rw [opened, readString_digits digits 0 0 _ hc.hex (by simpa using hc.short), readString,
      if_pos rfl, if_neg positive, hc.value, ih]
    rfl

/-- What has been read of a character in each state. -/
inductive StringLead : StringState → List Char → Prop
  | plain : StringLead .plain []
  | escape : StringLead .escape ['\\']
  | brace : StringLead .brace ['\\', 'u']
  | code {digits : List Char} : digits.length ≤ 6 → (∀ d ∈ digits, IsHex d) →
      StringLead (.code (hexNumber 0 digits) digits.length) ('\\' :: 'u' :: '\x7b' :: digits)

/-- Reading a string takes a body of it and the closing quote, also from the middle of a
character. -/
theorem lead_of_readString {state : StringState} {text s rest lead : List Char}
    (h : readString state text = some (s, rest)) (before : StringLead state lead) :
    ∃ body, text = body ++ '\x22' :: rest ∧ StringBody s (lead ++ body) := by
  induction text generalizing state s lead with
  | nil => cases before <;> simp [readString] at h
  | cons c text ih =>
    -- In every state the character is taken and the rest is read in the state that follows.
    have next {state' : StringState} {s' lead' : List Char}
        (h : readString state' text = some (s', rest)) (before : StringLead state' lead')
        (body : ∀ tail, StringBody s' (lead' ++ tail) → StringBody s (lead ++ c :: tail)) :
        ∃ body, c :: text = body ++ '\x22' :: rest ∧ StringBody s (lead ++ body) := by
      obtain ⟨tail, rfl, written⟩ := ih h before
      exact ⟨c :: tail, rfl, body tail written⟩
    cases before with
    | plain =>
      rw [readString] at h
      split at h
      · rename_i quote
        cases h
        exact ⟨[], by rw [quote]; rfl, .nil⟩
      split at h
      · rename_i backslash
        exact next h .escape fun tail body => backslash ▸ body
      · rename_i quote backslash
        obtain ⟨⟨s', after⟩, read, result⟩ := Option.map_eq_some_iff.mp h
        cases result
        exact next read .plain fun tail body => .plain quote backslash body
    | escape =>
      rw [readString] at h
      split at h
      · rename_i letter
        exact next h .brace fun tail body => letter ▸ body
      split at h
      · rename_i d named
        obtain ⟨⟨s', after⟩, read, result⟩ := Option.map_eq_some_iff.mp h
        cases result
        exact next read .plain fun tail body => .named named body
      · cases h
    | brace =>
      rw [readString] at h
      split at h
      · rename_i brace
        have before := @StringLead.code [] (Nat.zero_le 6) (List.forall_mem_nil _)
        exact next h before fun tail body => brace ▸ body
      · cases h
    | @code digits short hex =>
      rw [readString] at h
      split at h
      · rename_i brace
        split at h
        · cases h
        rename_i nonempty
        split at h
        · rename_i d value
          obtain ⟨⟨s', after⟩, read, result⟩ := Option.map_eq_some_iff.mp h
          cases result
          have point : CodePoint digits d := ⟨by simpa using nonempty, short, hex, value⟩
          exact next read .plain fun tail body => brace ▸ .code point body
        · cases h
      split at h
      · rename_i less
        split at h
        · rename_i d value
          have number : 16 * hexNumber 0 digits + d = hexNumber 0 (digits ++ [c]) := by
            simp [hexNumber, value]
          have hexAll : ∀ d ∈ digits ++ [c], IsHex d :=
            List.forall_mem_append.mpr ⟨hex, by simp [IsHex, value]⟩
          have longer := StringLead.code (List.length_append ▸ less) hexAll
          rw [← number, List.length_append] at longer
          exact next h longer fun tail body => by simpa using body
        · cases h
      · cases h

theorem body_of_readString {text s rest : List Char} (h : readString .plain text = some (s, rest)) :
    ∃ body, text = body ++ '\x22' :: rest ∧ StringBody s body :=
  lead_of_readString h .plain

theorem charOfCode?_toNat (c : Char) : charOfCode? c.toNat = some c := by
  have valid : c.toNat.isValidChar := c.valid
  have same := Char.ofNat_toNat c
  rw [Char.ofNat, dif_pos valid] at same
  rw [charOfCode?, dif_pos valid, same]

theorem codePoint_toDigits (c : Char) : CodePoint (Nat.toDigits 16 c.toNat) c where
  nonempty := Nat.toDigits_ne_nil
  short := by
    rw [Nat.length_toDigits_le_iff (by decide) (by decide)]
    have : c.toNat.isValidChar := c.valid
    unfold Nat.isValidChar at this
    omega
  hex := isHex_toDigits c.toNat
  value := by rw [hexNumber_toDigits, charOfCode?_toNat]

theorem stringBody_writeChar (hidden : Char → Bool) (c : Char) {s body : List Char}
    (h : StringBody s body) : StringBody (c :: s) (writeChar hidden c ++ body) := by
  unfold writeChar
  split
  · subst c
    exact .named rfl h
  split
  · subst c
    exact .named rfl h
  split
  · subst c
    exact .named rfl h
  split
  · subst c
    exact .named rfl h
  split
  · subst c
    exact .named rfl h
  split
  · subst c
    exact .named rfl h
  split
  · simpa using StringBody.code (codePoint_toDigits c) h
  · exact .plain ‹_› ‹_› h

theorem stringBody_write (hidden : Char → Bool) (s : List Char) :
    StringBody s (s.flatMap (writeChar hidden)) := by
  induction s with
  | nil => exact .nil
  | cons c s ih => exact stringBody_writeChar hidden c ih

/-! ## Byte strings -/

/-- The ways to write the bytes of a byte string between the quotes. -/
inductive BytesBody : List UInt8 → List Char → Prop
  | nil : BytesBody [] []
  | plain {c : Char} {bs : List UInt8} {body : List Char} :
      c ≠ '\x22' → c ≠ '\\' → c.toNat < 128 → BytesBody bs body →
        BytesBody (UInt8.ofNat c.toNat :: bs) (c :: body)
  | named {c d : Char} {bs : List UInt8} {body : List Char} :
      namedEscape? c = some d → BytesBody bs body →
        BytesBody (UInt8.ofNat d.toNat :: bs) ('\\' :: c :: body)
  | hex {c d : Char} {m n : Nat} {bs : List UInt8} {body : List Char} :
      hexValue? c = some m → hexValue? d = some n → BytesBody bs body →
        BytesBody (UInt8.ofNat (16 * m + n) :: bs) ('\\' :: 'x' :: c :: d :: body)

theorem readBytes_body {bs : List UInt8} {body : List Char} (h : BytesBody bs body)
    (rest : List Char) : readBytes .plain (body ++ '\x22' :: rest) = some (bs, rest) := by
  induction h with
  | nil => rfl
  | plain hq hb ha _ ih => simp [readBytes, hq, hb, ha, ih]
  | @named c d bs body hc _ ih =>
    have hx : c ≠ 'x' := by
      rintro rfl
      simp [namedEscape?] at hc
    simp [readBytes, hx, hc, ih]
  | hex hc hd _ ih => simp [readBytes, hc, hd, ih]

/-- What has been read of a byte in each state. -/
inductive BytesLead : BytesState → List Char → Prop
  | plain : BytesLead .plain []
  | escape : BytesLead .escape ['\\']
  | high : BytesLead .high ['\\', 'x']
  | low {c : Char} {value : Nat} :
      hexValue? c = some value → BytesLead (.low value) ['\\', 'x', c]

theorem lead_of_readBytes {state : BytesState} {text rest lead : List Char} {bs : List UInt8}
    (h : readBytes state text = some (bs, rest)) (before : BytesLead state lead) :
    ∃ body, text = body ++ '\x22' :: rest ∧ BytesBody bs (lead ++ body) := by
  induction text generalizing state bs lead with
  | nil => cases before <;> simp [readBytes] at h
  | cons c text ih =>
    have next {state' : BytesState} {bs' : List UInt8} {lead' : List Char}
        (h : readBytes state' text = some (bs', rest)) (before : BytesLead state' lead')
        (body : ∀ tail, BytesBody bs' (lead' ++ tail) → BytesBody bs (lead ++ c :: tail)) :
        ∃ body, c :: text = body ++ '\x22' :: rest ∧ BytesBody bs (lead ++ body) := by
      obtain ⟨tail, rfl, written⟩ := ih h before
      exact ⟨c :: tail, rfl, body tail written⟩
    cases before with
    | plain =>
      rw [readBytes] at h
      split at h
      · rename_i quote
        cases h
        exact ⟨[], by rw [quote]; rfl, .nil⟩
      split at h
      · rename_i backslash
        exact next h .escape fun tail body => backslash ▸ body
      split at h
      · rename_i quote backslash ascii
        obtain ⟨⟨bs', after⟩, read, result⟩ := Option.map_eq_some_iff.mp h
        cases result
        exact next read .plain fun tail body => .plain quote backslash ascii body
      · cases h
    | escape =>
      rw [readBytes] at h
      split at h
      · rename_i letter
        exact next h .high fun tail body => letter ▸ body
      split at h
      · rename_i d named
        obtain ⟨⟨bs', after⟩, read, result⟩ := Option.map_eq_some_iff.mp h
        cases result
        exact next read .plain fun tail body => .named named body
      · cases h
    | high =>
      rw [readBytes] at h
      split at h
      · rename_i d value
        exact next h (.low value) fun tail body => body
      · cases h
    | low first =>
      rw [readBytes] at h
      split at h
      · rename_i d second
        obtain ⟨⟨bs', after⟩, read, result⟩ := Option.map_eq_some_iff.mp h
        cases result
        exact next read .plain fun tail body => .hex first second body
      · cases h

theorem body_of_readBytes {text rest : List Char} {bs : List UInt8}
    (h : readBytes .plain text = some (bs, rest)) :
    ∃ body, text = body ++ '\x22' :: rest ∧ BytesBody bs body :=
  lead_of_readBytes h .plain

theorem toNat_ofNat_toNat (b : UInt8) : (Char.ofNat b.toNat).toNat = b.toNat := by
  have small : b.toNat < 256 := b.toNat_lt
  have valid : b.toNat.isValidChar := .inl (by omega)
  rw [Char.ofNat, dif_pos valid]
  rfl

theorem bytesBody_writeByte (b : UInt8) {bs : List UInt8} {body : List Char}
    (h : BytesBody bs body) : BytesBody (b :: bs) (writeByte b ++ body) := by
  have hb : UInt8.ofNat b.toNat = b := UInt8.ofNat_toNat
  have named {c : Char} (n : Nat) (hn : b.toNat = n) (hc : namedEscape? c = some (Char.ofNat n))
      (hv : (Char.ofNat n).toNat = n) : BytesBody (b :: bs) ('\\' :: c :: body) := by
    rw [← hb, hn, ← hv]
    exact .named hc h
  unfold writeByte
  dsimp only
  split
  · exact named 9 ‹_› rfl rfl
  split
  · exact named 13 ‹_› rfl rfl
  split
  · exact named 10 ‹_› rfl rfl
  split
  · exact named 39 ‹_› rfl rfl
  split
  · exact named 34 ‹_› rfl rfl
  split
  · exact named 92 ‹_› rfl rfl
  have small : b.toNat < 256 := b.toNat_lt
  split
  · have hc := toNat_ofNat_toNat b
    have other {d : Char} (hd : b.toNat ≠ d.toNat) : Char.ofNat b.toNat ≠ d := by
      rintro rfl
      exact hd hc.symm
    have written := BytesBody.plain (other (d := '\x22') ‹_›) (other ‹_›) (by omega) h
    rwa [hc, hb] at written
  · have high := hexValue?_digitChar (b.toNat / 16) (by omega)
    have low := hexValue?_digitChar (b.toNat % 16) (by omega)
    have written := BytesBody.hex high low h
    rwa [Nat.div_add_mod, hb] at written

theorem bytesBody_write (bs : List UInt8) : BytesBody bs (bs.flatMap writeByte) := by
  induction bs with
  | nil => exact .nil
  | cons b bs ih => exact bytesBody_writeByte b ih

/-! ## The characters of literals -/

/-- The characters that have an escape of their own in strings. -/
def isNamed (c : Char) : Bool :=
  ['\\', '\x22', '\n', '\r', '\t', '\x00'].contains c

def isGraphic (c : Char) : Bool :=
  isBetween 32 126 c

theorem isGraphic_iff {c : Char} : isGraphic c = true ↔ 32 ≤ c.toNat ∧ c.toNat ≤ 126 := by
  rw [isGraphic, isBetween, Bool.and_eq_true, Nat.ble_eq, Nat.ble_eq]

theorem IsHex.isGraphic {c : Char} (h : IsHex c) : isGraphic c = true := by
  unfold IsHex hexValue? at h
  rw [isGraphic_iff]
  dsimp only at h
  split at h
  · omega
  split at h
  · omega
  split at h
  · omega
  · cases h

/-- What is written of a character is printable ASCII, or the character itself. -/
theorem mem_writeChar {hidden : Char → Bool} {c d : Char} (h : c ∈ writeChar hidden d) :
    isGraphic c = true ∨ c = d ∧ hidden d = false ∧ isNamed d = false := by
  have escape {written : List Char} (graphic : written.all isGraphic = true) (mem : c ∈ written) :
      isGraphic c = true ∨ c = d ∧ hidden d = false ∧ isNamed d = false :=
    .inl (List.all_eq_true.mp graphic c mem)
  unfold writeChar at h
  iterate 6
    split at h
    · exact escape rfl h
  split at h
  · refine escape ?_ h
    have digits : (Nat.toDigits 16 d.toNat).all isGraphic = true :=
      List.all_eq_true.mpr fun c hc => (isHex_toDigits d.toNat c hc).isGraphic
    rw [List.all_cons, List.all_cons, List.all_cons, List.all_append, digits]
    rfl
  · right
    simp_all [isNamed]

theorem graphic_writeByte (b : UInt8) : (writeByte b).all isGraphic = true := by
  have small : b.toNat < 256 := b.toNat_lt
  unfold writeByte
  dsimp only
  iterate 6
    split
    · rfl
  split
  · rename_i printable
    rw [List.all_cons, List.all_nil, Bool.and_true, isGraphic_iff, toNat_ofNat_toNat]
    exact printable
  · have digit {n : Nat} (h : n < 16) : isGraphic (Nat.digitChar n) = true := by
      apply IsHex.isGraphic
      rw [IsHex, hexValue?_digitChar n h]
      rfl
    have high := digit (n := b.toNat / 16) (by omega)
    have low := digit (n := b.toNat % 16) (by omega)
    rw [List.all_cons, List.all_cons, List.all_cons, high, List.all_cons, low]
    rfl

/-- A character that is not printable ASCII is not written if it has an escape of its own or is
written by its code point. -/
theorem notMem_writeString {hidden : Char → Bool} {c : Char} (graphic : isGraphic c = false)
    (escaped : (isNamed c || hidden c) = true) (s : List Char) : c ∉ writeString hidden s := by
  have quote : c ≠ '\x22' := by
    rintro rfl
    cases graphic
  intro h
  simp only [writeString, List.mem_cons, List.mem_append, List.mem_flatMap, List.not_mem_nil,
    quote, or_false, false_or] at h
  obtain ⟨d, -, written⟩ := h
  obtain shown | ⟨rfl, bare, unnamed⟩ := mem_writeChar written
  · cases graphic.symm.trans shown
  · rw [bare, unnamed] at escaped
    cases escaped

theorem notMem_writeBytes {c : Char} (graphic : isGraphic c = false) (bytes : List UInt8) :
    c ∉ writeBytes bytes := by
  have marks : c ≠ 'b' ∧ c ≠ '\x22' := by
    constructor <;> rintro rfl <;> cases graphic
  intro h
  simp only [writeBytes, List.mem_cons, List.mem_append, List.mem_flatMap, List.not_mem_nil,
    marks.1, marks.2, or_false, false_or] at h
  obtain ⟨b, -, written⟩ := h
  cases graphic.symm.trans (List.all_eq_true.mp (graphic_writeByte b) c written)

end Arbor.Text
