import Arbor.Phrase.Reader
import Arbor.Proofs.Text.Literal

/-!
# Literals mark their own end

A string or byte literal is read back as what it was written for, up to its closing quote and no
further, whatever text follows (`readLiteral_writeString`, `readLiteral_writeBytes`). So no literal
is the beginning of another one. A literal stands on one line: what breaks a line is never written as
it is.
-/

namespace Arbor.Phrase

open Text

/-! ## Reading -/

theorem readLiteral_writeString (hidden : Char → Bool) (s : String) (rest : List Char) :
    readLiteral (writeString hidden s.toList ++ rest) = some (.str s, rest) := by
  have reads := readString_body (stringBody_write hidden s.toList) rest
  simp [writeString, readLiteral, reads]

theorem readLiteral_writeBytes (bytes : List UInt8) (rest : List Char) :
    readLiteral (writeBytes bytes ++ rest) = some (.bytes bytes, rest) := by
  have reads := readBytes_body (bytesBody_write bytes) rest
  simp [writeBytes, readLiteral, reads]

/-! ## Lines -/

/-- The characters that end a line: line feed, vertical tab, form feed, carriage return, next line,
and the separators of lines and paragraphs. -/
def lineBreaks : List Char :=
  ['\n', '\x0b', '\x0c', '\r', '\u0085', '\u2028', '\u2029']

theorem escaped_of_lineBreak {c : Char} (h : c ∈ lineBreaks) :
    isGraphic c = false ∧ (isNamed c || isHidden c) = true := by
  have all : lineBreaks.all (fun c => !isGraphic c && (isNamed c || isHidden c)) = true := by
    decide +kernel
  simpa using List.all_eq_true.mp all c h

/-- String and byte literals mark their own end and lose nothing. Whichever characters of a string
are written by their code points, and whatever text follows, reading takes exactly the literal and
returns the string, and the same holds of byte strings. So a text starts with the literal of one
string only, also if the choices differ. A string literal has neither a line feed nor a carriage
return in it, and the literals that are printed have no line break at all. -/
theorem literals_selfDelimiting :
    (∀ (hidden : Char → Bool) (s : String) (rest : List Char),
      readLiteral (writeString hidden s.toList ++ rest) = some (.str s, rest)) ∧
    (∀ (bytes : List UInt8) (rest : List Char),
      readLiteral (writeBytes bytes ++ rest) = some (.bytes bytes, rest)) ∧
    (∀ (hidden hidden' : Char → Bool) (s s' : String) (rest rest' : List Char),
      writeString hidden s.toList ++ rest = writeString hidden' s'.toList ++ rest' →
        s = s' ∧ rest = rest') ∧
    (∀ (bytes bytes' : List UInt8) (rest rest' : List Char),
      writeBytes bytes ++ rest = writeBytes bytes' ++ rest' → bytes = bytes' ∧ rest = rest') ∧
    (∀ (hidden : Char → Bool) (s : String),
      '\n' ∉ writeString hidden s.toList ∧ '\r' ∉ writeString hidden s.toList) ∧
    ∀ c ∈ lineBreaks, (∀ s, c ∉ (Prim.str s).chars) ∧ ∀ bytes, c ∉ (Prim.bytes bytes).chars := by
  refine ⟨readLiteral_writeString, readLiteral_writeBytes,
    fun hidden hidden' s s' rest rest' same => ?_, fun bytes bytes' rest rest' same => ?_,
    fun hidden s => ⟨notMem_writeString rfl rfl _, notMem_writeString rfl rfl _⟩,
    fun c hc => ?_⟩
  · have reads := readLiteral_writeString hidden s rest
    rw [same, readLiteral_writeString, Option.some.injEq, Prod.mk.injEq, Prim.str.injEq] at reads
    exact ⟨reads.1.symm, reads.2.symm⟩
  · have reads := readLiteral_writeBytes bytes rest
    rw [same, readLiteral_writeBytes, Option.some.injEq, Prod.mk.injEq, Prim.bytes.injEq] at reads
    exact ⟨reads.1.symm, reads.2.symm⟩
  · obtain ⟨graphic, escaped⟩ := escaped_of_lineBreak hc
    exact ⟨fun s => notMem_writeString graphic escaped s.toList, notMem_writeBytes graphic⟩

/-- NUL before a digit that is written by its code point, a quote before the closing one, and text
that starts with a quote. -/
theorem literals_selfDelimiting_quotes :
    let s : String := String.ofList ['\x00', '7', '\x22']
    let literal : List Char :=
      ['\x22', '\\', '0', '\\', 'u', '\x7b', '3', '7', '\x7d', '\\', '\x22', '\x22']
    let rest : List Char := ['\x22', 'b']
    writeString (· == '7') s.toList = literal ∧
      readLiteral (literal ++ rest) = some (.str s, rest) ∧
      (∀ s' rest', literal ++ rest = quoted s' ++ rest' → s = s' ∧ rest = rest') ∧
      (∀ bytes rest', writeBytes [0x7f, 34] ++ rest = writeBytes bytes ++ rest' →
        [0x7f, 34] = bytes ∧ rest = rest') ∧
      '\u2028' ∈ lineBreaks ∧ '\u2028' ∉ (Prim.str "a\u2028").chars := by
  intro s literal rest
  have written : writeString (· == '7') s.toList = literal := by
    rw [String.toList_ofList]
    rfl
  obtain ⟨strings, -, once, onceBytes, -, lines⟩ := literals_selfDelimiting
  have mem : '\u2028' ∈ lineBreaks := by decide
  refine ⟨written, ?_, ?_, fun bytes => onceBytes _ bytes rest, mem, (lines _ mem).1 _⟩
  · rw [← written]
    exact strings _ s rest
  · rw [← written]
    exact fun s' rest' => once _ _ s s' rest rest'

end Arbor.Phrase
