import Mathlib
import Arbor.Proofs.Phrase.Printing

/-!
# Dumps are one-line texts with aligned columns

The dump of a tree comes from a document, and the one-line text is written directly. The dump can be
had from the one-line text alone, by a reader that knows of trees no more than parentheses, commas
and literals (`Aligner`): it keeps the column after each open parenthesis in what it has written,
and breaks the line where a space follows a comma. Documents are laid out by the width of text and
the reader counts characters. Before a parenthesis is opened a line has names only, and of these the
width is the number of characters.
-/

namespace Arbor

namespace Layout

open Text

/-! ## The reader -/

/-- Where a reader of a printed text stands. -/
inductive Mode where
  | outside
  /-- After a comma outside of literals. -/
  | comma
  | literal
  /-- After a backslash in a literal. -/
  | escape
deriving DecidableEq

namespace Mode

def next : Mode → Char → Mode
  | .outside, c | .comma, c =>
    if c = '\x22' then .literal else if c = ',' then .comma else .outside
  | .literal, c => if c = '\x22' then .outside else if c = '\\' then .escape else .literal
  | .escape, _ => .literal

def within : Mode → Bool
  | .outside | .comma => false
  | .literal | .escape => true

end Mode

/-- The number of characters on the last line. -/
def column (text : List Char) : Nat :=
  (text.reverse.takeWhile fun c => c != '\n').length

structure Aligner where
  mode : Mode := .outside
  /-- The columns after the parentheses that are open, the innermost first. -/
  columns : List Nat := []
  written : List Char := []

namespace Aligner

/-- A space after a comma becomes a line break, with spaces up to the column after the innermost
open parenthesis. All else is copied. -/
def step (a : Aligner) (c : Char) : Aligner :=
  if a.mode = .comma ∧ c = ' ' then
    { a with mode := .outside, written := a.written ++ newlineChars (a.columns.headD 0) }
  else
    { mode := a.mode.next c
      columns :=
        if a.mode.within then a.columns
        else if c = '(' then column (a.written ++ [c]) :: a.columns
        else if c = ')' then a.columns.tail
        else a.columns
      written := a.written ++ [c] }

def read (a : Aligner) (text : List Char) : Aligner :=
  text.foldl step a

def write (a : Aligner) (text : List Char) : Aligner :=
  { a with written := a.written ++ text }

theorem write_nil (a : Aligner) : a.write [] = a := by
  rw [write, List.append_nil]

theorem write_write (a : Aligner) (first second : List Char) :
    (a.write first).write second = a.write (first ++ second) := by
  rw [write, write, write, List.append_assoc]

end Aligner

def realign (text : List Char) : List Char :=
  (Aligner.read {} text).written

/-! ## Columns -/

theorem column_append {text : List Char} (h : '\n' ∉ text) (out : List Char) :
    column (out ++ text) = column out + text.length := by
  have line : ∀ c ∈ text.reverse, (c != '\n') = true := by
    intro c hc
    rw [bne_iff_ne]
    rintro rfl
    exact h (List.mem_reverse.mp hc)
  rw [column, List.reverse_append, List.takeWhile_append_of_pos line, List.length_append,
    List.length_reverse, Nat.add_comm]
  rfl

theorem column_newline (out : List Char) (indent : Nat) :
    column (out ++ newlineChars indent) = indent := by
  have spaces : '\n' ∉ List.replicate indent ' ' := by
    intro h
    cases (List.mem_replicate.mp h).2
  have start : column (out ++ ['\n']) = 0 := by
    rw [column, List.reverse_append]
    rfl
  rw [newlineChars, List.append_cons, column_append spaces, start, List.length_replicate,
    Nat.zero_add]

/-! ## What is copied -/

/-- Outside of literals, the character means nothing to a reader or a terminal. -/
def isBare (c : Char) : Bool :=
  isAscii c && !(['\x22', '(', ')', ',', '\n', escapeChar].contains c)

/-- Read outside of literals, the text is copied. -/
def Copied (text : List Char) : Prop :=
  ∀ a : Aligner, a.mode = .outside → a.read text = a.write text

namespace Aligner

theorem read_cons (a : Aligner) (c : Char) (text : List Char) :
    a.read (c :: text) = (a.step c).read text := rfl

theorem read_append (a : Aligner) (first second : List Char) :
    a.read (first ++ second) = (a.read first).read second :=
  List.foldl_append

theorem step_bare {a : Aligner} (outside : a.mode = .outside) {c : Char} (bare : isBare c = true) :
    a.step c = a.write [c] := by
  obtain ⟨mode, columns, written⟩ := a
  cases outside
  simp only [isBare, Bool.and_eq_true, Bool.not_eq_true', List.contains_eq_mem, List.mem_cons,
    List.not_mem_nil, or_false, decide_eq_false_iff_not, not_or] at bare
  obtain ⟨-, quote, opening, closing, comma, -⟩ := bare
  simp [step, write, Mode.next, Mode.within, quote, opening, closing, comma]

end Aligner

theorem copied_bare {text : List Char} (bare : ∀ c ∈ text, isBare c = true) : Copied text := by
  intro a outside
  induction text generalizing a with
  | nil => exact a.write_nil.symm
  | cons c text ih =>
    rw [List.forall_mem_cons] at bare
    rw [Aligner.read_cons, Aligner.step_bare outside bare.1, ih bare.2 (a.write [c]) outside,
      Aligner.write_write]
    rfl

theorem Copied.append {first second : List Char} (hf : Copied first) (hs : Copied second) :
    Copied (first ++ second) := by
  intro a outside
  rw [Aligner.read_append, hf a outside, hs (a.write first) outside, Aligner.write_write]

/-! ## Literals -/

/-- Read inside of a literal, the text is copied and does not end it. -/
def Enclosed (text : List Char) : Prop :=
  ∀ a : Aligner, a.mode = .literal → a.read text = a.write text

theorem Enclosed.append {first second : List Char} (hf : Enclosed first) (hs : Enclosed second) :
    Enclosed (first ++ second) := by
  intro a literal
  rw [Aligner.read_append, hf a literal, hs (a.write first) literal, Aligner.write_write]

theorem enclosed_nil : Enclosed [] :=
  fun a _ => a.write_nil.symm

theorem enclosed_char {c : Char} (quote : c ≠ '\x22') (backslash : c ≠ '\\') : Enclosed [c] := by
  rintro ⟨mode, columns, written⟩ ⟨⟩
  simp [Aligner.read, Aligner.step, Aligner.write, Mode.next, Mode.within, quote, backslash]

theorem enclosed_escape (c : Char) : Enclosed ['\\', c] := by
  rintro ⟨mode, columns, written⟩ ⟨⟩
  simp [Aligner.read, Aligner.step, Aligner.write, Mode.next, Mode.within]

theorem enclosed_hex {digits : List Char} (hex : ∀ d ∈ digits, IsHex d) : Enclosed digits := by
  induction digits with
  | nil => exact enclosed_nil
  | cons d digits ih =>
    rw [List.forall_mem_cons] at hex
    refine (enclosed_char ?_ ?_).append (ih hex.2)
    · rintro rfl
      cases hex.1
    · rintro rfl
      cases hex.1

theorem enclosed_string {s body : List Char} (h : StringBody s body) : Enclosed body := by
  induction h with
  | nil => exact enclosed_nil
  | plain quote backslash _ ih => exact (enclosed_char quote backslash).append ih
  | @named c _ _ _ _ _ ih => exact (enclosed_escape c).append ih
  | code point _ ih =>
    have braces : Enclosed ['\x7b'] ∧ Enclosed ['\x7d'] :=
      ⟨enclosed_char (by decide) (by decide), enclosed_char (by decide) (by decide)⟩
    exact (enclosed_escape 'u').append
      (braces.1.append ((enclosed_hex point.hex).append (braces.2.append ih)))

theorem enclosed_bytes {bs : List UInt8} {body : List Char} (h : BytesBody bs body) :
    Enclosed body := by
  induction h with
  | nil => exact enclosed_nil
  | plain quote backslash _ _ ih => exact (enclosed_char quote backslash).append ih
  | @named c _ _ _ _ _ ih => exact (enclosed_escape c).append ih
  | @hex c d _ _ _ _ hc hd _ ih =>
    have digits : Enclosed [c, d] := by
      refine enclosed_hex (List.forall_mem_cons.mpr ⟨?_, List.forall_mem_singleton.mpr ?_⟩)
      · rw [IsHex, hc]
        rfl
      · rw [IsHex, hd]
        rfl
    exact (enclosed_escape 'x').append (digits.append ih)

theorem copied_literal {body : List Char} (h : Enclosed body) :
    Copied ('\x22' :: (body ++ ['\x22'])) := by
  rintro ⟨mode, columns, written⟩ ⟨⟩
  have opened : Aligner.step ⟨.outside, columns, written⟩ '\x22' =
      ⟨.literal, columns, written ++ ['\x22']⟩ := rfl
  rw [Aligner.read_cons, opened, Aligner.read_append, h _ rfl]
  change Aligner.mk .outside columns (written ++ ['\x22'] ++ body ++ ['\x22']) = _
  simp [Aligner.write]

theorem copied_quoted (s : String) : Copied (quoted s) :=
  copied_literal (enclosed_string (stringBody_write isHidden s.toList))

/-! ## Numbers -/

theorem isBare_of_bounds {c : Char} (low : 45 ≤ c.toNat) (high : c.toNat < 128) :
    isBare c = true := by
  have ascii : isAscii c = true := Nat.blt_eq.mpr high
  have other (d : Char) (small : d.toNat < 45) : c ≠ d := by
    rintro rfl
    omega
  simp [isBare, ascii, other '\x22' (by decide), other '(' (by decide), other ')' (by decide),
    other ',' (by decide), other '\n' (by decide), other escapeChar (by decide)]

theorem bare_digits {digits : List Char} (h : ∀ c ∈ digits, isDigit c = true) :
    ∀ c ∈ digits, isBare c = true := by
  intro c hc
  have := Phrase.isDigit_bounds (h c hc)
  exact isBare_of_bounds (by omega) (by omega)

theorem bare_toDigits (n : Nat) : ∀ c ∈ Nat.toDigits 10 n, isBare c = true :=
  bare_digits (Phrase.digits_toDigits n).digits

theorem bare_int (i : Int) : ∀ c ∈ intChars i, isBare c = true := by
  unfold intChars
  split
  · exact List.forall_mem_cons.mpr ⟨rfl, bare_toDigits _⟩
  · exact bare_toDigits _

section Decimals

variable {digits : List Char} (h : ∀ c ∈ digits, isBare c = true)

include h

theorem bare_positional (point : Int) : ∀ c ∈ Float64.positional digits point, isBare c = true := by
  have zeros {k : Nat} : ∀ c ∈ List.replicate k '0', isBare c = true :=
    bare_digits Phrase.isDigit_replicate
  unfold Float64.positional
  split
  · simp only [List.forall_mem_cons, List.forall_mem_append]
    exact ⟨rfl, rfl, zeros, h⟩
  split
  · simp only [List.forall_mem_cons, List.forall_mem_append]
    exact ⟨fun c hc => h c (List.mem_of_mem_take hc), rfl,
      fun c hc => h c (List.mem_of_mem_drop hc)⟩
  · simp only [List.forall_mem_append]
    exact ⟨⟨h, zeros⟩, List.all_eq_true.mp rfl⟩

theorem bare_scientific (exp : Int) : ∀ c ∈ Float64.scientific digits exp, isBare c = true := by
  unfold Float64.scientific
  split
  · exact List.forall_mem_nil _
  · rw [List.forall_mem_cons] at h
    exact List.forall_mem_cons.mpr ⟨h.1, List.forall_mem_cons.mpr ⟨rfl, bare_int exp⟩⟩
  · rw [List.forall_mem_cons] at h
    simp only [List.forall_mem_cons, List.forall_mem_append]
    exact ⟨h.1, rfl, h.2, rfl, bare_int exp⟩

end Decimals

theorem bare_magnitude (m : Nat) : ∀ c ∈ Float64.magnitudeChars m, isBare c = true := by
  unfold Float64.magnitudeChars
  split
  · exact List.all_eq_true.mp rfl
  split
  · exact List.all_eq_true.mp rfl
  unfold Float64.decimalChars
  dsimp only
  split
  · exact bare_positional (bare_toDigits _) _
  · exact bare_scientific (bare_toDigits _) _

theorem bare_float (x : Float64) : ∀ c ∈ x.chars, isBare c = true := by
  unfold Float64.chars
  split
  · exact List.all_eq_true.mp rfl
  split
  · exact List.forall_mem_cons.mpr ⟨rfl, bare_magnitude _⟩
  · exact bare_magnitude _

theorem copied_prim (p : Prim) : Copied p.chars := by
  cases p with
  | int i => exact copied_bare (bare_int i.toInt)
  | float x => exact copied_bare (bare_float x)
  | str s => exact copied_quoted s
  | bytes b =>
    have letter : Copied ['b'] := copied_bare (List.all_eq_true.mp rfl)
    exact letter.append (copied_literal (enclosed_bytes (bytesBody_write b)))
  | bool b => cases b <;> exact copied_bare (List.all_eq_true.mp rfl)

theorem bare_word {word : List Char} (h : Phrase.isWord word = true) :
    ∀ c ∈ word, isBare c = true := by
  obtain ⟨c, rest, rfl, start, more⟩ := Phrase.isWord_cons h
  have letter {d : Char} (hd : Phrase.isWordStart d = true) : isBare d = true := by
    have := Phrase.isWordStart_bounds hd
    exact isBare_of_bounds (by omega) (by omega)
  refine List.forall_mem_cons.mpr ⟨letter start, fun d hd => ?_⟩
  rcases (Bool.or_eq_true _ _).mp (more d hd) with start | digit
  · exact letter start
  · have := Phrase.isDigit_bounds digit
    exact isBare_of_bounds (by omega) (by omega)

/-! ## Documents -/

/-- Read outside of literals, the text becomes what the document is laid out as in the column that
the reader has come to. -/
def Aligns (text : List Char) (d : Doc) : Prop :=
  ∀ (a : Aligner) (indent : Nat), a.mode = .outside →
    a.read text = a.write (plain (d.layout indent (column a.written)).1)

theorem aligns_copied {text : List Char} (h : Copied text) (style : Style) :
    Aligns text (.text style text) := by
  intro a indent outside
  rw [h a outside, Phrase.plain_layout_text]

theorem width_bare {text : List Char} (bare : ∀ c ∈ text, isBare c = true) :
    width text = text.length := by
  have ascii : text.all isAscii = true :=
    List.all_eq_true.mpr fun c hc => ((Bool.and_eq_true _ _).mp (bare c hc)).1
  rw [width, if_pos ascii]

theorem newline_of_bare {text : List Char} (bare : ∀ c ∈ text, isBare c = true) :
    '\n' ∉ text := by
  intro h
  cases bare '\n' h

theorem Aligns.after {name text : List Char} {d : Doc} (bare : ∀ c ∈ name, isBare c = true)
    (h : Aligns text d) (style : Style) : Aligns (name ++ text) (.append (.text style name) d) := by
  intro a indent outside
  -- The layout goes by width and the reader by characters: for names they are the same.
  have counted : column (a.write name).written = column a.written + width name := by
    rw [width_bare bare]
    exact column_append (newline_of_bare bare) a.written
  rw [Aligner.read_append, copied_bare bare a outside, h (a.write name) indent outside,
    Aligner.write_write, counted, Phrase.plain_layout_append, Phrase.plain_layout_text]
  rfl

theorem Aligner.read_separator {a : Aligner} (outside : a.mode = .outside) :
    a.read [',', ' '] = a.write (',' :: newlineChars (a.columns.headD 0)) := by
  obtain ⟨mode, columns, written⟩ := a
  cases outside
  simp [read, step, write, Mode.next, Mode.within]

theorem Aligner.read_opening {a : Aligner} (outside : a.mode = .outside) :
    a.read ['('] = ⟨.outside, (column a.written + 1) :: a.columns, a.written ++ ['(']⟩ := by
  obtain ⟨mode, columns, written⟩ := a
  cases outside
  have counted : column (written ++ ['(']) = column written + 1 := column_append (by decide) written
  simp [read, step, Mode.next, Mode.within, counted]

theorem plain_layout_line (indent column : Nat) :
    plain (Doc.line.layout indent column).1 = newlineChars indent :=
  List.append_nil _

theorem aligns_separated {texts : List (List Char)} {docs : List Doc}
    (h : List.Forall₂ Aligns texts docs) {a : Aligner} (outside : a.mode = .outside)
    {indent : Nat} (innermost : a.columns.headD 0 = indent) :
    a.read (Tree.separated texts) = a.write (plain
      ((Doc.separated (.append (Tree.punct [',']) .line) docs).layout indent
        (column a.written)).1) := by
  induction h generalizing a with
  | nil => exact a.write_nil.symm
  | @cons text d texts docs first rest ih =>
    cases rest with
    | nil => simpa [Tree.separated, Doc.separated] using first a indent outside
    | @cons text' d' texts docs second rest =>
      have split : Tree.separated (text :: text' :: texts) =
          text ++ ([',', ' '] ++ Tree.separated (text' :: texts)) := by
        simp [Tree.separated]
      -- The line break sets the column, whatever the first part has left there.
      let laid := plain (d.layout indent (column a.written)).1
      have broken : ((a.write laid).read [',', ' ']) =
          (a.write laid).write (',' :: newlineChars indent) := by
        rw [← innermost]
        exact Aligner.read_separator outside
      have counted : column ((a.write laid).write (',' :: newlineChars indent)).written =
          indent := by
        have line := column_newline (a.written ++ laid ++ [',']) indent
        rwa [List.append_assoc] at line
      have documents : Doc.separated (.append (Tree.punct [',']) .line) (d :: d' :: docs) =
          .append d (.append (.append (Tree.punct [',']) .line)
            (Doc.separated (.append (Tree.punct [',']) .line) (d' :: docs))) := rfl
      rw [split, Aligner.read_append, first a indent outside, Aligner.read_append, broken,
        ih (a := (a.write laid).write (',' :: newlineChars indent)) outside innermost, counted,
        Aligner.write_write, Aligner.write_write, documents]
      simp only [Phrase.plain_layout_append, Phrase.plain_layout_punct, plain_layout_line,
        List.append_assoc]
      rfl

theorem Aligner.read_closing {a : Aligner} (outside : a.mode = .outside) {last : List Char}
    (h : last = [] ∨ last = [',']) :
    a.read (last ++ [')']) = ⟨.outside, a.columns.tail, a.written ++ (last ++ [')'])⟩ := by
  obtain ⟨mode, columns, written⟩ := a
  cases outside
  rcases h with rfl | rfl <;> simp [read, step, Mode.next, Mode.within]

/-- Inside of the parentheses the column after the opening one is the innermost, and after them the
columns are those from before. -/
theorem aligns_enclosed {texts : List (List Char)} {docs : List Doc}
    (h : List.Forall₂ Aligns texts docs) {last : List Char} {after : Doc}
    (laid : Phrase.Lays (· = last) after) (comma : last = [] ∨ last = [',']) (depth : Nat) :
    Aligns ('(' :: (Tree.separated texts ++ (last ++ [')']))) (Tree.enclosed depth docs after) := by
  intro a indent outside
  have counted : column (a.written ++ ['(']) = column a.written + width ['('] :=
    column_append (by decide) a.written
  have opened : a.read ['('] =
      ⟨.outside, (column a.written + width ['(']) :: a.columns, a.written ++ ['(']⟩ :=
    Aligner.read_opening outside
  rw [← List.singleton_append, Aligner.read_append, opened, Aligner.read_append,
    aligns_separated h rfl rfl]
  rw [counted, Aligner.read_closing rfl comma]
  simp only [Tree.enclosed, Phrase.plain_layout_append, Phrase.plain_layout_text, laid indent,
    Aligner.write, List.tail_cons, List.append_assoc]
  rw [← outside]
  rfl

theorem aligns_call {name : List Char} (bare : ∀ c ∈ name, isBare c = true)
    {texts : List (List Char)} {docs : List Doc} (h : List.Forall₂ Aligns texts docs)
    (style : Style) (depth : Nat) :
    Aligns (name ++ '(' :: (Tree.separated texts ++ [')']))
      (.append (.text style name) (Tree.enclosed depth docs .empty)) :=
  (aligns_enclosed h Phrase.lays_empty (.inl rfl) depth).after bare style

theorem aligns_field {name text : List Char} {d : Doc} (bare : ∀ c ∈ name, isBare c = true)
    (h : Aligns text d) : Aligns (name ++ [' ', '=', ' '] ++ text) (Tree.fieldDoc name d) := by
  have sign : ∀ c ∈ [' ', '=', ' '], isBare c = true := List.all_eq_true.mp rfl
  rw [List.append_assoc]
  exact (h.after sign .punctuation).after bare .fieldName

theorem aligns_pattern (p : Pattern) (depth : Nat) : Aligns p.chars (Tree.patternDoc depth p) := by
  cases p with
  | var x =>
    have name : ∀ c ∈ ['i', 'd'], isBare c = true := List.all_eq_true.mp rfl
    have field := aligns_field name (aligns_copied (copied_quoted x) .literal)
    have term : ∀ c ∈ "PatVar".toList, isBare c = true := bare_word rfl
    have call := aligns_call term (.cons field .nil) .patternTerm depth
    have spelled : (Pattern.var x).chars = "PatVar".toList ++
        '(' :: (Tree.separated [['i', 'd'] ++ [' ', '=', ' '] ++ quoted x] ++ [')']) := by
      change "PatVar(id = ".toList ++ quoted x ++ [')'] = _
      simp [Tree.separated]
    rw [spelled]
    exact call
  | wildcard =>
    have term : ∀ c ∈ "Wildcard".toList, isBare c = true := bare_word rfl
    exact aligns_call term .nil .patternTerm depth

end Layout

/-! ## Trees -/

namespace Tree

open Layout

variable {ι : Type}

theorem aligns_fieldDocs {fields : List Field} {values : List (Tree ι)} {depth : Nat}
    (names : ∀ f ∈ fields, Phrase.isWord f.name.toList = true)
    (h : ∀ v ∈ values, Aligns v.chars (v.doc depth)) :
    List.Forall₂ Aligns (fieldTexts fields values) (fieldDocs depth fields values) := by
  induction fields generalizing values with
  | nil => simp [fieldTexts, fieldDocs]
  | cons f fs ih =>
    cases values with
    | nil => simp [fieldTexts, fieldDocs]
    | cons v vs =>
      rw [List.forall_mem_cons] at names h
      exact .cons (aligns_field (bare_word names.1) h.1) (ih names.2 h.2)

theorem aligns_itemDocs {items : List (Tree ι)} {depth : Nat}
    (h : ∀ v ∈ items, Aligns v.chars (v.doc depth)) :
    List.Forall₂ Aligns (itemTexts items) (itemDocs depth items) := by
  induction items with
  | nil => exact .nil
  | cons v vs ih =>
    rw [List.forall_mem_cons] at h
    exact .cons h.1 (ih h.2)

theorem aligns_doc {t : Tree ι} (named : ∀ n ∈ t.nodes, n.type.Named) (depth : Nat) :
    Aligns t.chars (t.doc depth) := by
  induction t using Tree.ind generalizing depth with
  | node id type values ih =>
    obtain ⟨⟨name, fields⟩, inner⟩ := forall_nodes_node_iff.mp named
    exact aligns_call (bare_word name)
      (aligns_fieldDocs fields fun v hv => ih v hv (inner v hv) (depth + 1)) .typeName depth
  | seq id items ih =>
    have inner := forall_nodes_seq_iff.mp named
    have aligned := fun v hv => ih v hv (inner v hv) (depth + 1)
    by_cases single : items.length = 1
    · obtain ⟨item, rfl⟩ := List.length_eq_one_iff.mp single
      have one := aligns_enclosed (.cons (aligned item List.mem_cons_self) .nil)
        (fun _ _ => Phrase.plain_layout_punct [','] _ _) (.inr rfl) depth
      simpa [separated, chars, doc] using one
    · rw [chars, doc]
      · exact aligns_enclosed (aligns_itemDocs aligned) Phrase.lays_empty (.inl rfl) depth
      all_goals
        rintro item rfl
        exact single rfl
  | prim p => exact aligns_copied (copied_prim p) .literal
  | absent => exact aligns_copied (copied_bare (List.all_eq_true.mp rfl)) .keyword
  | pattern p => exact aligns_pattern p depth

theorem dumpChars_eq_realign {t : Tree ι} (named : ∀ n ∈ t.nodes, n.type.Named) :
    t.dumpChars = realign t.chars :=
  (congrArg Aligner.written (aligns_doc named 0 {} 0 rfl)).symm

/-! ## Where parts start -/

/-- What stands before the parts of a node or sequence. -/
def opening : Tree ι → List Char
  | .node _ type _ => type.name.toList ++ ['(']
  | .seq _ _ => ['(']
  | .prim _ | .absent | .pattern _ => []

/-- The parts of a node or sequence, each with what stands before it: the name of its field. -/
def elements : Tree ι → List (List Char × Tree ι)
  | .node _ type values =>
    (type.fields.zip values).map fun p => (p.1.name.toList ++ [' ', '=', ' '], p.2)
  | .seq _ items => items.map fun item => ([], item)
  | .prim _ | .absent | .pattern _ => []

/-- The one-line text up to where a part starts. -/
def lead (t : Tree ι) (i : Nat) : List Char :=
  t.opening ++ (t.elements.take i).flatMap fun e => e.1 ++ e.2.chars ++ [',', ' ']

/-- The part of a tree whose one-line text stands after the given one. -/
inductive Holds (whole : Tree ι) : List Char → Tree ι → Prop
  | root : Holds whole [] whole
  | part {before label : List Char} {t part : Tree ι} {i : Nat} :
      Holds whole before t → t.elements[i]? = some (label, part) →
        Holds whole (before ++ t.lead i ++ label) part

theorem fieldTexts_eq_map (fields : List Field) (values : List (Tree ι)) :
    fieldTexts fields values =
      (fields.zip values).map fun p => p.1.name.toList ++ [' ', '=', ' '] ++ p.2.chars := by
  induction fields generalizing values with
  | nil => simp [fieldTexts]
  | cons f fs ih =>
    cases values with
    | nil => simp [fieldTexts]
    | cons v vs => rw [fieldTexts, ih, List.zip_cons_cons, List.map_cons]

theorem itemTexts_eq_map (items : List (Tree ι)) : itemTexts items = items.map chars := by
  induction items with
  | nil => rfl
  | cons v vs ih => rw [itemTexts, ih, List.map_cons]

theorem separated_cons (text : List Char) {texts : List (List Char)} (more : texts ≠ []) :
    separated (text :: texts) = text ++ [',', ' '] ++ separated texts := by
  cases texts with
  | nil => exact absurd rfl more
  | cons text' texts => simp [separated]

theorem separated_split {texts : List (List Char)} {i : Nat} {text : List Char}
    (h : texts[i]? = some text) :
    (texts.take i).flatMap (fun u => u ++ [',', ' ']) ++ text <+: separated texts := by
  induction texts generalizing i with
  | nil => cases h
  | cons first texts ih =>
    cases i with
    | zero =>
      cases h
      cases texts with
      | nil =>
        rw [separated, List.intercalate_singleton]
        exact List.prefix_refl _
      | cons text' texts =>
        rw [separated_cons text (List.cons_ne_nil _ _), List.append_assoc]
        exact List.prefix_append _ _
    | succ i =>
      have more : texts ≠ [] := List.ne_nil_of_mem (List.mem_of_getElem? h)
      rw [separated_cons first more, List.take_succ_cons, List.flatMap_cons, List.append_assoc]
      exact (List.prefix_append_right_inj _).mpr (ih h)

theorem opening_separated {t : Tree ι} (some : t.elements ≠ []) :
    t.opening ++ separated (t.elements.map fun e => e.1 ++ e.2.chars) <+: t.chars := by
  cases t with
  | node id type values =>
    refine ⟨[')'], ?_⟩
    simp [opening, elements, chars, fieldTexts_eq_map, Function.comp_def]
  | seq id items =>
    by_cases single : items.length = 1
    · obtain ⟨item, rfl⟩ := List.length_eq_one_iff.mp single
      exact ⟨[',', ')'], by simp [opening, elements, chars, separated]⟩
    · refine ⟨[')'], ?_⟩
      rw [chars]
      · simp [opening, elements, itemTexts_eq_map, Function.comp_def]
      · rintro item rfl
        exact single rfl
  | prim p => exact absurd rfl some
  | absent => exact absurd rfl some
  | pattern p => exact absurd rfl some

theorem lead_part {t part : Tree ι} {i : Nat} {label : List Char}
    (h : t.elements[i]? = some (label, part)) : t.lead i ++ label ++ part.chars <+: t.chars := by
  have text : (t.elements.map fun e => e.1 ++ e.2.chars)[i]? = some (label ++ part.chars) := by
    rw [List.getElem?_map, h]
    rfl
  have start := (List.prefix_append_right_inj t.opening).mpr (separated_split text)
  have whole := opening_separated (List.ne_nil_of_mem (List.mem_of_getElem? h))
  rw [← List.map_take, List.flatMap_map] at start
  simp only [lead, List.append_assoc] at start whole ⊢
  exact start.trans whole

end Tree

namespace Layout

theorem Aligner.written_read (a : Aligner) (text : List Char) :
    a.written <+: (a.read text).written := by
  induction text generalizing a with
  | nil => exact List.prefix_refl _
  | cons c text ih =>
    refine List.IsPrefix.trans ?_ (ih (a.step c))
    unfold step
    split <;> exact List.prefix_append _ _

theorem realign_prefix {first whole : List Char} (h : first <+: whole) :
    realign first <+: realign whole := by
  obtain ⟨rest, rfl⟩ := h
  rw [realign, realign, Aligner.read_append]
  exact Aligner.written_read _ rest

/-- Read outside of literals, the text is written in some way, with no parenthesis left open. -/
def Level (text : List Char) : Prop :=
  ∀ a : Aligner, a.mode = .outside → ∃ out, a.read text = a.write out

theorem Aligns.level {text : List Char} {d : Doc} (h : Aligns text d) : Level text :=
  fun a outside => ⟨_, h a 0 outside⟩

theorem Copied.level {first second : List Char} (h : Copied first) (hs : Level second) :
    Level (first ++ second) := by
  intro a outside
  obtain ⟨out, read⟩ := hs (a.write first) outside
  exact ⟨first ++ out, by rw [Aligner.read_append, h a outside, read, Aligner.write_write]⟩

/-- A part that comes after others starts in the column of the innermost open parenthesis. -/
theorem column_after {texts : List (List Char)} (level : ∀ text ∈ texts, Level text) {a : Aligner}
    (outside : a.mode = .outside) (innermost : a.columns.headD 0 = column a.written) :
    (a.read (texts.flatMap fun text => text ++ [',', ' '])).mode = .outside ∧
      column (a.read (texts.flatMap fun text => text ++ [',', ' '])).written =
        column a.written := by
  induction texts generalizing a with
  | nil => exact ⟨outside, rfl⟩
  | cons text texts ih =>
    rw [List.forall_mem_cons] at level
    obtain ⟨out, read⟩ := level.1 a outside
    let b := (a.write out).write (',' :: newlineChars (a.columns.headD 0))
    have broken : a.read (text ++ [',', ' ']) = b := by
      rw [Aligner.read_append, read]
      exact Aligner.read_separator outside
    have counted : column b.written = column a.written := by
      have line := column_newline (a.written ++ out ++ [',']) (a.columns.headD 0)
      rw [List.append_assoc] at line
      exact line.trans innermost
    obtain ⟨mode, same⟩ := ih level.2 (a := b) outside (innermost.trans counted.symm)
    rw [List.flatMap_cons, Aligner.read_append, broken]
    exact ⟨mode, same.trans counted⟩

end Layout

namespace Tree

open Layout

variable {ι : Type} {t whole : Tree ι}

theorem named_elements (named : ∀ n ∈ t.nodes, n.type.Named) :
    ∀ e ∈ t.elements, Copied e.1 ∧ ∀ n ∈ e.2.nodes, n.type.Named := by
  intro e he
  cases t with
  | node id type values =>
    obtain ⟨⟨-, fields⟩, inner⟩ := forall_nodes_node_iff.mp named
    obtain ⟨⟨field, value⟩, member, rfl⟩ := List.mem_map.mp he
    obtain ⟨hf, hv⟩ := List.of_mem_zip member
    have name : Copied field.name.toList := copied_bare (bare_word (fields field hf))
    exact ⟨name.append (copied_bare (List.all_eq_true.mp rfl)), inner value hv⟩
  | seq id items =>
    obtain ⟨item, member, rfl⟩ := List.mem_map.mp he
    exact ⟨copied_bare (List.forall_mem_nil _), forall_nodes_seq_iff.mp named item member⟩
  | prim p => cases he
  | absent => cases he
  | pattern p => cases he

theorem read_opening (named : ∀ n ∈ t.nodes, n.type.Named) (some : t.elements ≠ []) {a : Aligner}
    (outside : a.mode = .outside) :
    (a.read t.opening).mode = .outside ∧
      (a.read t.opening).columns.headD 0 = column (a.read t.opening).written := by
  have opened {b : Aligner} (outside : b.mode = .outside) :
      (b.read ['(']).mode = .outside ∧
        (b.read ['(']).columns.headD 0 = column (b.read ['(']).written := by
    have counted : column (b.written ++ ['(']) = column b.written + 1 :=
      column_append (by decide) b.written
    rw [Aligner.read_opening outside]
    exact ⟨rfl, counted.symm⟩
  cases t with
  | node id type values =>
    rw [opening, Aligner.read_append, copied_bare (bare_word (forall_nodes_node_iff.mp named).1.1) a outside]
    exact opened outside
  | seq id items => exact opened outside
  | prim p => exact absurd rfl some
  | absent => exact absurd rfl some
  | pattern p => exact absurd rfl some

theorem column_lead (named : ∀ n ∈ t.nodes, n.type.Named) (some : t.elements ≠ []) {a : Aligner}
    (outside : a.mode = .outside) (i : Nat) :
    (a.read (t.lead i)).mode = .outside ∧
      column (a.read (t.lead i)).written = column (a.read t.opening).written := by
  obtain ⟨mode, innermost⟩ := read_opening named some outside
  have level : ∀ text ∈ (t.elements.take i).map fun e => e.1 ++ e.2.chars, Level text := by
    intro text member
    obtain ⟨e, he, rfl⟩ := List.mem_map.mp member
    obtain ⟨label, inner⟩ := named_elements named e (List.mem_of_mem_take he)
    exact label.level (aligns_doc inner 0).level
  have after := column_after level mode innermost
  rw [List.flatMap_map] at after
  rw [lead, Aligner.read_append]
  exact after

theorem Holds.reached (named : ∀ n ∈ whole.nodes, n.type.Named) {before : List Char}
    (h : Holds whole before t) :
    before ++ t.chars <+: whole.chars ∧ (Aligner.read {} before).mode = .outside ∧
      ∀ n ∈ t.nodes, n.type.Named := by
  induction h with
  | root => exact ⟨List.prefix_refl _, rfl, named⟩
  | @part before label t part i _ element ih =>
    obtain ⟨start, outside, inner⟩ := ih
    have member := List.mem_of_getElem? element
    obtain ⟨copied, own⟩ := named_elements inner _ member
    obtain ⟨mode, -⟩ := column_lead inner (List.ne_nil_of_mem member) outside i
    refine ⟨?_, ?_, own⟩
    · have more := (List.prefix_append_right_inj before).mpr (lead_part element)
      simp only [List.append_assoc] at more start ⊢
      exact more.trans start
    · rw [Aligner.read_append, Aligner.read_append, copied _ mode]
      exact mode

end Tree

/-! ## Blanks -/

namespace Layout

/-- The text without its blanks, apart from those in literals. -/
def ink : Mode → List Char → List Char
  | _, [] => []
  | mode, c :: text =>
    if mode.within = false ∧ (c = ' ' ∨ c = '\n') then ink (mode.next c) text
    else c :: ink (mode.next c) text

theorem ink_append (mode : Mode) (first second : List Char) :
    ink mode (first ++ second) = ink mode first ++ ink (first.foldl Mode.next mode) second := by
  induction first generalizing mode with
  | nil => rfl
  | cons c first ih =>
    rw [List.cons_append, ink, ink, ih, List.foldl_cons]
    split <;> rfl

theorem next_spaces (k : Nat) : (List.replicate k ' ').foldl Mode.next .outside = .outside := by
  induction k with
  | zero => rfl
  | succ k ih => exact ih

theorem ink_spaces (k : Nat) : ink .outside (List.replicate k ' ') = [] := by
  induction k with
  | zero => rfl
  | succ k ih => exact ih

namespace Aligner

/-- The reader stands in what it has written as in what it has read. -/
def Faithful (a : Aligner) : Prop := a.written.foldl Mode.next .outside = a.mode

theorem ink_step {a : Aligner} (faithful : a.Faithful) (c : Char) :
    (a.step c).Faithful ∧
      ink .outside (a.step c).written = ink .outside a.written ++ ink a.mode [c] := by
  unfold Faithful at faithful ⊢
  unfold step
  split
  · rename_i separator
    obtain ⟨comma, rfl⟩ := separator
    rw [comma] at faithful
    rw [List.foldl_append, ink_append, faithful, comma]
    exact ⟨next_spaces _, congrArg _ (ink_spaces _)⟩
  · rw [List.foldl_append, ink_append, faithful]
    exact ⟨rfl, rfl⟩

theorem ink_read {a : Aligner} (faithful : a.Faithful) (text : List Char) :
    ink .outside (a.read text).written = ink .outside a.written ++ ink a.mode text := by
  induction text generalizing a with
  | nil => exact (List.append_nil _).symm
  | cons c text ih =>
    obtain ⟨kept, written⟩ := ink_step faithful c
    have mode : (a.step c).mode = a.mode.next c := by
      unfold step
      split
      · rename_i separator
        rw [separator.1, separator.2]
        rfl
      · rfl
    have split : ink a.mode (c :: text) = ink a.mode [c] ++ ink (a.mode.next c) text :=
      ink_append a.mode [c] text
    rw [read_cons, ih kept, written, mode, split, List.append_assoc]

end Aligner

theorem ink_realign (text : List Char) : ink .outside (realign text) = ink .outside text := by
  have faithful : Aligner.Faithful {} := rfl
  exact Aligner.ink_read faithful text

end Layout

/-! ## Dumps -/

namespace Tree

open Layout

variable {ι : Type}

/-- The dump of a tree is its one-line text, realigned: every space after a comma between parts is
a line break and as many spaces as there are characters before the parts, on the line of the dump
that the parenthesis around them is opened on. So the two texts differ in blanks only, and all parts
of a node or sequence, wherever it lies in the tree, start in one column of the dump. -/
theorem dump_aligned {tree : Tree ι} (named : ∀ n ∈ tree.nodes, n.type.Named) :
    tree.dump = String.ofList (realign tree.display.toList) ∧
      ink .outside tree.dump.toList = ink .outside tree.display.toList ∧
      ∀ before t, tree.Holds before t → ∀ i < t.elements.length,
        before ++ t.lead i <+: tree.display.toList ∧
          realign (before ++ t.lead i) <+: tree.dump.toList ∧
          column (realign (before ++ t.lead i)) = column (realign (before ++ t.opening)) := by
  have dumped := dumpChars_eq_realign named
  rw [dump, display, String.toList_ofList, String.toList_ofList, dumped]
  refine ⟨rfl, ink_realign _, fun before t holds i bound => ?_⟩
  obtain ⟨start, outside, inner⟩ := holds.reached named
  have element := List.getElem?_eq_getElem bound
  have read : before ++ t.lead i <+: tree.chars := by
    have part := lead_part element
    rw [List.append_assoc] at part
    exact ((List.prefix_append_right_inj before).mpr
      ((List.prefix_append _ _).trans part)).trans start
  refine ⟨read, realign_prefix read, ?_⟩
  rw [realign, realign, Aligner.read_append, Aligner.read_append]
  exact (column_lead inner (List.ne_nil_of_mem (List.mem_of_getElem? element)) outside i).2

def entryType : NodeType := .plain "Entry" 1 [.object "key", .object "items"]

/-- A comma and parentheses in a literal, an empty sequence and one with a single item. -/
def entries : Shape :=
  .node () entryType [.prim (.str "(a, b"),
    .seq () [.node () entryType [.absent, .seq () []], .seq () [.prim (.int 1)]]]

theorem dump_aligned_entries :
    let line := "Entry(key = \x22(a, b\x22, items = (Entry(key = None, items = ()), (1,)))"
    let lines := "Entry(key = \x22(a, b\x22,\n      items = (Entry(key = None,\n" ++
      "                     items = ()),\n               (1,)))"
    (∀ n ∈ entries.nodes, n.type.Named) ∧ entries.display = line ∧ entries.dump = lines ∧
      String.ofList (realign line.toList) = lines := by
  intro line lines
  have named : ∀ n ∈ entries.nodes, n.type.Named := by
    have entry : entryType.Named := ⟨rfl, by simp [entryType]; decide⟩
    simp [entries, nodes, nodesAll, entry]
  have displayed : entries.display = line := by rfl
  have dumped : entries.dump = lines := by rfl
  have aligned := (dump_aligned named).1
  rw [displayed, dumped] at aligned
  exact ⟨named, displayed, dumped, aligned.symm⟩

end Tree

end Arbor
