import StackDepth.Proofs.Text.Readers
import StackDepth.Report.Drawing

/-!
# Reading escapes back

A label of a drawing ends at the first quote that no backslash stands before. What an escaper writes
has no such quote and no line end in it, and the text that was given to it can be read off; where
the text was cut when it was given makes no difference.

* `Stop`, `Alphabet.scan`: where a reader that skips escapes stops;
* `Alphabet.decode`: what a reader takes the text for;
* `scan_escape_append`, `decode_escape_append`: both pass over escaped text as a whole;
* `escapes_read_back`: so the chunks that an escaper is given stand in what it writes;
* `bytesOf_escapeText`: a text is escaped as its bytes are;
* `boxLabel_eq_escapeText`, `boxLabel_read_back`: what a box says is escaped whole, so that its
  label ends at its own quote.
-/

namespace StackDepth.Report

open StackDepth.Text

/-! ## 1. Readers of escaped text -/

/-- Where a reader of quoted text stops. -/
inductive Stop (α : Type) where
  /-- At a closing quote, with `rest` after it. -/
  | closed (rest : List α)
  /-- At the end of what there is to read. -/
  | inside
  /-- At the end of what there is to read, with the second sign of an escape due. -/
  | inEscape

namespace Alphabet

variable {α : Type} [DecidableEq α] (s : Alphabet α)

/-- Reads on after an opening quote. The sign after a backslash is skipped, whatever it is. -/
def scan : List α → Stop α
  | [] => .inside
  | c :: rest =>
    if c = s.quote then .closed rest
    else if c = s.backslash then
      match rest with
      | [] => .inEscape
      | _ :: rest => scan rest
    else scan rest

/-- The text that escaped text stands for: a backslash and `n` for a line end, a backslash and
    another sign for that sign, all else for itself. -/
def decode : List α → List α
  | [] => []
  | c :: rest =>
    if c = s.backslash then
      match rest with
      | [] => [c]
      | d :: rest => (if d = s.letterN then s.lineEnd else d) :: decode rest
    else c :: decode rest

/-- No two of the signs are the same. -/
structure Distinct : Prop where
  quote_ne_backslash : s.quote ≠ s.backslash
  quote_ne_lineEnd : s.quote ≠ s.lineEnd
  quote_ne_letterN : s.quote ≠ s.letterN
  backslash_ne_lineEnd : s.backslash ≠ s.lineEnd
  backslash_ne_letterN : s.backslash ≠ s.letterN
  lineEnd_ne_letterN : s.lineEnd ≠ s.letterN

/-! ## 2. One sign -/

variable {s} {c : α} {rest : List α}

theorem scan_quote : s.scan (s.quote :: rest) = .closed rest := by
  rw [scan.eq_def]
  exact if_pos rfl

theorem scan_plain (hquote : c ≠ s.quote) (hbackslash : c ≠ s.backslash) :
    s.scan (c :: rest) = s.scan rest := by
  rw [scan.eq_def]
  exact (if_neg hquote).trans (if_neg hbackslash)

theorem scan_backslash (hs : s.Distinct) : s.scan (s.backslash :: c :: rest) = s.scan rest := by
  rw [scan.eq_def]
  exact (if_neg hs.quote_ne_backslash.symm).trans (if_pos rfl)

theorem decode_plain (hbackslash : c ≠ s.backslash) :
    s.decode (c :: rest) = c :: s.decode rest := by
  rw [decode.eq_def]
  exact if_neg hbackslash

theorem decode_backslash (s : Alphabet α) (c : α) (rest : List α) :
    s.decode (s.backslash :: c :: rest) =
      (if c = s.letterN then s.lineEnd else c) :: s.decode rest := by
  rw [decode.eq_def]
  exact if_pos rfl

/-- A sign is written as itself or with a backslash. -/
theorem escapeOne_cases (s : Alphabet α) (c : α) :
    ((c = s.quote ∨ c = s.backslash) ∧ s.escapeOne c = [s.backslash, c]) ∨
      (c = s.lineEnd ∧ s.escapeOne c = [s.backslash, s.letterN]) ∨
      (c ≠ s.quote ∧ c ≠ s.backslash ∧ c ≠ s.lineEnd ∧ s.escapeOne c = [c]) := by
  unfold escapeOne
  by_cases hmark : c = s.quote ∨ c = s.backslash
  · exact .inl ⟨hmark, if_pos hmark⟩
  · rw [if_neg hmark]
    obtain ⟨hquote, hbackslash⟩ := not_or.mp hmark
    by_cases hend : c = s.lineEnd
    · exact .inr (.inl ⟨hend, if_pos hend⟩)
    · exact .inr (.inr ⟨hquote, hbackslash, hend, if_neg hend⟩)

theorem scan_escapeOne_append (hs : s.Distinct) (c : α) (rest : List α) :
    s.scan (s.escapeOne c ++ rest) = s.scan rest := by
  rcases s.escapeOne_cases c with ⟨_, h⟩ | ⟨_, h⟩ | ⟨hquote, hbackslash, _, h⟩
  · rw [h]
    exact scan_backslash hs
  · rw [h]
    exact scan_backslash hs
  · rw [h]
    exact scan_plain hquote hbackslash

theorem decode_escapeOne_append (hs : s.Distinct) (c : α) (rest : List α) :
    s.decode (s.escapeOne c ++ rest) = c :: s.decode rest := by
  rcases s.escapeOne_cases c with ⟨hmark, h⟩ | ⟨hend, h⟩ | ⟨_, hbackslash, _, h⟩
  · -- neither mark is taken for the letter of a line end
    have hne : c ≠ s.letterN := by
      rcases hmark with rfl | rfl
      · exact hs.quote_ne_letterN
      · exact hs.backslash_ne_letterN
    have hdecode := s.decode_backslash c rest
    rw [if_neg hne] at hdecode
    rw [h]
    exact hdecode
  · have hdecode := s.decode_backslash s.letterN rest
    rw [if_pos rfl] at hdecode
    rw [h, hend]
    exact hdecode
  · rw [h]
    exact decode_plain hbackslash

theorem lineEnd_notMem_escapeOne (hs : s.Distinct) (c : α) : s.lineEnd ∉ s.escapeOne c := by
  rcases s.escapeOne_cases c with ⟨hmark, h⟩ | ⟨_, h⟩ | ⟨_, _, hend, h⟩
  · have hne : s.lineEnd ≠ c := by
      rcases hmark with rfl | rfl
      · exact hs.quote_ne_lineEnd.symm
      · exact hs.backslash_ne_lineEnd.symm
    simp only [h, List.mem_cons, List.not_mem_nil, hs.backslash_ne_lineEnd.symm, hne, or_self,
      not_false_eq_true]
  · simp only [h, List.mem_cons, List.not_mem_nil, hs.backslash_ne_lineEnd.symm,
      hs.lineEnd_ne_letterN, or_self, not_false_eq_true]
  · rw [h, List.mem_singleton]
    exact hend.symm

/-! ## 3. Whole texts -/

/-- **A scanner passes over escaped text** and stops where it would have stopped without it. -/
theorem scan_escape_append (hs : s.Distinct) (cs rest : List α) :
    s.scan (s.escape cs ++ rest) = s.scan rest := by
  induction cs with
  | nil => rfl
  | cons c cs ih => rw [escape_cons, List.append_assoc, scan_escapeOne_append hs, ih]

/-- **Escaped text is decoded to what it was made from**, whatever follows it. -/
theorem decode_escape_append (hs : s.Distinct) (cs rest : List α) :
    s.decode (s.escape cs ++ rest) = cs ++ s.decode rest := by
  induction cs with
  | nil => rfl
  | cons c cs ih =>
    rw [escape_cons, List.append_assoc, decode_escapeOne_append hs, ih, List.cons_append]

theorem lineEnd_notMem_escape (hs : s.Distinct) (cs : List α) : s.lineEnd ∉ s.escape cs := by
  intro h
  obtain ⟨c, _, hc⟩ := List.mem_flatMap.mp h
  exact lineEnd_notMem_escapeOne hs c hc

theorem scan_escape (hs : s.Distinct) (cs : List α) : s.scan (s.escape cs) = .inside := by
  have h := scan_escape_append hs cs []
  rw [List.append_nil] at h
  exact h

theorem decode_escape (hs : s.Distinct) (cs : List α) : s.decode (s.escape cs) = cs := by
  have h := decode_escape_append hs cs []
  rw [List.append_nil] at h
  exact h.trans (List.append_nil cs)

/-- The quote that closes escaped text is the first one that a scanner sees. -/
theorem scan_escape_quote (hs : s.Distinct) (cs rest : List α) :
    s.scan (s.escape cs ++ s.quote :: rest) = .closed rest := by
  rw [scan_escape_append hs, scan_quote]

/-- Text without marks and line ends is its own escape. -/
theorem escape_eq_self {cs : List α}
    (h : ∀ c ∈ cs, c ≠ s.quote ∧ c ≠ s.backslash ∧ c ≠ s.lineEnd) : s.escape cs = cs := by
  induction cs with
  | nil => rfl
  | cons c cs ih =>
    obtain ⟨⟨hquote, hbackslash, hend⟩, hcs⟩ := List.forall_mem_cons.mp h
    have hc : s.escapeOne c = [c] := by
      rw [escapeOne, if_neg (not_or.mpr ⟨hquote, hbackslash⟩), if_neg hend]
    rw [escape_cons, hc, ih hcs, List.singleton_append]

end Alphabet

/-! ## 4. Escapers -/

theorem distinct_byteSigns : byteSigns.Distinct := by constructor <;> decide

theorem distinct_charSigns : charSigns.Distinct := by constructor <;> decide

namespace Escaper

variable (e : Escaper)

theorem output_write (chunk : List UInt8) :
    (e.write chunk).2.output.toList = e.output.toList ++ byteSigns.escape chunk := by
  rw [write, Array.toList_append, List.toList_toArray]

/-- Two chunks are written as one. -/
theorem write_write (chunk more : List UInt8) :
    ((e.write chunk).2.write more).2 = (e.write (chunk ++ more)).2 := by
  simp only [write, Alphabet.escape_append, Array.append_assoc, List.append_toArray]

theorem write_nil : (e.write []).2 = e := by
  simp [write]

theorem writeAll_cons (chunk : List UInt8) (chunks : List (List UInt8)) :
    e.writeAll (chunk :: chunks) =
      (chunk.length :: ((e.write chunk).2.writeAll chunks).1,
        ((e.write chunk).2.writeAll chunks).2) :=
  rfl

/-- **Chunks are written as the text that they are cut from.** -/
theorem writeAll_eq_write (chunks : List (List UInt8)) :
    (e.writeAll chunks).2 = (e.write chunks.flatten).2 := by
  induction chunks generalizing e with
  | nil => exact e.write_nil.symm
  | cons chunk chunks ih => rw [writeAll_cons, ih, write_write, List.flatten_cons]

theorem lengths_writeAll (chunks : List (List UInt8)) :
    (e.writeAll chunks).1 = chunks.map List.length := by
  induction chunks generalizing e with
  | nil => rfl
  | cons chunk chunks ih => rw [writeAll_cons, ih, List.map_cons]

end Escaper

/-- **Escaping loses nothing and cannot end the label**, wherever the bytes are cut and whatever was
    written before: every chunk is taken whole; the output is that of one write; it has no line end;
    a scanner that reads it meets no quote and is not left inside an escape, so that the label ends
    at the quote after it; and it is decoded to the bytes that were given. -/
theorem escapes_read_back (e : Escaper) (chunks : List (List UInt8)) :
    (e.writeAll chunks).1 = chunks.map List.length ∧
      (e.writeAll chunks).2 = (e.write chunks.flatten).2 ∧
      ∃ written, (e.writeAll chunks).2.output.toList = e.output.toList ++ written ∧
        byteSigns.lineEnd ∉ written ∧
        byteSigns.scan written = .inside ∧
        (∀ rest, byteSigns.scan (written ++ byteSigns.quote :: rest) = .closed rest) ∧
        byteSigns.decode written = chunks.flatten := by
  have hs := distinct_byteSigns
  refine ⟨e.lengths_writeAll chunks, e.writeAll_eq_write chunks,
    byteSigns.escape chunks.flatten, ?_, Alphabet.lineEnd_notMem_escape hs _,
    Alphabet.scan_escape hs _, Alphabet.scan_escape_quote hs _, Alphabet.decode_escape hs _⟩
  rw [e.writeAll_eq_write, e.output_write]

/-- A line end and a backslash before `n` are told apart, also where the chunks part them. -/
example : byteSigns.escape [92, 110, 10] = [92, 92, 110, 92, 110] ∧
    (({} : Escaper).writeAll [[92], [110, 10]]).2.output = #[92, 92, 110, 92, 110] := by decide

/-! ## 5. Text and its bytes -/

/-- A character outside of ASCII has no byte in common with it. -/
theorem le_of_mem_utf8EncodeChar {c : Char} (hc : 128 ≤ c.toNat) {b : UInt8}
    (hb : b ∈ String.utf8EncodeChar c) : 128 ≤ b.toNat := by
  have hval : c.val.toNat = c.toNat := rfl
  rw [String.utf8EncodeChar.eq_1, hval] at hb
  generalize c.toNat = n at hc hb
  have hbyte : ∀ m, 128 ≤ m → m < 256 → 128 ≤ (UInt8.ofNat m).toNat := by
    intro m hle hlt
    rw [UInt8.toNat_ofNat_of_lt' hlt]
    exact hle
  split at hb
  · omega
  split at hb
  · simp only [List.mem_cons, List.not_mem_nil, or_false] at hb
    rcases hb with rfl | rfl
    all_goals exact hbyte _ (by omega) (by omega)
  split at hb
  · simp only [List.mem_cons, List.not_mem_nil, or_false] at hb
    rcases hb with rfl | rfl | rfl
    all_goals exact hbyte _ (by omega) (by omega)
  · simp only [List.mem_cons, List.not_mem_nil, or_false] at hb
    rcases hb with rfl | rfl | rfl | rfl
    all_goals exact hbyte _ (by omega) (by omega)

theorem escape_utf8EncodeChar (c : Char) : byteSigns.escape (String.utf8EncodeChar c) =
    (charSigns.escapeOne c).flatMap String.utf8EncodeChar := by
  by_cases hc : c.toNat < 128
  · have hall : ∀ n < 128, byteSigns.escape (String.utf8EncodeChar (Char.ofNat n)) =
        (charSigns.escapeOne (Char.ofNat n)).flatMap String.utf8EncodeChar := by
      decide +kernel
    rw [← Char.ofNat_toNat c]
    exact hall c.toNat hc
  · -- the signs are all of ASCII
    have hle : 128 ≤ c.toNat := Nat.le_of_not_lt hc
    have hbytes : byteSigns.escape (String.utf8EncodeChar c) = String.utf8EncodeChar c := by
      refine Alphabet.escape_eq_self fun b hb => ?_
      have hb := le_of_mem_utf8EncodeChar hle hb
      refine ⟨?_, ?_, ?_⟩
      all_goals
        rintro rfl
        exact absurd hb (by decide)
    have hone : charSigns.escape [c] = [c] := by
      refine Alphabet.escape_eq_self fun d hd => ?_
      cases List.mem_singleton.mp hd
      refine ⟨?_, ?_, ?_⟩
      all_goals
        rintro rfl
        exact absurd hle (by decide)
    rw [Alphabet.escape_cons, Alphabet.escape_nil, List.append_nil] at hone
    rw [hbytes, hone, List.flatMap_singleton]

/-- The bytes of a text. -/
def bytesOf (text : String) : List UInt8 := text.toUTF8.data.toList

theorem bytesOf_eq (text : String) : bytesOf text = text.toList.flatMap String.utf8EncodeChar := by
  have h : text.toUTF8 = text.toList.utf8Encode := String.utf8Encode_toList.symm
  rw [bytesOf, h, List.utf8Encode, List.toList_data_toByteArray]

/-- **A text is escaped as its bytes are.** -/
theorem bytesOf_escapeText (text : String) :
    bytesOf (escapeText text) = byteSigns.escape (bytesOf text) := by
  rw [bytesOf_eq, bytesOf_eq, escapeText, String.toList_ofList]
  induction text.toList with
  | nil => rfl
  | cons c cs ih =>
    rw [Alphabet.escape_cons, List.flatMap_append, ih, List.flatMap_cons, Alphabet.escape_append,
      escape_utf8EncodeChar]

/-! ## 6. Labels -/

/-- The lines that a box shows. -/
def boxText (f : Function) : String :=
  Symbol.readable f.name ++ "\nmax " ++ f.bound.text ++ "\nlocal = " ++ decimal f.size

theorem escapeText_append (text more : String) :
    escapeText (text ++ more) = escapeText text ++ escapeText more := by
  rw [escapeText, String.toList_append, Alphabet.escape_append, String.ofList_append]
  rfl

theorem escapeText_eq_self {text : String} (h : ∀ c ∈ text.toList, c ≠ '"' ∧ c ≠ '\\' ∧ c ≠ '\n') :
    escapeText text = text := by
  rw [escapeText, Alphabet.escape_eq_self h, String.ofList_toList]

theorem escapeText_decimal (n : Nat) : escapeText (decimal n) = decimal n := by
  refine escapeText_eq_self fun c hc => ?_
  rw [decimal, String.toList_ofList] at hc
  have hc := isHexDigit_of_mem_toDigits (by decide) (by decide) hc
  refine ⟨?_, ?_, ?_⟩
  all_goals
    rintro rfl
    exact absurd hc (by decide)

theorem escapeText_bound (b : Bound) : escapeText b.text = b.text := by
  cases b with
  | exact n => exact escapeText_decimal n
  | atLeast n =>
    have hmark : escapeText ">" = ">" := by decide
    rw [Bound.text, escapeText_append, hmark, escapeText_decimal]

/-- **What a box says is escaped whole**, its line ends too. -/
theorem boxLabel_eq_escapeText {n : Node} (hn : n ≠ CallGraph.pointer) (f : Function) :
    boxLabel n f = escapeText (boxText f) := by
  have hmax : escapeText "\nmax " = "\\nmax " := by decide
  have hlocal : escapeText "\nlocal = " = "\\nlocal = " := by decide
  rw [boxLabel, if_neg (mt beq_iff_eq.mp hn), boxText]
  simp only [escapeText_append, hmax, hlocal, escapeText_bound, escapeText_decimal]

/-- **A label ends at its own quote**, and shows the lines of its box. -/
theorem boxLabel_read_back {n : Node} (hn : n ≠ CallGraph.pointer) (f : Function)
    (rest : List Char) :
    charSigns.scan ((boxLabel n f).toList ++ '"' :: rest) = .closed rest ∧
      charSigns.decode (boxLabel n f).toList = (boxText f).toList := by
  rw [boxLabel_eq_escapeText hn, escapeText, String.toList_ofList]
  exact ⟨Alphabet.scan_escape_quote distinct_charSigns _ rest,
    Alphabet.decode_escape distinct_charSigns _⟩

end StackDepth.Report
