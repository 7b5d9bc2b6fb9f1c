import StackDepth.Proofs.Listing.DirectCalls

/-!
# Decrements of the stack pointer

The line of a decrement has the amount as a number, in decimal or hexadecimal digits of any length.
What the line is read as is a function of that number alone, whatever the dialect, the form of the
instruction and the base.

* `Numeral`, `number_text`, `immediate?_text`: numbers as they are written, and what is read off
  them;
* `frameLine`, `frameLine_eq`: what becomes of an amount;
* `DecrementForm`, `Decrement`: the forms of a decrement, and its text;
* `X86.readCode_decrement`, `Arm.readCode_decrement`: what the dialects make of such a line;
* `decrement_classified`: the line is read as the decrement it is.
-/

namespace StackDepth.Listing

open StackDepth.Text

/-! ## 1. Numbers as they are written -/

/-- The bases that amounts are written in. -/
inductive Numeral where
  | decimal
  | hexadecimal

theorem Arm.isAlphanumeric_of_isDecimalDigit {c : Char} (h : isDecimalDigit c = true) :
    isAlphanumeric c = true := by
  rw [isAlphanumeric, h]
  rfl

theorem Arm.isAlphanumeric_of_isHexDigit {c : Char} (h : isHexDigit c = true) :
    isAlphanumeric c = true := by
  rw [isHexDigit, Bool.or_eq_true] at h
  rcases h with h | h
  · exact isAlphanumeric_of_isDecimalDigit h
  · -- the letters up to `f` are letters up to `z`
    have hlower : isLower c = true := by
      simp only [isLower, Bool.and_eq_true, decide_eq_true_eq] at h ⊢
      exact ⟨h.1, Nat.le_trans h.2 (by decide)⟩
    rw [isAlphanumeric, hlower, Bool.or_true]
    rfl

namespace Numeral

def text : Numeral → Nat → List Char
  | .decimal, n => (Text.decimal n).toList
  | .hexadecimal, n => "0x".toList ++ (hex n).toList

variable (b : Numeral) (n : Nat) {rest : List Char} {c : Char}

theorem text_decimal : text .decimal n = Nat.toDigits 10 n := String.toList_ofList

theorem text_hexadecimal : text .hexadecimal n = '0' :: 'x' :: Nat.toDigits 16 n :=
  congrArg ("0x".toList ++ ·) String.toList_ofList

theorem isDecimalDigit_of_mem (hc : c ∈ Nat.toDigits 10 n) : isDecimalDigit c = true := by
  have hdigit : ∀ d < 10, isDecimalDigit (Nat.digitChar d) = true := by decide
  exact of_mem_toDigits (P := (isDecimalDigit · = true)) (by decide) hdigit hc

theorem isHexDigit_of_mem (hc : c ∈ Nat.toDigits 16 n) : isHexDigit c = true :=
  isHexDigit_of_mem_toDigits (by decide) (by decide) hc

/-- A number is written with digits, and the letter of its base. -/
theorem mem_text (hc : c ∈ b.text n) : isHexDigit c = true ∨ c = 'x' := by
  cases b with
  | decimal =>
    rw [text_decimal] at hc
    exact .inl (isHexDigit_of_mem_toDigits (by decide) (by decide) hc)
  | hexadecimal =>
    rw [text_hexadecimal] at hc
    rcases List.mem_cons.mp hc with rfl | hc
    · exact .inl (by decide)
    · exact (List.mem_cons.mp hc).symm.imp_left (isHexDigit_of_mem n)

theorem exists_text : ∃ d ds, b.text n = d :: ds ∧ isDecimalDigit d = true := by
  cases b with
  | decimal =>
    obtain ⟨d, ds, h⟩ := List.exists_cons_of_ne_nil (toDigits_ne_nil (n := n) (by decide : 1 < 10))
    refine ⟨d, ds, (text_decimal n).trans h, isDecimalDigit_of_mem n ?_⟩
    rw [h]
    exact List.mem_cons_self
  | hexadecimal => exact ⟨'0', 'x' :: Nat.toDigits 16 n, text_hexadecimal n, by decide⟩

theorem isAlphanumeric_of_mem (hc : c ∈ b.text n) : Arm.isAlphanumeric c = true := by
  rcases b.mem_text n hc with h | rfl
  · exact Arm.isAlphanumeric_of_isHexDigit h
  · decide

/-- **A number ends where its letters and digits end.** -/
theorem number_text (hrest : Bounds Arm.isAlphanumeric rest) :
    number (b.text n ++ rest) = some (b.text n, rest) := by
  cases b with
  | decimal =>
    have hrun : run isDecimalDigit (Nat.toDigits 10 n ++ rest) = some (Nat.toDigits 10 n, rest) :=
      run_append (toDigits_ne_nil (by decide)) (fun _ => isDecimalDigit_of_mem n)
        (hrest.mono fun _ => Arm.isAlphanumeric_of_isDecimalDigit)
    rw [text_decimal]
    unfold number
    split
    · -- the digits would be a zero, and `x` would follow them
      rename_i r hx
      have hzero : run isDecimalDigit ('0' :: 'x' :: r) = some (['0'], 'x' :: r) := rfl
      rw [hx, hzero] at hrun
      have hafter : rest = 'x' :: r := (Prod.mk.inj (Option.some.inj hrun)).2.symm
      rw [hafter, bounds_cons] at hrest
      exact absurd hrest (by decide)
    · exact hrun
  | hexadecimal =>
    have hrun : run isHexDigit (Nat.toDigits 16 n ++ rest) = some (Nat.toDigits 16 n, rest) :=
      run_append (toDigits_ne_nil (by decide)) (fun _ => isHexDigit_of_mem n)
        (hrest.mono fun _ => Arm.isAlphanumeric_of_isHexDigit)
    rw [text_hexadecimal, List.cons_append, List.cons_append, number, hrun]

/-- **A number is read as it was written**, if it fits a word. -/
theorem immediate?_text : immediate? (b.text n) = (some n).filter (· < wordLimit) := by
  have hword : ∀ base, 1 < base → base ≤ 16 →
      word? base (Nat.toDigits base n) = (some n).filter (· < wordLimit) := by
    intro base hone hbase
    rw [word?_toDigits hone hbase, Option.filter_some]
    simp only [decide_eq_true_eq]
  cases b with
  | decimal =>
    rw [text_decimal]
    unfold immediate?
    split
    · -- no decimal digit is `x`
      rename_i ds hx
      have hdigit : 'x' ∈ Nat.toDigits 10 n := by
        rw [hx]
        exact List.mem_cons_of_mem _ List.mem_cons_self
      exact absurd (isDecimalDigit_of_mem n hdigit) (by decide)
    · exact hword 10 (by decide) (by decide)
  | hexadecimal =>
    rw [text_hexadecimal]
    exact hword 16 (by decide) (by decide)

end Numeral

/-! ## 2. What becomes of an amount -/

/-- What a decrement by `amount` is read as: a frame of that size, or of the negative number that 32
    bits of it are; no frame is so large that it is neither. -/
def frameLine (amount : Nat) : Line :=
  if amount ≤ 0x10000000 then .decrement amount
  else if 0xF0000000 < amount ∧ amount ≤ 0xFFFFFFFF then .decrement (0x100000000 - amount)
  else .other

/-- **The frame of an amount that fits a word**, and none where it does not. -/
theorem frameLine_eq (amount : Nat) :
    (((some amount).filter (· < wordLimit)).bind frame?).elim .other .decrement =
      frameLine amount := by
  rw [Option.filter_some]
  unfold frameLine frame? frameLimit wordLimit
  grind

/-- A line is read as the frame of its amount where no push has its form. -/
theorem Dialect.readCode_of_decrement {d : Dialect} {cs : List Char} {amount : Nat}
    (hpush : d.isPush.any (· cs) = false) (hdecrement : d.isDecrement cs = true)
    (hsize : d.decrementSize cs = (some amount).filter (· < wordLimit)) :
    (d.readCode cs).line = frameLine amount := by
  rw [← frameLine_eq, ← hsize, Dialect.readCode, hpush, hdecrement]
  cases (d.decrementSize cs).bind frame? with
  | none => rfl
  | some size => rfl

/-! ## 3. The text of a decrement -/

/-- A register by its name: a lower-case letter, then lower-case letters and digits. -/
structure Register where
  first : Char
  others : List Char
  first_lower : isLower first = true
  others_name : ∀ x ∈ others, (isLower x || isDecimalDigit x) = true

def Register.name (r : Register) : List Char := r.first :: r.others

/-- How a decrement is written around its number. -/
inductive DecrementForm where
  /-- `sub $n,%esp` -/
  | fromPointer (pointer : List Char) (h : pointer ∈ ["%esp", "%rsp"].map String.toList)
  /-- `sub sp, sp, #n` -/
  | sub
  /-- `add sp, sp, #-n` -/
  | add
  /-- `str r, [sp, #-n]!` -/
  | store (r : Register)
  /-- `sub sp, sp, #n, lsl #12` -/
  | subShifted

namespace DecrementForm

/-- The targets whose dialect has the form. -/
def targets : DecrementForm → List Target
  | .fromPointer _ _ => [.x86, .x86_64]
  | .sub | .add | .store _ => [.arm, .aarch64]
  | .subShifted => [.aarch64]

def mnemonic : DecrementForm → List Char
  | .fromPointer _ _ | .sub | .subShifted => "sub".toList
  | .add => "add".toList
  | .store _ => "str".toList

/-- What stands between the blanks and the number. -/
def before : DecrementForm → List Char
  | .fromPointer _ _ => "$".toList
  | .sub | .subShifted => "sp, sp, #".toList
  | .add => "sp, sp, #-".toList
  | .store r => r.name ++ ", [sp, #-".toList

/-- What stands after the number. -/
def after : DecrementForm → List Char
  | .fromPointer pointer _ => ',' :: pointer
  | .sub | .add => []
  | .store _ => "]!".toList
  | .subShifted => ", lsl #12".toList

/-- What the number is multiplied by. -/
def scale : DecrementForm → Nat
  | .subShifted => 4096
  | _ => 1

end DecrementForm

structure Decrement (t : Target) where
  form : DecrementForm
  space : List Char
  numeral : Numeral
  /-- The number that is written. -/
  written : Nat
  form_mem : t ∈ form.targets
  space_ne_nil : space ≠ []
  space_blank : ∀ x ∈ space, isBlank x = true

namespace Decrement

variable {t : Target} (k : Decrement t)

/-- The number as it is read off the line. -/
def digits : List Char := k.numeral.text k.written

def operand : List Char := k.form.before ++ (k.digits ++ k.form.after)

def text : List Char := k.form.mnemonic ++ (k.space ++ k.operand)

/-- The bytes that the instruction takes off the stack pointer. -/
def amount : Nat := k.form.scale * k.written

end Decrement

/-! ## 4. The words and the characters of the line -/

theorem isBlank_of_isInk {x : Char} (hx : isInk x = true) : isBlank x = false := by
  rw [isInk] at hx
  exact Bool.not_eq_true _ ▸ fun h => by rw [h] at hx; cases hx

theorem isInk_of_isName {x : Char} (hx : (isLower x || isDecimalDigit x) = true) :
    isInk x = true := by
  have hrange : (48 ≤ x.toNat ∧ x.toNat ≤ 57) ∨ (97 ≤ x.toNat ∧ x.toNat ≤ 122) := by
    simp only [isLower, isDecimalDigit, Bool.or_eq_true, Bool.and_eq_true, decide_eq_true_eq] at hx
    exact hx.symm
  unfold isInk isBlank
  dsimp only
  generalize x.toNat = n at hrange
  simp only [Bool.not_eq_true', Bool.or_eq_false_iff, Bool.and_eq_false_iff, beq_eq_false_iff_ne,
    decide_eq_false_iff_not]
  omega

theorem Register.mem_name (r : Register) {x : Char} (hx : x ∈ r.name) :
    (isLower x || isDecimalDigit x) = true := by
  rcases List.mem_cons.mp hx with rfl | hx
  · rw [r.first_lower]
    rfl
  · exact r.others_name x hx

theorem DecrementForm.bounds_after (form : DecrementForm) :
    Bounds Arm.isAlphanumeric form.after := by
  cases form with
  | sub | add => exact bounds_nil
  | fromPointer _ _ | store _ | subShifted => exact bounds_cons.mpr (by decide)

/-- The words that are found in the line of a decrement. -/
def isDecrementWord (w : List Char) : Bool :=
  isAside w || w.getLast? == some ',' || w.head? == some '$' || w.head? == some '#' ||
    w.head? == some '[' || (["sub", "add", "str", "lsl"].map String.toList).contains w

theorem worded_word {p : List Char → Bool} {w : List Char} (hp : p [] = true)
    (hw : ∀ x ∈ w, isInk x = true) (hpw : p w = true) : Worded p w := by
  have h := (worded_nil hp).cons hw hpw bounds_nil
  rw [List.append_nil] at h
  exact h

/-- A word and a space after it. -/
theorem Worded.spaced {p : List Char → Bool} {w rest : List Char} (h : Worded p rest)
    (hp : p [] = true) (hw : ∀ x ∈ w, isInk x = true) (hpw : p w = true) :
    Worded p (w ++ ' ' :: rest) :=
  (h.blank hp (by decide)).cons hw hpw (bounds_cons.mpr (by decide))

namespace Decrement

variable {t : Target} (k : Decrement t)

theorem digits_ink {x : Char} (hx : x ∈ k.digits) : isInk x = true := by
  rcases k.numeral.mem_text k.written hx with h | rfl
  · exact isInk_of_isHexDigit h
  · decide

/-- A word with the number in it, after a sign that is no mnemonic. -/
theorem worded_digits (sign close : List Char) {rest : List Char} {x : Char}
    (hx : x = '$' ∨ x = '#') (hsign : ∀ y ∈ x :: sign, isInk y = true)
    (hclose : ∀ y ∈ close, isInk y = true)
    (hrest : Worded isDecrementWord rest) (hbounds : Bounds isInk rest) :
    Worded isDecrementWord (x :: sign ++ (k.digits ++ (close ++ rest))) := by
  have hink : ∀ y ∈ x :: sign ++ (k.digits ++ close), isInk y = true := by
    intro y hy
    rcases List.mem_append.mp hy with hy | hy
    · exact hsign y hy
    · exact (List.mem_append.mp hy).elim k.digits_ink (hclose y)
  have hword : isDecrementWord (x :: sign ++ (k.digits ++ close)) = true := by
    rcases hx with rfl | rfl <;> simp [isDecrementWord]
  have h := hrest.cons hink hword hbounds
  rw [List.append_assoc, List.append_assoc] at h
  exact h

theorem worded_operand : Worded isDecrementWord k.operand := by
  have hnil : Worded isDecrementWord [] := worded_nil rfl
  have hpointer : ∀ {rest}, Worded isDecrementWord rest →
      Worded isDecrementWord ("sp,".toList ++ ' ' :: rest) :=
    fun h => h.spaced rfl (List.all_eq_true.mp rfl) rfl
  unfold operand
  cases k.form with
  | fromPointer pointer h =>
    have hclose : ∀ w ∈ ["%esp", "%rsp"].map String.toList, (',' :: w).all isInk = true := by decide
    have h := k.worded_digits [] (',' :: pointer) (.inl rfl) (List.all_eq_true.mp rfl)
      (List.all_eq_true.mp (hclose pointer h)) hnil bounds_nil
    rw [List.append_nil] at h
    exact h
  | sub =>
    exact hpointer (hpointer (k.worded_digits [] [] (.inr rfl)
      (List.all_eq_true.mp rfl) nofun hnil bounds_nil))
  | add =>
    exact hpointer (hpointer (k.worded_digits ['-'] [] (.inr rfl)
      (List.all_eq_true.mp rfl) nofun hnil bounds_nil))
  | store r =>
    have hdigits := k.worded_digits ['-'] "]!".toList (.inr rfl)
      (List.all_eq_true.mp rfl) (List.all_eq_true.mp rfl) hnil bounds_nil
    have hplace := hdigits.spaced (w := "[sp,".toList) rfl (List.all_eq_true.mp rfl) rfl
    have hink : ∀ x ∈ r.name ++ [','], isInk x = true := by
      intro x hx
      rcases List.mem_append.mp hx with hx | hx
      · exact isInk_of_isName (r.mem_name hx)
      · rw [List.mem_singleton.mp hx]
        decide
    have hregister := hplace.spaced rfl hink (by simp [isDecrementWord])
    rw [List.append_assoc, List.append_nil] at hregister
    exact (List.append_assoc ..).symm ▸ hregister
  | subShifted =>
    have hshift : Worded isDecrementWord (' ' :: "lsl #12".toList) := by
      have hamount := worded_word (p := isDecrementWord) (w := "#12".toList) rfl
        (List.all_eq_true.mp rfl) rfl
      exact (hamount.spaced (w := "lsl".toList) rfl (List.all_eq_true.mp rfl) rfl).blank rfl rfl
    exact hpointer (hpointer (k.worded_digits [] [','] (.inr rfl)
      (List.all_eq_true.mp rfl) (List.all_eq_true.mp rfl) hshift (bounds_cons.mpr (by decide))))

theorem mnemonic_mem : k.form.mnemonic ∈ ["sub", "add", "str"].map String.toList := by
  cases k.form with
  | fromPointer _ _ | sub | add | store _ | subShifted => simp [DecrementForm.mnemonic]

theorem mnemonic_ink {x : Char} (hx : x ∈ k.form.mnemonic) : isInk x = true := by
  have hall : ∀ w ∈ ["sub", "add", "str"].map String.toList, w.all isInk = true := by decide
  exact List.all_eq_true.mp (hall _ k.mnemonic_mem) x hx

/-- **The words of a decrement** are no mnemonics but one. -/
theorem worded_text : Worded isDecrementWord k.text := by
  have hall : ∀ w ∈ ["sub", "add", "str"].map String.toList, isDecrementWord w = true := by decide
  exact (k.worded_operand.blanks rfl k.space_blank).cons (fun _ => k.mnemonic_ink)
    (hall _ k.mnemonic_mem) (bounds_isInk k.space_ne_nil k.space_blank _)

theorem isDecrementWord_of_mem_ops (c : ByteColumns) {op : Op} (h : op ∈ ops (c.text k.text)) :
    isDecrementWord op.name = true := by
  rcases (c.columnar k.text).mem_ops h with h | h
  · rw [isDecrementWord, h]
    rfl
  · exact (k.worded_text.blank rfl (by decide)).ops op h

theorem ops_text (c : ByteColumns) : ∃ asides later, ops (c.text k.text) =
    asides ++ ⟨k.form.mnemonic, k.space ++ k.operand⟩ :: later ∧
      ∀ op ∈ asides, isAside op.name = true := by
  obtain ⟨asides, hops, hasides⟩ := (c.columnar k.text).ops
  refine ⟨asides, ops (k.space ++ k.operand), ?_, hasides⟩
  rw [hops, text, ops_blank_word (by decide) (fun _ => k.mnemonic_ink)
    (bounds_isInk k.space_ne_nil k.space_blank _)]

/-- The characters of the columns, the mnemonic, the blanks and the number. -/
def isLineChar (x : Char) : Bool := isBlank x || isHexDigit x || isLower x || x == ':'

theorem mem_line (c : ByteColumns) {x : Char} (hx : x ∈ c.text k.text) :
    isLineChar x = true ∨ x ∈ k.form.before ∨ x ∈ k.form.after := by
  simp only [Columns.text, text, operand, List.mem_append, List.mem_cons] at hx
  have hmnemonic : ∀ w ∈ ["sub", "add", "str"].map String.toList, w.all isLineChar = true := by
    decide
  rcases hx with hx | rfl | hx | hx | hx | hx | hx
  · refine .inl ?_
    unfold isLineChar
    rcases c.mem_start hx with h | h | rfl
    · rw [h]
      rfl
    · rw [h, Bool.or_true]
      rfl
    · rfl
  · exact .inl rfl
  · exact .inl (List.all_eq_true.mp (hmnemonic _ k.mnemonic_mem) x hx)
  · refine .inl ?_
    rw [isLineChar, k.space_blank x hx]
    rfl
  · exact .inr (.inl hx)
  · refine .inl ?_
    rcases k.numeral.mem_text k.written hx with h | rfl
    · rw [isLineChar, h, Bool.or_true]
      rfl
    · rfl
  · exact .inr (.inr hx)

/-! ## 5. The line is all code -/

theorem exists_pointer (ht : t = .x86 ∨ t = .x86_64) :
    ∃ pointer h, k.form = .fromPointer pointer h := by
  have hmem := k.form_mem
  cases hf : k.form with
  | fromPointer pointer h => exact ⟨pointer, h, rfl⟩
  | sub | add | store _ | subShifted =>
    rw [hf] at hmem
    rcases ht with rfl | rfl <;> simp [DecrementForm.targets] at hmem

theorem ne_fromPointer (ht : t = .arm ∨ t = .aarch64) (pointer : List Char)
    (h : pointer ∈ ["%esp", "%rsp"].map String.toList) : k.form ≠ .fromPointer pointer h := by
  intro hf
  have hmem := k.form_mem
  rw [hf] at hmem
  rcases ht with rfl | rfl <;> simp [DecrementForm.targets] at hmem

/-- The characters around the number. -/
def isOperandChar (x : Char) : Bool :=
  isLower x || isDecimalDigit x || "$, #-[%]!".toList.contains x

theorem mem_around {x : Char} (hx : x ∈ k.form.before ∨ x ∈ k.form.after) :
    isOperandChar x = true := by
  have hall : ∀ {w : List Char}, w.all isOperandChar = true → x ∈ w → isOperandChar x = true :=
    fun h hx => List.all_eq_true.mp h x hx
  cases hf : k.form with
  | fromPointer pointer h =>
    have hpointer : ∀ w ∈ ["%esp", "%rsp"].map String.toList,
        (',' :: w).all isOperandChar = true := by decide
    rw [hf] at hx
    exact hx.elim (hall rfl) (hall (hpointer pointer h))
  | store r =>
    rw [hf] at hx
    rcases hx with hx | hx
    · rcases List.mem_append.mp hx with hx | hx
      · rw [isOperandChar, r.mem_name hx]
        rfl
      · exact hall rfl hx
    · exact hall rfl hx
  | sub | add | subShifted =>
    rw [hf] at hx
    exact hx.elim (hall rfl) (hall rfl)

/-- **No comment starts in the line of a decrement.** -/
theorem uncommented_line (c : ByteColumns) : Uncommented t (c.text k.text) := by
  have hx86 : t = .x86 ∨ t = .x86_64 → Uncommented .x86 (c.text k.text) := by
    intro ht
    obtain ⟨pointer, h, hf⟩ := k.exists_pointer ht
    have hpointer : ∀ w ∈ ["%esp", "%rsp"].map String.toList, '#' ∉ ',' :: w := by decide
    refine uncommented_x86.mpr fun hx => ?_
    rcases k.mem_line c hx with hx | hx | hx
    · exact absurd hx (by decide)
    · rw [hf] at hx
      exact absurd hx (show '#' ∉ "$".toList by decide)
    · rw [hf] at hx
      exact hpointer pointer h hx
  have harm : Uncommented .arm (c.text k.text) := by
    have hmark : ∀ x, isLineChar x = false → isOperandChar x = false → x ∉ c.text k.text := by
      intro x hline hoperand hx
      rcases k.mem_line c hx with hx | hx
      · rw [hline] at hx
        cases hx
      · rw [k.mem_around hx] at hoperand
        cases hoperand
    refine uncommented_arm.mpr ⟨hmark ';' (by decide) (by decide), fun h => ?_⟩
    exact hmark '/' (by decide) (by decide) (h.subset List.mem_cons_self)
  cases t with
  | x86 => exact hx86 (.inl rfl)
  | x86_64 => exact hx86 (.inr rfl)
  | arm | aarch64 => exact harm

/-- A number and what stands after it end with ink. -/
theorem exists_last : ∃ ws x, k.digits ++ k.form.after = ws ++ [x] ∧ isBlank x = false := by
  have hnumber : ∃ ws x, k.digits ++ [] = ws ++ [x] ∧ isBlank x = false := by
    obtain ⟨d, ds, h, _⟩ := k.numeral.exists_text k.written
    have hne : k.digits ≠ [] := by
      rw [digits, h]
      exact List.cons_ne_nil d ds
    refine ⟨k.digits.dropLast, k.digits.getLast hne, ?_, ?_⟩
    · rw [List.append_nil, List.dropLast_concat_getLast]
    · exact isBlank_of_isInk (k.digits_ink (List.getLast_mem hne))
  cases k.form with
  | fromPointer pointer h =>
    have hpointer : ∀ w ∈ ["%esp", "%rsp"].map String.toList, w = w.dropLast ++ ['p'] := by decide
    refine ⟨k.digits ++ ',' :: pointer.dropLast, 'p', ?_, by decide⟩
    rw [List.append_assoc, List.cons_append, ← hpointer pointer h]
    rfl
  | sub | add => exact hnumber
  | store r =>
    refine ⟨k.digits ++ "]".toList, '!', ?_, by decide⟩
    rw [List.append_assoc]
    rfl
  | subShifted =>
    refine ⟨k.digits ++ ", lsl #1".toList, '2', ?_, by decide⟩
    rw [List.append_assoc]
    rfl

theorem trimEnd_line (c : ByteColumns) : trimEnd (c.text k.text) = c.text k.text := by
  obtain ⟨ws, x, hlast, hx⟩ := k.exists_last
  have hline : c.text k.text =
      c.start ++ '\t' :: (k.form.mnemonic ++ (k.space ++ (k.form.before ++ ws))) ++ [x] := by
    simp only [Columns.text, text, operand, hlast, List.append_assoc, List.cons_append]
  rw [hline]
  exact trimEnd_concat hx

/-! ## 6. The dialects -/

/-- **A decrement is read off its number** where the dialect has its form and no push has it. -/
theorem classify_line (c : ByteColumns)
    (hread : ((Dialect.of t).readCode (c.text k.text)).line = frameLine k.amount) :
    (Dialect.of t).classify (c.text k.text) = frameLine k.amount := by
  rw [Dialect.classify, c.read_text _ (k.worded_text.not_isFileFormat rfl),
    code_eq_self_iff.mpr (k.uncommented_line c), k.trimEnd_line c, hread]

theorem bounds_operand : Bounds isBlank k.operand := by
  unfold operand
  cases k.form with
  | fromPointer _ _ | sub | add | subShifted => exact bounds_cons.mpr (by decide)
  | store r =>
    refine bounds_cons.mpr (isBlank_of_isInk (isInk_of_isName ?_))
    rw [r.first_lower]
    rfl

theorem blanks_operand : blanks (k.space ++ k.operand) = some k.operand :=
  blanks_append k.space_ne_nil k.space_blank k.bounds_operand

theorem number_digits : number (k.digits ++ k.form.after) = some (k.digits, k.form.after) :=
  k.numeral.number_text k.written k.form.bounds_after

theorem immediate?_digits : immediate? k.digits = (some k.written).filter (· < wordLimit) :=
  k.numeral.immediate?_text k.written

end Decrement

namespace X86

variable {t : Target} (ht : t = .x86 ∨ t = .x86_64) (k : Decrement t)

include ht

theorem decrement?_text :
    decrement? ⟨k.form.mnemonic, k.space ++ k.operand⟩ = some k.digits := by
  obtain ⟨pointer, h, hf⟩ := k.exists_pointer ht
  have hpointer : ∀ w ∈ ["%esp", "%rsp"].map String.toList, isStackPointer w = true := by decide
  have hsub : sub.has k.form.mnemonic = true := by
    rw [hf]
    rfl
  have hliteral : literal "$" k.operand = some (k.digits ++ k.form.after) := by
    rw [Decrement.operand, hf]
    rfl
  have hafter : literal "," k.form.after = some pointer := by
    rw [hf]
    rfl
  rw [decrement?, if_pos hsub, fromStackPointer?]
  simp only [k.blanks_operand, Option.bind_eq_bind, Option.bind_some, hliteral, k.number_digits,
    hafter, hpointer pointer h, if_true]

/-- **A decrement** of either word size. -/
theorem readCode_decrement (target : Target) (word : Nat) (c : ByteColumns) :
    ((Dialect.x86 target word).readCode (c.text k.text)).line = frameLine k.amount := by
  obtain ⟨asides, later, hops, hasides⟩ := k.ops_text c
  have hnone : asides.findSome? decrement? = none :=
    List.findSome?_eq_none_iff.mpr fun op hop =>
      decrement?_eq_none (Mnemonic.has_eq_false (by decide +kernel) (hasides op hop))
  have hfind : (ops (c.text k.text)).findSome? decrement? = some k.digits := by
    rw [hops, List.findSome?_append, hnone, Option.none_or, List.findSome?_cons,
      decrement?_text ht k]
  have hamount : k.amount = k.written := by
    obtain ⟨pointer, h, hf⟩ := k.exists_pointer ht
    rw [Decrement.amount, hf]
    exact Nat.one_mul _
  refine Dialect.readCode_of_decrement ?_ ?_ ?_
  · refine any_ops_eq_false fun op hop => ?_
    rw [pushSuffix?_eq_none (Mnemonic.has_eq_false (by decide +kernel)
      (k.isDecrementWord_of_mem_ops c hop))]
    rfl
  · refine List.any_eq_true.mpr ⟨⟨k.form.mnemonic, k.space ++ k.operand⟩, ?_, ?_⟩
    · rw [hops]
      exact List.mem_append_right _ List.mem_cons_self
    · rw [decrement?_text ht k]
      rfl
  · rw [hamount, ← k.immediate?_digits]
    exact congrArg (Option.bind · immediate?) hfind

end X86

namespace Decrement

variable {t : Target} (k : Decrement t)

/-- What stands before the first mark of a number in the line. -/
theorem exists_mark (ht : t = .arm ∨ t = .aarch64) (c : ByteColumns) : ∃ front sign,
    c.text k.text = front ++ '#' :: (sign ++ (k.digits ++ k.form.after)) ∧ '#' ∉ front ∧
      (sign = [] ∨ sign = ['-']) := by
  have hbefore : ∃ front sign, k.form.before = front ++ '#' :: sign ∧ '#' ∉ front ∧
      (sign = [] ∨ sign = ['-']) := by
    cases hf : k.form with
    | fromPointer pointer h => exact absurd hf (k.ne_fromPointer ht pointer h)
    | sub | subShifted => exact ⟨"sp, sp, ".toList, [], rfl, by decide, .inl rfl⟩
    | add => exact ⟨"sp, sp, ".toList, ['-'], rfl, by decide, .inr rfl⟩
    | store r =>
      refine ⟨r.name ++ ", [sp, ".toList, ['-'], ?_, fun hx => ?_, .inr rfl⟩
      · rw [List.append_assoc]
        rfl
      · rcases List.mem_append.mp hx with hx | hx
        · exact absurd (r.mem_name hx) (by decide)
        · exact absurd hx (by decide)
  obtain ⟨front, sign, hbefore, hfront, hsign⟩ := hbefore
  refine ⟨c.start ++ '\t' :: (k.form.mnemonic ++ (k.space ++ front)), sign, ?_, fun hx => ?_, hsign⟩
  · simp only [Columns.text, text, operand, hbefore, List.append_assoc, List.cons_append]
  · have hmnemonic : ∀ w ∈ ["sub", "add", "str"].map String.toList, '#' ∉ w := by decide
    simp only [List.mem_append, List.mem_cons] at hx
    rcases hx with hx | hx | hx | hx | hx
    · exact absurd (c.mem_start hx) (by decide)
    · exact absurd hx (by decide)
    · exact hmnemonic _ k.mnemonic_mem hx
    · exact absurd (k.space_blank _ hx) (by decide)
    · exact hfront hx

/-- The number does not start with a sign. -/
theorem bounds_sign {rest : List Char} : Bounds (· == '-') (k.digits ++ rest) := by
  obtain ⟨d, ds, h, hd⟩ := k.numeral.exists_text k.written
  rw [digits, h, List.cons_append, bounds_cons, beq_eq_false_iff_ne]
  rintro rfl
  exact absurd hd (by decide)

end Decrement

namespace Arm

theorem firstShiftable?_append {front : List Char} (hfront : '#' ∉ front) (rest : List Char) :
    firstShiftable? (front ++ rest) = firstShiftable? rest := by
  induction front with
  | nil => rfl
  | cons x front ih =>
    obtain ⟨hx, hfront⟩ := not_or.mp (mt List.mem_cons.mpr hfront)
    have hliteral : literal "#" (x :: (front ++ rest)) = none := if_neg hx
    have hnone : shiftable? (x :: (front ++ rest)) = none := by
      rw [shiftable?, hliteral]
      rfl
    rw [List.cons_append, firstShiftable?, hnone, Option.none_or, ih hfront]

variable {t : Target} (k : Decrement t)

section Recognition

variable {op : Op} {rest : List Char}

theorem isDecrement_of_sub (hname : sub.has op.name = true)
    (hpointers : stackPointers op.operands = some rest) (hnumber : startsNumber "#" rest = true) :
    isDecrement op = true := by
  rw [isDecrement, hname, hpointers, Option.map_some, hnumber]
  rfl

theorem isDecrement_of_add (hname : add.has op.name = true)
    (hpointers : stackPointers op.operands = some rest) (hnumber : startsNumber "#-" rest = true) :
    isDecrement op = true := by
  rw [isDecrement, hname, hpointers, Option.map_some, Option.map_some, hnumber, Option.getD_some,
    Option.getD_some, Bool.and_self, Bool.or_true]
  rfl

theorem isDecrement_of_store (hname : store.has op.name = true)
    (hblanks : blanks op.operands = some rest)
    (hplace : (register rest).map (fun r => isPlaceBelow (optional register r)) = some true) :
    isDecrement op = true := by
  have hstore : (Option.getD (do
      return isPlaceBelow (optional register (← register (← blanks op.operands)))) false) =
        true := by
    rw [hblanks]
    obtain ⟨r, hr, hr'⟩ := Option.map_eq_some_iff.mp hplace
    simp only [Option.bind_eq_bind, Option.bind_some, hr, hr']
    rfl
  rw [isDecrement, hname, hstore, Bool.and_self, Bool.or_true]
  rfl

end Recognition

theorem register_name (r : Register) (rest : List Char) :
    register (r.name ++ ',' :: rest) = some (trimStart rest) := by
  have hcomma : Bounds (fun d => isLower d || isDecimalDigit d) (',' :: rest) :=
    bounds_cons.mpr (by decide)
  have hidentifier : identifier (r.name ++ ',' :: rest) = some (r.name, ',' :: rest) := by
    rw [Register.name, List.cons_append, identifier, if_pos r.first_lower,
      takeWhile_append_bounds r.others_name hcomma, dropWhile_append_bounds r.others_name hcomma]
  rw [register, hidentifier]
  rfl

/-- `[sp, #-n]!` -/
theorem isPlaceBelow_digits (hafter : k.form.after = "]!".toList) :
    isPlaceBelow ("[sp, #-".toList ++ (k.digits ++ k.form.after)) = true := by
  have hopen : literal "[" ("[sp, #-".toList ++ (k.digits ++ k.form.after)) =
      some ("sp, #-".toList ++ (k.digits ++ k.form.after)) := rfl
  have hpointer : stackPointer ("sp, #-".toList ++ (k.digits ++ k.form.after)) =
      some ("#-".toList ++ (k.digits ++ k.form.after)) := rfl
  have hsign : literal "#-" ("#-".toList ++ (k.digits ++ k.form.after)) =
      some (k.digits ++ k.form.after) := rfl
  have hclose : literal "]!" k.form.after = some [] := by
    rw [hafter]
    rfl
  rw [isPlaceBelow]
  simp only [Option.bind_eq_bind, hopen, hpointer, hsign, k.number_digits, Option.bind_some, hclose]
  rfl

theorem stackPointers_operand {rest : List Char}
    (h : k.operand = "sp, sp, ".toList ++ '#' :: rest) :
    stackPointers (k.space ++ k.operand) = some ('#' :: rest) := by
  rw [stackPointers, k.blanks_operand, h]
  rfl

theorem startsNumber_digits {sign : String} {rest : List Char}
    (h : literal sign rest = some (k.digits ++ k.form.after)) : startsNumber sign rest = true := by
  rw [startsNumber, h, Option.bind_some, k.number_digits]
  rfl

/-- `sub sp, sp, #n`, shifted or not. -/
theorem isDecrement_sub_text (hname : k.form.mnemonic = "sub".toList)
    (hbefore : k.form.before = "sp, sp, #".toList) :
    isDecrement ⟨k.form.mnemonic, k.space ++ k.operand⟩ = true := by
  have hoperand : k.operand = "sp, sp, ".toList ++ '#' :: (k.digits ++ k.form.after) := by
    rw [Decrement.operand, hbefore]
    rfl
  rw [hname]
  exact isDecrement_of_sub rfl (stackPointers_operand k hoperand) (startsNumber_digits k rfl)

/-- `str r, [sp, #-n]!` -/
theorem isDecrement_store_text {r : Register} (hf : k.form = .store r) :
    isDecrement ⟨"str".toList, k.space ++ k.operand⟩ = true := by
  have hafter : k.form.after = "]!".toList := by
    rw [hf]
    rfl
  have hoperand : k.operand =
      r.name ++ ',' :: " [sp, #-".toList ++ (k.digits ++ k.form.after) := by
    rw [Decrement.operand, hf]
    rfl
  have hregister : register k.operand =
      some ("[sp, #-".toList ++ (k.digits ++ k.form.after)) := by
    rw [hoperand, List.append_assoc, List.cons_append, register_name]
    rfl
  have hplace : optional register ("[sp, #-".toList ++ (k.digits ++ k.form.after)) =
      "[sp, #-".toList ++ (k.digits ++ k.form.after) := rfl
  refine isDecrement_of_store rfl k.blanks_operand ?_
  rw [hregister, Option.map_some, hplace, isPlaceBelow_digits k hafter]

/-- **The forms of a decrement are recognised.** -/
theorem isDecrement_text (ht : t = .arm ∨ t = .aarch64) :
    isDecrement ⟨k.form.mnemonic, k.space ++ k.operand⟩ = true := by
  cases hf : k.form with
  | fromPointer pointer h => exact absurd hf (k.ne_fromPointer ht pointer h)
  | sub | subShifted =>
    rw [← hf]
    exact isDecrement_sub_text k (by rw [hf]; rfl) (by rw [hf]; rfl)
  | add =>
    have hoperand : k.operand = "sp, sp, ".toList ++ '#' :: '-' :: (k.digits ++ k.form.after) := by
      rw [Decrement.operand, hf]
      rfl
    exact isDecrement_of_add rfl (stackPointers_operand k hoperand) (startsNumber_digits k rfl)
  | store r => exact isDecrement_store_text k hf

/-- **The number after the last mark**, in the dialect of the 32-bit sets. -/
theorem lastImmediate?_line {k : Decrement .arm} (c : ByteColumns) :
    lastImmediate? (c.text k.text) = (some k.amount).filter (· < wordLimit) := by
  obtain ⟨front, sign, hline, _, hsign⟩ := k.exists_mark (.inl rfl) c
  have hform : k.form.scale = 1 ∧ '#' ∉ k.form.after := by
    have hmem := k.form_mem
    cases hf : k.form with
    | fromPointer pointer h => exact absurd hf (k.ne_fromPointer (.inl rfl) pointer h)
    | sub | add => exact ⟨rfl, List.not_mem_nil⟩
    | store _ => exact ⟨rfl, show '#' ∉ "]!".toList by decide⟩
    | subShifted =>
      rw [hf] at hmem
      exact absurd hmem (by decide)
  have hmark : '#' ∉ sign ++ (k.digits ++ k.form.after) := by
    simp only [List.mem_append, not_or]
    refine ⟨?_, fun hx => absurd (k.numeral.mem_text k.written hx) (by decide), hform.2⟩
    rcases hsign with rfl | rfl <;> decide
  have hminus : ∀ x ∈ sign, (x == '-') = true := by
    rcases hsign with rfl | rfl
    · exact nofun
    · exact List.all_eq_true.mp rfl
  have hdrop : (sign ++ (k.digits ++ k.form.after)).dropWhile (· == '-') =
      k.digits ++ k.form.after := dropWhile_append_bounds hminus k.bounds_sign
  have htake : (k.digits ++ k.form.after).takeWhile isAlphanumeric = k.digits :=
    takeWhile_append_bounds (fun _ => k.numeral.isAlphanumeric_of_mem k.written) k.form.bounds_after
  rw [Decrement.amount, hform.1, Nat.one_mul, ← k.immediate?_digits, hline, lastImmediate?,
    cutLast_append_cons _ hmark]
  show immediate? (((sign ++ (k.digits ++ k.form.after)).dropWhile (· == '-')).takeWhile
    isAlphanumeric) = _
  rw [hdrop, htake]

theorem shiftable?_line (ht : t = .arm ∨ t = .aarch64) {sign : List Char}
    (hsign : sign = [] ∨ sign = ['-']) :
    shiftable? ('#' :: (sign ++ (k.digits ++ k.form.after))) =
      some (k.digits, k.form.scale == 4096) := by
  have hsigned : optional (literal "-") (sign ++ (k.digits ++ k.form.after)) =
      k.digits ++ k.form.after := by
    rcases hsign with rfl | rfl
    · obtain ⟨d, ds, h, hd⟩ := k.numeral.exists_text k.written
      have hne : ¬ '-' = d := by
        rintro rfl
        exact absurd hd (by decide)
      have hnone : literal "-" (d :: (ds ++ k.form.after)) = none := if_neg hne
      rw [Decrement.digits, h, List.nil_append, List.cons_append, Text.optional, hnone]
      rfl
    · rfl
  have hliteral : literal "#" ('#' :: (sign ++ (k.digits ++ k.form.after))) =
      some (sign ++ (k.digits ++ k.form.after)) := rfl
  rw [shiftable?]
  simp only [Option.bind_eq_bind, hliteral, Option.bind_some, hsigned, k.number_digits]
  cases hf : k.form with
  | fromPointer pointer h => exact absurd hf (k.ne_fromPointer ht pointer h)
  | sub | add | store _ | subShifted => rfl

/-- **The first number of the line**, in the dialect of the 64-bit set. -/
theorem firstImmediate?_line (ht : t = .arm ∨ t = .aarch64) (c : ByteColumns) :
    firstImmediate? (c.text k.text) = (some k.amount).filter (· < wordLimit) := by
  obtain ⟨front, sign, hline, hfront, hsign⟩ := k.exists_mark ht c
  have hscale : k.form.scale = 1 ∨ k.form.scale = 4096 := by
    cases k.form with
    | fromPointer _ _ | sub | add | store _ => exact .inl rfl
    | subShifted => exact .inr rfl
  rw [firstImmediate?, hline, firstShiftable?_append hfront, firstShiftable?,
    shiftable?_line k ht hsign, Option.some_or, Decrement.amount]
  simp only [Option.bind_eq_bind, Option.bind_some, k.immediate?_digits, Option.filter_some]
  rcases hscale with hscale | hscale
  · rw [hscale, Nat.one_mul]
    split
    · rfl
    · rfl
  · -- a number that does not fit a word does not fit it when it is shifted
    rw [hscale, Nat.mul_comm]
    split
    · rfl
    · rename_i hlt
      have hnot : ¬ k.written * 4096 < wordLimit := by
        simp only [decide_eq_true_eq] at hlt
        omega
      exact (if_neg (mt of_decide_eq_true hnot)).symm

/-- **A decrement**, in any dialect that takes its forms from here. -/
theorem readCode_decrement {d : Dialect} (c : ByteColumns) (ht : t = .arm ∨ t = .aarch64)
    (hpush : d.isPush = Dialect.arm.isPush ∨ d.isPush = none)
    (hdecrement : d.isDecrement = Dialect.arm.isDecrement)
    (hsize : d.decrementSize (c.text k.text) = (some k.amount).filter (· < wordLimit)) :
    (d.readCode (c.text k.text)).line = frameLine k.amount := by
  refine Dialect.readCode_of_decrement ?_ ?_ hsize
  · rcases hpush with hpush | hpush
    · rw [hpush]
      refine any_ops_eq_false fun op hop => ?_
      have hword := k.isDecrementWord_of_mem_ops c hop
      exact isPush_eq_false (Mnemonic.has_eq_false (by decide +kernel) hword)
        (Mnemonic.has_eq_false (by decide +kernel) hword)
    · rw [hpush]
      rfl
  · rw [hdecrement]
    obtain ⟨asides, later, hops, _⟩ := k.ops_text c
    refine List.any_eq_true.mpr ⟨_, ?_, isDecrement_text k ht⟩
    rw [hops]
    exact List.mem_append_right _ List.mem_cons_self

end Arm

/-- **Decrements are read off their numbers**, in every dialect, every form and either base: as a
    frame of the amount, as one of the negative number that 32 bits of it are, or as no instruction
    of interest; the last also where the amount fits no word. -/
theorem decrement_classified (t : Target) (c : ByteColumns) (k : Decrement t) :
    (Dialect.of t).classify (c.text k.text) = frameLine k.amount := by
  refine k.classify_line c ?_
  cases t with
  | x86 => exact X86.readCode_decrement (.inl rfl) k .x86 4 c
  | x86_64 => exact X86.readCode_decrement (.inr rfl) k .x86_64 8 c
  | arm =>
    exact Arm.readCode_decrement k c (.inl rfl) (.inl rfl) rfl (Arm.lastImmediate?_line c)
  | aarch64 =>
    exact Arm.readCode_decrement k c (.inr rfl) (.inr rfl) rfl
      (Arm.firstImmediate?_line k (.inr rfl) c)

/-- The decrement by a number, with a space after the mnemonic. -/
def Decrement.spaced {t : Target} (form : DecrementForm) (h : t ∈ form.targets) (b : Numeral)
    (n : Nat) : Decrement t where
  form := form
  space := [' ']
  numeral := b
  written := n
  form_mem := h
  space_ne_nil := List.cons_ne_nil _ _
  space_blank := List.all_eq_true.mp rfl

/-- The register `x19`. -/
def x19 : Register := ⟨'x', ['1', '9'], rfl, List.all_eq_true.mp rfl⟩

/-- The largest frame, a frame that is too large when it is shifted, a negative number, and a number
    of more than 64 bits. -/
theorem decrement_classified_boundaries :
    (Dialect.of .aarch64).classify (callColumns.text "str x19, [sp, #-0x10000000]!".toList) =
        .decrement 0x10000000 ∧
      (Dialect.of .aarch64).classify (callColumns.text "sub sp, sp, #65537, lsl #12".toList) =
        .other ∧
      (Dialect.of .x86).classify (callColumns.text "sub $0xffffffff,%esp".toList) = .decrement 1 ∧
      (Dialect.of .arm).classify (callColumns.text "add sp, sp, #-18446744073709551616".toList) =
        .other := by
  have hstore : (Decrement.spaced (t := .aarch64) (.store x19) (by simp [DecrementForm.targets])
      .hexadecimal 0x10000000).text = "str x19, [sp, #-0x10000000]!".toList := by decide +kernel
  have hshifted : (Decrement.spaced (t := .aarch64) .subShifted (by decide) .decimal 65537).text =
      "sub sp, sp, #65537, lsl #12".toList := by decide +kernel
  have hnegative : (Decrement.spaced (t := .x86) (.fromPointer "%esp".toList (by decide))
      (by decide) .hexadecimal 0xffffffff).text = "sub $0xffffffff,%esp".toList := by
    decide +kernel
  have hlarge : (Decrement.spaced (t := .arm) .add (by decide) .decimal 18446744073709551616).text =
      "add sp, sp, #-18446744073709551616".toList := by decide +kernel
  rw [← hstore, ← hshifted, ← hnegative, ← hlarge]
  refine ⟨(decrement_classified _ _ _).trans ?_, (decrement_classified _ _ _).trans ?_,
    (decrement_classified _ _ _).trans ?_, (decrement_classified _ _ _).trans ?_⟩
  all_goals decide +kernel

end StackDepth.Listing
