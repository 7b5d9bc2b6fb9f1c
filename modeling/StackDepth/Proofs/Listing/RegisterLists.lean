import Mathlib.Data.List.Basic
import StackDepth.Proofs.Listing.Decrements
import StackDepth.Proofs.Listing.Labels

/-!
# Register lists

A push of the 32-bit set has the registers that it saves in braces, one by one or as ranges. Its
size is that of the registers, however the list is written: what a range stands for, the order of
the items and the blanks around them make no difference.

* `decimalValue`, `word?_decimal`: what decimal digits denote is what is read off them;
* `Columns.fileHeading?_text`: a line with one colon is no file heading;
* `RegisterItem`, `RegisterItem.registers`: the items of a list, and the registers they stand for;
* `registerCount_text`: an item counts all its registers, if their numbers fit a word;
* `Respelled`: a list is written in another way;
* `RegisterPush`: a push as it is listed;
* `register_push_classified`: its size is that of its registers.
-/

namespace StackDepth.Text

/-! ## 1. Decimal digits -/

variable {c : Char} {ds : List Char}

/-- The number that decimal digits denote, the most significant first. -/
def decimalValue (ds : List Char) : Nat :=
  Nat.ofDigits 10 (ds.reverse.map fun c => c.toNat - '0'.toNat)

theorem isHexDigit_of_isDecimalDigit (h : isDecimalDigit c = true) : isHexDigit c = true := by
  rw [isHexDigit, h]
  rfl

theorem digit?_of_isDecimalDigit (h : isDecimalDigit c = true) :
    digit? 10 c = some (c.toNat - '0'.toNat) := by
  have hall : ∀ n < 58, isDecimalDigit (Char.ofNat n) = true →
      digit? 10 (Char.ofNat n) = some ((Char.ofNat n).toNat - '0'.toNat) := by decide
  have hlt : c.toNat < 58 := by
    simp only [isDecimalDigit, Bool.and_eq_true, decide_eq_true_eq] at h
    exact Nat.lt_succ_of_le h.2
  rw [← Char.ofNat_toNat c] at h ⊢
  exact hall c.toNat hlt h

theorem digits?_decimal (h : ∀ c ∈ ds, isDecimalDigit c = true) :
    digits? 10 ds = some (decimalValue ds) := by
  induction ds using List.reverseRecOn with
  | nil => rfl
  | append_singleton ds c ih =>
    have hc := h c (List.mem_append_right ds List.mem_cons_self)
    have hconcat : decimalValue (ds ++ [c]) = 10 * decimalValue ds + (c.toNat - '0'.toNat) := by
      rw [decimalValue, List.reverse_concat, List.map_cons, Nat.ofDigits_cons, Nat.add_comm]
      rfl
    rw [digits?_concat, ih fun d hd => h d (List.mem_append_left _ hd),
      digit?_of_isDecimalDigit hc, hconcat]
    rfl

theorem decimalValue_toDigits (n : Nat) : decimalValue (Nat.toDigits 10 n) = n := by
  have hdigit : ∀ d < 10, isDecimalDigit (Nat.digitChar d) = true := by decide
  have h := digits?_decimal fun _ => of_mem_toDigits (P := (isDecimalDigit · = true)) (n := n)
    (by decide) hdigit
  rw [digits?_toDigits (by decide) (by decide)] at h
  exact (Option.some.inj h).symm

/-- **What is read off decimal digits is what they denote**, if that fits a word. -/
theorem word?_decimal (hne : ds ≠ []) (h : ∀ c ∈ ds, isDecimalDigit c = true) :
    word? 10 ds = if decimalValue ds < wordLimit then some (decimalValue ds) else none := by
  rw [word?_of_digits hne fun c hc => isHexDigit_of_isDecimalDigit (h c hc), digits?_decimal h,
    Option.filter_some]
  simp only [decide_eq_true_eq]

end StackDepth.Text

namespace StackDepth.Listing

open StackDepth.Text

/-! ## 2. Lines without a second colon -/

theorem isName_of_isHexDigit {x : Char} (h : isHexDigit x = true) :
    (isLower x || isDecimalDigit x) = true := by
  rw [isHexDigit, Bool.or_eq_true] at h
  rcases h with h | h
  · rw [h, Bool.or_true]
  · have hlower : isLower x = true := by
      simp only [isLower, Bool.and_eq_true, decide_eq_true_eq] at h ⊢
      exact ⟨h.1, Nat.le_trans h.2 (by decide)⟩
    rw [hlower]
    rfl

/-- The characters of the columns after the address. -/
def isCodeChar (x : Char) : Bool := isBlank x || isHexDigit x

theorem isCodeChar_of_isBlank {x : Char} (h : isBlank x = true) : isCodeChar x = true := by
  rw [isCodeChar, h]
  rfl

theorem isCodeChar_of_isHexDigit {x : Char} (h : isHexDigit x = true) : isCodeChar x = true := by
  rw [isCodeChar, h, Bool.or_true]

namespace Columns

variable (c : Columns) {operation : List Char}

/-- What stands between the colon and the operation. -/
def code : List Char := c.gap ++ (c.groups.flatMap (· ++ [' ']) ++ (c.padding ++ ['\t']))

theorem text_eq : c.text operation = (c.indent ++ c.address) ++ ':' :: (c.code ++ operation) := by
  simp only [text, start, code, List.append_assoc, List.cons_append, List.nil_append]

theorem mem_code {x : Char} (hx : x ∈ c.code) : isCodeChar x = true := by
  simp only [code, List.mem_append, List.mem_flatMap, List.mem_singleton] at hx
  rcases hx with hx | ⟨g, hg, hx | rfl⟩ | hx | rfl
  · exact isCodeChar_of_isBlank (c.gap_blank x hx)
  · exact isCodeChar_of_isHexDigit (c.groups_hex g hg x hx)
  · decide
  · exact isCodeChar_of_isBlank (c.padding_blank x hx)
  · decide

/-- **A line whose only colon is that of its address is no file heading**: of the words
    `file format` the columns can have no more than the first letter. -/
theorem fileHeading?_text (hcolon : ':' ∉ operation) (hcode : Bounds isCodeChar operation)
    (hletter : operation.head? ≠ some 'i') : fileHeading? (c.text operation) = none := by
  refine Option.eq_none_iff_forall_ne_some.mpr fun file hfile => hletter ?_
  obtain ⟨path, gap, rest, _, hgap, hsplit⟩ := isFileHeading_of_fileHeading? hfile
  have hbefore : ':' ∉ c.indent ++ c.address := by
    intro h
    rcases List.mem_append.mp h with h | h
    · exact absurd (c.indent_blank _ h) (by decide)
    · exact absurd (c.address_hex _ h) (by decide)
  have hafter : ':' ∉ c.code ++ operation := by
    intro h
    rcases List.mem_append.mp h with h | h
    · exact absurd (c.mem_code h) (by decide)
    · exact hcolon h
  rw [text_eq, List.append_cons_inj_of_notMem hbefore hafter] at hsplit
  have hsame : c.code ++ operation = (gap ++ ['f']) ++ ("ile format ".toList ++ rest) := by
    rw [hsplit.2.2, List.append_assoc]
    rfl
  have hgap' : ∀ x ∈ gap ++ ['f'], isCodeChar x = true := by
    intro x hx
    rcases List.mem_append.mp hx with hx | hx
    · rcases hgap x hx with rfl | rfl
      · decide
      · decide
    · rw [List.mem_singleton.mp hx]
      decide
  have hword : Bounds isCodeChar ("ile format ".toList ++ rest) := bounds_cons.mpr (by decide)
  have hdrop := congrArg (List.dropWhile isCodeChar) hsame
  rw [dropWhile_append_bounds (fun x => c.mem_code) hcode,
    dropWhile_append_bounds hgap' hword] at hdrop
  rw [hdrop]
  rfl

end Columns

/-! ## 3. Registers and items -/

/-- The bytes that a register takes on the stack. -/
def Register.bytes (r : Register) : Nat :=
  if r.first = 'd' then 8 else if r.first = 'q' then 16 else 4

/-- The bytes that registers take on the stack. -/
def totalBytes : List Register → Nat
  | [] => 0
  | r :: rs => r.bytes + totalBytes rs

theorem totalBytes_append (rs ss : List Register) :
    totalBytes (rs ++ ss) = totalBytes rs + totalBytes ss := by
  induction rs with
  | nil => exact (Nat.zero_add _).symm
  | cons r rs ih => rw [List.cons_append, totalBytes, totalBytes, ih, Nat.add_assoc]

/-- The order of registers does not matter. -/
theorem totalBytes_perm {rs ss : List Register} (h : rs.Perm ss) :
    totalBytes rs = totalBytes ss := by
  induction h with
  | nil => rfl
  | cons r _ ih => rw [totalBytes, totalBytes, ih]
  | swap r s rs => simp only [totalBytes, Nat.add_left_comm]
  | trans _ _ ih₁ ih₂ => exact ih₁.trans ih₂

theorem totalBytes_of_forall {n : Nat} {rs : List Register} (h : ∀ r ∈ rs, r.bytes = n) :
    totalBytes rs = rs.length * n := by
  induction rs with
  | nil => exact (Nat.zero_mul n).symm
  | cons r rs ih =>
    obtain ⟨hr, hrs⟩ := List.forall_mem_cons.mp h
    rw [totalBytes, hr, ih hrs, List.length_cons, Nat.succ_mul, Nat.add_comm]

/-- The register with a letter and a number. -/
def Register.numbered (letter : Char) (h : isLower letter = true) (n : Nat) : Register where
  first := letter
  others := Nat.toDigits 10 n
  first_lower := h
  others_name x hx := by rw [Numeral.isDecimalDigit_of_mem n hx, Bool.or_true]

/-- `r4-r11`: the registers of one letter with the numbers from the first to the last. -/
structure RegisterRange where
  letter : Char
  low : List Char
  high : List Char
  letter_lower : isLower letter = true
  low_ne_nil : low ≠ []
  low_decimal : ∀ x ∈ low, isDecimalDigit x = true
  high_ne_nil : high ≠ []
  high_decimal : ∀ x ∈ high, isDecimalDigit x = true
  low_le_high : decimalValue low ≤ decimalValue high

namespace RegisterRange

variable (r : RegisterRange)

def text : List Char := (r.letter :: r.low) ++ '-' :: (r.letter :: r.high)

/-- The registers of the range, one by one. -/
def registers : List Register :=
  (List.range' (decimalValue r.low) (decimalValue r.high - decimalValue r.low + 1)).map
    (Register.numbered r.letter r.letter_lower)

end RegisterRange

/-- What stands between two commas of a register list. -/
inductive RegisterItem where
  | single (r : Register)
  | range (r : RegisterRange)

namespace RegisterItem

def text : RegisterItem → List Char
  | .single r => r.name
  | .range r => r.text

/-- The registers that an item stands for. -/
def registers : RegisterItem → List Register
  | .single r => [r]
  | .range r => r.registers

/-- The numbers of the item fit a word. -/
def Fits : RegisterItem → Prop
  | .single _ => True
  | .range r => decimalValue r.high < wordLimit

instance (item : RegisterItem) : Decidable item.Fits :=
  match item with
  | .single _ => inferInstanceAs (Decidable True)
  | .range r => inferInstanceAs (Decidable (decimalValue r.high < wordLimit))

theorem mem_text {item : RegisterItem} {x : Char} (hx : x ∈ item.text) :
    (isLower x || isDecimalDigit x) = true ∨ x = '-' := by
  cases item with
  | single r => exact .inl (r.mem_name hx)
  | range r =>
    have hletter : (isLower r.letter || isDecimalDigit r.letter) = true := by
      rw [r.letter_lower]
      rfl
    have hdigit : ∀ {x}, isDecimalDigit x = true → (isLower x || isDecimalDigit x) = true :=
      fun h => by rw [h, Bool.or_true]
    simp only [text, RegisterRange.text, List.mem_append, List.mem_cons] at hx
    rcases hx with (rfl | hx) | rfl | rfl | hx
    · exact .inl hletter
    · exact .inl (hdigit (r.low_decimal x hx))
    · exact .inr rfl
    · exact .inl hletter
    · exact .inl (hdigit (r.high_decimal x hx))

theorem isBlank_of_mem_text {item : RegisterItem} {x : Char} (hx : x ∈ item.text) :
    isBlank x = false := by
  rcases mem_text hx with h | rfl
  · exact isBlank_of_isInk (isInk_of_isName h)
  · decide

theorem text_ne_nil (item : RegisterItem) : item.text ≠ [] := by
  cases item with
  | single r => exact List.cons_ne_nil _ _
  | range r => exact List.cons_ne_nil _ _

/-- The size of a register is that of its letter. -/
theorem registerSize_cons {r : Register} (xs : List Char) :
    Arm.registerSize (r.first :: xs) = r.bytes := by
  unfold Arm.registerSize Register.bytes
  split
  · rename_i h
    rw [(List.cons.inj h).1, if_pos rfl]
  · rename_i h
    rw [(List.cons.inj h).1]
    rfl
  · rename_i hd hq
    have hd : r.first ≠ 'd' := fun h => hd xs (by rw [h])
    have hq : r.first ≠ 'q' := fun h => hq xs (by rw [h])
    rw [if_neg hd, if_neg hq]

/-- All registers of an item have one size. -/
theorem totalBytes_registers (item : RegisterItem) :
    totalBytes item.registers = item.registers.length * Arm.registerSize item.text := by
  refine totalBytes_of_forall fun s hs => ?_
  cases item with
  | single r =>
    rw [List.mem_singleton.mp hs]
    exact (registerSize_cons r.others).symm
  | range r =>
    obtain ⟨n, _, rfl⟩ := List.mem_map.mp hs
    exact (registerSize_cons (r := .numbered r.letter r.letter_lower n) _).symm

theorem registerNumber?_cons {letter : Char} {ds : List Char} (hletter : isLower letter = true)
    (hne : ds ≠ []) (hds : ∀ x ∈ ds, isDecimalDigit x = true) :
    Arm.registerNumber? (letter :: ds) =
      if decimalValue ds < wordLimit then some (decimalValue ds) else none := by
  have hname : ∀ x ∈ letter :: ds, isBlank x = false := by
    refine List.forall_mem_cons.mpr ⟨?_, fun x hx => ?_⟩
    · exact isBlank_of_isInk (isInk_of_isName (by rw [hletter]; rfl))
    · exact isBlank_of_isInk (isInk_of_isName (by rw [hds x hx, Bool.or_true]))
  have htrim : trim (letter :: ds) = letter :: ds := by
    have h := @trim_append [] (letter :: ds) [] nofun (List.cons_ne_nil letter ds) hname nofun
    rwa [List.append_nil] at h
  have hascii : letter.toNat < 128 := by
    simp only [isLower, Bool.and_eq_true, decide_eq_true_eq] at hletter
    exact Nat.lt_of_le_of_lt hletter.2 (by decide)
  rw [Arm.registerNumber?, htrim]
  dsimp only
  rw [if_pos hascii, word?_decimal hne hds]

/-- **An item counts all its registers**, if their numbers fit a word; a range whose last number
    does not counts as one register. -/
theorem registerCount_text (item : RegisterItem) :
    Arm.registerCount item.text = if item.Fits then item.registers.length else 1 := by
  cases item with
  | single r =>
    have hdash : '-' ∉ r.name := fun h => absurd (r.mem_name h) (by decide)
    rw [text, Arm.registerCount, cut_eq_none hdash]
    rfl
  | range r =>
    have hdash : '-' ∉ r.letter :: r.low := by
      refine List.not_mem_cons_of_ne_of_not_mem (fun h => ?_) fun h => ?_
      · exact absurd (h ▸ r.letter_lower) (by decide)
      · exact absurd (r.low_decimal _ h) (by decide)
    have hle := r.low_le_high
    rw [text, RegisterRange.text, Arm.registerCount, cut_append_cons _ hdash]
    dsimp only
    rw [registerNumber?_cons r.letter_lower r.low_ne_nil r.low_decimal,
      registerNumber?_cons r.letter_lower r.high_ne_nil r.high_decimal, registers,
      RegisterRange.registers, List.length_map, List.length_range']
    by_cases hhigh : decimalValue r.high < wordLimit
    · rw [if_pos hhigh, if_pos (Nat.lt_of_le_of_lt hle hhigh)]
      dsimp only
      rw [if_pos hle, if_pos (show Fits (.range r) from hhigh)]
    · rw [if_neg hhigh, if_neg (show ¬ Fits (.range r) from hhigh)]
      split
      · rename_i h
        cases h
      · rfl

end RegisterItem

/-- A list of items is written in another way: a range one by one, or the items in another order. -/
inductive Respelled : List RegisterItem → List RegisterItem → Prop where
  | expand (front : List RegisterItem) (r : RegisterRange) (back : List RegisterItem) :
      Respelled (front ++ .range r :: back) (front ++ (r.registers.map .single ++ back))
  | reorder {is js : List RegisterItem} (h : is.Perm js) : Respelled is js
  | trans {is js ks : List RegisterItem} (h₁ : Respelled is js) (h₂ : Respelled js ks) :
      Respelled is ks

namespace Respelled

variable {is js : List RegisterItem}

theorem flatMap_single (rs : List Register) :
    (rs.map RegisterItem.single).flatMap RegisterItem.registers = rs := by
  rw [List.flatMap_map]
  exact List.flatMap_singleton' rs

/-- **However a list is written, it has the same registers.** -/
theorem perm_registers (h : Respelled is js) :
    (js.flatMap RegisterItem.registers).Perm (is.flatMap RegisterItem.registers) := by
  induction h with
  | expand front r back =>
    rw [List.flatMap_append, List.flatMap_append, List.flatMap_append, flatMap_single,
      List.flatMap_cons]
    exact .refl _
  | reorder h => exact (h.flatMap_right _).symm
  | trans _ _ ih₁ ih₂ => exact ih₂.trans ih₁

theorem fits (h : Respelled is js) (his : ∀ i ∈ is, i.Fits) : ∀ j ∈ js, j.Fits := by
  induction h with
  | expand front r back =>
    intro j hj
    rcases List.mem_append.mp hj with hj | hj
    · exact his j (List.mem_append_left _ hj)
    · rcases List.mem_append.mp hj with hj | hj
      · obtain ⟨s, _, rfl⟩ := List.mem_map.mp hj
        trivial
      · exact his j (List.mem_append_right _ (List.mem_cons_of_mem _ hj))
  | reorder h => exact fun j hj => his j (h.mem_iff.mpr hj)
  | trans _ _ ih₁ ih₂ => exact ih₂ (ih₁ his)

end Respelled

/-- An item and the blanks around it. -/
structure SpacedItem where
  before : List Char
  item : RegisterItem
  after : List Char
  before_blank : ∀ x ∈ before, isBlank x = true
  after_blank : ∀ x ∈ after, isBlank x = true

namespace SpacedItem

def text (i : SpacedItem) : List Char := i.before ++ (i.item.text ++ i.after)

theorem mem_text {i : SpacedItem} {x : Char} (hx : x ∈ i.text) :
    isBlank x = true ∨ (isLower x || isDecimalDigit x) = true ∨ x = '-' := by
  simp only [text, List.mem_append] at hx
  rcases hx with hx | hx | hx
  · exact .inl (i.before_blank x hx)
  · exact .inr (RegisterItem.mem_text hx)
  · exact .inl (i.after_blank x hx)

theorem trim_text (i : SpacedItem) : trim i.text = i.item.text :=
  trim_append i.before_blank i.item.text_ne_nil (fun _ => RegisterItem.isBlank_of_mem_text)
    i.after_blank

/-- **The size of a list is that of its registers.** -/
theorem itemsSize_map_text {items : List SpacedItem} (h : ∀ i ∈ items, i.item.Fits) :
    Arm.itemsSize (items.map text) = totalBytes (items.flatMap (·.item.registers)) := by
  induction items with
  | nil => rfl
  | cons i items ih =>
    obtain ⟨hi, hitems⟩ := List.forall_mem_cons.mp h
    have hsome : (!i.item.text.isEmpty) = true := by
      rw [Bool.not_eq_true', List.isEmpty_eq_false_iff]
      exact i.item.text_ne_nil
    have hcount := i.item.registerCount_text
    rw [if_pos hi] at hcount
    rw [List.flatMap_cons, totalBytes_append, ← ih hitems, i.item.totalBytes_registers, ← hcount]
    simp only [Arm.itemsSize, List.map_cons, trim_text, List.filter_cons, hsome, if_true,
      List.foldr_cons]

end SpacedItem

/-! ## 4. Pushes -/

/-- How a push is written around its list. -/
inductive PushForm where
  /-- `push {…}` -/
  | push
  /-- `vpush {…}` -/
  | vpush
  /-- `stmdb sp!, {…}` -/
  | stmdb (gap : List Char) (gap_blank : ∀ x ∈ gap, isBlank x = true)

namespace PushForm

def mnemonic : PushForm → List Char
  | .push => "push".toList
  | .vpush => "vpush".toList
  | .stmdb _ _ => "stmdb".toList

/-- What stands between the blanks and the list. -/
def before : PushForm → List Char
  | .push | .vpush => []
  | .stmdb gap _ => "sp!,".toList ++ gap

end PushForm

structure RegisterPush where
  columns : Columns
  form : PushForm
  space : List Char
  items : List SpacedItem
  space_ne_nil : space ≠ []
  space_blank : ∀ x ∈ space, isBlank x = true
  items_ne_nil : items ≠ []

namespace RegisterPush

variable (k : RegisterPush)

/-- The items with commas between them. -/
def list : List Char := [','].intercalate (k.items.map SpacedItem.text)

def operand : List Char := k.form.before ++ '\x7b' :: (k.list ++ ['\x7d'])

def operation : List Char := k.form.mnemonic ++ (k.space ++ k.operand)

def line : List Char := k.columns.text k.operation

/-- The registers that are pushed, ranges one by one. -/
def registers : List Register := k.items.flatMap (·.item.registers)

/-- The numbers of all items fit a word. -/
def Fits : Prop := ∀ i ∈ k.items, i.item.Fits

/-! ## 5. The line of a push -/

/-- What stands before the list in the line. -/
def front : List Char :=
  k.columns.start ++ '\t' :: (k.form.mnemonic ++ (k.space ++ k.form.before))

theorem line_eq : k.line = k.front ++ '\x7b' :: (k.list ++ ['\x7d']) := by
  simp only [line, Columns.text, operation, operand, front, List.append_assoc, List.cons_append]

/-- The characters of a push, its braces apart. -/
def isPushChar (x : Char) : Bool :=
  isBlank x || (isLower x || isDecimalDigit x) || x == '-' || x == ',' || x == '!'

theorem isPushChar_of_isBlank {x : Char} (h : isBlank x = true) : isPushChar x = true := by
  rw [isPushChar, h]
  rfl

theorem isPushChar_of_isName {x : Char} (h : (isLower x || isDecimalDigit x) = true) :
    isPushChar x = true := by
  rw [isPushChar, h, Bool.or_true]
  rfl

theorem mem_list {x : Char} (hx : x ∈ k.list) : isPushChar x = true := by
  rcases mem_intercalate hx with rfl | ⟨text, htext, hx⟩
  · decide
  · obtain ⟨i, _, rfl⟩ := List.mem_map.mp htext
    rcases SpacedItem.mem_text hx with h | h | rfl
    · exact isPushChar_of_isBlank h
    · exact isPushChar_of_isName h
    · decide

/-- What stands in the operation before the list. -/
theorem mem_before {x : Char} (hx : x ∈ k.form.mnemonic ++ (k.space ++ k.form.before)) :
    isPushChar x = true := by
  have hmnemonic : k.form.mnemonic.all isPushChar = true := by
    cases k.form with
    | push | vpush | stmdb _ _ => rfl
  have hbefore : ∀ x ∈ k.form.before, isPushChar x = true := by
    cases k.form with
    | push | vpush => exact nofun
    | stmdb gap hgap =>
      intro x hx
      rcases List.mem_append.mp hx with hx | hx
      · exact List.all_eq_true.mp (show "sp!,".toList.all isPushChar = true from rfl) x hx
      · exact isPushChar_of_isBlank (hgap x hx)
  simp only [List.mem_append] at hx
  rcases hx with hx | hx | hx
  · exact List.all_eq_true.mp hmnemonic x hx
  · exact isPushChar_of_isBlank (k.space_blank x hx)
  · exact hbefore x hx

theorem mem_start {x : Char} (hx : x ∈ k.columns.start) : isPushChar x = true ∨ x = ':' := by
  rcases k.columns.mem_start hx with h | h | h
  · exact .inl (isPushChar_of_isBlank h)
  · exact .inl (isPushChar_of_isName (isName_of_isHexDigit h))
  · exact .inr h

theorem mem_front {x : Char} (hx : x ∈ k.front) : isPushChar x = true ∨ x = ':' := by
  rcases List.mem_append.mp hx with hx | hx
  · exact k.mem_start hx
  · rcases List.mem_cons.mp hx with rfl | hx
    · exact .inl (by decide)
    · exact .inl (k.mem_before hx)

theorem mem_operation {x : Char} (hx : x ∈ k.operation) :
    isPushChar x = true ∨ x = '\x7b' ∨ x = '\x7d' := by
  have hsplit : k.operation =
      (k.form.mnemonic ++ (k.space ++ k.form.before)) ++ '\x7b' :: (k.list ++ ['\x7d']) := by
    simp only [operation, operand, List.append_assoc]
  rw [hsplit] at hx
  rcases List.mem_append.mp hx with hx | hx
  · exact .inl (k.mem_before hx)
  · rcases List.mem_cons.mp hx with hx | hx
    · exact .inr (.inl hx)
    · rcases List.mem_append.mp hx with hx | hx
      · exact .inl (k.mem_list hx)
      · exact .inr (.inr (List.mem_singleton.mp hx))

theorem mem_line {x : Char} (hx : x ∈ k.line) :
    isPushChar x = true ∨ x = ':' ∨ x = '\x7b' ∨ x = '\x7d' := by
  rcases List.mem_append.mp hx with hx | hx
  · exact (k.mem_start hx).imp_right .inl
  · rcases List.mem_cons.mp hx with rfl | hx
    · exact .inl (by decide)
    · exact (k.mem_operation hx).imp_right .inr

theorem registerListSize_line (h : k.Fits) :
    Arm.registerListSize k.line = totalBytes k.registers := by
  have hopen : '\x7b' ∉ k.front := by
    intro hx
    rcases k.mem_front hx with h | h
    · exact absurd h (by decide)
    · exact absurd h (by decide)
  have hclose : '\x7d' ∉ k.list := fun hx => absurd (k.mem_list hx) (by decide)
  have hcomma : ∀ text ∈ k.items.map SpacedItem.text, ',' ∉ text := by
    intro text htext hx
    obtain ⟨i, _, rfl⟩ := List.mem_map.mp htext
    exact absurd (SpacedItem.mem_text hx) (by decide)
  have hpieces : pieces ',' k.list = k.items.map SpacedItem.text :=
    pieces_intercalate (mt List.map_eq_nil_iff.mp k.items_ne_nil) hcomma
  have hlist : cut '\x7d' (k.list ++ ['\x7d']) = some (k.list, []) := cut_append_cons [] hclose
  rw [Arm.registerListSize, line_eq, cut_append_cons _ hopen, Option.bind_some]
  dsimp only
  rw [hlist]
  dsimp only
  rw [hpieces, SpacedItem.itemsSize_map_text h, registers]

theorem fileHeading?_line : fileHeading? k.line = none := by
  have hcolon : ':' ∉ k.operation := fun hx => absurd (k.mem_operation hx) (by decide)
  have hstart : ∃ x, k.operation.head? = some x ∧ isCodeChar x = false ∧ x ≠ 'i' := by
    rw [operation]
    cases k.form with
    | push => exact ⟨'p', rfl, by decide, by decide⟩
    | vpush => exact ⟨'v', rfl, by decide, by decide⟩
    | stmdb _ _ => exact ⟨'s', rfl, by decide, by decide⟩
  obtain ⟨x, hx, hcode, hletter⟩ := hstart
  refine k.columns.fileHeading?_text hcolon (fun y hy => ?_) fun h => ?_
  · rw [hx] at hy
    cases hy
    exact hcode
  · rw [hx] at h
    exact hletter (Option.some.inj h)

/-- The operation has the form of a push, whatever is in its list. -/
theorem isPush_operation :
    Arm.isPush ⟨k.operation.takeWhile isInk, k.operation.dropWhile isInk⟩ = true := by
  have hink : ∀ x ∈ k.form.mnemonic, isInk x = true := by
    cases k.form with
    | push | vpush | stmdb _ _ => exact List.all_eq_true.mp rfl
  have hbounds : Bounds isInk (k.space ++ k.operand) := bounds_isInk k.space_ne_nil k.space_blank _
  have hoperand : Bounds isBlank k.operand := by
    rw [operand]
    cases k.form with
    | push | vpush | stmdb _ _ => exact bounds_cons.mpr (by decide)
  have hblanks := blanks_append k.space_ne_nil k.space_blank hoperand
  rw [operation, takeWhile_append_bounds hink hbounds, dropWhile_append_bounds hink hbounds,
    Arm.isPush, Bool.or_eq_true]
  cases hform : k.form with
  | push | vpush =>
    refine .inl ?_
    rw [hblanks, operand, hform]
    rfl
  | stmdb gap hgap =>
    have hpointer : literal "sp!," k.operand = some (gap ++ '\x7b' :: (k.list ++ ['\x7d'])) := by
      rw [operand, hform, PushForm.before, List.append_assoc]
      exact after?_append _ _
    have htrim : trimStart (gap ++ '\x7b' :: (k.list ++ ['\x7d'])) =
        '\x7b' :: (k.list ++ ['\x7d']) :=
      dropWhile_append_bounds hgap (bounds_cons.mpr (by decide))
    refine .inr ?_
    simp only [hblanks, hpointer, htrim, Option.bind_eq_bind, Option.bind_some]
    rfl

/-- **The line is read as a push of its registers.** -/
theorem classify_line (h : k.Fits) :
    Dialect.arm.classify k.line = .push (totalBytes k.registers) := by
  have hsection : k.line.head? ≠ some 'D' := by
    obtain ⟨x, hx, hclass⟩ := k.columns.head?_text k.operation
    rw [line, hx]
    rintro ⟨rfl⟩
    exact absurd hclass (by decide)
  have hcode : Dialect.arm.code k.line = k.line := by
    refine (code_eq_self_iff (t := .arm)).mpr (uncommented_arm.mpr ⟨?_, fun hslash => ?_⟩)
    · exact fun hx => absurd (k.mem_line hx) (by decide)
    · exact absurd (k.mem_line (hslash.subset List.mem_cons_self)) (by decide)
  have htrim : trimEnd k.line = k.line := by
    have hsplit : k.line = (k.front ++ '\x7b' :: k.list) ++ ['\x7d'] := by
      rw [line_eq, List.append_assoc, List.cons_append]
    rw [hsplit, trimEnd_concat (by decide)]
  have hpush : Dialect.arm.isPush.any (· k.line) = true :=
    List.any_eq_true.mpr ⟨_, mem_ops_of_blank k.columns.start k.operation (by decide),
      k.isPush_operation⟩
  rw [Dialect.classify, Dialect.read, fileHeading?_line, sectionHeading?_eq_none hsection, line,
    k.columns.label?_text]
  dsimp only
  rw [← line, hcode, htrim, Dialect.readCode, if_pos hpush]
  exact congrArg Line.push (k.registerListSize_line h)

end RegisterPush

/-- **A push takes the bytes of its registers**, each counted once, ranges expanded, if the numbers
    of its ranges fit a word. So every push of these registers, in whatever order and form, is read
    as the same, and one with the same list written in another way, or with other blanks, is such a
    push. -/
theorem register_push_classified (k : RegisterPush) (hk : k.Fits) :
    Dialect.arm.classify k.line = .push (totalBytes k.registers) ∧
      (∀ l : RegisterPush, l.Fits → l.registers.Perm k.registers →
        Dialect.arm.classify l.line = Dialect.arm.classify k.line) ∧
      (∀ l : RegisterPush, Respelled (k.items.map (·.item)) (l.items.map (·.item)) →
        Dialect.arm.classify l.line = Dialect.arm.classify k.line) := by
  have hsame : ∀ l : RegisterPush, l.Fits → l.registers.Perm k.registers →
      Dialect.arm.classify l.line = Dialect.arm.classify k.line := by
    intro l hl hperm
    rw [l.classify_line hl, k.classify_line hk, totalBytes_perm hperm]
  refine ⟨k.classify_line hk, hsame, fun l hrespelled => hsame l (fun i hi => ?_) ?_⟩
  · exact hrespelled.fits (List.forall_mem_map.mpr hk) i.item (List.mem_map_of_mem hi)
  · have hperm := hrespelled.perm_registers
    rw [List.flatMap_map, List.flatMap_map] at hperm
    exact hperm

theorem isBlank_of_mem_spaces {n : Nat} {x : Char} (hx : x ∈ List.replicate n ' ') :
    isBlank x = true := by
  rw [List.eq_of_mem_replicate hx]
  decide

/-- An item with so many spaces on either side. -/
def SpacedItem.spaced (before : Nat) (item : RegisterItem) (after : Nat) : SpacedItem where
  before := List.replicate before ' '
  item := item
  after := List.replicate after ' '
  before_blank _ := isBlank_of_mem_spaces
  after_blank _ := isBlank_of_mem_spaces

/-- A push of items in one of its forms, with a space after each comma. -/
def pushOf (form : PushForm) (item : RegisterItem) (items : List RegisterItem) : RegisterPush where
  columns := callColumns.toColumns
  form := form
  space := List.replicate 3 ' '
  items := .spaced 0 item 0 :: items.map (.spaced 1 · 0)
  space_ne_nil := List.cons_ne_nil _ _
  space_blank _ := isBlank_of_mem_spaces
  items_ne_nil := List.cons_ne_nil _ _

/-- The range of a letter between two numbers. -/
def rangeOf (letter : Char) (low high : Nat) (hletter : isLower letter = true) (h : low ≤ high) :
    RegisterRange where
  letter := letter
  low := Nat.toDigits 10 low
  high := Nat.toDigits 10 high
  letter_lower := hletter
  low_ne_nil := toDigits_ne_nil (by decide)
  low_decimal _ := Numeral.isDecimalDigit_of_mem low
  high_ne_nil := toDigits_ne_nil (by decide)
  high_decimal _ := Numeral.isDecimalDigit_of_mem high
  low_le_high := by rwa [decimalValue_toDigits, decimalValue_toDigits]

/-- A list with a range in it, and the same list with the registers of the range after an item that
    followed it. -/
theorem register_push_classified_mixed :
    Dialect.arm.classify (callColumns.text "stmdb   sp!, \x7br4-r6, d7, q8-q11\x7d".toList) =
        .push 84 ∧
      Dialect.arm.classify (callColumns.text "push   \x7bd7, r4, r5, r6, q8-q11\x7d".toList) =
        .push 84 := by
  let core := rangeOf 'r' 4 6 rfl (by decide)
  let double := RegisterItem.single (.numbered 'd' rfl 7)
  let quad := RegisterItem.range (rangeOf 'q' 8 11 rfl (by decide))
  let k := pushOf (.stmdb [' '] (List.all_eq_true.mp rfl)) (.range core) [double, quad]
  let l := pushOf .push double [.single (.numbered 'r' rfl 4), .single (.numbered 'r' rfl 5),
    .single (.numbered 'r' rfl 6), quad]
  have hcore : RegisterItem.Fits (.range core) := by decide +kernel
  have hquad : quad.Fits := by decide +kernel
  have hk : k.Fits := List.forall_mem_cons.mpr
    ⟨hcore, List.forall_mem_cons.mpr ⟨trivial, List.forall_mem_singleton.mpr hquad⟩⟩
  have hrespelled : Respelled (k.items.map (·.item)) (l.items.map (·.item)) :=
    .trans (.expand [] core [double, quad])
      (.reorder (@List.perm_middle _ double (core.registers.map .single) [quad]))
  have hbytes : totalBytes k.registers = 84 := by decide +kernel
  have hfirst : k.line = callColumns.text "stmdb   sp!, \x7br4-r6, d7, q8-q11\x7d".toList := by
    decide +kernel
  have hsecond : l.line = callColumns.text "push   \x7bd7, r4, r5, r6, q8-q11\x7d".toList := by
    decide +kernel
  obtain ⟨hsize, _, hsame⟩ := register_push_classified k hk
  rw [← hfirst, ← hsecond, hsame l hrespelled, hsize, hbytes]
  exact ⟨rfl, rfl⟩

/-- `push {r18446744073709551616-r18446744073709551617}` -/
def widePush : RegisterPush :=
  pushOf .push (.range (rangeOf 'r' wordLimit (wordLimit + 1) rfl (Nat.le_succ wordLimit))) []

/-- Two registers whose numbers do not fit a word are counted as one. -/
theorem wide_range_counted_once :
    totalBytes widePush.registers = 8 ∧ Dialect.arm.classify widePush.line = .push 4 := by
  decide +kernel

end StackDepth.Listing
