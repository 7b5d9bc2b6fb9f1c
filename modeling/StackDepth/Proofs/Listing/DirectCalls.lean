import StackDepth.Proofs.Listing.Comments

/-!
# Direct calls

The line of a direct call names the address of its target and, in brackets, its symbol, which is any
text without blanks. The line is read as the call of that address and that symbol, unless a comment
starts in the symbol.

* `DirectCall`: a direct call of a target, and its text;
* `DirectCall.mem_ops`: the words of the line, of which the mnemonic alone has a form;
* `X86.readCode_directCall`, `Arm.readCode_directCall`: what the dialects make of such a line;
* `directCall_classified_iff`: the line is read as the call it is exactly if no comment starts in
  the symbol.
-/

namespace StackDepth.Listing

open StackDepth.Text

/-! ## 1. The text of a direct call -/

/-- The mnemonics of a direct call. -/
def callMnemonics : Target → List (List Char)
  | .x86 | .x86_64 => ["call", "calll", "callq"].map String.toList
  | .arm | .aarch64 => ["bl"].map String.toList

structure DirectCall (t : Target) where
  mnemonic : List Char
  space : List Char
  address : Nat
  name : String
  mnemonic_mem : mnemonic ∈ callMnemonics t
  space_ne_nil : space ≠ []
  space_blank : ∀ x ∈ space, isBlank x = true
  address_lt : address < wordLimit
  name_ink : ∀ x ∈ name.toList, isInk x = true

namespace DirectCall

variable {t : Target} (k : DirectCall t)

def digits : List Char := (hex k.address).toList

/-- The symbol in its brackets. -/
def symbol : List Char := '<' :: (k.name.toList ++ ['>'])

/-- The address and the symbol. -/
def operand : List Char := k.digits ++ ' ' :: k.symbol

def text : List Char := k.mnemonic ++ (k.space ++ k.operand)

theorem digits_eq : k.digits = Nat.toDigits 16 k.address := String.toList_ofList

theorem digits_hex {x : Char} (hx : x ∈ k.digits) : isHexDigit x = true :=
  isHexDigit_of_mem_toDigits (by decide) (by decide) (k.digits_eq ▸ hx)

theorem digits_ne_nil : k.digits ≠ [] := by
  rw [digits_eq]
  exact toDigits_ne_nil (by decide)

theorem symbol_ink {x : Char} (hx : x ∈ k.symbol) : isInk x = true := by
  simp only [symbol, List.mem_cons, List.mem_append, List.not_mem_nil, or_false] at hx
  rcases hx with rfl | hx | rfl
  · decide
  · exact k.name_ink x hx
  · decide

theorem mnemonic_ink {x : Char} (hx : x ∈ k.mnemonic) : isInk x = true := by
  have hall : ∀ m ∈ callMnemonics t, m.all isInk = true := by
    cases t with
    | x86 | x86_64 | arm | aarch64 => decide
  exact List.all_eq_true.mp (hall _ k.mnemonic_mem) x hx

/-! ## 2. The target is read -/

theorem callee_operand : callee (k.digits, k.name.toList) = some (k.address, k.name) := by
  rw [callee, digits_eq, word?_toDigits (by decide) (by decide),
    if_pos k.address_lt, Option.map_some, String.ofList_toList]

theorem bracketed?_symbol : bracketed? ">" k.symbol = some k.name.toList := by
  have hbefore : before? ">".toList (k.name.toList ++ ['>']) = some k.name.toList :=
    before?_eq_some_iff.mpr rfl
  have hline : k.name.toList.contains '\n' = false := by
    refine Bool.eq_false_iff.mpr fun h => ?_
    exact absurd (k.name_ink '\n' (List.contains_iff_mem.mp h)) (by decide)
  have hliteral : literal "<" k.symbol = some (k.name.toList ++ ['>']) := rfl
  rw [bracketed?, hliteral]
  simp only [Option.bind_eq_bind, Option.bind_some, hbefore, hline]
  rfl

theorem callTarget?_operand : callTarget? k.operand = some (k.digits, k.name.toList) := by
  have hrun : run isHexDigit k.operand = some (k.digits, ' ' :: k.symbol) :=
    run_append k.digits_ne_nil (fun _ => k.digits_hex) (bounds_cons.mpr (by decide))
  have hblanks : blanks (' ' :: k.symbol) = some k.symbol := rfl
  rw [callTarget?, hrun]
  simp only [Option.bind_eq_bind, Option.bind_some, hblanks, k.bracketed?_symbol]
  rfl

theorem blanks_operand : blanks (k.space ++ k.operand) = some k.operand := by
  refine blanks_append k.space_ne_nil k.space_blank ?_
  cases hd : k.digits with
  | nil => exact absurd hd k.digits_ne_nil
  | cons d ds =>
    rw [operand, hd, List.cons_append, bounds_cons]
    exact isBlank_of_isHexDigit (k.digits_hex (hd ▸ List.mem_cons_self))

theorem trimEnd_operand (front : List Char) :
    trimEnd (front ++ k.operand) = front ++ k.operand := by
  have h : front ++ k.operand = (front ++ k.digits ++ ' ' :: '<' :: k.name.toList) ++ ['>'] := by
    simp [operand, symbol]
  rw [h]
  exact trimEnd_concat (by decide)

/-! ## 3. The words of the line -/

/-- Between the mnemonic and the end there is the address, and nothing else that could be one. -/
theorem mem_ops_operand {xs : List Char} (hxs : ∀ x ∈ xs, isBlank x = true) {op : Op}
    (h : op ∈ ops (xs ++ k.operand)) :
    isAside op.name = true ∨ op = ⟨k.digits, ' ' :: k.symbol⟩ := by
  have hdigits : ∀ x ∈ k.digits, isInk x = true := fun x hx => isInk_of_isHexDigit (k.digits_hex hx)
  induction xs with
  | nil =>
    have hsymbol := ops_blank_word (x := ' ') rfl (fun _ => k.symbol_ink) bounds_nil
    rw [List.append_nil] at hsymbol
    rw [List.nil_append, operand, ops_append_ink hdigits, hsymbol] at h
    cases List.mem_singleton.mp h
    exact .inl (by simp [isAside, symbol])
  | cons x xs ih =>
    obtain ⟨hx, hxs⟩ := List.forall_mem_cons.mp hxs
    rw [List.cons_append, ops_cons_blank hx] at h
    rcases List.mem_cons.mp h with rfl | h
    · cases xs with
      | nil =>
        have hspace : Bounds isInk (' ' :: k.symbol) := bounds_cons.mpr (by decide)
        rw [List.nil_append, operand, takeWhile_append_bounds hdigits hspace,
          dropWhile_append_bounds hdigits hspace]
        exact .inr rfl
      | cons y ys =>
        have hy : ¬ isInk y = true := by simp [isInk, hxs y List.mem_cons_self]
        rw [List.cons_append, List.takeWhile_cons_of_neg hy]
        exact .inl rfl
    · exact ih hxs h

theorem ops_text : ops ('\t' :: k.text) =
    ⟨k.mnemonic, k.space ++ k.operand⟩ :: ops (k.space ++ k.operand) :=
  ops_blank_word (by decide) (fun _ => k.mnemonic_ink)
    (bounds_isInk k.space_ne_nil k.space_blank _)

/-- **The words of the line**: the mnemonic, the address, and some that are no mnemonics. -/
theorem mem_ops (c : ByteColumns) {op : Op} (h : op ∈ ops (c.text k.text)) :
    op = ⟨k.mnemonic, k.space ++ k.operand⟩ ∨ isAside op.name = true ∨
      op = ⟨k.digits, ' ' :: k.symbol⟩ := by
  rcases (c.columnar k.text).mem_ops h with h | h
  · exact .inr (.inl h)
  · rw [ops_text, List.mem_cons] at h
    exact h.imp_right (k.mem_ops_operand k.space_blank)

/-- The words that are found in the line of a direct call. -/
def isWord (mnemonics : List (List Char)) (w : List Char) : Bool :=
  isAside w || w.all isHexDigit || mnemonics.contains w

theorem isWord_of_mem_ops (c : ByteColumns) {op : Op} (h : op ∈ ops (c.text k.text)) :
    isWord (callMnemonics t) op.name = true := by
  unfold isWord
  rcases k.mem_ops c h with rfl | haside | rfl
  · rw [List.contains_iff_mem.mpr k.mnemonic_mem, Bool.or_true]
  · rw [haside, Bool.true_or, Bool.true_or]
  · rw [List.all_eq_true.mpr fun _ => k.digits_hex, Bool.or_true, Bool.true_or]

/-- A form that the mnemonic has, and no word before it. -/
theorem findSome?_ops {form : Op → Option (List Char × List Char)}
    {target : List Char × List Char}
    (hmnemonic : form ⟨k.mnemonic, k.space ++ k.operand⟩ = some target)
    (haside : ∀ op, isAside op.name = true → form op = none) (c : ByteColumns) :
    (ops (c.text k.text)).findSome? form = some target := by
  rw [(c.columnar k.text).findSome?_ops haside, ops_text, List.findSome?_cons, hmnemonic]

end DirectCall

/-! ## 4. The dialects -/

/-- A line is read as a direct call where no form before that has it. -/
theorem Dialect.readCode_of_callee? {d : Dialect} {cs : List Char} {address : Nat} {name : String}
    (hpush : d.isPush.any (· cs) = false) (hdecrement : d.isDecrement cs = false)
    (hdynamic : d.isDynamic cs = false) (hcallee : d.callee? cs = some (address, name)) :
    d.readCode cs = ⟨.call address name, false⟩ := by
  rw [Dialect.readCode, hpush, hdecrement, hdynamic, hcallee]
  rfl

namespace X86

variable {op : Op}

/-- The words that a push is named by. -/
def push : Mnemonic := .of ["push"] [""] ["", "w", "l", "q"]

theorem pushSuffix?_eq_none (h : push.has op.name = false) : pushSuffix? op = none := by
  refine Option.eq_none_iff_forall_ne_some.mpr fun suffix hsuffix => Bool.eq_false_iff.mp h ?_
  simp only [pushSuffix?, Option.bind_eq_bind, Option.bind_eq_some_iff] at hsuffix
  obtain ⟨found, hfound, hsuffix⟩ := hsuffix
  split at hsuffix
  · cases hsuffix
  · rename_i hmem
    rw [Bool.not_eq_true', Bool.not_eq_false, List.contains_iff_mem] at hmem
    exact (push.has_iff _).mpr ⟨_, List.mem_cons_self, [], List.mem_cons_self, found, hmem,
      after?_eq_some_iff.mp hfound⟩

theorem decrement?_eq_none (h : sub.has op.name = false) : decrement? op = none := by
  rw [decrement?, h]
  rfl

theorem isDynamic_eq_false (h : sub.has op.name = false) : isDynamic op = false := by
  rw [isDynamic, h]
  rfl

theorem call?_eq_none (h : call.has op.name = false) : call? op = none := by
  rw [call?, h]
  rfl

section

variable {t : Target} (ht : callMnemonics t = callMnemonics .x86) (k : DirectCall t)

include ht

theorem call?_directCall :
    call? ⟨k.mnemonic, k.space ++ k.operand⟩ = some (k.digits, k.name.toList) := by
  have hall : ∀ m ∈ callMnemonics .x86, call.has m = true := by decide
  have htrim : trimEnd k.operand = k.operand := k.trimEnd_operand []
  rw [call?, hall _ (ht ▸ k.mnemonic_mem)]
  simp only [Option.bind_eq_bind, k.blanks_operand, Option.bind_some, htrim, k.callTarget?_operand]
  rfl

/-- **A direct call** of either word size. -/
theorem readCode_directCall (target : Target) (word : Nat) (c : ByteColumns) :
    (Dialect.x86 target word).readCode (c.text k.text) = ⟨.call k.address k.name, false⟩ := by
  have hpush : ∀ op ∈ ops (c.text k.text), push.has op.name = false := fun op hop =>
    Mnemonic.has_eq_false (by decide +kernel) (ht ▸ k.isWord_of_mem_ops c hop)
  have hsub : ∀ op ∈ ops (c.text k.text), sub.has op.name = false := fun op hop =>
    Mnemonic.has_eq_false (by decide +kernel) (ht ▸ k.isWord_of_mem_ops c hop)
  refine Dialect.readCode_of_callee? ?_ ?_ ?_ ?_
  · refine any_ops_eq_false fun op hop => ?_
    rw [pushSuffix?_eq_none (hpush op hop)]
    rfl
  · refine any_ops_eq_false fun op hop => ?_
    rw [decrement?_eq_none (hsub op hop)]
    rfl
  · exact any_ops_eq_false fun op hop => isDynamic_eq_false (hsub op hop)
  · have hfind := k.findSome?_ops (call?_directCall ht k)
      (fun op hop => call?_eq_none (Mnemonic.has_eq_false (by decide +kernel) hop)) c
    exact (congrArg (Option.bind · callee) hfind).trans k.callee_operand

end

end X86

namespace Arm

variable {op : Op}

theorem isPush_eq_false (h : push.has op.name = false) (h' : storeMany.has op.name = false) :
    isPush op = false := by
  rw [isPush, h, h', Bool.false_and, Bool.false_and, Bool.or_false]

/-- What `add` may do to the stack pointer is left to see. -/
theorem isDecrement_eq_false (hsub : sub.has op.name = false) (hstore : store.has op.name = false)
    (hpair : storePair.has op.name = false)
    (hadd : add.has op.name = false ∨ stackPointers op.operands = none) :
    isDecrement op = false := by
  have hmoves : (add.has op.name &&
      ((stackPointers op.operands).map (startsNumber "#-")).getD false) = false := by
    rcases hadd with hadd | hadd
    · rw [hadd, Bool.false_and]
    · rw [hadd, Option.map_none, Option.getD_none, Bool.and_false]
  rw [isDecrement, hsub, hmoves, hstore, hpair, Bool.false_and, Bool.false_and, Bool.false_and]
  rfl

theorem isDynamic_eq_false (h : sub.has op.name = false) : isDynamic op = false := by
  rw [isDynamic, h, Bool.false_and]

theorem branch?_eq_none (h : branch.has op.name = false) : branch? op = none := by
  rw [branch?, h]
  rfl

section

variable {t : Target} (ht : callMnemonics t = callMnemonics .arm) (k : DirectCall t)

include ht

theorem branch?_directCall :
    branch? ⟨k.mnemonic, k.space ++ k.operand⟩ = some (k.digits, k.name.toList) := by
  have hall : ∀ m ∈ callMnemonics .arm, branch.has m = true := by decide
  rw [branch?, hall _ (ht ▸ k.mnemonic_mem)]
  simp only [Option.bind_eq_bind, k.blanks_operand, Option.bind_some, k.callTarget?_operand]
  rfl

/-- `add` may be the address, but a symbol is no stack pointer. -/
theorem add_directCall (c : ByteColumns) (hop : op ∈ ops (c.text k.text)) :
    add.has op.name = false ∨ stackPointers op.operands = none := by
  have hall : ∀ m ∈ callMnemonics .arm, add.has m = false := by decide
  rcases k.mem_ops c hop with rfl | haside | rfl
  · exact .inl (hall _ (ht ▸ k.mnemonic_mem))
  · exact .inl (Mnemonic.has_eq_false (by decide +kernel) haside)
  · exact .inr rfl

/-- **A direct call**, in any dialect that takes its forms from here. -/
theorem readCode_directCall {d : Dialect} (c : ByteColumns)
    (hpush : d.isPush = Dialect.arm.isPush ∨ d.isPush = none)
    (hdecrement : d.isDecrement = Dialect.arm.isDecrement)
    (hdynamic : d.isDynamic = Dialect.arm.isDynamic) (hcallee : d.callee? = Dialect.arm.callee?) :
    d.readCode (c.text k.text) = ⟨.call k.address k.name, false⟩ := by
  have hno : ∀ m ∈ [push, storeMany, sub, store, storePair], ∀ op ∈ ops (c.text k.text),
      m.has op.name = false := by
    intro m hm op hop
    have hall : ∀ m ∈ [push, storeMany, sub, store, storePair],
        m.words.all (fun w => !DirectCall.isWord (callMnemonics .arm) w) = true := by decide +kernel
    exact Mnemonic.has_eq_false (hall m hm) (ht ▸ k.isWord_of_mem_ops c hop)
  have hsub := hno sub (by simp)
  refine Dialect.readCode_of_callee? ?_ ?_ ?_ ?_
  · rcases hpush with hpush | hpush
    · rw [hpush]
      exact any_ops_eq_false fun op hop =>
        isPush_eq_false (hno push (by simp) op hop) (hno storeMany (by simp) op hop)
    · rw [hpush]
      rfl
  · rw [hdecrement]
    exact any_ops_eq_false fun op hop => isDecrement_eq_false (hsub op hop)
      (hno store (by simp) op hop) (hno storePair (by simp) op hop) (add_directCall ht k c hop)
  · rw [hdynamic]
    exact any_ops_eq_false fun op hop => isDynamic_eq_false (hsub op hop)
  · have hfind := k.findSome?_ops (branch?_directCall ht k)
      (fun op hop => branch?_eq_none (Mnemonic.has_eq_false (by decide +kernel) hop)) c
    rw [hcallee]
    show Option.bind (Option.or _ _) callee = _
    rw [hfind]
    exact k.callee_operand

end

end Arm

/-! ## 5. Comments and the symbol -/

namespace DirectCall

variable {t : Target} (k : DirectCall t) (c : ByteColumns)

/-- What stands before the symbol. -/
def front : List Char := c.start ++ '\t' :: (k.mnemonic ++ (k.space ++ (k.digits ++ [' '])))

theorem text_eq : c.text k.text = k.front c ++ '<' :: (k.name.toList ++ ['>']) := by
  simp [Columns.text, text, operand, symbol, front]

/-- The characters that are found before the symbol. -/
def isFrontChar (x : Char) : Bool := isBlank x || isHexDigit x || x == ':' || x == 'l' || x == 'q'

theorem mem_front {x : Char} (hx : x ∈ k.front c) : isFrontChar x = true := by
  have hmnemonic : ∀ m ∈ callMnemonics t, m.all isFrontChar = true := by
    cases t with
    | x86 | x86_64 | arm | aarch64 => decide
  simp only [front, List.mem_append, List.mem_cons, List.not_mem_nil, or_false] at hx
  unfold isFrontChar
  rcases hx with hx | rfl | hx | hx | hx | rfl
  · rcases c.mem_start hx with h | h | rfl
    · rw [h]
      rfl
    · rw [h, Bool.or_true]
      rfl
    · rfl
  · rfl
  · exact List.all_eq_true.mp (hmnemonic _ k.mnemonic_mem) x hx
  · rw [k.space_blank x hx]
    rfl
  · rw [k.digits_hex hx, Bool.or_true]
    rfl
  · rfl

/-- What cannot stand before the symbol, nor in its brackets, stands in the name. -/
theorem infix_name {part : List Char} (hfront : part.all isFrontChar = false)
    (hopen : '<' ∉ part) (hclose : '>' ∉ part) (h : part <:+: c.text k.text) :
    part <:+: k.name.toList := by
  rw [text_eq] at h
  rcases infix_append_cons h hopen with h | h
  · rw [List.all_eq_true.mpr fun x hx => k.mem_front c (h.subset hx)] at hfront
    cases hfront
  · rcases infix_append_cons h hclose with h | h
    · exact h
    · rw [List.infix_nil.mp h] at hfront
      cases hfront

theorem not_isFileFormat (c : ByteColumns) : ¬ fileFormat <:+: k.text := by
  intro h
  have htext : k.text <:+: c.text k.text :=
    ((List.suffix_cons '\t' k.text).trans (List.suffix_append c.start _)).isInfix
  have hname := k.infix_name c (by decide) (by decide) (by decide) (h.trans htext)
  -- the words have a space between them, and the name has none
  exact absurd (k.name_ink ' ' (hname.subset (by decide))) (by decide)

theorem uncommented_text (h : Uncommented t k.name.toList) : Uncommented t (c.text k.text) := by
  have hmarks : ∀ mark ∈ commentMarks t, mark.toList.all isFrontChar = false ∧
      '<' ∉ mark.toList ∧ '>' ∉ mark.toList := by
    cases t with
    | x86 | x86_64 | arm | aarch64 => decide
  intro mark hmark hfound
  obtain ⟨hfront, hopen, hclose⟩ := hmarks mark hmark
  exact h mark hmark (k.infix_name c hfront hopen hclose hfound)

theorem trimEnd_text : trimEnd (c.text k.text) = c.text k.text := by
  have h := k.trimEnd_operand (c.start ++ '\t' :: (k.mnemonic ++ k.space))
  simpa only [Columns.text, text, List.append_assoc, List.cons_append] using h

/-- What the dialect of the target makes of the line. -/
theorem readCode_text :
    (Dialect.of t).readCode (c.text k.text) = ⟨.call k.address k.name, false⟩ := by
  cases t with
  | x86 => exact X86.readCode_directCall rfl k .x86 4 c
  | x86_64 => exact X86.readCode_directCall (t := .x86_64) rfl k .x86_64 8 c
  | arm => exact Arm.readCode_directCall rfl k c (.inl rfl) rfl rfl rfl
  | aarch64 => exact Arm.readCode_directCall (t := .aarch64) rfl k c (.inr rfl) rfl rfl rfl

end DirectCall

/-- **Direct calls keep their symbols**, whatever these are made of, in every dialect: the line is
    read as the call of its address and its symbol if and only if no comment starts in the
    symbol. -/
theorem directCall_classified_iff (t : Target) (c : ByteColumns) (k : DirectCall t) :
    (Dialect.of t).classify (c.text k.text) = .call k.address k.name ↔
      Uncommented t k.name.toList := by
  constructor
  · intro h
    exact uncommented_code.mono (infix_code_of_classify h)
  · intro h
    rw [Dialect.classify, c.read_text _ (k.not_isFileFormat c),
      code_eq_self_iff.mpr (k.uncommented_text c h), k.trimEnd_text c, k.readCode_text c]

/-- An address and five bytes of code. -/
def callColumns : ByteColumns where
  indent := [' ', ' ']
  address := "400526".toList
  gap := ['\t']
  groups := ["e8", "fa", "ff", "ff", "ff"].map String.toList
  padding := []
  indent_blank := List.all_eq_true.mp rfl
  address_ne_nil := by decide
  address_hex := List.all_eq_true.mp rfl
  gap_ne_nil := by decide
  gap_blank := List.all_eq_true.mp rfl
  groups_ne_nil := by decide
  groups_hex := by
    have hall : ∀ g ∈ ["e8", "fa", "ff", "ff", "ff"].map String.toList,
        g.all isHexDigit = true := by decide
    exact fun g hg => List.all_eq_true.mp (hall g hg)
  padding_blank := List.all_eq_true.mp rfl
  groups_length := by decide

/-- A call of a function whose symbol has brackets, colons and a semicolon in it. -/
def nestedCall (t : Target) (mnemonic : String) (h : mnemonic.toList ∈ callMnemonics t) :
    DirectCall t where
  mnemonic := mnemonic.toList
  space := [' ', ' ', ' ']
  address := 0x400526
  name := "<[u8;4]>::len"
  mnemonic_mem := h
  space_ne_nil := by decide
  space_blank := List.all_eq_true.mp rfl
  address_lt := by decide
  name_ink := List.all_eq_true.mp rfl

/-- The same symbol is kept where `;` starts no comment, and not where it does. -/
theorem directCall_classified_nested :
    (Dialect.of .x86_64).classify
        (callColumns.text (nestedCall .x86_64 "callq" (by decide)).text) =
      .call 0x400526 "<[u8;4]>::len" ∧
    (Dialect.of .arm).classify (callColumns.text (nestedCall .arm "bl" (by decide)).text) ≠
      .call 0x400526 "<[u8;4]>::len" := by
  refine ⟨(directCall_classified_iff .x86_64 callColumns (nestedCall _ "callq" _)).mpr ?_,
    fun h => ?_⟩
  · exact uncommented_x86.mpr (by decide)
  · have hclean := (directCall_classified_iff .arm callColumns (nestedCall _ "bl" _)).mp h
    exact absurd (uncommented_arm.mp hclean).1 (by decide)

/-- **A symbol with a comment mark in it is lost**, and the call with it. -/
theorem call_lost_in_comment :
    (Dialect.of .x86_64).classify
      "  400526:\te8 fa ff ff ff \tcall   400526 <a#b>".toList = .other := by
  decide +kernel

end StackDepth.Listing
