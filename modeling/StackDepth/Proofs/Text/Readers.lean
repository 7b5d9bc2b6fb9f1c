import Mathlib.Data.List.TakeWhile
import StackDepth.Text.Reader

/-!
# What readers read

Trimming and readers, each by what its result is in the text that was given to it.

* `dropEndWhile_eq_iff`: what is left of a text whose end is dropped;
* `isRow_iff`: the text of a row is what stands before its line ends;
* `run_append`, `run_eq_some`, `blanks_append`: a run ends where its class of characters ends;
* `cut_append_cons`, `cutLast_append_cons`: where a text is cut;
* `pieces_intercalate`: a list is taken apart into what it was put together from;
* `word?_of_digits`, `word?_toDigits`: the digits of a number are read as that number, if it fits a
  word.
-/

namespace StackDepth.Text

variable {p : Char → Bool} {cs xs rest : List Char} {c : Char}

/-! ## 1. Trimming -/

/-- **What is left where the end is dropped** is the start after which there are characters of the
    class alone, and that does not end with one. -/
theorem dropEndWhile_eq_iff : dropEndWhile p cs = rest ↔
    ∃ ending, cs = rest ++ ending ∧ (∀ c ∈ ending, p c = true) ∧
      ∀ c, rest.getLast? = some c → p c = false := by
  constructor
  · rintro rfl
    refine ⟨(cs.reverse.takeWhile p).reverse, ?_, fun c hc => ?_, fun c hc => ?_⟩
    · rw [dropEndWhile, ← List.reverse_append, List.takeWhile_append_dropWhile,
        List.reverse_reverse]
    · exact List.mem_takeWhile_imp (List.mem_reverse.mp hc)
    · have hnot := List.head?_dropWhile_not p cs.reverse
      rw [dropEndWhile, List.getLast?_reverse] at hc
      rw [hc] at hnot
      exact hnot
  · rintro ⟨ending, rfl, hending, hlast⟩
    have hgo : (ending.reverse ++ rest.reverse).dropWhile p = rest.reverse.dropWhile p :=
      List.dropWhile_append_of_pos fun c hc => hending c (List.mem_reverse.mp hc)
    have hkeep : rest.reverse.dropWhile p = rest.reverse := by
      cases hr : rest.reverse with
      | nil => rfl
      | cons c cs =>
        have hc : rest.getLast? = some c := by rw [← List.head?_reverse, hr]; rfl
        exact List.dropWhile_cons_of_neg (Bool.eq_false_iff.mp (hlast c hc))
    rw [dropEndWhile, List.reverse_append, hgo, hkeep, List.reverse_reverse]

/-- `text` is `raw` without the line ends at its end. -/
def IsRow (text raw : String) : Prop :=
  ∃ ending : List Char, raw.toList = text.toList ++ ending ∧ (∀ c ∈ ending, c = '\r' ∨ c = '\n') ∧
    ∀ c, text.toList.getLast? = some c → c ≠ '\r' ∧ c ≠ '\n'

theorem isRow_iff {text raw : String} : IsRow text raw ↔ text = dropLineEnd raw := by
  have hdrop : text = dropLineEnd raw ↔
      dropEndWhile (fun c => c == '\r' || c == '\n') raw.toList = text.toList := by
    rw [dropLineEnd, eq_comm, ← String.toList_inj, String.toList_ofList]
  rw [hdrop, dropEndWhile_eq_iff, IsRow]
  simp only [Bool.or_eq_true, beq_iff_eq, Bool.or_eq_false_iff, beq_eq_false_iff_ne]

/-- Nothing is trimmed off a text that ends with ink. -/
theorem trimEnd_concat (hc : isBlank c = false) : trimEnd (cs ++ [c]) = cs ++ [c] := by
  refine dropEndWhile_eq_iff.mpr ⟨[], (List.append_nil _).symm, nofun, fun d hd => ?_⟩
  rw [List.getLast?_concat] at hd
  cases hd
  exact hc

/-! ## 2. Runs -/

/-- `cs` does not start with a character of the class `p`. -/
def Bounds (p : Char → Bool) (cs : List Char) : Prop := ∀ c, cs.head? = some c → p c = false

theorem bounds_nil : Bounds p [] := nofun

theorem bounds_cons : Bounds p (c :: cs) ↔ p c = false := by
  refine ⟨fun h => h c rfl, fun h d hd => ?_⟩
  cases hd
  exact h

/-- What ends a larger class ends a smaller one. -/
theorem Bounds.mono {q : Char → Bool} (h : Bounds q cs) (hpq : ∀ c, p c = true → q c = true) :
    Bounds p cs := by
  intro c hc
  refine Bool.eq_false_iff.mpr fun hpc => ?_
  have hqc := hpq c hpc
  rw [h c hc] at hqc
  cases hqc

theorem bounds_of_mem {q : Char → Bool} (hne : xs ≠ [])
    (hxs : ∀ x ∈ xs, p x = true) (hpq : ∀ x, p x = true → q x = false) (rest : List Char) :
    Bounds q (xs ++ rest) := by
  cases xs with
  | nil => exact absurd rfl hne
  | cons x xs => exact bounds_cons.mpr (hpq x (hxs x List.mem_cons_self))

theorem takeWhile_append_bounds (hxs : ∀ c ∈ xs, p c = true) (hrest : Bounds p rest) :
    (xs ++ rest).takeWhile p = xs := by
  rw [List.takeWhile_append_of_pos hxs]
  cases rest with
  | nil => rw [List.takeWhile_nil, List.append_nil]
  | cons c rest =>
    rw [List.takeWhile_cons_of_neg (Bool.eq_false_iff.mp (bounds_cons.mp hrest)), List.append_nil]

theorem dropWhile_append_bounds (hxs : ∀ c ∈ xs, p c = true) (hrest : Bounds p rest) :
    (xs ++ rest).dropWhile p = rest := by
  rw [List.dropWhile_append_of_pos hxs]
  cases rest with
  | nil => rfl
  | cons c rest => exact List.dropWhile_cons_of_neg (Bool.eq_false_iff.mp (bounds_cons.mp hrest))

/-- **A word is what is left where the blanks around it are trimmed.** -/
theorem trim_append {before word after : List Char}
    (hbefore : ∀ x ∈ before, isBlank x = true) (hne : word ≠ [])
    (hword : ∀ x ∈ word, isBlank x = false) (hafter : ∀ x ∈ after, isBlank x = true) :
    trim (before ++ (word ++ after)) = word := by
  have hbounds : Bounds isBlank (word ++ after) := by
    obtain ⟨x, xs, rfl⟩ := List.exists_cons_of_ne_nil hne
    exact bounds_cons.mpr (hword x List.mem_cons_self)
  rw [trim, trimStart, dropWhile_append_bounds hbefore hbounds]
  exact dropEndWhile_eq_iff.mpr
    ⟨after, rfl, hafter, fun x hx => hword x (List.mem_of_mem_getLast? hx)⟩

/-- **A run ends where its class ends.** -/
theorem run_append (hne : xs ≠ []) (hxs : ∀ c ∈ xs, p c = true) (hrest : Bounds p rest) :
    run p (xs ++ rest) = some (xs, rest) := by
  rw [run, takeWhile_append_bounds hxs hrest, dropWhile_append_bounds hxs hrest]
  exact if_neg (mt List.isEmpty_iff.mp hne)

theorem run_eq_none (hcs : Bounds p cs) : run p cs = none := by
  have h : ([] ++ cs).takeWhile p = [] := takeWhile_append_bounds nofun hcs
  rw [List.nil_append] at h
  rw [run, h]
  rfl

/-- What a run is, and that it does not end early. -/
theorem run_eq_some (h : run p cs = some (xs, rest)) :
    xs ≠ [] ∧ (∀ c ∈ xs, p c = true) ∧ Bounds p rest ∧ cs = xs ++ rest := by
  unfold run at h
  split at h
  · cases h
  · rename_i hne
    cases h
    refine ⟨mt List.isEmpty_iff.mpr hne, fun c hc => List.mem_takeWhile_imp hc, fun c hc => ?_,
      (List.takeWhile_append_dropWhile ..).symm⟩
    have hnot := List.head?_dropWhile_not p cs
    rw [hc] at hnot
    exact hnot

/-- **Blanks end where ink starts.** -/
theorem blanks_append (hne : xs ≠ []) (hxs : ∀ c ∈ xs, isBlank c = true)
    (hrest : Bounds isBlank rest) : blanks (xs ++ rest) = some rest := by
  cases xs with
  | nil => exact absurd rfl hne
  | cons c xs =>
    obtain ⟨hc, hxs⟩ := List.forall_mem_cons.mp hxs
    rw [List.cons_append, blanks, if_pos hc, trimStart, dropWhile_append_bounds hxs hrest]

theorem blanks_eq_some (h : blanks cs = some rest) :
    ∃ xs, xs ≠ [] ∧ (∀ c ∈ xs, isBlank c = true) ∧ cs = xs ++ rest := by
  unfold blanks at h
  split at h
  · rename_i c r
    split at h
    · rename_i hc
      cases h
      refine ⟨c :: r.takeWhile isBlank, List.cons_ne_nil _ _, ?_, ?_⟩
      · exact List.forall_mem_cons.mpr ⟨hc, fun d hd => List.mem_takeWhile_imp hd⟩
      · rw [List.cons_append, trimStart, List.takeWhile_append_dropWhile]
    · cases h
  · cases h

theorem blanks_eq_none (h : Bounds isBlank cs) : blanks cs = none := by
  cases cs with
  | nil => rfl
  | cons c cs => exact if_neg (Bool.eq_false_iff.mp (bounds_cons.mp h))

/-- Nothing is left of blanks. -/
theorem blanks_of_blank (h : ∀ c ∈ cs, isBlank c = true) (hblanks : blanks cs = some rest) :
    rest = [] := by
  cases cs with
  | nil => cases hblanks
  | cons c cs =>
    obtain ⟨hc, hcs⟩ := List.forall_mem_cons.mp h
    rw [blanks, if_pos hc] at hblanks
    cases hblanks
    exact List.dropWhile_eq_nil_iff.mpr hcs

theorem isHexDigit_iff : isHexDigit c = true ↔
    (48 ≤ c.toNat ∧ c.toNat ≤ 57) ∨ (97 ≤ c.toNat ∧ c.toNat ≤ 102) := by
  simp only [isHexDigit, isDecimalDigit, Bool.or_eq_true, Bool.and_eq_true, decide_eq_true_eq]
  exact Iff.rfl

theorem isBlank_of_isHexDigit (hc : isHexDigit c = true) : isBlank c = false := by
  rw [isHexDigit_iff] at hc
  unfold isBlank
  dsimp only
  generalize c.toNat = n at hc ⊢
  simp only [Bool.or_eq_false_iff, Bool.and_eq_false_iff, beq_eq_false_iff_ne,
    decide_eq_false_iff_not]
  omega

theorem isHexDigit_of_isBlank (hx : isBlank c = true) : isHexDigit c = false := by
  refine Bool.eq_false_iff.mpr fun hdigit => ?_
  rw [isBlank_of_isHexDigit hdigit] at hx
  cases hx

/-! ## 3. Cuts -/

/-- **A text is cut at the first `c`.** -/
theorem cut_append_cons (rest : List Char) (hc : c ∉ xs) :
    cut c (xs ++ c :: rest) = some (xs, rest) := by
  have hxs : ∀ x ∈ xs, (x != c) = true := fun x hx => bne_iff_ne.mpr fun e => hc (e ▸ hx)
  have hbounds : Bounds (· != c) (c :: rest) := bounds_cons.mpr (bne_self_eq_false c)
  rw [cut, takeWhile_append_bounds hxs hbounds, dropWhile_append_bounds hxs hbounds]

theorem cut_eq_none (h : c ∉ xs) : cut c xs = none := by
  have hdrop : xs.dropWhile (· != c) = [] :=
    List.dropWhile_eq_nil_iff.mpr fun x hx => bne_iff_ne.mpr fun e => h (e ▸ hx)
  rw [cut, hdrop]

/-- **A text is cut at the last `c`.** -/
theorem cutLast_append_cons (xs : List Char) (hc : c ∉ rest) :
    cutLast c (xs ++ c :: rest) = some (xs, rest) := by
  have hreverse : (xs ++ c :: rest).reverse = rest.reverse ++ c :: xs.reverse := by simp
  rw [cutLast, hreverse, cut_append_cons _ (mt List.mem_reverse.mp hc), Option.map_some]
  dsimp only
  rw [List.reverse_reverse, List.reverse_reverse]

theorem pieces_of_not_mem (h : c ∉ xs) : pieces c xs = [xs] := by
  induction xs with
  | nil => rfl
  | cons d xs ih =>
    obtain ⟨hd, hxs⟩ := not_or.mp (mt List.mem_cons.mpr h)
    rw [pieces, if_neg fun e => hd (beq_iff_eq.mp e).symm, ih hxs]

theorem pieces_append_cons (h : c ∉ xs) (rest : List Char) :
    pieces c (xs ++ c :: rest) = xs :: pieces c rest := by
  induction xs with
  | nil => rw [List.nil_append, pieces, if_pos (beq_self_eq_true c)]
  | cons d xs ih =>
    obtain ⟨hd, hxs⟩ := not_or.mp (mt List.mem_cons.mpr h)
    rw [List.cons_append, pieces, if_neg fun e => hd (beq_iff_eq.mp e).symm, ih hxs]

/-- **A list is taken apart at its separators.** -/
theorem pieces_intercalate {texts : List (List Char)} (hne : texts ≠ [])
    (h : ∀ xs ∈ texts, c ∉ xs) : pieces c ([c].intercalate texts) = texts := by
  induction texts with
  | nil => exact absurd rfl hne
  | cons xs texts ih =>
    obtain ⟨hxs, htexts⟩ := List.forall_mem_cons.mp h
    cases texts with
    | nil => rw [List.intercalate_singleton, pieces_of_not_mem hxs]
    | cons ys texts =>
      rw [List.intercalate_cons_cons, List.append_assoc, List.singleton_append,
        pieces_append_cons hxs, ih (List.cons_ne_nil ys texts) htexts]

theorem mem_intercalate {x : Char} {texts : List (List Char)} (h : x ∈ [c].intercalate texts) :
    x = c ∨ ∃ xs ∈ texts, x ∈ xs := by
  induction texts with
  | nil => cases h
  | cons xs texts ih =>
    cases texts with
    | nil => exact .inr ⟨xs, List.mem_cons_self, by rwa [List.intercalate_singleton] at h⟩
    | cons ys texts =>
      rw [List.intercalate_cons_cons, List.append_assoc, List.mem_append, List.singleton_append,
        List.mem_cons] at h
      rcases h with h | h | h
      · exact .inr ⟨xs, List.mem_cons_self, h⟩
      · exact .inl h
      · refine (ih h).imp_right ?_
        rintro ⟨zs, hzs, hx⟩
        exact ⟨zs, List.mem_cons_of_mem xs hzs, hx⟩

/-! ## 4. Numerals -/

variable {base n : Nat}

theorem digits?_concat (base : Nat) (cs : List Char) (c : Char) :
    digits? base (cs ++ [c]) =
      (digits? base cs).bind fun n => (digit? base c).map (base * n + ·) := by
  rw [digits?, List.foldlM_append]
  refine congrArg (Option.bind _) (funext fun n => ?_)
  rw [List.foldlM_cons]
  cases digit? base c with
  | none => rfl
  | some d => rfl

theorem digit?_digitChar {d : Nat} (hd : d < base) (hbase : base ≤ 16) :
    digit? base d.digitChar = some d := by
  have hvalue : ∀ d < 16, digitValue (Nat.digitChar d) = d := by decide
  rw [digit?, hvalue d (by omega), if_pos hd]

/-- What holds of every digit of a base holds of the digits of a number. -/
theorem of_mem_toDigits {P : Char → Prop} (hone : 1 < base) (hdigit : ∀ d < base, P d.digitChar)
    (hc : c ∈ Nat.toDigits base n) : P c := by
  induction n using Nat.strong_induction_on with
  | _ n ih =>
    by_cases hn : n < base
    · rw [Nat.toDigits_of_lt_base hn, List.mem_singleton] at hc
      rw [hc]
      exact hdigit n hn
    · rw [Nat.toDigits_of_base_le hone (by omega), List.mem_append, List.mem_singleton] at hc
      rcases hc with hc | hc
      · exact ih (n / base) (Nat.div_lt_self (by omega) hone) hc
      · rw [hc]
        exact hdigit _ (Nat.mod_lt n (by omega))

theorem isHexDigit_of_mem_toDigits (hone : 1 < base) (hbase : base ≤ 16)
    (hc : c ∈ Nat.toDigits base n) : isHexDigit c = true := by
  have hdigit : ∀ d < 16, isHexDigit (Nat.digitChar d) = true := by decide
  exact of_mem_toDigits (P := (isHexDigit · = true)) hone (fun d hd => hdigit d (by omega)) hc

theorem toDigits_ne_nil (hone : 1 < base) : Nat.toDigits base n ≠ [] := by
  by_cases hn : n < base
  · rw [Nat.toDigits_of_lt_base hn]
    exact List.cons_ne_nil _ _
  · rw [Nat.toDigits_of_base_le hone (by omega)]
    exact List.concat_ne_nil _ _

/-- **The digits of a number denote it.** -/
theorem digits?_toDigits (hone : 1 < base) (hbase : base ≤ 16) (n : Nat) :
    digits? base (Nat.toDigits base n) = some n := by
  induction n using Nat.strong_induction_on with
  | _ n ih =>
    by_cases hn : n < base
    · have hconcat := digits?_concat base [] n.digitChar
      rw [digit?_digitChar hn hbase] at hconcat
      rw [Nat.toDigits_of_lt_base hn]
      exact hconcat.trans (by simp [digits?])
    · have hmod := Nat.mod_lt n (show 0 < base by omega)
      rw [Nat.toDigits_of_base_le hone (by omega), digits?_concat, digit?_digitChar hmod hbase,
        ih (n / base) (Nat.div_lt_self (by omega) hone)]
      exact congrArg some (Nat.div_add_mod n base)

/-- Digits have no sign before them, so all of them count. -/
theorem word?_of_digits (hne : cs ≠ []) (hcs : ∀ c ∈ cs, isHexDigit c = true) :
    word? base cs = (digits? base cs).filter (· < wordLimit) := by
  cases cs with
  | nil => exact absurd rfl hne
  | cons d ds =>
    unfold word?
    split
    · rename_i e
      cases e
      exact absurd (hcs '+' List.mem_cons_self) (by decide)
    · rfl

/-- **A number is read off its digits exactly if it fits a word.** -/
theorem word?_toDigits (hone : 1 < base) (hbase : base ≤ 16) (n : Nat) :
    word? base (Nat.toDigits base n) = if n < wordLimit then some n else none := by
  rw [word?_of_digits (toDigits_ne_nil hone) fun _ => isHexDigit_of_mem_toDigits hone hbase,
    digits?_toDigits hone hbase, Option.filter_some]
  simp only [decide_eq_true_eq]

end StackDepth.Text
