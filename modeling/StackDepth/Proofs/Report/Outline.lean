import Mathlib.Data.List.Infix
import Mathlib.Logic.Relation
import StackDepth.Report.Tree

/-!
# Outlines

A tree that is drawn as lines of some depth. Which line a line stands below can be told from the
depths alone: it is the nearest one above that is one step less deep.

* `IsParent`: that line; there is at most one (`IsParent.unique`);
* `IsOutline`: lines each of which has a chain above it, where a chain goes on from line to line
  with the tail of the one before, or with the line before itself if that is opened;
* `IsOutline.exists_parent`, `IsOutline.above_eq`: the chain above a line of an outline is the chain
  of its parent with the parent, so that it has the nodes of all lines that it stands below
  (`IsOutline.mem_above_iff`);
* `IsOutline.exists_child_iff`: the lines that others stand below are those that are opened;
* `exists_blocks`: an outline is made of blocks, each with its first line at the left edge.
-/

namespace StackDepth.Report

open Relation (TransGen)

variable {lines : List Entry} {i j k d : Nat} {e p : Entry} {n : Node}

/-! ## 1. Depths -/

/-- How deep an entry is drawn. -/
def Entry.depth (e : Entry) : Nat := e.above.length

/-- The chain above an entry with the entry itself. -/
def Entry.path (e : Entry) : List Node := e.node :: e.above

def depthAt (lines : List Entry) (i : Nat) : Option Nat := (lines[i]?).map Entry.depth

def nodeAt (lines : List Entry) (i : Nat) : Option Node := (lines[i]?).map Entry.node

theorem depthAt_of_getElem? (h : lines[i]? = some e) : depthAt lines i = some e.depth := by
  rw [depthAt, h, Option.map_some]

theorem nodeAt_of_getElem? (h : lines[i]? = some e) : nodeAt lines i = some e.node := by
  rw [nodeAt, h, Option.map_some]

/-- The line `j` is the nearest one before the line `i` that is one step less deep. -/
def IsParent (lines : List Entry) (j i : Nat) : Prop :=
  j < i ∧ ∃ d, depthAt lines j = some d ∧ depthAt lines i = some (d + 1) ∧
    ∀ k, j < k → k < i → depthAt lines k ≠ some d

theorem IsParent.not_before (hj : IsParent lines j i) (hk : IsParent lines k i) : ¬ j < k := by
  intro hjk
  obtain ⟨_, d, _, hi, hnearest⟩ := hj
  obtain ⟨hki, d', hk, hi', _⟩ := hk
  cases hi.symm.trans hi'
  exact hnearest k hjk hki hk

theorem IsParent.unique (hj : IsParent lines j i) (hk : IsParent lines k i) : j = k :=
  Nat.le_antisymm (Nat.le_of_not_lt (hk.not_before hj)) (Nat.le_of_not_lt (hj.not_before hk))

/-- A line at the left edge has no parent. -/
theorem IsParent.above_ne_nil (h : IsParent lines j i) (hi : lines[i]? = some e) :
    e.above ≠ [] := by
  intro hnil
  obtain ⟨_, d, _, hd, _⟩ := h
  rw [depthAt_of_getElem? hi, Entry.depth, hnil] at hd
  cases hd

theorem IsParent.exists_getElem? (h : IsParent lines j i) : ∃ p, lines[j]? = some p := by
  obtain ⟨_, d, hd, _⟩ := h
  obtain ⟨p, hp, _⟩ := Option.map_eq_some_iff.mp hd
  exact ⟨p, hp⟩

/-! ## 2. Outlines -/

/-- From line to line the chain above is a tail of the one before, or goes on with the line before
    if that is opened, as it does right after a line that is opened. -/
structure IsOutline (opened : Entry → Prop) (lines : List Entry) : Prop where
  first : ∀ e, lines[0]? = some e → e.above = []
  next : ∀ k e e', lines[k]? = some e → lines[k + 1]? = some e' →
    e'.above <:+ e.above ∨ opened e ∧ e'.above = e.path
  opens : ∀ k e, lines[k]? = some e → opened e → ∃ e', lines[k + 1]? = some e' ∧ e'.above = e.path

namespace IsOutline

variable {opened : Entry → Prop} (h : IsOutline opened lines)
include h

/-- A chain is never longer than the line before with the chain above it. -/
theorem above_suffix_path (hk : lines[k]? = some p) (hnext : lines[k + 1]? = some e) :
    e.above <:+ p.path := by
  rcases h.next k p e hk hnext with hsuffix | ⟨_, hpath⟩
  · exact hsuffix.trans (List.suffix_cons _ _)
  · exact hpath ▸ List.suffix_refl _

/-- A line with as long a chain as there is above a later line, and only deeper lines between. -/
theorem isParent_of_path (hi : lines[i]? = some e) (hk : lines[k]? = some p) (hki : k < i)
    (hpath : e.above = p.path)
    (hdeep : ∀ m q, k < m → m ≤ i → lines[m]? = some q → e.depth ≤ q.depth) :
    IsParent lines k i ∧ opened p := by
  have hdepth : e.depth = p.depth + 1 := congrArg List.length hpath
  refine ⟨⟨hki, p.depth, depthAt_of_getElem? hk, ?_, ?_⟩, ?_⟩
  · rw [depthAt_of_getElem? hi, hdepth]
  · intro m hkm hmi hm
    obtain ⟨q, hq, hqd⟩ := Option.map_eq_some_iff.mp hm
    have := hdeep m q hkm (Nat.le_of_lt hmi) hq
    omega
  · -- the line right after is as deep, so that the chain went on with this one
    have hlt : k + 1 < lines.length := Nat.lt_of_le_of_lt hki (List.getElem?_eq_some_iff.mp hi).1
    have hnext := List.getElem?_eq_getElem hlt
    rcases h.next k p _ hk hnext with hsuffix | ⟨hopened, _⟩
    · have hle : lines[k + 1].depth ≤ p.depth := hsuffix.length_le
      have := hdeep (k + 1) _ (Nat.lt_succ_self k) hki hnext
      omega
    · exact hopened

/-- Going up over lines that are as deep, from one whose chain covers the chain above the line. -/
theorem exists_parent_up (hi : lines[i]? = some e) (hne : e.above ≠ [])
    (hk : lines[k]? = some p) (hki : k < i) (hpath : e.above <:+ p.path)
    (hdeep : ∀ m q, k < m → m ≤ i → lines[m]? = some q → e.depth ≤ q.depth) :
    ∃ j q, IsParent lines j i ∧ lines[j]? = some q ∧ e.above = q.path ∧ opened q := by
  induction k generalizing p with
  | zero =>
    rcases List.suffix_cons_iff.mp hpath with heq | hsuffix
    · obtain ⟨hparent, hopened⟩ := h.isParent_of_path hi hk hki heq hdeep
      exact ⟨0, p, hparent, hk, heq, hopened⟩
    · rw [h.first p hk, List.suffix_nil] at hsuffix
      exact absurd hsuffix hne
  | succ k ih =>
    rcases List.suffix_cons_iff.mp hpath with heq | hsuffix
    · obtain ⟨hparent, hopened⟩ := h.isParent_of_path hi hk hki heq hdeep
      exact ⟨k + 1, p, hparent, hk, heq, hopened⟩
    · have hlt : k < lines.length :=
        Nat.lt_of_succ_lt (List.getElem?_eq_some_iff.mp hk).1
      have hbefore := List.getElem?_eq_getElem hlt
      have hcovers := hsuffix.trans (h.above_suffix_path hbefore hk)
      refine ih hbefore (Nat.lt_of_succ_lt hki) hcovers fun m q hkm hmi hm => ?_
      rcases Nat.lt_or_eq_of_le (Nat.succ_le_of_lt hkm) with hlt' | rfl
      · exact hdeep m q hlt' hmi hm
      · cases hk.symm.trans hm
        exact hsuffix.length_le

/-- **A line that is not at the left edge has a parent**, which is opened and goes first in the
    chain above the line. -/
theorem exists_parent (hi : lines[i]? = some e) (hne : e.above ≠ []) :
    ∃ j p, IsParent lines j i ∧ lines[j]? = some p ∧ e.above = p.path ∧ opened p := by
  cases i with
  | zero => exact absurd (h.first e hi) hne
  | succ k =>
    have hlt : k < lines.length := Nat.lt_of_succ_lt (List.getElem?_eq_some_iff.mp hi).1
    have hk := List.getElem?_eq_getElem hlt
    have hcovers := h.above_suffix_path hk hi
    refine h.exists_parent_up hi hne hk (Nat.lt_succ_self k) hcovers fun m q hkm hmi hm => ?_
    cases Nat.le_antisymm hmi hkm
    cases hi.symm.trans hm
    exact Nat.le_refl _

/-- **The chain above a line is that of its parent with the parent**, and the parent is opened. -/
theorem above_eq (hparent : IsParent lines j i) (hi : lines[i]? = some e)
    (hj : lines[j]? = some p) : e.above = p.path ∧ opened p := by
  obtain ⟨j', p', hparent', hj', hpath, hopened⟩ := h.exists_parent hi (hparent.above_ne_nil hi)
  cases hparent.unique hparent'
  cases hj.symm.trans hj'
  exact ⟨hpath, hopened⟩

/-- The parent of a line is the node that the chain above it starts with. -/
theorem parent_node_iff (hi : lines[i]? = some e) :
    (∃ j, IsParent lines j i ∧ nodeAt lines j = some n) ↔ e.above.head? = some n := by
  constructor
  · rintro ⟨j, hparent, hn⟩
    obtain ⟨p, hj⟩ := hparent.exists_getElem?
    rw [(h.above_eq hparent hi hj).1, ← hn, nodeAt_of_getElem? hj]
    rfl
  · intro hhead
    have hne : e.above ≠ [] := fun hnil => by rw [hnil] at hhead; cases hhead
    obtain ⟨j, p, hparent, hj, hpath, _⟩ := h.exists_parent hi hne
    refine ⟨j, hparent, ?_⟩
    rw [nodeAt_of_getElem? hj, ← hhead, hpath]
    rfl

/-- **The chain above a line has the nodes of the lines that it stands below.** -/
theorem mem_above_iff (hi : lines[i]? = some e) :
    n ∈ e.above ↔ ∃ j, TransGen (IsParent lines) j i ∧ nodeAt lines j = some n := by
  induction i using Nat.strong_induction_on generalizing e with
  | _ i ih =>
    by_cases hne : e.above = []
    · rw [hne]
      refine ⟨fun hn => (List.not_mem_nil hn).elim, ?_⟩
      rintro ⟨j, hj, _⟩
      obtain ⟨b, _, hb⟩ := TransGen.tail'_iff.mp hj
      exact absurd hne (hb.above_ne_nil hi)
    · obtain ⟨j, p, hparent, hj, hpath, _⟩ := h.exists_parent hi hne
      rw [hpath, Entry.path, List.mem_cons, ih j hparent.1 hj]
      constructor
      · rintro (rfl | ⟨b, hb, hn⟩)
        · exact ⟨j, .single hparent, nodeAt_of_getElem? hj⟩
        · exact ⟨b, hb.tail hparent, hn⟩
      · rintro ⟨b, hb, hn⟩
        obtain ⟨c, hbc, hc⟩ := TransGen.tail'_iff.mp hb
        cases hc.unique hparent
        rcases Relation.reflTransGen_iff_eq_or_transGen.mp hbc with rfl | hbc
        · rw [nodeAt_of_getElem? hj] at hn
          exact .inl (Option.some.inj hn).symm
        · exact .inr ⟨b, hbc, hn⟩

/-- **The lines that others stand below are those that are opened.** -/
theorem exists_child_iff (hk : lines[k]? = some e) : (∃ m, IsParent lines k m) ↔ opened e := by
  constructor
  · rintro ⟨m, hm⟩
    obtain ⟨_, d, _, hd, _⟩ := id hm
    obtain ⟨e', he', _⟩ := Option.map_eq_some_iff.mp hd
    exact (h.above_eq hm he' hk).2
  · intro hopened
    obtain ⟨e', he', hpath⟩ := h.opens k e hk hopened
    refine ⟨k + 1, Nat.lt_succ_self k, e.depth, depthAt_of_getElem? hk, ?_, fun m hkm hmk => ?_⟩
    · rw [depthAt_of_getElem? he', Entry.depth, hpath]
      rfl
    · omega

end IsOutline

/-! ## 3. Blocks -/

/-- Deeper lines, and then blocks that start at the left edge. -/
theorem exists_blocks_after (lines : List Entry) : ∃ (deeper : List Entry)
    (blocks : List (Entry × List Entry)),
    lines = deeper ++ blocks.flatMap (fun b => b.1 :: b.2) ∧ (∀ e ∈ deeper, 1 ≤ e.depth) ∧
      blocks.map Prod.fst = lines.filter (fun e => e.above.isEmpty) ∧
      ∀ b ∈ blocks, ∀ e ∈ b.2, 1 ≤ e.depth := by
  induction lines with
  | nil => exact ⟨[], [], rfl, nofun, rfl, nofun⟩
  | cons e lines ih =>
    obtain ⟨deeper, blocks, hlines, hdeeper, hfirst, hrest⟩ := ih
    cases ha : e.above with
    | nil =>
      refine ⟨[], (e, deeper) :: blocks, ?_, nofun, ?_, ?_⟩
      · rw [List.flatMap_cons, List.nil_append, List.cons_append, ← hlines]
      · rw [List.map_cons, hfirst, List.filter_cons_of_pos (by rw [ha]; rfl)]
      · intro b hb
        rcases List.mem_cons.mp hb with rfl | hb
        · exact hdeeper
        · exact hrest b hb
    | cons a above =>
      refine ⟨e :: deeper, blocks, ?_, ?_, ?_, hrest⟩
      · rw [List.cons_append, ← hlines]
      · intro e' he'
        rcases List.mem_cons.mp he' with rfl | he'
        · rw [Entry.depth, ha]
          exact Nat.succ_pos _
        · exact hdeeper e' he'
      · rw [hfirst, List.filter_cons_of_neg (by rw [ha]; exact Bool.false_ne_true)]

/-- **An outline is made of blocks, each with one line at the left edge, the first.** -/
theorem IsOutline.exists_blocks {opened : Entry → Prop} (h : IsOutline opened lines) :
    ∃ blocks : List (Entry × List Entry), lines = blocks.flatMap (fun b => b.1 :: b.2) ∧
      blocks.map Prod.fst = lines.filter (fun e => e.above.isEmpty) ∧
      ∀ b ∈ blocks, ∀ e ∈ b.2, 1 ≤ e.depth := by
  obtain ⟨deeper, blocks, hlines, hdeeper, hfirst, hrest⟩ := exists_blocks_after lines
  cases deeper with
  | nil => exact ⟨blocks, hlines, hfirst, hrest⟩
  | cons e deeper =>
    have hnil : e.above = [] := h.first e (by rw [hlines]; rfl)
    have := hdeeper e List.mem_cons_self
    rw [Entry.depth, hnil] at this
    cases this

end StackDepth.Report
