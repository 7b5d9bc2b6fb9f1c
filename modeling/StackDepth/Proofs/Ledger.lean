import Mathlib.Data.List.Induction
import Mathlib.Data.String.Basic
import StackDepth.Ledger

/-!
# What a ledger counts

A ledger shows how often each mnemonic was counted and with what impact, and not in which order.

* `addTo_cons_self`, `addTo_cons_of_lt`, `addTo_cons_of_gt`: where a mnemonic is counted;
* `addTo_comm`, `add_comm`: two instructions can be counted in either order;
* `foldl_add_perm`: any number of them in any order;
* `Records`, `records_foldl`: the counts of a ledger, by the instructions that were counted.
-/

namespace StackDepth

namespace Impact

theorem max_comm (i j : Impact) : i.max j = j.max i := by
  cases i <;> cases j <;> rfl

theorem max_right_comm (i j k : Impact) : (i.max j).max k = (i.max k).max j := by
  cases i <;> cases j <;> cases k <;> rfl

theorem max_eq_or (i j : Impact) : i.max j = i ∨ i.max j = j := by
  cases i <;> cases j <;> decide

theorem rank_le_max (i j : Impact) : i.rank ≤ (i.max j).rank ∧ j.rank ≤ (i.max j).rank := by
  cases i <;> cases j <;> decide

end Impact

namespace Ledger

variable {name other key : String} {impact impact' : Impact} {count : Count}
  {rest operations : List (String × Count)}

/-! ## 1. Where a mnemonic is counted -/

theorem addTo_cons_self : addTo key impact ((key, count) :: rest) =
    (key, ⟨count.executions + 1, count.impact.max impact⟩) :: rest := if_pos rfl

theorem addTo_cons_of_lt (h : name < key) : addTo name impact ((key, count) :: rest) =
    (name, ⟨1, impact⟩) :: (key, count) :: rest := by
  rw [addTo, if_neg h.ne, if_pos h]

theorem addTo_cons_of_gt (h : key < name) : addTo name impact ((key, count) :: rest) =
    (key, count) :: addTo name impact rest := by
  rw [addTo, if_neg h.ne.symm, if_neg h.not_gt]

/-! ## 2. Two instructions -/

theorem addTo_right_comm : addTo name impact (addTo name impact' operations) =
    addTo name impact' (addTo name impact operations) := by
  induction operations with
  | nil =>
    rw [addTo, addTo, addTo_cons_self, addTo_cons_self, Impact.max_comm]
  | cons entry rest ih =>
    obtain ⟨key, count⟩ := entry
    rcases lt_trichotomy name key with h | rfl | h
    · rw [addTo_cons_of_lt h, addTo_cons_of_lt h, addTo_cons_self, addTo_cons_self, Impact.max_comm]
    · rw [addTo_cons_self, addTo_cons_self, addTo_cons_self, addTo_cons_self, Impact.max_right_comm]
    · rw [addTo_cons_of_gt h, addTo_cons_of_gt h, addTo_cons_of_gt h, addTo_cons_of_gt h, ih]

theorem addTo_comm_of_lt (h : name < other) : addTo name impact (addTo other impact' operations) =
    addTo other impact' (addTo name impact operations) := by
  induction operations with
  | nil => rw [addTo, addTo, addTo_cons_of_lt h, addTo_cons_of_gt h, addTo]
  | cons entry rest ih =>
    obtain ⟨key, count⟩ := entry
    rcases lt_trichotomy other key with hother | rfl | hother
    · rw [addTo_cons_of_lt hother, addTo_cons_of_lt h, addTo_cons_of_lt (h.trans hother),
        addTo_cons_of_gt h, addTo_cons_of_lt hother]
    · rw [addTo_cons_self, addTo_cons_of_lt h, addTo_cons_of_lt h, addTo_cons_of_gt h,
        addTo_cons_self]
    · -- `other` goes further on, and `name` somewhere before it
      rw [addTo_cons_of_gt hother]
      rcases lt_trichotomy name key with hname | rfl | hname
      · rw [addTo_cons_of_lt hname, addTo_cons_of_lt hname, addTo_cons_of_gt h,
          addTo_cons_of_gt hother]
      · rw [addTo_cons_self, addTo_cons_self, addTo_cons_of_gt hother]
      · rw [addTo_cons_of_gt hname, addTo_cons_of_gt hname, addTo_cons_of_gt hother, ih]

theorem addTo_comm (name other : String) (impact impact' : Impact)
    (operations : List (String × Count)) : addTo name impact (addTo other impact' operations) =
      addTo other impact' (addTo name impact operations) := by
  rcases lt_trichotomy name other with h | rfl | h
  · exact addTo_comm_of_lt h
  · exact addTo_right_comm
  · exact (addTo_comm_of_lt h).symm

/-- **Two instructions can be counted in either order.** -/
theorem add_comm (l : Ledger) : (l.add name impact).add other impact' =
    (l.add other impact').add name impact := by
  have hoperations := addTo_comm other name impact' impact l.operations
  cases impact <;> cases impact' <;> simp only [add, hoperations]

/-! ## 3. Any number of instructions -/

/-- **The order in which instructions are counted does not show.** -/
theorem foldl_add_perm {counted counted' : List (String × Impact)} (h : counted.Perm counted')
    (l : Ledger) : counted.foldl (fun l q => l.add q.1 q.2) l =
      counted'.foldl (fun l q => l.add q.1 q.2) l :=
  h.foldl_eq' (fun _ _ _ _ l => add_comm l) l

/-! ## 4. What is found under a mnemonic -/

theorem mem_keys_addTo : key ∈ (addTo name impact operations).map (·.1) ↔
    key = name ∨ key ∈ operations.map (·.1) := by
  induction operations with
  | nil =>
    rw [addTo, List.map_singleton, List.mem_singleton, List.map_nil, List.mem_nil_iff, or_false]
  | cons entry rest ih =>
    obtain ⟨k, count⟩ := entry
    rcases lt_trichotomy name k with h | rfl | h
    · rw [addTo_cons_of_lt h, List.map_cons, List.mem_cons]
    · rw [addTo_cons_self, List.map_cons, List.mem_cons, List.map_cons, List.mem_cons, or_self_left]
    · rw [addTo_cons_of_gt h, List.map_cons, List.mem_cons, ih, List.map_cons, List.mem_cons,
        or_left_comm]

/-- Mnemonics stay in order. -/
theorem sorted_addTo (hsorted : (operations.map (·.1)).Pairwise (· < ·)) :
    ((addTo name impact operations).map (·.1)).Pairwise (· < ·) := by
  induction operations with
  | nil => exact List.pairwise_singleton _ _
  | cons entry rest ih =>
    obtain ⟨k, count⟩ := entry
    obtain ⟨hk, hrest⟩ := List.pairwise_cons.mp hsorted
    rcases lt_trichotomy name k with h | rfl | h
    · rw [addTo_cons_of_lt h]
      refine List.pairwise_cons.mpr ⟨fun other hother => ?_, hsorted⟩
      rcases List.mem_cons.mp hother with rfl | hother
      · exact h
      · exact h.trans (hk other hother)
    · rw [addTo_cons_self]
      exact hsorted
    · rw [addTo_cons_of_gt h]
      refine List.pairwise_cons.mpr ⟨fun other hother => ?_, ih hrest⟩
      rcases mem_keys_addTo.mp hother with rfl | hother
      · exact h
      · exact hk other hother

theorem mem_addTo_of_ne (hne : key ≠ name) :
    (key, count) ∈ addTo name impact operations ↔ (key, count) ∈ operations := by
  have hhead : ∀ c : Count, (key, count) ≠ (name, c) := fun c e => hne (Prod.mk.inj e).1
  induction operations with
  | nil => rw [addTo, List.mem_singleton, List.mem_nil_iff, iff_false]; exact hhead _
  | cons entry rest ih =>
    obtain ⟨k, c⟩ := entry
    rcases lt_trichotomy name k with h | rfl | h
    · rw [addTo_cons_of_lt h, List.mem_cons, or_iff_right (hhead _)]
    · rw [addTo_cons_self, List.mem_cons, or_iff_right (hhead _), List.mem_cons,
        or_iff_right (hhead _)]
    · rw [addTo_cons_of_gt h, List.mem_cons, List.mem_cons]
      exact or_congr_right ih

/-- **What is found under the mnemonic that is counted**: one more than before, or one. -/
theorem mem_addTo_self (hsorted : (operations.map (·.1)).Pairwise (· < ·))
    (hmem : (name, count) ∈ addTo name impact operations) :
    (∃ old, (name, old) ∈ operations ∧ count = ⟨old.executions + 1, old.impact.max impact⟩) ∨
      (name ∉ operations.map (·.1) ∧ count = ⟨1, impact⟩) := by
  induction operations with
  | nil =>
    rw [addTo, List.mem_singleton] at hmem
    exact .inr ⟨List.not_mem_nil, (Prod.mk.inj hmem).2⟩
  | cons entry rest ih =>
    obtain ⟨k, c⟩ := entry
    obtain ⟨hk, hrest⟩ := List.pairwise_cons.mp hsorted
    rcases lt_trichotomy name k with h | rfl | h
    · have hnew : name ∉ ((k, c) :: rest).map (·.1) := by
        intro hname
        rcases List.mem_cons.mp hname with rfl | hname
        · exact lt_irrefl _ h
        · exact lt_asymm h (hk name hname)
      rw [addTo_cons_of_lt h] at hmem
      rcases List.mem_cons.mp hmem with e | hmem
      · exact .inr ⟨hnew, (Prod.mk.inj e).2⟩
      · exact absurd (List.mem_map_of_mem hmem) hnew
    · rw [addTo_cons_self] at hmem
      rcases List.mem_cons.mp hmem with e | hmem
      · exact .inl ⟨c, List.mem_cons_self, (Prod.mk.inj e).2⟩
      · exact absurd (hk name (List.mem_map_of_mem hmem)) (lt_irrefl name)
    · rw [addTo_cons_of_gt h] at hmem
      rcases List.mem_cons.mp hmem with e | hmem
      · exact absurd (Prod.mk.inj e).1 h.ne'
      · rcases ih hrest hmem with ⟨old, hold, e⟩ | ⟨hnew, e⟩
        · exact .inl ⟨old, List.mem_cons_of_mem _ hold, e⟩
        · refine .inr ⟨fun hname => ?_, e⟩
          exact (List.mem_cons.mp hname).elim h.ne' hnew

/-! ## 5. What was counted -/

/-- The ledger has what was counted: each mnemonic once, with the number of its executions and the
    least known of their impacts, and the number of executions of each impact. -/
structure Records (l : Ledger) (counted : List (String × Impact)) : Prop where
  sorted : (l.operations.map (·.1)).Pairwise (· < ·)
  mnemonics : ∀ name, name ∈ l.operations.map (·.1) ↔ name ∈ counted.map (·.1)
  executions : ∀ name count, (name, count) ∈ l.operations →
    count.executions = counted.countP (·.1 = name)
  impact_mem : ∀ name count, (name, count) ∈ l.operations → (name, count.impact) ∈ counted
  impact_max : ∀ name count, (name, count) ∈ l.operations → ∀ impact, (name, impact) ∈ counted →
    impact.rank ≤ count.impact.rank
  impacts : ∀ impact, l.count impact = counted.countP (·.2 = impact)

variable {l : Ledger} {counted : List (String × Impact)}

theorem operations_add : (l.add name impact).operations = addTo name impact l.operations := by
  cases impact with
  | no | clear | potential | weak => rfl

theorem count_add (i : Impact) :
    (l.add name impact).count i = l.count i + if impact = i then 1 else 0 := by
  cases impact <;> cases i <;> rfl

/-- **What the ledger has after one more instruction**: entries of other mnemonics as they were, and
    one of its own that counts one more or is new. -/
theorem Records.cases_add (h : l.Records counted)
    (hmem : (key, count) ∈ (l.add name impact).operations) :
    (key ≠ name ∧ (key, count) ∈ l.operations) ∨
      (∃ old, key = name ∧ (name, old) ∈ l.operations ∧
        count = ⟨old.executions + 1, old.impact.max impact⟩) ∨
      (key = name ∧ (∀ q ∈ counted, q.1 ≠ name) ∧ count = ⟨1, impact⟩) := by
  rw [operations_add] at hmem
  by_cases hkey : key = name
  · subst hkey
    rcases mem_addTo_self h.sorted hmem with ⟨old, hold, e⟩ | ⟨hnew, e⟩
    · exact .inr (.inl ⟨old, rfl, hold, e⟩)
    · refine .inr (.inr ⟨rfl, fun q hq hname => hnew ((h.mnemonics key).mpr ?_), e⟩)
      exact hname ▸ List.mem_map_of_mem hq
  · exact .inl ⟨hkey, (mem_addTo_of_ne hkey).mp hmem⟩

/-- **One more instruction.** -/
theorem Records.add (h : l.Records counted) (name : String) (impact : Impact) :
    (l.add name impact).Records (counted ++ [(name, impact)]) where
  sorted := by
    rw [operations_add]
    exact sorted_addTo h.sorted
  mnemonics key := by
    rw [operations_add, mem_keys_addTo, h.mnemonics, List.map_append, List.mem_append, or_comm]
    exact or_congr_right List.mem_singleton.symm
  executions key count hmem := by
    rw [List.countP_append, List.countP_singleton]
    rcases h.cases_add hmem with ⟨hkey, hold⟩ | ⟨old, rfl, hold, rfl⟩ | ⟨rfl, hnew, rfl⟩
    · simp [h.executions key count hold, hkey.symm]
    · simp [h.executions key old hold]
    · have hzero : counted.countP (·.1 = key) = 0 :=
        List.countP_eq_zero.mpr fun q hq e => hnew q hq (of_decide_eq_true e)
      simp [hzero]
  impact_mem key count hmem := by
    rw [List.mem_append, List.mem_singleton]
    rcases h.cases_add hmem with ⟨_, hold⟩ | ⟨old, rfl, hold, rfl⟩ | ⟨rfl, _, rfl⟩
    · exact .inl (h.impact_mem key count hold)
    · rcases old.impact.max_eq_or impact with e | e
      · rw [e]
        exact .inl (h.impact_mem key old hold)
      · rw [e]
        exact .inr rfl
    · exact .inr rfl
  impact_max key count hmem i hi := by
    rw [List.mem_append, List.mem_singleton, Prod.mk.injEq] at hi
    rcases h.cases_add hmem with ⟨hkey, hold⟩ | ⟨old, rfl, hold, rfl⟩ | ⟨rfl, hnew, rfl⟩
    · exact h.impact_max key count hold i (hi.resolve_right fun e => hkey e.1)
    · obtain ⟨hleft, hright⟩ := old.impact.rank_le_max impact
      rcases hi with hi | ⟨_, rfl⟩
      · exact (h.impact_max key old hold i hi).trans hleft
      · exact hright
    · obtain ⟨_, rfl⟩ := hi.resolve_left fun hi => hnew (key, i) hi rfl
      exact le_rfl
  impacts i := by
    rw [count_add, h.impacts, List.countP_append, List.countP_singleton]
    simp only [decide_eq_true_eq]

/-- **Any number of instructions.** -/
theorem records_foldl (counted : List (String × Impact)) :
    (counted.foldl (fun l q => l.add q.1 q.2) ({} : Ledger)).Records counted := by
  induction counted using List.reverseRecOn with
  | nil =>
    exact ⟨List.Pairwise.nil, fun _ => Iff.rfl, nofun, nofun, nofun, fun i => by cases i <;> rfl⟩
  | append_singleton counted q ih =>
    rw [List.foldl_concat]
    exact ih.add q.1 q.2

/-! ## 6. Totals -/

theorem total_add : (l.add name impact).total = l.total + 1 := by
  cases impact <;> simp [total, Impact.all, count, add] <;> omega

theorem executions_addTo : ((addTo name impact operations).map (·.2.executions)).foldr (· + ·) 0 =
    (operations.map (·.2.executions)).foldr (· + ·) 0 + 1 := by
  induction operations with
  | nil => rfl
  | cons entry rest ih =>
    obtain ⟨k, c⟩ := entry
    rcases lt_trichotomy name k with h | rfl | h
    · rw [addTo_cons_of_lt h]
      simp only [List.map_cons, List.foldr_cons]
      omega
    · rw [addTo_cons_self]
      simp only [List.map_cons, List.foldr_cons]
      omega
    · rw [addTo_cons_of_gt h]
      simp only [List.map_cons, List.foldr_cons, ih]
      omega

/-- **Both totals are the number of instructions.** -/
theorem total_foldl (counted : List (String × Impact)) :
    (counted.foldl (fun l q => l.add q.1 q.2) ({} : Ledger)).total = counted.length ∧
      (counted.foldl (fun l q => l.add q.1 q.2) ({} : Ledger)).executions = counted.length := by
  induction counted using List.reverseRecOn with
  | nil => exact ⟨rfl, rfl⟩
  | append_singleton counted q ih =>
    rw [List.foldl_concat, total_add, ih.1, Ledger.executions, operations_add, executions_addTo,
      List.length_append, List.length_singleton]
    exact ⟨rfl, congrArg (· + 1) ih.2⟩

end Ledger

end StackDepth
