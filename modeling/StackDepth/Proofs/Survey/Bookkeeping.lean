import StackDepth.Proofs.Report.CountTables
import StackDepth.Proofs.Survey.BlockOrder
import StackDepth.Proofs.Survey.Operations

/-!
# Bookkeeping

What the ledger of a survey has is what its rows brought, and both tables that are written of it
show the same total.

* `counts_balanced`: the totals and the parts that are read off the text of the counts;
* `additions`, `ledger_readLines`: what is counted of rows, whether or not they are refused;
* `ledger_consistent`: a ledger by the instructions that were counted, and these by the rows.
-/

namespace StackDepth

open StackDepth.Listing

/-! ## 1. Tables -/

namespace Ledger

theorem total_eq (l : Ledger) : l.total = l.clear + l.weak + (l.potential + l.no) := by
  simp only [total, Impact.all, count, List.map_cons, List.map_nil, List.foldr_cons, List.foldr_nil]
  omega

end Ledger

namespace Report

/-- The texts of the two tables show the same total, and the second one the parts that it has. -/
structure Balanced (operations impacts : String) (total : Nat) : Prop where
  totalOfOperations : shownIn? "total" operations = some total
  totalOfImpacts : shownIn? "total" impacts = some total
  parts : ∃ clear weak skipped, shownIn? "clear" impacts = some clear ∧
    shownIn? "weak (unknown stack impact)" impacts = some weak ∧
    shownIn? "skipped" impacts = some skipped ∧ clear + weak + skipped = total

/-- **What the text of the counts shows.** The table of the mnemonics comes first, if it is asked
    for, and that of the impacts after it. -/
theorem counts_balanced (s : Survey) (style : CountStyle) (hempty : s.ledger.isEmpty = false)
    (htotal : s.ledger.executions = s.ledger.total) :
    ∃ operations impacts,
      counts s style = (if style.operations then operations ++ "\n" else "") ++ impacts ∧
        Balanced operations impacts s.ledger.total := by
  obtain ⟨himpacts, hclear, hweak, hskipped⟩ := shownIn?_impacts style.header s.ledger
  refine ⟨countTable style.header "operation" "stack impact" (operationRows s.ledger),
    countTable style.header "" "" (impactRows s.ledger), ?_, ?_, himpacts,
    ⟨_, _, _, hclear, hweak, hskipped, ?_⟩⟩
  · rw [counts, hempty, if_neg Bool.false_ne_true]
  · rw [shownIn?_operations, htotal]
  · exact s.ledger.total_eq.symm

end Report

/-! ## 2. Rows -/

namespace Survey

variable {s : Survey} {raw : String} {raws : List String}

/-- What a row adds to the ledger: its mnemonic, if it has one, with the impact of its line, if it
    is accepted. -/
def addition? (s : Survey) (raw : String) : Option (String × Impact) :=
  (s.readLine raw).result.toOption.bind fun line =>
    (mnemonic? (Text.dropLineEnd raw).toList).map fun name => (name, line.impact)

/-- What rows add to the ledger one after the other. -/
def additions (s : Survey) : List String → List (String × Impact)
  | [] => []
  | raw :: raws => (s.addition? raw).toList ++ additions (s.readLine raw).survey raws

theorem additions_cons (s : Survey) (raw : String) (raws : List String) :
    s.additions (raw :: raws) =
      (s.addition? raw).toList ++ (s.readLine raw).survey.additions raws := rfl

theorem ledger_readLine_eq (s : Survey) (raw : String) :
    (s.readLine raw).survey.ledger = countAll s.ledger (s.addition? raw).toList := by
  by_cases h : ((s.lineOf raw).needsFunction && s.current.isNone) = true
  · rw [survey_readLine_refused h, addition?, readLine_refused h, Except.toOption, Option.bind_none]
    rfl
  · rw [ledger_readLine h, addition?, (readLine_accepted h).1, Except.toOption, Option.bind_some,
      counted?, Line.ofRow]

theorem countAll_append (l : Ledger) (counts more : List (String × Impact)) :
    countAll l (counts ++ more) = countAll (countAll l counts) more :=
  List.foldl_append ..

/-- **The ledger has what the rows add to it**, those that are accepted and have a mnemonic. -/
theorem ledger_readLines (s : Survey) (raws : List String) :
    (s.readLines raws).ledger = countAll s.ledger (s.additions raws) := by
  induction raws generalizing s with
  | nil => rfl
  | cons raw raws ih =>
    rw [readLines_cons, ih, ledger_readLine_eq, additions_cons, countAll_append]

/-- A ledger is empty if nothing was counted. -/
theorem isEmpty_countAll (counted : List (String × Impact)) :
    (countAll {} counted).isEmpty = counted.isEmpty := by
  cases counted with
  | nil => rfl
  | cons q rest =>
    have hmem : q.1 ∈ (countAll {} (q :: rest)).operations.map (·.1) :=
      ((Ledger.records_foldl (q :: rest)).mnemonics q.1).mpr
        (List.mem_map_of_mem List.mem_cons_self)
    rw [Ledger.isEmpty, List.isEmpty_cons]
    refine Bool.eq_false_iff.mpr fun h => ?_
    rw [List.isEmpty_iff.mp h] at hmem
    cases hmem

/-- **Ledgers are consistent.** Whatever was counted, a ledger has each mnemonic with the number of
    its executions and the least known of their impacts, and the number of executions of each
    impact; both totals are the number of instructions, and the order does not matter. What is
    counted in a survey is what its rows bring that are accepted and have a mnemonic. And the counts
    that are written of a survey with such a ledger show, in either table, the number of
    instructions as their total, and in the second one parts that add up to it; of nothing they show
    nothing. -/
theorem ledger_consistent (counted : List (String × Impact)) (t : Target) (p : Policy)
    (raws : List String) :
    (countAll {} counted).Records counted ∧
      (countAll {} counted).total = counted.length ∧
      (countAll {} counted).executions = counted.length ∧
      (∀ counted', counted.Perm counted' → countAll {} counted' = countAll {} counted) ∧
      ((fresh t p).readLines raws).ledger = countAll {} ((fresh t p).additions raws) ∧
      ∀ (s : Survey) (style : Report.CountStyle), s.ledger = countAll {} counted →
        (counted = [] → Report.counts s style = "") ∧
        (counted ≠ [] → ∃ operations impacts,
          Report.counts s style = (if style.operations then operations ++ "\n" else "") ++ impacts ∧
            Report.Balanced operations impacts counted.length) := by
  obtain ⟨htotal, hexecutions⟩ := Ledger.total_foldl counted
  refine ⟨Ledger.records_foldl counted, htotal, hexecutions,
    fun counted' h => (Ledger.foldl_add_perm h {}).symm, ledger_readLines (fresh t p) raws,
    fun s style hledger => ⟨fun hnil => ?_, fun hne => ?_⟩⟩
  · rw [Report.counts, hledger, isEmpty_countAll, hnil, List.isEmpty_nil, if_pos rfl]
  · have hempty : s.ledger.isEmpty = false := by
      rw [hledger, isEmpty_countAll]
      exact List.isEmpty_eq_false_iff.mpr hne
    have hcount : s.ledger.total = counted.length := by rw [hledger, countAll, htotal]
    have hsame : s.ledger.executions = s.ledger.total := by
      rw [hcount, hledger, countAll, hexecutions]
    rw [← hcount]
    exact Report.counts_balanced s style hempty hsame

/-- Three instructions in two orders, two of them of one mnemonic, and what is written of them. -/
theorem ledger_consistent_calls :
    countAll {} [("call", .weak), ("pop", .potential), ("call", .clear)] =
        countAll {} [("call", .clear), ("call", .weak), ("pop", .potential)] ∧
      (countAll {} [("call", .clear), ("call", .weak), ("pop", .potential)]).operations =
        [("call", ⟨2, .weak⟩), ("pop", ⟨1, .potential⟩)] ∧
      (countAll {} [("call", .clear), ("call", .weak), ("pop", .potential)]).total = 3 ∧
      ∃ operations impacts,
        Report.counts { fresh .arm {} with
          ledger := countAll {} [("call", .clear), ("call", .weak), ("pop", .potential)] }
            { operations := true } = operations ++ "\n" ++ impacts ∧
          Report.Balanced operations impacts 3 := by
  obtain ⟨_, htotal, _, hperm, _, htext⟩ := ledger_consistent
    [("call", .clear), ("call", .weak), ("pop", .potential)] .arm {} []
  exact ⟨hperm _ (by decide), by decide, htotal,
    (htext { fresh .arm {} with
      ledger := countAll {} [("call", .clear), ("call", .weak), ("pop", .potential)] }
        { operations := true } rfl).2 (by decide)⟩

end Survey

end StackDepth
