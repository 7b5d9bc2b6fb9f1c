import Mathlib.Data.List.TakeWhile
import StackDepth.Proofs.CallGraph.Calls
import StackDepth.Walk

/-!
# What a walk keeps

The chain of a walk is a chain of calls, and nothing that it leads to is forgotten: whatever a tier
calls is visited, in line at the tier below it, or on the chain.

* `Linked`: each tier and its siblings are called by the tier above, those of the root are roots;
* `Covered`: no callee of a tier is forgotten, and no root;
* `Proper`: both, and no node twice on the part of the chain whose callees are taken up. It is kept
  by going down, by a visit and by going up (`Proper.down`, `Standing.up`);
* `Proper.roots_visited`: at the end every root is visited.
-/

namespace StackDepth

/-- The nodes in line at a tier, the one it stands at first. -/
def Tier.line (t : Tier) : List Node := t.node :: t.siblings

namespace Walk

variable {g h : CallGraph} {roots : List Node} {t : Tier} {outer : List Tier}

/-! ## 1. The chain -/

/-- Where a node in line below `outer` comes from: a call of its innermost tier, or the roots. -/
def Source (g : CallGraph) (roots : List Node) : List Tier → Node → Prop
  | [], m => m ∈ roots
  | u :: _, m => g.Calls u.node m

def Linked (g : CallGraph) (roots : List Node) : List Tier → Prop
  | [] => True
  | t :: outer => (∀ m ∈ t.line, Source g roots outer m) ∧ Linked g roots outer

/-- What `outer` leads to is visited, in line below it, or on it. -/
def Attended (g : CallGraph) (roots : List Node) (line : List Node) (outer : List Tier) : Prop :=
  ∀ m, Source g roots outer m →
    g.isVisited m = true ∨ m ∈ line ∨ m ∈ outer.map (·.node)

/-- No tier of `outer` has a callee that is forgotten, where `line` is in line below it. -/
def Covered (g : CallGraph) (roots : List Node) : List Node → List Tier → Prop
  | line, [] => Attended g roots line []
  | line, u :: outer => Attended g roots line (u :: outer) ∧ Covered g roots u.line outer

theorem path_cons (r : Bool) :
    Walk.path ⟨t :: outer, r⟩ = (outer.map (·.node)).reverse ++ [t.node] := by
  rw [path, List.map_cons, List.reverse_cons]

/-- **The nodes of the chain are a chain of calls.** -/
theorem Linked.isChain {tiers : List Tier} (hl : Linked g roots tiers) :
    (tiers.map (·.node)).reverse.IsChain g.Calls := by
  rw [List.isChain_reverse]
  induction tiers with
  | nil => exact .nil
  | cons t outer ih =>
    cases outer with
    | nil => exact .singleton _
    | cons u outer => exact .cons_cons (hl.1 t.node List.mem_cons_self) (ih hl.2)

theorem source_congr (hc : h.calls = g.calls) {m : Node} :
    Source h roots outer m ↔ Source g roots outer m := by
  cases outer with
  | nil => exact Iff.rfl
  | cons u outer =>
    show h.Calls u.node m ↔ g.Calls u.node m
    rw [CallGraph.Calls, hc, CallGraph.Calls]

theorem Linked.congr {tiers : List Tier} (hc : h.calls = g.calls) (hl : Linked g roots tiers) :
    Linked h roots tiers := by
  induction tiers with
  | nil => trivial
  | cons t outer ih => exact ⟨fun m hm => (source_congr hc).mpr (hl.1 m hm), ih hl.2⟩

section Covering

variable {line line' : List Node} (hc : h.calls = g.calls)
  (hv : ∀ m, g.isVisited m = true → h.isVisited m = true)

include hc hv

/-- What leaves the line has to be visited or on the chain. -/
theorem Attended.mono (ha : Attended g roots line outer)
    (hline : ∀ m ∈ line, h.isVisited m = true ∨ m ∈ line' ∨ m ∈ outer.map (·.node)) :
    Attended h roots line' outer := by
  intro m hm
  rcases ha m ((source_congr hc).mp hm) with h' | h' | h'
  · exact .inl (hv m h')
  · exact hline m h'
  · exact .inr (.inr h')

theorem Covered.mono (ha : Covered g roots line outer)
    (hline : ∀ m ∈ line, h.isVisited m = true ∨ m ∈ line' ∨ m ∈ outer.map (·.node)) :
    Covered h roots line' outer := by
  induction outer generalizing line line' with
  | nil => exact Attended.mono hc hv ha hline
  | cons u outer ih =>
    exact ⟨ha.1.mono hc hv hline, ih ha.2 fun m hm => .inr (.inl hm)⟩

end Covering

/-! ## 2. Where the walk stands -/

/-- What holds at the innermost tier `t` of a chain, once the walk has gone down to it. -/
structure Standing (g : CallGraph) (roots : List Node) (t : Tier) (outer : List Tier) : Prop where
  linked : Linked g roots (t :: outer)
  nodup : (outer.map (·.node)).Nodup
  covered : Covered g roots t.line outer

/-- Nothing is left to do below `t`: it is visited, or closes a cycle, or each of its callees is
    visited or on the chain. -/
def Settled (g : CallGraph) (t : Tier) (outer : List Tier) : Prop :=
  g.isVisited t.node = true ∨ t.node ∈ outer.map (·.node) ∨
    ∀ m, g.Calls t.node m → g.isVisited m = true ∨ m ∈ (t :: outer).map (·.node)

theorem mem_due {n m : Node} : m ∈ due g n ↔ g.Calls n m ∧ g.isVisited m = false := by
  rw [due, List.mem_filter, CallGraph.mem_recentCallees, Bool.not_eq_true']

theorem any_node_iff {n : Node} : outer.any (·.node == n) = true ↔ n ∈ outer.map (·.node) := by
  simp only [List.any_eq_true, beq_iff_eq, List.mem_map]

/-- Taking up the callees of a node that is neither visited nor on the chain. -/
theorem Standing.push (hs : Standing g roots t outer) (ho : t.node ∉ outer.map (·.node))
    {child : Node} {siblings : List Node} (hd : due g t.node = child :: siblings) :
    Standing g roots ⟨child, siblings⟩ (t :: outer) where
  linked := ⟨fun m hm => (mem_due.mp (hd ▸ hm)).1, hs.linked⟩
  nodup := List.nodup_cons.mpr ⟨ho, hs.nodup⟩
  covered := by
    refine ⟨fun m hm => ?_, hs.covered⟩
    cases hv : g.isVisited m with
    | true => exact .inl rfl
    | false =>
      have hmem : m ∈ due g t.node := mem_due.mpr ⟨hm, hv⟩
      rw [hd] at hmem
      exact .inr (.inl hmem)

/-- **Going down keeps the walk standing, and ends where nothing is left to do below.** -/
theorem Standing.descend {tiers : List Tier} (hne : tiers ≠ [])
    (hs : ∀ t outer, tiers = t :: outer → Standing g roots t outer) :
    ∃ t outer, Walk.descend g tiers = t :: outer ∧ Standing g roots t outer ∧
      Settled g t outer := by
  fun_induction Walk.descend g tiers with
  | case1 => exact absurd rfl hne
  | case2 t outer hv => exact ⟨t, outer, rfl, hs t outer rfl, .inl hv⟩
  | case3 t outer hv ho => exact ⟨t, outer, rfl, hs t outer rfl, .inr (.inl (any_node_iff.mp ho))⟩
  | case4 t outer hv ho hd =>
    refine ⟨t, outer, rfl, hs t outer rfl, .inr (.inr fun m hm => ?_)⟩
    cases hvm : g.isVisited m with
    | true => exact .inl rfl
    | false =>
      have hmem : m ∈ due g t.node := mem_due.mpr ⟨hm, hvm⟩
      rw [hd] at hmem
      cases hmem
  | case5 t outer hv ho child siblings hd ih =>
    refine ih (List.cons_ne_nil _ _) fun t' outer' e => ?_
    cases e
    exact (hs t outer rfl).push (fun hm => ho (any_node_iff.mpr hm)) hd

/-! ## 3. The moves -/

/-- The nodes in line where the walk is, before it goes down. -/
def line (w : Walk) : List Node := if w.returned then [] else (w.tiers.head?.map (·.line)).getD []

/-- What holds of a walk before it goes down. -/
structure Proper (g : CallGraph) (roots : List Node) (w : Walk) : Prop where
  linked : Linked g roots w.tiers
  nodup : (w.taken.map (·.node)).Nodup
  covered : Covered g roots w.line w.taken

theorem proper_start (g : CallGraph) (roots : List Node) : Proper g roots (start roots) := by
  cases roots with
  | nil => exact ⟨trivial, List.nodup_nil, fun m hm => absurd hm List.not_mem_nil⟩
  | cons r rs => exact ⟨⟨fun m hm => hm, trivial⟩, List.nodup_nil, fun m hm => .inr (.inl hm)⟩

/-- Going down never empties a chain. -/
theorem eq_nil_of_down {w : Walk} (he : (w.down g).tiers = []) : w.tiers = [] := by
  obtain ⟨tiers, returned⟩ := w
  cases returned with
  | true => exact he
  | false =>
    have hd : Walk.descend g tiers = [] := he
    clear he
    show tiers = []
    fun_induction Walk.descend g tiers with
    | case1 => rfl
    | case2 => cases hd
    | case3 => cases hd
    | case4 => cases hd
    | case5 t outer hv ho child siblings _ ih => cases ih hd

/-- Every root is visited once the chain is empty. -/
theorem Proper.roots_visited {w : Walk} (hw : Proper g roots w) (he : w.tiers = []) :
    ∀ r ∈ roots, g.isVisited r = true := by
  obtain ⟨tiers, returned⟩ := w
  subst he
  intro r hr
  have ht : taken ⟨[], returned⟩ = [] := by cases returned <;> rfl
  have hl : line ⟨[], returned⟩ = [] := by cases returned <;> rfl
  have hc := hw.covered
  rw [ht, hl] at hc
  rcases hc r hr with h | h | h
  · exact h
  · cases h
  · cases h

/-- **Where the walk stands after going down.** -/
theorem Proper.down {w : Walk} (hw : Proper g roots w) (hne : (w.down g).tiers ≠ []) :
    ∃ t outer, w.down g = ⟨t :: outer, false⟩ ∧ Standing g roots t outer ∧ Settled g t outer := by
  obtain ⟨tiers, returned⟩ := w
  cases returned with
  | true =>
    -- the walk came back: all callees were in line below, and the line is used up
    cases tiers with
    | nil => exact absurd rfl hne
    | cons t outer =>
      obtain ⟨ha, hc⟩ := hw.covered
      have hnd := List.nodup_cons.mp hw.nodup
      refine ⟨t, outer, rfl, ⟨hw.linked, hnd.2, hc⟩, .inr (.inr fun m hm => ?_)⟩
      exact (ha m hm).imp_right fun h' => h'.resolve_left List.not_mem_nil
  | false =>
    have htiers : tiers ≠ [] := by
      intro e
      subst e
      exact hne (by rw [Walk.down, Walk.descend]; rfl)
    have hstart : ∀ t outer, tiers = t :: outer → Standing g roots t outer := by
      intro t outer e
      subst e
      exact ⟨hw.linked, hw.nodup, hw.covered⟩
    obtain ⟨t, outer, e, hs⟩ := Standing.descend htiers hstart
    exact ⟨t, outer, congrArg (Walk.mk · false) e, hs⟩

/-- **Going up after a visit**, which left the calls alone and unvisited nothing, and visited the
    innermost node unless it closes a cycle. -/
theorem Standing.up (hs : Standing g roots t outer) (hc : h.calls = g.calls)
    (hv : ∀ m, g.isVisited m = true → h.isVisited m = true)
    (ht : h.isVisited t.node = true ∨ t.node ∈ outer.map (·.node)) :
    Proper h roots (Walk.up h ⟨t :: outer, false⟩) := by
  obtain ⟨hlt, hlo⟩ := hs.linked
  have hsib : t.siblings = t.siblings.takeWhile h.isVisited ++ t.siblings.dropWhile h.isVisited :=
    List.takeWhile_append_dropWhile.symm
  -- what leaves the line with `t` is visited or on the chain
  have hline : ∀ m ∈ t.line, h.isVisited m = true ∨ m ∈ t.siblings.dropWhile h.isVisited ∨
      m ∈ outer.map (·.node) := by
    intro m hm
    rcases List.mem_cons.mp hm with rfl | hm
    · exact ht.imp_right .inr
    · rw [hsib] at hm
      rcases List.mem_append.mp hm with hm | hm
      · exact .inl (List.mem_takeWhile_imp hm)
      · exact .inr (.inl hm)
  have hcov := hs.covered.mono hc hv hline
  cases hd : t.siblings.dropWhile h.isVisited with
  | cons next rest =>
    have hup : Walk.up h ⟨t :: outer, false⟩ = ⟨⟨next, rest⟩ :: outer, false⟩ := by
      simp only [Walk.up, hd]
    rw [hup]
    rw [hd] at hcov
    refine ⟨⟨fun m hm => (source_congr hc).mpr (hlt m ?_), hlo.congr hc⟩, hs.nodup, hcov⟩
    refine List.mem_cons_of_mem _ ?_
    rw [hsib, hd]
    exact List.mem_append_right _ hm
  | nil =>
    have hup : Walk.up h ⟨t :: outer, false⟩ = ⟨outer, !outer.isEmpty⟩ := by
      simp only [Walk.up, hd]
    rw [hup]
    rw [hd] at hcov
    cases outer with
    | nil => exact ⟨trivial, List.nodup_nil, hcov⟩
    | cons u outer => exact ⟨hlo.congr hc, hs.nodup, hcov⟩

end Walk

end StackDepth
