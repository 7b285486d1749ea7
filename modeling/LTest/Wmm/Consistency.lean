import LTest.Lib.ScanOrders
import LTest.Wmm.Invariant

/-!
# When the consistency test is exact

`IsConsistent` is meant to tell whether the modification-order edges form a cycle. It reports a
cycle only if there is one for sure when no event has two outgoing edges of which one shortcuts
the other: an event is marked as entered when it is pushed, so the end of a shortcut, still
waiting on the stack, is taken for an event on the current path.

The graphs of this file are arbitrary: any events, any edges between them, and in `event->edges`
the edges that leave the event in any order.

## Main definitions

* `Graph.Listed` — every edge joins two events and stands in the list of the event it leaves
* `Graph.Reorders` — the same events and edges, listed in another order

## Main results

* `Graph.forall_reorders_isConsistent_iff` — in which graphs the verdict is right in every order
-/

namespace LTest

namespace Wmm

namespace Graph

open Relation

variable {V : Type} {g : Graph V}

/-- Edges are listed. -/
structure Listed (g : Graph V) : Prop where
  /-- Edges leave events. -/
  source_lt : ∀ e ∈ g.edges, e.source < g.events.length
  /-- They lead to events. -/
  target_lt : ∀ e ∈ g.edges, e.target < g.events.length
  /-- `event->edges` lists the edges that leave the event, in some order. -/
  outEdges_perm : ∀ a, (g.outEdges a).Perm
    ((List.range g.edges.length).filter fun i => (g.edge i).source = a)

/-- The same events and edges, with the edges of each event listed in another order. -/
structure Reorders (g' g : Graph V) : Prop where
  events : g'.events = g.events
  edges : g'.edges = g.edges
  outEdges_perm : ∀ a, (g'.outEdges a).Perm (g.outEdges a)

/-- The modification order has no cycle. -/
def MoAcyclic (g : Graph V) : Prop := ∀ a, ¬ TransGen g.Mo a a

/-- Where two modification-order edges leave one event and the first leads to the end of the
second, that end is reached from an earlier event than any from which the source is reached. -/
def ShortcutsReachedBefore (g : Graph V) : Prop :=
  ∀ v a b, [a, b].Subperm (g.moSuccessors v) → ReflTransGen g.Mo a b →
    ∃ r, ReflTransGen g.Mo r b ∧ ∀ r', ReflTransGen g.Mo r' v → r < r'

theorem Listed.mem_moSuccessors (h : g.Listed) {a b : ℕ} : b ∈ g.moSuccessors a ↔ g.Mo a b :=
  mem_moSuccessors_of_perm (h.outEdges_perm a)

theorem Listed.edge_eq (h : g.Listed) : DepthFirst.Edge g.moSuccessors = g.Mo := by
  funext a b
  exact propext h.mem_moSuccessors

theorem Listed.mem_range (h : g.Listed) {a b : ℕ} (hb : b ∈ g.moSuccessors a) :
    a ∈ List.range g.events.length ∧ b ∈ List.range g.events.length := by
  obtain ⟨e, he, -, rfl, rfl⟩ := h.mem_moSuccessors.mp hb
  exact ⟨List.mem_range.mpr (h.source_lt e he), List.mem_range.mpr (h.target_lt e he)⟩

theorem Listed.isConsistent_iff (h : g.Listed) :
    g.isConsistent = true ↔
      DepthFirst.Accepts g.moSuccessors (DepthFirst.init (List.range g.events.length)) :=
  isConsistent_iff_accepts fun _ _ hs => (h.mem_range hs).2

/-- What the test accepts is acyclic, in every order. -/
theorem Listed.moAcyclic (h : g.Listed) (hc : g.isConsistent = true) : g.MoAcyclic := by
  intro a hcycle
  obtain ⟨b, hab, -⟩ := TransGen.head'_iff.mp hcycle
  refine DepthFirst.acyclic_of_accepts (h.isConsistent_iff.mp hc)
    (h.mem_range (h.mem_moSuccessors.mpr hab)).1 ?_
  rwa [h.edge_eq]

/-! ### Orders -/

variable {g' : Graph V} {succ : ℕ → List ℕ}

theorem Reorders.mo (h : Reorders g' g) : g'.Mo = g.Mo := by
  unfold Mo
  rw [h.edges]

theorem Reorders.listed (h : Reorders g' g) (hg : g.Listed) : g'.Listed := by
  have hedge : g'.edge = g.edge := by
    funext i
    rw [edge, edge, h.edges]
  refine ⟨?_, ?_, fun a => ?_⟩
  · rw [h.edges, h.events]
    exact hg.source_lt
  · rw [h.edges, h.events]
    exact hg.target_lt
  · rw [h.edges, hedge]
    exact (h.outEdges_perm a).trans (hg.outEdges_perm a)

theorem Reorders.moSuccessors_perm (h : Reorders g' g) (a : ℕ) :
    (g'.moSuccessors a).Perm (g.moSuccessors a) := by
  have hedge : g'.edge = g.edge := by
    funext i
    rw [edge, edge, h.edges]
  unfold moSuccessors
  rw [hedge]
  exact (h.outEdges_perm a).filterMap _

/-- An order of what a list is filtered to comes from an order of the list. -/
theorem exists_perm_filterMap {α β : Type} (f : α → Option β) {m m' : List β} (h : m.Perm m')
    {l : List α} (hl : l.filterMap f = m) : ∃ l' : List α, l'.Perm l ∧ l'.filterMap f = m' := by
  induction h generalizing l with
  | nil => exact ⟨l, .refl l, hl⟩
  | cons x _ ih =>
    obtain ⟨l₁, a, l₂, rfl, hnone, ha, h₂⟩ := List.filterMap_eq_cons_iff.mp hl
    obtain ⟨l₂', hperm, h₂'⟩ := ih h₂
    refine ⟨l₁ ++ a :: l₂', (hperm.cons a).append_left l₁, ?_⟩
    rw [List.filterMap_append, List.filterMap_eq_nil_iff.mpr hnone, List.filterMap_cons, ha, h₂']
    rfl
  | swap x y _ =>
    obtain ⟨l₁, a, l₂, rfl, hnone, ha, h₂⟩ := List.filterMap_eq_cons_iff.mp hl
    obtain ⟨l₃, b, l₄, rfl, hnone', hb, h₄⟩ := List.filterMap_eq_cons_iff.mp h₂
    refine ⟨l₁ ++ (l₃ ++ b :: a :: l₄), List.Perm.append_left l₁ ?_, ?_⟩
    · refine (List.Perm.append_left l₃ (.swap a b l₄)).trans ?_
      exact List.perm_middle
    · simp [List.filterMap_append, List.filterMap_eq_nil_iff.mpr hnone,
        List.filterMap_eq_nil_iff.mpr hnone', ha, hb, h₄]
  | trans _ _ ih₁ ih₂ =>
    obtain ⟨l₁, hp₁, h₁⟩ := ih₁ hl
    obtain ⟨l₂, hp₂, h₂⟩ := ih₂ h₁
    exact ⟨l₂, hp₂.trans hp₁, h₂⟩

/-- Every order of the successors comes from an order of the edges. -/
theorem exists_reorders (h : ∀ a, (succ a).Perm (g.moSuccessors a)) :
    ∃ g', Reorders g' g ∧ g'.moSuccessors = succ := by
  choose out hout hsucc using fun a =>
    exists_perm_filterMap (fun edgeId => if (g.edge edgeId).type = .mo
      then some (g.edge edgeId).target else none) (h a).symm (l := g.outEdges a) rfl
  exact ⟨{ g with outEdges := out }, ⟨rfl, rfl, hout⟩, funext hsucc⟩

/-! ### The condition -/

theorem before_range_iff {n v b : ℕ} (hv : v < n) :
    DepthFirst.Before succ (List.range n) b v ↔
      ∃ r, ReflTransGen (DepthFirst.Edge succ) r b ∧
        ∀ r', ReflTransGen (DepthFirst.Edge succ) r' v → r < r' := by
  constructor
  · rintro ⟨A, hA, ⟨r, hrA, hrb⟩, hnot⟩
    obtain ⟨k, rfl⟩ : ∃ k, A = List.range k :=
      ⟨_, (List.prefix_iff_eq_take.mp hA).trans List.take_range⟩
    refine ⟨r, hrb, fun r' hr' => ?_⟩
    by_contra hlt
    have hr := List.mem_range.mp hrA
    exact hnot r' (List.mem_range.mpr (by omega)) hr'
  · rintro ⟨r, hrb, hlt⟩
    have hrv := hlt v .refl
    refine ⟨List.range (r + 1), ?_, ⟨r, by simp, hrb⟩, fun r' hr' hv' => ?_⟩
    · rw [show List.range (r + 1) = (List.range n).take (r + 1) by
        rw [List.take_range, Nat.min_eq_left (by omega)]]
      exact List.take_prefix ..
    · have := hlt r' hv'
      have := List.mem_range.mp hr'
      omega

theorem Listed.shortcutsReachedBefore_iff (h : g.Listed) :
    g.ShortcutsReachedBefore ↔
      DepthFirst.NestedBefore g.moSuccessors (List.range g.events.length) := by
  refine forall₃_congr fun v a b => forall_congr' fun hab => ?_
  have hv := (h.mem_range (hab.subset (by simp : a ∈ [a, b]))).1
  rw [before_range_iff (List.mem_range.mp hv), h.edge_eq]

/-- **In which graphs the consistency test is exact.** For given events and edges, the verdict is
right in every order of the adjacency lists exactly when the modification order has a cycle, or
has none and the ends of its shortcuts are all reached from an earlier event. -/
theorem forall_reorders_isConsistent_iff (g : Graph V) (h : g.Listed) :
    (∀ g', Reorders g' g → (g'.isConsistent = true ↔ g'.MoAcyclic)) ↔
      ¬ g.MoAcyclic ∨ g.ShortcutsReachedBefore := by
  by_cases hacyc : g.MoAcyclic
  · have hmo : ∀ g', Reorders g' g → g'.MoAcyclic := fun g' hg' => by
      rwa [MoAcyclic, hg'.mo]
    rw [h.shortcutsReachedBefore_iff, ← DepthFirst.forall_perm_accepts_iff
      (fun _ _ hs => (h.mem_range hs).2)
      (fun v hv => (h.mem_range (List.getLast_mem hv)).1) (by rwa [h.edge_eq])]
    refine ⟨fun hexact => .inr fun succ hsucc => ?_, fun hall g' hg' => ?_⟩
    · obtain ⟨g', hg', rfl⟩ := exists_reorders hsucc
      have := (hg'.listed h).isConsistent_iff.mp ((hexact g' hg').mpr (hmo g' hg'))
      rwa [hg'.events] at this
    · have haccepts := (hall.resolve_left (not_not_intro hacyc)) _ hg'.moSuccessors_perm
      rw [← hg'.events, ← (hg'.listed h).isConsistent_iff] at haccepts
      exact ⟨fun _ => hmo g' hg', fun _ => haccepts⟩
  · -- a cycle is found in every order
    refine ⟨fun _ => .inl hacyc, fun _ g' hg' => ?_⟩
    have hno : ¬ g'.MoAcyclic := by rwa [MoAcyclic, hg'.mo]
    exact ⟨(hg'.listed h).moAcyclic, fun hyes => absurd hyes hno⟩

/-! ### Graphs the code draws -/

theorem Indexed.listed (h : g.Indexed)
    (hlt : ∀ e ∈ g.edges, e.source < g.events.length ∧ e.target < g.events.length) : g.Listed :=
  ⟨fun e he => (hlt e he).1, fun e he => (hlt e he).2, fun a => by rw [h.outEdges_eq]⟩

/-- Three events in a row. -/
abbrev chainGraph : Graph ℕ := ((reset {} 3).addEdge .mo 0 1).addEdge .mo 1 2

theorem chainGraph_listed : chainGraph.Listed :=
  (((indexed_reset _ 3).addEdge .mo 0 1).addEdge .mo 1 2).listed (by decide)

/-- The consistency test is right about a chain, in every order of its adjacency lists. -/
theorem chainGraph_exact : chainGraph.Listed ∧
    ∀ g', Reorders g' chainGraph → (g'.isConsistent = true ↔ g'.MoAcyclic) := by
  refine ⟨chainGraph_listed, ?_⟩
  refine (forall_reorders_isConsistent_iff chainGraph chainGraph_listed).mpr (.inr ?_)
  intro v a b hab
  have hlen : (chainGraph.moSuccessors v).length ≤ 1 := by
    match v with
    | 0 => decide
    | 1 => decide
    | n + 2 => exact Nat.zero_le 1
  exact absurd hab.length_le (by simp; omega)

/-- Two edges leave the first of three events, and the end of the second leads to the end of the
first. -/
abbrev shortcutGraph : Graph ℕ :=
  (((reset {} 3).addEdge .mo 0 1).addEdge .mo 0 2).addEdge .mo 2 1

/-- A graph without a cycle that the consistency test rejects. -/
theorem shortcutGraph_rejected :
    shortcutGraph.Listed ∧ shortcutGraph.MoAcyclic ∧ shortcutGraph.isConsistent = false := by
  refine ⟨((((indexed_reset _ 3).addEdge .mo 0 1).addEdge .mo 0 2).addEdge .mo 2 1).listed
    (by decide), ?_, by decide⟩
  -- the rank of an event grows along every edge
  let rank : ℕ → ℕ := fun v => if v = 0 then 0 else if v = 2 then 1 else 2
  have hrank : ∀ e ∈ shortcutGraph.edges, rank e.source < rank e.target := by decide
  have hpath : ∀ a b, TransGen shortcutGraph.Mo a b → rank a < rank b := by
    intro a b h
    induction h with
    | single h =>
      obtain ⟨e, he, -, rfl, rfl⟩ := h
      exact hrank e he
    | tail _ h ih =>
      obtain ⟨e, he, -, rfl, rfl⟩ := h
      exact Nat.lt_trans ih (hrank e he)
  exact fun a h => absurd (hpath a a h) (Nat.lt_irrefl _)

end Graph

end Wmm

end LTest
