import LTest.Wmm.Graph

/-!
# Drawing edges

`AddEdge` keeps three tables: the edges, the outgoing edges of each event, and the edges of the
open snapshot. `Graph.Indexed` says that the second is determined by the first, and with it the
modification-order successors of all events change by `Adjacency.insertEdge` when an edge is
drawn. Everything that is proved about the modification order goes through that.

## Main definitions

* `Graph.Mo` — there is a modification-order edge, read off the list of edges
* `Graph.drawEdges` — draw modification-order edges, in order
* `Graph.mostRecent` — the events `IterateThroughMostRecentEventsByPredicate` calls back on

## Main results

* `Graph.moSuccessors_addEdge_mo` — drawing an edge is `insertEdge` on the successors
* `Graph.discardSnapshot_edges`, `Graph.discardSnapshot_outEdges` — a discarded snapshot leaves
  the edges as they were
-/

namespace LTest

namespace Wmm

namespace Graph

open Adjacency

variable {V : Type} {g : Graph V} {e : Edge}

/-- A modification-order edge from `a` to `b`. -/
def Mo (g : Graph V) (a b : ℕ) : Prop :=
  ∃ e ∈ g.edges, e.type = .mo ∧ e.source = a ∧ e.target = b

instance (g : Graph V) (a b : ℕ) : Decidable (g.Mo a b) :=
  inferInstanceAs (Decidable (∃ e ∈ g.edges, _))

/-- Edges are indexed. -/
structure Indexed (g : Graph V) : Prop where
  /-- The table of edges is indexed by their ids. -/
  edge_id : ∀ i < g.edges.length, (g.edge i).id = i
  /-- `event->edges` lists the edges that leave `event` in the order they were drawn. -/
  outEdges_eq : ∀ a, g.outEdges a =
    (List.range g.edges.length).filter fun i => (g.edge i).source = a

theorem indexed_reset (g : Graph V) (nThreads : ℕ) : (g.reset nThreads).Indexed :=
  ⟨by simp [reset], by simp [reset]⟩

theorem edge_mem {i : ℕ} (h : i < g.edges.length) : g.edge i ∈ g.edges := by
  simp [edge, h]

theorem exists_edge (h : e ∈ g.edges) : ∃ i < g.edges.length, g.edge i = e := by
  obtain ⟨i, hi, he⟩ := List.mem_iff_getElem.mp h
  exact ⟨i, hi, by simp [edge, hi, he]⟩

/-- The successors of an event, if `event->edges` lists the edges that leave it in any order. -/
theorem mem_moSuccessors_of_perm {a b : ℕ}
    (h : (g.outEdges a).Perm ((List.range g.edges.length).filter fun i => (g.edge i).source = a)) :
    b ∈ g.moSuccessors a ↔ g.Mo a b := by
  simp only [moSuccessors, List.mem_filterMap, h.mem_iff, List.mem_filter, List.mem_range,
    decide_eq_true_eq]
  constructor
  · rintro ⟨i, ⟨hi, hs⟩, hb⟩
    split at hb
    · exact ⟨g.edge i, edge_mem hi, ‹_›, hs, Option.some.inj hb⟩
    · simp at hb
  · rintro ⟨e, he, ht, hs, hb⟩
    obtain ⟨i, hi, rfl⟩ := exists_edge he
    exact ⟨i, ⟨hi, hs⟩, by simp [ht, hb]⟩

theorem Indexed.mem_moSuccessors (h : g.Indexed) {a b : ℕ} : b ∈ g.moSuccessors a ↔ g.Mo a b :=
  mem_moSuccessors_of_perm (.of_eq (h.outEdges_eq a))

theorem Indexed.existsEdge_mo (h : g.Indexed) {a b : ℕ} :
    g.existsEdge .mo a b = true ↔ b ∈ g.moSuccessors a := by
  rw [h.mem_moSuccessors]
  simp only [existsEdge, h.outEdges_eq, List.any_eq_true, List.mem_filter, List.mem_range,
    decide_eq_true_eq, Bool.and_eq_true]
  constructor
  · rintro ⟨i, ⟨hi, -⟩, ⟨hs, hb⟩, ht⟩
    exact ⟨g.edge i, edge_mem hi, ht, hs, hb⟩
  · rintro ⟨e, he, ht, hs, hb⟩
    obtain ⟨i, hi, rfl⟩ := exists_edge he
    exact ⟨i, ⟨hi, hs⟩, ⟨hs, hb⟩, ht⟩

/-! ### `AddEdge` -/

section AddEdge

variable (g : Graph V) (type : EdgeType) (a b : ℕ)

@[simp] theorem addEdge_events : (g.addEdge type a b).events = g.events := by
  unfold addEdge; split <;> rfl

@[simp] theorem addEdge_eventsPerThread :
    (g.addEdge type a b).eventsPerThread = g.eventsPerThread := by
  unfold addEdge; split <;> rfl

@[simp] theorem addEdge_lastSeqCstWriteEvents :
    (g.addEdge type a b).lastSeqCstWriteEvents = g.lastSeqCstWriteEvents := by
  unfold addEdge; split <;> rfl

@[simp] theorem addEdge_nThreads : (g.addEdge type a b).nThreads = g.nThreads := by
  unfold addEdge; split <;> rfl

@[simp] theorem addEdge_inSnapshotMode :
    (g.addEdge type a b).inSnapshotMode = g.inSnapshotMode := by
  unfold addEdge; split <;> rfl

@[simp] theorem event_addEdge (i : ℕ) : (g.addEdge type a b).event i = g.event i := by
  simp [event]

/-- `AddEdge` either finds the edge or appends it to all tables. -/
theorem addEdge_cases :
    (g.addEdge type a b = g ∧ type = .mo ∧ g.existsEdge type a b = true) ∨
      (g.addEdge type a b = { g with
          edges := g.edges ++ [⟨g.edges.length, type, a, b⟩]
          outEdges := Function.update g.outEdges a (g.outEdges a ++ [g.edges.length])
          snapshotEdges :=
            if g.inSnapshotMode then g.edges.length :: g.snapshotEdges else g.snapshotEdges } ∧
        ¬ (type = .mo ∧ g.existsEdge type a b = true)) := by
  by_cases h : type = .mo ∧ g.existsEdge type a b = true
  · refine .inl ⟨?_, h⟩
    simp only [addEdge, Bool.and_eq_true, decide_eq_true_eq, if_pos h]
  · refine .inr ⟨?_, h⟩
    simp only [addEdge, Bool.and_eq_true, decide_eq_true_eq, if_neg h]

variable {g} {g' : Graph V}

theorem edge_append_of_lt (he : g'.edges = g.edges ++ [e]) {i : ℕ} (hi : i < g.edges.length) :
    g'.edge i = g.edge i := by
  simp [edge, he, List.getD_eq_getElem?_getD, List.getElem?_append_left hi]

theorem edge_append_self (he : g'.edges = g.edges ++ [e]) : g'.edge g.edges.length = e := by
  simp [edge, he]

theorem Indexed.addEdge (h : g.Indexed) : (g.addEdge type a b).Indexed := by
  rcases addEdge_cases g type a b with ⟨heq, -⟩ | ⟨heq, -⟩
  · rwa [heq]
  have hedges : (g.addEdge type a b).edges = g.edges ++ [⟨g.edges.length, type, a, b⟩] := by
    rw [heq]
  have hlen : (g.addEdge type a b).edges.length = g.edges.length + 1 := by simp [hedges]
  have hold : ∀ i < g.edges.length, (g.addEdge type a b).edge i = g.edge i := fun i hi =>
    edge_append_of_lt hedges hi
  have hnew := edge_append_self hedges
  refine ⟨fun i hi => ?_, fun c => ?_⟩
  · rcases Nat.lt_succ_iff_lt_or_eq.mp (hlen ▸ hi) with hi | rfl
    · rw [hold i hi, h.edge_id i hi]
    · rw [hnew]
  · have hcongr : (List.range g.edges.length).filter
        (fun i => ((g.addEdge type a b).edge i).source = c) = g.outEdges c := by
      rw [h.outEdges_eq]
      exact List.filter_congr fun i hi => by rw [hold i (List.mem_range.mp hi)]
    rw [hlen, List.range_succ, List.filter_append, hcongr, List.filter_singleton, hnew, heq]
    by_cases hc : a = c
    · subst hc; simp
    · simp [hc, Ne.symm hc]

private theorem moSuccessors_of_append (h : g.Indexed) (h' : g'.Indexed)
    (he : g'.edges = g.edges ++ [e]) (c : ℕ) :
    g'.moSuccessors c =
      g.moSuccessors c ++ if e.type = .mo ∧ e.source = c then [e.target] else [] := by
  have hlen : g'.edges.length = g.edges.length + 1 := by simp [he]
  have hold : ∀ i < g.edges.length, g'.edge i = g.edge i := fun i => edge_append_of_lt he
  simp only [moSuccessors, h.outEdges_eq, h'.outEdges_eq, hlen, List.range_succ,
    List.filter_append, List.filterMap_append]
  congr 1
  · rw [List.filter_congr fun i hi => by rw [hold i (List.mem_range.mp hi)]]
    refine List.filterMap_congr fun i hi => ?_
    rw [hold i (List.mem_range.mp (List.mem_filter.mp hi).1)]
  · rw [List.filter_singleton, edge_append_self he]
    by_cases hs : e.source = c <;> by_cases ht : e.type = .mo <;>
      simp [hs, ht, edge_append_self he]

/-- A modification-order edge is drawn as `insertEdge` does. -/
theorem moSuccessors_addEdge_mo (h : g.Indexed) :
    (g.addEdge .mo a b).moSuccessors = insertEdge g.moSuccessors a b := by
  rcases addEdge_cases g .mo a b with ⟨heq, -, hex⟩ | ⟨heq, hex⟩
  · rw [heq, insertEdge, if_pos (h.existsEdge_mo.mp hex)]
  · have hnew : b ∉ g.moSuccessors a := fun hb => hex ⟨rfl, h.existsEdge_mo.mpr hb⟩
    funext c
    rw [moSuccessors_of_append h (h.addEdge .mo a b) (by rw [heq]), insertEdge, if_neg hnew]
    by_cases hc : a = c
    · subst hc; simp
    · simp [hc, Ne.symm hc]

/-- No other edge changes the modification order. -/
theorem moSuccessors_addEdge_of_ne (h : g.Indexed) (ht : type ≠ .mo) :
    (g.addEdge type a b).moSuccessors = g.moSuccessors := by
  rcases addEdge_cases g type a b with ⟨-, hmo, -⟩ | ⟨heq, -⟩
  · exact absurd hmo ht
  · funext c
    rw [moSuccessors_of_append h (h.addEdge type a b) (by rw [heq])]
    simp [ht]

end AddEdge

/-! ### Drawing several edges -/

/-- Draw modification-order edges, in order. -/
def drawEdges (g : Graph V) (l : List (ℕ × ℕ)) : Graph V :=
  l.foldl (fun g p => g.addEdge .mo p.1 p.2) g

@[simp] theorem drawEdges_nil (g : Graph V) : g.drawEdges [] = g := rfl

@[simp] theorem drawEdges_cons (g : Graph V) (p : ℕ × ℕ)
    (l : List (ℕ × ℕ)) :
    g.drawEdges (p :: l) = (g.addEdge .mo p.1 p.2).drawEdges l := rfl

/-! ### Snapshots -/

/-- The snapshot bookkeeping of a graph whose edges were `E₀` when the snapshot was opened. A
graph that is not in snapshot mode has no snapshot edges. -/
structure Snapshot (E₀ : List Edge) (g : Graph V) : Prop where
  edges : E₀ <+: g.edges
  mem_snapshotEdges : ∀ i, i ∈ g.snapshotEdges ↔
    g.inSnapshotMode = true ∧ E₀.length ≤ i ∧ i < g.edges.length

theorem Snapshot.addEdge {E₀ : List Edge} (h : Snapshot E₀ g) (type : EdgeType) (a b : ℕ) :
    Snapshot E₀ (g.addEdge type a b) := by
  rcases addEdge_cases g type a b with ⟨heq, -⟩ | ⟨heq, -⟩
  · rwa [heq]
  have hlen := h.edges.length_le
  rw [heq]
  refine ⟨h.edges.trans (List.prefix_append ..), fun i => ?_⟩
  have hi := h.mem_snapshotEdges i
  cases hm : g.inSnapshotMode with
  | false => simpa [hm] using hi
  | true =>
    simp only [hm, true_and] at hi
    simp only [if_true, List.mem_cons, hi, List.length_append, List.length_singleton, true_and]
    omega

private theorem popBackWhile_append {α : Type} {p : α → Bool} {l l' : List α}
    (hl : ∀ x ∈ l, p x = false) (hl' : ∀ x ∈ l', p x = true) : popBackWhile p (l ++ l') = l := by
  have hdrop : l.reverse.dropWhile p = l.reverse := by
    cases hr : l.reverse with
    | nil => rfl
    | cons x r =>
      have hx : p x = false := hl x (by rw [← List.mem_reverse, hr]; exact List.mem_cons_self)
      simp [hx]
  rw [popBackWhile, List.reverse_append,
    List.dropWhile_append_of_pos (by simpa using hl'), hdrop, List.reverse_reverse]

/-- A discarded snapshot leaves the edges there were before it. -/
theorem discardSnapshot_edges {E₀ : List Edge} (h : Snapshot E₀ g) (hi : g.Indexed)
    (hm : g.inSnapshotMode = true) : g.discardSnapshot.edges = E₀ := by
  obtain ⟨l, hl⟩ := h.edges
  have hid : ∀ i (hlt : i < g.edges.length), g.edges[i].id = i := fun i hlt => by
    simpa [edge, hlt] using hi.edge_id i hlt
  change popBackWhile _ g.edges = E₀
  rw [← hl]
  refine popBackWhile_append (fun e he => ?_) fun e he => ?_
  · obtain ⟨i, hlt, rfl⟩ := List.mem_iff_getElem.mp he
    have hlt' : i < g.edges.length := by rw [← hl, List.length_append]; omega
    have heid : E₀[i].id = i := by simpa [← hl, hlt] using hid i hlt'
    simp only [List.contains_eq_mem, decide_eq_false_iff_not, h.mem_snapshotEdges, heid]
    omega
  · obtain ⟨i, hlt, rfl⟩ := List.mem_iff_getElem.mp he
    have hlt' : E₀.length + i < g.edges.length := by rw [← hl, List.length_append]; omega
    have heid : l[i].id = E₀.length + i := by simpa [← hl] using hid _ hlt'
    simp only [List.contains_eq_mem, decide_eq_true_eq, h.mem_snapshotEdges, heid]
    exact ⟨hm, by omega, hlt'⟩

theorem discardSnapshot_outEdges {g₀ : Graph V} (h : Snapshot g₀.edges g) (h₀ : g₀.Indexed)
    (hi : g.Indexed) (hm : g.inSnapshotMode = true) : g.discardSnapshot.outEdges = g₀.outEdges := by
  funext a
  have hlen := h.edges.length_le
  obtain ⟨l, hl⟩ := h.edges
  have hsplit : List.range g.edges.length =
      List.range g₀.edges.length ++
        List.range' g₀.edges.length (g.edges.length - g₀.edges.length) := by
    rw [List.range_eq_range', List.range_eq_range',
      show g.edges.length = g₀.edges.length + (g.edges.length - g₀.edges.length) by omega,
      ← List.range'_append_1]
    simp
  have hold : ∀ i < g₀.edges.length, g.edge i = g₀.edge i := fun i hlt => by
    simp [edge, ← hl, List.getD_eq_getElem?_getD, List.getElem?_append_left hlt]
  change popBackWhile _ (g.outEdges a) = g₀.outEdges a
  rw [hi.outEdges_eq, h₀.outEdges_eq, hsplit, List.filter_append,
    List.filter_congr fun i hlt => by rw [hold i (List.mem_range.mp hlt)]]
  refine popBackWhile_append (fun i hmem => ?_) fun i hmem => ?_
  · have := List.mem_range.mp (List.mem_filter.mp hmem).1
    simp only [List.contains_eq_mem, decide_eq_false_iff_not, h.mem_snapshotEdges]
    omega
  · have := List.mem_range'_1.mp (List.mem_filter.mp hmem).1
    simp only [List.contains_eq_mem, decide_eq_true_eq, h.mem_snapshotEdges]
    exact ⟨hm, by omega, by omega⟩

/-! ### Atomicity edges -/

/-- The loop of `CreateRmwAtomicityEdges` draws an edge to each successor of `write`. -/
theorem createRmwAtomicityEdges_eq (h : g.Indexed) (write rmw : ℕ) :
    g.createRmwAtomicityEdges write rmw =
      g.drawEdges (((g.moSuccessors write).filter (· ≠ rmw)).map (rmw, ·)) := by
  -- the edges the loop looks at stay where they are
  have key : ∀ (ids : List ℕ) (g' : Graph V), (∀ i ∈ ids, i < g'.edges.length) →
      (∀ i ∈ ids, g'.edge i = g.edge i) →
      ids.foldl (fun g i =>
        if (g.edge i).type = .mo && (g.edge i).target ≠ rmw then
          g.addEdge .mo rmw (g.edge i).target
        else g) g' =
      g'.drawEdges (((ids.filterMap fun i =>
        if (g.edge i).type = .mo then some (g.edge i).target else none).filter (· ≠ rmw)).map
          (rmw, ·)) := by
    intro ids
    induction ids with
    | nil => intro g' _ _; rfl
    | cons i ids ih =>
      intro g' hlt hedge
      have hi := hedge i List.mem_cons_self
      have hlt' : ∀ j ∈ ids, j < g'.edges.length := fun j hj => hlt j (List.mem_cons_of_mem i hj)
      have hedge' : ∀ j ∈ ids, g'.edge j = g.edge j := fun j hj =>
        hedge j (List.mem_cons_of_mem i hj)
      have hdraw : ∀ b, ∀ j ∈ ids, j < (g'.addEdge .mo rmw b).edges.length ∧
          (g'.addEdge .mo rmw b).edge j = g'.edge j := by
        intro b j hj
        rcases addEdge_cases g' .mo rmw b with ⟨heq, -⟩ | ⟨heq, -⟩
        · rw [heq]
          exact ⟨hlt' j hj, rfl⟩
        · refine ⟨?_, edge_append_of_lt (by rw [heq]) (hlt' j hj)⟩
          simp only [heq, List.length_append, List.length_singleton]
          have := hlt' j hj
          omega
      rw [List.foldl_cons, List.filterMap_cons, hi]
      by_cases ht : (g.edge i).type = .mo
      · by_cases hb : (g.edge i).target = rmw
        · simpa [ht, hb] using ih g' hlt' hedge'
        · simpa [ht, hb] using ih _ (fun j hj => (hdraw _ j hj).1)
            fun j hj => (hdraw _ j hj).2.trans (hedge' j hj)
      · simpa [ht] using ih g' hlt' hedge'
  refine key _ g (fun i hi => ?_) fun _ _ => rfl
  rw [h.outEdges_eq] at hi
  exact List.mem_range.mp (List.mem_filter.mp hi).1

/-! ### The most recent events -/

/-- For each thread, its most recent event satisfying `p`, if there is one. -/
def mostRecent (g : Graph V) (p : Event V → Bool) : List (Event V) :=
  (List.range g.nThreads).filterMap fun t =>
    ((g.eventsPerThread t).reverse.map g.event).find? p

/-- When the callback draws an edge to a fixed event, the iteration draws the edges of the most
recent events. -/
theorem iterate_eq_drawEdges (g : Graph V) {predicate : Graph V → Event V → Bool}
    {callback : Graph V → Event V → Graph V} {p : Event V → Bool} {e : Event V → ℕ × ℕ}
    (hp : ∀ g' : Graph V, g'.events = g.events → predicate g' = p)
    (hc : ∀ g' o, callback g' o = g'.addEdge .mo (e o).1 (e o).2) :
    g.iterateThroughMostRecentEventsByPredicate predicate callback =
      g.drawEdges ((g.mostRecent p).map e) := by
  unfold iterateThroughMostRecentEventsByPredicate
  generalize hvisit : (fun (g : Graph V) (t : ℕ) => _) = visit
  have key : ∀ (ts : List ℕ) (g' : Graph V), g'.events = g.events →
      g'.eventsPerThread = g.eventsPerThread →
      ts.foldl visit g' = g'.drawEdges ((ts.filterMap fun t =>
        ((g.eventsPerThread t).reverse.map g.event).find? p).map e) := by
    intro ts
    induction ts with
    | nil => intro g' _ _; rfl
    | cons t ts ih =>
      intro g' hev hth
      have hevent : g'.event = g.event := by funext i; simp [event, hev]
      have hone : visit g' t = (((g.eventsPerThread t).reverse.map g.event).find? p).elim g'
          (callback g') := by
        rw [← hvisit]
        dsimp only
        rw [hp g' hev, hth, hevent]
        cases ((g.eventsPerThread t).reverse.map g.event).find? p with
        | none => rfl
        | some o => rfl
      rw [List.foldl_cons, List.filterMap_cons, hone]
      cases ((g.eventsPerThread t).reverse.map g.event).find? p with
      | none => exact ih g' hev hth
      | some o =>
        rw [List.map_cons, drawEdges_cons, ← hc]
        exact ih _ (by simpa [hc] using hev) (by simpa [hc] using hth)
  exact key _ g rfl rfl

end Graph

end Wmm

end LTest
