import LTest.Wmm.Rollback

/-!
# Discarded snapshots

`DiscardSnapshot` pops edges off the end of the list of all edges, and off the end of the list of
each event, as long as they are edges of the snapshot. That this finds all of them, and no others,
rests on the order of ids: while a snapshot is open every new edge gets an id after those of the
edges there were, in whichever of the lists it is put, and a modification-order edge that exists
already gets none.

## Main definitions

* `Graph.addEdges` — a sequence of `AddEdge` calls

## Main results

* `ExecutionGraph.discardSnapshot_exact` — a discarded snapshot leaves the edges as they were
-/

namespace LTest

namespace Wmm

variable {V : Type}

namespace Graph

/-- A sequence of `AddEdge` calls. -/
def addEdges (g : Graph V) (calls : List (EdgeType × ℕ × ℕ)) : Graph V :=
  calls.foldl (fun g c => g.addEdge c.1 c.2.1 c.2.2) g

variable {g : Graph V}

theorem Indexed.addEdges (h : g.Indexed) (calls : List (EdgeType × ℕ × ℕ)) :
    (g.addEdges calls).Indexed := by
  induction calls generalizing g with
  | nil => exact h
  | cons c calls ih => exact ih (h.addEdge c.1 c.2.1 c.2.2)

theorem Snapshot.addEdges {E₀ : List Edge} (h : Snapshot E₀ g)
    (calls : List (EdgeType × ℕ × ℕ)) : Snapshot E₀ (g.addEdges calls) := by
  induction calls generalizing g with
  | nil => exact h
  | cons c calls ih => exact ih (h.addEdge c.1 c.2.1 c.2.2)

theorem inSnapshotMode_addEdges (g : Graph V) (calls : List (EdgeType × ℕ × ℕ)) :
    (g.addEdges calls).inSnapshotMode = g.inSnapshotMode := by
  induction calls generalizing g with
  | nil => rfl
  | cons c calls ih => exact (ih _).trans (addEdge_inSnapshotMode g c.1 c.2.1 c.2.2)

theorem snapshot_startSnapshot (h : g.snapshotEdges = []) : Snapshot g.edges g.startSnapshot := by
  refine ⟨List.prefix_rfl, fun i => ?_⟩
  show i ∈ g.snapshotEdges ↔ true = true ∧ g.edges.length ≤ i ∧ i < g.edges.length
  rw [h]
  refine ⟨nofun, fun ⟨_, hle, hlt⟩ => ?_⟩
  omega

/-- The edges of a snapshot are discarded, and no others. -/
theorem Indexed.discardSnapshot_addEdges (h : g.Indexed) (hnone : g.snapshotEdges = [])
    (calls : List (EdgeType × ℕ × ℕ)) :
    (g.startSnapshot.addEdges calls).discardSnapshot.edges = g.edges ∧
      (g.startSnapshot.addEdges calls).discardSnapshot.outEdges = g.outEdges := by
  have hstart : g.startSnapshot.Indexed := ⟨h.edge_id, h.outEdges_eq⟩
  have hindexed := hstart.addEdges calls
  have hsnapshot := (snapshot_startSnapshot hnone).addEdges calls
  have hmode := g.startSnapshot.inSnapshotMode_addEdges calls
  exact ⟨discardSnapshot_edges hsnapshot hindexed hmode,
    discardSnapshot_outEdges hsnapshot h hindexed hmode⟩

end Graph

namespace ExecutionGraph

variable [DecidableEq V] [Inhabited V] [AtomicOps V]

/-- **A discarded snapshot leaves the edges as they were.** In every reachable execution graph, and
at every attempt of every reading call on it, where snapshots are opened: after any sequence of
`AddEdge` calls and `DiscardSnapshot` the list of edges and those of all events are what they were
when the snapshot was opened, the ids of the edges are their positions, and no edge there was before
is missing, neither in the snapshot nor after it. -/
theorem discardSnapshot_exact {e : ExecutionGraph V} (h : Reachable e) {g : Graph V}
    (hg : g = e.graph ∨ ∃ op ev, e.Enabled op ∧ e.readingEvent op = some ev ∧
      Graph.Attempting e.graph ev (shuffled op) g) (calls : List (EdgeType × ℕ × ℕ)) :
    (g.startSnapshot.addEdges calls).discardSnapshot.edges = g.edges ∧
      (g.startSnapshot.addEdges calls).discardSnapshot.outEdges = g.outEdges ∧
      (∀ i < (g.startSnapshot.addEdges calls).discardSnapshot.edges.length,
        ((g.startSnapshot.addEdges calls).discardSnapshot.edge i).id = i) ∧
      ∀ edge ∈ g.edges, edge ∈ (g.startSnapshot.addEdges calls).edges ∧
        edge ∈ (g.startSnapshot.addEdges calls).discardSnapshot.edges := by
  have hinv := h.inv
  have ⟨hindexed, hnone⟩ : g.Indexed ∧ g.snapshotEdges = [] := by
    rcases hg with rfl | ⟨op, ev, hen, hev, hattempting⟩
    · exact ⟨hinv.graph.wf.indexed, hinv.graph.wf.snapshotEdges⟩
    · obtain ⟨ev₁, hsketch, -⟩ :=
        hattempting.exists_sketch hinv.graph (hinv.readSetup hen hev).1
      exact ⟨hsketch.indexed, hsketch.snapshotEdges_eq_nil⟩
  obtain ⟨hedges, hout⟩ := hindexed.discardSnapshot_addEdges hnone calls
  refine ⟨hedges, hout, fun i hi => ?_, fun edge hedge => ⟨?_, hedges ▸ hedge⟩⟩
  · rw [hedges] at hi
    rw [Graph.edge, hedges]
    exact hindexed.edge_id i hi
  · exact ((Graph.snapshot_startSnapshot hnone).addEdges calls).edges.subset hedge

/-- A read-from edge, a modification-order edge that is new and one that is not, drawn while the
relaxed load of thread 1 tries a candidate. -/
theorem discardSnapshot_exact_load :
    Reachable storedTwice ∧
      (((storedTwice.graph.createPoEdgeToEvent
        (storedTwice.graph.readEvent 0 1 .relaxed)).startSnapshot.addEdges
          [(.rf, 2, 4), (.mo, 3, 2), (.mo, 2, 3)]).discardSnapshot.edges =
        (storedTwice.graph.createPoEdgeToEvent (storedTwice.graph.readEvent 0 1 .relaxed)).edges) :=
  ⟨reachable_after _, (discardSnapshot_exact (reachable_after _)
    (.inr ⟨.load 0 1 .relaxed [2, 3], _, by decide +kernel, rfl, .start⟩)
    [(.rf, 2, 4), (.mo, 3, 2), (.mo, 2, 3)]).1⟩

end ExecutionGraph

end Wmm

end LTest
