import LTest.Wmm.Reachable

/-!
# The modification order of a reachable graph

The two facts every other property rests on: the recorded modification order is coherent with
happens-before, although the rules only look at the most recent event of each thread, and it is
acyclic and typed, also in the middle of an operation, after rejected attempts.

## Main results

* `ExecutionGraph.coherence_of_reachable` — the four coherence laws
* `ExecutionGraph.ordered_of_reachable` — the modification order is acyclic and typed
-/

namespace LTest

namespace Wmm

open Relation

variable {V : Type} [DecidableEq V] [Inhabited V] [AtomicOps V]

namespace ExecutionGraph

/-- **Coherence.** In every reachable graph, for two distinct events of one location, the first
of which happens before the second: write-write, read-write, write-read and read-read coherence
hold as non-empty paths of modification-order edges. -/
theorem coherence_of_reachable {e : ExecutionGraph V} (h : Reachable e) {i j : ℕ}
    (hi : i < e.graph.events.length) (hj : j < e.graph.events.length) (hne : i ≠ j)
    (hloc : (e.graph.event i).location = (e.graph.event j).location)
    (hhb : (e.graph.event i).happensBefore (e.graph.event j) = true) :
    ((e.graph.event i).modifies = true → (e.graph.event j).modifies = true →
      TransGen e.graph.Mo i j) ∧
    ((e.graph.event i).isReadOrRMW = true → (e.graph.event j).modifies = true →
      ∃ r, (e.graph.event i).getReadFromEvent = some r ∧ TransGen e.graph.Mo r j) ∧
    ((e.graph.event i).modifies = true → (e.graph.event j).isReadOrRMW = true →
      ∃ w, (e.graph.event j).getReadFromEvent = some w ∧ (i = w ∨ TransGen e.graph.Mo i w)) ∧
    ((e.graph.event i).isReadOrRMW = true → (e.graph.event j).isReadOrRMW = true →
      ∃ r w, (e.graph.event i).getReadFromEvent = some r ∧
        (e.graph.event j).getReadFromEvent = some w ∧ (r = w ∨ TransGen e.graph.Mo r w)) := by
  have hinv := h.inv.graph
  have hcoh := hinv.coherent i j hi hj hne hloc hhb
  refine ⟨fun hm hm' => (hcoh i (.inl ⟨hm, rfl⟩)).1 hm', fun hr hm => ?_, fun hm hr => ?_,
    fun hr hr' => ?_⟩
  · obtain ⟨r, hrf⟩ := hinv.resolved i hi hr
    exact ⟨r, hrf, (hcoh r (.inr hrf)).1 hm⟩
  · obtain ⟨w, hrf⟩ := hinv.resolved j hj hr
    exact ⟨w, hrf, (hcoh i (.inl ⟨hm, rfl⟩)).2 w hrf⟩
  · obtain ⟨r, hrf⟩ := hinv.resolved i hi hr
    obtain ⟨w, hrf'⟩ := hinv.resolved j hj hr'
    exact ⟨r, w, hrf, hrf', (hcoh r (.inr hrf)).2 w hrf'⟩

/-- One thread registers a location, adds to it and loads it: the load is coherent with the
read-modify-write before it. -/
def addThenLoad : ExecutionGraph (BitVec 32) :=
  after [.reset 1, .registerLocation 0, .unconditionalReadModifyWrite 0 0 .fetchAdd 1 .relaxed [1],
    .load 0 0 .relaxed [2, 1]]

theorem coherence_addThenLoad :
    ∃ r w, (addThenLoad.graph.event 2).getReadFromEvent = some r ∧
      (addThenLoad.graph.event 3).getReadFromEvent = some w ∧
      (r = w ∨ TransGen addThenLoad.graph.Mo r w) :=
  (coherence_of_reachable (reachable_after _) (e := addThenLoad) (i := 2) (j := 3)
    (by decide +kernel) (by decide +kernel) (by decide) (by decide +kernel)
    (by decide +kernel)).2.2.2 (by decide +kernel) (by decide +kernel)

end ExecutionGraph

/-! ### Acyclic and typed -/

namespace Graph

variable {g : Graph V}

/-- The modification order is one. -/
structure Ordered (g : Graph V) : Prop where
  /-- It has no cycle. -/
  acyclic : ∀ v, ¬ TransGen g.Mo v v
  /-- Its edges join two distinct events of one location that modify it. -/
  typed : ∀ a b, g.Mo a b → a ≠ b ∧ a < g.events.length ∧ b < g.events.length ∧
    (g.event a).modifies = true ∧ (g.event b).modifies = true ∧
    (g.event a).location = (g.event b).location

/-- The graphs the loop over the candidates goes through, one after each `TryCreateRfEdge`. -/
def attemptedGraphs (g : Graph V) (read : ℕ) : List ℕ → List (Graph V)
  | [] => []
  | write :: rest =>
    let r := g.tryCreateRfEdge write read
    r.2 :: if r.1 then [] else r.2.attemptedGraphs read rest

theorem tryCandidates_eq_getLastD (g : Graph V) (read : ℕ) (cs : List ℕ) :
    g.tryCandidates read cs = (g.attemptedGraphs read cs).getLastD g := by
  induction cs generalizing g with
  | nil => rfl
  | cons write rest ih =>
    simp only [tryCandidates, attemptedGraphs, List.getLastD_cons, ih]
    cases (g.tryCreateRfEdge write read).1 <;> rfl

omit [DecidableEq V] [Inhabited V] [AtomicOps V] in
theorem Inv.ordered (h : g.Inv) : g.Ordered where
  acyclic := h.acyclic
  typed a b hab := by
    obtain ⟨ha, hb⟩ := h.wf.mo_lt a b hab
    obtain ⟨hma, hmb, hl, hne⟩ := h.typed a b hab
    exact ⟨hne, ha, hb, hma, hmb, hl⟩

omit [DecidableEq V] [Inhabited V] [AtomicOps V] in
/-- An appended event without edges changes nothing. -/
theorem Sketch.ordered {b : Graph V} {ev : Event V} {last : ℤ → Option ℕ} (hb : b.Inv)
    (h : Sketch b [] false g ev [] last) : g.Ordered := by
  have hmo : g.Mo = b.Mo := by
    funext x y
    rw [← propext h.indexed.mem_moSuccessors, h.mo, Adjacency.insertEdges_nil,
      propext hb.wf.indexed.mem_moSuccessors]
  refine ⟨hmo ▸ hb.acyclic, fun x y hxy => ?_⟩
  rw [hmo] at hxy
  obtain ⟨hne, hx, hy, htyped⟩ := hb.ordered.typed x y hxy
  rw [h.event_of_lt hx, h.event_of_lt hy, h.events, List.length_append, List.length_singleton]
  exact ⟨hne, by omega, by omega, htyped⟩

/-- The graphs a reading call goes through are ordered. -/
theorem Attempting.ordered {g₁ : Graph V} {ev : Event V} {cs cs' : List ℕ}
    (h : Attempting g ev cs g₁) (hg : g.Inv) (hs : ReadSetup g ev cs) (hcs : ∀ w ∈ cs', w ∈ cs) :
    ∀ g' ∈ g₁.attemptedGraphs ev.id cs', g'.Ordered := by
  induction cs' generalizing g₁ with
  | nil => simp [attemptedGraphs]
  | cons w cs' ih =>
    have hw := hcs w List.mem_cons_self
    rw [attemptedGraphs]
    cases hres : (g₁.tryCreateRfEdge w ev.id).1 with
    | true =>
      obtain ⟨hcons, heq⟩ := tryCreateRfEdge_accepted hres
      obtain ⟨ev₁, -, hacc⟩ := h.exists_accepted hg hs hw hcons
      rw [← heq] at hacc
      simpa using (hacc.growth.inv hg fun _ => hacc.consistent).ordered
    | false =>
      have hnext := h.retry hw hres
      obtain ⟨ev₂, hsk, -⟩ := hnext.exists_sketch hg hs
      refine List.forall_mem_cons.mpr ⟨hsk.ordered hg, ?_⟩
      exact ih hnext fun w' hw' => hcs w' (List.mem_cons_of_mem w hw')

end Graph

namespace ExecutionGraph

/-- The graphs a reading call goes through: with the new event appended, and after each attempt
to read. -/
def graphsOf (e : ExecutionGraph V) (op : Op V) : List (Graph V) :=
  match e.readingEvent op with
  | some ev =>
    e.graph.createPoEdgeToEvent ev ::
      (e.graph.createPoEdgeToEvent ev).attemptedGraphs ev.id (shuffled op)
  | none => []

/-- **The modification order is acyclic and typed** in every reachable graph, and in the graphs a
call goes through, after rejected attempts as well. -/
theorem ordered_of_reachable {e : ExecutionGraph V} (h : Reachable e) :
    e.graph.Ordered ∧ ∀ op, e.Enabled op → ∀ g ∈ e.graphsOf op, g.Ordered := by
  refine ⟨h.inv.graph.ordered, fun op hen g hg => ?_⟩
  unfold graphsOf at hg
  split at hg
  · rename_i ev hev
    obtain ⟨hs, -⟩ := h.inv.readSetup hen hev
    rcases List.mem_cons.mp hg with rfl | hg
    · exact (hs.sketch h.inv.graph).ordered h.inv.graph
    · exact Graph.Attempting.start.ordered h.inv.graph hs (fun _ hw => hw) g hg
  · simp at hg

theorem ordered_addThenLoad : addThenLoad.graph.Ordered ∧
    ∀ g ∈ addThenLoad.graphsOf (.load 0 0 .seqCst [1, 2]), g.Ordered :=
  ⟨(ordered_of_reachable (reachable_after _) (e := addThenLoad)).1,
    (ordered_of_reachable (reachable_after _) (e := addThenLoad)).2 _ (by decide +kernel)⟩

end ExecutionGraph

end Wmm

end LTest
