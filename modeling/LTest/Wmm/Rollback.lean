import LTest.Wmm.Progress

/-!
# Rejected attempts

A reading call tries its candidates one after the other, and a candidate the consistency test
rejects is undone before the next one is tried. This file says what is undone: all edges, the
table of last seq-cst writes, and the choice of the event, so that a compare-exchange starts each
attempt with the `*expected` it was called with. What is not always undone is the clock of the
event: `TryCreateRfEdge` restores it only if the release-acquire rule changed it, and the seq-cst
rule changes it too.

## Main definitions

* `Graph.NoTrace` — two graphs agree on everything an attempt changes
* `Graph.ClockCovered` — the condition under which a rejected attempt leaves the clock alone

## Main results

* `ExecutionGraph.rejected_noTrace_iff` — which rejected attempts leave no trace
* `ExecutionGraph.compare_exchange_contract` — what a compare-exchange returns
-/

namespace LTest

namespace Wmm

variable {V : Type} {e : Event V}

/-- Uniting with a clock changes nothing exactly when that clock is contained already. -/
theorem VectorClock.uniteWith_eq_self_iff {c d : VectorClock}
    (h : c.times.length = d.times.length) : c.uniteWith d = c ↔ d.isSubsetOf c = true := by
  rw [isSubsetOf_iff]
  constructor
  · intro heq i
    have := time_uniteWith h i
    rw [heq] at this
    omega
  · intro hle
    obtain ⟨times⟩ := c
    refine congrArg VectorClock.mk (List.ext_getElem (by simp) fun i hi hi' => ?_)
    have := hle i
    simp [VectorClock.time, hi'] at this ⊢
    omega

/-- A compare-exchange whose choice is cleared is as it was before. -/
theorem Event.clearReadFrom_body_cas [DecidableEq V] [AtomicOps V] (h : e.Unresolved) (w : ℕ)
    (v : V) (c : CASRMW V) : (e.setReadFrom w v).clearReadFrom.body = .cas c ↔ e.body = .cas c := by
  rcases h.exists_body with hb | ⟨d, hb, hrf, hst, hexp⟩ | ⟨u, hb, -⟩
  · simp [setReadFrom, clearReadFrom, hb]
  · obtain ⟨readFrom, state, initial, expected, desired, failureOrder⟩ := d
    by_cases hv : v = initial <;> simp_all [setReadFrom, clearReadFrom]
  · simp [setReadFrom, clearReadFrom, hb]

theorem Event.setReadFrom_body_cas [DecidableEq V] [AtomicOps V] {c : CASRMW V}
    (h : e.body = .cas c) (w : ℕ) (v : V) :
    ∃ c', (e.setReadFrom w v).body = .cas c' ∧
      c'.initialExpectedValue = c.initialExpectedValue := by
  by_cases hv : v = c.initialExpectedValue
  · exact ⟨{ c with readFrom := some w, state := .modify }, by simp [setReadFrom, h, hv], rfl⟩
  · exact ⟨{ c with readFrom := some w, state := .read, expected := v },
      by simp [setReadFrom, h, hv], rfl⟩

theorem Event.isAtLeastAcquire_of_isSeqCst (h : e.isSeqCst = true) : e.isAtLeastAcquire = true := by
  rw [isSeqCst, decide_eq_true_eq] at h
  simp [isAtLeastAcquire, h, MemoryOrder.toNat]

namespace Graph

/-- What an attempt can change is the same in both graphs. -/
structure NoTrace (g₁ g₂ : Graph V) (n : ℕ) : Prop where
  /-- The edges. -/
  edges : g₂.edges = g₁.edges
  /-- Their lists. -/
  outEdges : g₂.outEdges = g₁.outEdges
  /-- What the event `n` reads from. -/
  readFrom : (g₂.event n).getReadFromEvent = (g₁.event n).getReadFromEvent
  /-- Its compare-exchange state. -/
  cas : ∀ c, (g₂.event n).body = .cas c ↔ (g₁.event n).body = .cas c
  /-- All clocks. -/
  clock : ∀ i, (g₂.event i).clock = (g₁.event i).clock
  /-- The last seq-cst writes. -/
  last : g₂.lastSeqCstWriteEvents = g₁.lastSeqCstWriteEvents

variable [DecidableEq V] [Inhabited V] [AtomicOps V]

/-- The read resolved to `write` is not seq-cst, or the release-acquire rule applies to it, or it
knows of the last seq-cst write of its location already. -/
def ClockCovered (g : Graph V) (write read : ℕ) : Prop :=
  ((g.event read).setReadFrom write (g.event write).getWrittenValue).isSeqCst = true →
    ((g.event write).isAtLeastRelease = true ∧ (g.event write).isSeqCst = false) ∨
      ∀ last, g.lastSeqCstWriteEvents (g.event read).location = some last →
        (g.event last).happensBefore (g.event read) = true

section Attempts

variable {g g₁ : Graph V} {ev : Event V} {cs : List ℕ}

variable {last : ℤ → Option ℕ} {write w₀ : ℕ}

theorem reject_edges (hg : g.WellFormed) (h : Sketch g [] false g₁ ev [] last)
    (hw : write < g.events.length) (hlast : last ev.location = some w₀)
    (hw₀ : w₀ < g.events.length) :
    (g₁.reject write ev.id).edges = g₁.edges ∧ (g₁.reject write ev.id).outEdges = g₁.outEdges := by
  have hatt := sketch_attempt hg h hw hlast hw₀
  have hedges := discardSnapshot_edges hatt.snapshot hatt.indexed hatt.mode
  have hout := discardSnapshot_outEdges hatt.snapshot h.indexed hatt.indexed hatt.mode
  unfold reject
  generalize (g₁.attempt write ev.id).discardSnapshot = g₂ at hedges hout ⊢
  dsimp only
  split
  · exact ⟨hedges, hout⟩
  · exact ⟨hedges, hout⟩

/-- A rejected attempt leaves no trace exactly when it leaves the clock of the event alone. -/
theorem noTrace_reject_iff (hg : g.WellFormed) (h : Sketch g [] false g₁ ev [] last)
    (hu : ev.Unresolved) (hw : write < g.events.length) (hlast : last ev.location = some w₀)
    (hw₀ : w₀ < g.events.length) :
    NoTrace g₁ (g₁.reject write ev.id) ev.id ↔
      (g.rejectedEvent last ev write).clock = ev.clock := by
  have hrej := sketch_rejectedEvent hg h hw hlast hw₀
  have hid : (g.rejectedEvent last ev write).id = ev.id := by simp [rejectedEvent]
  have hself : (g₁.reject write ev.id).event ev.id = g.rejectedEvent last ev write := by
    have := hrej.event_self
    rwa [hid] at this
  obtain ⟨hedges, hout⟩ := reject_edges hg h hw hlast hw₀
  constructor
  · intro hno
    have := hno.clock ev.id
    rwa [hself, h.event_self] at this
  · intro hclock
    refine ⟨hedges, hout, ?_, fun c => ?_, fun i => ?_, by rw [hrej.last, h.last]⟩
    · rw [hself, h.event_self, hu.getReadFromEvent]
      exact (Event.unresolved_clearReadFrom hu write _).getReadFromEvent
    · rw [hself, h.event_self]
      exact Event.clearReadFrom_body_cas hu write _ c
    · rcases Nat.lt_trichotomy i ev.id with hi | rfl | hi
      · rw [h.id] at hi
        rw [hrej.event_of_lt hi, h.event_of_lt hi]
      · rw [hself, h.event_self, hclock]
      · rw [hrej.event_of_gt (hid.symm ▸ hi), h.event_of_gt hi]

/-- When a rejected attempt leaves the clock of the event alone. -/
theorem rejectedEvent_clock_eq_iff (h : Sketch g [] false g₁ ev [] last)
    (hw : write < g.events.length) (hlast : last ev.location = some w₀) (hw₀ : w₀ < g.events.length)
    (hlen : ev.clock.times.length = (g.event w₀).clock.times.length) :
    (g.rejectedEvent last ev write).clock = ev.clock ↔ g₁.ClockCovered write ev.id := by
  rw [rejectedEvent_clock g ev write hlast, ClockCovered, h.event_self, h.event_of_lt hw, h.last,
    hlast]
  generalize ev.setReadFrom write (g.event write).getWrittenValue = r
  cases hsc : r.isSeqCst with
  | false => simp
  | true =>
    have hacq : r.isAtLeastAcquire = true := Event.isAtLeastAcquire_of_isSeqCst hsc
    have hsub : (∀ x, some w₀ = some x → (g₁.event x).happensBefore ev = true) ↔
        ev.clock.uniteWith (g.event w₀).clock = ev.clock := by
      rw [VectorClock.uniteWith_eq_self_iff hlen]
      simp only [Option.some.injEq, forall_eq', h.event_of_lt hw₀, Event.happensBefore]
    simp only [hsub, hacq, Bool.true_and, true_implies]
    cases (g.event write).isAtLeastRelease <;> cases (g.event write).isSeqCst <;> simp

end Attempts

end Graph

/-! ### Reading calls -/

namespace ExecutionGraph

variable [DecidableEq V] [Inhabited V] [AtomicOps V]

/-- **Which rejected attempts leave no trace.** In every reachable execution graph, for every
reading call, at every attempt and for every candidate: if the candidate is rejected, the graph
is as before exactly when the event does not resolve to a seq-cst access, or the candidate is a
release but not a seq-cst write, or the event knows of the last seq-cst write already. -/
theorem rejected_noTrace_iff {e : ExecutionGraph V} (h : Reachable e) {op : Op V}
    (hen : e.Enabled op) {ev : Event V} (hev : e.readingEvent op = some ev) {g₁ : Graph V}
    (hg₁ : Graph.Attempting e.graph ev (shuffled op) g₁) {w : ℕ} (hw : w ∈ shuffled op)
    (hrej : (g₁.tryCreateRfEdge w ev.id).1 = false) :
    Graph.NoTrace g₁ (g₁.tryCreateRfEdge w ev.id).2 ev.id ↔ g₁.ClockCovered w ev.id := by
  have hg := h.inv.graph
  obtain ⟨hs, -⟩ := h.inv.readSetup hen hev
  obtain ⟨w₀, hw₀lt, hw₀⟩ := hs.exists_last hg
  have hwlt := ((hs.candidates w).mp hw).1
  obtain ⟨ev₁, hsk, hr⟩ := hg₁.exists_sketch hg hs
  have hid : ev.id = ev₁.id := hr.id.symm
  have hlast : e.graph.lastSeqCstWriteEvents ev₁.location = some w₀ := by
    rw [hr.location]
    exact hw₀
  have hlen : ev₁.clock.times.length = (e.graph.event w₀).clock.times.length := by
    rw [hg.clock_length w₀ hw₀lt, ← (hs.nextClock hg).length]
    rcases hr.clock with hc | ⟨⟨x, -, hc⟩, -⟩
    · rw [hc]
    · rw [hc, VectorClock.length_uniteWith]
  rw [(Graph.tryCreateRfEdge_rejected hrej).2, hid,
    Graph.noTrace_reject_iff hg.wf hsk hr.unresolved hwlt hlast hw₀lt,
    Graph.rejectedEvent_clock_eq_iff hsk hwlt hlast hw₀lt hlen]

/-- A location written by both threads, the second time by a seq-cst store of thread 1. -/
abbrev storedTwice : ExecutionGraph (BitVec 32) :=
  after [.reset 2, .registerLocation 0, .store 0 1 .seqCst 1]

/-- Thread 1 loads the location it has written, with a relaxed load, and tries the initial value
first: that attempt is rejected and leaves no trace. -/
theorem relaxed_load_noTrace :
    Graph.NoTrace (storedTwice.graph.createPoEdgeToEvent (storedTwice.graph.readEvent 0 1 .relaxed))
      ((storedTwice.graph.createPoEdgeToEvent
        (storedTwice.graph.readEvent 0 1 .relaxed)).tryCreateRfEdge 2 4).2 4 :=
  (rejected_noTrace_iff (reachable_after _)
    (show storedTwice.Enabled (.load 0 1 .relaxed [2, 3]) by decide +kernel) rfl .start (w := 2)
    (by decide) (by decide +kernel)).mpr fun h => absurd h (by decide +kernel)

/-- Thread 0 loads the same location with a seq-cst load and tries the initial value first: the
attempt is rejected, but the clock of the load has taken over that of thread 1's store. -/
theorem seqCst_load_leaves_clock :
    Reachable storedTwice ∧ storedTwice.Enabled (.load 0 0 .seqCst [2, 3]) ∧
      storedTwice.readingEvent (.load 0 0 .seqCst [2, 3]) =
        some (storedTwice.graph.readEvent 0 0 .seqCst) ∧
      (let g := storedTwice.graph.createPoEdgeToEvent (storedTwice.graph.readEvent 0 0 .seqCst)
       (g.tryCreateRfEdge 2 4).1 = false ∧ (g.event 4).clock = ⟨[2, 0]⟩ ∧
         ((g.tryCreateRfEdge 2 4).2.event 4).clock = ⟨[2, 1]⟩) :=
  ⟨reachable_after _, by decide +kernel, rfl, by decide +kernel⟩

/-! ### Compare-exchange -/

section CompareExchange

variable {e : ExecutionGraph V} {location threadId : ℕ} {expected desired : V}
  {success failure : MemoryOrder} {cs : List ℕ}

/-- Every attempt of a compare-exchange begins with the caller's `*expected`. -/
theorem expected_of_attempting (h : Reachable e)
    (hen : e.Enabled (.readModifyWrite location threadId expected desired success failure cs))
    {g₁ : Graph V} (hg₁ : Graph.Attempting e.graph
      (e.graph.casEvent location threadId expected desired success failure) cs g₁) :
    ∃ c, (g₁.event e.graph.events.length).body = .cas c ∧
      c.expected = c.initialExpectedValue ∧ c.initialExpectedValue = expected := by
  obtain ⟨hs, -⟩ := h.inv.readSetup hen rfl
  obtain ⟨ev₁, hsk, hr⟩ := hg₁.exists_sketch h.inv.graph hs
  have hid : e.graph.events.length = ev₁.id := hr.id.symm
  rw [hid, hsk.event_self]
  -- the event resolves like the one the call created, so it is a compare-exchange as well
  have hset := congrArg Event.body (hr.setReadFrom 0 expected)
  obtain ⟨c, hc, hinit⟩ := Event.setReadFrom_body_cas (e := e.graph.fresh
    (e.graph.casEvent location threadId expected desired success failure)) rfl 0 expected
  rw [show Event.body _ = _ from hc] at hset
  rcases hr.unresolved.exists_body with hb | ⟨c₁, hb, -, -, hexp⟩ | ⟨u, hb, -⟩
  · simp [Event.setReadFrom, hb] at hset
  · obtain ⟨c₂, hc₂, hinit₂⟩ := Event.setReadFrom_body_cas hb 0 expected
    rw [hc₂] at hset
    cases hset
    exact ⟨c₁, hb, hexp, hinit₂.symm.trans hinit⟩
  · simp [Event.setReadFrom, hb] at hset

/-- **What a compare-exchange returns**, whatever candidates it has rejected before: the value `v`
written by the candidate it reads from, with `true` if that is the value the caller expected, and
then `*expected` is as before and the event writes `desired`; with `false` otherwise, and then
`*expected` is `v` and the event is a read. At the start of every attempt `*expected` is the
caller's value. -/
theorem compare_exchange_contract (h : Reachable e)
    (hen : e.Enabled (.readModifyWrite location threadId expected desired success failure cs)) :
    (∃ e' ok v exp, e.exec (.readModifyWrite location threadId expected desired success failure
        cs) = some (e', .rmw ok v exp) ∧
      (∃ w ∈ cs, (e'.graph.event e.graph.events.length).getReadFromEvent = some w ∧
        v = (e.graph.event w).getWrittenValue) ∧
      (ok = true ∧ v = expected ∧ exp = expected ∧
          (e'.graph.event e.graph.events.length).modifies = true ∧
          (e'.graph.event e.graph.events.length).getWrittenValue = desired ∨
        ok = false ∧ v ≠ expected ∧ exp = v ∧
          (e'.graph.event e.graph.events.length).modifies = false ∧
          (e'.graph.event e.graph.events.length).isReadRWM = true ∧
          e'.graph.getReadValue e.graph.events.length = v)) ∧
    ∀ g₁, Graph.Attempting e.graph
        (e.graph.casEvent location threadId expected desired success failure) cs g₁ →
      ∃ c, (g₁.event e.graph.events.length).body = .cas c ∧
        c.expected = c.initialExpectedValue ∧ c.initialExpectedValue = expected := by
  refine ⟨?_, fun g₁ hg₁ => expected_of_attempting h hen hg₁⟩
  obtain ⟨hs, -⟩ := h.inv.readSetup hen rfl
  obtain ⟨g', hg'⟩ := Option.ne_none_iff_exists'.mp (hs.addReadingEvent_ne_none h.inv.graph)
  obtain ⟨w, hw, ev₁, hacc⟩ := hs.of_some h.inv.graph hg'
  have hwlt := ((hs.candidates w).mp hw).1
  obtain ⟨c, hc⟩ := hacc.retry.exists_attemptEvent w
  have hev := hacc.growth.event_length.trans hc
  have hold := hacc.growth.event_of_lt hwlt
  rw [exec_of_readingEvent rfl, show Graph.addReadingEvent _ _ _ = _ from hg', Option.map_some]
  have hval : ∀ c, (g'.event e.graph.events.length).body = .cas c → c.readFrom = some w →
      g'.getReadValue e.graph.events.length = (e.graph.event w).getWrittenValue := by
    intro c hbody hrf
    simp only [Graph.getReadValue, hbody, hrf, Option.getD_some, hold]
  by_cases hv : (e.graph.event w).getWrittenValue = expected
  · -- the candidate holds the expected value: the event modifies
    have hbody : (g'.event e.graph.events.length).body = .cas
        { readFrom := some w, state := .modify, initialExpectedValue := expected,
          expected := expected, desired := desired, failureOrder := failure } := by
      rw [hev]
      simp [Event.setReadFrom, Graph.fresh, Graph.casEvent, hv]
    refine ⟨{ e with graph := g' }, true, _, expected, ?_, ⟨w, hw, ?_, rfl⟩,
      .inl ⟨rfl, hv, rfl, ?_, ?_⟩⟩
    · simp only [readResult, hval _ hbody rfl, Event.isModifyRMW, Event.expectedValue, hbody,
        decide_true]
    · simp [Event.getReadFromEvent, hbody]
    · simp [Event.modifies, Event.isModifyRMW, hbody]
    · simp [Event.getWrittenValue, hbody]
  · -- any other value: the event is a read, and the caller is told the value
    have hbody : (g'.event e.graph.events.length).body = .cas
        { readFrom := some w, state := .read, initialExpectedValue := expected,
          expected := (e.graph.event w).getWrittenValue, desired := desired,
          failureOrder := failure } := by
      rw [hev]
      simp [Event.setReadFrom, Graph.fresh, Graph.casEvent, hv]
    refine ⟨{ e with graph := g' }, false, _, _, ?_, ⟨w, hw, ?_, rfl⟩,
      .inr ⟨rfl, hv, rfl, ?_, ?_, hval _ hbody rfl⟩⟩
    · simp [readResult, hval _ hbody rfl, Event.isModifyRMW, Event.expectedValue, hbody]
    · simp [Event.getReadFromEvent, hbody]
    · simp [Event.modifies, Event.isWrite, Event.isModifyRMW, Event.type, hbody]
    · simp [Event.isReadRWM, hbody]

/-- A compare-exchange that expects the initial value of the location thread 1 has written. -/
theorem compare_exchange_storedTwice :
    storedTwice.Enabled (.readModifyWrite 0 0 0 5 .seqCst .seqCst [2, 3]) ∧
    ∃ e' ok v exp, storedTwice.exec (.readModifyWrite 0 0 0 5 .seqCst .seqCst [2, 3]) =
      some (e', .rmw ok v exp) ∧ (ok = true ∧ exp = 0 ∨ ok = false ∧ exp = v) := by
  have hen : storedTwice.Enabled (.readModifyWrite 0 0 0 5 .seqCst .seqCst [2, 3]) := by
    decide +kernel
  obtain ⟨e', ok, v, exp, hexec, -, h⟩ := (compare_exchange_contract (reachable_after _) hen).1
  refine ⟨hen, e', ok, v, exp, hexec, ?_⟩
  rcases h with ⟨hok, -, hexp, -⟩ | ⟨hok, -, hexp, -⟩
  · exact .inl ⟨hok, hexp⟩
  · exact .inr ⟨hok, hexp⟩

end CompareExchange

end ExecutionGraph

end Wmm

end LTest
