import LTest.Wmm.RaceFree
import LTest.Wmm.Rollback

/-!
# Vector clocks and paths

`HappensBefore` compares vector clocks. This file compares it with the edges of the graph: as long
as no compare-exchange is made, one event happens before another exactly when there is a path of
program-order edges, seq-cst edges, and read-from edges from a release write to an acquire read.

A seq-cst read of a seq-cst write is the case in which the clock of the write is not united with
that of the read. The read then reads from the last seq-cst write of its location, since anything
older would close a cycle, and the seq-cst edge comes from there.

## Main definitions

* `Graph.links` — the edges other than modification-order edges
* `Graph.SyncEdge` — an edge along which clocks are passed on
* `Graph.Charted` — clocks and paths agree

## Main results

* `Graph.links_addWriteEvent`, `Graph.links_attempt` — the edges of a store and of an attempt
* `Graph.Growth.charted` — one call
* `ExecutionGraph.happensBefore_iff_path` — every run without compare-exchanges
-/

namespace LTest

namespace Wmm

open Relation

variable {V : Type}

theorem Event.isWriteOrRMW_of_modifies {e : Event V} (h : e.modifies = true) :
    e.isWriteOrRMW = true := by
  obtain ⟨id, location, threadId, order, clock, body⟩ := e
  cases body with
  | dummy => simp [Event.modifies, isWrite, isModifyRMW, type] at h
  | read rf => simp [Event.modifies, isWrite, isModifyRMW, type] at h
  | _ => rfl

namespace Graph

/-! ### Edges other than modification-order edges -/

variable {g g' : Graph V}

/-- The type and the ends of the edges other than modification-order edges, in the order they were
drawn. -/
def links (g : Graph V) : List (EdgeType × ℕ × ℕ) :=
  (g.edges.filter fun e => e.type ≠ .mo).map fun e => (e.type, e.source, e.target)

theorem links_congr (h : g'.edges = g.edges) : g'.links = g.links := by
  rw [links, links, h]

@[simp] theorem links_applySnapshot (g : Graph V) : g.applySnapshot.links = g.links :=
  links_congr rfl

@[simp] theorem links_addEdge_mo (g : Graph V) (a b : ℕ) : (g.addEdge .mo a b).links = g.links := by
  rcases addEdge_cases g .mo a b with ⟨heq, -⟩ | ⟨heq, -⟩
  · rw [heq]
  · rw [heq, links, links, List.filter_append, List.map_append]
    simp

theorem links_addEdge (g : Graph V) {type : EdgeType} (ht : type ≠ .mo) (a b : ℕ) :
    (g.addEdge type a b).links = g.links ++ [(type, a, b)] := by
  rcases addEdge_cases g type a b with ⟨-, hmo, -⟩ | ⟨heq, -⟩
  · exact absurd hmo ht
  · rw [heq, links, links, List.filter_append, List.map_append]
    simp [ht]

/-- What the drawing of modification-order edges leaves as it was. -/
structure SameLinks (g g' : Graph V) : Prop where
  links : g'.links = g.links
  events : g'.events = g.events
  last : g'.lastSeqCstWriteEvents = g.lastSeqCstWriteEvents

theorem SameLinks.refl (g : Graph V) : SameLinks g g := ⟨rfl, rfl, rfl⟩

section

variable (h : SameLinks g g')
include h

theorem SameLinks.addEdge (a b : ℕ) : SameLinks g (g'.addEdge .mo a b) :=
  ⟨by simpa using h.links, by simpa using h.events, by simpa using h.last⟩

theorem SameLinks.event (i : ℕ) : g'.event i = g.event i := by
  rw [Graph.event, Graph.event, h.events]

theorem SameLinks.iterate {predicate : Graph V → Event V → Bool}
    {callback : Graph V → Event V → Graph V}
    (hc : ∀ g' o, SameLinks g g' → SameLinks g (callback g' o)) :
    SameLinks g (g'.iterateThroughMostRecentEventsByPredicate predicate callback) := by
  unfold iterateThroughMostRecentEventsByPredicate
  generalize List.range g'.nThreads = ts
  induction ts generalizing g' with
  | nil => exact h
  | cons t ts ih =>
    rw [List.foldl_cons]
    split
    · exact ih (hc g' _ h)
    · exact ih h

theorem SameLinks.createSeqCstReadWriteCoherenceEdges (write read : ℕ) :
    SameLinks g (g'.createSeqCstReadWriteCoherenceEdges write read) := by
  unfold Graph.createSeqCstReadWriteCoherenceEdges
  split
  · exact h
  · split
    · exact h
    · exact h.addEdge _ _

theorem SameLinks.createSeqCstConsistencyEdges (event : ℕ) :
    SameLinks g (g'.createSeqCstConsistencyEdges event) := by
  unfold Graph.createSeqCstConsistencyEdges
  split
  · exact h
  · exact h.addEdge _ _

theorem SameLinks.createWriteReadCoherenceEdges (write read : ℕ) :
    SameLinks g (g'.createWriteReadCoherenceEdges write read) :=
  h.iterate fun _ _ h' => h'.addEdge _ _

theorem SameLinks.createReadReadCoherenceEdges (write read : ℕ) :
    SameLinks g (g'.createReadReadCoherenceEdges write read) :=
  h.iterate fun _ _ h' => h'.addEdge _ _

theorem SameLinks.createReadWriteCoherenceEdges (event : ℕ) :
    SameLinks g (g'.createReadWriteCoherenceEdges event) :=
  h.iterate fun _ _ h' => h'.addEdge _ _

theorem SameLinks.createWriteWriteCoherenceEdges (event : ℕ) :
    SameLinks g (g'.createWriteWriteCoherenceEdges event) :=
  h.iterate fun _ _ h' => h'.addEdge _ _

theorem SameLinks.createRmwAtomicityEdges (write rmw : ℕ) :
    SameLinks g (g'.createRmwAtomicityEdges write rmw) := by
  unfold Graph.createRmwAtomicityEdges
  generalize g'.outEdges write = ids
  induction ids generalizing g' with
  | nil => exact h
  | cons i ids ih =>
    rw [List.foldl_cons]
    split
    · exact ih (h.addEdge _ _)
    · exact ih h

end

/-- The edge of `CreateScEdgeToEvent`. -/
def scLinks (last : ℤ → Option ℕ) (location : ℤ) (event : ℕ) : List (EdgeType × ℕ × ℕ) :=
  match last location with
  | none => []
  | some lastWrite => [(EdgeType.sc, lastWrite, event)]

theorem links_createScEdgeToEvent (g : Graph V) (event : ℕ) :
    (g.createScEdgeToEvent event).links =
      g.links ++ scLinks g.lastSeqCstWriteEvents (g.event event).location event := by
  unfold createScEdgeToEvent getLastSeqCstWriteEventId scLinks
  cases g.lastSeqCstWriteEvents (g.event event).location with
  | none => simp
  | some lastWrite => exact g.links_addEdge (show EdgeType.sc ≠ .mo by decide) lastWrite event

theorem links_createPoEdgeToEvent (g : Graph V) (event : Event V) :
    (g.createPoEdgeToEvent event).links =
      g.links ++ [(EdgeType.po, (g.eventsPerThread event.threadId).getLastD 0, event.id)] :=
  g.links_addEdge (by decide) _ event.id

theorem links_addWriteEvent (hg : g.WellFormed) (location : ℤ) (threadId : ℕ) (order : MemoryOrder)
    (value : V) :
    (g.addWriteEvent location threadId order value).links =
      g.links ++ [(EdgeType.po, (g.eventsPerThread threadId).getLastD 0, g.events.length)] ++
        if order = .seqCst then scLinks g.lastSeqCstWriteEvents location g.events.length
        else [] := by
  have hpo := g.links_createPoEdgeToEvent (g.writeEvent location threadId order value)
  have hsk := sketch_createPoEdgeToEvent hg
    (show (g.writeEvent location threadId order value).id = g.events.length from rfl)
  have hself : (g.createPoEdgeToEvent (g.writeEvent location threadId order value)).event
      g.events.length = { g.writeEvent location threadId order value with
        clock := g.nextClock threadId } := hsk.event_self
  unfold addWriteEvent
  dsimp only
  rw [(((SameLinks.refl _).createReadWriteCoherenceEdges _).createWriteWriteCoherenceEdges _).links]
  by_cases ho : order = .seqCst
  · rw [if_pos ho, if_pos ho]
    refine (links_congr rfl).trans
      (((SameLinks.refl _).createSeqCstConsistencyEdges _).links.trans ?_)
    rw [links_createScEdgeToEvent, hpo, hself, hsk.last]
    rfl
  · rw [if_neg ho, if_neg ho, List.append_nil]
    exact hpo

theorem links_createReadFromRuleEdges (g : Graph V) (write read : ℕ) :
    (g.createReadFromRuleEdges write read).links =
      g.links ++ if (g.event read).isSeqCst then
        scLinks g.lastSeqCstWriteEvents (g.event read).location read else [] := by
  unfold createReadFromRuleEdges
  split
  · dsimp only
    rw [(((SameLinks.refl _).createWriteReadCoherenceEdges _ _).createReadReadCoherenceEdges _
      _).links]
    split
    · rw [((SameLinks.refl _).createSeqCstReadWriteCoherenceEdges _ _).links,
        links_createScEdgeToEvent]
    · simp
  · have hrmw : SameLinks g ((g.createRmwConsistencyEdges write read).createRmwAtomicityEdges write
        read) := ((SameLinks.refl g).addEdge write read).createRmwAtomicityEdges write read
    dsimp only
    rw [((((SameLinks.refl _).createWriteReadCoherenceEdges _ _).createReadReadCoherenceEdges _
      _).createReadWriteCoherenceEdges _ |>.createWriteWriteCoherenceEdges _).links, hrmw.event]
    split
    · refine (links_congr rfl).trans ((((SameLinks.refl _).createSeqCstReadWriteCoherenceEdges _
        _).createSeqCstConsistencyEdges _).links.trans ?_)
      rw [links_createScEdgeToEvent, hrmw.links, hrmw.last, hrmw.event]
    · rw [hrmw.links, List.append_nil]

section Read

variable [DecidableEq V] [Inhabited V] [AtomicOps V] {b g : Graph V} {ev : Event V}
  {last : ℤ → Option ℕ} {write w₀ : ℕ}

theorem links_attempt (h : Sketch b [] false g ev [] last) (hw : write < b.events.length)
    (hlast : last ev.location = some w₀) :
    (g.attempt write ev.id).links = g.links ++ [(EdgeType.rf, write, ev.id)] ++
      if (b.attemptEvent last ev write).isSeqCst then [(EdgeType.sc, w₀, ev.id)] else [] := by
  obtain ⟨c, hc⟩ := exists_synchronizedEvent b
    (ev.setReadFrom write (b.event write).getWrittenValue) write
  obtain ⟨d, hd⟩ := exists_attemptEvent b last ev write
  have hsync := (sketch_beginAttempt h hw hlast).synchronize hw
  rw [Event.setReadFrom_id] at hsync
  have hself := hsync.event_self
  rw [show (b.synchronizedEvent (ev.setReadFrom write (b.event write).getWrittenValue) write).id =
    ev.id by rw [hc]; simp] at hself
  have hlinks : ((g.beginAttempt write ev.id).synchronize write ev.id).links =
      g.links ++ [(EdgeType.rf, write, ev.id)] := by
    have hrf := g.startSnapshot.links_addEdge (show EdgeType.rf ≠ .mo by decide) write ev.id
    unfold Graph.synchronize
    split
    · exact hrf
    · exact hrf
  have hloc : (ev.setReadFrom write (b.event write).getWrittenValue).location = ev.location := by
    simp
  rw [attempt, links_createReadFromRuleEdges, hself, hlinks, hsync.last, hd, hc, scLinks]
  dsimp only
  rw [hloc, hlast]
  rfl

/-! ### The candidate that is accepted -/

variable {cs : List ℕ}

theorem Attempting.links {g₁ : Graph V} (h : Attempting g ev cs g₁) (hg : g.Inv)
    (hs : ReadSetup g ev cs) :
    g₁.links = g.links ++ [(EdgeType.po, (g.eventsPerThread ev.threadId).getLastD 0, ev.id)] := by
  obtain ⟨w₀, hw₀lt, hw₀⟩ := hs.exists_last hg
  induction h with
  | start => exact g.links_createPoEdgeToEvent ev
  | @retry g₁ w h₁ hw hrej ih =>
    obtain ⟨ev₁, hsk, hr⟩ := h₁.exists_sketch hg hs
    have hid : ev.id = ev₁.id := hr.id.symm
    have hlast : g.lastSeqCstWriteEvents ev₁.location = some w₀ := by
      rw [hr.location]
      exact hw₀
    have hedges := (reject_edges hg.wf hsk ((hs.candidates w).mp hw).1 hlast hw₀lt).1
    rw [← hid] at hedges
    rw [(tryCreateRfEdge_rejected hrej).2, links_congr hedges, ih]

end Read

/-! ### What a new event knows -/

variable {ev : Event V}

theorem happensBefore_scEvent {last : ℤ → Option ℕ} {w₀ : ℕ} (hlast : last ev.location = some w₀)
    (hlen : ev.clock.times.length = (g.event w₀).clock.times.length) :
    (g.event w₀).happensBefore (scEvent g last ev) = true ∧
      ev.happensBefore (scEvent g last ev) = true := by
  have hsc : scEvent g last ev = { ev with clock := ev.clock.uniteWith (g.event w₀).clock } := by
    rw [scEvent, hlast]
  rw [hsc]
  refine ⟨Event.happensBefore_iff.mpr fun t => ?_, Event.happensBefore_iff.mpr fun t => ?_⟩
  · rw [VectorClock.time_uniteWith hlen]
    exact Nat.le_max_right ..
  · rw [VectorClock.time_uniteWith hlen]
    exact Nat.le_max_left ..

section Read

variable [DecidableEq V] [Inhabited V] [AtomicOps V]

/-- An attempt that resolves to a seq-cst access knows the last seq-cst write, and one to which the
release-acquire rule applies knows the write it reads from. -/
theorem known_attemptEvent {write w₀ : ℕ} (hg : g.Settled) {t : ℕ} (hnext : NextClock g t ev.clock)
    (hw : write < g.events.length) (hlast : g.lastSeqCstWriteEvents ev.location = some w₀) :
    ((g.attemptEvent g.lastSeqCstWriteEvents ev write).isSeqCst = true →
      (g.event w₀).happensBefore (g.attemptEvent g.lastSeqCstWriteEvents ev write) = true) ∧
    ((g.attemptEvent g.lastSeqCstWriteEvents ev write).isAtLeastAcquire = true →
      (g.event write).isAtLeastRelease = true →
      ¬ ((g.attemptEvent g.lastSeqCstWriteEvents ev write).isSeqCst = true ∧
        (g.event write).isSeqCst = true) →
      (g.event write).happensBefore (g.attemptEvent g.lastSeqCstWriteEvents ev write) = true) := by
  set r := ev.setReadFrom write (g.event write).getWrittenValue with hr
  have hw₀ := (hg.last _ _ hlast).1
  have hnext₁ : NextClock g t (g.synchronizedEvent r write).clock :=
    NextClock.synchronizedEvent hg (by simpa [hr] using hnext) hw
  obtain ⟨c, hc⟩ := exists_synchronizedEvent g r write
  have hlast₁ : g.lastSeqCstWriteEvents (g.synchronizedEvent r write).location = some w₀ := by
    rw [hc]
    simpa [hr] using hlast
  have hsc := happensBefore_scEvent hlast₁ (hnext₁.length.trans (hg.clock_length w₀ hw₀).symm)
  have hle : (g.synchronizedEvent r write).happensBefore
      (g.attemptEvent g.lastSeqCstWriteEvents ev write) = true := by
    rw [attemptEvent, ← hr]
    split
    · exact hsc.2
    · exact Event.happensBefore_iff.mpr fun _ => Nat.le_refl _
  obtain ⟨d, hd⟩ := exists_attemptEvent g g.lastSeqCstWriteEvents ev write
  have hseq : (g.attemptEvent g.lastSeqCstWriteEvents ev write).isSeqCst = r.isSeqCst := by
    rw [hd]; rfl
  have hacq : (g.attemptEvent g.lastSeqCstWriteEvents ev write).isAtLeastAcquire =
      r.isAtLeastAcquire := by
    rw [hd]; rfl
  constructor
  · intro hs
    have hs' : (g.synchronizedEvent r write).isSeqCst = true := by
      rw [hc]
      exact hseq ▸ hs
    rw [attemptEvent, ← hr, if_pos hs']
    exact hsc.1
  · intro ha hrel hboth
    refine Event.happensBefore_trans (Event.happensBefore_iff.mpr fun s => ?_) hle
    rw [hseq] at hboth
    have hsync : (r.isAtLeastAcquire && (g.event write).isAtLeastRelease &&
        !(r.isSeqCst && (g.event write).isSeqCst)) = true := by
      rw [← hacq, ha, hrel]
      cases hrs : r.isSeqCst with
      | false => rfl
      | true => simpa [hrs] using hboth
    rw [synchronizedEvent, if_pos hsync]
    dsimp only
    rw [VectorClock.time_uniteWith]
    · exact Nat.le_max_right ..
    · rw [hr, Event.setReadFrom_clock, hnext.length, hg.clock_length write hw]

end Read

/-! ### Paths -/

variable {a : ℕ} {t : EdgeType} {b : ℕ}

/-- An edge along which clocks are passed on: a program-order edge, a seq-cst edge, or a read-from
edge from a write or read-modify-write that is at least release to a read or read-modify-write
that is at least acquire. -/
def SyncEdge (g : Graph V) (a b : ℕ) : Prop :=
  ∃ e ∈ g.edges, e.source = a ∧ e.target = b ∧ (e.type = .po ∨ e.type = .sc ∨ e.type = .rf ∧
    (g.event a).isWriteOrRMW = true ∧ (g.event a).isAtLeastRelease = true ∧
    (g.event b).isReadOrRMW = true ∧ (g.event b).isAtLeastAcquire = true)

theorem syncEdge_iff :
    g.SyncEdge a b ↔
    (.po, a, b) ∈ g.links ∨ (.sc, a, b) ∈ g.links ∨ (.rf, a, b) ∈ g.links ∧
      (g.event a).isWriteOrRMW = true ∧ (g.event a).isAtLeastRelease = true ∧
      (g.event b).isReadOrRMW = true ∧ (g.event b).isAtLeastAcquire = true := by
  have hmem : ∀ {t : EdgeType}, t ≠ .mo → ((t, a, b) ∈ g.links ↔
      ∃ e ∈ g.edges, e.source = a ∧ e.target = b ∧ e.type = t) := by
    intro t ht
    simp only [links, List.mem_map, List.mem_filter, decide_eq_true_eq, Prod.mk.injEq]
    constructor
    · rintro ⟨e, ⟨he, -⟩, rfl, rfl, rfl⟩
      exact ⟨e, he, rfl, rfl, rfl⟩
    · rintro ⟨e, he, rfl, rfl, rfl⟩
      exact ⟨e, ⟨he, ht⟩, rfl, rfl, rfl⟩
  rw [hmem (by decide), hmem (by decide), hmem (by decide)]
  constructor
  · rintro ⟨e, he, ha, hb, ht | ht | ⟨ht, hrest⟩⟩
    · exact .inl ⟨e, he, ha, hb, ht⟩
    · exact .inr (.inl ⟨e, he, ha, hb, ht⟩)
    · exact .inr (.inr ⟨⟨e, he, ha, hb, ht⟩, hrest⟩)
  · rintro (⟨e, he, ha, hb, ht⟩ | ⟨e, he, ha, hb, ht⟩ | ⟨⟨e, he, ha, hb, ht⟩, hrest⟩)
    · exact ⟨e, he, ha, hb, .inl ht⟩
    · exact ⟨e, he, ha, hb, .inr (.inl ht)⟩
    · exact ⟨e, he, ha, hb, .inr (.inr ⟨ht, hrest⟩)⟩

/-- The edges other than modification-order edges that are drawn to the new event `ev`: from the
last event of its thread, from the last seq-cst write of its location if it is seq-cst, and from
the event it reads from. -/
def NewLink (g : Graph V) (ev : Event V) : EdgeType → ℕ → Prop
  | .po, a => a = (g.eventsPerThread ev.threadId).getLastD 0
  | .sc, a => ev.isSeqCst = true ∧ g.lastSeqCstWriteEvents ev.location = some a
  | .rf, a => ev.getReadFromEvent = some a
  | .mo, _ => False

/-- The same edges as a list, in the order they are drawn. -/
def newLinks (g : Graph V) (ev : Event V) : List (EdgeType × ℕ × ℕ) :=
  [(EdgeType.po, (g.eventsPerThread ev.threadId).getLastD 0, ev.id)] ++
    (match ev.getReadFromEvent with
      | none => []
      | some w => [(EdgeType.rf, w, ev.id)]) ++
    if ev.isSeqCst then scLinks g.lastSeqCstWriteEvents ev.location ev.id else []

theorem mem_newLinks : (t, a, b) ∈ g.newLinks ev ↔ b = ev.id ∧ NewLink g ev t a := by
  have hsc : (t, a, b) ∈ (if ev.isSeqCst then
      scLinks g.lastSeqCstWriteEvents ev.location ev.id else []) ↔
      ev.isSeqCst = true ∧ t = .sc ∧ b = ev.id ∧
        g.lastSeqCstWriteEvents ev.location = some a := by
    cases ev.isSeqCst with
    | false => simp
    | true =>
      unfold scLinks
      cases g.lastSeqCstWriteEvents ev.location with
      | none => simp
      | some w => simp [eq_comm, and_comm]
  have hrf : (t, a, b) ∈ (match ev.getReadFromEvent with
      | none => []
      | some w => [(EdgeType.rf, w, ev.id)]) ↔
      t = .rf ∧ b = ev.id ∧ ev.getReadFromEvent = some a := by
    cases ev.getReadFromEvent with
    | none => simp
    | some w => simp [eq_comm, and_comm]
  rw [newLinks, List.mem_append, List.mem_append, hsc, hrf]
  cases t <;> simp [NewLink, and_comm, and_left_comm]

/-- The new event `ev` gets an edge from `a` along which clocks are passed on. -/
def NewSync (g : Graph V) (ev : Event V) (a : ℕ) : Prop :=
  NewLink g ev .po a ∨ NewLink g ev .sc a ∨ NewLink g ev .rf a ∧
    (g.event a).isWriteOrRMW = true ∧ (g.event a).isAtLeastRelease = true ∧
    ev.isReadOrRMW = true ∧ ev.isAtLeastAcquire = true

/-- What a call does as far as happens-before is concerned: it draws the edges to the new event,
and the new event knows what the sources of its edges know. -/
structure Chart (g g' : Graph V) (ev : Event V) : Prop where
  links : g'.links = g.links ++ g.newLinks ev
  past : ∀ i < g.events.length, (g.event i).happensBefore ev = true →
    ∃ a, NewSync g ev a ∧ (g.event i).happensBefore (g.event a) = true
  known : ∀ a, NewSync g ev a → (g.event a).happensBefore ev = true

theorem Chart.mem_links (h : Chart g g' ev) :
    (t, a, b) ∈ g'.links ↔ (t, a, b) ∈ g.links ∨ b = ev.id ∧ NewLink g ev t a := by
  rw [h.links, List.mem_append, mem_newLinks]

/-- Clocks and paths agree. A dummy event is in the past of every event by its clock, and has no
edges to most of them. -/
structure Charted (g : Graph V) : Prop where
  lt : ∀ t a b, (t, a, b) ∈ g.links → a < b ∧ b < g.events.length
  path : ∀ i < g.events.length, ∀ j < g.events.length, i ≠ j → (g.event i).type ≠ .dummy →
    ((g.event i).happensBefore (g.event j) = true ↔ TransGen g.SyncEdge i j)

theorem charted_reset (g : Graph V) (n : ℕ) : (g.reset n).Charted where
  lt t a b h := by simp [links, reset] at h
  path i hi j _ _ hd := by
    rw [event_reset g n (by rwa [length_events_reset] at hi)] at hd
    exact absurd rfl hd

theorem Charted.syncEdge_lt (h : g.Charted) (hab : g.SyncEdge a b) :
    a < b ∧ b < g.events.length := by
  rcases syncEdge_iff.mp hab with hab | hab | ⟨hab, -⟩ <;> exact h.lt _ _ _ hab

theorem Charted.lt_of_path (h : g.Charted) (hab : TransGen g.SyncEdge a b) : a < b := by
  induction hab with
  | single hab => exact (h.syncEdge_lt hab).1
  | tail _ hbc ih => exact Nat.lt_trans ih (h.syncEdge_lt hbc).1

/-- The last seq-cst write of every location comes after all its other writes that satisfy `Q`. -/
def TopAmong (g : Graph V) (Q : Event V → Prop) : Prop :=
  ∀ x last, g.lastSeqCstWriteEvents x = some last → ∀ w < g.events.length,
    (g.event w).modifies = true → (g.event w).location = x → Q (g.event w) →
    w = last ∨ TransGen g.Mo w last

namespace Growth

variable {g g' : Graph V} {ev : Event V} {l : List (ℕ × ℕ)}

section

variable (h : Growth g g' ev l)
include h

/-- What goes on top of the writes satisfying `Q` stays there, as long as the new event, if it is
one of them, is seq-cst. -/
theorem topAmong (hg : g.Inv) {Q : Event V → Prop}
    (hQ : ev.modifies = true → Q ev → ev.isSeqCst = true) (htop : g.TopAmong Q) :
    g'.TopAmong Q := by
  intro x last hlast w hw hwm hwl hwQ
  by_cases hnew : ev.modifies = true ∧ ev.isSeqCst = true
  · rw [h.last_of_modifies hnew.2 hnew.1] at hlast
    by_cases hx : x = ev.location
    · subst hx
      rw [Function.update_self] at hlast
      obtain rfl := Option.some.inj hlast
      obtain hw | rfl := h.lt_or_eq hw
      · -- the new event comes after the former last write
        rw [h.event_of_lt hw] at hwm hwl hwQ
        obtain ⟨w₀, hw₀⟩ := Option.ne_none_iff_exists'.mp
          (hwl ▸ hg.registered w hw (hwl ▸ h.location_nonneg))
        have hedge : g'.Mo w₀ g.events.length :=
          h.id ▸ h.mo_of_mem hg.wf (h.seqCst_write hnew.1 hnew.2 w₀ hw₀)
        obtain rfl | hpath := htop _ w₀ hw₀ w hw hwm hwl hwQ
        · exact .inr (.single hedge)
        · exact .inr (.tail (h.mo_mono hg.wf hpath) hedge)
      · exact .inl rfl
    · rw [Function.update_of_ne hx] at hlast
      obtain hw | rfl := h.lt_or_eq hw
      · rw [h.event_of_lt hw] at hwm hwl hwQ
        exact (htop x last hlast w hw hwm hwl hwQ).imp_right (h.mo_mono hg.wf)
      · rw [h.event_length] at hwl
        exact absurd hwl.symm hx
  · have hsame : g'.lastSeqCstWriteEvents = g.lastSeqCstWriteEvents := by
      rw [h.last, lastAfter]
      split
      · rename_i hm
        rw [if_neg fun hsc => hnew ⟨hm, hsc⟩]
      · rfl
    rw [hsame] at hlast
    obtain hw | rfl := h.lt_or_eq hw
    · rw [h.event_of_lt hw] at hwm hwl hwQ
      exact (htop x last hlast w hw hwm hwl hwQ).imp_right (h.mo_mono hg.wf)
    · rw [h.event_length] at hwm hwQ
      exact absurd ⟨hwm, hQ hwm hwQ⟩ hnew

theorem newLink_lt (hg : g.Inv) (ha : NewLink g ev t a) : a < g.events.length := by
  cases t with
  | po =>
    obtain rfl : a = _ := ha
    exact (hg.wf.getLastD_spec h.thread_lt).1
  | sc => exact (hg.last _ _ ha.2).1
  | rf => exact (h.readFrom a ha).1
  | mo => exact ha.elim

theorem newSync_lt (hg : g.Inv) (ha : NewSync g ev a) : a < g.events.length := by
  rcases ha with ha | ha | ⟨ha, -⟩ <;> exact h.newLink_lt hg ha

theorem syncEdge_of_lt (hc : Chart g g' ev) (hch : g.Charted) (hb : b < g.events.length) :
    g'.SyncEdge a b ↔ g.SyncEdge a b := by
  have hid := h.id
  have hlinks : ∀ t, (t, a, b) ∈ g'.links ↔ (t, a, b) ∈ g.links := fun t => by
    rw [hc.mem_links]
    refine ⟨fun h => h.resolve_right fun h => by omega, .inl⟩
  rw [syncEdge_iff, syncEdge_iff, hlinks, hlinks, hlinks, h.event_of_lt hb]
  refine or_congr_right (or_congr_right (and_congr_right fun hrf => ?_))
  rw [h.event_of_lt (by have := hch.lt _ _ _ hrf; omega)]

theorem syncEdge_length (hg : g.Inv) (hc : Chart g g' ev) (hch : g.Charted) :
    g'.SyncEdge a g.events.length ↔ NewSync g ev a := by
  have hlinks : ∀ t, (t, a, g.events.length) ∈ g'.links ↔ NewLink g ev t a := fun t => by
    rw [hc.mem_links, h.id]
    refine ⟨fun h => h.elim (fun h => ?_) And.right, fun h => .inr ⟨rfl, h⟩⟩
    exact absurd (hch.lt _ _ _ h).2 (Nat.lt_irrefl _)
  rw [syncEdge_iff, hlinks, hlinks, hlinks, h.event_length, NewSync]
  refine or_congr_right (or_congr_right (and_congr_right fun hrf => ?_))
  rw [h.event_of_lt (h.newLink_lt hg hrf)]

theorem path_of_lt (hc : Chart g g' ev) (hch : g.Charted) (hb : b < g.events.length) :
    TransGen g'.SyncEdge a b ↔ TransGen g.SyncEdge a b := by
  constructor
  · intro hp
    induction hp with
    | single hab => exact .single ((h.syncEdge_of_lt hc hch hb).mp hab)
    | tail _ hbc ih =>
      have hedge := (h.syncEdge_of_lt hc hch hb).mp hbc
      have := hch.syncEdge_lt hedge
      exact .tail (ih (by omega)) hedge
  · refine TransGen.mono (fun a b hab => ?_) a b
    exact (h.syncEdge_of_lt hc hch (hch.syncEdge_lt hab).2).mpr hab

/-- Paths to the new event go through one of its edges. -/
theorem path_length (hg : g.Inv) (hc : Chart g g' ev) (hch : g.Charted) :
    TransGen g'.SyncEdge a g.events.length ↔
      ∃ k, NewSync g ev k ∧ (a = k ∨ TransGen g.SyncEdge a k) := by
  rw [TransGen.tail'_iff]
  refine exists_congr fun k => ?_
  rw [h.syncEdge_length hg hc hch, and_comm]
  refine and_congr_right fun hk => ?_
  rw [reflTransGen_iff_eq_or_transGen, h.path_of_lt hc hch (h.newSync_lt hg hk), eq_comm]

/-- **One call keeps clocks and paths in agreement.** -/
theorem charted (hg : g.Inv) (hc : Chart g g' ev) (hch : g.Charted) : g'.Charted where
  lt t a b hab := by
    have hid := h.id
    rw [h.length]
    rcases hc.mem_links.mp hab with hab | ⟨rfl, ha⟩
    · have := hch.lt t a b hab
      omega
    · have := h.newLink_lt hg ha
      omega
  path i hi j hj hij hd := by
    rcases h.lt_or_eq hj with hj | rfl
    · rw [h.path_of_lt hc hch hj, h.event_of_lt hj]
      rcases h.lt_or_eq hi with hi | rfl
      · rw [h.event_of_lt hi] at hd ⊢
        exact hch.path i hi j hj hij hd
      · -- nothing leads from the new event to an old one
        rw [h.event_length]
        refine ⟨fun hhb => absurd hhb (h.not_happensBefore hj), fun hp => ?_⟩
        obtain ⟨k, hk, -⟩ := TransGen.head'_iff.mp hp
        have := hch.syncEdge_lt hk
        omega
    · have hi : i < g.events.length := (h.lt_or_eq hi).resolve_right hij
      rw [h.event_of_lt hi] at hd ⊢
      rw [h.event_length, h.path_length hg hc hch]
      constructor
      · intro hhb
        obtain ⟨k, hk, hik⟩ := hc.past i hi hhb
        refine ⟨k, hk, or_iff_not_imp_left.mpr fun hne => ?_⟩
        exact (hch.path i hi k (h.newSync_lt hg hk) hne hd).mp hik
      · rintro ⟨k, hk, rfl | hik⟩
        · exact hc.known i hk
        · have hklt := h.newSync_lt hg hk
          have hne : i ≠ k := by
            rintro rfl
            exact absurd (hch.lt_of_path hik) (Nat.lt_irrefl i)
          exact Event.happensBefore_trans ((hch.path i hi k hklt hne hd).mpr hik) (hc.known k hk)

end

end Growth

/-! ### Calls -/

theorem chart_addWriteEvent (hg : g.Inv) {x : ℤ} {t : ℕ} (order : MemoryOrder) (value : V)
    (ht : t < g.nThreads) (hx : 0 ≤ x) (hreg : g.lastSeqCstWriteEvents x ≠ none ∨ order = .seqCst) :
    Chart g (g.addWriteEvent x t order value) (g.storeEvent x t order value) := by
  have hgrow := growth_addWriteEvent hg.toSettled order value ht hx hreg
  obtain ⟨c, hc⟩ := exists_storeEvent g x t order value
  have hid : (g.storeEvent x t order value).id = g.events.length := by rw [hc]; rfl
  have hthread : (g.storeEvent x t order value).threadId = t := by rw [hc]; rfl
  have hloc : (g.storeEvent x t order value).location = x := by rw [hc]; rfl
  have hrf : (g.storeEvent x t order value).getReadFromEvent = none := by rw [hc]; rfl
  have hsc : (g.storeEvent x t order value).isSeqCst = true ↔ order = .seqCst := by
    rw [hc]
    exact decide_eq_true_iff
  refine ⟨?_, fun i hi hhb => ?_, fun a ha => ?_⟩
  · rw [links_addWriteEvent hg.wf, newLinks, hid, hthread, hloc, hrf, List.append_assoc]
    simp only [hsc, List.append_nil]
  · rcases hg.of_happensBefore_storeEvent ht hi hhb with hhb | ⟨ho, w₀, hw₀, hhb⟩
    · exact ⟨_, .inl (by rw [NewLink, hthread]), hhb⟩
    · exact ⟨w₀, .inr (.inl ⟨hsc.mpr ho, hloc.symm ▸ hw₀⟩), hhb⟩
  · rcases ha with ha | ⟨hs, hlast⟩ | ⟨ha, -⟩
    · obtain ⟨hlt, ht', -⟩ := hg.wf.getLastD_spec hgrow.thread_lt
      obtain rfl : a = _ := ha
      exact Event.happensBefore_iff.mpr (hgrow.clock.thread _ hlt ht')
    · rw [hloc] at hlast
      have halt := (hg.last _ _ hlast).1
      rw [storeEvent, if_pos (hsc.mp hs)]
      refine (happensBefore_scEvent hlast ?_).1
      exact (hg.nextClock ht).length.trans (hg.clock_length a halt).symm
    · simp [NewLink, hrf] at ha

section Read

variable [DecidableEq V] [Inhabited V] [AtomicOps V]

/-- An accepted attempt of an event that is seq-cst whatever it reads, or never. -/
theorem chart_of_accepted {g₁ : Graph V} {cs : List ℕ} {w : ℕ} (hg : g.Inv) (hs : ReadSetup g ev cs)
    (hg₁ : Attempting g ev cs g₁) (hw : w ∈ cs) (hcons : (g₁.attempt w ev.id).isConsistent = true)
    (htop : g.TopAmong fun e => e.isSeqCst = true)
    (hsame : ∀ w v w' v', (ev.setReadFrom w v).isSeqCst = (ev.setReadFrom w' v').isSeqCst) :
    ∃ ev₁, ReadAccepted g (g₁.attempt w ev.id).applySnapshot ev ev₁ w ∧
      Chart g (g₁.attempt w ev.id).applySnapshot
        (g.attemptEvent g.lastSeqCstWriteEvents ev₁ w) := by
  obtain ⟨w₀, hw₀lt, hw₀⟩ := hs.exists_last hg
  obtain ⟨hwlt, hwm, hwl⟩ := (hs.candidates w).mp hw
  obtain ⟨ev₁, hsk, hacc⟩ := hg₁.exists_accepted hg hs hw hcons
  have hr := hacc.retry
  have hid : ev.id = ev₁.id := hr.id.symm
  have hlast : g.lastSeqCstWriteEvents ev₁.location = some w₀ := by
    rw [hr.location]
    exact hw₀
  have hrf := attemptEvent_getReadFromEvent g g.lastSeqCstWriteEvents hr.unresolved w
  obtain ⟨c, hc⟩ := hr.exists_attemptEvent w
  set ev₂ := g.attemptEvent g.lastSeqCstWriteEvents ev₁ w with hev₂
  have hid₂ : ev₂.id = ev.id := by rw [hc]; simp [fresh]
  have hthread : ev₂.threadId = ev.threadId := by rw [hc]; simp [fresh]
  have hloc : ev₂.location = ev.location := by rw [hc]; simp [fresh]
  have hknown := known_attemptEvent hg.toSettled ((hs.nextClock hg).retry hg.toSettled hr) hwlt
    hlast
  rw [← hev₂] at hknown
  refine ⟨ev₁, hacc, ?_, fun i hi hhb => ?_, fun a ha => ?_⟩
  · have hlinks := links_attempt hsk hwlt hlast
    rw [← hid, hg₁.links hg hs] at hlinks
    rw [newLinks, hid₂, hthread, hloc, hrf, scLinks, hw₀]
    rw [links_applySnapshot, hlinks]
    simp only [List.append_assoc]
  · have hsync : NewLink g ev₂ .rf w := hrf
    rcases (hs.nextClock hg).past_attemptEvent hg.toSettled hr hwlt hi hhb with
      hhb | ⟨hacq, hrel, hhb⟩ | ⟨⟨x, hx, hhb⟩, w', v', hsc⟩
    · refine ⟨_, .inl (by rw [NewLink, hthread]), ?_⟩
      exact hg.happensBefore_last hs.thread_lt hi (Event.happensBefore_iff.mp hhb)
    · exact ⟨w, .inr (.inr ⟨hsync, Event.isWriteOrRMW_of_modifies hwm, hrel,
        isReadOrRMW_of_readFrom hrf, hacq⟩), hhb⟩
    · refine ⟨x, .inr (.inl ⟨?_, hloc.symm ▸ hx⟩), hhb⟩
      have hseq : ∀ w v, ((g.fresh ev).setReadFrom w v).isSeqCst = (ev.setReadFrom w v).isSeqCst :=
        fun w v => by
          rw [fresh, Event.setReadFrom_setClock]
          rfl
      rw [hseq, hsame w' v' w (g.event w).getWrittenValue, ← hseq] at hsc
      rw [← hev₂, hc]
      exact hsc
  · rcases ha with ha | ⟨hsc, halast⟩ | ⟨ha, -, hrel, -, hacq⟩
    · obtain ⟨hlt, ht', -⟩ := hg.wf.getLastD_spec hacc.growth.thread_lt
      obtain rfl : a = _ := ha
      exact Event.happensBefore_iff.mpr (hacc.growth.clock.thread _ hlt ht')
    · rw [hloc, hw₀] at halast
      obtain rfl := Option.some.inj halast
      exact hknown.1 hsc
    · obtain rfl : w = a := Option.some.inj (hrf.symm.trans ha)
      by_cases hboth : ev₂.isSeqCst = true ∧ (g.event w).isSeqCst = true
      · -- the write it reads from is the last seq-cst write
        have htopw := htop _ w₀ hw₀ w hwlt hwm hwl hboth.2
        obtain rfl : w = w₀ := hacc.eq_last_of_path hg hboth.1 hw₀ htopw
        exact hknown.1 hboth.1
      · exact hknown.2 hacq hrel hboth

end Read

end Graph

namespace ExecutionGraph

/-- The call is not a compare-exchange. -/
def NoCompareExchange (_ : ExecutionGraph V) : Op V → Prop
  | .readModifyWrite .. => False
  | _ => True

instance (e : ExecutionGraph V) (op : Op V) : Decidable (e.NoCompareExchange op) :=
  match op with
  | .readModifyWrite .. => inferInstanceAs (Decidable False)
  | .reset _ | .registerLocation _ | .load .. | .store .. |
    .unconditionalReadModifyWrite .. => inferInstanceAs (Decidable True)

variable [DecidableEq V] [Inhabited V] [AtomicOps V] {e : ExecutionGraph V}

/-- Loads and unconditional read-modify-writes are seq-cst whatever they read, or never. -/
theorem isSeqCst_setReadFrom {op : Op V} (hop : e.NoCompareExchange op) {ev : Event V}
    (hev : e.readingEvent op = some ev) (w : ℕ) (v : V) (w' : ℕ) (v' : V) :
    (ev.setReadFrom w v).isSeqCst = (ev.setReadFrom w' v').isSeqCst := by
  cases op with
  | load x t o cs =>
    obtain rfl := Option.some.inj hev
    rfl
  | readModifyWrite x t a b s f cs => exact hop.elim
  | unconditionalReadModifyWrite x t f a o cs =>
    obtain rfl := Option.some.inj hev
    rfl
  | _ => cases hev

/-- What is kept by calls other than compare-exchanges. -/
structure HappensBeforeInv (g : Graph V) : Prop where
  top : g.TopAmong fun e => e.isSeqCst = true
  charted : g.Charted

omit [DecidableEq V] [Inhabited V] [AtomicOps V] in
theorem happensBeforeInv_reset (g : Graph V) (n : ℕ) : HappensBeforeInv (g.reset n) :=
  ⟨fun x last hlast => by simp [Graph.reset] at hlast, Graph.charted_reset g n⟩

omit [DecidableEq V] [Inhabited V] [AtomicOps V] in
theorem HappensBeforeInv.growth {g g' : Graph V} {ev : Event V} {l : List (ℕ × ℕ)}
    (h : HappensBeforeInv g) (hg : g.Inv) (hgrow : Graph.Growth g g' ev l)
    (hc : Graph.Chart g g' ev) : HappensBeforeInv g' :=
  ⟨hgrow.topAmong hg (fun _ hsc => hsc) h.top, hgrow.charted hg hc h.charted⟩

theorem HappensBeforeInv.exec {e' : ExecutionGraph V} {op : Op V} {r : Ret V}
    (h : HappensBeforeInv e.graph) (hinv : e.Inv) (hen : e.Enabled op)
    (hop : e.NoCompareExchange op) (hex : e.exec op = some (e', r)) :
    HappensBeforeInv e'.graph := by
  cases hev : e.readingEvent op with
  | some ev =>
    obtain ⟨hs, -⟩ := hinv.readSetup hen hev
    rw [exec_of_readingEvent hev] at hex
    obtain ⟨g', hg', heq⟩ := Option.map_eq_some_iff.mp hex
    obtain ⟨rfl, -⟩ := Prod.mk.inj heq
    obtain ⟨w, hw, g₁, hg₁, hcons, rfl⟩ := hs.exists_attempt hinv.graph hg'
    obtain ⟨ev₁, hacc, hchart⟩ := Graph.chart_of_accepted hinv.graph hs hg₁ hw hcons h.top
      (isSeqCst_setReadFrom hop hev)
    exact h.growth hinv.graph hacc.growth hchart
  | none =>
    cases op with
    | reset n =>
      obtain ⟨rfl, -⟩ := Prod.mk.inj (Option.some.inj hex)
      exact happensBeforeInv_reset _ n
    | registerLocation v =>
      obtain ⟨rfl, -⟩ := Prod.mk.inj (Option.some.inj hex)
      have ht : initThreadId < e.graph.nThreads := hinv.nThreads ▸ hen
      have hx := Int.natCast_nonneg e.nextLocationId
      exact h.growth hinv.graph
        (Graph.growth_addWriteEvent hinv.graph.toSettled .seqCst v ht hx (.inr rfl))
        (Graph.chart_addWriteEvent hinv.graph .seqCst v ht hx (.inr rfl))
    | store x t o v =>
      obtain ⟨rfl, -⟩ := Prod.mk.inj (Option.some.inj hex)
      have ht : t < e.graph.nThreads := hinv.nThreads ▸ hen.2
      have hx := Int.natCast_nonneg x
      have hreg := hinv.registered x hen.1
      exact h.growth hinv.graph
        (Graph.growth_addWriteEvent hinv.graph.toSettled o v ht hx (.inl hreg))
        (Graph.chart_addWriteEvent hinv.graph o v ht hx (.inl hreg))
    | _ => cases hev

theorem Run.happensBeforeInv (h : Run NoCompareExchange e) : HappensBeforeInv e.graph := by
  induction h with
  | init =>
    have h : ({} : ExecutionGraph V).graph = ({} : Graph V).reset 0 := by simp [Graph.reset]
    rw [h]
    exact happensBeforeInv_reset _ 0
  | step hrun hen hop hex ih => exact ih.exec hrun.reachable.inv hen hop hex

/-- **Vector clocks characterise happens-before.** In every execution graph reached without
compare-exchanges, for distinct events, the first of which is not a dummy: one happens before the
other, by their clocks, exactly when there is a path of program-order edges, seq-cst edges, and
read-from edges from a release write to an acquire read. -/
theorem happensBefore_iff_path {e : ExecutionGraph V} (h : Run NoCompareExchange e) {i j : ℕ}
    (hi : i < e.graph.events.length) (hj : j < e.graph.events.length) (hij : i ≠ j)
    (hid : (e.graph.event i).type ≠ .dummy) :
    (e.graph.event i).happensBefore (e.graph.event j) = true ↔ TransGen e.graph.SyncEdge i j :=
  h.happensBeforeInv.charted.path i hi j hj hij hid

/-- Thread 1 publishes a value with a release store, thread 0 takes it with an acquire load. -/
abbrev published : ExecutionGraph (BitVec 32) :=
  play NoCompareExchange {} [.reset 2, .registerLocation 0, .store 0 1 .release 1,
    .load 0 0 .acquire [3, 2]]

theorem path_published : TransGen published.graph.SyncEdge 3 4 :=
  (happensBefore_iff_path (run_play .init _) (by decide +kernel) (by decide +kernel) (by decide)
    (by decide +kernel)).mp (by decide +kernel)

end ExecutionGraph

end Wmm

end LTest
