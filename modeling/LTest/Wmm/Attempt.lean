import LTest.Wmm.Edges

/-!
# What an operation does to the graph

Each operation appends one event and draws edges, some of them in a snapshot that is then applied
or discarded. `Sketch` describes a graph in the middle of an operation by what it adds to the
graph the operation started from; every function of the source moves the sketch in a known way.
At the end there are two descriptions left: of `AddWriteEvent`, and of one attempt of
`TryCreateRfEdge`, accepted or rejected.

## Main definitions

* `Graph.WellFormed` — ids, threads and edges are indexed the way the functions expect
* `Graph.Sketch` — a base graph with one event appended and some edges drawn
* `Graph.ruleEdges`, `Graph.attemptEvent` — the edges and the event of an attempt to read
* `Graph.Retry` — the event before a further attempt: rejected ones leave only their clock behind

## Main results

* `Graph.sketch_addWriteEvent` — a store
* `Graph.sketch_attempt` — an attempt to read, up to the consistency test
* `Graph.sketch_reject` — a rejected attempt
-/

namespace LTest

namespace Wmm

namespace Graph

open Adjacency

variable {V : Type}

/-! ### Well-formed graphs -/

variable {p : Event V → Bool} {g : Graph V} {i : ℕ}

/-- The bookkeeping invariant of a graph between two operations. -/
structure WellFormed (g : Graph V) : Prop where
  /-- Edges are indexed. -/
  indexed : g.Indexed
  /-- Modification-order edges join events. -/
  mo_lt : ∀ a b, g.Mo a b → a < g.events.length ∧ b < g.events.length
  /-- Events are indexed by their ids. -/
  event_id : ∀ i < g.events.length, (g.event i).id = i
  /-- They are of threads of the graph. -/
  thread_lt : ∀ i < g.events.length, (g.event i).threadId < g.nThreads
  /-- `eventsPerThread` lists the events of a thread. -/
  eventsPerThread_eq : ∀ t, g.eventsPerThread t =
    (List.range g.events.length).filter fun i => (g.event i).threadId = t
  /-- Every thread has some. -/
  eventsPerThread_ne : ∀ t < g.nThreads, g.eventsPerThread t ≠ []
  /-- There is no snapshot. -/
  inSnapshotMode : g.inSnapshotMode = false
  /-- None has left edges. -/
  snapshotEdges : g.snapshotEdges = []

theorem WellFormed.mem_eventsPerThread (h : g.WellFormed) {t : ℕ} :
    i ∈ g.eventsPerThread t ↔ i < g.events.length ∧ (g.event i).threadId = t := by
  simp [h.eventsPerThread_eq]

theorem WellFormed.lt_of_mem (h : g.WellFormed) {a b : ℕ} (hb : b ∈ g.moSuccessors a) :
    a < g.events.length ∧ b < g.events.length :=
  h.mo_lt a b (h.indexed.mem_moSuccessors.mp hb)

/-- A most recent event satisfies the predicate it was looked for with. -/
theorem WellFormed.of_mem_mostRecent (h : g.WellFormed) {m : Event V} (hm : m ∈ g.mostRecent p) :
    p m = true ∧ ∃ i < g.events.length, m = g.event i := by
  obtain ⟨t, -, hfind⟩ := List.mem_filterMap.mp hm
  obtain ⟨i, hi, rfl⟩ := List.mem_map.mp (List.mem_of_find?_eq_some hfind)
  exact ⟨List.find?_some hfind, i, (h.mem_eventsPerThread.mp (List.mem_reverse.mp hi)).1, rfl⟩

/-- The most recent events of all threads cover every event: whatever satisfies the predicate is
followed, in its own thread, by a most recent event. -/
theorem WellFormed.exists_mostRecent (h : g.WellFormed) (hi : i < g.events.length)
    (hp : p (g.event i) = true) :
    ∃ j, i ≤ j ∧ j < g.events.length ∧ (g.event j).threadId = (g.event i).threadId ∧
      g.event j ∈ g.mostRecent p := by
  have hmem : i ∈ g.eventsPerThread (g.event i).threadId := h.mem_eventsPerThread.mpr ⟨hi, rfl⟩
  obtain ⟨m, hfind⟩ : ∃ m, ((g.eventsPerThread (g.event i).threadId).reverse.map g.event).find? p =
      some m := by
    refine Option.isSome_iff_exists.mp (List.find?_isSome.mpr ⟨g.event i, ?_, hp⟩)
    exact List.mem_map.mpr ⟨i, List.mem_reverse.mpr hmem, rfl⟩
  obtain ⟨-, as, bs, hsplit, hbefore⟩ := List.find?_eq_some_iff_append.mp hfind
  obtain ⟨as', js, hrev, rfl, hjs⟩ := List.map_eq_append_iff.mp hsplit
  obtain ⟨j, bs', rfl, rfl, rfl⟩ := List.map_eq_cons_iff.mp hjs
  have hj := h.mem_eventsPerThread.mp (List.mem_reverse.mp (hrev ▸ by simp :
    j ∈ (g.eventsPerThread (g.event i).threadId).reverse))
  have hdesc : (g.eventsPerThread (g.event i).threadId).reverse.Pairwise (· > ·) := by
    rw [List.pairwise_reverse, h.eventsPerThread_eq]
    exact List.pairwise_lt_range.filter _
  refine ⟨j, ?_, hj.1, hj.2, List.mem_filterMap.mpr
    ⟨_, List.mem_range.mpr (h.thread_lt i hi), hfind⟩⟩
  -- `i` does not stand before `j` in the reversed list, since it satisfies the predicate
  have hi' := List.mem_reverse.mpr hmem
  rw [hrev] at hi' hdesc
  rcases List.mem_append.mp hi' with hi' | hi'
  · have := hbefore _ (List.mem_map.mpr ⟨i, hi', rfl⟩)
    simp [hp] at this
  · rcases List.mem_cons.mp hi' with rfl | hi'
    · exact Nat.le_refl _
    · exact Nat.le_of_lt (List.rel_of_pairwise_cons (List.pairwise_append.mp hdesc).2.1 hi')

/-! ### Sketches -/

private theorem modify_concat_length {α : Type} (l : List α) (a : α) (f : α → α) :
    (l ++ [a]).modify l.length f = l ++ [f a] := by
  induction l with
  | nil => rfl
  | cons x l ih => simpa using ih

/-- `g` is the base graph `b` with the event `ev` appended, the modification-order edges `l`
drawn and `last` as its table of last seq-cst writes. The edges were `E₀` at some earlier
moment, the beginning of the snapshot if there is one. -/
structure Sketch (b : Graph V) (E₀ : List Edge) (mode : Bool) (g : Graph V) (ev : Event V)
    (l : List (ℕ × ℕ)) (last : ℤ → Option ℕ) : Prop where
  id : ev.id = b.events.length
  events : g.events = b.events ++ [ev]
  eventsPerThread : g.eventsPerThread = Function.update b.eventsPerThread ev.threadId
    (b.eventsPerThread ev.threadId ++ [b.events.length])
  nThreads : g.nThreads = b.nThreads
  mo : g.moSuccessors = insertEdges b.moSuccessors l
  last : g.lastSeqCstWriteEvents = last
  indexed : g.Indexed
  snapshot : Snapshot E₀ g
  mode : g.inSnapshotMode = mode

namespace Sketch

variable {b g : Graph V} {E₀ : List Edge} {mode : Bool} {ev : Event V} {l : List (ℕ × ℕ)}
  {last : ℤ → Option ℕ}

theorem event_self (h : Sketch b E₀ mode g ev l last) : g.event ev.id = ev := by
  simp [event, h.events, h.id]

theorem event_of_lt (h : Sketch b E₀ mode g ev l last) (hi : i < b.events.length) :
    g.event i = b.event i := by
  simp [event, h.events, List.getD_eq_getElem?_getD, List.getElem?_append_left hi]

theorem event_of_gt (h : Sketch b E₀ mode g ev l last) (hi : ev.id < i) : g.event i = default := by
  have hle : g.events.length ≤ i := by
    rw [h.events, List.length_append, List.length_singleton, ← h.id]
    exact hi
  simp [event, hle]

/-- Outside of snapshot mode there are no snapshot edges. -/
theorem snapshotEdges_eq_nil (h : Sketch b E₀ false g ev l last) : g.snapshotEdges = [] :=
  List.eq_nil_iff_forall_not_mem.mpr fun i hi => by
    simpa [h.mode] using (h.snapshot.mem_snapshotEdges i).mp hi

theorem addEdge (h : Sketch b E₀ mode g ev l last) {type : EdgeType} (ht : type ≠ .mo)
    (x y : ℕ) : Sketch b E₀ mode (g.addEdge type x y) ev l last where
  id := h.id
  events := by simpa using h.events
  eventsPerThread := by simpa using h.eventsPerThread
  nThreads := by simpa using h.nThreads
  mo := by rw [moSuccessors_addEdge_of_ne type x y h.indexed ht, h.mo]
  last := by simpa using h.last
  indexed := h.indexed.addEdge type x y
  snapshot := h.snapshot.addEdge type x y
  mode := by simpa using h.mode

theorem drawEdge (h : Sketch b E₀ mode g ev l last) (x y : ℕ) :
    Sketch b E₀ mode (g.addEdge .mo x y) ev (l ++ [(x, y)]) last where
  id := h.id
  events := by simpa using h.events
  eventsPerThread := by simpa using h.eventsPerThread
  nThreads := by simpa using h.nThreads
  mo := by rw [moSuccessors_addEdge_mo x y h.indexed, h.mo, insertEdges_concat]
  last := by simpa using h.last
  indexed := h.indexed.addEdge .mo x y
  snapshot := h.snapshot.addEdge .mo x y
  mode := by simpa using h.mode

theorem drawEdges (h : Sketch b E₀ mode g ev l last) (l' : List (ℕ × ℕ)) :
    Sketch b E₀ mode (g.drawEdges l') ev (l ++ l') last := by
  induction l' generalizing g l with
  | nil => simpa using h
  | cons p l' ih => simpa using ih (h.drawEdge p.1 p.2)

theorem modifyEvent (h : Sketch b E₀ mode g ev l last) {f : Event V → Event V}
    (hid : (f ev).id = ev.id) (ht : (f ev).threadId = ev.threadId) :
    Sketch b E₀ mode (g.modifyEvent ev.id f) (f ev) l last where
  __ := h
  id := hid.trans h.id
  events := by
    rw [Graph.modifyEvent, h.events, h.id, modify_concat_length]
  eventsPerThread := by rw [ht]; exact h.eventsPerThread
  indexed := ⟨h.indexed.edge_id, h.indexed.outEdges_eq⟩
  snapshot := ⟨h.snapshot.edges, h.snapshot.mem_snapshotEdges⟩

theorem setClock (h : Sketch b E₀ mode g ev l last) (c : VectorClock) (hi : ev.id = i) :
    Sketch b E₀ mode (g.setClock i c) { ev with clock := c } l last := by
  subst hi
  exact h.modifyEvent (f := fun e => { e with clock := c }) rfl rfl

theorem setLast (h : Sketch b E₀ mode g ev l last) (last' : ℤ → Option ℕ) :
    Sketch b E₀ mode { g with lastSeqCstWriteEvents := last' } ev l last' where
  __ := h
  last := rfl
  indexed := ⟨h.indexed.edge_id, h.indexed.outEdges_eq⟩
  snapshot := ⟨h.snapshot.edges, h.snapshot.mem_snapshotEdges⟩

theorem updateLast (h : Sketch b E₀ mode g ev l last) (x : ℤ) (w : ℕ) :
    Sketch b E₀ mode
      { g with lastSeqCstWriteEvents := Function.update g.lastSeqCstWriteEvents x (some w) } ev l
      (Function.update last x (some w)) := by
  rw [h.last]
  exact h.setLast _

/-- The appended event becomes the last seq-cst write of its location. -/
theorem becomeLast (h : Sketch b E₀ mode g ev l last) :
    Sketch b E₀ mode
      { g with
        lastSeqCstWriteEvents :=
          Function.update g.lastSeqCstWriteEvents (g.event ev.id).location (some ev.id) }
      ev l (Function.update last ev.location (some ev.id)) := by
  rw [h.event_self]
  exact h.updateLast ev.location ev.id

/-- The appended event is not found when the predicate excludes it. -/
theorem mostRecent (h : Sketch b E₀ mode g ev l last) (hb : b.WellFormed) (hp : p ev = false) :
    g.mostRecent p = b.mostRecent p := by
  simp only [Graph.mostRecent, h.nThreads, h.eventsPerThread]
  refine List.filterMap_congr fun t _ => ?_
  have hold : ((b.eventsPerThread t).reverse.map g.event) =
      (b.eventsPerThread t).reverse.map b.event :=
    List.map_congr_left fun i hi =>
      h.event_of_lt (hb.mem_eventsPerThread.mp (List.mem_reverse.mp hi)).1
  by_cases ht : t = ev.threadId
  · subst ht
    rw [Function.update_self, List.reverse_append, List.reverse_singleton, List.singleton_append,
      List.map_cons, List.find?_cons, ← h.id, h.event_self, hp, hold]
  · rw [Function.update_of_ne ht, hold]

/-- An iteration that draws edges from the most recent events. -/
theorem iterate (h : Sketch b E₀ mode g ev l last) (hb : b.WellFormed)
    {predicate : Graph V → Event V → Bool} {callback : Graph V → Event V → Graph V}
    {e : Event V → ℕ × ℕ} (hpred : ∀ g' : Graph V, g'.event ev.id = ev → predicate g' = p)
    (hp : p ev = false) (hc : ∀ g' o, callback g' o = g'.addEdge .mo (e o).1 (e o).2) :
    Sketch b E₀ mode (g.iterateThroughMostRecentEventsByPredicate predicate callback) ev
      (l ++ (b.mostRecent p).map e) last := by
  rw [iterate_eq_drawEdges g (fun g' hg' => hpred g' ?_) hc, h.mostRecent hb hp]
  · exact h.drawEdges _
  · rw [event, hg', ← event, h.event_self]

end Sketch

/-! ### The rules, as edges

The lists are in terms of the base graph `b` and the appended event `ev`, with the clock it has
when the rule is applied. -/

/-- The edge of `CreateSeqCstReadWriteCoherenceEdges`. -/
def seqCstReadWriteEdges (last : ℤ → Option ℕ) (ev : Event V) (write : ℕ) : List (ℕ × ℕ) :=
  match last ev.location with
  | none => []
  | some lastWrite => if lastWrite = write then [] else [(lastWrite, write)]

/-- The edge of `CreateSeqCstConsistencyEdges`. -/
def seqCstConsistencyEdges (last : ℤ → Option ℕ) (ev : Event V) : List (ℕ × ℕ) :=
  match last ev.location with
  | none => []
  | some lastWrite => [(lastWrite, ev.id)]

/-- The edges of a coherence rule: in each thread, the most recent event that `p` holds of, at the
location of `ev` and in its past, is found, and `source` of it is ordered before `target`. -/
def coherenceEdges (b : Graph V) (ev : Event V) (p : Event V → Bool) (source : Event V → ℕ)
    (target : ℕ) : List (ℕ × ℕ) :=
  (b.mostRecent fun o => p o && o.location = ev.location && o.happensBefore ev).map
    fun o => (source o, target)

/-- The edges of `CreateWriteReadCoherenceEdges`. -/
def writeReadEdges (b : Graph V) (ev : Event V) (write : ℕ) : List (ℕ × ℕ) :=
  b.coherenceEdges ev (fun o => ev.id ≠ o.id && write ≠ o.id && o.modifies) (·.id) write

/-- The edges of `CreateReadReadCoherenceEdges`. -/
def readReadEdges (b : Graph V) (ev : Event V) (write : ℕ) : List (ℕ × ℕ) :=
  b.coherenceEdges ev (fun o => ev.id ≠ o.id && write ≠ o.id && o.isReadOrRMW &&
    o.getReadFromEvent ≠ none && o.getReadFromEvent ≠ some write)
    (·.getReadFromEvent.getD 0) write

/-- The edges of `CreateReadWriteCoherenceEdges`. -/
def readWriteEdges (b : Graph V) (ev : Event V) : List (ℕ × ℕ) :=
  b.coherenceEdges ev (fun o => ev.id ≠ o.id && o.isReadOrRMW) (·.getReadFromEvent.getD 0) ev.id

/-- The edges of `CreateWriteWriteCoherenceEdges`. -/
def writeWriteEdges (b : Graph V) (ev : Event V) : List (ℕ × ℕ) :=
  b.coherenceEdges ev (fun o => ev.id ≠ o.id && o.modifies) (·.id) ev.id

/-- The appended event after `CreateScEdgeToEvent`. -/
def scEvent (b : Graph V) (last : ℤ → Option ℕ) (ev : Event V) : Event V :=
  match last ev.location with
  | none => ev
  | some lastWrite => { ev with clock := ev.clock.uniteWith (b.event lastWrite).clock }

namespace Sketch

variable {b g : Graph V} {E₀ : List Edge} {mode : Bool} {ev : Event V} {l : List (ℕ × ℕ)}
  {last : ℤ → Option ℕ}

section

variable (h : Sketch b E₀ mode g ev l last)
include h

theorem createSeqCstReadWriteCoherenceEdges (write : ℕ) :
    Sketch b E₀ mode (g.createSeqCstReadWriteCoherenceEdges write ev.id) ev
      (l ++ seqCstReadWriteEdges last ev write) last := by
  rw [Graph.createSeqCstReadWriteCoherenceEdges, getLastSeqCstWriteEventId, h.event_self, h.last,
    seqCstReadWriteEdges]
  cases last ev.location with
  | none => simpa using h
  | some lastWrite =>
    by_cases hw : lastWrite = write
    · simpa [hw] using h
    · simpa [hw] using h.drawEdge lastWrite write

theorem createSeqCstConsistencyEdges :
    Sketch b E₀ mode (g.createSeqCstConsistencyEdges ev.id) ev
      (l ++ seqCstConsistencyEdges last ev) last := by
  rw [Graph.createSeqCstConsistencyEdges, getLastSeqCstWriteEventId, h.event_self, h.last,
    seqCstConsistencyEdges]
  cases last ev.location with
  | none => simpa using h
  | some lastWrite => exact h.drawEdge lastWrite ev.id

theorem createScEdgeToEvent (hlast : ∀ w, last ev.location = some w → w < b.events.length) :
    Sketch b E₀ mode (g.createScEdgeToEvent ev.id) (scEvent b last ev) l last := by
  rw [Graph.createScEdgeToEvent, getLastSeqCstWriteEventId, h.event_self, h.last, scEvent]
  cases hl : last ev.location with
  | none => exact h
  | some lastWrite =>
    simp only [event_addEdge, h.event_self, h.event_of_lt (hlast lastWrite hl)]
    exact (h.addEdge (by decide) lastWrite ev.id).setClock _ rfl

theorem createWriteReadCoherenceEdges (hb : b.WellFormed) (write : ℕ) :
    Sketch b E₀ mode (g.createWriteReadCoherenceEdges write ev.id) ev
      (l ++ writeReadEdges b ev write) last :=
  h.iterate hb (fun g' hg' => by simp only [hg']) (by simp) fun _ _ => rfl

theorem createReadReadCoherenceEdges (hb : b.WellFormed) (write : ℕ) :
    Sketch b E₀ mode (g.createReadReadCoherenceEdges write ev.id) ev
      (l ++ readReadEdges b ev write) last :=
  h.iterate hb (fun g' hg' => funext fun o => by simp only [hg', Bool.and_assoc]; ac_rfl) (by simp)
    fun _ _ => rfl

theorem createReadWriteCoherenceEdges (hb : b.WellFormed) :
    Sketch b E₀ mode (g.createReadWriteCoherenceEdges ev.id) ev (l ++ readWriteEdges b ev) last :=
  h.iterate hb (fun g' hg' => by simp only [hg']) (by simp) fun _ _ => rfl

theorem createWriteWriteCoherenceEdges (hb : b.WellFormed) :
    Sketch b E₀ mode (g.createWriteWriteCoherenceEdges ev.id) ev (l ++ writeWriteEdges b ev) last :=
  h.iterate hb (fun g' hg' => by simp only [hg']) (by simp) fun _ _ => rfl

end

/-- The atomicity rule comes right after the edge to the read-modify-write itself, which it
leaves out. -/
theorem createRmwAtomicityEdges (hb : b.WellFormed) {write : ℕ}
    (h : Sketch b E₀ mode g ev [(write, ev.id)] last) :
    Sketch b E₀ mode (g.createRmwAtomicityEdges write ev.id) ev
      ((write, ev.id) :: (b.moSuccessors write).map (ev.id, ·)) last := by
  have hfresh : ∀ x ∈ b.moSuccessors write, x ≠ ev.id := fun x hx => by
    have := (hb.lt_of_mem hx).2
    have := h.id
    omega
  have hsucc : (g.moSuccessors write).filter (· ≠ ev.id) = b.moSuccessors write := by
    have hnot : ev.id ∉ b.moSuccessors write := fun hx => hfresh _ hx rfl
    rw [h.mo]
    simp only [insertEdges, List.foldl_cons, List.foldl_nil, insertEdge, if_neg hnot,
      Function.update_self, List.filter_append]
    simpa using hfresh
  rw [createRmwAtomicityEdges_eq h.indexed, hsucc]
  exact h.drawEdges _

end Sketch

/-! ### Stores -/

variable {b : Graph V}

/-- The clock an event of thread `t` starts with. -/
def nextClock (b : Graph V) (t : ℕ) : VectorClock :=
  (b.event ((b.eventsPerThread t).getLastD 0)).clock.increment t

theorem WellFormed.getLastD_spec (hb : b.WellFormed) {t : ℕ} (ht : t < b.nThreads) :
    (b.eventsPerThread t).getLastD 0 < b.events.length ∧
      (b.event ((b.eventsPerThread t).getLastD 0)).threadId = t ∧
      ∀ i < b.events.length, (b.event i).threadId = t → i ≤ (b.eventsPerThread t).getLastD 0 := by
  have hne := hb.eventsPerThread_ne t ht
  rw [List.getLastD_eq_getLast?, List.getLast?_eq_some_getLast hne, Option.getD_some]
  obtain ⟨hlt, hthread⟩ := hb.mem_eventsPerThread.mp (List.getLast_mem hne)
  refine ⟨hlt, hthread, fun i hi hit => ?_⟩
  have hmem := hb.mem_eventsPerThread.mpr ⟨hi, hit⟩
  have hsorted : (b.eventsPerThread t).Pairwise (· < ·) := by
    rw [hb.eventsPerThread_eq]
    exact List.pairwise_lt_range.filter _
  rw [← List.dropLast_append_getLast hne] at hmem hsorted
  rcases List.mem_append.mp hmem with hmem | hmem
  · exact Nat.le_of_lt ((List.pairwise_append.mp hsorted).2.2 i hmem _ (by simp))
  · exact Nat.le_of_eq (List.mem_singleton.mp hmem)

/-- `CreatePoEdgeToEvent` starts a sketch. -/
theorem sketch_createPoEdgeToEvent (hb : b.WellFormed) {ev : Event V}
    (hid : ev.id = b.events.length) :
    Sketch b [] false (b.createPoEdgeToEvent ev)
      { ev with clock := b.nextClock ev.threadId } [] b.lastSeqCstWriteEvents := by
  have hidx := hb.indexed.addEdge .po ((b.eventsPerThread ev.threadId).getLastD 0) ev.id
  refine
    { id := hid
      events := by simp [createPoEdgeToEvent, nextClock]
      eventsPerThread := by simp [createPoEdgeToEvent, hid]
      nThreads := by simp [createPoEdgeToEvent]
      mo := moSuccessors_addEdge_of_ne .po _ _ hb.indexed (by decide)
      last := by simp [createPoEdgeToEvent]
      indexed := ⟨hidx.edge_id, hidx.outEdges_eq⟩
      snapshot := ⟨List.nil_prefix, fun i => ?_⟩
      mode := by simp [createPoEdgeToEvent, hb.inSnapshotMode] }
  have hs : Snapshot [] b := ⟨List.nil_prefix, by simp [hb.inSnapshotMode, hb.snapshotEdges]⟩
  exact (hs.addEdge .po _ _).mem_snapshotEdges i

/-- The event a store appends. -/
def storeEvent (b : Graph V) (location : ℤ) (threadId : ℕ) (order : MemoryOrder) (value : V) :
    Event V :=
  let ev := { b.writeEvent location threadId order value with clock := b.nextClock threadId }
  if order = .seqCst then scEvent b b.lastSeqCstWriteEvents ev else ev

/-- The edges a store draws. -/
def storeEdges (b : Graph V) (ev : Event V) : List (ℕ × ℕ) :=
  (if ev.isSeqCst then seqCstConsistencyEdges b.lastSeqCstWriteEvents ev else []) ++
    readWriteEdges b ev ++ writeWriteEdges b ev

/-- The last seq-cst writes once `ev`, which modifies its location, is in the graph. -/
def lastAfter (last : ℤ → Option ℕ) (ev : Event V) : ℤ → Option ℕ :=
  if ev.isSeqCst then Function.update last ev.location (some ev.id) else last

/-- What `scEvent` changes is the clock. -/
theorem exists_scEvent (b : Graph V) (last : ℤ → Option ℕ) (ev : Event V) :
    ∃ c, scEvent b last ev = { ev with clock := c } := by
  unfold scEvent
  split
  · exact ⟨ev.clock, rfl⟩
  · exact ⟨_, rfl⟩

/-- What a store adds to the event it creates is the clock. -/
theorem exists_storeEvent (b : Graph V) (location : ℤ) (threadId : ℕ) (order : MemoryOrder)
    (value : V) : ∃ c, b.storeEvent location threadId order value =
      { b.writeEvent location threadId order value with clock := c } := by
  by_cases ho : order = .seqCst
  · obtain ⟨c, hc⟩ := exists_scEvent b b.lastSeqCstWriteEvents
      { b.writeEvent location threadId order value with clock := b.nextClock threadId }
    exact ⟨c, (if_pos ho).trans hc⟩
  · exact ⟨_, if_neg ho⟩

theorem sketch_addWriteEvent (hb : b.WellFormed) (location : ℤ) (threadId : ℕ) (order : MemoryOrder)
    (value : V) (hlast : ∀ w, b.lastSeqCstWriteEvents location = some w → w < b.events.length) :
    let ev := b.storeEvent location threadId order value
    Sketch b [] false (b.addWriteEvent location threadId order value) ev (b.storeEdges ev)
      (lastAfter b.lastSeqCstWriteEvents ev) := by
  intro ev
  let ev₀ := { b.writeEvent location threadId order value with clock := b.nextClock threadId }
  have h₀ : Sketch b [] false (b.createPoEdgeToEvent (b.writeEvent location threadId order value))
      ev₀ [] b.lastSeqCstWriteEvents := sketch_createPoEdgeToEvent hb rfl
  by_cases ho : order = .seqCst
  · have hev : ev = scEvent b b.lastSeqCstWriteEvents ev₀ := if_pos ho
    obtain ⟨c, hc⟩ := exists_scEvent b b.lastSeqCstWriteEvents ev₀
    have hsc : ev.isSeqCst = true := by
      rw [hev, hc]
      exact decide_eq_true ho
    have hid : ev.id = b.events.length := by rw [hev, hc]; rfl
    have hloc : ev.location = location := by rw [hev, hc]; rfl
    have h₁ : Sketch b [] false _ ev [] _ := hev ▸ h₀.createScEdgeToEvent hlast
    have h₂ := ((h₁.createSeqCstConsistencyEdges.updateLast location
      ev.id).createReadWriteCoherenceEdges hb).createWriteWriteCoherenceEdges hb
    rw [addWriteEvent, if_pos ho, storeEdges, if_pos hsc, lastAfter, if_pos hsc, hloc]
    rw [hid] at h₂ ⊢
    exact h₂
  · have hev : ev = ev₀ := if_neg ho
    have hsc : ¬ ev.isSeqCst = true := by
      rw [hev]
      exact fun h => ho (of_decide_eq_true h)
    have h₂ := ((hev ▸ h₀ : Sketch b [] false _ ev [] _).createReadWriteCoherenceEdges
      hb).createWriteWriteCoherenceEdges hb
    have hid : ev.id = b.events.length := by rw [hev]; rfl
    rw [addWriteEvent, if_neg ho, storeEdges, if_neg hsc, lastAfter, if_neg hsc]
    rw [hid] at h₂
    exact h₂

/-! ### Attempts to read -/

/-- The edges of an attempt, for the event it has in the end. -/
def ruleEdges (b : Graph V) (last : ℤ → Option ℕ) (ev : Event V) (write : ℕ) : List (ℕ × ℕ) :=
  if ev.isRead || ev.isReadRWM then
    (if ev.isSeqCst then seqCstReadWriteEdges last ev write else []) ++
      writeReadEdges b ev write ++ readReadEdges b ev write
  else
    (write, ev.id) :: (b.moSuccessors write).map (ev.id, ·) ++
      (if ev.isSeqCst then
        seqCstReadWriteEdges last ev write ++ seqCstConsistencyEdges last ev
      else []) ++
      writeReadEdges b ev write ++ readReadEdges b ev write ++
      readWriteEdges b ev ++ writeWriteEdges b ev

/-- The last seq-cst writes after an accepted attempt. -/
def ruleLast (last : ℤ → Option ℕ) (ev : Event V) : ℤ → Option ℕ :=
  if ev.isRead || ev.isReadRWM then last else lastAfter last ev

theorem sketch_createReadFromRuleEdges {E₀ : List Edge} {mode : Bool} {ev : Event V}
    {last : ℤ → Option ℕ} (hb : b.WellFormed) (h : Sketch b E₀ mode g ev [] last)
    (hlast : ∀ w, last ev.location = some w → w < b.events.length) (write : ℕ) :
    let ev' := if ev.isSeqCst then scEvent b last ev else ev
    Sketch b E₀ mode (g.createReadFromRuleEdges write ev.id) ev' (ruleEdges b last ev' write)
      (ruleLast last ev') := by
  intro ev'
  obtain ⟨c, hc⟩ : ∃ c, ev' = { ev with clock := c } := by
    by_cases hsc : ev.isSeqCst = true
    · obtain ⟨c, hc⟩ := exists_scEvent b last ev
      exact ⟨c, (if_pos hsc).trans hc⟩
    · exact ⟨ev.clock, if_neg hsc⟩
  have hid : ev'.id = ev.id := by rw [hc]
  have hread : (ev'.isRead || ev'.isReadRWM) = (ev.isRead || ev.isReadRWM) := by rw [hc]; rfl
  have hsc' : ev'.isSeqCst = ev.isSeqCst := by rw [hc]; rfl
  have hloc : ev'.location = ev.location := by rw [hc]
  rw [createReadFromRuleEdges, h.event_self, ruleEdges, ruleLast, hread, hsc']
  by_cases hr : (ev.isRead || ev.isReadRWM) = true
  · rw [if_pos hr, if_pos hr, if_pos hr]
    by_cases hsc : ev.isSeqCst = true
    · have hev : ev' = scEvent b last ev := if_pos hsc
      have h₁ : Sketch b E₀ mode (g.createScEdgeToEvent ev.id) ev' [] last :=
        hev ▸ h.createScEdgeToEvent hlast
      have h₂ := ((h₁.createSeqCstReadWriteCoherenceEdges write).createWriteReadCoherenceEdges hb
        write).createReadReadCoherenceEdges hb write
      rw [if_pos hsc, if_pos hsc]
      rw [hid] at h₂
      exact h₂
    · have hev : ev' = ev := if_neg hsc
      rw [if_neg hsc, if_neg hsc, hev]
      exact (h.createWriteReadCoherenceEdges hb write).createReadReadCoherenceEdges hb write
  · rw [if_neg hr, if_neg hr, if_neg hr, lastAfter, hsc']
    have h₁ := (h.drawEdge write ev.id).createRmwAtomicityEdges hb
    have hev₁ := h₁.event_self
    change Graph.event ((g.createRmwConsistencyEdges write ev.id).createRmwAtomicityEdges write
      ev.id) ev.id = ev at hev₁
    simp only [hev₁]
    by_cases hsc : ev.isSeqCst = true
    · have hev : ev' = scEvent b last ev := if_pos hsc
      have h₂ := h₁.createScEdgeToEvent hlast
      rw [← hev] at h₂
      have h₃ :=
        (h₂.createSeqCstReadWriteCoherenceEdges write).createSeqCstConsistencyEdges.becomeLast
      have h₄ := (((h₃.createWriteReadCoherenceEdges hb write).createReadReadCoherenceEdges hb
        write).createReadWriteCoherenceEdges hb).createWriteWriteCoherenceEdges hb
      simp only [if_pos hsc]
      simp only [hid, List.append_assoc] at h₄ ⊢
      exact h₄
    · have hev : ev' = ev := if_neg hsc
      simp only [if_neg hsc, hev, List.append_nil]
      exact (((h₁.createWriteReadCoherenceEdges hb write).createReadReadCoherenceEdges hb
        write).createReadWriteCoherenceEdges hb).createWriteWriteCoherenceEdges hb

variable {b g : Graph V} {E₀ : List Edge} {mode : Bool} {ev : Event V} {l : List (ℕ × ℕ)}
  {last : ℤ → Option ℕ} {write w₀ : ℕ}

theorem Sketch.startSnapshot (h : Sketch b E₀ false g ev l last) :
    Sketch b g.edges true g.startSnapshot ev l last where
  __ := h
  indexed := ⟨h.indexed.edge_id, h.indexed.outEdges_eq⟩
  snapshot := by
    refine ⟨List.prefix_rfl, fun i => ?_⟩
    have hi := h.snapshot.mem_snapshotEdges i
    simp only [h.mode, Bool.false_eq_true, false_and, iff_false] at hi
    simp only [Graph.startSnapshot, hi, true_and, false_iff]
    omega
  mode := rfl

theorem isConsistent_applySnapshot (g : Graph V) :
    g.applySnapshot.isConsistent = g.isConsistent := rfl

theorem Sketch.applySnapshot (h : Sketch b E₀ mode g ev l last) :
    Sketch b [] false g.applySnapshot ev l last where
  __ := h
  indexed := ⟨h.indexed.edge_id, h.indexed.outEdges_eq⟩
  snapshot := ⟨List.nil_prefix, by simp [Graph.applySnapshot]⟩
  mode := rfl

/-- A discarded snapshot takes the edges back and keeps the event. -/
theorem Sketch.discardSnapshot {g₀ : Graph V} {ev₀ : Event V} {l₀ : List (ℕ × ℕ)}
    {last₀ : ℤ → Option ℕ} (h₀ : Sketch b [] false g₀ ev₀ l₀ last₀)
    (h : Sketch b g₀.edges true g ev l last) : Sketch b [] false g.discardSnapshot ev l₀ last := by
  have hedges := discardSnapshot_edges h.snapshot h.indexed h.mode
  have hout := discardSnapshot_outEdges h.snapshot h₀.indexed h.indexed h.mode
  have hedge : g.discardSnapshot.edge = g₀.edge := by funext i; rw [edge, hedges]; rfl
  refine
    { id := h.id
      events := h.events
      eventsPerThread := h.eventsPerThread
      nThreads := h.nThreads
      mo := ?_
      last := h.last
      indexed := ⟨?_, ?_⟩
      snapshot := ⟨List.nil_prefix, by simp [Graph.discardSnapshot]⟩
      mode := rfl }
  · funext i
    rw [← h₀.mo, moSuccessors, moSuccessors, hout, hedge]
  · rw [hedge, hedges]
    exact h₀.indexed.edge_id
  · rw [hedge, hedges, hout]
    exact h₀.indexed.outEdges_eq

/-- The release-acquire rule of `TryCreateRfEdge`. -/
def synchronize (g : Graph V) (write read : ℕ) : Graph V :=
  if g.synchronizes write read then
    g.setClock read ((g.event read).clock.uniteWith (g.event write).clock)
  else g

/-- The event of an attempt after the release-acquire rule. -/
def synchronizedEvent (b : Graph V) (ev : Event V) (write : ℕ) : Event V :=
  if ev.isAtLeastAcquire && (b.event write).isAtLeastRelease &&
      !(ev.isSeqCst && (b.event write).isSeqCst) then
    { ev with clock := ev.clock.uniteWith (b.event write).clock }
  else ev

theorem Sketch.synchronize (h : Sketch b E₀ mode g ev l last) (hw : write < b.events.length) :
    Sketch b E₀ mode (g.synchronize write ev.id) (b.synchronizedEvent ev write) l last := by
  rw [Graph.synchronize, synchronizes, h.event_self, h.event_of_lt hw, synchronizedEvent]
  split
  · exact h.setClock _ rfl
  · exact h

/-- What the release-acquire rule changes is the clock. -/
theorem exists_synchronizedEvent (b : Graph V) (ev : Event V) (write : ℕ) :
    ∃ c, b.synchronizedEvent ev write = { ev with clock := c } := by
  unfold synchronizedEvent
  split
  · exact ⟨_, rfl⟩
  · exact ⟨ev.clock, rfl⟩

section Read

variable [DecidableEq V] [Inhabited V] [AtomicOps V] {ev₁ : Event V}

/-- The beginning of `TryCreateRfEdge`: the snapshot is opened, the read-from edge is drawn, and
`lastSeqCstWriteEvents[read->location]` is looked up. -/
def beginAttempt (g : Graph V) (write read : ℕ) : Graph V :=
  let g := (g.startSnapshot.addEdge .rf write read).setReadFromEvent read write
  { g with
    lastSeqCstWriteEvents :=
      Function.update g.lastSeqCstWriteEvents (g.event read).location
        (some ((g.lastSeqCstWriteEvents (g.event read).location).getD 0)) }

/-- `TryCreateRfEdge` up to the consistency test. -/
def attempt (g : Graph V) (write read : ℕ) : Graph V :=
  ((g.beginAttempt write read).synchronize write read).createReadFromRuleEdges write read

/-- The rest of `TryCreateRfEdge` when the test fails. -/
def reject (g : Graph V) (write read : ℕ) : Graph V :=
  let g₁ := g.beginAttempt write read
  let g₂ := (g.attempt write read).discardSnapshot.modifyEvent read Event.clearReadFrom
  let g₃ := if g₁.synchronizes write read then g₂.setClock read (g₁.event read).clock else g₂
  { g₃ with
    lastSeqCstWriteEvents :=
      Function.update g₃.lastSeqCstWriteEvents (g₁.event read).location
        (some ((g₁.lastSeqCstWriteEvents (g₁.event read).location).getD 0)) }

theorem tryCreateRfEdge_eq (g : Graph V) (write read : ℕ) :
    g.tryCreateRfEdge write read =
      if (g.attempt write read).isConsistent then (true, (g.attempt write read).applySnapshot)
      else (false, g.reject write read) := by
  -- the entry `operator[]` has put into the table is the one it finds later
  have hlast : ((g.beginAttempt write read).lastSeqCstWriteEvents
      ((g.beginAttempt write read).event read).location).getD 0 =
      (((g.startSnapshot.addEdge .rf write read).setReadFromEvent read write).lastSeqCstWriteEvents
      ((g.beginAttempt write read).event read).location).getD 0 := by
    simp [beginAttempt, event]
  rw [reject, hlast]
  rfl

/-- The event of an attempt when the consistency test is made. -/
def attemptEvent (b : Graph V) (last : ℤ → Option ℕ) (ev : Event V) (write : ℕ) : Event V :=
  let r := b.synchronizedEvent (ev.setReadFrom write (b.event write).getWrittenValue) write
  if r.isSeqCst then scEvent b last r else r

theorem sketch_beginAttempt (h : Sketch b E₀ false g ev [] last)
    (hw : write < b.events.length) (hlast : last ev.location = some w₀) :
    Sketch b g.edges true (g.beginAttempt write ev.id)
      (ev.setReadFrom write (b.event write).getWrittenValue) [] last := by
  have h₁ := h.startSnapshot.addEdge (show EdgeType.rf ≠ .mo by decide) write ev.id
  have hset : (g.startSnapshot.addEdge .rf write ev.id).setReadFromEvent ev.id write =
      (g.startSnapshot.addEdge .rf write ev.id).modifyEvent ev.id
        fun e => e.setReadFrom write (b.event write).getWrittenValue := by
    rw [setReadFromEvent, h₁.event_of_lt hw]
  have h₂ := h₁.modifyEvent (f := fun e => e.setReadFrom write (b.event write).getWrittenValue)
    (by simp) (by simp)
  have hself := h₂.event_self
  rw [Event.setReadFrom_id] at hself
  have h₃ := h₂.updateLast ev.location w₀
  rw [← hlast, Function.update_eq_self] at h₃
  rw [beginAttempt, hset, hself, Event.setReadFrom_location, h₂.last, hlast]
  rw [h₂.last, hlast] at h₃
  exact h₃

/-- What an attempt changes is where the event reads from, and its clock. -/
theorem exists_attemptEvent (b : Graph V) (last : ℤ → Option ℕ) (ev : Event V) (write : ℕ) :
    ∃ c, b.attemptEvent last ev write =
      { ev.setReadFrom write (b.event write).getWrittenValue with clock := c } := by
  obtain ⟨c, hc⟩ := exists_synchronizedEvent b
    (ev.setReadFrom write (b.event write).getWrittenValue) write
  obtain ⟨d, hd⟩ := exists_scEvent b last
    (b.synchronizedEvent (ev.setReadFrom write (b.event write).getWrittenValue) write)
  by_cases hsc : (b.synchronizedEvent (ev.setReadFrom write (b.event write).getWrittenValue)
      write).isSeqCst = true
  · exact ⟨d, (if_pos hsc).trans (by rw [hd, hc])⟩
  · exact ⟨c, (if_neg hsc).trans hc⟩

theorem attemptEvent_getReadFromEvent (b : Graph V) (last : ℤ → Option ℕ) (hu : ev.Unresolved)
    (write : ℕ) : (b.attemptEvent last ev write).getReadFromEvent = some write := by
  obtain ⟨c, hc⟩ := exists_attemptEvent b last ev write
  rw [hc]
  exact Event.setReadFrom_getReadFromEvent hu _ _

/-- An attempt to read from `write`. -/
theorem sketch_attempt (hb : b.WellFormed) (h : Sketch b E₀ false g ev [] last)
    (hw : write < b.events.length) (hlast : last ev.location = some w₀)
    (hw₀ : w₀ < b.events.length) :
    Sketch b g.edges true (g.attempt write ev.id) (b.attemptEvent last ev write)
      (ruleEdges b last (b.attemptEvent last ev write) write)
      (ruleLast last (b.attemptEvent last ev write)) := by
  have h₁ := (sketch_beginAttempt h hw hlast).synchronize hw
  obtain ⟨c, hc⟩ := exists_synchronizedEvent b
    (ev.setReadFrom write (b.event write).getWrittenValue) write
  have hloc : (b.synchronizedEvent (ev.setReadFrom write (b.event write).getWrittenValue)
      write).location = ev.location := by rw [hc]; simp
  have hid : (b.synchronizedEvent (ev.setReadFrom write (b.event write).getWrittenValue)
      write).id = ev.id := by rw [hc]; simp
  have h₂ := sketch_createReadFromRuleEdges hb h₁ (fun w hw' => by
    rw [hloc, hlast] at hw'
    exact Option.some.inj hw' ▸ hw₀) write
  rw [hid, Event.setReadFrom_id] at h₂
  exact h₂

/-- The event `ev₁` is `ev` before a further attempt. -/
structure Retry (b : Graph V) (last : ℤ → Option ℕ) (ev ev₁ : Event V) : Prop where
  /-- It has chosen nothing. -/
  unresolved : ev₁.Unresolved
  /-- Its id is that of `ev`. -/
  id : ev₁.id = ev.id
  /-- Its location is that of `ev`. -/
  location : ev₁.location = ev.location
  /-- Its thread is that of `ev`. -/
  threadId : ev₁.threadId = ev.threadId
  /-- It will resolve like `ev`. -/
  setReadFrom : ∀ w v, ev₁.setReadFrom w v = { ev.setReadFrom w v with clock := ev₁.clock }
  /-- Its clock may have been united with that of the last seq-cst write. -/
  clock : ev₁.clock = ev.clock ∨
    (∃ w₀, last ev.location = some w₀ ∧ ev₁.clock = ev.clock.uniteWith (b.event w₀).clock) ∧
      ∃ w v, (ev.setReadFrom w v).isSeqCst = true

omit [Inhabited V] in
theorem Retry.refl (hu : ev.Unresolved) : Retry b last ev ev :=
  ⟨hu, rfl, rfl, rfl, fun w v => by rw [← Event.setReadFrom_setClock], .inl rfl⟩

omit [Inhabited V] in
theorem Retry.next (h : Retry b last ev ev₁) (hlast : last ev.location = some w₀)
    (hlen : ev.clock.times.length = (b.event w₀).clock.times.length) (v : V) {c : VectorClock}
    (hc : c = ev₁.clock ∨ c = ev₁.clock.uniteWith (b.event w₀).clock ∧
      (ev₁.setReadFrom write v).isSeqCst = true) :
    Retry b last ev { (ev₁.setReadFrom write v).clearReadFrom with clock := c } where
  unresolved := Event.unresolved_clearReadFrom h.unresolved write v
  id := by simpa using h.id
  location := by simpa using h.location
  threadId := by simpa using h.threadId
  setReadFrom w v' := by
    rw [Event.setReadFrom_setClock, Event.setReadFrom_clearReadFrom h.unresolved, h.setReadFrom]
  clock := by
    rcases hc with rfl | ⟨rfl, hsc⟩
    · exact h.clock
    · rw [h.setReadFrom] at hsc
      refine .inr ⟨⟨w₀, hlast, ?_⟩, write, v, hsc⟩
      rcases h.clock with hc | ⟨⟨w₁, hw₁, hc⟩, -⟩
      · exact congrArg (fun d => d.uniteWith (b.event w₀).clock) hc
      · obtain rfl : w₀ = w₁ := Option.some.inj (hlast.symm.trans hw₁)
        change ev₁.clock.uniteWith _ = _
        rw [hc, VectorClock.uniteWith_uniteWith_self hlen]

/-- A further attempt ends with the event a first one would end with, up to the clock. -/
theorem Retry.exists_attemptEvent (h : Retry b last ev ev₁) (write : ℕ) :
    ∃ c, b.attemptEvent last ev₁ write =
      { ev.setReadFrom write (b.event write).getWrittenValue with clock := c } := by
  obtain ⟨c, hc⟩ := Graph.exists_attemptEvent b last ev₁ write
  exact ⟨c, by rw [hc, h.setReadFrom]⟩

/-- The event after a rejected attempt: its choice is cleared, and its clock is set back if the
release-acquire rule had changed it. -/
def rejectedEvent (b : Graph V) (last : ℤ → Option ℕ) (ev : Event V) (write : ℕ) : Event V :=
  let r := ev.setReadFrom write (b.event write).getWrittenValue
  { r.clearReadFrom with
    clock :=
      if r.isAtLeastAcquire && (b.event write).isAtLeastRelease &&
          !(r.isSeqCst && (b.event write).isSeqCst) then ev.clock
      else (b.attemptEvent last ev write).clock }

/-- What the clock of the event is after a rejected attempt: the old one, or that with the clock
of the last seq-cst write, if the event resolved to a seq-cst access and the release-acquire rule
did not apply. -/
theorem rejectedEvent_clock (b : Graph V) (ev : Event V) (write : ℕ)
    (hlast : last ev.location = some w₀) :
    let r := ev.setReadFrom write (b.event write).getWrittenValue
    (b.rejectedEvent last ev write).clock =
      if r.isSeqCst && !(r.isAtLeastAcquire && (b.event write).isAtLeastRelease &&
          !(r.isSeqCst && (b.event write).isSeqCst)) then
        ev.clock.uniteWith (b.event w₀).clock
      else ev.clock := by
  intro r
  have hloc : r.location = ev.location := by simp [r]
  have hclock : r.clock = ev.clock := by simp [r]
  by_cases hsync : (r.isAtLeastAcquire && (b.event write).isAtLeastRelease &&
      !(r.isSeqCst && (b.event write).isSeqCst)) = true
  · simp only [rejectedEvent, r, hsync, if_true, Bool.not_true, Bool.and_false,
      Bool.false_eq_true, if_false]
  · have hsame : b.synchronizedEvent r write = r := if_neg hsync
    have hatt : b.attemptEvent last ev write = if r.isSeqCst then scEvent b last r else r := by
      rw [← hsame]
      rfl
    have hrej : (b.rejectedEvent last ev write).clock = (b.attemptEvent last ev write).clock :=
      if_neg hsync
    rw [hrej, hatt, eq_false_of_ne_true hsync]
    by_cases hsc : r.isSeqCst = true
    · simp only [hsc, if_true, scEvent, hloc, hlast, hclock, Bool.not_false, Bool.and_self]
    · simp only [hsc, Bool.false_and, Bool.false_eq_true, if_false, hclock]

/-- A rejected attempt takes all edges back. -/
theorem sketch_rejectedEvent (hb : b.WellFormed) (h : Sketch b [] false g ev [] last)
    (hw : write < b.events.length) (hlast : last ev.location = some w₀)
    (hw₀ : w₀ < b.events.length) :
    Sketch b [] false (g.reject write ev.id) (b.rejectedEvent last ev write) [] last := by
  set r := ev.setReadFrom write (b.event write).getWrittenValue with hrdef
  have hbegin := sketch_beginAttempt h hw hlast
  have hatt := sketch_attempt hb h hw hlast hw₀
  obtain ⟨c, hc⟩ := exists_attemptEvent b last ev write
  have hcid : (b.attemptEvent last ev write).id = ev.id := by rw [hc]; simp
  have hself := hbegin.event_self
  rw [Event.setReadFrom_id] at hself
  -- the event when the snapshot has been discarded and its choice cleared
  have h₁ := Sketch.modifyEvent (Sketch.discardSnapshot h hatt) (f := Event.clearReadFrom)
    (by simp) (by simp)
  rw [hcid] at h₁
  have hclear : (b.attemptEvent last ev write).clearReadFrom =
      { r.clearReadFrom with clock := c } := by
    rw [hc, Event.clearReadFrom_setClock]
  have hrestore : Function.update (ruleLast last (b.attemptEvent last ev write)) ev.location
      (some w₀) = last := by
    have hloc : (b.attemptEvent last ev write).location = ev.location := by rw [hc]; simp
    rw [ruleLast, lastAfter, hloc]
    split
    · rw [← hlast, Function.update_eq_self]
    · split
      · rw [Function.update_idem, ← hlast, Function.update_eq_self]
      · rw [← hlast, Function.update_eq_self]
  have hend : ∀ {g₃ : Graph V} {ev₃ : Event V},
      Sketch b [] false g₃ ev₃ [] (ruleLast last (b.attemptEvent last ev write)) →
      Sketch b [] false
        { g₃ with
          lastSeqCstWriteEvents :=
            Function.update g₃.lastSeqCstWriteEvents ((g.beginAttempt write ev.id).event
              ev.id).location (some (((g.beginAttempt write ev.id).lastSeqCstWriteEvents
                ((g.beginAttempt write ev.id).event ev.id).location).getD 0)) } ev₃ [] last := by
    intro g₃ ev₃ h₃
    have := h₃.updateLast ev.location w₀
    rw [hrestore] at this
    rw [hself, Event.setReadFrom_location, hbegin.last, hlast]
    exact this
  have hid₁ : (b.attemptEvent last ev write).clearReadFrom.id = ev.id := by simpa using hcid
  have hsync : (g.beginAttempt write ev.id).synchronizes write ev.id =
      (r.isAtLeastAcquire && (b.event write).isAtLeastRelease &&
        !(r.isSeqCst && (b.event write).isSeqCst)) := by
    rw [synchronizes, hself, hbegin.event_of_lt hw]
  rw [reject, hsync]
  split
  · -- the clock is restored
    rename_i hs
    have hev : b.rejectedEvent last ev write = { r.clearReadFrom with clock := ev.clock } := by
      simp only [rejectedEvent, ← hrdef, hs, if_true]
    have hclock : ((g.beginAttempt write ev.id).event ev.id).clock = ev.clock := by
      rw [hself, Event.setReadFrom_clock]
    have h₂ := h₁.setClock ev.clock hid₁
    rw [hclear] at h₂
    rw [hev, hclock]
    exact hend h₂
  · rename_i hs
    have hev : b.rejectedEvent last ev write = { r.clearReadFrom with clock := c } := by
      simp only [rejectedEvent, ← hrdef, eq_false_of_ne_true hs, Bool.false_eq_true, if_false, hc]
    rw [hclear] at h₁
    rw [hev]
    exact hend h₁

/-- Rejected attempts leave at most the clock of the last seq-cst write behind. -/
theorem sketch_reject (hb : b.WellFormed) (h : Sketch b [] false g ev₁ [] last)
    (hr : Retry b last ev ev₁) (hw : write < b.events.length) (hlast : last ev.location = some w₀)
    (hw₀ : w₀ < b.events.length) (hlen : ev.clock.times.length = (b.event w₀).clock.times.length) :
    ∃ ev₂, Sketch b [] false (g.reject write ev₁.id) ev₂ [] last ∧ Retry b last ev ev₂ := by
  have hlast₁ : last ev₁.location = some w₀ := hr.location ▸ hlast
  refine ⟨_, sketch_rejectedEvent hb h hw hlast₁ hw₀,
    hr.next hlast hlen (b.event write).getWrittenValue ?_⟩
  have hclock := rejectedEvent_clock b ev₁ write hlast₁
  dsimp only at hclock
  split at hclock
  · rename_i hleak
    exact .inr ⟨hclock, (Bool.and_eq_true_iff.mp hleak).1⟩
  · exact .inl hclock

end Read

end Graph

end Wmm

end LTest
