import LTest.Lib.Adjacency
import LTest.Wmm.Event

/-!
# The execution graph

`runtime/include/wmm/graph.h` and `wmm.h`, function by function and under the source's names.

## What stands for what

* `std::vector<Event*> events` is the list `events`; an `Event*` is the event's id, its position
  in that list, and an edge id is a position in `edges`.
* `event->edges` is `outEdges event`.
* `eventsPerThread` and `lastSeqCstWriteEvents` are functions; a location the map does not
  contain has `none`, and `operator[]` inserts event id `0` for it.
* `std::ranges::shuffle` is outside the source: the order in which the candidates come out is an
  argument `shuffled` of the functions that shuffle, and `ExecutionGraph.exec` accepts it only
  if it is a rearrangement of `readFromCandidates`.
* The assertions "must have appropriate write event to read from" are the `none` results of
  `addReadEvent`, `addRMWEvent` and `addUnconditionalRMWEvent`. The logging is left out.

`IsConsistent` is the scan of `Lib.DepthFirst`, over the modification-order successors in the
order in which they stand in `event->edges`.
-/

namespace LTest

namespace Wmm

open DepthFirst (scanFuel)

/-- `Graph`. -/
structure Graph (V : Type) where
  /-- The edges. -/
  edges : List Edge := []
  /-- The events. -/
  events : List (Event V) := []
  /-- `event->edges`, the ids of the outgoing edges of each event. -/
  outEdges : ℕ → List ℕ := fun _ => []
  /-- The events of each thread. -/
  eventsPerThread : ℕ → List ℕ := fun _ => []
  /-- The last seq-cst write of each location. -/
  lastSeqCstWriteEvents : ℤ → Option ℕ := fun _ => none
  /-- The edges since the snapshot. -/
  snapshotEdges : List ℕ := []
  /-- Whether there is a snapshot. -/
  inSnapshotMode : Bool := false
  /-- The number of threads. -/
  nThreads : ℕ := 0

namespace Graph

variable {V : Type}

instance : Inhabited Edge := ⟨⟨0, .po, 0, 0⟩⟩

section

variable (g : Graph V)

/-- The event an id points to. -/
def event (i : ℕ) : Event V := g.events.getD i default

/-- `edges[eId]`. -/
def edge (i : ℕ) : Edge := g.edges.getD i default

/-- Apply `f` to the event an id points to. -/
def modifyEvent (i : ℕ) (f : Event V → Event V) : Graph V :=
  { g with events := g.events.modify i f }

/-- `event->clock = clock`. -/
def setClock (i : ℕ) (clock : VectorClock) : Graph V :=
  g.modifyEvent i fun e => { e with clock := clock }

/-! ### Edges -/

/-- `ExistsEdge`. -/
def existsEdge (type : EdgeType) (source target : ℕ) : Bool :=
  (g.outEdges source).any fun eId =>
    (g.edge eId).source = source && (g.edge eId).target = target && (g.edge eId).type = type

/-- `AddEdge`: a modification-order edge is not added twice. -/
def addEdge (type : EdgeType) (source target : ℕ) : Graph V :=
  if type = .mo && g.existsEdge type source target then g
  else
    let eId := g.edges.length
    { g with
      edges := g.edges ++ [⟨eId, type, source, target⟩]
      outEdges := Function.update g.outEdges source (g.outEdges source ++ [eId])
      snapshotEdges := if g.inSnapshotMode then eId :: g.snapshotEdges else g.snapshotEdges }

/-- `IterateThroughMostRecentEventsByPredicate`: in each thread, the callback is invoked on the
most recent event satisfying the predicate, if there is one. -/
def iterateThroughMostRecentEventsByPredicate
    (predicate : Graph V → Event V → Bool) (callback : Graph V → Event V → Graph V) : Graph V :=
  (List.range g.nThreads).foldl (fun g t =>
    match ((g.eventsPerThread t).reverse.map g.event).find? (predicate g) with
    | some otherEvent => callback g otherEvent
    | none => g) g

/-- `GetLastSeqCstWriteEventId`. -/
def getLastSeqCstWriteEventId (location : ℤ) : Option ℕ :=
  g.lastSeqCstWriteEvents location

/-- `CreatePoEdgeToEvent`: the new event is appended after the last one of its thread, with that
one's clock, incremented. -/
def createPoEdgeToEvent (event : Event V) : Graph V :=
  let threadId := event.threadId
  let last := (g.eventsPerThread threadId).getLastD 0
  let g₁ := g.addEdge .po last event.id
  { g₁ with
    eventsPerThread := Function.update g₁.eventsPerThread threadId
      (g₁.eventsPerThread threadId ++ [event.id])
    events := g₁.events ++ [{ event with clock := (g₁.event last).clock.increment threadId }] }

/-- `CreateScEdgeToEvent`. -/
def createScEdgeToEvent (event : ℕ) : Graph V :=
  match g.getLastSeqCstWriteEventId (g.event event).location with
  | none => g
  | some last =>
    let g := g.addEdge .sc last event
    g.setClock event ((g.event event).clock.uniteWith (g.event last).clock)

/-- `CreateSeqCstReadWriteCoherenceEdges`. -/
def createSeqCstReadWriteCoherenceEdges (write read : ℕ) : Graph V :=
  match g.getLastSeqCstWriteEventId (g.event read).location with
  | none => g
  | some last => if last = write then g else g.addEdge .mo last write

/-- `CreateWriteReadCoherenceEdges`. -/
def createWriteReadCoherenceEdges (write read : ℕ) : Graph V :=
  g.iterateThroughMostRecentEventsByPredicate
    (fun g otherEvent => read ≠ otherEvent.id && write ≠ otherEvent.id && otherEvent.modifies &&
      otherEvent.location = (g.event read).location && otherEvent.happensBefore (g.event read))
    fun g otherEvent => g.addEdge .mo otherEvent.id write

/-- `CreateReadReadCoherenceEdges`. -/
def createReadReadCoherenceEdges (write read : ℕ) : Graph V :=
  g.iterateThroughMostRecentEventsByPredicate
    (fun g otherEvent => read ≠ otherEvent.id && write ≠ otherEvent.id &&
      otherEvent.isReadOrRMW && otherEvent.location = (g.event read).location &&
      otherEvent.happensBefore (g.event read) && otherEvent.getReadFromEvent ≠ none &&
      otherEvent.getReadFromEvent ≠ some write)
    fun g otherRead => g.addEdge .mo (otherRead.getReadFromEvent.getD 0) write

/-- `CreateSeqCstConsistencyEdges`. -/
def createSeqCstConsistencyEdges (event : ℕ) : Graph V :=
  match g.getLastSeqCstWriteEventId (g.event event).location with
  | none => g
  | some last => g.addEdge .mo last event

/-- `CreateWriteWriteCoherenceEdges`. -/
def createWriteWriteCoherenceEdges (event : ℕ) : Graph V :=
  g.iterateThroughMostRecentEventsByPredicate
    (fun g otherEvent => event ≠ otherEvent.id && otherEvent.modifies &&
      otherEvent.location = (g.event event).location && otherEvent.happensBefore (g.event event))
    fun g otherEvent => g.addEdge .mo otherEvent.id event

/-- `CreateReadWriteCoherenceEdges`. -/
def createReadWriteCoherenceEdges (event : ℕ) : Graph V :=
  g.iterateThroughMostRecentEventsByPredicate
    (fun g otherEvent => event ≠ otherEvent.id && otherEvent.isReadOrRMW &&
      otherEvent.location = (g.event event).location && otherEvent.happensBefore (g.event event))
    fun g otherEvent => g.addEdge .mo (otherEvent.getReadFromEvent.getD 0) event

/-- `CreateRmwConsistencyEdges`. -/
def createRmwConsistencyEdges (write rmw : ℕ) : Graph V :=
  g.addEdge .mo write rmw

/-- `CreateRmwAtomicityEdges`: the loop over `write->edges`. The edges it adds leave `rmw`, so
the list it walks does not change under it. -/
def createRmwAtomicityEdges (write rmw : ℕ) : Graph V :=
  (g.outEdges write).foldl (fun g edgeId =>
    if (g.edge edgeId).type = .mo && (g.edge edgeId).target ≠ rmw then
      g.addEdge .mo rmw (g.edge edgeId).target
    else g) g

/-! ### Consistency and snapshots -/

/-- The targets of the modification-order edges of an event, in the order of `event->edges`. -/
def moSuccessors (i : ℕ) : List ℕ :=
  (g.outEdges i).filterMap fun edgeId =>
    if (g.edge edgeId).type = .mo then some (g.edge edgeId).target else none

/-- `IsConsistent`. The scan has enough fuel, see `DepthFirst.exists_run_init`. -/
def isConsistent : Bool :=
  let ids := List.range g.events.length
  (DepthFirst.run g.moSuccessors (scanFuel ids) (DepthFirst.init ids)).getD false

/-- `StartSnapshot`. -/
def startSnapshot : Graph V := { g with inSnapshotMode := true }

/-- `ApplySnapshot`. -/
def applySnapshot : Graph V :=
  { g with inSnapshotMode := false, snapshotEdges := [] }

/-- Pop the elements at the back of a vector as long as they satisfy `p`. -/
def popBackWhile {α : Type} (p : α → Bool) (l : List α) : List α := (l.reverse.dropWhile p).reverse

/-- `DiscardSnapshot`. -/
def discardSnapshot : Graph V :=
  { g with
    edges := popBackWhile (fun e => g.snapshotEdges.contains e.id) g.edges
    outEdges := fun i => popBackWhile (fun e => g.snapshotEdges.contains e) (g.outEdges i)
    inSnapshotMode := false
    snapshotEdges := [] }

end

/-! ### Reading -/

section Read

variable [DecidableEq V] [Inhabited V] [AtomicOps V]

/-- `read->SetReadFromEvent(write)`. -/
def setReadFromEvent (g : Graph V) (read write : ℕ) : Graph V :=
  g.modifyEvent read fun e => e.setReadFrom write (g.event write).getWrittenValue

/-- The rules of `TryCreateRfEdge`, once the read-from edge and the clock are set: those of a
read, or, for a read-modify-write that modifies, those of reads and writes. -/
def createReadFromRuleEdges (g : Graph V) (write read : ℕ) : Graph V :=
  if (g.event read).isRead || (g.event read).isReadRWM then
    let g :=
      if (g.event read).isSeqCst then
        (g.createScEdgeToEvent read).createSeqCstReadWriteCoherenceEdges write read
      else g
    let g := g.createWriteReadCoherenceEdges write read
    g.createReadReadCoherenceEdges write read
  else
    let g := g.createRmwConsistencyEdges write read
    let g := g.createRmwAtomicityEdges write read
    let g :=
      if (g.event read).isSeqCst then
        let g := g.createScEdgeToEvent read
        let g := g.createSeqCstReadWriteCoherenceEdges write read
        let g := g.createSeqCstConsistencyEdges read
        { g with
          lastSeqCstWriteEvents :=
            Function.update g.lastSeqCstWriteEvents (g.event read).location (some read) }
      else g
    let g := g.createWriteReadCoherenceEdges write read
    let g := g.createReadReadCoherenceEdges write read
    let g := g.createReadWriteCoherenceEdges read
    g.createWriteWriteCoherenceEdges read

/-- The condition under which `TryCreateRfEdge` establishes synchronizes-with. -/
def synchronizes (g : Graph V) (write read : ℕ) : Bool :=
  (g.event read).isAtLeastAcquire && (g.event write).isAtLeastRelease &&
    !((g.event read).isSeqCst && (g.event write).isSeqCst)

/-- `TryCreateRfEdge`. -/
def tryCreateRfEdge (g : Graph V) (write read : ℕ) : Bool × Graph V :=
  let g := g.startSnapshot
  let g := g.addEdge .rf write read
  let g := g.setReadFromEvent read write
  let location := (g.event read).location
  let oldLastSeqCstWriteEvent := (g.lastSeqCstWriteEvents location).getD 0
  let g := { g with
    lastSeqCstWriteEvents :=
      Function.update g.lastSeqCstWriteEvents location (some oldLastSeqCstWriteEvent) }
  let isClockUpdated := g.synchronizes write read
  let oldClock := (g.event read).clock
  let g :=
    if isClockUpdated then g.setClock read (oldClock.uniteWith (g.event write).clock) else g
  let g := g.createReadFromRuleEdges write read
  if g.isConsistent then (true, g.applySnapshot)
  else
    let g := g.discardSnapshot
    let g := g.modifyEvent read Event.clearReadFrom
    let g := if isClockUpdated then g.setClock read oldClock else g
    (false, { g with
      lastSeqCstWriteEvents :=
        Function.update g.lastSeqCstWriteEvents location (some oldLastSeqCstWriteEvent) })

/-- The loop over the shuffled candidates: stop at the first one that is accepted. -/
def tryCandidates (g : Graph V) (read : ℕ) : List ℕ → Graph V
  | [] => g
  | write :: rest =>
    let r := g.tryCreateRfEdge write read
    if r.1 then r.2 else r.2.tryCandidates read rest

/-- The candidates `GetShuffledReadFromCandidates` shuffles. -/
def readFromCandidates (g : Graph V) (event : ℕ) : List ℕ :=
  (g.events.filter fun e =>
    e.modifies && e.location = (g.event event).location && e.id ≠ event).map (·.id)

/-- What `AddReadEvent`, `AddRMWEvent` and `AddUnconditionalRMWEvent` do with their new event:
append it, then look for an event to read from. `none` is the failed assertion that there is
one. -/
def addReadingEvent (g : Graph V) (event : Event V) (shuffled : List ℕ) :
    Option (Graph V) :=
  let g := (g.createPoEdgeToEvent event).tryCandidates event.id shuffled
  if (g.event event.id).getReadFromEvent = none then none else some g

/-- `GetReadValue`. -/
def getReadValue (g : Graph V) (i : ℕ) : V :=
  match (g.event i).body with
  | .read rf => (g.event (rf.getD 0)).getWrittenValue
  | .cas c => (g.event (c.readFrom.getD 0)).getWrittenValue
  | .unconditional u => u.cachedReadValue
  | _ => default

/-- The event `AddReadEvent` creates. -/
def readEvent (g : Graph V) (location : ℤ) (threadId : ℕ) (order : MemoryOrder) : Event V :=
  ⟨g.events.length, location, threadId, order, .zero g.nThreads, .read none⟩

/-- `AddReadEvent`. -/
def addReadEvent (g : Graph V) (location : ℤ) (threadId : ℕ) (order : MemoryOrder)
    (shuffled : List ℕ) : Option (Graph V × V) :=
  (g.addReadingEvent (g.readEvent location threadId order) shuffled).map fun g' =>
    (g', g'.getReadValue g.events.length)

/-- The event `AddRMWEvent` creates. -/
def casEvent (g : Graph V) (location : ℤ) (threadId : ℕ) (expected desired : V)
    (successOrder failureOrder : MemoryOrder) : Event V :=
  ⟨g.events.length, location, threadId, successOrder, .zero g.nThreads,
    .cas { initialExpectedValue := expected, expected := expected, desired := desired,
           failureOrder := failureOrder }⟩

/-- `AddRMWEvent`, with the value left in `*expected`. -/
def addRMWEvent (g : Graph V) (location : ℤ) (threadId : ℕ) (expected desired : V)
    (successOrder failureOrder : MemoryOrder) (shuffled : List ℕ) :
    Option (Graph V × (Bool × V) × V) :=
  (g.addReadingEvent (g.casEvent location threadId expected desired successOrder failureOrder)
      shuffled).map fun g' =>
    (g', ((g'.event g.events.length).isModifyRMW, g'.getReadValue g.events.length),
      (g'.event g.events.length).expectedValue)

/-- The event `AddUnconditionalRMWEvent` creates. -/
def unconditionalRMWEvent (g : Graph V) (location : ℤ) (threadId : ℕ) (op : AtomicRmwOp)
    (operand : V) (order : MemoryOrder) : Event V :=
  ⟨g.events.length, location, threadId, order, .zero g.nThreads,
    .unconditional { op := op, operand := operand, cachedReadValue := default,
                     writtenValue := default }⟩

/-- `AddUnconditionalRMWEvent`. -/
def addUnconditionalRMWEvent (g : Graph V) (location : ℤ) (threadId : ℕ) (op : AtomicRmwOp)
    (operand : V) (order : MemoryOrder) (shuffled : List ℕ) : Option (Graph V × V) :=
  (g.addReadingEvent (g.unconditionalRMWEvent location threadId op operand order)
      shuffled).map fun g' =>
    (g', g'.getReadValue g.events.length)

end Read

/-! ### Writing -/

/-- The event `AddWriteEvent` creates. -/
def writeEvent (g : Graph V) (location : ℤ) (threadId : ℕ) (order : MemoryOrder) (value : V) :
    Event V :=
  ⟨g.events.length, location, threadId, order, .zero g.nThreads, .write value⟩

/-- `AddWriteEvent`. -/
def addWriteEvent (g : Graph V) (location : ℤ) (threadId : ℕ) (order : MemoryOrder) (value : V) :
    Graph V :=
  let event := g.events.length
  let g := g.createPoEdgeToEvent (g.writeEvent location threadId order value)
  let g :=
    if order = .seqCst then
      let g := g.createScEdgeToEvent event
      let g := g.createSeqCstConsistencyEdges event
      { g with
        lastSeqCstWriteEvents := Function.update g.lastSeqCstWriteEvents location (some event) }
    else g
  let g := g.createReadWriteCoherenceEdges event
  g.createWriteWriteCoherenceEdges event

/-! ### Reset -/

/-- `DummyEvent`. -/
def dummyEvent (nThreads t : ℕ) : Event V :=
  ⟨t, -1, t, .relaxed, .zero nThreads, .dummy⟩

/-- `Reset`: `Clean` and then `InitThreads`, which gives each thread a dummy first event. The
snapshot fields are not touched. -/
def reset (g : Graph V) (nThreads : ℕ) : Graph V :=
  { edges := []
    events := (List.range nThreads).map (dummyEvent nThreads)
    outEdges := fun _ => []
    eventsPerThread := fun t => if t < nThreads then [t] else []
    lastSeqCstWriteEvents := fun _ => none
    snapshotEdges := g.snapshotEdges
    inSnapshotMode := g.inSnapshotMode
    nThreads := nThreads }

end Graph

/-! ### The execution graph -/

/-- `INIT_THREAD_ID`, the thread registration events belong to. -/
def initThreadId : ℕ := 0

/-- `ExecutionGraph`. -/
structure ExecutionGraph (V : Type) where
  /-- The number of threads. -/
  nThreads : ℕ := 0
  /-- The id of the next location. -/
  nextLocationId : ℕ := 0
  /-- The graph. -/
  graph : Graph V := {}

/-- A call into the execution graph. A call that shuffles carries the outcome of its shuffle. -/
inductive Op (V : Type)
  | reset (nThreads : ℕ)
  | registerLocation (value : V)
  | load (location threadId : ℕ) (order : MemoryOrder) (shuffled : List ℕ)
  | store (location threadId : ℕ) (order : MemoryOrder) (value : V)
  | readModifyWrite (location threadId : ℕ) (expected desired : V)
      (success failure : MemoryOrder) (shuffled : List ℕ)
  | unconditionalReadModifyWrite (location threadId : ℕ) (op : AtomicRmwOp) (operand : V)
      (order : MemoryOrder) (shuffled : List ℕ)
  deriving DecidableEq, Repr

/-- What a call returns. -/
inductive Ret (V : Type)
  | unit
  | location (id : ℕ)
  | value (v : V)
  | rmw (success : Bool) (v expected : V)
  deriving DecidableEq, Repr

namespace ExecutionGraph

variable {V : Type}

/-- `Reset`. -/
def reset (e : ExecutionGraph V) (nThreads : ℕ) : ExecutionGraph V :=
  { nThreads := nThreads, nextLocationId := 0, graph := e.graph.reset nThreads }

/-- `RegisterLocation`. -/
def registerLocation (e : ExecutionGraph V) (value : V) : ExecutionGraph V :=
  { e with
    nextLocationId := e.nextLocationId + 1
    graph := e.graph.addWriteEvent e.nextLocationId initThreadId .seqCst value }

/-- `Store`. -/
def store (e : ExecutionGraph V) (location threadId : ℕ) (order : MemoryOrder) (value : V) :
    ExecutionGraph V :=
  { e with graph := e.graph.addWriteEvent location threadId order value }

/-- The location is registered and the thread belongs to the graph. -/
def Valid (e : ExecutionGraph V) (location threadId : ℕ) : Prop :=
  location < e.nextLocationId ∧ threadId < e.nThreads

instance (e : ExecutionGraph V) (location threadId : ℕ) : Decidable (e.Valid location threadId) :=
  inferInstanceAs (Decidable (_ ∧ _))

variable [DecidableEq V] [Inhabited V] [AtomicOps V]

section

variable (e : ExecutionGraph V)

/-- The candidates a reading call on `location` shuffles. -/
def candidates (location : ℕ) : List ℕ :=
  (e.graph.events.filter fun ev => ev.modifies && ev.location = (location : ℤ)).map (·.id)

/-- `Load`. -/
def load (location threadId : ℕ) (order : MemoryOrder)
    (shuffled : List ℕ) : Option (ExecutionGraph V × V) :=
  (e.graph.addReadEvent location threadId order shuffled).map fun r =>
    ({ e with graph := r.1 }, r.2)

/-- `ReadModifyWrite`. -/
def readModifyWrite (location threadId : ℕ) (expected desired : V)
    (success failure : MemoryOrder) (shuffled : List ℕ) :
    Option (ExecutionGraph V × (Bool × V) × V) :=
  (e.graph.addRMWEvent location threadId expected desired success failure shuffled).map fun r =>
    ({ e with graph := r.1 }, r.2)

/-- `UnconditionalReadModifyWrite`. -/
def unconditionalReadModifyWrite (location threadId : ℕ)
    (op : AtomicRmwOp) (operand : V) (order : MemoryOrder) (shuffled : List ℕ) :
    Option (ExecutionGraph V × V) :=
  (e.graph.addUnconditionalRMWEvent location threadId op operand order shuffled).map fun r =>
    ({ e with graph := r.1 }, r.2)

/-- The calls the harness can make: on a registered location, from a thread of the graph, with a
shuffle outcome that is one. -/
def Enabled : Op V → Prop
  | .reset _ => True
  | .registerLocation _ => initThreadId < e.nThreads
  | .load location threadId _ shuffled =>
    e.Valid location threadId ∧ shuffled.Perm (e.candidates location)
  | .store location threadId _ _ => e.Valid location threadId
  | .readModifyWrite location threadId _ _ _ _ shuffled =>
    e.Valid location threadId ∧ shuffled.Perm (e.candidates location)
  | .unconditionalReadModifyWrite location threadId _ _ _ shuffled =>
    e.Valid location threadId ∧ shuffled.Perm (e.candidates location)

end

instance (e : ExecutionGraph V) (op : Op V) : Decidable (e.Enabled op) :=
  match op with
  | .reset _ => inferInstanceAs (Decidable True)
  | .registerLocation _ => inferInstanceAs (Decidable (_ < _))
  | .load .. => inferInstanceAs (Decidable (_ ∧ _))
  | .store .. => inferInstanceAs (Decidable (e.Valid _ _))
  | .readModifyWrite .. => inferInstanceAs (Decidable (_ ∧ _))
  | .unconditionalReadModifyWrite .. => inferInstanceAs (Decidable (_ ∧ _))

/-- Execute a call; `none` is a failed assertion. -/
def exec (e : ExecutionGraph V) : Op V → Option (ExecutionGraph V × Ret V)
  | .reset nThreads => some (e.reset nThreads, .unit)
  | .registerLocation value => some (e.registerLocation value, .location e.nextLocationId)
  | .load location threadId order shuffled =>
    (e.load location threadId order shuffled).map fun r => (r.1, .value r.2)
  | .store location threadId order value => some (e.store location threadId order value, .unit)
  | .readModifyWrite location threadId expected desired success failure shuffled =>
    (e.readModifyWrite location threadId expected desired success failure shuffled).map fun r =>
      (r.1, .rmw r.2.1.1 r.2.1.2 r.2.2)
  | .unconditionalReadModifyWrite location threadId op operand order shuffled =>
    (e.unconditionalReadModifyWrite location threadId op operand order shuffled).map fun r =>
      (r.1, .value r.2)

end ExecutionGraph

end Wmm

end LTest
