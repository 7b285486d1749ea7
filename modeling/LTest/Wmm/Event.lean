import Mathlib.Data.List.Basic
import Mathlib.Data.Int.Notation
import Mathlib.Tactic.Common

/-!
# Events of the weak-memory execution graph

`runtime/include/wmm/common.h`, `edge.h`, `vector_clock.h` and `event.h`: memory orders, edges,
vector clocks, and the five kinds of events a graph is made of. What these files print is left
out, and so is the copy of `*expected` a compare-exchange keeps only for printing.

## Layout

An `Event` carries the fields every event has and a `body`, one constructor for each subclass of
the source's `Event`; the event type is read off the body, so an event cannot claim a type it
does not have. Event ids and edge ids are the positions in the graph's lists of events and edges,
and a pointer to an event is its id. The outgoing edges, which the source keeps inside each event,
are a table of the graph: drawing an edge changes no event.

## Value types

The source's events are templates over the value type `T` of the accessed location. Here all
locations share one type `V`; `AtomicOps V` says which read-modify-write operators it has, in the
way the source asks with `requires`. The comparison of a compare-exchange, `==` of `T`, is taken to
be equality; so `T` is not a floating-point type with NaN.
-/

namespace LTest

namespace Wmm

/-- `MemoryOrder`, weakest first. -/
inductive MemoryOrder
  | relaxed
  | acquire
  | release
  | acqRel
  | seqCst
  deriving DecidableEq, Repr

/-- The value of the enumerator, which is what the source's `>=` compares. -/
def MemoryOrder.toNat : MemoryOrder → ℕ
  | .relaxed => 0
  | .acquire => 1
  | .release => 2
  | .acqRel => 3
  | .seqCst => 4

/-- `EventType`. -/
inductive EventType
  | dummy
  | read
  | write
  | rmw
  deriving DecidableEq, Repr

/-- `AtomicRmwOp`: the operation of an unconditional read-modify-write. -/
inductive AtomicRmwOp
  | exchange
  | fetchAdd
  | fetchSub
  | fetchAnd
  | fetchOr
  | fetchXor
  | fetchMin
  | fetchMax
  deriving DecidableEq, Repr

/-- `EdgeType`: program order, seq-cst, reads-from and modification order. -/
inductive EdgeType
  | po
  | sc
  | rf
  | mo
  deriving DecidableEq, Repr

/-- `Edge`. -/
structure Edge where
  /-- The index. -/
  id : ℕ
  /-- The type. -/
  type : EdgeType
  /-- The event it leaves. -/
  source : ℕ
  /-- The event it leads to. -/
  target : ℕ
  deriving DecidableEq, Repr

/-! ### Vector clocks -/

/-- `VectorClock`. -/
structure VectorClock where
  /-- The counter of each thread. -/
  times : List ℕ
  deriving DecidableEq, Repr

namespace VectorClock

variable {c : VectorClock} {d : VectorClock}

/-- The all-zero clock of `nThreads` threads. -/
def zero (nThreads : ℕ) : VectorClock := ⟨List.replicate nThreads 0⟩

/-- The counter of thread `i`. -/
def time (c : VectorClock) (i : ℕ) : ℕ := c.times.getD i 0

/-- `IsSubsetOf`: no counter is ahead of the other clock's. -/
def isSubsetOf (c other : VectorClock) : Bool :=
  (List.range c.times.length).all fun i => decide (c.time i ≤ other.time i)

/-- `UniteWith`: the pointwise maximum. -/
def uniteWith (c other : VectorClock) : VectorClock :=
  ⟨(List.range c.times.length).map fun i => max (c.time i) (other.time i)⟩

/-- `Increment`. -/
def increment (c : VectorClock) (threadId : ℕ) : VectorClock :=
  ⟨c.times.set threadId (c.time threadId + 1)⟩

@[simp] theorem length_zero (n : ℕ) : (zero n).times.length = n := by simp [zero]

@[simp] theorem length_uniteWith (c d : VectorClock) :
    (c.uniteWith d).times.length = c.times.length := by simp [uniteWith]

@[simp] theorem length_increment (c : VectorClock) (t : ℕ) :
    (c.increment t).times.length = c.times.length := by simp [increment]

theorem time_of_length_le {i : ℕ} (h : c.times.length ≤ i) : c.time i = 0 := by
  simp [VectorClock.time, h]

@[simp] theorem time_zero (n i : ℕ) : (zero n).time i = 0 := by
  simp only [VectorClock.time, zero, List.getD_eq_getElem?_getD, List.getElem?_replicate]
  split <;> rfl

theorem time_uniteWith (h : c.times.length = d.times.length) (i : ℕ) :
    (c.uniteWith d).time i = max (c.time i) (d.time i) := by
  by_cases hi : i < c.times.length
  · simp [VectorClock.time, uniteWith, hi]
  · rw [time_of_length_le (by simpa using hi), time_of_length_le (by simpa using hi),
      time_of_length_le (by omega)]
    rfl

theorem time_increment_self {t : ℕ} (h : t < c.times.length) :
    (c.increment t).time t = c.time t + 1 := by
  simp [VectorClock.time, increment, h]

theorem time_increment_of_ne (c : VectorClock) {t i : ℕ} (h : i ≠ t) :
    (c.increment t).time i = c.time i := by
  simp [VectorClock.time, increment, h.symm]

/-- Clocks of the same graph have the same length, and on those `isSubsetOf` is the pointwise
order. -/
theorem isSubsetOf_iff : c.isSubsetOf d = true ↔ ∀ i, c.time i ≤ d.time i := by
  simp only [isSubsetOf, List.all_eq_true, List.mem_range, decide_eq_true_eq]
  refine ⟨fun h i => ?_, fun h i _ => h i⟩
  by_cases hi : i < c.times.length
  · exact h i hi
  · rw [time_of_length_le (by omega)]
    exact Nat.zero_le _

/-- Uniting twice with the same clock is uniting once. -/
theorem uniteWith_uniteWith_self (h : c.times.length = d.times.length) :
    (c.uniteWith d).uniteWith d = c.uniteWith d := by
  rw [uniteWith, length_uniteWith]
  conv_rhs => rw [uniteWith]
  exact congrArg _ (List.map_congr_left fun i _ => by
    rw [time_uniteWith h, Nat.max_assoc, Nat.max_self])

end VectorClock

/-! ### Events -/

/-- `RMWState`. -/
inductive RMWState
  | read
  | modify
  | unset
  deriving DecidableEq, Repr

/-- The read-modify-write operators of a value type; `none` stands for an operator the type does
not have. -/
class AtomicOps (V : Type) where
  add : Option (V → V → V) := none
  sub : Option (V → V → V) := none
  and : Option (V → V → V) := none
  or : Option (V → V → V) := none
  xor : Option (V → V → V) := none
  min : Option (V → V → V) := none
  max : Option (V → V → V) := none

/-- The operators of the 32-bit `int`. -/
instance : AtomicOps (BitVec 32) where
  add := some (· + ·)
  sub := some (· - ·)
  and := some (· &&& ·)
  or := some (· ||| ·)
  xor := some (· ^^^ ·)
  min := some fun a b => if b.slt a then b else a
  max := some fun a b => if a.slt b then b else a

/-- `ApplyAtomicRmwOp`. An operator the value type lacks runs into `assert(false)` in the source,
followed by `return readValue`. -/
def applyAtomicRmwOp {V : Type} [AtomicOps V] (op : AtomicRmwOp) (readValue operand : V) : V :=
  let apply (f : Option (V → V → V)) : V := (f.map fun g => g readValue operand).getD readValue
  match op with
  | .exchange => operand
  | .fetchAdd => apply AtomicOps.add
  | .fetchSub => apply AtomicOps.sub
  | .fetchAnd => apply AtomicOps.and
  | .fetchOr => apply AtomicOps.or
  | .fetchXor => apply AtomicOps.xor
  | .fetchMin => apply AtomicOps.min
  | .fetchMax => apply AtomicOps.max

/-- `CASRMWEvent`: the fields a compare-exchange adds. -/
structure CASRMW (V : Type) where
  /-- The event it reads from. -/
  readFrom : Option ℕ := none
  /-- How it was resolved. -/
  state : RMWState := .unset
  /-- The expected value of the call. -/
  initialExpectedValue : V
  /-- The caller's variable the source points to. -/
  expected : V
  /-- The desired value. -/
  desired : V
  /-- The order of a failure. -/
  failureOrder : MemoryOrder
  deriving DecidableEq, Repr

/-- `UnconditionalRMWEvent`: the fields an exchange or `fetch_*` adds. -/
structure UnconditionalRMW (V : Type) where
  /-- The event it reads from. -/
  readFrom : Option ℕ := none
  /-- How it was resolved. -/
  state : RMWState := .unset
  /-- The operator. -/
  op : AtomicRmwOp
  /-- The operand. -/
  operand : V
  /-- The value it has read. -/
  cachedReadValue : V
  /-- The value it writes. -/
  writtenValue : V
  deriving DecidableEq, Repr

/-- The subclasses of `Event`. -/
inductive EventBody (V : Type)
  | dummy
  | write (value : V)
  | read (readFrom : Option ℕ)
  | cas (c : CASRMW V)
  | unconditional (u : UnconditionalRMW V)
  deriving DecidableEq, Repr

/-- `Event`. -/
structure Event (V : Type) where
  /-- The index. -/
  id : ℕ
  /-- The location; `-1` for a dummy event. -/
  location : ℤ
  /-- The thread. -/
  threadId : ℕ
  /-- The memory order. -/
  order : MemoryOrder
  /-- The clock. -/
  clock : VectorClock
  /-- The subclass. -/
  body : EventBody V
  deriving DecidableEq, Repr

namespace Event

variable {V : Type}

instance : Inhabited (Event V) := ⟨⟨0, -1, 0, .relaxed, ⟨[]⟩, .dummy⟩⟩

/-- The event type, fixed by the subclass. -/
def type (e : Event V) : EventType :=
  match e.body with
  | .dummy => .dummy
  | .write _ => .write
  | .read _ => .read
  | .cas _ => .rmw
  | .unconditional _ => .rmw

/-- `IsWrite`. -/
def isWrite (e : Event V) : Bool := e.type = .write

/-- `IsRead`. -/
def isRead (e : Event V) : Bool := e.type = .read

/-- `IsRMW`. -/
def isRMW (e : Event V) : Bool := e.type = .rmw

/-- `IsWriteOrRMW`. -/
def isWriteOrRMW (e : Event V) : Bool := e.isWrite || e.isRMW

/-- `IsReadOrRMW`. -/
def isReadOrRMW (e : Event V) : Bool := e.isRead || e.isRMW

/-- The order the virtual order queries look at: a compare-exchange that did not resolve to a
modification is subject to its failure order. -/
def memoryOrder (e : Event V) : MemoryOrder :=
  match e.body with
  | .cas c => if c.state = .modify then e.order else c.failureOrder
  | _ => e.order

/-- `IsSeqCst`. -/
def isSeqCst (e : Event V) : Bool := e.memoryOrder = .seqCst

/-- `IsAtLeastAcquire`. -/
def isAtLeastAcquire (e : Event V) : Bool :=
  MemoryOrder.acquire.toNat ≤ e.memoryOrder.toNat && e.memoryOrder ≠ .release

/-- `IsAtLeastRelease`. -/
def isAtLeastRelease (e : Event V) : Bool :=
  MemoryOrder.release.toNat ≤ e.memoryOrder.toNat

/-- `IsReadRWM`: a compare-exchange that resolved to a read. -/
def isReadRWM (e : Event V) : Bool :=
  match e.body with
  | .cas c => c.state = .read
  | _ => false

/-- `IsModifyRMW`: a read-modify-write that resolved to a modification. -/
def isModifyRMW (e : Event V) : Bool :=
  match e.body with
  | .cas c => c.state = .modify
  | .unconditional u => u.state = .modify
  | _ => false

/-- The test `IsWrite() || IsModifyRMW()` that the source repeats wherever it looks for a member
of the modification order. -/
def modifies (e : Event V) : Bool := e.isWrite || e.isModifyRMW

/-- `GetReadFromEvent`. -/
def getReadFromEvent (e : Event V) : Option ℕ :=
  match e.body with
  | .read rf => rf
  | .cas c => c.readFrom
  | .unconditional u => u.readFrom
  | _ => none

/-- `HappensBefore`. -/
def happensBefore (e other : Event V) : Bool := e.clock.isSubsetOf other.clock

/-- `GetWrittenValue`; asserted to be called on writes and read-modify-writes only. -/
def getWrittenValue [Inhabited V] (e : Event V) : V :=
  match e.body with
  | .write value => value
  | .cas c => if c.state = .modify then c.desired else c.expected
  | .unconditional u => u.writtenValue
  | _ => default

/-- `*expected` of a compare-exchange. -/
def expectedValue [Inhabited V] (e : Event V) : V :=
  match e.body with
  | .cas c => c.expected
  | _ => default

/-- `SetReadFromEvent(event)` for an event that writes `readValue`. -/
def setReadFrom [DecidableEq V] [AtomicOps V] (e : Event V) (w : ℕ) (readValue : V) :
    Event V :=
  match e.body with
  | .read _ => { e with body := .read (some w) }
  | .cas c =>
    if readValue = c.initialExpectedValue then
      { e with body := .cas { c with readFrom := some w, state := .modify } }
    else
      { e with body := .cas { c with readFrom := some w, state := .read, expected := readValue } }
  | .unconditional u =>
    let written := applyAtomicRmwOp u.op readValue u.operand
    { e with
      body := .unconditional { u with
        readFrom := some w, cachedReadValue := readValue, writtenValue := written,
        state := .modify } }
  | _ => e

/-- `SetReadFromEvent(nullptr)`. -/
def clearReadFrom (e : Event V) : Event V :=
  match e.body with
  | .read _ => { e with body := .read none }
  | .cas c =>
    { e with
      body := .cas { c with
        readFrom := none, state := .unset, expected := c.initialExpectedValue } }
  | .unconditional u =>
    { e with body := .unconditional { u with readFrom := none, state := .unset } }
  | _ => e

/-! ### Resolving a read -/

variable {e : Event V}

/-- An event that still has to choose where it reads from. -/
def Unresolved (e : Event V) : Prop :=
  match e.body with
  | .read rf => rf = none
  | .cas c => c.readFrom = none ∧ c.state = .unset ∧ c.expected = c.initialExpectedValue
  | .unconditional u => u.readFrom = none ∧ u.state = .unset
  | _ => False

theorem Unresolved.exists_body (h : e.Unresolved) :
    e.body = .read none ∨
      (∃ c, e.body = .cas c ∧ c.readFrom = none ∧ c.state = .unset ∧
        c.expected = c.initialExpectedValue) ∨
      ∃ u, e.body = .unconditional u ∧ u.readFrom = none ∧ u.state = .unset := by
  unfold Unresolved at h
  split at h
  · exact .inl (by simp_all)
  · exact .inr (.inl ⟨_, ‹_›, h⟩)
  · exact .inr (.inr ⟨_, ‹_›, h⟩)
  · exact h.elim

theorem Unresolved.getReadFromEvent (h : e.Unresolved) : e.getReadFromEvent = none := by
  rcases h.exists_body with hb | ⟨c, hb, hrf, -⟩ | ⟨u, hb, hrf, -⟩ <;>
    simp [Event.getReadFromEvent, *]

@[simp] theorem clearReadFrom_id (e : Event V) : e.clearReadFrom.id = e.id := by
  unfold clearReadFrom; split <;> rfl

@[simp] theorem clearReadFrom_location (e : Event V) : e.clearReadFrom.location = e.location := by
  unfold clearReadFrom; split <;> rfl

@[simp] theorem clearReadFrom_threadId (e : Event V) : e.clearReadFrom.threadId = e.threadId := by
  unfold clearReadFrom; split <;> rfl

theorem clearReadFrom_setClock (e : Event V) (c : VectorClock) :
    clearReadFrom { e with clock := c } = { e.clearReadFrom with clock := c } := by
  unfold clearReadFrom
  split <;> simp_all

section SetReadFrom

variable [DecidableEq V] [AtomicOps V]

theorem setReadFrom_setClock (e : Event V) (c : VectorClock) (w : ℕ) (v : V) :
    setReadFrom { e with clock := c } w v = { e.setReadFrom w v with clock := c } := by
  obtain ⟨id, location, threadId, order, clock, body⟩ := e
  cases body with
  | cas c => by_cases hv : v = c.initialExpectedValue <;> simp [setReadFrom, hv]
  | _ => rfl

/-- A discarded choice leaves no trace in the next one. -/
theorem setReadFrom_clearReadFrom (h : e.Unresolved) (w w' : ℕ) (v v' : V) :
    (e.setReadFrom w v).clearReadFrom.setReadFrom w' v' = e.setReadFrom w' v' := by
  rcases h.exists_body with hb | ⟨c, hb, -, -, hexp⟩ | ⟨u, hb, -⟩
  · simp [setReadFrom, clearReadFrom, hb]
  · by_cases hv : v = c.initialExpectedValue <;> by_cases hv' : v' = c.initialExpectedValue <;>
      simp [setReadFrom, clearReadFrom, hb, hv, hv', hexp]
  · simp [setReadFrom, clearReadFrom, hb]

theorem unresolved_clearReadFrom (h : e.Unresolved) (w : ℕ) (v : V) :
    (e.setReadFrom w v).clearReadFrom.Unresolved := by
  rcases h.exists_body with hb | ⟨c, hb, -⟩ | ⟨u, hb, -⟩
  · simp [setReadFrom, clearReadFrom, hb, Unresolved]
  · by_cases hv : v = c.initialExpectedValue <;>
      simp [setReadFrom, clearReadFrom, hb, hv, Unresolved]
  · simp [setReadFrom, clearReadFrom, hb, Unresolved]

@[simp] theorem setReadFrom_id (e : Event V) (w : ℕ) (v : V) : (e.setReadFrom w v).id = e.id := by
  unfold setReadFrom; split <;> (try split) <;> rfl

@[simp] theorem setReadFrom_location (e : Event V) (w : ℕ) (v : V) :
    (e.setReadFrom w v).location = e.location := by
  unfold setReadFrom; split <;> (try split) <;> rfl

@[simp] theorem setReadFrom_threadId (e : Event V) (w : ℕ) (v : V) :
    (e.setReadFrom w v).threadId = e.threadId := by
  unfold setReadFrom; split <;> (try split) <;> rfl

@[simp] theorem setReadFrom_clock (e : Event V) (w : ℕ) (v : V) :
    (e.setReadFrom w v).clock = e.clock := by
  unfold setReadFrom; split <;> (try split) <;> rfl

theorem setReadFrom_getReadFromEvent (h : e.Unresolved) (w : ℕ) (v : V) :
    (e.setReadFrom w v).getReadFromEvent = some w := by
  rcases h.exists_body with hb | ⟨c, hb, -⟩ | ⟨u, hb, -⟩
  · simp [setReadFrom, Event.getReadFromEvent, hb]
  · by_cases hv : v = c.initialExpectedValue <;>
      simp [setReadFrom, Event.getReadFromEvent, hb, hv]
  · simp [setReadFrom, Event.getReadFromEvent, hb]

/-- Once it has chosen, an event is a read, a read-modify-write that failed, or one that
modifies. -/
theorem setReadFrom_modifies (h : e.Unresolved) (w : ℕ) (v : V) :
    (e.setReadFrom w v).modifies =
      !((e.setReadFrom w v).isRead || (e.setReadFrom w v).isReadRWM) := by
  rcases h.exists_body with hb | ⟨c, hb, -⟩ | ⟨u, hb, -⟩
  · simp [setReadFrom, hb, Event.modifies, isWrite, isRead, isReadRWM, isModifyRMW, type]
  · by_cases hv : v = c.initialExpectedValue <;>
      simp [setReadFrom, hb, hv, Event.modifies, isWrite, isRead, isReadRWM, isModifyRMW, type]
  · simp [setReadFrom, hb, Event.modifies, isWrite, isRead, isReadRWM, isModifyRMW, type]

end SetReadFrom

end Event

end Wmm

end LTest
