import LTest.Wmm.Attempt

/-!
# How a graph grows

Every operation appends one event, and the edges it draws are of three kinds: into the event that
is read from, into the new event, and, for a read-modify-write, out of the new event. `Growth`
collects what the later invariants need to know about the step and forgets which function made
it: which edges there can be (`Growth.sound`) and which edges there must be (the `cover` fields).

## Main definitions

* `Graph.Settled` — clocks, reads and last seq-cst writes are in order
* `Graph.NextClock` — a clock an event appended to a thread can have
* `Graph.Source` — an event that a new event must not be ordered before
* `Graph.Growth` — one operation

## Main results

* `Graph.growth_addWriteEvent`, `Graph.growth_of_accepted` — stores and accepted attempts are
  growth steps
-/

namespace LTest

namespace Wmm

theorem Event.happensBefore_iff {V : Type} {e e' : Event V} :
    e.happensBefore e' = true ↔ ∀ t, e.clock.time t ≤ e'.clock.time t :=
  VectorClock.isSubsetOf_iff

theorem Event.happensBefore_trans {V : Type} {e₁ e₂ e₃ : Event V} (h : e₁.happensBefore e₂ = true)
    (h' : e₂.happensBefore e₃ = true) : e₁.happensBefore e₃ = true :=
  happensBefore_iff.mpr fun t =>
    Nat.le_trans (happensBefore_iff.mp h t) (happensBefore_iff.mp h' t)

namespace Graph

open Adjacency

variable {V : Type}

/-! ### Settled graphs -/

/-- A graph between two operations, as far as events are concerned. -/
structure Settled (g : Graph V) : Prop where
  /-- The graph is well-formed. -/
  wf : g.WellFormed
  /-- Clocks have an entry for each thread. -/
  clock_length : ∀ i < g.events.length, (g.event i).clock.times.length = g.nThreads
  /-- They follow the program order. -/
  clock_mono : ∀ i j, i ≤ j → j < g.events.length →
    (g.event i).threadId = (g.event j).threadId → (g.event i).happensBefore (g.event j) = true
  /-- No thread is known better elsewhere than by its own events. -/
  clock_bound : ∀ i < g.events.length, ∀ t < g.nThreads, ∃ j < g.events.length,
    (g.event j).threadId = t ∧ (g.event i).clock.time t ≤ (g.event j).clock.time t
  /-- Who knows an event knows its past. -/
  clock_exact : ∀ i < g.events.length, ∀ j < g.events.length,
    (g.event i).clock.time (g.event i).threadId ≤ (g.event j).clock.time (g.event i).threadId →
    (g.event i).happensBefore (g.event j) = true
  /-- Every read is resolved. -/
  resolved : ∀ i < g.events.length, (g.event i).isReadOrRMW = true →
    ∃ w, (g.event i).getReadFromEvent = some w
  /-- It has found an earlier event of its location to read from. -/
  readFrom : ∀ i < g.events.length, ∀ w, (g.event i).getReadFromEvent = some w →
    w < i ∧ (g.event w).modifies = true ∧ (g.event w).location = (g.event i).location
  /-- What is not a dummy modifies or reads. -/
  kind : ∀ i < g.events.length, 0 ≤ (g.event i).location →
    (g.event i).modifies = true ∨ ∃ w, (g.event i).getReadFromEvent = some w
  /-- The last seq-cst writes modify their locations. -/
  last : ∀ x w, g.lastSeqCstWriteEvents x = some w →
    w < g.events.length ∧ (g.event w).modifies = true ∧ (g.event w).location = x
  /-- The locations of events have one. -/
  registered : ∀ i < g.events.length, 0 ≤ (g.event i).location →
    g.lastSeqCstWriteEvents (g.event i).location ≠ none

/-- What reads from somewhere is a read or a read-modify-write. -/
theorem isReadOrRMW_of_readFrom {e : Event V} {w : ℕ} (h : e.getReadFromEvent = some w) :
    e.isReadOrRMW = true := by
  obtain ⟨id, location, threadId, order, clock, body⟩ := e
  cases body with
  | dummy => simp [Event.getReadFromEvent] at h
  | write value => simp [Event.getReadFromEvent] at h
  | _ => rfl

/-! ### Clocks of new events -/

variable {g : Graph V} {i t write : ℕ} {ev : Event V}

/-- A clock that the next event of thread `t` can have. -/
structure NextClock (g : Graph V) (t : ℕ) (c : VectorClock) : Prop where
  /-- It has an entry for each thread. -/
  length : c.times.length = g.nThreads
  /-- It knows the events of the thread. -/
  thread : ∀ i < g.events.length, (g.event i).threadId = t →
    ∀ s, (g.event i).clock.time s ≤ c.time s
  /-- No event knows it. -/
  fresh : ∀ i < g.events.length, (g.event i).clock.time t < c.time t
  /-- It knows no more of the other threads than some event does. -/
  bound : ∀ s < g.nThreads, s ≠ t → ∃ j < g.events.length,
    c.time s ≤ (g.event j).clock.time s
  /-- With an event it knows the event's past. -/
  exact : ∀ i < g.events.length,
    (g.event i).clock.time (g.event i).threadId ≤ c.time (g.event i).threadId →
    ∀ s, (g.event i).clock.time s ≤ c.time s

theorem Settled.nextClock (h : g.Settled) (ht : t < g.nThreads) :
    NextClock g t (g.nextClock t) := by
  set k := (g.eventsPerThread t).getLastD 0
  obtain ⟨hklt, hkt, hmax⟩ := h.wf.getLastD_spec ht
  have hlen : t < (g.event k).clock.times.length := by rw [h.clock_length k hklt]; exact ht
  have hself : (g.nextClock t).time t = (g.event k).clock.time t + 1 :=
    VectorClock.time_increment_self hlen
  have hother : ∀ s, s ≠ t → (g.nextClock t).time s = (g.event k).clock.time s := fun s hs =>
    VectorClock.time_increment_of_ne _ hs
  have hge : ∀ s, (g.event k).clock.time s ≤ (g.nextClock t).time s := fun s => by
    by_cases hs : s = t
    · subst hs; omega
    · exact Nat.le_of_eq (hother s hs).symm
  have hthread : ∀ i < g.events.length, (g.event i).threadId = t →
      ∀ s, (g.event i).clock.time s ≤ (g.nextClock t).time s := fun i hi hit s =>
    Nat.le_trans (Event.happensBefore_iff.mp
      (h.clock_mono i k (hmax i hi hit) hklt (hit.trans hkt.symm)) s) (hge s)
  refine ⟨?_, hthread, fun i hi => ?_, fun s _ hs => ⟨k, hklt, Nat.le_of_eq (hother s hs)⟩,
    fun i hi hown s => ?_⟩
  · rw [Graph.nextClock, VectorClock.length_increment, h.clock_length k hklt]
  · obtain ⟨j, hj, hjt, hle⟩ := h.clock_bound i hi t ht
    have := Event.happensBefore_iff.mp
      (h.clock_mono j k (hmax j hj hjt) hklt (hjt.trans hkt.symm)) t
    omega
  · by_cases hit : (g.event i).threadId = t
    · exact hthread i hi hit s
    · rw [hother _ hit] at hown
      exact Nat.le_trans (Event.happensBefore_iff.mp (h.clock_exact i hi k hklt hown) s) (hge s)

/-- What the first clock of the next event knows, the last event of the thread knows. -/
theorem Settled.happensBefore_last (h : g.Settled) (ht : t < g.nThreads) (hi : i < g.events.length)
    (hle : ∀ s, (g.event i).clock.time s ≤ (g.nextClock t).time s) :
    (g.event i).happensBefore (g.event ((g.eventsPerThread t).getLastD 0)) = true := by
  obtain ⟨hlt, hthread, hmax⟩ := h.wf.getLastD_spec ht
  by_cases hit : (g.event i).threadId = t
  · exact h.clock_mono i _ (hmax i hi hit) hlt (hit.trans hthread.symm)
  · refine h.clock_exact i hi _ hlt ?_
    have := hle (g.event i).threadId
    rwa [Graph.nextClock, VectorClock.time_increment_of_ne _ hit] at this

/-- Who is known by the union of two clocks is known by one of them. -/
theorem NextClock.of_le_uniteWith (hg : g.Settled) {c : VectorClock} (h : NextClock g t c) {w : ℕ}
    (hw : w < g.events.length) (hi : i < g.events.length)
    (hle : (g.event i).clock.time (g.event i).threadId ≤
      (c.uniteWith (g.event w).clock).time (g.event i).threadId) :
    (∀ s, (g.event i).clock.time s ≤ c.time s) ∨ (g.event i).happensBefore (g.event w) = true := by
  rw [VectorClock.time_uniteWith (h.length.trans (hg.clock_length w hw).symm)] at hle
  rcases Nat.le_total (c.time (g.event i).threadId)
    ((g.event w).clock.time (g.event i).threadId) with hcw | hcw
  · exact .inr (hg.clock_exact i hi w hw (by omega))
  · exact .inl (h.exact i hi (by omega))

/-- Uniting with the clock of an event of the graph. -/
theorem NextClock.uniteWith (hg : g.Settled) {c : VectorClock} (h : NextClock g t c) {w : ℕ}
    (hw : w < g.events.length) : NextClock g t (c.uniteWith (g.event w).clock) := by
  have htime := VectorClock.time_uniteWith (h.length.trans (hg.clock_length w hw).symm)
  refine ⟨by simpa using h.length, fun i hi hit s => ?_, fun i hi => ?_, fun s hs hst => ?_,
    fun i hi hown s => ?_⟩
  · rw [htime]
    exact Nat.le_trans (h.thread i hi hit s) (Nat.le_max_left ..)
  · rw [htime]
    exact Nat.lt_of_lt_of_le (h.fresh i hi) (Nat.le_max_left ..)
  · rw [htime]
    obtain ⟨j, hj, hle⟩ := h.bound s hs hst
    rcases Nat.le_total (c.time s) ((g.event w).clock.time s) with hcw | hcw
    · exact ⟨w, hw, by omega⟩
    · exact ⟨j, hj, by omega⟩
  · rw [htime]
    rcases h.of_le_uniteWith hg hw hi hown with hle | hle
    · exact Nat.le_trans (hle s) (Nat.le_max_left ..)
    · exact Nat.le_trans (Event.happensBefore_iff.mp hle s) (Nat.le_max_right ..)

theorem NextClock.scEvent (hg : g.Settled) (h : NextClock g t ev.clock) :
    NextClock g t (scEvent g g.lastSeqCstWriteEvents ev).clock := by
  unfold Graph.scEvent
  split
  · exact h
  · rename_i w hw
    exact h.uniteWith hg (hg.last _ _ hw).1

theorem NextClock.of_happensBefore_scEvent (hg : g.Settled) (h : NextClock g t ev.clock)
    (hi : i < g.events.length)
    (hhb : (g.event i).happensBefore (Graph.scEvent g g.lastSeqCstWriteEvents ev) = true) :
    (g.event i).happensBefore ev = true ∨ ∃ w₀, g.lastSeqCstWriteEvents ev.location = some w₀ ∧
      (g.event i).happensBefore (g.event w₀) = true := by
  unfold Graph.scEvent at hhb
  split at hhb
  · exact .inl hhb
  · rename_i w₀ hw₀
    rcases h.of_le_uniteWith hg (hg.last _ _ hw₀).1 hi (Event.happensBefore_iff.mp hhb _) with
      hle | hle
    · exact .inl (Event.happensBefore_iff.mpr hle)
    · exact .inr ⟨w₀, hw₀, hle⟩

/-- The past of a store: that of its thread, and of the last seq-cst write if it is seq-cst. -/
theorem Settled.of_happensBefore_storeEvent (hg : g.Settled) {x : ℤ} {order : MemoryOrder} {v : V}
    (ht : t < g.nThreads) (hi : i < g.events.length)
    (hhb : (g.event i).happensBefore (g.storeEvent x t order v) = true) :
    (g.event i).happensBefore (g.event ((g.eventsPerThread t).getLastD 0)) = true ∨
      order = .seqCst ∧ ∃ w₀, g.lastSeqCstWriteEvents x = some w₀ ∧
        (g.event i).happensBefore (g.event w₀) = true := by
  have hnext : NextClock g t
      ({ g.writeEvent x t order v with clock := g.nextClock t } : Event V).clock := hg.nextClock ht
  have hfirst : (g.event i).happensBefore
      { g.writeEvent x t order v with clock := g.nextClock t } = true →
      (g.event i).happensBefore (g.event ((g.eventsPerThread t).getLastD 0)) = true := fun h =>
    hg.happensBefore_last ht hi (Event.happensBefore_iff.mp h)
  by_cases ho : order = .seqCst
  · rw [storeEvent, if_pos ho] at hhb
    exact (hnext.of_happensBefore_scEvent hg hi hhb).imp hfirst fun h => ⟨ho, h⟩
  · rw [storeEvent, if_neg ho] at hhb
    exact .inl (hfirst hhb)

theorem NextClock.synchronizedEvent (hg : g.Settled) (h : NextClock g t ev.clock)
    (hw : write < g.events.length) : NextClock g t (g.synchronizedEvent ev write).clock := by
  unfold Graph.synchronizedEvent
  split
  · exact h.uniteWith hg hw
  · exact h

section Read

variable [DecidableEq V] [AtomicOps V] {ev₁ : Event V}

theorem NextClock.retry (hg : g.Settled) (h : NextClock g t ev.clock)
    (hr : Retry g g.lastSeqCstWriteEvents ev ev₁) : NextClock g t ev₁.clock := by
  rcases hr.clock with hc | ⟨⟨w₀, hw₀, hc⟩, -⟩
  · rwa [hc]
  · rw [hc]
    exact h.uniteWith hg (hg.last _ _ hw₀).1

/-- The event `i` is in the past of the last seq-cst write, and `ev` can resolve to a seq-cst
access. -/
def SeqCstPast (g : Graph V) (ev : Event V) (i : ℕ) : Prop :=
  (∃ w₀, g.lastSeqCstWriteEvents ev.location = some w₀ ∧
    (g.event i).happensBefore (g.event w₀) = true) ∧
  ∃ w v, (ev.setReadFrom w v).isSeqCst = true

variable [Inhabited V]

theorem NextClock.attemptEvent (hg : g.Settled) (h : NextClock g t ev.clock)
    (hr : Retry g g.lastSeqCstWriteEvents ev ev₁) (hw : write < g.events.length) :
    NextClock g t (g.attemptEvent g.lastSeqCstWriteEvents ev₁ write).clock := by
  have h₁ : NextClock g t (g.synchronizedEvent
      (ev₁.setReadFrom write (g.event write).getWrittenValue) write).clock :=
    NextClock.synchronizedEvent hg (by simpa using h.retry hg hr) hw
  rw [Graph.attemptEvent]
  split
  · exact NextClock.scEvent hg h₁
  · exact h₁

/-- The past of an attempt: that of the event, of the write it reads from if the release-acquire
rule applies, and of the last seq-cst write if the event resolves to a seq-cst access. -/
theorem NextClock.past_attemptEvent (hg : g.Settled) (h : NextClock g t ev.clock)
    (hr : Retry g g.lastSeqCstWriteEvents ev ev₁) (hw : write < g.events.length)
    (hi : i < g.events.length)
    (hhb : (g.event i).happensBefore (g.attemptEvent g.lastSeqCstWriteEvents ev₁ write) = true) :
    (g.event i).happensBefore ev = true ∨
      ((g.attemptEvent g.lastSeqCstWriteEvents ev₁ write).isAtLeastAcquire = true ∧
        (g.event write).isAtLeastRelease = true ∧
        (g.event i).happensBefore (g.event write) = true) ∨
      SeqCstPast g ev i := by
  set r := ev₁.setReadFrom write (g.event write).getWrittenValue with hrdef
  have h₁ : NextClock g t r.clock := by simpa [hrdef] using h.retry hg hr
  have hfirst : (g.event i).happensBefore r = true → (g.event i).happensBefore ev = true ∨
      SeqCstPast g ev i := by
    intro hhb
    have hle := Event.happensBefore_iff.mp hhb
    rw [hrdef, Event.setReadFrom_clock] at hle
    rcases hr.clock with hc | ⟨⟨w₀, hw₀, hc⟩, hsc⟩
    · exact .inl (Event.happensBefore_iff.mpr (hc ▸ hle))
    · rcases h.of_le_uniteWith hg (hg.last _ _ hw₀).1 hi (hc ▸ hle _) with hle | hle
      · exact .inl (Event.happensBefore_iff.mpr hle)
      · exact .inr ⟨⟨w₀, hw₀, hle⟩, hsc⟩
  have hacq : (g.attemptEvent g.lastSeqCstWriteEvents ev₁ write).isAtLeastAcquire =
      r.isAtLeastAcquire := by
    obtain ⟨c, hc⟩ := exists_attemptEvent g g.lastSeqCstWriteEvents ev₁ write
    rw [hc]
    rfl
  have hsync : (g.event i).happensBefore (g.synchronizedEvent r write) = true →
      (g.event i).happensBefore r = true ∨ r.isAtLeastAcquire = true ∧
        (g.event write).isAtLeastRelease = true ∧
        (g.event i).happensBefore (g.event write) = true := by
    intro hhb
    unfold Graph.synchronizedEvent at hhb
    split at hhb
    · rename_i hcond
      simp only [Bool.and_eq_true] at hcond
      rcases h₁.of_le_uniteWith hg hw hi (Event.happensBefore_iff.mp hhb _) with hle | hle
      · exact .inl (Event.happensBefore_iff.mpr hle)
      · exact .inr ⟨hcond.1.1, hcond.1.2, hle⟩
    · exact .inl hhb
  have hstart : (g.event i).happensBefore (g.synchronizedEvent r write) = true →
      (g.event i).happensBefore ev = true ∨ (r.isAtLeastAcquire = true ∧
        (g.event write).isAtLeastRelease = true ∧
        (g.event i).happensBefore (g.event write) = true) ∨ SeqCstPast g ev i := fun hhb =>
    (hsync hhb).elim (fun h => (hfirst h).imp_right .inr) fun h => .inr (.inl h)
  rw [hacq]
  obtain ⟨c, hc⟩ := exists_synchronizedEvent g r write
  by_cases hsc : (g.synchronizedEvent r write).isSeqCst = true
  · rw [Graph.attemptEvent, ← hrdef, if_pos hsc] at hhb
    rcases NextClock.of_happensBefore_scEvent hg (NextClock.synchronizedEvent hg h₁ hw) hi hhb with
      hhb | ⟨w₀, hw₀, hle⟩
    · exact hstart hhb
    · refine .inr (.inr ⟨⟨w₀, ?_, hle⟩, write, (g.event write).getWrittenValue, ?_⟩)
      · rw [hc] at hw₀
        simpa [hrdef, hr.location] using hw₀
      · rw [hc, hrdef, hr.setReadFrom] at hsc
        exact hsc
  · rw [Graph.attemptEvent, ← hrdef, if_neg hsc] at hhb
    exact hstart hhb

/-- The past of an attempt, without the condition on the orders. -/
theorem NextClock.of_happensBefore_attemptEvent (hg : g.Settled) (h : NextClock g t ev.clock)
    (hr : Retry g g.lastSeqCstWriteEvents ev ev₁) (hw : write < g.events.length)
    (hi : i < g.events.length)
    (hhb : (g.event i).happensBefore (g.attemptEvent g.lastSeqCstWriteEvents ev₁ write) = true) :
    (g.event i).happensBefore ev = true ∨ (g.event i).happensBefore (g.event write) = true ∨
      SeqCstPast g ev i :=
  (h.past_attemptEvent hg hr hw hi hhb).imp_right fun h => h.imp_left fun h => h.2.2

end Read

/-! ### Growth -/

/-- An event that `ev`, once it is in the graph, must not be ordered before: the last seq-cst
write if `ev` is seq-cst, and what was written or read at its location in the past of `ev`. -/
def Source (g : Graph V) (ev : Event V) (x : ℕ) : Prop :=
  (ev.isSeqCst = true ∧ g.lastSeqCstWriteEvents ev.location = some x) ∨
    ∃ i < g.events.length, (g.event i).location = ev.location ∧
      (g.event i).happensBefore ev = true ∧
      ((g.event i).modifies = true ∧ x = i ∨ (g.event i).getReadFromEvent = some x)

/-- `j` stands for `i` among the most recent events: it is an event of the same thread and
location, at or after `i`. -/
structure Covers (g : Graph V) (i j : ℕ) : Prop where
  le : i ≤ j
  lt : j < g.events.length
  thread : (g.event j).threadId = (g.event i).threadId
  location : (g.event j).location = (g.event i).location

/-- One operation: `g'` is `g` with the event `ev` and the modification-order edges `l`. -/
structure Growth (g g' : Graph V) (ev : Event V) (l : List (ℕ × ℕ)) : Prop
    extends Sketch g [] false g' ev l
      (if ev.modifies then lastAfter g.lastSeqCstWriteEvents ev else g.lastSeqCstWriteEvents) where
  /-- The event is of a thread of the graph. -/
  thread_lt : ev.threadId < g.nThreads
  /-- It is no dummy. -/
  location_nonneg : 0 ≤ ev.location
  /-- Its location is registered, at the latest by the event. -/
  registered : g.lastSeqCstWriteEvents ev.location ≠ none ∨
    ev.modifies = true ∧ ev.isSeqCst = true
  /-- The clock is the next one of the thread. -/
  clock : NextClock g ev.threadId ev.clock
  /-- The event is a write, or it reads. -/
  kind : ev.modifies = true ∧ ev.isReadOrRMW = false ∨ ∃ w, ev.getReadFromEvent = some w
  /-- It reads from a write of its location. -/
  readFrom : ∀ w, ev.getReadFromEvent = some w →
    w < g.events.length ∧ (g.event w).modifies = true ∧ (g.event w).location = ev.location
  /-- The edges there can be. -/
  sound : ∀ x y, (x, y) ∈ l →
    (∃ w, ev.getReadFromEvent = some w ∧ y = w ∧ x ≠ w ∧ Source g ev x) ∨
    (ev.modifies = true ∧ y = ev.id ∧ (Source g ev x ∨ ev.getReadFromEvent = some x)) ∨
    (ev.modifies = true ∧ x = ev.id ∧ ∃ w, ev.getReadFromEvent = some w ∧ y ∈ g.moSuccessors w)
  /-- Write-write coherence is drawn. -/
  cover_writeWrite : ev.modifies = true → ∀ i < g.events.length,
    (g.event i).location = ev.location → (g.event i).happensBefore ev = true →
    (g.event i).modifies = true →
    ∃ j, Covers g i j ∧ (g.event j).modifies = true ∧ (j, ev.id) ∈ l
  /-- Read-write coherence is drawn. -/
  cover_readWrite : ev.modifies = true → ∀ i < g.events.length,
    (g.event i).location = ev.location → (g.event i).happensBefore ev = true →
    ∀ r, (g.event i).getReadFromEvent = some r →
    ∃ j r', Covers g i j ∧ (g.event j).getReadFromEvent = some r' ∧ (r', ev.id) ∈ l
  /-- Write-read coherence is drawn. -/
  cover_writeRead : ∀ w, ev.getReadFromEvent = some w → ∀ i < g.events.length,
    (g.event i).location = ev.location → (g.event i).happensBefore ev = true →
    (g.event i).modifies = true → i ≠ w →
    ∃ j, Covers g i j ∧ (g.event j).modifies = true ∧ (j, w) ∈ l
  /-- Read-read coherence is drawn. -/
  cover_readRead : ∀ w, ev.getReadFromEvent = some w → ∀ i < g.events.length,
    (g.event i).location = ev.location → (g.event i).happensBefore ev = true → i ≠ w →
    ∀ r, (g.event i).getReadFromEvent = some r → r ≠ w →
    ∃ j r', Covers g i j ∧ (g.event j).getReadFromEvent = some r' ∧ (r', w) ∈ l
  /-- A seq-cst read is ordered after the last seq-cst write. -/
  seqCst_read : ∀ w, ev.getReadFromEvent = some w → ev.isSeqCst = true →
    ∀ x, g.lastSeqCstWriteEvents ev.location = some x → x = w ∨ (x, w) ∈ l
  /-- So is a seq-cst write. -/
  seqCst_write : ev.modifies = true → ev.isSeqCst = true →
    ∀ x, g.lastSeqCstWriteEvents ev.location = some x → (x, ev.id) ∈ l
  /-- A read-modify-write follows at once on what it reads. -/
  rmw : ev.modifies = true → ∀ w, ev.getReadFromEvent = some w →
    (w, ev.id) ∈ l ∧ ∀ y ∈ g.moSuccessors w, (ev.id, y) ∈ l

section Rules

variable {g : Graph V} {ev : Event V} {write x y : ℕ} {last : ℤ → Option ℕ}

theorem mem_seqCstReadWriteEdges :
    (x, y) ∈ seqCstReadWriteEdges last ev write ↔
      last ev.location = some x ∧ x ≠ write ∧ y = write := by
  unfold seqCstReadWriteEdges
  cases last ev.location with
  | none => simp
  | some w₀ =>
    by_cases hw : w₀ = write
    · simp only [hw, if_true, List.not_mem_nil, Option.some.injEq, false_iff]
      rintro ⟨rfl, h, -⟩
      exact h rfl
    · simp only [hw, if_false, List.mem_singleton, Prod.mk.injEq, Option.some.injEq]
      constructor
      · rintro ⟨rfl, rfl⟩
        exact ⟨rfl, hw, rfl⟩
      · rintro ⟨rfl, -, rfl⟩
        exact ⟨rfl, rfl⟩

theorem mem_seqCstConsistencyEdges :
    (x, y) ∈ seqCstConsistencyEdges last ev ↔ last ev.location = some x ∧ y = ev.id := by
  unfold seqCstConsistencyEdges
  cases last ev.location with
  | none => simp
  | some w₀ => simp [eq_comm]

section Coherence

variable {p : Event V → Bool} {source : Event V → ℕ} {target i : ℕ} {l : List (ℕ × ℕ)}
  (hl : l = g.coherenceEdges ev p source target)

include hl

/-- **What a coherence rule orders before its target**, if `p` holds of what modifies and `source`
is its id, or of what reads and `source` is what it reads from. -/
theorem source_of_mem_coherenceEdges (hg : g.WellFormed)
    (hsource : ∀ i < g.events.length, p (g.event i) = true →
      (g.event i).modifies = true ∧ source (g.event i) = i ∨
        (g.event i).getReadFromEvent = some (source (g.event i))) (h : (x, y) ∈ l) :
    y = target ∧ Source g ev x ∧ ∃ i < g.events.length, p (g.event i) = true ∧
      x = source (g.event i) := by
  obtain ⟨o, ho, heq⟩ := List.mem_map.mp (hl ▸ h)
  obtain ⟨hp, i, hi, rfl⟩ := hg.of_mem_mostRecent ho
  simp only [Bool.and_eq_true, decide_eq_true_eq] at hp
  obtain ⟨⟨hp, hloc⟩, hhb⟩ := hp
  obtain ⟨rfl, rfl⟩ := Prod.mk.inj heq
  exact ⟨rfl, .inr ⟨i, hi, hloc, hhb, hsource i hi hp⟩, i, hi, hp, rfl⟩

/-- **A coherence rule misses nothing**: for what `p` holds of, there is an edge from a later event
of the same thread. -/
theorem covers_coherenceEdges (hg : g.Settled) (hi : i < g.events.length)
    (hloc : (g.event i).location = ev.location) (hhb : (g.event i).happensBefore ev = true)
    (hp : p (g.event i) = true) :
    ∃ j, Covers g i j ∧ p (g.event j) = true ∧ (source (g.event j), target) ∈ l := by
  obtain ⟨j, hij, hj, ht, hmem⟩ := hg.wf.exists_mostRecent hi
    (p := fun o => p o && o.location = ev.location && o.happensBefore ev) (by simp [hp, hloc, hhb])
  have hpj := (hg.wf.of_mem_mostRecent hmem).1
  simp only [Bool.and_eq_true, decide_eq_true_eq] at hpj
  exact ⟨j, ⟨hij, hj, ht, hpj.1.2.trans hloc.symm⟩, hpj.1.1, hl ▸ List.mem_map_of_mem hmem⟩

end Coherence

theorem source_of_mem_writeReadEdges (hg : g.WellFormed)
    (h : (x, y) ∈ writeReadEdges g ev write) : y = write ∧ x ≠ write ∧ Source g ev x := by
  obtain ⟨hy, hx, i, hi, hp, rfl⟩ := source_of_mem_coherenceEdges rfl hg
    (fun i hi hp => .inl ⟨by simp_all, hg.event_id i hi⟩) h
  simp only [Bool.and_eq_true, decide_eq_true_eq] at hp
  exact ⟨hy, Ne.symm hp.1.2, hx⟩

theorem source_of_mem_readReadEdges (hg : g.WellFormed)
    (h : (x, y) ∈ readReadEdges g ev write) : y = write ∧ x ≠ write ∧ Source g ev x := by
  obtain ⟨hy, hx, i, hi, hp, rfl⟩ := source_of_mem_coherenceEdges rfl hg
    (fun i hi hp => .inr (by cases hr : (g.event i).getReadFromEvent <;> simp_all)) h
  cases hr : (g.event i).getReadFromEvent with
  | none => simp [hr] at hp
  | some r => exact ⟨hy, by simp_all, hr ▸ hx⟩

theorem source_of_mem_writeWriteEdges (hg : g.WellFormed)
    (h : (x, y) ∈ writeWriteEdges g ev) : y = ev.id ∧ Source g ev x := by
  obtain ⟨hy, hx, -⟩ := source_of_mem_coherenceEdges rfl hg
    (fun i hi hp => .inl ⟨by simp_all, hg.event_id i hi⟩) h
  exact ⟨hy, hx⟩

theorem source_of_mem_readWriteEdges (hg : g.Settled)
    (h : (x, y) ∈ readWriteEdges g ev) : y = ev.id ∧ Source g ev x := by
  obtain ⟨hy, hx, -⟩ := source_of_mem_coherenceEdges rfl hg.wf (fun i hi hp => .inr (by
    obtain ⟨r, hr⟩ := hg.resolved i hi (by simp_all)
    rw [hr, Option.getD_some])) h
  exact ⟨hy, hx⟩

variable {i : ℕ} (hg : g.Settled) (hid : ev.id = g.events.length) (hi : i < g.events.length)
  (hloc : (g.event i).location = ev.location) (hhb : (g.event i).happensBefore ev = true)

include hg hid hi hloc hhb

theorem covers_writeWriteEdges (hm : (g.event i).modifies = true) :
    ∃ j, Covers g i j ∧ (g.event j).modifies = true ∧ (j, ev.id) ∈ writeWriteEdges g ev := by
  obtain ⟨j, hc, hp, hmem⟩ := covers_coherenceEdges (l := writeWriteEdges g ev) rfl hg hi hloc hhb
    (by simp [hm, hg.wf.event_id i hi, hid, Nat.ne_of_gt hi])
  rw [hg.wf.event_id j hc.lt] at hmem
  exact ⟨j, hc, by simp_all, hmem⟩

theorem covers_readWriteEdges {r : ℕ} (hr : (g.event i).getReadFromEvent = some r) :
    ∃ j r', Covers g i j ∧ (g.event j).getReadFromEvent = some r' ∧
      (r', ev.id) ∈ readWriteEdges g ev := by
  obtain ⟨j, hc, hp, hmem⟩ := covers_coherenceEdges (l := readWriteEdges g ev) rfl hg hi hloc hhb
    (by simp [isReadOrRMW_of_readFrom hr, hg.wf.event_id i hi, hid, Nat.ne_of_gt hi])
  obtain ⟨r', hr'⟩ := hg.resolved j hc.lt (by simp_all)
  rw [hr'] at hmem
  exact ⟨j, r', hc, hr', hmem⟩

theorem covers_writeReadEdges (hm : (g.event i).modifies = true) (hne : i ≠ write) :
    ∃ j, Covers g i j ∧ (g.event j).modifies = true ∧ (j, write) ∈ writeReadEdges g ev write := by
  obtain ⟨j, hc, hp, hmem⟩ := covers_coherenceEdges (l := writeReadEdges g ev write) rfl hg hi hloc
    hhb (by simp [hm, hg.wf.event_id i hi, hid, Nat.ne_of_gt hi, hne.symm])
  rw [hg.wf.event_id j hc.lt] at hmem
  exact ⟨j, hc, by simp_all, hmem⟩

theorem covers_readReadEdges (hne : i ≠ write) {r : ℕ}
    (hr : (g.event i).getReadFromEvent = some r) (hrw : r ≠ write) :
    ∃ j r', Covers g i j ∧ (g.event j).getReadFromEvent = some r' ∧
      (r', write) ∈ readReadEdges g ev write := by
  obtain ⟨j, hc, hp, hmem⟩ := covers_coherenceEdges (l := readReadEdges g ev write) rfl hg hi hloc
    hhb (by simp [isReadOrRMW_of_readFrom hr, hr, hrw, hg.wf.event_id i hi, hid, Nat.ne_of_gt hi,
      hne.symm])
  cases hr' : (g.event j).getReadFromEvent with
  | none => simp [hr'] at hp
  | some r' => exact ⟨j, r', hc, hr', by rwa [hr'] at hmem⟩

end Rules

/-! ### The operations grow the graph -/

theorem growth_addWriteEvent (hg : g.Settled) {location : ℤ} {threadId : ℕ} (order : MemoryOrder)
    (value : V) (ht : threadId < g.nThreads) (hloc : 0 ≤ location)
    (hreg : g.lastSeqCstWriteEvents location ≠ none ∨ order = .seqCst) :
    let ev := g.storeEvent location threadId order value
    Growth g (g.addWriteEvent location threadId order value) ev (g.storeEdges ev) := by
  intro ev
  have h := sketch_addWriteEvent hg.wf location threadId order value
    fun w hw => (hg.last location w hw).1
  obtain ⟨c, hc⟩ : ∃ c, ev = { g.writeEvent location threadId order value with clock := c } :=
    exists_storeEvent g location threadId order value
  have hmod : ev.modifies = true := by rw [hc]; rfl
  have hnr : ev.getReadFromEvent = none := by rw [hc]; rfl
  have hclock : NextClock g threadId ev.clock := by
    by_cases ho : order = .seqCst
    · rw [show ev = _ from if_pos ho]
      exact NextClock.scEvent hg (hg.nextClock ht)
    · rw [show ev = _ from if_neg ho]
      exact hg.nextClock ht
  refine
    { toSketch := by rw [if_pos hmod]; exact h
      thread_lt := by rw [hc]; exact ht
      location_nonneg := by rw [hc]; exact hloc
      registered := ?_
      clock := by rw [hc] at hclock ⊢; exact hclock
      kind := .inl ⟨hmod, by rw [hc]; rfl⟩
      readFrom := by simp [hnr]
      sound := fun x y hxy => .inr (.inl ⟨hmod, ?_⟩)
      cover_writeWrite := fun _ i hi hl hb hm => ?_
      cover_readWrite := fun _ i hi hl hb r hr => ?_
      cover_writeRead := by simp [hnr]
      cover_readRead := by simp [hnr]
      seqCst_read := by simp [hnr]
      seqCst_write := fun _ hsc x hx => ?_
      rmw := by simp [hnr] }
  · rw [hc]
    exact hreg.imp id fun ho => ⟨rfl, decide_eq_true ho⟩
  · rcases List.mem_append.mp hxy with hxy | hxy
    · rcases List.mem_append.mp hxy with hxy | hxy
      · split at hxy
        · rename_i hsc
          obtain ⟨hx, hy⟩ := mem_seqCstConsistencyEdges.mp hxy
          exact ⟨hy, .inl (.inl ⟨hsc, hx⟩)⟩
        · simp at hxy
      · exact (source_of_mem_readWriteEdges hg hxy).imp_right .inl
    · exact (source_of_mem_writeWriteEdges hg.wf hxy).imp_right .inl
  · obtain ⟨j, hcov, hmj, hmem⟩ := covers_writeWriteEdges hg h.id hi hl hb hm
    exact ⟨j, hcov, hmj, List.mem_append_right _ hmem⟩
  · obtain ⟨j, r', hcov, hr', hmem⟩ := covers_readWriteEdges hg h.id hi hl hb hr
    exact ⟨j, r', hcov, hr', List.mem_append_left _ (List.mem_append_right _ hmem)⟩
  · refine List.mem_append_left _ (List.mem_append_left _ ?_)
    rw [if_pos hsc]
    exact mem_seqCstConsistencyEdges.mpr ⟨hx, rfl⟩

/-- Everything an attempt draws, for an event that is resolved to a read or to a modification. -/
theorem mem_ruleEdges {last : ℤ → Option ℕ} {x y : ℕ}
    (hmod : ev.modifies = !(ev.isRead || ev.isReadRWM)) :
    (x, y) ∈ ruleEdges g last ev write ↔
      (x, y) ∈ writeReadEdges g ev write ∨ (x, y) ∈ readReadEdges g ev write ∨
      (ev.isSeqCst = true ∧ (x, y) ∈ seqCstReadWriteEdges last ev write) ∨
      (ev.modifies = true ∧
        ((x = write ∧ y = ev.id) ∨ (x = ev.id ∧ y ∈ g.moSuccessors write) ∨
          (ev.isSeqCst = true ∧ (x, y) ∈ seqCstConsistencyEdges last ev) ∨
          (x, y) ∈ readWriteEdges g ev ∨ (x, y) ∈ writeWriteEdges g ev)) := by
  have hcopied : (x, y) ∈ (g.moSuccessors write).map (ev.id, ·) ↔
      x = ev.id ∧ y ∈ g.moSuccessors write := by
    rw [List.mem_map]
    constructor
    · rintro ⟨z, hz, hxy⟩
      cases hxy
      exact ⟨rfl, hz⟩
    · rintro ⟨rfl, hy⟩
      exact ⟨y, hy, rfl⟩
  rw [ruleEdges, hmod]
  cases (ev.isRead || ev.isReadRWM) with
  | true =>
    simp only [if_true, List.mem_append, List.mem_ite_nil_right, Bool.not_true,
      Bool.false_eq_true, false_and, or_false]
    rw [or_assoc, or_comm, or_assoc]
  | false =>
    simp only [Bool.false_eq_true, if_false, List.mem_append, List.mem_cons, hcopied,
      List.mem_ite_nil_right, Prod.mk.injEq, Bool.not_false, true_and]
    grind

section Read

variable [DecidableEq V] [Inhabited V] [AtomicOps V]

/-- An attempt whose edges pass the consistency test. The new event `ev` has its first clock. -/
theorem growth_of_accepted {g' : Graph V} (hg : g.Settled) (ev : Event V) {ev₁ : Event V}
    (ht : ev.threadId < g.nThreads) (hloc : 0 ≤ ev.location)
    (hreg : g.lastSeqCstWriteEvents ev.location ≠ none) (hclock : NextClock g ev.threadId ev.clock)
    (hr : Retry g g.lastSeqCstWriteEvents ev ev₁) (hw : write < g.events.length)
    (hwm : (g.event write).modifies = true) (hwl : (g.event write).location = ev.location)
    (h : Sketch g [] false g' (g.attemptEvent g.lastSeqCstWriteEvents ev₁ write)
      (ruleEdges g g.lastSeqCstWriteEvents (g.attemptEvent g.lastSeqCstWriteEvents ev₁ write) write)
      (ruleLast g.lastSeqCstWriteEvents (g.attemptEvent g.lastSeqCstWriteEvents ev₁ write))) :
    Growth g g' (g.attemptEvent g.lastSeqCstWriteEvents ev₁ write)
      (ruleEdges g g.lastSeqCstWriteEvents
        (g.attemptEvent g.lastSeqCstWriteEvents ev₁ write) write) := by
  obtain ⟨c, hc⟩ := exists_attemptEvent g g.lastSeqCstWriteEvents ev₁ write
  have hnext := hclock.attemptEvent hg hr hw
  set a := g.attemptEvent g.lastSeqCstWriteEvents ev₁ write with ha
  have hthread : a.threadId = ev.threadId := by rw [hc]; simpa using hr.threadId
  have hlocation : a.location = ev.location := by rw [hc]; simpa using hr.location
  have hreads : a.getReadFromEvent = some write :=
    attemptEvent_getReadFromEvent g _ hr.unresolved write
  have hmod : a.modifies = !(a.isRead || a.isReadRWM) := by
    rw [hc]; exact Event.setReadFrom_modifies hr.unresolved _ _
  have hmem : ∀ x y, (x, y) ∈ ruleEdges g g.lastSeqCstWriteEvents a write ↔ _ := fun x y =>
    mem_ruleEdges hmod
  have hsome : ∀ {w}, a.getReadFromEvent = some w → w = write := fun hw' =>
    (Option.some.inj (hreads.symm.trans hw')).symm
  have hlast : ruleLast g.lastSeqCstWriteEvents a = if a.modifies then
      lastAfter g.lastSeqCstWriteEvents a else g.lastSeqCstWriteEvents := by
    rw [ruleLast, hmod]
    cases (a.isRead || a.isReadRWM) <;> rfl
  refine
    { toSketch := by rw [← hlast]; exact h
      thread_lt := hthread ▸ ht
      location_nonneg := hlocation ▸ hloc
      registered := .inl (hlocation ▸ hreg)
      clock := hthread ▸ hnext
      kind := .inr ⟨write, hreads⟩
      readFrom := fun w hw' => ?_
      sound := fun x y hxy => ?_
      cover_writeWrite := fun hm i hi hl hb him => ?_
      cover_readWrite := fun hm i hi hl hb r hr => ?_
      cover_writeRead := fun w hw' i hi hl hb him hne => ?_
      cover_readRead := fun w hw' i hi hl hb hne r hr hrw => ?_
      seqCst_read := fun w hw' hsc x hx => ?_
      seqCst_write := fun hm hsc x hx => ?_
      rmw := fun hm w hw' => ?_ }
  · obtain rfl := hsome hw'
    exact ⟨hw, hwm, hwl.trans hlocation.symm⟩
  · rcases (hmem x y).mp hxy with hxy | hxy | ⟨hsc, hxy⟩ | ⟨hm, hxy⟩
    · obtain ⟨hy, hx, hsrc⟩ := source_of_mem_writeReadEdges hg.wf hxy
      exact .inl ⟨write, hreads, hy, hx, hsrc⟩
    · obtain ⟨hy, hx, hsrc⟩ := source_of_mem_readReadEdges hg.wf hxy
      exact .inl ⟨write, hreads, hy, hx, hsrc⟩
    · obtain ⟨hx, hne, hy⟩ := mem_seqCstReadWriteEdges.mp hxy
      exact .inl ⟨write, hreads, hy, hne, .inl ⟨hsc, hx⟩⟩
    · rcases hxy with ⟨rfl, hy⟩ | ⟨hx, hy⟩ | ⟨hsc, hxy⟩ | hxy | hxy
      · exact .inr (.inl ⟨hm, hy, .inr hreads⟩)
      · exact .inr (.inr ⟨hm, hx, write, hreads, hy⟩)
      · obtain ⟨hx, hy⟩ := mem_seqCstConsistencyEdges.mp hxy
        exact .inr (.inl ⟨hm, hy, .inl (.inl ⟨hsc, hx⟩)⟩)
      · obtain ⟨hy, hsrc⟩ := source_of_mem_readWriteEdges hg hxy
        exact .inr (.inl ⟨hm, hy, .inl hsrc⟩)
      · obtain ⟨hy, hsrc⟩ := source_of_mem_writeWriteEdges hg.wf hxy
        exact .inr (.inl ⟨hm, hy, .inl hsrc⟩)
  · obtain ⟨j, hcov, hj, hjl⟩ := covers_writeWriteEdges hg h.id hi hl hb him
    exact ⟨j, hcov, hj, (hmem ..).mpr (by simp [hm, hjl])⟩
  · obtain ⟨j, r', hcov, hj, hjl⟩ := covers_readWriteEdges hg h.id hi hl hb hr
    exact ⟨j, r', hcov, hj, (hmem ..).mpr (by simp [hm, hjl])⟩
  · obtain rfl := hsome hw'
    obtain ⟨j, hcov, hj, hjl⟩ := covers_writeReadEdges hg h.id hi hl hb him hne
    exact ⟨j, hcov, hj, (hmem ..).mpr (.inl hjl)⟩
  · obtain rfl := hsome hw'
    obtain ⟨j, r', hcov, hj, hjl⟩ := covers_readReadEdges hg h.id hi hl hb hne hr hrw
    exact ⟨j, r', hcov, hj, (hmem ..).mpr (.inr (.inl hjl))⟩
  · obtain rfl := hsome hw'
    by_cases hxw : x = w
    · exact .inl hxw
    · exact .inr ((hmem ..).mpr (.inr (.inr (.inl
        ⟨hsc, mem_seqCstReadWriteEdges.mpr ⟨hx, hxw, rfl⟩⟩))))
  · exact (hmem ..).mpr (.inr (.inr (.inr ⟨hm, .inr (.inr (.inl
      ⟨hsc, mem_seqCstConsistencyEdges.mpr ⟨hx, rfl⟩⟩))⟩)))
  · obtain rfl := hsome hw'
    exact ⟨(hmem ..).mpr (by simp [hm]), fun y hy => (hmem ..).mpr (by simp [hm, hy])⟩

end Read

end Graph

end Wmm

end LTest
