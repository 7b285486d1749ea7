import LTest.Wmm.Progress

/-!
# Race-free programs see plain memory

Two accesses of a location race if happens-before does not order them and they are not both
seq-cst. If no access races with the last write of its location, that write is on top of the
modification order, and a read must not read from an older one: by coherence if it is ordered after
the write, and by the edge from the last seq-cst write if both are seq-cst.

The write that registers a location counts as one of thread `0`, so other threads have to
synchronize with that thread, or use seq-cst accesses.

## Main definitions

* `Memory` — a sequentially consistent memory, and what a call does to it
* `ExecutionGraph.execAll`, `Memory.execAll` — a sequence of calls
* `Graph.lastWrite`, `Graph.races` — the last write of a location, and races with it
* `ExecutionGraph.raceFree`, `ExecutionGraph.allRaceFree` — calls that do not race
* `Graph.OnTop` — a write that comes after all others of its location

## Main results

* `Graph.OnTop.write` — a write that does not race goes on top
* `Graph.OnTop.read` — a read that does not race reads from the top
* `ExecutionGraph.execAll_of_raceFree` — race-free programs see plain memory
-/

namespace LTest

namespace Wmm

open Relation

variable {V : Type}

/-! ### Sequentially consistent memory -/

/-- A sequentially consistent memory. -/
structure Memory (V : Type) where
  /-- The values of the locations registered so far. -/
  values : List V := []
  deriving DecidableEq, Repr

namespace Memory

/-- Write to a location. -/
def write (m : Memory V) (x : ℕ) (v : V) : Memory V := ⟨m.values.set x v⟩

variable [Inhabited V]

/-- The value of a location. -/
def read (m : Memory V) (x : ℕ) : V := m.values.getD x default

variable [DecidableEq V] [AtomicOps V]

/-- What a call does to the memory, and what it returns. A compare-exchange succeeds if and only
if the value is the expected one, and leaves the value in `*expected` if it is not. -/
def exec (m : Memory V) : Op V → Memory V × Ret V
  | .reset _ => ({}, .unit)
  | .registerLocation value => (⟨m.values ++ [value]⟩, .location m.values.length)
  | .load x _ _ _ => (m, .value (m.read x))
  | .store x _ _ value => (m.write x value, .unit)
  | .readModifyWrite x _ expected desired _ _ _ =>
    if m.read x = expected then (m.write x desired, .rmw true (m.read x) expected)
    else (m, .rmw false (m.read x) (m.read x))
  | .unconditionalReadModifyWrite x _ op operand _ _ =>
    (m.write x (applyAtomicRmwOp op (m.read x) operand), .value (m.read x))

/-- A sequence of calls. -/
def execAll (m : Memory V) : List (Op V) → Memory V × List (Ret V)
  | [] => (m, [])
  | op :: ops =>
    let r := (m.exec op).1.execAll ops
    (r.1, (m.exec op).2 :: r.2)

omit [DecidableEq V] [AtomicOps V] in
@[simp] theorem read_write_self {m : Memory V} {x : ℕ} (hx : x < m.values.length) (v : V) :
    (m.write x v).read x = v := by
  simp [read, write, hx]

omit [DecidableEq V] [AtomicOps V] in
theorem read_write_of_ne (m : Memory V) {x y : ℕ} (hxy : y ≠ x) (v : V) :
    (m.write x v).read y = m.read y := by
  simp [read, write, hxy.symm]

end Memory

/-! ### Races -/

/-- The location that a call accesses. -/
def Op.location? : Op V → Option ℕ
  | .load x _ _ _ | .store x _ _ _ | .readModifyWrite x _ _ _ _ _ _
  | .unconditionalReadModifyWrite x _ _ _ _ _ => some x
  | .reset _ | .registerLocation _ => none

namespace Graph

/-- The last event that modifies a location. -/
def lastWrite (g : Graph V) (x : ℤ) : Option ℕ :=
  ((g.events.filter fun e => e.modifies && e.location = x).map (·.id)).getLast?

/-- An access `n` races with an earlier access `w`: it does not happen after it, and they are not
both seq-cst. -/
def races (g : Graph V) (w n : ℕ) : Bool :=
  !(g.event w).happensBefore (g.event n) && !((g.event w).isSeqCst && (g.event n).isSeqCst)

theorem races_eq_false {g : Graph V} {w n : ℕ} : g.races w n = false ↔
    (g.event w).happensBefore (g.event n) = true ∨
      (g.event w).isSeqCst = true ∧ (g.event n).isSeqCst = true := by
  unfold races
  cases (g.event w).happensBefore (g.event n) <;> simp

/-- The write `last` comes after all other writes of its location, in the modification order and in
the order of the calls. -/
structure OnTop (g : Graph V) (x : ℤ) (last : ℕ) : Prop where
  lastWrite : g.lastWrite x = some last
  lt : last < g.events.length
  modifies : (g.event last).modifies = true
  location : (g.event last).location = x
  top : ∀ w < g.events.length, (g.event w).modifies = true → (g.event w).location = x →
    w = last ∨ TransGen g.Mo w last
  seqCst : (g.event last).isSeqCst = true → g.lastSeqCstWriteEvents x = some last

namespace Growth

variable {g g' : Graph V} {ev : Event V} {l : List (ℕ × ℕ)}

/-- A seq-cst event that modifies is the last write of its location. -/
theorem last_of_modifies (h : Growth g g' ev l) (hsc : ev.isSeqCst = true)
    (hm : ev.modifies = true) : g'.lastSeqCstWriteEvents =
      Function.update g.lastSeqCstWriteEvents ev.location (some g.events.length) := by
  rw [h.last, if_pos hm, lastAfter, if_pos hsc, h.id]

theorem length_lt (h : Growth g g' ev l) : g.events.length < g'.events.length := by
  rw [h.length]
  exact Nat.lt_succ_self _

theorem lastWrite_self (h : Growth g g' ev l) (hm : ev.modifies = true) :
    g'.lastWrite ev.location = some g.events.length := by
  simp [Graph.lastWrite, h.events, hm, h.id]

theorem lastWrite_of_ne (h : Growth g g' ev l) {x : ℤ}
    (hx : ev.modifies = true → x ≠ ev.location) : g'.lastWrite x = g.lastWrite x := by
  have hskip : (ev.modifies && decide (ev.location = x)) = false := by
    cases hm : ev.modifies with
    | false => rfl
    | true => exact decide_eq_false (hx hm).symm
  simp [Graph.lastWrite, h.events, List.filter_append, hskip]

end Growth

section Read

variable [DecidableEq V] [Inhabited V] [AtomicOps V]

/-- A seq-cst event does not read from a write that comes before the last seq-cst write: that
would close a cycle. -/
theorem ReadAccepted.eq_last_of_path {g g' : Graph V} {ev ev₁ : Event V} {w last : ℕ}
    (hacc : ReadAccepted g g' ev ev₁ w) (hg : g.Inv)
    (hsc : (g.attemptEvent g.lastSeqCstWriteEvents ev₁ w).isSeqCst = true)
    (hlast : g.lastSeqCstWriteEvents ev.location = some last)
    (hw : w = last ∨ TransGen g.Mo w last) : w = last := by
  have hgrow := hacc.growth
  obtain ⟨c, hc⟩ := hacc.retry.exists_attemptEvent w
  have hloc : (g.attemptEvent g.lastSeqCstWriteEvents ev₁ w).location = ev.location := by
    rw [hc]; simp [fresh]
  have hrf := attemptEvent_getReadFromEvent g g.lastSeqCstWriteEvents hacc.retry.unresolved w
  obtain hw' | hpath := hw
  · exact hw'
  · obtain heq | hedge := hgrow.seqCst_read w hrf hsc last (hloc ▸ hlast)
    · exact heq.symm
    · have hinv := hgrow.inv hg fun _ => hacc.consistent
      exact absurd (.tail (hgrow.mo_mono hg.wf hpath) (hgrow.mo_of_mem hg.wf hedge))
        (hinv.acyclic w)

end Read

namespace OnTop

variable {g g' : Graph V} {ev : Event V} {l : List (ℕ × ℕ)} {x : ℤ} {last : ℕ}

/-- What is on top stays there if nothing is written to its location. -/
theorem keep (h : g.OnTop x last) (hgrow : Growth g g' ev l) (hg : g.Inv)
    (hx : ev.modifies = true → x ≠ ev.location) : g'.OnTop x last where
  lastWrite := (hgrow.lastWrite_of_ne hx).trans h.lastWrite
  lt := Nat.lt_trans h.lt hgrow.length_lt
  modifies := by rw [hgrow.event_of_lt h.lt, h.modifies]
  location := by rw [hgrow.event_of_lt h.lt, h.location]
  top w hw hwm hwl := by
    obtain hw | rfl := hgrow.lt_or_eq hw
    · rw [hgrow.event_of_lt hw] at hwm hwl
      exact (h.top w hw hwm hwl).imp_right (hgrow.mo_mono hg.wf)
    · rw [hgrow.event_length] at hwm hwl
      exact absurd hwl.symm (hx hwm)
  seqCst hsc := by
    rw [hgrow.event_of_lt h.lt] at hsc
    rw [hgrow.last, lastAfter]
    split
    · rename_i hm
      split
      · rw [Function.update_of_ne (hx hm), h.seqCst hsc]
      · exact h.seqCst hsc
    · exact h.seqCst hsc

/-- Coherence with an event that happens after the write on top. -/
theorem coherent (h : g.OnTop ev.location last) (hgrow : Growth g g' ev l) (hg' : g'.Inv)
    (hhb : (g'.event last).happensBefore (g'.event g.events.length) = true) :
    (ev.modifies = true → TransGen g'.Mo last g.events.length) ∧
      ∀ w, ev.getReadFromEvent = some w → last = w ∨ TransGen g'.Mo last w := by
  have hn := hgrow.length_lt
  have hcoh := hg'.coherent last _ (Nat.lt_trans h.lt hn) hn (Nat.ne_of_lt h.lt)
  rw [hgrow.event_of_lt h.lt, hgrow.event_length] at hcoh hhb
  exact hcoh h.location hhb last (.inl ⟨h.modifies, rfl⟩)

/-- A write is on top if all other writes of its location come before it. -/
theorem of_forall (hgrow : Growth g g' ev l) (hm : ev.modifies = true)
    (hpath : ∀ w < g.events.length, (g.event w).modifies = true →
      (g.event w).location = ev.location → TransGen g'.Mo w g.events.length) :
    g'.OnTop ev.location g.events.length where
  lastWrite := hgrow.lastWrite_self hm
  lt := hgrow.length_lt
  modifies := by rw [hgrow.event_length, hm]
  location := by rw [hgrow.event_length]
  top w hw hwm hwl := by
    obtain hw | rfl := hgrow.lt_or_eq hw
    · rw [hgrow.event_of_lt hw] at hwm hwl
      exact .inr (hpath w hw hwm hwl)
    · exact .inl rfl
  seqCst hsc := by
    rw [hgrow.event_length] at hsc
    rw [hgrow.last_of_modifies hsc hm, Function.update_self]

/-- **A write that does not race goes on top.** -/
theorem write (h : g.OnTop ev.location last) (hgrow : Growth g g' ev l) (hg : g.Inv)
    (hg' : g'.Inv) (hm : ev.modifies = true) (hrace : g'.races last g.events.length = false) :
    g'.OnTop ev.location g.events.length := by
  have hlast : TransGen g'.Mo last g.events.length := by
    obtain hhb | ⟨hsc, hsc'⟩ := races_eq_false.mp hrace
    · exact (h.coherent hgrow hg' hhb).1 hm
    · rw [hgrow.event_of_lt h.lt] at hsc
      rw [hgrow.event_length] at hsc'
      exact .single (hgrow.id ▸ hgrow.mo_of_mem hg.wf
        (hgrow.seqCst_write hm hsc' last (h.seqCst hsc)))
  refine of_forall hgrow hm fun w hw hwm hwl => ?_
  obtain rfl | hpath := h.top w hw hwm hwl
  · exact hlast
  · exact (hgrow.mo_mono hg.wf hpath).trans hlast

section Read

variable [DecidableEq V] [Inhabited V] [AtomicOps V]

/-- **A read that does not race reads from the top**: reading from an older write would close a
cycle. -/
theorem read {ev₁ : Event V} {w : ℕ} (h : g.OnTop ev.location last)
    (hacc : ReadAccepted g g' ev ev₁ w) (hg : g.Inv)
    (hrace : g'.races last g.events.length = false) : w = last := by
  have hgrow := hacc.growth
  have hg' : g'.Inv := hgrow.inv hg fun _ => hacc.consistent
  have hrf := attemptEvent_getReadFromEvent g g.lastSeqCstWriteEvents hacc.retry.unresolved w
  obtain ⟨c, hc⟩ := hacc.retry.exists_attemptEvent w
  have hloc : (g.attemptEvent g.lastSeqCstWriteEvents ev₁ w).location = ev.location := by
    rw [hc]
    simp [fresh]
  obtain ⟨hw, hwm, hwl⟩ := hgrow.readFrom w hrf
  have htop := h.top w hw hwm (hwl.trans hloc)
  obtain hhb | ⟨hsc, hsc'⟩ := races_eq_false.mp hrace
  · -- by coherence the read is not from a write before `last`
    obtain rfl | hpath := (coherent (hloc.symm ▸ h) hgrow hg' hhb).2 w hrf
    · rfl
    · refine htop.resolve_right fun hback => hg'.acyclic last ?_
      exact hpath.trans (hgrow.mo_mono hg.wf hback)
  · rw [hgrow.event_of_lt h.lt] at hsc
    rw [hgrow.event_length] at hsc'
    exact hacc.eq_last_of_path hg hsc' (h.seqCst hsc) htop

end Read

end OnTop

end Graph

/-! ### Calls -/

namespace ExecutionGraph

variable [Inhabited V]

/-- The memory `m` holds the values of the writes on top. -/
structure Reflects (e : ExecutionGraph V) (m : Memory V) : Prop where
  length : m.values.length = e.nextLocationId
  onTop : ∀ x < e.nextLocationId, ∃ last, e.graph.OnTop x last ∧
    (e.graph.event last).getWrittenValue = m.read x

namespace Reflects

variable {e : ExecutionGraph V} {m : Memory V}

theorem of_no_locations (e : ExecutionGraph V) (h : e.nextLocationId = 0) :
    e.Reflects ({} : Memory V) where
  length := h.symm
  onTop x hx := absurd (h ▸ hx) (Nat.not_lt_zero x)

/-- An event at a registered location that does not race. -/
theorem growth (h : e.Reflects m) (hinv : e.Inv) {g' : Graph V} (hg' : g'.Inv) {ev : Event V}
    {l : List (ℕ × ℕ)} (hgrow : Graph.Growth e.graph g' ev l) {x : ℕ} (hx : x < e.nextLocationId)
    (hloc : ev.location = x)
    (hrace : ∀ last, e.graph.lastWrite x = some last →
      g'.races last e.graph.events.length = false) :
    Reflects { e with graph := g' }
      (if ev.modifies then m.write x ev.getWrittenValue else m) where
  length := by
    split
    · simpa [Memory.write] using h.length
    · exact h.length
  onTop y hy := by
    obtain ⟨last, hlast, hval⟩ := h.onTop y hy
    have hkeep (hy : ev.modifies = true → (y : ℤ) ≠ ev.location) :
        g'.OnTop y last ∧ (g'.event last).getWrittenValue = m.read y :=
      ⟨hlast.keep hgrow hinv.graph hy, by rw [hgrow.event_of_lt hlast.lt, hval]⟩
    cases hm : ev.modifies with
    | false => exact ⟨last, hkeep (by simp [hm])⟩
    | true =>
      rw [if_pos rfl]
      by_cases hyx : y = x
      · subst hyx
        rw [Memory.read_write_self (h.length ▸ hx)]
        have hwrite := Graph.OnTop.write (hloc ▸ hlast) hgrow hinv.graph hg' hm
          (hrace last hlast.lastWrite)
        exact ⟨_, hloc ▸ hwrite, by rw [hgrow.event_length]⟩
      · rw [Memory.read_write_of_ne m hyx]
        refine ⟨last, hkeep fun _ => ?_⟩
        rw [hloc]
        exact fun h => hyx (Int.ofNat_inj.mp h)

/-- A registration: no other write has the new location. -/
theorem registerLocation (h : e.Reflects m) (hinv : e.Inv) (hen : initThreadId < e.nThreads)
    (v : V) : Reflects (e.registerLocation v) ⟨m.values ++ [v]⟩ := by
  have hgrow := Graph.growth_addWriteEvent hinv.graph.toSettled .seqCst v (hinv.nThreads ▸ hen)
    (Int.natCast_nonneg e.nextLocationId) (.inr rfl)
  obtain ⟨c, hc⟩ := Graph.exists_storeEvent e.graph e.nextLocationId initThreadId .seqCst v
  rw [hc] at hgrow
  refine ⟨by simp [ExecutionGraph.registerLocation, h.length], fun y hy => ?_⟩
  have hy : y < e.nextLocationId + 1 := hy
  by_cases hyn : y = e.nextLocationId
  · subst hyn
    have hread : Memory.read ⟨m.values ++ [v]⟩ e.nextLocationId = v := by
      simp [Memory.read, ← h.length]
    rw [hread]
    refine ⟨_, Graph.OnTop.of_forall hgrow rfl fun w hw _ hwl => ?_, ?_⟩
    · exact absurd hwl (Int.ne_of_lt (hinv.location_lt w hw))
    · exact congrArg Event.getWrittenValue hgrow.event_length
  · have hlt : y < e.nextLocationId := by omega
    have hread : Memory.read ⟨m.values ++ [v]⟩ y = m.read y := by
      have hlen := h.length
      simp [Memory.read, List.getElem?_append_left (show y < m.values.length by omega)]
    rw [hread]
    obtain ⟨last, hlast, hval⟩ := h.onTop y hlt
    refine ⟨last, hlast.keep hgrow hinv.graph fun _ => ?_, ?_⟩
    · exact fun h => hyn (Int.ofNat_inj.mp h)
    · exact (congrArg Event.getWrittenValue (hgrow.event_of_lt hlast.lt)).trans hval

end Reflects

variable [DecidableEq V] [AtomicOps V]

/-- A sequence of calls; `none` if an assertion fails. -/
def execAll (e : ExecutionGraph V) : List (Op V) → Option (ExecutionGraph V × List (Ret V))
  | [] => some (e, [])
  | op :: ops =>
    match e.exec op with
    | none => none
    | some (e', r) => (e'.execAll ops).map fun p => (p.1, r :: p.2)

/-- Each call of the sequence is enabled when its turn comes. -/
def AllEnabled (e : ExecutionGraph V) : List (Op V) → Prop
  | [] => True
  | op :: ops => e.Enabled op ∧
    match e.exec op with
    | none => True
    | some (e', _) => e'.AllEnabled ops

instance (e : ExecutionGraph V) (ops : List (Op V)) : Decidable (e.AllEnabled ops) :=
  match ops with
  | [] => inferInstanceAs (Decidable True)
  | op :: ops =>
    have : Decidable (match e.exec op with | none => True | some (e', _) => e'.AllEnabled ops) :=
      match e.exec op with
      | none => inferInstanceAs (Decidable True)
      | some (e', _) => instDecidableAllEnabled e' ops
    inferInstanceAs (Decidable (_ ∧ _))

/-- The call does not race with the last write of its location. -/
def raceFree (e : ExecutionGraph V) (op : Op V) : Bool :=
  match op.location?, e.exec op with
  | some x, some (e', _) =>
    (e.graph.lastWrite x).all fun w => !e'.graph.races w e.graph.events.length
  | _, _ => true

/-- No call of the sequence races. -/
def allRaceFree (e : ExecutionGraph V) : List (Op V) → Bool
  | [] => true
  | op :: ops => e.raceFree op &&
    match e.exec op with
    | none => true
    | some (e', _) => e'.allRaceFree ops

theorem races_of_raceFree {e e' : ExecutionGraph V} {op : Op V} {r : Ret V} {x last : ℕ}
    (h : e.raceFree op = true) (hop : op.location? = some x) (hex : e.exec op = some (e', r))
    (hlast : e.graph.lastWrite x = some last) :
    e'.graph.races last e.graph.events.length = false := by
  simpa [raceFree, hop, hex, hlast] using h

/-- What a reading call returns and writes, once it has read the value of the memory. -/
theorem readResult_eq {e : ExecutionGraph V} {m : Memory V} {op : Op V} {ev : Event V}
    (hev : e.readingEvent op = some ev) {x : ℕ} (hop : op.location? = some x) {g' : Graph V}
    {c : VectorClock} {n w : ℕ}
    (hself : g'.event n = { ev.setReadFrom w (m.read x) with clock := c })
    (hval : (g'.event w).getWrittenValue = m.read x) :
    readResult g' n op = (m.exec op).2 ∧
      (m.exec op).1 = if (ev.setReadFrom w (m.read x)).modifies then
        m.write x (ev.setReadFrom w (m.read x)).getWrittenValue else m := by
  cases op with
  | reset n => cases hev
  | registerLocation v => cases hev
  | store x t o v => cases hev
  | load y t o cs =>
    obtain rfl : y = x := Option.some.inj hop
    obtain rfl := Option.some.inj hev
    simp [readResult, Graph.getReadValue, hself, Graph.readEvent, Event.setReadFrom, hval,
      Memory.exec, Event.modifies, Event.isWrite, Event.isModifyRMW, Event.type]
  | readModifyWrite y t a b s f cs =>
    obtain rfl : y = x := Option.some.inj hop
    obtain rfl := Option.some.inj hev
    by_cases hv : m.read y = a
    · rw [hv] at hself hval
      constructor
      · simp [readResult, Graph.getReadValue, hself, Graph.casEvent, Event.setReadFrom, hval,
          Memory.exec, hv, Event.isModifyRMW, Event.expectedValue]
      · simp [Memory.exec, hv, Graph.casEvent, Event.setReadFrom, Event.modifies,
          Event.isModifyRMW, Event.getWrittenValue]
    · simp [readResult, Graph.getReadValue, hself, Graph.casEvent, Event.setReadFrom, hval,
        Memory.exec, hv, Event.isModifyRMW, Event.expectedValue, Event.modifies, Event.isWrite,
        Event.type]
  | unconditionalReadModifyWrite y t f a o cs =>
    obtain rfl : y = x := Option.some.inj hop
    obtain rfl := Option.some.inj hev
    simp [readResult, Graph.getReadValue, hself, Graph.unconditionalRMWEvent, Event.setReadFrom,
      Memory.exec, Event.modifies, Event.isModifyRMW, Event.getWrittenValue]

namespace Reflects

variable {e : ExecutionGraph V} {m : Memory V}

theorem exec_reading (h : e.Reflects m) (hinv : e.Inv) {op : Op V} (hen : e.Enabled op)
    (hrace : e.raceFree op = true) {ev : Event V} (hev : e.readingEvent op = some ev) {x : ℕ}
    (hop : op.location? = some x) (hx : x < e.nextLocationId) (hloc : ev.location = x) :
    ∃ e', e.exec op = some (e', (m.exec op).2) ∧ e'.Reflects (m.exec op).1 := by
  obtain ⟨hs, -⟩ := hinv.readSetup hen hev
  obtain ⟨last, hlast, hval⟩ := h.onTop x hx
  obtain ⟨g', hg'⟩ := Option.ne_none_iff_exists'.mp (hs.addReadingEvent_ne_none hinv.graph)
  have hex := exec_of_readingEvent (e := e) hev
  rw [hg', Option.map_some] at hex
  have hraces (last : ℕ) (hlast : e.graph.lastWrite x = some last) :
      g'.races last e.graph.events.length = false := races_of_raceFree hrace hop hex hlast
  obtain ⟨w, -, ev₁, hacc⟩ := hs.of_some hinv.graph hg'
  obtain rfl : w = last :=
    Graph.OnTop.read (hloc ▸ hlast) hacc hinv.graph (hraces last hlast.lastWrite)
  obtain ⟨c, hc⟩ := hacc.retry.exists_attemptEvent w
  rw [Graph.fresh, Event.setReadFrom_setClock, hval] at hc
  have hgrow := hacc.growth
  have hself := hgrow.event_length.trans hc
  have hwritten : (g'.event w).getWrittenValue = m.read x := by
    rw [hgrow.event_of_lt hlast.lt, hval]
  obtain ⟨hresult, hmemory⟩ := readResult_eq hev hop hself hwritten
  refine ⟨_, hex.trans (by rw [hresult]), ?_⟩
  rw [hc] at hgrow
  have hreflects := h.growth hinv (hgrow.inv hinv.graph fun _ => hacc.consistent) hgrow hx
    (by simpa using hloc) hraces
  rw [hmemory]
  exact hreflects

/-- **One call**: it returns what the memory returns, and the memory goes on holding the values of
the writes on top. -/
theorem exec (h : e.Reflects m) (hinv : e.Inv) {op : Op V} (hen : e.Enabled op)
    (hrace : e.raceFree op = true) :
    ∃ e', e.exec op = some (e', (m.exec op).2) ∧ e'.Reflects (m.exec op).1 := by
  cases op with
  | reset n => exact ⟨_, rfl, of_no_locations _ rfl⟩
  | registerLocation v =>
    refine ⟨e.registerLocation v, ?_, h.registerLocation hinv hen v⟩
    simp [ExecutionGraph.exec, Memory.exec, h.length]
  | store x t o v =>
    have hgrow := Graph.growth_addWriteEvent hinv.graph.toSettled o v
      (hinv.nThreads ▸ hen.2) (Int.natCast_nonneg x) (.inl (hinv.registered x hen.1))
    have hexec : e.exec (.store x t o v) = some (e.store x t o v, .unit) := rfl
    have hinv' := (hinv.exec hen hexec).graph
    obtain ⟨c, hc⟩ := Graph.exists_storeEvent e.graph x t o v
    rw [hc] at hgrow
    refine ⟨_, rfl, h.growth hinv hinv' hgrow hen.1 rfl fun last hlast => ?_⟩
    exact races_of_raceFree hrace rfl rfl hlast
  | load x t o cs => exact h.exec_reading hinv hen hrace rfl rfl hen.1.1 rfl
  | readModifyWrite x t a b s f cs => exact h.exec_reading hinv hen hrace rfl rfl hen.1.1 rfl
  | unconditionalReadModifyWrite x t f a o cs =>
    exact h.exec_reading hinv hen hrace rfl rfl hen.1.1 rfl

theorem execAll (h : e.Reflects m) (hinv : e.Inv) {ops : List (Op V)} (hen : e.AllEnabled ops)
    (hrace : e.allRaceFree ops = true) : ∃ e', e.execAll ops = some (e', (m.execAll ops).2) := by
  induction ops generalizing e m with
  | nil => exact ⟨e, rfl⟩
  | cons op ops ih =>
    obtain ⟨hop, hrest⟩ := hen
    rw [allRaceFree, Bool.and_eq_true] at hrace
    obtain ⟨e', hex, hreflects⟩ := h.exec hinv hop hrace.1
    rw [hex] at hrest hrace
    obtain ⟨e'', hex'⟩ := ih hreflects (hinv.exec hop hex) hrest hrace.2
    refine ⟨e'', ?_⟩
    rw [ExecutionGraph.execAll, hex]
    simp [hex', Memory.execAll]

end Reflects

/-- **Race-free programs see plain memory.** For every sequence of calls with any threads,
locations, memory orders and shuffles, none of which races with the last write of its location: no
assertion fails, and the calls return what a sequentially consistent memory that executes them in
this order returns. -/
theorem execAll_of_raceFree {ops : List (Op V)} (hen : ({} : ExecutionGraph V).AllEnabled ops)
    (hrace : ({} : ExecutionGraph V).allRaceFree ops = true) :
    ∃ e, ({} : ExecutionGraph V).execAll ops = some (e, (({} : Memory V).execAll ops).2) :=
  (Reflects.of_no_locations _ rfl).execAll inv_init hen hrace

/-- A thread writes data and sets a flag, and another one takes it over; the data is accessed with
relaxed orders, and stale writes come first in the shuffles. -/
def handOverCalls : List (Op (BitVec 32)) :=
  [.reset 2, .registerLocation 0, .registerLocation 0, .store 0 0 .relaxed 5,
    .store 1 0 .release 1, .load 1 1 .acquire [5, 3],
    .unconditionalReadModifyWrite 0 1 .fetchAdd 1 .relaxed [2, 4], .load 0 1 .relaxed [2, 4, 7]]

theorem execAll_handOverCalls :
    ∃ e, ({} : ExecutionGraph (BitVec 32)).execAll handOverCalls =
      some (e, [.unit, .location 0, .location 1, .unit, .unit, .value 1, .value 5, .value 6]) := by
  have hen : ({} : ExecutionGraph (BitVec 32)).AllEnabled handOverCalls := by decide +kernel
  exact execAll_of_raceFree hen (by decide +kernel)

end ExecutionGraph

end Wmm

end LTest
