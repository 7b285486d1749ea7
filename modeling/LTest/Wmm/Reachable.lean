import LTest.Wmm.Invariant

/-!
# Runs of the execution graph

What a call does, in one inversion lemma, and the invariant of every reachable execution graph.

## Main definitions

* `Graph.Attempting` — the graphs in which an attempt of a reading call begins
* `ExecutionGraph.Run` — reached from the initial state by calls that meet a condition
* `ExecutionGraph.Reachable` — reached by any calls
* `ExecutionGraph.Performs` — the event a call appends

## Main results

* `Graph.Attempting.exists_sketch` — what is known when an attempt begins
* `Graph.Attempting.tryCandidates` — the loop over the candidates
* `ExecutionGraph.Inv.exec_cases` — everything a call can do
* `ExecutionGraph.Reachable.inv` — the invariant holds in every reachable state
* `ExecutionGraph.Run.induction` — the rule for invariants of conditional runs
-/

namespace LTest

namespace Wmm

variable {V : Type}

namespace Graph

/-- The event `ev` as `CreatePoEdgeToEvent` leaves it. -/
def fresh (g : Graph V) (ev : Event V) : Event V := { ev with clock := g.nextClock ev.threadId }

theorem WellFormed.mem_modifying {g : Graph V} (h : g.WellFormed) {x : ℤ} {w : ℕ} :
    w ∈ (g.events.filter fun e => e.modifies && e.location = x).map (·.id) ↔
      w < g.events.length ∧ (g.event w).modifies = true ∧ (g.event w).location = x := by
  simp only [List.mem_map, List.mem_filter, Bool.and_eq_true, decide_eq_true_eq]
  constructor
  · rintro ⟨e, ⟨he, hm, hl⟩, rfl⟩
    obtain ⟨i, hi, rfl⟩ := List.mem_iff_getElem.mp he
    have hev : g.event i = g.events[i] := by simp [event, hi]
    have hid := h.event_id i hi
    rw [hev] at hid
    rw [hid, hev]
    exact ⟨hi, hm, hl⟩
  · rintro ⟨hlt, hm, hl⟩
    exact ⟨g.event w, ⟨by simp [event, hlt], hm, hl⟩, h.event_id w hlt⟩

section Read

variable {g g' g₁ : Graph V} {ev : Event V} {cs : List ℕ}

/-- What a reading call needs. -/
structure ReadSetup (g : Graph V) (ev : Event V) (cs : List ℕ) : Prop where
  /-- The event is not resolved yet. -/
  unresolved : ev.Unresolved
  /-- It is the next one. -/
  id : ev.id = g.events.length
  /-- It is of a thread of the graph. -/
  thread_lt : ev.threadId < g.nThreads
  /-- It is no dummy. -/
  location_nonneg : 0 ≤ ev.location
  /-- Its location is registered. -/
  registered : g.lastSeqCstWriteEvents ev.location ≠ none
  /-- The candidates are the writes of the location. -/
  candidates : ∀ w, w ∈ cs ↔
    w < g.events.length ∧ (g.event w).modifies = true ∧ (g.event w).location = ev.location

theorem ReadSetup.sketch (hs : ReadSetup g ev cs) (hg : g.Inv) :
    Sketch g [] false (g.createPoEdgeToEvent ev) (g.fresh ev) [] g.lastSeqCstWriteEvents :=
  sketch_createPoEdgeToEvent hg.wf hs.id

theorem ReadSetup.nextClock (hs : ReadSetup g ev cs) (hg : g.Inv) :
    NextClock g (g.fresh ev).threadId (g.fresh ev).clock :=
  hg.nextClock hs.thread_lt

theorem ReadSetup.exists_last (hs : ReadSetup g ev cs) (hg : g.Inv) :
    ∃ w₀ < g.events.length, g.lastSeqCstWriteEvents ev.location = some w₀ := by
  obtain ⟨w₀, hw₀⟩ := Option.ne_none_iff_exists'.mp hs.registered
  exact ⟨w₀, (hg.last _ _ hw₀).1, hw₀⟩

variable [DecidableEq V] [Inhabited V] [AtomicOps V]

/-- Reading from a candidate grows the graph, whatever the attempts before have left. -/
theorem ReadSetup.growth (hs : ReadSetup g ev cs) (hg : g.Inv) {ev₁ : Event V} {w : ℕ}
    (hw : w ∈ cs) (hsk : Sketch g [] false g₁ ev₁ [] g.lastSeqCstWriteEvents)
    (hr : Retry g g.lastSeqCstWriteEvents (g.fresh ev) ev₁) :
    Growth g (g₁.attempt w ev₁.id).applySnapshot (g.attemptEvent g.lastSeqCstWriteEvents ev₁ w)
      (ruleEdges g g.lastSeqCstWriteEvents
        (g.attemptEvent g.lastSeqCstWriteEvents ev₁ w) w) := by
  obtain ⟨w₀, hw₀lt, hw₀⟩ := hs.exists_last hg
  obtain ⟨hwlt, hwm, hwl⟩ := (hs.candidates w).mp hw
  exact growth_of_accepted hg.toSettled (g.fresh ev) hs.thread_lt hs.location_nonneg hs.registered
    (hs.nextClock hg) hr hwlt hwm hwl
    (sketch_attempt hg.wf hsk hwlt (hr.location ▸ hw₀) hw₀lt).applySnapshot

/-- An accepted attempt to read from `w` that made the graph `g'`. -/
structure ReadAccepted (g g' : Graph V) (ev ev₁ : Event V) (w : ℕ) : Prop where
  retry : Retry g g.lastSeqCstWriteEvents (g.fresh ev) ev₁
  growth : Growth g g' (g.attemptEvent g.lastSeqCstWriteEvents ev₁ w)
    (ruleEdges g g.lastSeqCstWriteEvents (g.attemptEvent g.lastSeqCstWriteEvents ev₁ w) w)
  consistent : g'.isConsistent = true

/-- The graphs in which `TryCreateRfEdge` is called for the new event `ev`: the event has been
appended, and any candidates have been tried and rejected. -/
inductive Attempting (g : Graph V) (ev : Event V) (cs : List ℕ) : Graph V → Prop
  | start : Attempting g ev cs (g.createPoEdgeToEvent ev)
  | retry {g₁ : Graph V} {w : ℕ} : Attempting g ev cs g₁ → w ∈ cs →
      (g₁.tryCreateRfEdge w ev.id).1 = false →
      Attempting g ev cs (g₁.tryCreateRfEdge w ev.id).2

theorem tryCreateRfEdge_accepted {write read : ℕ} (h : (g.tryCreateRfEdge write read).1 = true) :
    (g.attempt write read).isConsistent = true ∧
      (g.tryCreateRfEdge write read).2 = (g.attempt write read).applySnapshot := by
  rw [tryCreateRfEdge_eq] at h ⊢
  cases hc : (g.attempt write read).isConsistent with
  | true => exact ⟨rfl, by simp⟩
  | false => simp [hc] at h

theorem tryCreateRfEdge_rejected {write read : ℕ} (h : (g.tryCreateRfEdge write read).1 = false) :
    (g.attempt write read).isConsistent = false ∧
      (g.tryCreateRfEdge write read).2 = g.reject write read := by
  rw [tryCreateRfEdge_eq] at h ⊢
  cases hc : (g.attempt write read).isConsistent with
  | true => simp [hc] at h
  | false => exact ⟨rfl, by simp⟩

/-- **What is known when an attempt begins**: no edges but the program-order edge have been drawn,
and the event resolves the way it would have resolved at first. -/
theorem Attempting.exists_sketch (h : Attempting g ev cs g₁) (hg : g.Inv)
    (hs : ReadSetup g ev cs) : ∃ ev₁, Sketch g [] false g₁ ev₁ [] g.lastSeqCstWriteEvents ∧
      Retry g g.lastSeqCstWriteEvents (g.fresh ev) ev₁ := by
  obtain ⟨w₀, hw₀lt, hw₀⟩ := hs.exists_last hg
  have hlen := (hs.nextClock hg).length.trans (hg.clock_length w₀ hw₀lt).symm
  induction h with
  | start =>
    have hu : (g.fresh ev).Unresolved := hs.unresolved
    exact ⟨g.fresh ev, hs.sketch hg, .refl hu⟩
  | @retry g₁ w _ hw hrej ih =>
    obtain ⟨ev₁, hsk, hr⟩ := ih
    have hid : ev.id = ev₁.id := hr.id.symm
    rw [(tryCreateRfEdge_rejected hrej).2, hid]
    exact sketch_reject hg.wf hsk hr ((hs.candidates w).mp hw).1 hw₀ hw₀lt hlen

theorem Attempting.exists_accepted (h : Attempting g ev cs g₁) (hg : g.Inv) (hs : ReadSetup g ev cs)
    {w : ℕ} (hw : w ∈ cs) (hcons : (g₁.attempt w ev.id).isConsistent = true) :
    ∃ ev₁, Sketch g [] false g₁ ev₁ [] g.lastSeqCstWriteEvents ∧
      ReadAccepted g (g₁.attempt w ev.id).applySnapshot ev ev₁ w := by
  obtain ⟨ev₁, hsk, hr⟩ := h.exists_sketch hg hs
  have hgrow := hs.growth hg hw hsk hr
  rw [hr.id] at hgrow
  exact ⟨ev₁, hsk, hr, hgrow, (isConsistent_applySnapshot _).trans hcons⟩

/-- **The loop over the candidates** accepts one of them in some attempt, or has rejected each of
them at some moment. -/
theorem Attempting.tryCandidates {cs' : List ℕ} (hcs : ∀ w ∈ cs', w ∈ cs)
    (h : Attempting g ev cs g₁) :
    (∃ w ∈ cs, ∃ g₂, Attempting g ev cs g₂ ∧ (g₂.attempt w ev.id).isConsistent = true ∧
        g₁.tryCandidates ev.id cs' = (g₂.attempt w ev.id).applySnapshot) ∨
      Attempting g ev cs (g₁.tryCandidates ev.id cs') ∧
        ∀ w ∈ cs', ∃ g₂, Attempting g ev cs g₂ ∧ (g₂.attempt w ev.id).isConsistent = false := by
  induction cs' generalizing g₁ with
  | nil => exact .inr ⟨h, by simp⟩
  | cons w cs' ih =>
    have hw := hcs w List.mem_cons_self
    dsimp only [Graph.tryCandidates]
    cases hres : (g₁.tryCreateRfEdge w ev.id).1 with
    | true =>
      obtain ⟨hcons, heq⟩ := tryCreateRfEdge_accepted hres
      exact .inl ⟨w, hw, g₁, h, hcons, heq⟩
    | false =>
      have hcons := (tryCreateRfEdge_rejected hres).1
      refine (ih (fun w' hw' => hcs w' (List.mem_cons_of_mem w hw')) (h.retry hw hres)).imp_right
        (And.imp_right fun hrej => ?_)
      exact List.forall_mem_cons.mpr ⟨⟨g₁, h, hcons⟩, hrej⟩

/-- A reading call that returns has accepted a candidate in one of its attempts. -/
theorem ReadSetup.exists_attempt (hs : ReadSetup g ev cs) (hg : g.Inv)
    (h : g.addReadingEvent ev cs = some g') :
    ∃ w ∈ cs, ∃ g₁, Attempting g ev cs g₁ ∧
      (g₁.attempt w ev.id).isConsistent = true ∧ g' = (g₁.attempt w ev.id).applySnapshot := by
  obtain ⟨hrf, heq⟩ := Option.ite_none_left_eq_some.mp h
  obtain rfl := Option.some.inj heq
  have hstart : Attempting g ev cs (g.createPoEdgeToEvent ev) := .start
  rcases hstart.tryCandidates (fun _ hw => hw) with hacc | ⟨hatt, -⟩
  · exact hacc
  · obtain ⟨ev₂, hsk, hr⟩ := hatt.exists_sketch hg hs
    have hself := hsk.event_self
    rw [hr.id] at hself
    exact absurd (hself ▸ hr.unresolved.getReadFromEvent) hrf

theorem ReadSetup.of_some (hs : ReadSetup g ev cs) (hg : g.Inv)
    (h : g.addReadingEvent ev cs = some g') : ∃ w ∈ cs, ∃ ev₁, ReadAccepted g g' ev ev₁ w := by
  obtain ⟨w, hw, g₁, hatt, hcons, rfl⟩ := hs.exists_attempt hg h
  obtain ⟨ev₁, -, hacc⟩ := hatt.exists_accepted hg hs hw hcons
  exact ⟨w, hw, ev₁, hacc⟩

end Read

end Graph

/-! ### Calls -/

namespace ExecutionGraph

variable [Inhabited V] {e : ExecutionGraph V} {op : Op V}

/-- The unresolved event of a reading call. -/
def readingEvent (e : ExecutionGraph V) : Op V → Option (Event V)
  | .load location threadId order _ => some (e.graph.readEvent location threadId order)
  | .readModifyWrite location threadId expected desired success failure _ =>
    some (e.graph.casEvent location threadId expected desired success failure)
  | .unconditionalReadModifyWrite location threadId op operand order _ =>
    some (e.graph.unconditionalRMWEvent location threadId op operand order)
  | _ => none

/-- The outcome of the shuffle of a reading call. -/
def shuffled : Op V → List ℕ
  | .load _ _ _ shuffled => shuffled
  | .readModifyWrite _ _ _ _ _ _ shuffled => shuffled
  | .unconditionalReadModifyWrite _ _ _ _ _ shuffled => shuffled
  | _ => []

/-- What a reading call returns, once its event `n` is resolved in `g`. -/
def readResult (g : Graph V) (n : ℕ) : Op V → Ret V
  | .readModifyWrite _ _ _ _ _ _ _ =>
    .rmw (g.event n).isModifyRMW (g.getReadValue n) (g.event n).expectedValue
  | _ => .value (g.getReadValue n)

/-- The event of a call that writes. -/
def writingEvent (e : ExecutionGraph V) : Op V → Option (Event V)
  | .registerLocation value =>
    some (e.graph.storeEvent e.nextLocationId initThreadId .seqCst value)
  | .store location threadId order value =>
    some (e.graph.storeEvent location threadId order value)
  | _ => none

/-- The invariant of the execution graph. -/
structure Inv (e : ExecutionGraph V) : Prop where
  /-- The invariant of the graph. -/
  graph : e.graph.Inv
  /-- It has as many threads. -/
  nThreads : e.nThreads = e.graph.nThreads
  /-- Known locations are registered. -/
  registered : ∀ x < e.nextLocationId, e.graph.lastSeqCstWriteEvents x ≠ none
  /-- Events are of known locations. -/
  location_lt : ∀ i < e.graph.events.length, (e.graph.event i).location < e.nextLocationId

/-- An enabled reading call is set up the way the loop expects. -/
theorem Inv.readSetup (h : e.Inv) (hen : e.Enabled op) {ev : Event V}
    (hev : e.readingEvent op = some ev) :
    Graph.ReadSetup e.graph ev (shuffled op) ∧ ev.location < e.nextLocationId := by
  have key : ∀ {x t : ℕ} {cs : List ℕ} {ev : Event V}, e.Valid x t → cs.Perm (e.candidates x) →
      ev.Unresolved → ev.id = e.graph.events.length → ev.location = x → ev.threadId = t →
      Graph.ReadSetup e.graph ev cs ∧ ev.location < e.nextLocationId := by
    rintro x t cs ev ⟨hx, ht⟩ hcs hu hid hloc rfl
    refine ⟨⟨hu, hid, h.nThreads ▸ ht, by omega, hloc ▸ h.registered x hx, fun w => ?_⟩, by omega⟩
    rw [hcs.mem_iff, hloc]
    exact h.graph.wf.mem_modifying
  cases op with
  | load x t o cs =>
    obtain rfl := Option.some.inj hev
    exact key hen.1 hen.2 rfl rfl rfl rfl
  | readModifyWrite x t a b s f cs =>
    obtain rfl := Option.some.inj hev
    exact key hen.1 hen.2 ⟨rfl, rfl, rfl⟩ rfl rfl rfl
  | unconditionalReadModifyWrite x t f a o cs =>
    obtain rfl := Option.some.inj hev
    exact key hen.1 hen.2 ⟨rfl, rfl⟩ rfl rfl rfl
  | _ => cases hev

variable [DecidableEq V] [AtomicOps V] {P : ExecutionGraph V → Op V → Prop} {e' : ExecutionGraph V}

/-- A reading call is its loop over the candidates. -/
theorem exec_of_readingEvent {ev : Event V} (hev : e.readingEvent op = some ev) :
    e.exec op = (e.graph.addReadingEvent ev (shuffled op)).map fun g' =>
      ({ e with graph := g' }, readResult g' e.graph.events.length op) := by
  cases op with
  | load x t o cs =>
    obtain rfl := Option.some.inj hev
    simp [exec, load, Graph.addReadEvent, shuffled, readResult, Function.comp_def]
  | readModifyWrite x t a b s f cs =>
    obtain rfl := Option.some.inj hev
    simp [exec, readModifyWrite, Graph.addRMWEvent, shuffled, readResult, Function.comp_def]
  | unconditionalReadModifyWrite x t f a o cs =>
    obtain rfl := Option.some.inj hev
    simp [exec, unconditionalReadModifyWrite, Graph.addUnconditionalRMWEvent, shuffled,
      readResult, Function.comp_def]
  | _ => cases hev

/-- The call `op` appends the event `ev`. -/
inductive Performs (e : ExecutionGraph V) (op : Op V) : Event V → Prop
  | write {ev : Event V} : e.writingEvent op = some ev → Performs e op ev
  | read {ev ev₁ : Event V} {w : ℕ} : e.readingEvent op = some ev →
      Graph.Retry e.graph e.graph.lastSeqCstWriteEvents (e.graph.fresh ev) ev₁ →
      Performs e op (e.graph.attemptEvent e.graph.lastSeqCstWriteEvents ev₁ w)

/-- **Everything a call can do**: reset the graph, or grow it by one event. -/
theorem Inv.exec_cases (h : e.Inv) {r : Ret V} (hen : e.Enabled op)
    (hex : e.exec op = some (e', r)) :
    (∃ n, op = .reset n ∧ e' = e.reset n) ∨
      ∃ ev l, Performs e op ev ∧ Graph.Growth e.graph e'.graph ev l ∧
        (ev.getReadFromEvent ≠ none → e'.graph.isConsistent = true) ∧
        e'.nThreads = e.nThreads ∧ e.nextLocationId ≤ e'.nextLocationId ∧
        ev.location < e'.nextLocationId ∧
        (e'.nextLocationId = e.nextLocationId ∨ ev.location = e.nextLocationId ∧
          e'.nextLocationId = e.nextLocationId + 1 ∧ ev.modifies = true ∧
          ev.isSeqCst = true) := by
  cases hev : e.readingEvent op with
  | some ev =>
    obtain ⟨hs, hloc⟩ := h.readSetup hen hev
    rw [exec_of_readingEvent hev] at hex
    obtain ⟨g', hg', heq⟩ := Option.map_eq_some_iff.mp hex
    obtain ⟨rfl, -⟩ := Prod.mk.inj heq
    obtain ⟨w, -, ev₁, hacc⟩ := hs.of_some h.graph hg'
    refine .inr ⟨_, _, .read hev hacc.retry, hacc.growth, fun _ => hacc.consistent, rfl,
      Nat.le_refl _, ?_, .inl rfl⟩
    obtain ⟨c, hc⟩ := Graph.exists_attemptEvent e.graph e.graph.lastSeqCstWriteEvents ev₁ w
    rw [hc]
    simpa [hacc.retry.location, Graph.fresh] using hloc
  | none =>
    cases op with
    | reset n =>
      obtain ⟨rfl, -⟩ := Prod.mk.inj (Option.some.inj hex)
      exact .inl ⟨n, rfl, rfl⟩
    | registerLocation v =>
      obtain ⟨rfl, -⟩ := Prod.mk.inj (Option.some.inj hex)
      have ht : initThreadId < e.nThreads := hen
      have hgrow := Graph.growth_addWriteEvent h.graph.toSettled .seqCst v (h.nThreads ▸ ht)
        (Int.natCast_nonneg e.nextLocationId) (.inr rfl)
      obtain ⟨c, hc⟩ := Graph.exists_storeEvent e.graph e.nextLocationId initThreadId .seqCst v
      refine .inr ⟨_, _, .write rfl, hgrow, fun hrf => absurd (by rw [hc]; rfl) hrf, rfl,
        Nat.le_succ _, ?_, .inr ⟨?_, rfl, ?_, ?_⟩⟩ <;> rw [hc]
      · exact Int.ofNat_lt.mpr (Nat.lt_succ_self _)
      all_goals rfl
    | store x t o v =>
      obtain ⟨rfl, -⟩ := Prod.mk.inj (Option.some.inj hex)
      have hgrow := Graph.growth_addWriteEvent h.graph.toSettled o v
        (h.nThreads ▸ hen.2) (Int.natCast_nonneg x) (.inl (h.registered x hen.1))
      obtain ⟨c, hc⟩ := Graph.exists_storeEvent e.graph x t o v
      refine .inr ⟨_, _, .write rfl, hgrow, fun hrf => absurd (by rw [hc]; rfl) hrf, rfl,
        Nat.le_refl _, ?_, .inl rfl⟩
      rw [hc]
      exact Int.ofNat_lt.mpr hen.1
    | _ => cases hev

omit [Inhabited V] [DecidableEq V] [AtomicOps V] in
theorem inv_reset (hm : e.graph.inSnapshotMode = false) (hs : e.graph.snapshotEdges = []) (n : ℕ) :
    (e.reset n).Inv where
  graph := Graph.inv_reset n hm hs
  nThreads := rfl
  registered x hx := by simp [reset] at hx
  location_lt i hi := by
    change i < (e.graph.reset n).events.length at hi
    rw [Graph.length_events_reset] at hi
    change ((e.graph.reset n).event i).location < _
    rw [Graph.event_reset _ n hi]
    simp [Graph.dummyEvent, reset]

theorem Inv.exec (h : e.Inv) {r : Ret V} (hen : e.Enabled op) (hex : e.exec op = some (e', r)) :
    e'.Inv := by
  rcases h.exec_cases hen hex with ⟨n, -, rfl⟩ |
    ⟨ev, l, -, hgrow, hcons, hn, hle, hloc, hnext⟩
  · exact inv_reset h.graph.wf.inSnapshotMode h.graph.wf.snapshotEdges n
  · have hinv := hgrow.inv h.graph hcons
    refine ⟨hinv, by rw [hn, hgrow.nThreads, h.nThreads], fun x hx => ?_,
      hgrow.forall_event (P := fun _ ev => ev.location < e'.nextLocationId)
        (fun i hi => ?_) hloc⟩
    · by_cases hxe : (x : ℤ) = ev.location
      · have hself := hinv.registered e.graph.events.length (by rw [hgrow.length]; omega)
        rw [hgrow.event_length] at hself
        exact hxe ▸ hself hgrow.location_nonneg
      · have hxlt : x < e.nextLocationId := by
          rcases hnext with hnext | ⟨hl, hnext, -⟩ <;> omega
        rw [hgrow.last, Graph.lastAfter]
        split
        · split
          · rw [Function.update_of_ne hxe]
            exact h.registered x hxlt
          · exact h.registered x hxlt
        · exact h.registered x hxlt
    · have := h.location_lt i hi
      omega

/-- The states reached from the initial one by calls that all meet the condition `P`, which may
depend on the state before the call. -/
inductive Run (P : ExecutionGraph V → Op V → Prop) : ExecutionGraph V → Prop
  | init : Run P {}
  | step {e e' : ExecutionGraph V} {op : Op V} {r : Ret V} : Run P e → e.Enabled op → P e op →
      e.exec op = some (e', r) → Run P e'

/-- The states reached by any calls. -/
def Reachable (e : ExecutionGraph V) : Prop := Run (fun _ _ => True) e

theorem Run.reachable (h : Run P e) : Reachable e := by
  induction h with
  | init => exact .init
  | step _ hen _ hex ih => exact .step ih hen trivial hex

omit [Inhabited V] [DecidableEq V] [AtomicOps V] in
theorem inv_init : ({} : ExecutionGraph V).Inv := by
  have h : ({} : ExecutionGraph V) = ({} : ExecutionGraph V).reset 0 := by
    simp [reset, Graph.reset]
  rw [h]
  exact inv_reset rfl rfl 0

/-- **The invariant holds in every reachable state.** -/
theorem Reachable.inv (h : Reachable e) : e.Inv := by
  induction h with
  | init => exact inv_init
  | step _ hen _ hex ih => exact ih.exec hen hex

/-- An invariant of conditional runs: it holds after every reset, and growing the graph by a call
that meets the condition keeps it. -/
theorem Run.induction {Q : Graph V → Prop} (hreset : ∀ (g : Graph V) (n : ℕ), Q (g.reset n))
    (hgrow : ∀ (e : ExecutionGraph V) (op : Op V) (g' : Graph V) (ev : Event V)
      (l : List (ℕ × ℕ)), e.Inv → g'.Inv → P e op → Performs e op ev →
      Graph.Growth e.graph g' ev l → Q e.graph → Q g') (h : Run P e) : Q e.graph := by
  induction h with
  | init =>
    have h : ({} : ExecutionGraph V).graph = ({} : Graph V).reset 0 := by simp [Graph.reset]
    rw [h]
    exact hreset _ 0
  | step hrun hen hP hex ih =>
    have hinv := hrun.reachable.inv
    rcases hinv.exec_cases hen hex with ⟨n, -, rfl⟩ | ⟨ev, l, hperf, hg, -⟩
    · exact hreset _ n
    · exact hgrow _ _ _ ev l hinv (hinv.exec hen hex).graph hP hperf hg ih

/-! ### Playing calls -/

/-- The state after a call; a call whose assertion fails changes nothing here. -/
def next (e : ExecutionGraph V) (op : Op V) : ExecutionGraph V :=
  match e.exec op with
  | some (e', _) => e'
  | none => e

theorem Run.next (h : Run P e) (hen : e.Enabled op) (hP : P e op) : Run P (e.next op) := by
  unfold ExecutionGraph.next
  split
  · exact .step h hen hP ‹_›
  · exact h

/-- Make the given calls, as long as they are enabled and meet the condition. -/
def play (P : ExecutionGraph V → Op V → Prop) [∀ e op, Decidable (P e op)]
    (e : ExecutionGraph V) : List (Op V) → ExecutionGraph V
  | [] => e
  | op :: ops => if e.Enabled op ∧ P e op then play P (e.next op) ops else e

theorem run_play [∀ e op, Decidable (P e op)] (h : Run P e) (ops : List (Op V)) :
    Run P (play P e ops) := by
  induction ops generalizing e with
  | nil => exact h
  | cons op ops ih =>
    rw [play]
    split
    · rename_i hen
      exact ih (h.next hen.1 hen.2)
    · exact h

/-- The state after the given calls. -/
def after (ops : List (Op V)) : ExecutionGraph V := play (fun _ _ => True) {} ops

theorem reachable_after (ops : List (Op V)) : Reachable (after ops) := run_play .init ops

end ExecutionGraph

end Wmm

end LTest
