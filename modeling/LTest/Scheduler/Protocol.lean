import LTest.Scheduler.DualMethod
import LTest.Scheduler.LifeCycle

/-!
# Dual histories follow the protocol

A dual task emits its events into a buffer, from which `DualStrategyScheduler` appends them to the
history after each resume. The invariant of a trace says of every dual task that its events in the
history are its start event and those that its coroutine has emitted so far; the buffers are empty
between two resumes, and the drained events are numbered without gaps from the beginning of the
attempt on.

## Main definitions

* `phasesOf` — the phases of a task in a history
* `Trace.FollowsProtocol` — the history follows the protocol and the order of emission
* `Phased` — the invariant of a trace

## Main results

* `Phased.after`, `Phased.begin`, `Phased.terminate` — the steps keep it
* `follows_protocol` — the histories of all runs
-/

namespace LTest

namespace Scheduler

variable {P : Program} {ν ρ : Type}

/-! ### Phases -/

/-- The phases of a dual task. -/
inductive DualPhase
  | requestInvoke
  | requestResponse
  | followUpInvoke
  | followUpResponse
  deriving DecidableEq, Repr

/-- The phases in their order. -/
def protocol : List DualPhase :=
  [.requestInvoke, .requestResponse, .followUpInvoke, .followUpResponse]

/-- The phase that an emitted event ends or begins. -/
def DualEventKind.phase : DualEventKind → DualPhase
  | requestResponse => .requestResponse
  | followUpInvoke => .followUpInvoke
  | followUpResponse => .followUpResponse

namespace DualHistoryEvent

/-- The dual task whose event it is. -/
def dualTask : DualHistoryEvent P → Option ℕ
  | ordinary _ => none
  | requestInvoke task _ | requestResponse task _ | followUpInvoke task _ => some task.id
  | followUpResponse task _ _ => some task.id

/-- The phase of an event of a dual task. -/
def phase : DualHistoryEvent P → Option DualPhase
  | ordinary _ => none
  | requestInvoke _ _ => some .requestInvoke
  | requestResponse _ _ => some .requestResponse
  | followUpInvoke _ _ => some .followUpInvoke
  | followUpResponse _ _ _ => some .followUpResponse

/-- The event was emitted by a task. -/
def isEmitted : DualHistoryEvent P → Bool
  | ordinary _ | requestInvoke _ _ => false
  | _ => true

end DualHistoryEvent

/-- The events of a dual task. -/
def eventsOf (id : ℕ) (seq : List (DualHistoryEvent P)) : List (DualHistoryEvent P) :=
  seq.filter fun e => e.dualTask == some id

/-- The phases of a dual task. -/
def phasesOf (id : ℕ) (seq : List (DualHistoryEvent P)) : List DualPhase :=
  (eventsOf id seq).filterMap DualHistoryEvent.phase

/-- The events emitted in this round or attempt. -/
structure Emitted (start : ℕ) (tr : Trace P ν (DualHistoryEvent P)) : Prop where
  /-- They are those that were drained. -/
  events : tr.seq.filter DualHistoryEvent.isEmitted =
    tr.world.emissions.map DualEventRecord.toEvent
  /-- They are numbered from `start`. -/
  numbers : tr.world.emissions.map (·.event.seqno) = List.range' start tr.world.emissions.length
  /-- The counter is the next number. -/
  counter : start + tr.world.emissions.length = tr.world.seqno

/-- The history follows the protocol. -/
structure Trace.FollowsProtocol (start : ℕ) (tr : Trace P ν (DualHistoryEvent P)) : Prop
    extends Emitted start tr where
  /-- The phases of a task are in their order. -/
  phases : ∀ id, phasesOf id tr.seq <+: protocol

section Events

variable {id i : ℕ} {t : TaskInfo P} {seq ext : List (DualHistoryEvent P)}

@[simp] theorem eventsOf_append :
    eventsOf id (seq ++ ext) = eventsOf id seq ++ eventsOf id ext := List.filter_append _ _

theorem eventsOf_eq_nil (h : ∀ e ∈ ext, e.dualTask ≠ some id) : eventsOf id ext = [] := by
  refine List.filter_eq_nil_iff.mpr fun e he => ?_
  simpa using h e he

section

variable (e : DualEventKind × Option P.Val)

@[simp] theorem dualTask_emittedEvent : (emittedEvent t i e).dualTask = some t.id := by
  obtain ⟨kind, v⟩ := e
  cases kind <;> rfl

@[simp] theorem isEmitted_emittedEvent : (emittedEvent t i e).isEmitted = true := by
  obtain ⟨kind, v⟩ := e
  cases kind <;> rfl

@[simp] theorem phase_emittedEvent : (emittedEvent t i e).phase = some e.1.phase := by
  obtain ⟨kind, v⟩ := e
  cases kind <;> rfl

end

section

variable (l : List (DualEventKind × Option P.Val))

theorem eventsOf_map_emittedEvent :
    eventsOf t.id (l.map (emittedEvent t i)) = l.map (emittedEvent t i) := by
  refine List.filter_eq_self.mpr fun e he => ?_
  obtain ⟨a, -, rfl⟩ := List.mem_map.mp he
  simp

theorem filterMap_phase_emittedEvent :
    (l.map (emittedEvent t i)).filterMap DualHistoryEvent.phase = l.map fun e => e.1.phase := by
  induction l with
  | nil => rfl
  | cons e l ih => simp [ih]

theorem filter_isEmitted_emittedEvent :
    (l.map (emittedEvent t i)).filter DualHistoryEvent.isEmitted = l.map (emittedEvent t i) := by
  refine List.filter_eq_self.mpr fun e he => ?_
  obtain ⟨a, -, rfl⟩ := List.mem_map.mp he
  simp

end

theorem dualRecorder_start_of_isDual (h : t.isDual = true) :
    dualRecorder.start t i = .requestInvoke t i := if_pos h

theorem dualRecorder_start_of_not_isDual (h : t.isDual = false) :
    dualRecorder.start t i = .ordinary (.invoke t i) := if_neg (Bool.eq_false_iff.mp h)

theorem isEmitted_start : (dualRecorder.start t i).isEmitted = false := by
  cases h : t.isDual with
  | true =>
    rw [dualRecorder_start_of_isDual h]
    rfl
  | false =>
    rw [dualRecorder_start_of_not_isDual h]
    rfl

/-- The start event is an event of the task or of no dual task. -/
theorem dualTask_start (h : (dualRecorder.start t i).dualTask = some id) :
    id = t.id ∧ t.isDual = true := by
  cases hdual : t.isDual with
  | true =>
    rw [dualRecorder_start_of_isDual hdual] at h
    exact ⟨(Option.some.inj h).symm, rfl⟩
  | false =>
    rw [dualRecorder_start_of_not_isDual hdual] at h
    cases h

/-- Only ordinary tasks have a response. -/
theorem ordinary_of_mem_response {u : Task P} {e : DualHistoryEvent P}
    (he : e ∈ dualRecorder.response u i) : ∃ o, e = .ordinary o := by
  change e ∈ if u.isDual then [] else [.ordinary (.response u.toTaskInfo u.ret i)] at he
  split at he
  · cases he
  · exact ⟨_, List.mem_singleton.mp he⟩

end Events

/-! ### Numbers -/

variable {i : ℕ}

theorem length_number (n : ℕ) (l : List (DualEventKind × Option P.Val)) :
    (number (P := P) n l).length = l.length := by
  induction l generalizing n with
  | nil => rfl
  | cons e l ih => simp [number, ih]

theorem map_seqno_number (n : ℕ) (l : List (DualEventKind × Option P.Val)) :
    (number (P := P) n l).map (·.seqno) = List.range' n l.length := by
  induction l generalizing n with
  | nil => rfl
  | cons e l ih => simp [number, ih, List.range'_succ]

theorem Emitted.congr {start : ℕ} {tr tr' : Trace P ν (DualHistoryEvent P)} (h : Emitted start tr)
    (hseq : tr'.seq.filter DualHistoryEvent.isEmitted = tr.seq.filter DualHistoryEvent.isEmitted)
    (hemissions : tr'.world.emissions = tr.world.emissions)
    (hseqno : tr'.world.seqno = tr.world.seqno) : Emitted start tr' where
  events := by rw [hseq, hemissions, h.events]
  numbers := by rw [hemissions, h.numbers]
  counter := by rw [hemissions, hseqno, h.counter]

theorem Emitted.emit {start : ℕ} {tr tr' : Trace P ν (DualHistoryEvent P)} (h : Emitted start tr)
    {t : TaskInfo P} {l : List (DualEventKind × Option P.Val)}
    (hseq : tr'.seq.filter DualHistoryEvent.isEmitted =
      tr.seq.filter DualHistoryEvent.isEmitted ++ l.map (emittedEvent t i))
    (hemissions : tr'.world.emissions =
      tr.world.emissions ++ (number tr.world.seqno l).map (⟨t, i, ·⟩))
    (hseqno : tr'.world.seqno = tr.world.seqno + l.length) : Emitted start tr' where
  events := by
    rw [hseq, hemissions, List.map_append, List.map_map, h.events]
    exact congrArg _ (map_toEvent_number t i _ l).symm
  numbers := by
    have hnumbers : ((number tr.world.seqno l).map (DualEventRecord.mk t i)).map
        (·.event.seqno) = List.range' tr.world.seqno l.length := by
      rw [List.map_map]
      exact map_seqno_number _ _
    rw [hemissions, List.map_append, hnumbers, h.numbers, List.length_append, List.length_map,
      length_number, ← h.counter]
    exact List.range'_append_1
  counter := by
    rw [hemissions, List.length_append, List.length_map, length_number, hseqno, ← h.counter,
      Nat.add_assoc]

/-! ### The invariant -/

namespace DualMethods

variable {D : DualMethods}

/-- The events of a task in the history: its start event and what its coroutine has emitted. -/
structure TaskPhased (seq : List (DualHistoryEvent D.program)) (i : ℕ) (t : Task D.program) :
    Prop where
  isDual : t.returned = false → Fiber.isDual t.fiber = t.isDual
  events : t.isDual = true → ∃ l : List (DualEventKind × Option D.program.Val),
    eventsOf t.id seq =
      (if t.id ∈ dualRecorder.starts seq then [.requestInvoke t.toTaskInfo i] else []) ++
        l.map (emittedEvent t.toTaskInfo i) ∧
    (∃ v : D.Val, l <+: phases v) ∧ (t.returned = false → l = Fiber.emitted t.fiber) ∧
    (t.id ∉ dualRecorder.starts seq → l = [])

/-- **The invariant of a trace.** -/
structure Phased (start : ℕ) (tr : Trace D.program ν (DualHistoryEvent D.program)) : Prop where
  serial : tr.world.Serial
  quiet : tr.world.Quiet dualRecorder
  emitted : Emitted start tr
  known : ∀ e ∈ tr.seq, ∀ id, e.dualTask = some id →
    ∃ i j t, tr.world.task? i j = some t ∧ t.id = id ∧ t.isDual = true
  tasks : ∀ i j t, tr.world.task? i j = some t → TaskPhased tr.seq i t

namespace TaskPhased

variable {seq seq' : List (DualHistoryEvent D.program)} {i : ℕ} {t t' : Task D.program}

/-- The same task in a history with the same events of it. -/
theorem congr (h : TaskPhased seq i t) (hinfo : t'.toTaskInfo = t.toTaskInfo)
    (hfiber : t'.returned = false → t.returned = false ∧ t'.fiber = t.fiber)
    (hevents : eventsOf t.id seq' = eventsOf t.id seq)
    (hstarts : t.id ∈ dualRecorder.starts seq' ↔ t.id ∈ dualRecorder.starts seq) :
    TaskPhased seq' i t' where
  isDual hret := by
    obtain ⟨hret, hfiber⟩ := hfiber hret
    rw [hfiber, hinfo, h.isDual hret]
  events hdual := by
    rw [hinfo] at hdual ⊢
    obtain ⟨l, hl, hprefix, hemitted, hnil⟩ := h.events hdual
    refine ⟨l, ?_, hprefix, fun hret => ?_, fun hnot => hnil (hstarts.not.mp hnot)⟩
    · rw [hevents, hl]
      simp only [hstarts]
    · obtain ⟨hret, hfiber⟩ := hfiber hret
      rw [hemitted hret, hfiber]

end TaskPhased

namespace Phased

variable {start : ℕ} {tr tr' : Trace D.program ν (DualHistoryEvent D.program)}

theorem followsProtocol (h : Phased start tr) : tr.FollowsProtocol start where
  phases id := by
    by_cases hnil : eventsOf id tr.seq = []
    · rw [phasesOf, hnil]
      exact List.nil_prefix
    · obtain ⟨e, he⟩ := List.exists_mem_of_ne_nil _ hnil
      obtain ⟨hmem, hid⟩ := List.mem_filter.mp he
      obtain ⟨i, j, t, ht, rfl, hdual⟩ := h.known e hmem id (by simpa using hid)
      obtain ⟨l, hl, ⟨v, hprefix⟩, -, hnotstarted⟩ := (h.tasks i j t ht).events hdual
      by_cases hstarted : t.id ∈ dualRecorder.starts tr.seq
      · rw [phasesOf, hl, if_pos hstarted, List.filterMap_append, filterMap_phase_emittedEvent]
        refine List.cons_prefix_cons.mpr ⟨rfl, ?_⟩
        exact hprefix.map fun e => e.1.phase
      · rw [hl, if_neg hstarted, hnotstarted hstarted] at hnil
        exact absurd rfl hnil
  toEmitted := h.emitted

/-- Events of one task are appended to the history, and the other tasks are as before. -/
theorem extend (h : Phased start tr) {j : ℕ} {t : Task D.program} (ht : tr.world.task? i j = some t)
    {ext : List (DualHistoryEvent D.program)} (hseq : tr'.seq = tr.seq ++ ext)
    (hext : ∀ e ∈ ext, ∀ id, e.dualTask = some id → id = t.id ∧ t.isDual = true)
    (hstarts : ∀ id ∈ dualRecorder.starts ext, id = t.id)
    (hinfos : tr'.world.infos = tr.world.infos) (hid : tr'.world.newTaskId = tr.world.newTaskId)
    (hquiet : tr'.world.Quiet dualRecorder) (hemitted : Emitted start tr')
    (hothers : ∀ i' j' t', ¬ (i' = i ∧ j' = j) → tr'.world.task? i' j' = some t' →
      ∃ u, tr.world.task? i' j' = some u ∧ t'.toTaskInfo = u.toTaskInfo ∧
        t'.returned = u.returned ∧ t'.fiber = u.fiber)
    (hself : ∀ t', tr'.world.task? i j = some t' → TaskPhased tr'.seq i t') : Phased start tr' where
  serial := h.serial.congr hinfos hid
  quiet := hquiet
  emitted := hemitted
  known e he id hdual := by
    have hsame (i j : ℕ) (u : Task D.program) (hu : tr.world.task? i j = some u) :
        ∃ u', tr'.world.task? i j = some u' ∧ u'.toTaskInfo = u.toTaskInfo := by
      have hget := congrArg (Grid.get? · i j) hinfos
      simp only [World.infos_get?, hu, Option.map_some] at hget
      exact Option.map_eq_some_iff.mp hget
    rw [hseq, List.mem_append] at he
    have hold : ∃ i j t, tr.world.task? i j = some t ∧ t.id = id ∧ t.isDual = true := by
      obtain he | he := he
      · exact h.known e he id hdual
      · obtain ⟨hid, hisDual⟩ := hext e he id hdual
        exact ⟨i, j, t, ht, hid.symm, hisDual⟩
    obtain ⟨i₁, j₁, u, hu, hid, hdual⟩ := hold
    obtain ⟨u', hu', hinfo⟩ := hsame i₁ j₁ u hu
    exact ⟨i₁, j₁, u', hu', by rw [hinfo, hid], by rw [hinfo, hdual]⟩
  tasks i' j' t' ht' := by
    by_cases hij : i' = i ∧ j' = j
    · obtain ⟨rfl, rfl⟩ := hij
      exact hself t' ht'
    · obtain ⟨u, hu, hinfo, hret, hfiber⟩ := hothers i' j' t' hij ht'
      have hne : u.id ≠ t.id := fun hid => hij (h.serial.numbered i' j' i j u t hu ht hid)
      refine (h.tasks i' j' u hu).congr hinfo (fun h => ⟨hret ▸ h, hfiber⟩) ?_ ?_
      · rw [hseq, eventsOf_append, eventsOf_eq_nil fun e he hdual => hne (hext e he _ hdual).1,
          List.append_nil]
      · rw [hseq, Recorder.starts_append, List.mem_append]
        exact or_iff_left fun hmem => hne (hstarts _ hmem)

/-- The round changes in what the invariant does not look at. -/
theorem congr (h : Phased start tr) (hseq : tr'.seq = tr.seq)
    (hinfos : tr'.world.infos = tr.world.infos) (hid : tr'.world.newTaskId = tr.world.newTaskId)
    (hemissions : tr'.world.emissions = tr.world.emissions)
    (hseqno : tr'.world.seqno = tr.world.seqno)
    (htasks : ∀ i j t', tr'.world.task? i j = some t' → ∃ t, tr.world.task? i j = some t ∧
      t'.toTaskInfo = t.toTaskInfo ∧ t'.pending = t.pending ∧
        (t'.returned = false → t.returned = false ∧ t'.fiber = t.fiber)) : Phased start tr' where
  serial := h.serial.congr hinfos hid
  quiet i j t' ht' := by
    obtain ⟨t, ht, hinfo, hpending, -⟩ := htasks i j t' ht'
    exact dualRecorder_emits.drainTask_congr t t' (congrArg TaskInfo.isDual hinfo).symm
      hpending.symm (h.quiet i j t ht)
  emitted := h.emitted.congr (congrArg _ hseq) hemissions hseqno
  known e he id hdual := by
    obtain ⟨i, j, t, ht, hid, hdual⟩ := h.known e (hseq ▸ he) id hdual
    have hget := congrArg (Grid.get? · i j) hinfos
    simp only [World.infos_get?, ht, Option.map_some] at hget
    obtain ⟨t', ht', hinfo⟩ := Option.map_eq_some_iff.mp hget
    exact ⟨i, j, t', ht', by rw [hinfo, hid], by rw [hinfo, hdual]⟩
  tasks i j t' ht' := by
    obtain ⟨t, ht, hinfo, -, hfiber⟩ := htasks i j t' ht'
    exact (h.tasks i j t ht).congr hinfo hfiber (congrArg _ hseq) (hseq ▸ Iff.rfl)

section Steps

variable {V : Verifier D.program ν} {i j : ℕ} {isNew : Bool}
  {t : Task D.program}

theorem begin (h : Phased start tr) (ht : tr.world.task? i j = some t)
    (hnew : isNew = true → t.id ∉ dualRecorder.starts tr.seq) :
    Phased start (tr.begin dualRecorder isNew t.toTaskInfo i) := by
  cases isNew with
  | false =>
    exact h.congr (List.append_nil _) rfl rfl rfl rfl fun _ _ t' ht' =>
      ⟨t', ht', rfl, rfl, fun hret => ⟨hret, rfl⟩⟩
  | true =>
    have hnot := hnew rfl
    have hseq : (tr.begin dualRecorder true t.toTaskInfo i).seq =
        tr.seq ++ [dualRecorder.start t.toTaskInfo i] := rfl
    refine h.extend ht hseq ?_ ?_ rfl rfl h.quiet ?_ ?_ ?_
    · intro e he id hid
      rw [List.mem_singleton.mp he] at hid
      exact dualTask_start hid
    · intro id hid
      simpa using hid
    · refine h.emitted.congr ?_ rfl rfl
      rw [hseq, List.filter_append, List.filter_cons_of_neg (by simp [isEmitted_start]),
        List.filter_nil,
        List.append_nil]
    · exact fun _ _ t' _ ht' => ⟨t', ht', rfl, rfl, rfl⟩
    · intro t' ht'
      obtain rfl : t = t' := Option.some.inj (ht.symm.trans ht')
      have htask := h.tasks i j t ht
      refine ⟨htask.isDual, fun hdual => ?_⟩
      obtain ⟨l, hl, hprefix, hemitted, hnil⟩ := htask.events hdual
      obtain rfl : l = [] := hnil hnot
      have hstarted : t.id ∈ dualRecorder.starts
          (tr.begin dualRecorder true t.toTaskInfo i).seq := by
        simp [hseq]
      refine ⟨[], ?_, hprefix, hemitted, fun _ => rfl⟩
      rw [if_pos hstarted, hseq, eventsOf_append, hl, if_neg hnot,
        dualRecorder_start_of_isDual hdual]
      simp [eventsOf, DualHistoryEvent.dualTask]

/-- What is drained after a step are the events that the task has emitted. -/
theorem drainEvents (h : Phased start tr) (ht : tr.world.task? i j = some t)
    (hret : t.returned = false) :
    dualRecorder.drainEvents (tr.world.stepTask i j t).threads =
      (tr.world.stepOf i t).1.emitted.map (emittedEvent t.toTaskInfo i) := by
  rw [dualRecorder_drainEvents h.quiet ht]
  split
  · rfl
  · rename_i hdual
    have hfiber : Fiber.isDual t.fiber = false :=
      ((h.tasks i j t ht).isDual hret).trans (Bool.eq_false_iff.mpr hdual)
    have hnone : (tr.world.stepOf i t).1.emitted = [] :=
      (resume_ordinary t.id i hfiber tr.world.target tr.world.blocks tr.world.env).1
    rw [hnone]
    rfl

/-- The events of a task after its step. -/
theorem taskPhased_stepped (h : TaskPhased tr.seq i t) (hret : t.returned = false)
    {seq : List (DualHistoryEvent D.program)}
    (hstarted : t.id ∈ dualRecorder.starts tr.seq) (hstarted' : t.id ∈ dualRecorder.starts seq)
    (hevents : t.isDual = true → eventsOf t.id seq = eventsOf t.id tr.seq ++
      (tr.world.stepOf i t).1.emitted.map (emittedEvent t.toTaskInfo i)) :
    TaskPhased seq i (t.stepped (tr.world.stepOf i t).1 tr.world.seqno) := by
  constructor
  · intro _
    show Fiber.isDual (tr.world.stepOf i t).1.fiber = t.isDual
    cases hdual : t.isDual with
    | true => exact (resume_reaches t.id i ((h.isDual hret).trans hdual) _ _ _).isDual
    | false => exact (resume_ordinary t.id i ((h.isDual hret).trans hdual) _ _ _).2
  · intro hdual
    have hreaches := resume_reaches t.id i ((h.isDual hret).trans hdual) tr.world.target
      tr.world.blocks tr.world.env
    obtain ⟨l, hl, -, hemitted, -⟩ := h.events hdual
    rw [← hemitted hret] at hreaches
    refine ⟨l ++ (tr.world.stepOf i t).1.emitted, ?_, hreaches.exists_prefix, fun hyields => ?_,
      fun hnot => absurd hstarted' hnot⟩
    · rw [Task.stepped_toTaskInfo, if_pos hstarted', hevents hdual, hl, if_pos hstarted,
        List.map_append, List.append_assoc]
    · exact (hreaches.yields (Option.not_isSome_iff_eq_none.mp (Bool.eq_false_iff.mp hyields))).symm

theorem afterStarted (h : Phased start tr) (ht : tr.world.task? i j = some t)
    (hret : t.returned = false) (hstarted : t.id ∈ dualRecorder.starts tr.seq) :
    Phased start (tr.after dualRecorder V i j false t) := by
  let emitted := (tr.world.stepOf i t).1.emitted.map (emittedEvent t.toTaskInfo i)
  let response : List (DualHistoryEvent D.program) :=
    if (tr.world.stepOf i t).1.ret.isSome then
      dualRecorder.response (dualRecorder.drainTask
        (t.stepped (tr.world.stepOf i t).1 tr.world.seqno)) i
    else []
  have hseq : (tr.after dualRecorder V i j false t).seq = tr.seq ++ (emitted ++ response) := by
    rw [Trace.after_seq ht, h.drainEvents ht hret, if_neg Bool.false_ne_true, List.append_nil,
      List.append_assoc]
  have hresponse (e : DualHistoryEvent D.program) (he : e ∈ response) : ∃ o, e = .ordinary o := by
    simp only [response] at he
    split at he
    · exact ordinary_of_mem_response he
    · cases he
  have hemitted (e : DualHistoryEvent D.program) (he : e ∈ emitted) :
      e.dualTask = some t.id ∧ t.isDual = true := by
    obtain ⟨a, ha, rfl⟩ := List.mem_map.mp he
    refine ⟨dualTask_emittedEvent a, ?_⟩
    by_contra hdual
    have hfiber : Fiber.isDual t.fiber = false :=
      ((h.tasks i j t ht).isDual hret).trans (Bool.eq_false_iff.mpr hdual)
    have hnone : (tr.world.stepOf i t).1.emitted = [] :=
      (resume_ordinary t.id i hfiber tr.world.target tr.world.blocks tr.world.env).1
    rw [hnone] at ha
    cases ha
  have hnone : eventsOf t.id response = [] := eventsOf_eq_nil fun e he => by
    obtain ⟨o, rfl⟩ := hresponse e he
    nofun
  have hstarts : dualRecorder.starts (tr.after dualRecorder V i j false t).seq =
      dualRecorder.starts tr.seq := by
    rw [Trace.after_starts ht, if_neg Bool.false_ne_true, List.append_nil]
  refine h.extend ht hseq ?_ ?_ Trace.after_infos Counted.after_newTaskId_removed.1
    dualRecorder_emits.quiet_after ?_ ?_ ?_
  · intro e he id hid
    obtain he | he := List.mem_append.mp he
    · obtain ⟨hdual, hisDual⟩ := hemitted e he
      exact ⟨Option.some.inj (hid.symm.trans hdual), hisDual⟩
    · obtain ⟨o, rfl⟩ := hresponse e he
      cases hid
  · intro id hid
    rw [hseq, Recorder.starts_append] at hstarts
    rw [List.append_right_eq_self.mp hstarts] at hid
    cases hid
  · refine h.emitted.emit (l := (tr.world.stepOf i t).1.emitted) (t := t.toTaskInfo) (i := i)
      ?_ ?_ ?_
    · have hfilter : response.filter DualHistoryEvent.isEmitted = [] :=
        List.filter_eq_nil_iff.mpr fun e he => by
          obtain ⟨o, rfl⟩ := hresponse e he
          nofun
      rw [hseq, List.filter_append, List.filter_append, hfilter, List.append_nil]
      exact congrArg _ (filter_isEmitted_emittedEvent _)
    · obtain ⟨v, hv⟩ := Trace.after_world_eq (R := dualRecorder) (V := V) i j false t tr
      rw [hv]
      rfl
    · obtain ⟨v, hv⟩ := Trace.after_world_eq (R := dualRecorder) (V := V) i j false t tr
      rw [hv]
      rfl
  · intro i' j' t' hij ht'
    rw [Trace.after_task?_of_ne hij, Option.map_eq_some_iff] at ht'
    obtain ⟨u, hu, rfl⟩ := ht'
    exact ⟨u, hu, dualRecorder.drainTask_toTaskInfo u, dualRecorder.drainTask_returned u,
      dualRecorder.drainTask_fiber u⟩
  · intro t' ht'
    rw [Trace.after_task?_self ht] at ht'
    obtain rfl := Option.some.inj ht'
    have hphased : TaskPhased (tr.after dualRecorder V i j false t).seq i
        (t.stepped (tr.world.stepOf i t).1 tr.world.seqno) :=
      taskPhased_stepped (h.tasks i j t ht) hret hstarted (hstarts ▸ hstarted) fun _ => by
        rw [hseq, eventsOf_append, eventsOf_append, hnone, List.append_nil]
        exact congrArg _ (eventsOf_map_emittedEvent _)
    exact hphased.congr (dualRecorder.drainTask_toTaskInfo _)
      (fun hreturned => ⟨(dualRecorder.drainTask_returned _).symm.trans hreturned,
        dualRecorder.drainTask_fiber _⟩) rfl Iff.rfl

/-- A step of a task, with its start event if it is new. -/
theorem after (h : Phased start tr) (ht : tr.world.task? i j = some t) (hret : t.returned = false)
    (hnew : isNew = true ↔ t.id ∉ dualRecorder.starts tr.seq) :
    Phased start (tr.after dualRecorder V i j isNew t) := by
  have hbegin := h.begin ht hnew.mp
  have hstarted : t.id ∈ dualRecorder.starts (tr.begin dualRecorder isNew t.toTaskInfo i).seq := by
    show t.id ∈ dualRecorder.starts
      (tr.seq ++ if isNew then [dualRecorder.start t.toTaskInfo i] else [])
    rw [Recorder.starts_append, List.mem_append]
    by_cases hmem : t.id ∈ dualRecorder.starts tr.seq
    · exact .inl hmem
    · rw [if_pos (hnew.mpr hmem)]
      simp
  have heq : tr.after dualRecorder V i j isNew t =
      (tr.begin dualRecorder isNew t.toTaskInfo i).after dualRecorder V i j false t := by
    show Trace.finish dualRecorder V i j _ = Trace.finish dualRecorder V i j _
    simp only [Trace.begin, Bool.false_eq_true, if_false, List.append_nil]
  rw [heq]
  exact hbegin.afterStarted ht hret hstarted

theorem task?_terminate {w : World D.program ν} {i' j' : ℕ} {t' : Task D.program}
    (ht' : (w.modifyTask i j Task.terminate).task? i' j' = some t') :
    ∃ u, w.task? i' j' = some u ∧ t'.toTaskInfo = u.toTaskInfo ∧ t'.pending = u.pending ∧
      (t'.returned = false → u.returned = false ∧ t'.fiber = u.fiber) := by
  obtain ⟨rfl, rfl, u, hu, rfl⟩ | ⟨-, hu⟩ := Grid.get?_modify_cases ht'
  · exact ⟨u, hu, rfl, rfl, nofun⟩
  · exact ⟨t', hu, rfl, rfl, fun hret => ⟨hret, rfl⟩⟩

theorem quiet_terminate (h : Phased start tr) (i j : ℕ) :
    (tr.world.modifyTask i j Task.terminate).Quiet dualRecorder := by
  intro i' j' t' ht'
  obtain ⟨u, hu, hinfo, hpending, -⟩ := task?_terminate ht'
  exact dualRecorder_emits.drainTask_congr u t' (congrArg TaskInfo.isDual hinfo).symm
    hpending.symm (h.quiet i' j' u hu)

theorem terminate (h : Phased start tr) (ht : tr.world.task? i j = some t)
    (hnew : isNew = true → t.id ∉ dualRecorder.starts tr.seq) :
    Phased start (tr.terminate dualRecorder V i j isNew t.toTaskInfo) := by
  let w := tr.world.modifyTask i j Task.terminate
  have hbegin := h.begin ht hnew
  have hquiet : w.Quiet dualRecorder := h.quiet_terminate i j
  obtain ⟨v, hv⟩ := World.reportFinish_eq V i j (w.mapTasks dualRecorder.drainTask)
  have hworld : (tr.terminate dualRecorder V i j isNew t.toTaskInfo).world =
      (w.mapTasks dualRecorder.drainTask).setVerifier v := hv
  refine hbegin.congr ?_ ?_ ?_ ?_ ?_ ?_
  · show (tr.begin dualRecorder isNew t.toTaskInfo i).seq ++ dualRecorder.drainEvents w.threads = _
    rw [dualRecorder_emits.drainEvents_nil w hquiet, List.append_nil]
  · rw [hworld, World.infos_setVerifier, World.infos_mapTasks dualRecorder.drainTask_toTaskInfo]
    exact World.infos_modifyTask fun _ => rfl
  · rw [hworld]
    rfl
  · rw [hworld]
    rfl
  · rw [hworld]
    rfl
  · intro i' j' t' ht'
    rw [hworld, World.task?_setVerifier, World.task?_mapTasks, Option.map_eq_some_iff] at ht'
    obtain ⟨u, hu, rfl⟩ := ht'
    rw [hquiet i' j' u hu]
    exact task?_terminate hu

end Steps

theorem of_threads (h : Phased start tr) (hseq : tr'.seq = tr.seq)
    (hthreads : tr'.world.threads = tr.world.threads)
    (hid : tr'.world.newTaskId = tr.world.newTaskId)
    (hemissions : tr'.world.emissions = tr.world.emissions)
    (hseqno : tr'.world.seqno = tr.world.seqno) : Phased start tr' :=
  h.congr hseq (by rw [World.infos, World.infos, hthreads]) hid hemissions hseqno
    fun i j t ht => ⟨t, by rwa [World.task?, ← hthreads], rfl, rfl, fun hret => ⟨hret, rfl⟩⟩

theorem clearWakeupCondition (h : Phased start tr) (i j : ℕ) (hseq : tr'.seq = tr.seq)
    (hworld : tr'.world = tr.world.modifyTask i j Task.clearWakeupCondition) :
    Phased start tr' := by
  refine h.congr hseq ?_ ?_ ?_ ?_ ?_
  · rw [hworld]
    exact World.infos_modifyTask fun _ => rfl
  · rw [hworld]
    rfl
  · rw [hworld]
    rfl
  · rw [hworld]
    rfl
  · intro i' j' t' ht'
    rw [hworld] at ht'
    obtain ⟨rfl, rfl, u, hu, rfl⟩ | ⟨-, hu⟩ := Grid.get?_modify_cases ht'
    · exact ⟨u, hu, rfl, rfl, fun hret => ⟨hret, rfl⟩⟩
    · exact ⟨t', hu, rfl, rfl, fun hret => ⟨hret, rfl⟩⟩

end Phased

/-! ### New and restarted tasks -/

section Built

variable {w w' : World D.program ν}

/-- What tells whether a task was built for the target. -/
def origin (t : Task D.program) : Bool × (D.Args → D.Fiber) := (t.isDual, t.func)

theorem builtTasks_congr (h : w'.threads.map (·.map origin) = w.threads.map (·.map origin)) :
    BuiltTasks w' ↔ BuiltTasks w := by
  have hmp {w w' : World D.program ν}
      (h : w'.threads.map (·.map origin) = w.threads.map (·.map origin)) (hbuilt : BuiltTasks w) :
      BuiltTasks w' := by
    intro i j t' ht'
    have hget := congrArg (Grid.get? · i j) h
    simp only [Grid.get?_map] at hget
    change (w'.task? i j).map origin = (w.task? i j).map origin at hget
    rw [ht', Option.map_some, eq_comm, Option.map_eq_some_iff] at hget
    obtain ⟨t, ht, horigin⟩ := hget
    obtain ⟨hdual, hfunc⟩ := Prod.mk.inj horigin
    rw [← hdual, ← hfunc]
    exact hbuilt i j t ht
  exact ⟨hmp h.symm, hmp h⟩

theorem builtTasks_after {V : Verifier D.program ν} {j : ℕ} {isNew : Bool}
    {t : Task D.program} {tr : Trace D.program ν (DualHistoryEvent D.program)} :
    BuiltTasks (tr.after dualRecorder V i j isNew t).world ↔ BuiltTasks tr.world := by
  refine builtTasks_congr ?_
  obtain ⟨v, hv⟩ := Trace.after_world_eq (R := dualRecorder) (V := V) i j isNew t tr
  rw [hv]
  show ((Grid.modify tr.world.threads i j _).map (·.map dualRecorder.drainTask)).map
    (·.map origin) = _
  rw [Grid.map_map, Grid.map_modify]
  · refine Grid.map_congr fun u => ?_
    obtain ⟨pending, hu⟩ := dualRecorder.drainTask_eq u
    rw [hu]
    rfl
  · intro u
    obtain ⟨pending, hu⟩ := dualRecorder.drainTask_eq u
    obtain ⟨pending', hu'⟩ := dualRecorder.drainTask_eq
      (Task.stepped (tr.world.stepOf i t).1 tr.world.seqno u)
    rw [hu, hu']
    rfl

theorem builtTasks_build {b : TaskBuilder D.program} (hi : i < w.threads.length)
    (h : BuiltTasks (w.build i b)) : BuiltTasks w ∧ Builds b :=
  ⟨fun i' j' t ht => h i' j' t (Grid.get?_push_of_get? ht),
    h i _ (w.built i b) (Grid.get?_push_self hi)⟩

end Built

theorem Begins.isDual_emitted {isDual : Bool} {fiber : D.Fiber} (h : Begins isDual fiber) :
    fiber.isDual = isDual ∧ fiber.emitted = [] := by
  cases fiber with
  | ordinary f => exact ⟨h.symm, rfl⟩
  | dual stage code =>
    cases stage with
    | request => exact ⟨h.symm, rfl⟩
    | _ => exact h.elim

variable {seq : List (DualHistoryEvent D.program)} {t : Task D.program}

/-- A task at its beginning, of which there is nothing in the history. -/
theorem TaskPhased.of_begins (hbegins : t.returned = false → Begins t.isDual t.fiber)
    (hevents : eventsOf t.id seq = []) (hstarts : t.id ∉ dualRecorder.starts seq) :
    TaskPhased seq i t where
  isDual hret := (hbegins hret).isDual_emitted.1
  events _ :=
    ⟨[], by rw [hevents, if_neg hstarts]; rfl, ⟨D.voidV, List.nil_prefix⟩,
      fun hret => (hbegins hret).isDual_emitted.2.symm, fun _ => rfl⟩

namespace Phased

variable {start : ℕ} {tr tr' : Trace D.program ν (DualHistoryEvent D.program)}
  {V : Verifier D.program ν} {S : Strategy V ρ} {w : World D.program ν}

theorem of_forall_nil (hw : ∀ ts ∈ w.threads, ts = []) (hemissions : w.emissions = []) :
    Phased w.seqno (⟨w, [], []⟩ : Trace D.program ν (DualHistoryEvent D.program)) where
  serial := .of_forall_nil hw
  quiet i j t ht := by rw [World.task?, Grid.get?_of_forall_nil hw] at ht; cases ht
  emitted := ⟨by rw [hemissions]; rfl, by rw [hemissions]; rfl, by rw [hemissions]; rfl⟩
  known := nofun
  tasks i j t ht := by rw [World.task?, Grid.get?_of_forall_nil hw] at ht; cases ht

theorem reset (hw : w.Serial) (hbuilt : BuiltTasks w) :
    Phased w.seqno
      (⟨w.resetCurrentRound V, [], []⟩ : Trace D.program ν (DualHistoryEvent D.program)) where
  serial := hw.congr (World.infos_resetCurrentRound V) rfl
  quiet := World.quiet_resetCurrentRound V dualRecorder_emits
  emitted := ⟨rfl, rfl, rfl⟩
  known := nofun
  tasks i j t ht := by
    refine .of_begins (fun hret => ?_) rfl nofun
    rw [World.task?, World.resetCurrentRound_threads, Grid.get?_map, Option.map_eq_some_iff] at ht
    obtain ⟨u, hu, rfl⟩ := ht
    cases hremoved : w.isTaskRemoved u.id with
    | true =>
      rw [hremoved, if_pos rfl, Task.stop_returned] at hret
      cases hret
    | false => exact hbuilt i j u hu u.args

theorem build (h : Phased start tr) (i : ℕ) {b : TaskBuilder D.program} (hb : Builds b)
    (hnew : tr.world.newTaskId ∉ dualRecorder.starts tr.seq) :
    Phased start (tr.mapWorld (World.build i b)) where
  serial := h.serial.build i b
  quiet i' j' t' ht' := by
    obtain ⟨-, -, rfl⟩ | ht' := Grid.get?_push_cases ht'
    · exact dualRecorder_emits.drainTask_of_nil _ rfl
    · exact h.quiet i' j' t' ht'
  emitted := h.emitted.congr rfl rfl rfl
  known e he id hdual := by
    obtain ⟨i', j', t', ht', hid, hdual⟩ := h.known e he id hdual
    exact ⟨i', j', t', Grid.get?_push_of_get? ht', hid, hdual⟩
  tasks i' j' t' ht' := by
    obtain ⟨-, -, rfl⟩ | ht' := Grid.get?_push_cases ht'
    · refine .of_begins (fun _ => hb _) (eventsOf_eq_nil fun e he hid => ?_) hnew
      obtain ⟨i', j', t', ht', hid, -⟩ := h.known e he _ hid
      exact absurd hid (Nat.ne_of_lt (h.serial.lt i' j' t' ht'))
    · exact h.tasks i' j' t' ht'

end Phased

/-! ### The loops -/

section Loops

variable {V : Verifier D.program ν} {S : Strategy V ρ} {start : ℕ} {w : World D.program ν}
  {started : List ℕ}

/-- The ids are those of the tasks that have been started. -/
def Marks (started : List ℕ) (seq : List (DualHistoryEvent D.program)) : Prop :=
  ∀ id, started.contains id = true ↔ id ∈ dualRecorder.starts seq

theorem Marks.nil : Marks [] ([] : List (DualHistoryEvent D.program)) :=
  fun _ => iff_of_false nofun nofun

theorem Marks.isNew (h : Marks started seq) (id : ℕ) :
    (!started.contains id) = true ↔ id ∉ dualRecorder.starts seq := by
  rw [Bool.not_eq_true', Bool.eq_false_iff]
  exact (h id).not

/-- A task is visited, with its start event if it is new. -/
theorem Marks.add {seq' : List (DualHistoryEvent D.program)} (h : Marks started seq) {id : ℕ}
    (hstarts : dualRecorder.starts seq' =
      dualRecorder.starts seq ++ if !started.contains id then [id] else []) :
    Marks (addStarted started id) seq' := by
  intro id'
  rw [hstarts, List.mem_append, ← h id', addStarted]
  cases hnew : started.contains id with
  | true => simp
  | false =>
    simp only [Bool.false_eq_true, if_false, Bool.not_false, if_true, List.contains_cons,
      Bool.or_eq_true, beq_iff_eq, List.mem_singleton]
    exact or_comm

/-- What an iteration of `ExploreRound` keeps. -/
theorem phased_iterates {x x' : Explore D.program ν ρ (DualHistoryEvent D.program)}
    (h : Phased start x.trace ∧ Marks x.startedIds x.trace.seq)
    (hx' : Explore.Iterates dualRecorder V x x') :
    Phased start x'.trace ∧ Marks x'.startedIds x'.trace.seq := by
  obtain ⟨hphased, hmarks⟩ := h
  cases hx' with
  | idle => exact ⟨hphased, hmarks⟩
  | finished => exact ⟨hphased, hmarks⟩
  | stopped => exact ⟨hphased.of_threads rfl rfl rfl rfl rfl, hmarks⟩
  | @performed v v' s i j t tr hrunning hasks ht hpermit htr =>
    have hasked : Phased start ((x.asked v' s).trace.pushFull t.id) :=
      hphased.of_threads rfl rfl rfl rfl rfl
    obtain ⟨t', ht', hret, rfl⟩ := Trace.perform_cases htr
    obtain rfl : t' = t := Option.some.inj (ht'.symm.trans ht)
    exact ⟨hasked.after ht' hret (hmarks.isNew _), hmarks.add (Trace.after_starts ht')⟩

/-- The loop of an attempt of `ExploreRound`. -/
theorem phased_exploreAttempt (hw : w.Serial) (hbuilt : BuiltTasks w) (s : ρ) (fuel : ℕ) :
    Phased w.seqno (exploreAttempt dualRecorder S (DualStrategyScheduler.exploreReset S) fuel w
      s).trace := by
  let Inv (x : Explore D.program ν ρ (DualHistoryEvent D.program)) : Prop :=
    Phased w.seqno x.trace ∧ Marks x.startedIds x.trace.seq
  have hinv : Inv (exploreAttempt dualRecorder S (DualStrategyScheduler.exploreReset S) fuel w s) :=
    exploreAttempt_induction ⟨.reset hw hbuilt, .nil⟩ fun _ _ => phased_iterates
  exact hinv.1

/-- What a step of `ReplayRound` keeps. -/
theorem phased_step {mode : ReplayMode} {isLast : Bool} {id : ℕ}
    {x x' : Replay D.program ν (DualHistoryEvent D.program)}
    (h : Phased start x.trace ∧ Marks x.started x.trace.seq)
    (hx' : x.step dualRecorder V mode isLast id = some x') :
    Phased start x'.trace ∧ Marks x'.started x'.trace.seq := by
  obtain ⟨hphased, hmarks⟩ := h
  obtain ⟨i, j, t, -, ht, hsteps⟩ := Replay.step_cases hx'
  have hcleared : Phased start (x.admitted i j t) := hphased.clearWakeupCondition i j rfl rfl
  have hadmitted (v : ν) : Phased start ((x.setVerifier v).admitted i j t) :=
    hcleared.of_threads rfl rfl rfl rfl rfl
  have htask (v : ν) : ((x.setVerifier v).admitted i j t).world.task? i j =
      some t.clearWakeupCondition := Replay.admitted_task? (x := x.setVerifier v) ht
  have hnew := hmarks.isNew t.id
  have hbegin : dualRecorder.starts (x.trace.seq ++
      if !x.started.contains t.id then [dualRecorder.start t.toTaskInfo i] else []) =
      dualRecorder.starts x.trace.seq ++ if !x.started.contains t.id then [t.id] else [] := by
    cases x.started.contains t.id <;> simp
  cases hsteps with
  | cut => exact ⟨hphased, hmarks⟩
  | refused => exact ⟨hphased.of_threads rfl rfl rfl rfl rfl, hmarks⟩
  | returned =>
    exact ⟨(hadmitted _).begin (t := t.clearWakeupCondition) (htask _) hnew.mp, hmarks.add hbegin⟩
  | terminated =>
    refine ⟨(hadmitted _).terminate (t := t.clearWakeupCondition) (htask _) hnew.mp,
      hmarks.add ?_⟩
    show dualRecorder.starts (_ ++ dualRecorder.drainEvents _) = _
    rw [Recorder.starts_append, Recorder.starts_drainEvents, List.append_nil]
    exact hbegin
  | @resumed v tr hcut hpermit hret hmode htr =>
    obtain ⟨u, hu, huret, rfl⟩ := Trace.perform_cases htr
    obtain rfl : t.clearWakeupCondition = u := Option.some.inj ((htask v).symm.trans hu)
    exact ⟨(hadmitted v).after hu huret hnew, hmarks.add (Trace.after_starts hu)⟩

/-- The loop of `ReplayRound`. -/
theorem phased_run {mode : ReplayMode} {ids : List ℕ}
    {x x' : Replay D.program ν (DualHistoryEvent D.program)}
    (h : Phased start x.trace ∧ Marks x.started x.trace.seq)
    (hx' : Replay.run dualRecorder V mode ids x = some x') : Phased start x'.trace := by
  induction ids generalizing x with
  | nil => exact Option.some.inj hx' ▸ h.1
  | cons id ids ih =>
    obtain ⟨y, hy, hrun⟩ := Option.bind_eq_some_iff.mp hx'
    exact ih (phased_step h hy) hrun

/-- The invariant of a generated round, if its tasks are those of a target with dual methods. -/
structure RoundPhased (counter : ℕ) (r : Round D.program ν ρ (DualHistoryEvent D.program)) :
    Prop where
  counted : Counted dualRecorder r.trace
  le : counter ≤ r.trace.world.seqno
  phased : BuiltTasks r.trace.world → ∃ start, counter ≤ start ∧ Phased start r.trace

namespace RoundPhased

variable {counter maxTasks : ℕ} {r r' : Round D.program ν ρ (DualHistoryEvent D.program)}

theorem of_trace (h : RoundPhased counter r) (hseq : r'.trace.seq = r.trace.seq)
    (hthreads : r'.trace.world.threads = r.trace.world.threads)
    (hid : r'.trace.world.newTaskId = r.trace.world.newTaskId)
    (hremoved : r'.trace.world.removed = r.trace.world.removed)
    (hemissions : r'.trace.world.emissions = r.trace.world.emissions)
    (hseqno : r'.trace.world.seqno = r.trace.world.seqno) : RoundPhased counter r' where
  counted := h.counted.congr (congrArg _ hseq) (by rw [World.infos, World.infos, hthreads]) hid
    hremoved
  le := hseqno ▸ h.le
  phased hbuilt := by
    obtain ⟨start, hstart, hphased⟩ :=
      h.phased ((builtTasks_congr (congrArg _ hthreads)).mp hbuilt)
    exact ⟨start, hstart, hphased.of_threads hseq hthreads hid hemissions hseqno⟩

theorem after {tr : Trace D.program ν (DualHistoryEvent D.program)} {j : ℕ} {isNew : Bool}
    (ht : tr.world.task? i j = some t) (hret : t.returned = false)
    (hnew : isNew = true ↔ t.id ∉ dualRecorder.starts tr.seq)
    (hcounted : Counted dualRecorder (tr.after dualRecorder V i j isNew t))
    (hle : counter ≤ tr.world.seqno)
    (hphased : BuiltTasks tr.world → ∃ start, counter ≤ start ∧ Phased start tr)
    (hr' : r'.trace = tr.after dualRecorder V i j isNew t) : RoundPhased counter r' where
  counted := hr' ▸ hcounted
  le := by
    obtain ⟨v, hv⟩ := Trace.after_world_eq (R := dualRecorder) (V := V) i j isNew t tr
    rw [hr', hv]
    exact Nat.le_trans hle (Nat.le_add_right _ _)
  phased hbuilt := by
    rw [hr'] at hbuilt ⊢
    obtain ⟨start, hstart, hphased⟩ := hphased (builtTasks_after.mp hbuilt)
    exact ⟨start, hstart, hphased.after ht hret hnew⟩

/-- The part of an iteration of `RunRound` after the call of `Next`. -/
theorem follows {n : Next D.program} (h : RoundPhased counter r)
    (hr' : Round.Follows dualRecorder S DualStrategyScheduler.prepare r n r') :
    r'.status = .aborted ∨ RoundPhased counter r' := by
  cases hr' with
  | deadlock => exact .inr ⟨h.counted, h.le, h.phased⟩
  | needReplay =>
    have hempty : ∀ ts ∈ (r.restart S).trace.world.threads, ts = [] :=
      fun ts hts => (List.mem_replicate.mp hts).2
    exact .inr ⟨Counted.of_empty hempty h.counted.removed, h.le,
      fun _ => ⟨_, h.le, Phased.of_forall_nil hempty rfl⟩⟩
  | exhausted => exact .inr ⟨h.counted, h.le, h.phased⟩
  | aborted habort => exact .inl habort
  | @start i j b tr hj htr =>
    have hnew : r.trace.world.newTaskId ∉ dualRecorder.starts r.trace.seq :=
      fun hmem => Nat.lt_irrefl _ (h.counted.lt _ hmem)
    have hprepared : (DualStrategyScheduler.prepare i j (r.build i b).trace).seq = r.trace.seq :=
      rfl
    obtain ⟨hcounted, -⟩ := h.counted.start hj hprepared rfl rfl rfl htr
    obtain ⟨t, ht, hret, rfl⟩ := Trace.perform_cases htr
    have hi : i < r.trace.world.threads.length :=
      Nat.lt_of_lt_of_eq (World.task?_lt ht) Grid.length_push
    obtain rfl : r.trace.world.built i b = t := by
      refine Option.some.inj (Eq.trans ?_ ht)
      rw [hj]
      exact (Grid.get?_push_self hi).symm
    refine .inr (after ht hret (iff_of_true rfl hnew) hcounted h.le (fun hbuilt => ?_) rfl)
    obtain ⟨hbuilt, hb⟩ := builtTasks_build hi hbuilt
    obtain ⟨start, hstart, hphased⟩ := h.phased hbuilt
    exact ⟨start, hstart, (hphased.build i hb hnew).of_threads rfl rfl rfl rfl rfl⟩
  | @resume i j tr htr =>
    have hcounted : Counted dualRecorder (DualStrategyScheduler.prepare i j r.trace) :=
      h.counted.congr rfl rfl rfl rfl
    have hcounted' := hcounted.perform htr
    obtain ⟨t, ht, hret, rfl⟩ := Trace.perform_cases htr
    have hmem : t.id ∈ dualRecorder.starts r.trace.seq := by
      refine (h.counted.mem t.id).mpr ⟨i, j, t.toTaskInfo, ?_, rfl⟩
      rw [World.infos_get?]
      exact (congrArg _ ht).trans rfl
    have hold : (false = true) ↔ t.id ∉ dualRecorder.starts r.trace.seq :=
      iff_of_false Bool.false_ne_true fun hnot => hnot hmem
    refine .inr (after ht hret hold hcounted' h.le (fun hbuilt => ?_) rfl)
    obtain ⟨start, hstart, hphased⟩ := h.phased hbuilt
    exact ⟨start, hstart, hphased.of_threads rfl rfl rfl rfl rfl⟩

theorem iterates (h : r.status = .aborted ∨ RoundPhased counter r)
    (hr' : r.Iterates dualRecorder S DualStrategyScheduler.prepare maxTasks r') :
    r'.status = .aborted ∨ RoundPhased counter r' := by
  have hlimit (h : RoundPhased counter r) : RoundPhased counter (r.limit maxTasks) := by
    unfold Round.limit
    split
    · exact h
    · exact h.of_trace rfl rfl rfl rfl rfl rfl
  obtain haborted | h := h
  · exact .inl (hr'.status_of_aborted haborted)
  · cases hr' with
    | idle => exact .inr h
    | ended => exact .inr ((hlimit h).of_trace rfl rfl rfl rfl rfl rfl)
    | @follows n v s r' hrunning hover hnext hfollows =>
      have hasked : RoundPhased counter ((r.limit maxTasks).asked v s) :=
        (hlimit h).of_trace rfl rfl rfl rfl rfl rfl
      exact hasked.follows hfollows

/-- The loop of `RunRound`. -/
theorem run (hw : w.Fresh) (hemissions : w.emissions = []) (s : ρ) (n : ℕ) :
    (DualStrategyScheduler.run S maxTasks w s n).status = .aborted ∨
      RoundPhased w.seqno (DualStrategyScheduler.run S maxTasks w s n) := by
  have hinit : RoundPhased w.seqno
      (Round.init w s : Round D.program ν ρ (DualHistoryEvent D.program)) :=
    ⟨Counted.of_empty hw.threads hw.removed, Nat.le_refl _, fun _ => ⟨w.seqno, Nat.le_refl _,
      Phased.of_forall_nil (w := w.setAllowNewTasks true) hw.threads hemissions⟩⟩
  exact Function.Iterate.rec
    (fun r : Round D.program ν ρ (DualHistoryEvent D.program) =>
      r.status = .aborted ∨ RoundPhased w.seqno r) (.inr hinit)
    (fun r hr => iterates hr (DualStrategyScheduler.step_cases maxTasks r)) n

end RoundPhased

end Loops

/-! ### All runs -/

/-- **Dual histories follow the protocol.** Wherever a run of `DualStrategyScheduler` is, a round
that it generates, an attempt to explore the round and a replay of it record histories in which the
events of each dual task are in the order of the protocol, and the drained events are those emitted
since the round or attempt has begun, in the order in which they were emitted. A round that is
generated may begin anew. The tasks are those of a target with dual methods. -/
theorem follows_protocol {V : Verifier D.program ν} (S : Strategy V ρ)
    {c : LifeCycle.Config D.program ν} (hc : LifeCycle.Reachable V true c) (s : ρ) :
    (c.phase = .head → ∀ maxTasks n,
      (DualStrategyScheduler.run S maxTasks c.world s n).status ≠ .aborted →
      BuiltTasks (DualStrategyScheduler.run S maxTasks c.world s n).trace.world →
        ∃ start, c.world.seqno ≤ start ∧
          (DualStrategyScheduler.run S maxTasks c.world s n).trace.FollowsProtocol start) ∧
    (BuiltTasks c.world → ∀ fuel,
      (exploreAttempt dualRecorder S (DualStrategyScheduler.exploreReset S) fuel c.world
        s).trace.FollowsProtocol c.world.seqno) ∧
    (BuiltTasks c.world → ∀ tasksOrdering mode x,
      replayRun dualRecorder (V := V) c.world tasksOrdering mode = some x →
        x.trace.FollowsProtocol c.world.seqno) := by
  have hinv := LifeCycle.inv_of_reachable hc
  have hserial := LifeCycle.serial_of_inv hinv
  refine ⟨fun hhead maxTasks n hstatus hbuilt => ?_, fun hbuilt fuel => ?_,
    fun hbuilt tasksOrdering mode x hx => ?_⟩
  · obtain ⟨p, w⟩ := c
    obtain rfl : p = .head := hhead
    have hround := (RoundPhased.run hinv.1 hinv.2 s n).resolve_left hstatus
    obtain ⟨start, hstart, hphased⟩ := hround.phased hbuilt
    exact ⟨start, hstart, hphased.followsProtocol⟩
  · exact (phased_exploreAttempt hserial hbuilt s fuel).followsProtocol
  · exact (phased_run ⟨.reset hserial hbuilt, .nil⟩ hx).followsProtocol

/-- A target with a dual method that is ready at once. -/
def readyMethods : DualMethods where
  Target := Unit
  Env := Unit
  Ordinary := Unit
  Args := Unit
  Val := Unit
  Code := Unit
  targetFactory _ := ((), ())
  ordinary _ _ _ _ m _ := (⟨(), (), m, none, none, [], some ()⟩, ())
  run _ _ _ _ _ m _ := (⟨.finishes, (), (), m, none⟩, ())
  awaitReady _ := true
  emitRequestBeforeSuspend _ := false
  suspended _ := true
  value _ := ()
  voidV := ()
  newWaitState target := (1, target)
  isReady _ _ := true

/-- Its method. -/
def readyBuilder : TaskBuilder readyMethods.program :=
  ⟨"f", fun _ _ => ((), ()), fun _ => .dual .request (), true⟩

/-- Round-robin for this target. -/
abbrev readyStrategy :
    Picker (P := readyMethods.program) (defaultStrategyTaskVerifier (ν := Unit)) Unit ℕ :=
  roundRobinStrategy _ .first false

/-- A generated round with one task. -/
abbrev readyRound :=
  DualStrategyScheduler.run readyStrategy.toStrategy 1 (World.new 1 () () ())
    ⟨[readyBuilder], (), [none], 0⟩ 2

/-- The round is generated to its end and explored, and both histories have all phases. -/
theorem follows_protocol_readyRound :
    readyRound.status = .ended false ∧ phasesOf 0 readyRound.trace.seq = protocol ∧
      (∃ start, 0 ≤ start ∧ readyRound.trace.FollowsProtocol start) ∧
      (exploreAttempt dualRecorder readyStrategy.toStrategy
        (DualStrategyScheduler.exploreReset readyStrategy.toStrategy) 2 readyRound.trace.world
        readyRound.strategy).trace.FollowsProtocol 3 := by
  have hhead : LifeCycle.Reachable (P := readyMethods.program)
      (defaultStrategyTaskVerifier (ν := Unit)) true ⟨.head, World.new 1 () () ()⟩ :=
    .init ⟨1, (), (), (), rfl⟩
  have hround := (LifeCycle.reached_run readyStrategy.toStrategy 1 hhead
    ⟨[readyBuilder], (), [none], 0⟩ 2).2.resolve_left (by decide)
  have hbuilt : BuiltTasks readyRound.trace.world := by
    have horigin : readyRound.trace.world.threads.map (·.map origin) =
        ((World.new 1 () () () : World _ Unit).build 0 readyBuilder).threads.map (·.map origin) :=
      rfl
    refine (builtTasks_congr horigin).mpr fun i j t ht _ => ?_
    obtain ⟨-, -, rfl⟩ | ht := Grid.get?_push_cases ht
    · rfl
    · cases ((World.fresh_new 1 _ _ _).task?_eq_none i j).symm.trans ht
  exact ⟨by decide, by decide,
    (follows_protocol readyStrategy.toStrategy hhead _).1 rfl 1 2 (by decide) hbuilt,
    (follows_protocol readyStrategy.toStrategy hround _).2.1 hbuilt 2⟩

end DualMethods

end Scheduler

end LTest
