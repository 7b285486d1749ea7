import LTest.Scheduler.Task
import Mathlib.Data.List.Sort

/-!
# Histories

The two schedulers record different histories: `StrategyScheduler` an invocation and a response of
each task, `DualStrategyScheduler` also the phases of dual tasks. A `Recorder` is what the code
does for one kind of event. A `Trace` is a round together with the histories recorded so far, and
`Trace.perform` is the part that generation, exploration and replay of a round have in common.

## Main definitions

* `HistoryEvent`, `DualHistoryEvent` — the events
* `drainedDualEvents` — dual events of all tasks, in the order of their numbers
* `ordinaryRecorder`, `dualRecorder` — what the schedulers record
* `Trace.perform` — start event, resume, dual events and response of one task
* `Result` — what a round reports
-/

namespace LTest

namespace Scheduler

variable {P : Program} {ν E : Type}

/-! ### Events -/

/-- `HistoryEvent`. -/
inductive HistoryEvent (P : Program)
  | invoke (task : TaskInfo P) (threadId : ℕ)
  | response (task : TaskInfo P) (result : Option P.Val) (threadId : ℕ)

/-- `DualHistoryEvent`. -/
inductive DualHistoryEvent (P : Program)
  | ordinary (e : HistoryEvent P)
  | requestInvoke (task : TaskInfo P) (threadId : ℕ)
  | requestResponse (task : TaskInfo P) (threadId : ℕ)
  | followUpInvoke (task : TaskInfo P) (threadId : ℕ)
  | followUpResponse (task : TaskInfo P) (result : Option P.Val) (threadId : ℕ)

namespace HistoryEvent

/-- `MinTraits<HistoryEvent>::StartTaskId`. -/
def startTaskId : HistoryEvent P → Option ℕ
  | invoke task _ => some task.id
  | response _ _ _ => none

/-- The task that has finished with this event. -/
def finishedTaskId : HistoryEvent P → Option ℕ
  | invoke _ _ => none
  | response task _ _ => some task.id

end HistoryEvent

namespace DualHistoryEvent

/-- `MinTraits<DualHistoryEvent>::StartTaskId`. -/
def startTaskId : DualHistoryEvent P → Option ℕ
  | ordinary e => e.startTaskId
  | requestInvoke task _ => some task.id
  | _ => none

/-- The ordinary task that has started or finished with this event. -/
def ordinaryStart : DualHistoryEvent P → Option ℕ
  | ordinary e => e.startTaskId
  | _ => none

@[inherit_doc ordinaryStart]
def ordinaryFinish : DualHistoryEvent P → Option ℕ
  | ordinary e => e.finishedTaskId
  | _ => none

/-- The dual task that has started or finished with this event. -/
def dualStart : DualHistoryEvent P → Option ℕ
  | requestInvoke task _ => some task.id
  | _ => none

@[inherit_doc dualStart]
def dualFinish : DualHistoryEvent P → Option ℕ
  | followUpResponse task _ _ => some task.id
  | _ => none

end DualHistoryEvent

/-- Some task has started and has not finished. -/
def hasPending (start finish : E → Option ℕ) (seq : List E) : Bool :=
  (seq.filterMap start).any fun id => !(seq.filterMap finish).contains id

/-- `MinBadTraits<HistoryEvent>::HasPendingVisibleOp`. -/
def HistoryEvent.hasPendingVisibleOp (seq : List (HistoryEvent P)) : Bool :=
  hasPending startTaskId finishedTaskId seq

/-- `MinBadTraits<DualHistoryEvent>::HasPendingVisibleOp`. -/
def DualHistoryEvent.hasPendingVisibleOp (seq : List (DualHistoryEvent P)) : Bool :=
  hasPending ordinaryStart ordinaryFinish seq || hasPending dualStart dualFinish seq

/-! ### Draining dual events -/

/-- The event of a record, as in `AppendCollectedDrainedDualEvents`. -/
def DualEventRecord.toEvent (r : DualEventRecord P) : DualHistoryEvent P :=
  match r.event.kind with
  | .requestResponse => .requestResponse r.task r.threadId
  | .followUpInvoke => .followUpInvoke r.task r.threadId
  | .followUpResponse => .followUpResponse r.task r.event.result r.threadId

/-- What `CollectDrainedDualEvents` collects from a task. -/
def Task.records (i : ℕ) (t : Task P) : List (DualEventRecord P) :=
  if t.isDual then t.pending.map (⟨t.toTaskInfo, i, ·⟩) else []

/-- `CollectDrainedDualEvents` for all threads. -/
def collectDrainedDualEvents (threads : List (List (Task P))) : List (DualEventRecord P) :=
  threads.zipIdx.flatMap fun row => row.1.flatMap (Task.records row.2)

/-- The events that `AppendDrainedDualEvents` appends, in the order of their numbers. -/
def drainedDualEvents (threads : List (List (Task P))) : List (DualHistoryEvent P) :=
  ((collectDrainedDualEvents threads).insertionSort fun r r' =>
    r.event.seqno ≤ r'.event.seqno).map DualEventRecord.toEvent

/-! ### Recorders -/

/-- What a scheduler does for its events. -/
structure Recorder (P : Program) (E : Type) where
  /-- The event of a start. -/
  start : TaskInfo P → ℕ → E
  /-- What draining does with a task. -/
  drainTask : Task P → Task P
  /-- The events that draining appends. -/
  drainEvents : List (List (Task P)) → List E
  /-- The events of a response. -/
  response : Task P → ℕ → List E
  /-- The task of a start. -/
  startTaskId : E → Option ℕ
  /-- `HasPendingVisibleOp`. -/
  hasPendingVisibleOp : List E → Bool
  /-- Starts name their task. -/
  startTaskId_start : ∀ t i, startTaskId (start t i) = some t.id
  /-- Drained events are no starts. -/
  startTaskId_drainEvents : ∀ threads, ∀ e ∈ drainEvents threads, startTaskId e = none
  /-- Responses are no starts. -/
  startTaskId_response : ∀ t i, ∀ e ∈ response t i, startTaskId e = none
  /-- Draining only takes events. -/
  drainTask_eq : ∀ t, ∃ pending, drainTask t = { t with pending := pending }

/-- The events of `StrategyScheduler`. -/
def ordinaryRecorder : Recorder P (HistoryEvent P) where
  start := .invoke
  drainTask t := t
  drainEvents _ := []
  response t i := [.response t.toTaskInfo t.ret i]
  startTaskId := HistoryEvent.startTaskId
  hasPendingVisibleOp := HistoryEvent.hasPendingVisibleOp
  startTaskId_start _ _ := rfl
  startTaskId_drainEvents := by simp
  startTaskId_response := by simp [HistoryEvent.startTaskId]
  drainTask_eq t := ⟨t.pending, rfl⟩

theorem ordinaryRecorder_drain (w : World P ν) : w.mapTasks ordinaryRecorder.drainTask = w := by
  show { w with threads := w.threads.map fun ts => ts.map fun t => t } = w
  simp

theorem DualEventRecord.startTaskId_toEvent (r : DualEventRecord P) :
    r.toEvent.startTaskId = none := by
  unfold toEvent
  split <;> rfl

/-- The events of `DualStrategyScheduler`. -/
def dualRecorder : Recorder P (DualHistoryEvent P) where
  start t i := if t.isDual then .requestInvoke t i else .ordinary (.invoke t i)
  drainTask t := if t.isDual then t.drained else t
  drainEvents := drainedDualEvents
  response t i := if t.isDual then [] else [.ordinary (.response t.toTaskInfo t.ret i)]
  startTaskId := DualHistoryEvent.startTaskId
  hasPendingVisibleOp := DualHistoryEvent.hasPendingVisibleOp
  startTaskId_start t i := by split <;> rfl
  startTaskId_drainEvents threads e he := by
    obtain ⟨r, -, rfl⟩ := List.mem_map.mp he
    exact r.startTaskId_toEvent
  startTaskId_response t i e he := by
    split at he
    · cases he
    · rw [List.mem_singleton.mp he]
      rfl
  drainTask_eq t := by
    split
    · exact ⟨[], rfl⟩
    · exact ⟨t.pending, rfl⟩

namespace Recorder

variable (R : Recorder P E)

/-- `HasAnyStartedOp`. -/
def hasAnyStartedOp (seq : List E) : Bool := seq.any fun e => (R.startTaskId e).isSome

/-- `IsReportableDeadlockHistory`. -/
def isReportableDeadlockHistory (seq : List E) : Bool :=
  R.hasAnyStartedOp seq && R.hasPendingVisibleOp seq

/-- The tasks that have started. -/
def starts (seq : List E) : List ℕ := seq.filterMap R.startTaskId

@[simp] theorem starts_nil : R.starts [] = [] := rfl

@[simp] theorem starts_append (l l' : List E) : R.starts (l ++ l') = R.starts l ++ R.starts l' :=
  List.filterMap_append

@[simp] theorem starts_start_cons (t : TaskInfo P) (i : ℕ) (l : List E) :
    R.starts (R.start t i :: l) = t.id :: R.starts l := by
  simp [starts, R.startTaskId_start]

@[simp] theorem starts_drainEvents (threads : List (List (Task P))) :
    R.starts (R.drainEvents threads) = [] :=
  List.filterMap_eq_nil_iff.mpr (R.startTaskId_drainEvents threads)

@[simp] theorem starts_response (t : Task P) (i : ℕ) : R.starts (R.response t i) = [] :=
  List.filterMap_eq_nil_iff.mpr (R.startTaskId_response t i)

@[simp] theorem drainTask_toTaskInfo (t : Task P) : (R.drainTask t).toTaskInfo = t.toTaskInfo := by
  obtain ⟨pending, h⟩ := R.drainTask_eq t
  rw [h]

@[simp] theorem drainTask_returned (t : Task P) : (R.drainTask t).returned = t.returned := by
  obtain ⟨pending, h⟩ := R.drainTask_eq t
  rw [h]

@[simp] theorem drainTask_fiber (t : Task P) : (R.drainTask t).fiber = t.fiber := by
  obtain ⟨pending, h⟩ := R.drainTask_eq t
  rw [h]

@[simp] theorem drainTask_wakeup (t : Task P) : (R.drainTask t).wakeup = t.wakeup := by
  obtain ⟨pending, h⟩ := R.drainTask_eq t
  rw [h]

@[simp] theorem drainTask_ret (t : Task P) : (R.drainTask t).ret = t.ret := by
  obtain ⟨pending, h⟩ := R.drainTask_eq t
  rw [h]

end Recorder

/-! ### Traces -/

/-- A round with its histories. -/
structure Trace (P : Program) (ν E : Type) where
  /-- The round. -/
  world : World P ν
  /-- The sequential history. -/
  seq : List E := []
  /-- The full history, which refers to tasks by their ids. -/
  full : List ℕ := []

namespace Trace

variable (R : Recorder P E) (V : Verifier P ν)

/-- The trace with the round changed. -/
def mapWorld (f : World P ν → World P ν) (tr : Trace P ν E) : Trace P ν E :=
  { tr with world := f tr.world }

/-- Append to the full history. -/
def pushFull (id : ℕ) (tr : Trace P ν E) : Trace P ν E := { tr with full := tr.full ++ [id] }

/-- The start event of a new task. -/
def begin (isNew : Bool) (t : TaskInfo P) (i : ℕ) (tr : Trace P ν E) : Trace P ν E :=
  { tr with seq := tr.seq ++ if isNew then [R.start t i] else [] }

/-- Resume a task. -/
def resume (i j : ℕ) (tr : Trace P ν E) : Option (Trace P ν E) :=
  (tr.world.resume i j).map fun w => { tr with world := w }

/-- Append the dual events. -/
def drain (tr : Trace P ν E) : Trace P ν E :=
  { tr with
    world := tr.world.mapTasks R.drainTask
    seq := tr.seq ++ R.drainEvents tr.world.threads }

/-- The response of a task that has returned. -/
def responseOf (w : World P ν) (i j : ℕ) : List E :=
  match w.task? i j with
  | some t => if t.returned then R.response t i else []
  | none => []

/-- Report a task that has returned to the verifier and append its response. -/
def finish (i j : ℕ) (tr : Trace P ν E) : Trace P ν E :=
  { tr with world := tr.world.reportFinish V i j, seq := tr.seq ++ responseOf R tr.world i j }

/-- The start event of the task if it is new, its resume, the dual events, and the response if it
has returned. -/
def perform (i j : ℕ) (isNew : Bool) (tr : Trace P ν E) : Option (Trace P ν E) :=
  match tr.world.task? i j with
  | some t => ((tr.begin R isNew t.toTaskInfo i).resume i j).map fun tr =>
      (tr.drain R).finish R V i j
  | none => none

/-- The trace after a step of a task. -/
def after (i j : ℕ) (isNew : Bool) (t : Task P) (tr : Trace P ν E) : Trace P ν E :=
  (drain R { tr.begin R isNew t.toTaskInfo i with world := tr.world.stepTask i j t }).finish R V i j

section After

variable {R V} {i j : ℕ} {isNew : Bool} {t : Task P} {tr tr' : Trace P ν E}

/-- What `perform` does: a step of a task that has not returned. -/
theorem perform_cases (h : tr.perform R V i j isNew = some tr') :
    ∃ t, tr.world.task? i j = some t ∧ t.returned = false ∧ tr' = tr.after R V i j isNew t := by
  unfold perform at h
  split at h
  · rename_i t ht
    obtain ⟨tr₁, hresume, rfl⟩ := Option.map_eq_some_iff.mp h
    obtain ⟨w, hw, rfl⟩ := Option.map_eq_some_iff.mp hresume
    obtain ⟨t', ht', hret, rfl⟩ := World.resume_cases hw
    obtain rfl : t' = t := Option.some.inj (ht'.symm.trans ht)
    exact ⟨t', ht', hret, rfl⟩
  · cases h

theorem perform_eq (ht : tr.world.task? i j = some t) (hret : t.returned = false) :
    tr.perform R V i j isNew = some (tr.after R V i j isNew t) := by
  have hresume : (tr.begin R isNew t.toTaskInfo i).world.resume i j =
      some (tr.world.stepTask i j t) := World.resume_eq ht hret
  simp only [perform, ht, resume, hresume, Option.map_some]
  rfl

theorem perform_of_returned (ht : tr.world.task? i j = some t) (hret : t.returned = true) :
    tr.perform R V i j isNew = none := by
  have hresume : (tr.begin R isNew t.toTaskInfo i).world.resume i j = none := by
    show tr.world.resume i j = none
    simp [World.resume, ht, hret]
  simp only [perform, ht, resume, hresume, Option.map_none]

theorem perform_of_none (ht : tr.world.task? i j = none) : tr.perform R V i j isNew = none := by
  simp only [perform, ht]

theorem after_world :
    (tr.after R V i j isNew t).world =
      ((tr.world.stepTask i j t).mapTasks R.drainTask).reportFinish V i j := rfl

/-- But for the verifier, the round is the one after the step. -/
theorem after_world_eq (i j : ℕ) (isNew : Bool) (t : Task P) (tr : Trace P ν E) :
    ∃ v, (tr.after R V i j isNew t).world =
      ((tr.world.stepTask i j t).mapTasks R.drainTask).setVerifier v :=
  World.reportFinish_eq V i j _

@[simp] theorem after_infos : (tr.after R V i j isNew t).world.infos = tr.world.infos := by
  obtain ⟨v, hv⟩ := after_world_eq (R := R) (V := V) i j isNew t tr
  rw [hv, World.infos_setVerifier, World.infos_mapTasks R.drainTask_toTaskInfo,
    World.infos_stepTask]

theorem after_task?_self (ht : tr.world.task? i j = some t) :
    (tr.after R V i j isNew t).world.task? i j =
      some (R.drainTask (t.stepped (tr.world.stepOf i t).1 tr.world.seqno)) := by
  rw [after_world, World.task?_reportFinish, World.task?_mapTasks, World.task?_stepTask_self ht,
    Option.map_some]

theorem after_task?_of_ne {i' j' : ℕ} (h : ¬ (i' = i ∧ j' = j)) :
    (tr.after R V i j isNew t).world.task? i' j' = (tr.world.task? i' j').map R.drainTask := by
  rw [after_world, World.task?_reportFinish, World.task?_mapTasks, World.task?_stepTask_of_ne t h]

theorem after_verifier (ht : tr.world.task? i j = some t) :
    (tr.after R V i j isNew t).world.verifier =
      if (tr.world.stepOf i t).1.ret.isSome then
        V.onFinished tr.world.verifier
          (R.drainTask (t.stepped (tr.world.stepOf i t).1 tr.world.seqno)) i
      else tr.world.verifier := by
  have htask : ((tr.world.stepTask i j t).mapTasks R.drainTask).task? i j =
      some (R.drainTask (t.stepped (tr.world.stepOf i t).1 tr.world.seqno)) := by
    rw [World.task?_mapTasks, World.task?_stepTask_self ht, Option.map_some]
  rw [after_world, World.reportFinish, htask]
  simp only [R.drainTask_returned, Task.stepped]
  split <;> rfl

theorem after_seq (ht : tr.world.task? i j = some t) :
    (tr.after R V i j isNew t).seq =
      tr.seq ++ (if isNew then [R.start t.toTaskInfo i] else []) ++
        R.drainEvents (tr.world.stepTask i j t).threads ++
        if (tr.world.stepOf i t).1.ret.isSome then
          R.response (R.drainTask (t.stepped (tr.world.stepOf i t).1 tr.world.seqno)) i
        else [] := by
  have htask : ((tr.world.stepTask i j t).mapTasks R.drainTask).task? i j =
      some (R.drainTask (t.stepped (tr.world.stepOf i t).1 tr.world.seqno)) := by
    rw [World.task?_mapTasks, World.task?_stepTask_self ht, Option.map_some]
  simp only [after, finish, drain, begin, responseOf, htask, Recorder.drainTask_returned,
    Task.stepped]

theorem prefix_after_seq (i j : ℕ) (isNew : Bool) (t : Task P) (tr : Trace P ν E) :
    tr.seq <+: (tr.after R V i j isNew t).seq := by
  refine ⟨(if isNew then [R.start t.toTaskInfo i] else []) ++
    R.drainEvents (tr.world.stepTask i j t).threads ++
    responseOf R ((tr.world.stepTask i j t).mapTasks R.drainTask) i j, ?_⟩
  rw [← List.append_assoc, ← List.append_assoc]
  rfl

theorem after_starts (ht : tr.world.task? i j = some t) :
    R.starts (tr.after R V i j isNew t).seq = R.starts tr.seq ++ if isNew then [t.id] else [] := by
  rw [after_seq ht]
  cases isNew <;> cases (tr.world.stepOf i t).1.ret.isSome <;> simp

end After

end Trace

/-! ### Results -/

/-- `NonLinearizableHistory::Reason`, without the one that no scheduler uses here. -/
inductive Reason
  | deadlock
  | nonLinearizableHistory
  deriving DecidableEq, Repr

/-- `NonLinearizableHistory`. -/
structure NonLinearizableHistory (E : Type) where
  /-- The full history. -/
  full : List ℕ
  /-- The sequential history. -/
  seq : List E
  /-- What is wrong. -/
  reason : Reason

/-- `Result`. -/
abbrev Result (E : Type) : Type := Option (NonLinearizableHistory E)

/-- `DeadlockPolicy`. -/
inductive DeadlockPolicy
  | fail
  | check
  | explore
  | rollback
  deriving DecidableEq, Repr

/-- The result of a history that is checked. -/
def checked (check : List E → Bool) (full : List ℕ) (seq : List E) : Result E :=
  if check seq then none else some ⟨full, seq, .nonLinearizableHistory⟩

/-- What is reported has the given histories. -/
def NonLinearizableHistory.IsOf (full : List ℕ) (seq : List E) (h : NonLinearizableHistory E) :
    Prop :=
  h.full = full ∧ h.seq = seq

variable {history : NonLinearizableHistory E} {check : List E → Bool}

theorem checked_some {full : List ℕ} {seq : List E} (h : checked check full seq = some history) :
    history.IsOf full seq := by
  unfold checked at h
  split at h
  · cases h
  · exact Option.some.inj h ▸ ⟨rfl, rfl⟩

/-- `HandleDeadlock`, and the same in `StrategyScheduler::RunRound`; `alternative` is what the
exploration of other schedules returns. -/
def handleDeadlock (R : Recorder P E) (check : List E → Bool) (policy : DeadlockPolicy)
    (alternative : Result E) (full : List ℕ) (seq : List E) : Result E :=
  match policy with
  | .fail => if R.isReportableDeadlockHistory seq then some ⟨full, seq, .deadlock⟩ else none
  | .check => checked check full seq
  | _ => if check seq then alternative else some ⟨full, seq, .nonLinearizableHistory⟩

/-- What is reported after a deadlock, unless it is what the exploration returns. -/
theorem handleDeadlock_some {R : Recorder P E} {policy : DeadlockPolicy} {full : List ℕ}
    {seq : List E} (h : handleDeadlock R check policy none full seq = some history) :
    history.IsOf full seq := by
  cases policy with
  | fail =>
    simp only [handleDeadlock] at h
    split at h
    · exact Option.some.inj h ▸ ⟨rfl, rfl⟩
    · cases h
  | check => exact checked_some h
  | explore => exact checked_some h
  | rollback => exact checked_some h

end Scheduler

end LTest
