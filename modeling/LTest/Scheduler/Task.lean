import LTest.Lib.Grid
import LTest.Scheduler.Verifier
import Mathlib.Data.Finset.Basic

/-!
# Tasks and rounds

A task is a coroutine that calls a method of the target. The strategy owns the tasks of a round,
one list for each thread, and the target. What the methods do is a parameter of the model: a
`Program` says what happens between two yields of a coroutine.

## Main definitions

* `Program`, `Step` — the target and what its methods do
* `Task` — `CoroBase`
* `World` — the variables of `BaseStrategyWithThreads` that all strategies share
* `World.resume`, `World.startNextRound`, `World.resetCurrentRound` — its operations

## Main results

* `World.resume_cases` — what a resume changes
-/

namespace LTest

namespace Scheduler

/-! ### The block manager -/

/-- `BlockManager`; tasks are given by their id. -/
structure BlockManager where
  /-- The queue of each address. -/
  queues : ℕ → List ℕ := fun _ => []

namespace BlockManager

/-- `BlockOn`. -/
def blockOn (m : BlockManager) (addr id : ℕ) : BlockManager :=
  ⟨Function.update m.queues addr (m.queues addr ++ [id])⟩

/-- `IsBlocked`; the address of a task that is not blocked is `0`. -/
def isBlocked (m : BlockManager) (addr id : ℕ) : Bool := addr != 0 && (m.queues addr).contains id

/-- `UnblockOn`: the number of tasks it wakes, from the front of the queue, and what is left. -/
def unblockOn (m : BlockManager) (addr maxWakes : ℕ) : ℕ × BlockManager :=
  (min maxWakes (m.queues addr).length,
    ⟨Function.update m.queues addr ((m.queues addr).drop maxWakes)⟩)

/-- `UnblockAllOn`. -/
def unblockAllOn (m : BlockManager) (addr : ℕ) : BlockManager :=
  ⟨Function.update m.queues addr []⟩

theorem unblockAllOn_of_nil {m : BlockManager} {addr : ℕ} (h : m.queues addr = []) :
    m.unblockAllOn addr = m := by
  rw [unblockAllOn, ← h, Function.update_eq_self]

end BlockManager

/-! ### Programs -/

/-- `CoroBase::DualEventKind`. -/
inductive DualEventKind
  | requestResponse
  | followUpInvoke
  | followUpResponse
  deriving DecidableEq, Repr

/-- What a coroutine does from a resume to its next yield or its return. -/
structure Step (Fiber Target Val : Type) where
  /-- The coroutine after it. -/
  fiber : Fiber
  /-- The target after it. -/
  target : Target
  /-- The block manager after it. -/
  blocks : BlockManager
  /-- The last address of `SetBlocked`. -/
  block : Option ℕ := none
  /-- The last `setWakeupCondition` or `clearWakeupCondition`. -/
  wakeup : Option (Option (Target → Bool)) := none
  /-- The calls of `EmitDualEvent`. -/
  emitted : List (DualEventKind × Option Val) := []
  /-- The value, if the coroutine returns. -/
  ret : Option Val := none

/-- A target and its methods. -/
structure Program where
  /-- The target object with the memory it uses. -/
  Target : Type
  /-- What outlives a round, such as generators of random arguments. -/
  Env : Type
  /-- The coroutines. -/
  Fiber : Type
  /-- The arguments. -/
  Args : Type
  /-- The return values. -/
  Val : Type
  /-- Makes a target. -/
  targetFactory : Env → Target × Env
  /-- Resumes a coroutine, with its task id and its thread. -/
  resume : ℕ → ℕ → Fiber → Target → BlockManager → Env → Step Fiber Target Val × Env
  /-- Whether a thread may go on, or waits for an OS thread in `pthread_join`. -/
  canThreadContinue : Env → Target → ℕ → Bool := fun _ _ _ => true

variable {P : Program} {ν : Type}

/-- `TaskBuilder`, with what it gives to `Coro::New`. -/
structure TaskBuilder (P : Program) where
  /-- The method. -/
  name : String
  /-- Generates the arguments for a thread. -/
  gen : ℕ → P.Env → P.Args × P.Env
  /-- The coroutine of a call. -/
  func : P.Args → P.Fiber
  /-- Whether the method is dual. -/
  isDual : Bool := false

/-- A target whose methods return at their first resume. -/
def instantProgram : Program where
  Target := Unit
  Env := Unit
  Fiber := Unit
  Args := Unit
  Val := Unit
  targetFactory _ := ((), ())
  resume _ _ _ _ m _ := (⟨(), (), m, none, none, [], some ()⟩, ())

/-- Its method. -/
def instantBuilder : TaskBuilder instantProgram := ⟨"f", fun _ _ => ((), ()), fun _ => (), false⟩

/-! ### Tasks -/

/-- `CoroBase::DualEvent`. -/
structure DualEvent (P : Program) where
  /-- What happened. -/
  kind : DualEventKind
  /-- The number of the event. -/
  seqno : ℕ
  /-- The result, if there is one. -/
  result : Option P.Val

/-- What does not change of a task; histories keep this of it. -/
structure TaskInfo (P : Program) where
  /-- The id. -/
  id : ℕ
  /-- The method. -/
  name : String
  /-- The arguments. -/
  args : P.Args
  /-- Whether the method is dual. -/
  isDual : Bool

/-- `CoroBase`. -/
structure Task (P : Program) extends TaskInfo P where
  /-- The coroutine of a call. -/
  func : P.Args → P.Fiber
  /-- The coroutine as it is suspended. -/
  fiber : P.Fiber
  /-- Whether it has returned. -/
  returned : Bool := false
  /-- The return value; `none` is an empty `ValueWrapper`. -/
  ret : Option P.Val := none
  /-- The wakeup condition. -/
  wakeup : Option (P.Target → Bool) := none
  /-- The address of the block state. -/
  fstate : ℕ := 0
  /-- The dual events that are not drained. -/
  pending : List (DualEvent P) := []

/-- The dual events of a step with their numbers. -/
def number : ℕ → List (DualEventKind × Option P.Val) → List (DualEvent P)
  | _, [] => []
  | seqno, e :: es => ⟨e.1, seqno, e.2⟩ :: number (seqno + 1) es

namespace Task

/-- `Coro::New`. -/
def new (info : TaskInfo P) (func : P.Args → P.Fiber) : Task P :=
  { toTaskInfo := info, func := func, fiber := func info.args }

section

variable (t : Task P)

/-- `Coro::Restart`. -/
def restart : Task P := new t.toTaskInfo t.func

/-- `CoroBase::Terminate`. -/
def terminate : Task P := { t with returned := true, fstate := 0, wakeup := none }

/-- `CoroBase::DiscardRoundResults`. -/
def discardRoundResults : Task P := { t with ret := none, pending := [] }

/-- `CoroBase::clearWakeupCondition`. -/
def clearWakeupCondition : Task P := { t with wakeup := none }

/-- `CoroBase::DrainDualEvents`: what is left. -/
def drained : Task P := { t with pending := [] }

/-- The task after a step; dual events are numbered from `seqno`. -/
def stepped (s : Step P.Fiber P.Target P.Val) (seqno : ℕ) (t : Task P) : Task P :=
  { t with
    fiber := s.fiber
    returned := s.ret.isSome
    ret := s.ret.or t.ret
    wakeup := s.wakeup.getD t.wakeup
    fstate := s.block.getD t.fstate
    pending := t.pending ++ number seqno s.emitted }

/-- What `TerminateRunningTasks` does with a task. -/
def stop : Task P := (if t.returned then t else t.terminate).discardRoundResults

@[simp] theorem terminate_toTaskInfo : t.terminate.toTaskInfo = t.toTaskInfo := rfl

@[simp] theorem clearWakeupCondition_toTaskInfo :
    t.clearWakeupCondition.toTaskInfo = t.toTaskInfo := rfl

@[simp] theorem stepped_toTaskInfo (s : Step P.Fiber P.Target P.Val) (seqno : ℕ) (t : Task P) :
    (t.stepped s seqno).toTaskInfo = t.toTaskInfo := rfl

@[simp] theorem stop_toTaskInfo : t.stop.toTaskInfo = t.toTaskInfo := by
  unfold stop
  split <;> rfl

@[simp] theorem stop_returned : t.stop.returned = true := by
  unfold stop
  split
  · assumption
  · rfl

@[simp] theorem stop_func : t.stop.func = t.func := by
  unfold stop
  split <;> rfl

end

end Task

/-! ### The round -/

/-- A verifier of the tasks of a program, with state `ν`. -/
abbrev Verifier (P : Program) (ν : Type) := StrategyTaskVerifier ν (Task P)

/-- `DrainedDualEventRecord`. -/
structure DualEventRecord (P : Program) where
  /-- The task. -/
  task : TaskInfo P
  /-- Its thread. -/
  threadId : ℕ
  /-- The event. -/
  event : DualEvent P

/-- The variables of `Strategy` and `BaseStrategyWithThreads` that all strategies share, with those
that are global. -/
structure World (P : Program) (ν : Type) where
  /-- The tasks of each thread. -/
  threads : List (List (Task P))
  /-- The target. -/
  target : P.Target
  /-- The block manager, which is global. -/
  blocks : BlockManager := {}
  /-- What outlives the round. -/
  env : P.Env
  /-- The variables of the verifier. -/
  verifier : ν
  /-- The number of threads of a new round. -/
  threadsCount : ℕ
  /-- The id of the next task. -/
  newTaskId : ℕ := 0
  /-- The ids of removed tasks. -/
  removed : Finset ℕ := ∅
  /-- Whether new tasks are allowed. -/
  allowNewTasks : Bool := true
  /-- The counter of dual events, which is global. -/
  seqno : ℕ := 0
  /-- The calls of `EmitDualEvent` since the round was started or reset; nothing reads them. -/
  emissions : List (DualEventRecord P) := []

namespace World

/-- A round without tasks. -/
def new (threadsCount : ℕ) (target : P.Target) (env : P.Env) (verifier : ν) : World P ν where
  threads := List.replicate threadsCount []
  target := target
  env := env
  verifier := verifier
  threadsCount := threadsCount

/-! ### Reading the round -/

/-- A task of a thread. -/
def task? (w : World P ν) (i j : ℕ) : Option (Task P) := Grid.get? w.threads i j

/-- The last task of a thread. -/
def back? (w : World P ν) (i : ℕ) : Option (Task P) := Grid.back? w.threads i

/-- The thread is empty, or its last task has returned. -/
def isFree (w : World P ν) (i : ℕ) : Bool := (w.back? i).all (·.returned)

/-- `CoroBase::IsBlocked`. -/
def isBlocked (w : World P ν) (t : Task P) : Bool :=
  w.blocks.isBlocked t.fstate t.id && t.wakeup.all fun cond => !cond w.target

/-- `IsTaskRemoved`. -/
def isTaskRemoved (w : World P ν) (id : ℕ) : Bool := decide (id ∈ w.removed)

/-- `GetTask`: the first task with an id, as its thread and its index there. -/
def getTask (w : World P ν) (id : ℕ) : Option (ℕ × ℕ) :=
  w.threads.zipIdx.findSome? fun row => (row.1.findIdx? (·.id == id)).map (row.2, ·)

/-- The tasks that `GetUnfinishedAndRunnable` does not skip. -/
def isUnfinished (w : World P ν) (allowed : Option (List ℕ)) (t : Task P) : Bool :=
  allowed.all (·.contains t.id) && !w.isTaskRemoved t.id && !t.returned

/-- `GetUnfinishedAndRunnable`. -/
def getUnfinishedAndRunnable (w : World P ν) (allowed : Option (List ℕ)) : Bool × Bool :=
  (w.threads.any fun ts => ts.any (w.isUnfinished allowed),
    w.threads.any fun ts => ts.any fun t => w.isUnfinished allowed t && !w.isBlocked t)

/-- `GetValidTasksCount`. -/
def getValidTasksCount (w : World P ν) : ℕ :=
  (w.threads.map fun ts => ts.countP fun t => !w.isTaskRemoved t.id).sum

/-! ### Changing the round -/

/-- The round with another state of the verifier. -/
def setVerifier (v : ν) (w : World P ν) : World P ν := { w with verifier := v }

/-- `SetAllowNewTasks`. -/
def setAllowNewTasks (b : Bool) (w : World P ν) : World P ν := { w with allowNewTasks := b }

/-- `SetTaskRemoved`. -/
def setTaskRemoved (id : ℕ) (isRemoved : Bool) (w : World P ν) : World P ν :=
  { w with removed := if isRemoved then insert id w.removed else w.removed.erase id }

/-- The round with a task changed. -/
def modifyTask (i j : ℕ) (f : Task P → Task P) (w : World P ν) : World P ν :=
  { w with threads := Grid.modify w.threads i j f }

/-- The round with all tasks changed. -/
def mapTasks (f : Task P → Task P) (w : World P ν) : World P ν :=
  { w with threads := w.threads.map (·.map f) }

/-- The arguments and the rest of the environment when a task is built. -/
def generated (w : World P ν) (i : ℕ) (b : TaskBuilder P) : P.Args × P.Env := b.gen i w.env

/-- The task that a builder builds. -/
def built (w : World P ν) (i : ℕ) (b : TaskBuilder P) : Task P :=
  Task.new ⟨w.newTaskId, b.name, (w.generated i b).1, b.isDual⟩ b.func

/-- `Build` and `emplace_back`. -/
def build (i : ℕ) (b : TaskBuilder P) (w : World P ν) : World P ν :=
  { w with
    threads := Grid.push w.threads i (w.built i b)
    env := (w.generated i b).2
    newTaskId := w.newTaskId + 1 }

/-- What a task does at a resume. -/
def stepOf (w : World P ν) (i : ℕ) (t : Task P) : Step P.Fiber P.Target P.Val × P.Env :=
  P.resume t.id i t.fiber w.target w.blocks w.env

/-- The round after a step of a task. -/
def stepTask (i j : ℕ) (t : Task P) (w : World P ν) : World P ν :=
  let s := w.stepOf i t
  { w with
    threads := Grid.modify w.threads i j (Task.stepped s.1 w.seqno)
    target := s.1.target
    blocks := s.1.blocks
    env := s.2
    seqno := w.seqno + s.1.emitted.length
    emissions := w.emissions ++ (number w.seqno s.1.emitted).map (⟨t.toTaskInfo, i, ·⟩) }

/-- `CoroBase::Resume`. There is no result if there is no such task, or if the assertion that it
has not returned fails. -/
def resume (i j : ℕ) (w : World P ν) : Option (World P ν) :=
  match w.task? i j with
  | some t => if t.returned then none else some (w.stepTask i j t)
  | none => none

/-- `TerminateRunningTasks`. -/
def terminateRunningTasks (w : World P ν) : World P ν := w.mapTasks Task.stop

/-- `ResetOSState`. -/
def resetOSState (w : World P ν) : World P ν := { w with blocks := {} }

/-- `ResetTargetState`. -/
def resetTargetState (w : World P ν) : World P ν :=
  { w with target := (P.targetFactory w.env).1, env := (P.targetFactory w.env).2 }

/-- From here on the emissions are those of a new attempt. -/
def forgetEmissions (w : World P ν) : World P ν := { w with emissions := [] }

section Verifier

variable (V : Verifier P ν)

section

variable (w : World P ν)

/-- The call of `Reset`. -/
def resetVerifier : World P ν := w.setVerifier (V.reset w.verifier)

/-- The call of `OnRoundStart`. -/
def onRoundStart : World P ν :=
  w.setVerifier (V.onRoundStart w.verifier w.threadsCount)

/-- `BaseStrategyWithThreads::StartNextRound`. -/
def startNextRound : World P ν :=
  let w := ((w.setAllowNewTasks true).terminateRunningTasks.resetVerifier V).resetOSState
  let w := w.resetTargetState
  { (w.onRoundStart V).forgetEmissions with
    newTaskId := 0
    threads := List.replicate w.threadsCount [] }

/-- The tasks that are not removed are restarted. -/
def restartTasks : World P ν :=
  w.mapTasks fun t => if w.isTaskRemoved t.id then t else t.restart

/-- `BaseStrategyWithThreads::ResetCurrentRound`. -/
def resetCurrentRound : World P ν :=
  let w := ((w.setAllowNewTasks true).terminateRunningTasks.resetVerifier V).resetOSState
  ((w.resetTargetState.onRoundStart V).restartTasks).forgetEmissions

/-- `BaseStrategyWithThreads::ResetExplorationState`. -/
def resetExplorationState : World P ν :=
  let w := (w.terminateRunningTasks.resetOSState.setAllowNewTasks true).resetVerifier V
  ((w.resetTargetState.onRoundStart V).restartTasks).forgetEmissions

end

/-- `OnVerifierTaskFinish`, if the task has returned. -/
def reportFinish (i j : ℕ) (w : World P ν) : World P ν :=
  match w.task? i j with
  | some t => if t.returned then w.setVerifier (V.onFinished w.verifier t i) else w
  | none => w

end Verifier

/-! ### What the operations change -/

variable {w w' : World P ν} {i j : ℕ} {t : Task P} {f : Task P → Task P}

@[simp] theorem task?_setVerifier (v : ν) : (w.setVerifier v).task? i j = w.task? i j := rfl

@[simp] theorem task?_modifyTask_self (f : Task P → Task P) :
    (w.modifyTask i j f).task? i j = (w.task? i j).map f := Grid.get?_modify_self f

theorem task?_modifyTask_of_ne (f : Task P → Task P) {i' j' : ℕ} (h : ¬ (i' = i ∧ j' = j)) :
    (w.modifyTask i j f).task? i' j' = w.task? i' j' := Grid.get?_modify_of_ne f h

@[simp] theorem task?_mapTasks (f : Task P → Task P) :
    (w.mapTasks f).task? i j = (w.task? i j).map f := Grid.get?_map f

theorem task?_lt (h : w.task? i j = some t) : i < w.threads.length := Grid.get?_lt h

/-- What does not change of the tasks. -/
def infos (w : World P ν) : List (List (TaskInfo P)) := w.threads.map (·.map Task.toTaskInfo)

@[simp] theorem infos_setVerifier (v : ν) : (w.setVerifier v).infos = w.infos := rfl

theorem infos_modifyTask (hf : ∀ t, (f t).toTaskInfo = t.toTaskInfo) :
    (w.modifyTask i j f).infos = w.infos := Grid.map_modify hf

theorem infos_mapTasks (hf : ∀ t, (f t).toTaskInfo = t.toTaskInfo) :
    (w.mapTasks f).infos = w.infos := by
  simp [infos, mapTasks, hf]

@[simp] theorem infos_stepTask (t : Task P) : (w.stepTask i j t).infos = w.infos :=
  Grid.map_modify fun _ => rfl

@[simp] theorem infos_build (b : TaskBuilder P) :
    (w.build i b).infos = Grid.push w.infos i (w.built i b).toTaskInfo := Grid.map_push _

theorem infos_get? : Grid.get? w.infos i j = (w.task? i j).map Task.toTaskInfo := Grid.get?_map _

theorem length_infos : w.infos.length = w.threads.length := List.length_map _

/-- **What a resume changes**: it is a step of a task that has not returned. -/
theorem resume_cases (h : w.resume i j = some w') :
    ∃ t, w.task? i j = some t ∧ t.returned = false ∧ w' = w.stepTask i j t := by
  unfold resume at h
  split at h
  · rename_i t ht
    split at h
    · cases h
    · rename_i hret
      exact ⟨t, ht, by simpa using hret, (Option.some.inj h).symm⟩
  · cases h

theorem resume_eq (ht : w.task? i j = some t) (hret : t.returned = false) :
    w.resume i j = some (w.stepTask i j t) := by
  simp [resume, ht, hret]

theorem task?_stepTask_self (ht : w.task? i j = some t) :
    (w.stepTask i j t).task? i j = some (t.stepped (w.stepOf i t).1 w.seqno) := by
  show Grid.get? (Grid.modify w.threads i j _) i j = _
  rw [Grid.get?_modify_self]
  show (w.task? i j).map _ = _
  rw [ht, Option.map_some]

theorem task?_stepTask_of_ne (t : Task P) {i' j' : ℕ} (h : ¬ (i' = i ∧ j' = j)) :
    (w.stepTask i j t).task? i' j' = w.task? i' j' := Grid.get?_modify_of_ne _ h

theorem reportFinish_eq (V : Verifier P ν) (i j : ℕ) (w : World P ν) :
    ∃ v, w.reportFinish V i j = w.setVerifier v := by
  unfold reportFinish
  split
  · split
    · exact ⟨_, rfl⟩
    · exact ⟨w.verifier, rfl⟩
  · exact ⟨w.verifier, rfl⟩

@[simp] theorem task?_reportFinish (V : Verifier P ν) {i' j' : ℕ} :
    (w.reportFinish V i j).task? i' j' = w.task? i' j' := by
  obtain ⟨v, hv⟩ := reportFinish_eq V i j w
  rw [hv, task?_setVerifier]

end World

end Scheduler

end LTest
