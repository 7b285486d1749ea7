import Mathlib.Data.List.Basic
import Mathlib.Logic.Function.Iterate

/-!
# The TLA strategy

`TLAStrategy` is meant to enumerate all schedules: it keeps the frames of the last one, replays
them in the next round, and takes the next alternative where they end. `StrategyScheduler` runs
the rounds. Here the verifier accepts everything, tasks never block, and a task returns after a
number of resumes that depends on its constructor only; then neither `DEADLOCK` nor a refusal of
`CanThreadContinue` occurs, and both are left out.

## Main definitions

* `Strategy.next`, `Strategy.startNextRound` — the strategy
* `Run.step` — one iteration of the loop of `RunRound`, with the loop of `Run` around it
* `Complete` — the schedules that should be executed
* `EnumeratesOnce` — each of them is executed exactly once, and then the strategy is exhausted
-/

namespace LTest

namespace Tla

/-! ### The strategy -/

/-- A task. -/
structure Task where
  /-- The constructor. -/
  constrId : ℕ
  /-- How many times it has to be resumed until it returns. -/
  left : ℕ
  deriving DecidableEq

/-- `IsReturned`. -/
def Task.isReturned (task : Task) : Bool := task.left == 0

/-- `Frame`. -/
structure Frame where
  /-- The thread. -/
  threadId : ℕ
  /-- The constructor. -/
  constrId : ℕ
  /-- The index of the task. -/
  taskIndex : ℕ
  /-- Whether the task is started. -/
  isNew : Bool
  deriving DecidableEq

/-- The variables of `TLAStrategy` and of its bases. -/
structure Strategy where
  /-- The tasks of each thread. -/
  threads : ℕ → List Task := fun _ => []
  /-- Whether new tasks are allowed. -/
  allowNewTasks : Bool := true
  /-- The stack of frames. -/
  frames : List Frame := []
  /-- The number of frames that were played. -/
  frameCounter : ℕ := 0
  /-- Whether the search starts with new tasks. -/
  atTaskCreation : Bool := false
  /-- The thread the search starts at. -/
  startThreadId : ℕ := 0
  /-- The constructor the search starts at. -/
  startConstrId : ℕ := 0
  /-- Whether no schedule is left. -/
  isExhausted : Bool := false

/-- `StrategyNextResult`: a task with its thread, its index there and whether it is new, or a
failure. -/
inductive NextResult
  | task (threadId taskIndex : ℕ) (isNew : Bool)
  | needReplay
  | exhaustedInterleavings
  | assertFailed

/-- The last task of a thread exists and has not returned. -/
def hasActive (tasks : List Task) : Bool := tasks.getLast?.any fun task => !task.isReturned

namespace Strategy

/-- `SetAllowNewTasks`. -/
def setAllowNewTasks (s : Strategy) (v : Bool) : Strategy := { s with allowNewTasks := v }

/-- The next frame is taken. -/
def countFrame (s : Strategy) : Strategy := { s with frameCounter := s.frameCounter + 1 }

/-- Append a new task to a thread. -/
def build (resumes : List ℕ) (s : Strategy) (threadId constrId : ℕ) : Strategy :=
  { s with
    threads := Function.update s.threads threadId
      (s.threads threadId ++ [⟨constrId, resumes.getD constrId 0⟩]) }

/-- Append a frame; the search starts anew after it. -/
def push (s : Strategy) (frame : Frame) : Strategy :=
  { s with
    frames := s.frames ++ [frame]
    startConstrId := 0
    startThreadId := 0
    atTaskCreation := false
    frameCounter := s.frameCounter + 1 }

/-- The loop of `Next` over the threads that are left. The first constructor from
`start_constr_id` on is accepted. -/
def search (resumes : List ℕ) (s : Strategy) : List ℕ → NextResult × Strategy
  | [] =>
    if s.frames.isEmpty then (.exhaustedInterleavings, { s with isExhausted := true })
    else (.needReplay, s)
  | i :: rest =>
    let size := (s.threads i).length
    if hasActive (s.threads i) && (!s.atTaskCreation || !s.allowNewTasks) then
      (.task i (size - 1) false, s.push ⟨i, 0, size - 1, false⟩)
    else if !s.allowNewTasks then search resumes s rest
    else if s.startConstrId < resumes.length then
      (.task i size true,
        (s.build resumes i s.startConstrId).push ⟨i, s.startConstrId, size, true⟩)
    else
      search resumes { s with atTaskCreation := false, startThreadId := i + 1, startConstrId := 0 }
        rest

/-- `Next`: replay a frame, or search for a new one. -/
def next (n : ℕ) (resumes : List ℕ) (s : Strategy) : NextResult × Strategy :=
  match s.frames[s.frameCounter]? with
  | some frame =>
    let s := s.countFrame
    let s := if frame.isNew then s.build resumes frame.threadId frame.constrId else s
    if frame.taskIndex < (s.threads frame.threadId).length then
      (.task frame.threadId frame.taskIndex frame.isNew, s)
    else (.assertFailed, s)
  | none => s.search resumes (List.range' s.startThreadId (n - s.startThreadId))

/-- `StartNextRound`: forget the tasks, remove the last frame and start behind it. -/
def startNextRound (resumes : List ℕ) (s : Strategy) : Strategy :=
  let s := { s.setAllowNewTasks true with threads := fun _ => [], frameCounter := 0 }
  match s.frames.getLast? with
  | none => { s with isExhausted := true }
  | some frame =>
    let s := { s with frames := s.frames.dropLast }
    if !frame.isNew then
      { s with atTaskCreation := true, startThreadId := frame.threadId, startConstrId := 0 }
    else if s.startConstrId + 1 = resumes.length then
      { s with startThreadId := frame.threadId + 1, startConstrId := 0, atTaskCreation := false }
    else
      { s with
        atTaskCreation := true
        startThreadId := frame.threadId
        startConstrId := frame.constrId + 1 }

/-- `Resume` on a task of a thread. -/
def resume (s : Strategy) (threadId taskIndex : ℕ) : Strategy :=
  { s with
    threads := Function.update s.threads threadId
      ((s.threads threadId).modify taskIndex fun task => { task with left := task.left - 1 }) }

/-- `has_unfinished` of `GetUnfinishedAndRunnable`; tasks are not blocked, so that unfinished tasks
are runnable. -/
def hasUnfinished (n : ℕ) (s : Strategy) : Bool :=
  (List.range n).any fun i => (s.threads i).any fun task => !task.isReturned

end Strategy

/-! ### The scheduler -/

/-- A row of a schedule: a thread starts a task of a constructor, or it continues its task. -/
structure Choice where
  /-- The thread. -/
  threadId : ℕ
  /-- The constructor of a new task. -/
  constr : Option ℕ
  deriving DecidableEq

/-- The variables of `Run` and of the round it is in. -/
structure Run where
  /-- The strategy. -/
  strategy : Strategy := {}
  /-- The number of started tasks. -/
  startedTasks : ℕ := 0
  /-- The schedule of the round. -/
  history : List Choice := []
  /-- The schedules that were executed. -/
  executed : List (List Choice) := []

namespace Run

/-- `RunRound` has returned: `Run` starts the next round. -/
def startNextRound (resumes : List ℕ) (r : Run) : Run :=
  { r with
    strategy := (r.strategy.startNextRound resumes).setAllowNewTasks true
    startedTasks := 0
    history := [] }

/-- The loop of `RunRound` was left: the schedule has been executed and is checked. -/
def finishRound (resumes : List ℕ) (r : Run) : Run :=
  { r with executed := r.executed ++ [r.history] }.startNextRound resumes

/-- The row that a resumed task adds to the history. -/
def row (s : Strategy) (threadId taskIndex : ℕ) (isNew : Bool) : Choice :=
  ⟨threadId, if isNew then ((s.threads threadId)[taskIndex]?).map (·.constrId) else none⟩

/-- The part of the iteration after the test for the end. `started_tasks` keeps its value when the
round is restarted. -/
def advance (n : ℕ) (resumes : List ℕ) (r : Run) : Run :=
  match r.strategy.next n resumes with
  | (.task threadId taskIndex isNew, s) =>
    { r with
      strategy := s.resume threadId taskIndex
      startedTasks := if isNew then r.startedTasks + 1 else r.startedTasks
      history := r.history ++ [row s threadId taskIndex isNew] }
  | (.needReplay, s) => { r with strategy := s.startNextRound resumes, history := [] }
  | (.exhaustedInterleavings, s) => { r with strategy := s }.startNextRound resumes
  | (.assertFailed, _) => r

/-- One iteration of the loop of `RunRound`. -/
def step (n : ℕ) (resumes : List ℕ) (maxTasks : ℕ) (r : Run) : Run :=
  if maxTasks ≤ r.startedTasks then
    if r.strategy.hasUnfinished n then
      { r with strategy := r.strategy.setAllowNewTasks false }.advance n resumes
    else r.finishRound resumes
  else r.advance n resumes

/-- The state after some iterations, from the first round on. -/
def after (n : ℕ) (resumes : List ℕ) (maxTasks : ℕ) (steps : ℕ) : Run :=
  (step n resumes maxTasks)^[steps] {}

end Run

/-! ### Schedules -/

/-- Run a schedule, where `left` says how many resumes the task of a thread has left: a thread
starts a task only when its last one has returned. -/
def runSchedule (n : ℕ) (resumes : List ℕ) : List Choice → (ℕ → ℕ) → Option (ℕ → ℕ)
  | [], left => some left
  | ⟨i, some c⟩ :: rest, left =>
    if i < n ∧ c < resumes.length ∧ left i = 0 then
      runSchedule n resumes rest (Function.update left i (resumes.getD c 0 - 1))
    else none
  | ⟨i, none⟩ :: rest, left =>
    if i < n ∧ left i ≠ 0 then runSchedule n resumes rest (Function.update left i (left i - 1))
    else none

/-- A complete schedule: it starts `maxTasks` tasks, and all of them return. -/
def Complete (n : ℕ) (resumes : List ℕ) (maxTasks : ℕ) (schedule : List Choice) : Prop :=
  (∃ left, runSchedule n resumes schedule (fun _ => 0) = some left ∧ ∀ i, left i = 0) ∧
    schedule.countP (fun choice => choice.constr.isSome) = maxTasks

/-- From some iteration on, the strategy is exhausted and each complete schedule has been executed
exactly once. -/
def EnumeratesOnce (n : ℕ) (resumes : List ℕ) (maxTasks : ℕ) : Prop :=
  ∃ steps, ∀ later, steps ≤ later →
    (Run.after n resumes maxTasks later).strategy.isExhausted = true ∧
    ∀ schedule, Complete n resumes maxTasks schedule →
      (Run.after n resumes maxTasks later).executed.count schedule = 1

end Tla

end LTest
