import LTest.Scheduler.Round

/-!
# Exploration and replay of a round

`ExploreRound` runs the tasks of a round again under other schedules. `ReplayRound` runs them in a
given order; with `CompleteOnLast` the last step of each task is replaced by its termination. Both
start with a reset of the round, and both ask the verifier about each task before its step.

The loops of the two schedulers are the same but for the events they record, so they are written
once, for any recorder.

## Main definitions

* `World.buildReplayStartContext`, `World.permit` — what the verifier is asked
* `Explore`, `Explore.step`, `exploreRound` — `ExploreRound`
* `Replay`, `Replay.step`, `replayRound` — `ReplayRound`
* `getTasksOrdering` — the order of a full history

## Main results

* `Explore.step_cases` — what an iteration of an exploration does
* `Replay.step_cases` — what a step of a replay does
-/

namespace LTest

namespace Scheduler

variable {P : Program} {ν ρ E : Type}

/-! ### Asking the verifier -/

namespace World

/-- The tasks that `BuildReplayStartContext` counts. -/
def isActive (w : World P ν) (startedIds : List ℕ) (t : Task P) : Bool :=
  startedIds.contains t.id && !w.isTaskRemoved t.id && !t.returned

/-- The number of tasks with a property. -/
def countTasks (w : World P ν) (p : Task P → Bool) : ℕ := Grid.count p w.threads

/-- `BuildReplayStartContext`. -/
def buildReplayStartContext (w : World P ν) (startedIds : List ℕ) : StartContext where
  threads := w.threads.length
  freeThreads := w.threads.countP fun ts => !ts.any (w.isActive startedIds)
  activeByMethod name := w.countTasks fun t => w.isActive startedIds t && t.name == name
  blockedByMethod name :=
    w.countTasks fun t => w.isActive startedIds t && t.name == name && w.isBlocked t

/-- Whether a task may make its next step: the verifier is asked about a start or about an existing
task, and a start is reported to it. -/
def permit (V : Verifier P ν) (startedIds : List ℕ) (i : ℕ) (t : Task P)
    (w : World P ν) : Bool × ν :=
  if startedIds.contains t.id then
    if t.returned then (true, w.verifier) else V.verifyExisting w.verifier t i
  else
    let r := V.verifyTaskStart w.verifier t.name i (w.buildReplayStartContext startedIds)
    if r.1 then (true, V.onTaskStarted r.2 t.name i t.id) else r

end World

/-- `started_ids` after a step of a task. -/
def addStarted (startedIds : List ℕ) (id : ℕ) : List ℕ :=
  if startedIds.contains id then startedIds else id :: startedIds

/-! ### Exploration -/

/-- The local variables of an attempt of `ExploreRound`. -/
structure Explore (P : Program) (ν ρ E : Type) where
  /-- The round. -/
  trace : Trace P ν E
  /-- The variables of the strategy. -/
  strategy : ρ
  /-- The started tasks. -/
  startedIds : List ℕ := []
  /-- The number of tasks that have to return. -/
  tasksToRun : ℕ
  /-- Whether the loop goes on. -/
  status : Status := .running

namespace Explore

/-- An attempt when its loop is entered. -/
def init (w : World P ν) (s : ρ) : Explore P ν ρ E where
  trace := ⟨w, [], []⟩
  strategy := s
  tasksToRun := w.getValidTasksCount

/-- The attempt with its loop left. -/
def stop (status : Status) (x : Explore P ν ρ E) : Explore P ν ρ E := { x with status := status }

/-- The attempt with another state of the verifier. -/
def setVerifier (v : ν) (x : Explore P ν ρ E) : Explore P ν ρ E :=
  { x with trace := x.trace.mapWorld (World.setVerifier v) }

/-- The attempt after the call of `NextSchedule`. -/
def asked (v : ν) (s : ρ) (x : Explore P ν ρ E) : Explore P ν ρ E :=
  { x.setVerifier v with strategy := s }

section Step

variable (R : Recorder P E) {V : Verifier P ν} (S : Strategy V ρ)

variable (V) in
/-- The trace after a step of a task. -/
def perform (i j : ℕ) (t : Task P) (x : Explore P ν ρ E) : Option (Trace P ν E) :=
  (x.trace.pushFull t.id).perform R V i j !x.startedIds.contains t.id

/-- The attempt after a step of a task. -/
def performed (i j id : ℕ) (tr : Trace P ν E) (x : Explore P ν ρ E) : Explore P ν ρ E :=
  { x with
    trace := tr
    startedIds := addStarted x.startedIds id
    tasksToRun :=
      if (tr.world.task? i j).any (·.returned) then x.tasksToRun - 1 else x.tasksToRun }

variable (V) in
/-- The part of an iteration after the call of `NextSchedule`. -/
def follow (i j : ℕ) (x : Explore P ν ρ E) : Explore P ν ρ E :=
  match x.trace.world.task? i j with
  | some t =>
    let r := x.trace.world.permit V x.startedIds i t
    let x := x.setVerifier r.2
    if r.1 then
      match x.perform R V i j t with
      | some tr => x.performed i j t.id tr
      | none => x.stop .aborted
    else x.stop (.ended true)
  | none => x.stop .aborted

/-- An iteration of the loop of `ExploreRound`. The variant that `NextSchedule` returns is read as a
task after all failures but `DEADLOCK`, so that these throw. -/
def step (x : Explore P ν ρ E) : Explore P ν ρ E :=
  match x.status with
  | .running =>
    if x.tasksToRun = 0 then x.stop (.ended false)
    else
      let n := S.nextSchedule x.trace.world x.strategy
      let x := x.asked n.2.1 n.2.2
      match n.1 with
      | .error .deadlock => x.stop (.ended true)
      | .error _ => x.stop .threw
      | .ok (i, j) => x.follow R V i j
  | _ => x

variable (V) in
/-- What an iteration may do. -/
inductive Iterates (x : Explore P ν ρ E) : Explore P ν ρ E → Prop
  | idle (h : x.status ≠ .running) : Iterates x x
  | finished (hrunning : x.status = .running) (h : x.tasksToRun = 0) :
      Iterates x (x.stop (.ended false))
  | stopped {v : ν} {s : ρ} {status : Status} (hrunning : x.status = .running)
      (h : status ≠ .running ∧ status ≠ .ended false) : Iterates x ((x.asked v s).stop status)
  | performed {v v' : ν} {s : ρ} {i j : ℕ} {t : Task P} {tr : Trace P ν E}
      (hrunning : x.status = .running) (hasks : Asks V x.trace.world.verifier v)
      (ht : x.trace.world.task? i j = some t)
      (hpermit : (x.asked v s).trace.world.permit V x.startedIds i t = (true, v'))
      (htr : (x.asked v' s).perform R V i j t = some tr) :
      Iterates x ((x.asked v' s).performed i j t.id tr)

variable {R S} {x : Explore P ν ρ E}

theorem step_of_not_running (h : x.status ≠ .running) : step R S x = x := by
  unfold step
  split
  · contradiction
  · rfl

/-- **What an iteration does.** -/
theorem step_cases (x : Explore P ν ρ E) : Iterates R V x (step R S x) := by
  by_cases hrunning : x.status = .running
  · by_cases hzero : x.tasksToRun = 0
    · simp only [step, hrunning, hzero, if_true]
      exact .finished hrunning hzero
    · simp only [step, hrunning, hzero, if_false]
      have hasks := S.asks x.trace.world x.strategy
      split
      · exact .stopped hrunning ⟨nofun, nofun⟩
      · exact .stopped hrunning ⟨nofun, nofun⟩
      · rename_i i j _
        unfold follow
        split
        · rename_i t ht
          dsimp only
          split
          · rename_i hpermit
            split
            · rename_i tr htr
              exact .performed hrunning hasks ht (Prod.ext hpermit rfl) htr
            · exact .stopped hrunning ⟨nofun, nofun⟩
          · exact .stopped hrunning ⟨nofun, nofun⟩
        · exact .stopped hrunning ⟨nofun, nofun⟩
  · rw [step_of_not_running hrunning]
    exact .idle hrunning

variable (R) in
/-- What an attempt reports. -/
def result (check : List E → Bool) (policy : DeadlockPolicy) (deadlockDetected : Bool)
    (x : Explore P ν ρ E) : Result E :=
  if deadlockDetected = true ∧ policy = .fail then
    if R.isReportableDeadlockHistory x.trace.seq then
      some ⟨x.trace.full, x.trace.seq, .deadlock⟩
    else none
  else checked check x.trace.full x.trace.seq

theorem result_some {check : List E → Bool} {policy : DeadlockPolicy} {d : Bool}
    {history : NonLinearizableHistory E} (h : x.result R check policy d = some history) :
    history.IsOf x.trace.full x.trace.seq := by
  unfold result at h
  split at h
  · split at h
    · exact Option.some.inj h ▸ ⟨rfl, rfl⟩
    · cases h
  · exact checked_some h

end Step

end Explore

section ExploreRound

variable (R : Recorder P E) {V : Verifier P ν} (S : Strategy V ρ)
  (reset : World P ν → ρ → World P ν × ρ) (check : List E → Bool) (policy : DeadlockPolicy)
  (fuel : ℕ)

/-- The loop of an attempt, with at most `fuel` iterations. -/
def exploreAttempt (w : World P ν) (s : ρ) : Explore P ν ρ E :=
  (Explore.step R S)^[fuel] (Explore.init (reset w s).1 (reset w s).2)

/-- `ExploreRound` for both schedulers: what is reported, and the attempt that reports it. There is
no result if the loop of an attempt is not left in `fuel` iterations, throws or is stopped by an
assertion. -/
def exploreRound : ℕ → World P ν → ρ → Option (Result E × Explore P ν ρ E)
  | 0, w, s => some (none, (Explore.init w s).stop (.ended false))
  | runs + 1, w, s =>
    let x := exploreAttempt R S reset fuel w s
    match x.status with
    | .ended d =>
      match x.result R check policy d with
      | some history => some (some history, x)
      | none => exploreRound runs x.trace.world x.strategy
    | _ => none

variable {R S reset check policy fuel}

/-- A property that every iteration keeps holds after an attempt. -/
theorem exploreAttempt_induction {Q : Explore P ν ρ E → Prop} {w : World P ν} {s : ρ}
    (hinit : Q (Explore.init (reset w s).1 (reset w s).2))
    (hstep : ∀ x x', Q x → Explore.Iterates R V x x' → Q x') :
    Q (exploreAttempt R S reset fuel w s) :=
  Function.Iterate.rec Q hinit (fun x hx => hstep x _ hx (Explore.step_cases x)) fuel

/-- A property of the round that every attempt keeps holds at the end. -/
theorem exploreRound_induction {Q : World P ν → Prop}
    (hQ : ∀ w s, Q w → Q (exploreAttempt R S reset fuel w s).trace.world) {runs : ℕ}
    {w : World P ν} (hw : Q w) {s : ρ} {r : Result E} {x : Explore P ν ρ E}
    (h : exploreRound R S reset check policy fuel runs w s = some (r, x)) : Q x.trace.world := by
  induction runs generalizing w s with
  | zero =>
    obtain ⟨-, rfl⟩ := Prod.mk.inj (Option.some.inj h)
    exact hw
  | succ runs ih =>
    rw [exploreRound] at h
    split at h
    · split at h
      · obtain ⟨-, rfl⟩ := Prod.mk.inj (Option.some.inj h)
        exact hQ w s hw
      · exact ih (hQ w s hw) h
    · cases h

/-- What is reported is reported by one of the attempts. A property of the round that every attempt
keeps holds at its beginning. -/
theorem exploreRound_some {Q : World P ν → Prop}
    (hQ : ∀ w s, Q w → Q (exploreAttempt R S reset fuel w s).trace.world) {runs : ℕ}
    {w : World P ν} (hw : Q w) {s : ρ} {history : NonLinearizableHistory E} {x : Explore P ν ρ E}
    (h : exploreRound R S reset check policy fuel runs w s = some (some history, x)) :
    ∃ w' s' d, Q w' ∧ exploreAttempt R S reset fuel w' s' = x ∧ x.status = .ended d ∧
      x.result R check policy d = some history := by
  induction runs generalizing w s with
  | zero => cases h
  | succ runs ih =>
    rw [exploreRound] at h
    split at h
    · rename_i d hended
      split at h
      · rename_i history' hresult
        obtain ⟨h₁, rfl⟩ := Prod.mk.inj (Option.some.inj h)
        exact ⟨w, s, d, hw, rfl, hended, h₁ ▸ hresult⟩
      · exact ih (hQ w s hw) h
    · cases h

end ExploreRound

/-! ### Replay -/

/-- `ReplayMode`. -/
inductive ReplayMode
  | completeOnLast
  | noForceComplete
  deriving DecidableEq, Repr

/-- The local variables of `ReplayRound`. -/
structure Replay (P : Program) (ν E : Type) where
  /-- The round. -/
  trace : Trace P ν E
  /-- The started tasks. -/
  started : List ℕ := []
  /-- The threads that are not replayed further. -/
  threadCutoff : List ℕ := []
  /-- The calls of `Resume`; nothing reads them. -/
  resumed : List ℕ := []

namespace Trace

variable (R : Recorder P E) (V : Verifier P ν)

/-- The start event of the task if it is new, its termination, and the dual events. There is no
response, but the verifier is told that the task has finished. -/
def terminate (i j : ℕ) (isNew : Bool) (t : TaskInfo P) (tr : Trace P ν E) : Trace P ν E :=
  (((tr.begin R isNew t i).mapWorld (World.modifyTask i j Task.terminate)).drain R).mapWorld
    (World.reportFinish V i j)

end Trace

namespace Replay

section Step

variable (R : Recorder P E) (V : Verifier P ν) (mode : ReplayMode)
  (isLast : Bool)

/-- The replay with another state of the verifier. -/
def setVerifier (v : ν) (x : Replay P ν E) : Replay P ν E :=
  { x with trace := x.trace.mapWorld (World.setVerifier v) }

/-- The trace of a task that is admitted by the verifier, before its step. -/
def admitted (i j : ℕ) (t : Task P) (x : Replay P ν E) : Trace P ν E :=
  (x.trace.mapWorld (World.modifyTask i j Task.clearWakeupCondition)).pushFull t.id

/-- The replay after a task was visited. -/
def visited (id : ℕ) (resumed : List ℕ) (tr : Trace P ν E) (x : Replay P ν E) : Replay P ν E :=
  { x with trace := tr, started := addStarted x.started id, resumed := x.resumed ++ resumed }

/-- A task is visited that is admitted by the verifier. -/
def advance (i j : ℕ) (t : Task P) (x : Replay P ν E) : Option (Replay P ν E) :=
  let isNew := !x.started.contains t.id
  let tr := x.admitted i j t
  if t.returned then some (x.visited t.id [] (tr.begin R isNew t.toTaskInfo i))
  else if mode = .completeOnLast ∧ isLast = true then
    some (x.visited t.id [] (tr.terminate R V i j isNew t.toTaskInfo))
  else (tr.perform R V i j isNew).map fun tr => x.visited t.id [t.id] tr

/-- A task is visited. -/
def visit (i j : ℕ) (x : Replay P ν E) : Option (Replay P ν E) :=
  match x.trace.world.task? i j with
  | some t =>
    if x.threadCutoff.contains i then some x
    else
      let r := x.trace.world.permit V x.started i t
      let x := x.setVerifier r.2
      if r.1 then x.advance R V mode isLast i j t
      else some { x with threadCutoff := i :: x.threadCutoff }
  | none => none

/-- An iteration of the loop of `ReplayRound`; `isLast` says that the task does not occur again in
the ordering. There is no result if it throws, since there is no such task. -/
def step (id : ℕ) (x : Replay P ν E) : Option (Replay P ν E) :=
  match x.trace.world.getTask id with
  | some ij => x.visit R V mode isLast ij.1 ij.2
  | none => none

/-- What a step may do with a task. -/
inductive Steps (i j : ℕ) (t : Task P) (x : Replay P ν E) : Replay P ν E → Prop
  | cut (hcut : i ∈ x.threadCutoff) : Steps i j t x x
  | refused {v : ν} (hcut : i ∉ x.threadCutoff)
      (hpermit : x.trace.world.permit V x.started i t = (false, v)) :
      Steps i j t x { x.setVerifier v with threadCutoff := i :: x.threadCutoff }
  | returned {v : ν} (hcut : i ∉ x.threadCutoff)
      (hpermit : x.trace.world.permit V x.started i t = (true, v)) (hret : t.returned = true) :
      Steps i j t x ((x.setVerifier v).visited t.id []
        (((x.setVerifier v).admitted i j t).begin R (!x.started.contains t.id) t.toTaskInfo i))
  | terminated {v : ν} (hcut : i ∉ x.threadCutoff)
      (hpermit : x.trace.world.permit V x.started i t = (true, v)) (hret : t.returned = false)
      (hmode : mode = .completeOnLast) (hlast : isLast = true) :
      Steps i j t x ((x.setVerifier v).visited t.id []
        (((x.setVerifier v).admitted i j t).terminate R V i j (!x.started.contains t.id)
          t.toTaskInfo))
  | resumed {v : ν} {tr : Trace P ν E} (hcut : i ∉ x.threadCutoff)
      (hpermit : x.trace.world.permit V x.started i t = (true, v)) (hret : t.returned = false)
      (hmode : ¬ (mode = .completeOnLast ∧ isLast = true))
      (htr : ((x.setVerifier v).admitted i j t).perform R V i j (!x.started.contains t.id) =
        some tr) :
      Steps i j t x ((x.setVerifier v).visited t.id [t.id] tr)

variable {R V mode isLast}

/-- **What a step does.** -/
theorem step_cases {id : ℕ} {x x' : Replay P ν E} (h : x.step R V mode isLast id = some x') :
    ∃ i j t, x.trace.world.getTask id = some (i, j) ∧ x.trace.world.task? i j = some t ∧
      Steps R V mode isLast i j t x x' := by
  unfold step at h
  split at h
  · rename_i ij hget
    unfold visit at h
    split at h
    · rename_i t ht
      refine ⟨ij.1, ij.2, t, hget, ht, ?_⟩
      split at h
      · rename_i hcut
        exact Option.some.inj h ▸ .cut (by simpa using hcut)
      · rename_i hcut
        have hcut : ij.1 ∉ x.threadCutoff := by simpa using hcut
        dsimp only at h
        split at h
        · rename_i hpermit
          have hpermit : x.trace.world.permit V x.started ij.1 t = (true, _) := Prod.ext hpermit rfl
          dsimp only [advance] at h
          split at h
          · rename_i hret
            exact Option.some.inj h ▸ .returned hcut hpermit hret
          · rename_i hret
            have hret : t.returned = false := by simpa using hret
            split at h
            · rename_i hmode
              exact Option.some.inj h ▸ .terminated hcut hpermit hret hmode.1 hmode.2
            · rename_i hmode
              obtain ⟨tr, htr, rfl⟩ := Option.map_eq_some_iff.mp h
              exact .resumed hcut hpermit hret hmode htr
        · rename_i hpermit
          rw [Bool.not_eq_true] at hpermit
          have hpermit : x.trace.world.permit V x.started ij.1 t = (false, _) :=
            Prod.ext hpermit rfl
          exact Option.some.inj h ▸ .refused hcut hpermit
    · cases h
  · cases h

theorem admitted_task? {i j : ℕ} {t : Task P} {x : Replay P ν E}
    (ht : x.trace.world.task? i j = some t) :
    (x.admitted i j t).world.task? i j = some t.clearWakeupCondition := by
  show (World.modifyTask i j Task.clearWakeupCondition _).task? i j = _
  rw [World.task?_modifyTask_self, ht, Option.map_some]

section Eq

variable {i j id : ℕ} {t : Task P} {v : ν} {x : Replay P ν E}
  (hget : x.trace.world.getTask id = some (i, j)) (ht : x.trace.world.task? i j = some t)
  (hcut : i ∉ x.threadCutoff) (hpermit : x.trace.world.permit V x.started i t = (true, v))
  (hret : t.returned = false)

include hget ht hcut hpermit

theorem step_eq_advance :
    x.step R V mode isLast id = (x.setVerifier v).advance R V mode isLast i j t := by
  have hcut : x.threadCutoff.contains i = false := by simpa using hcut
  simp only [step, hget, visit, ht, hcut, hpermit, Bool.false_eq_true, if_false, if_true]

include hret

theorem step_eq_terminated (hmode : mode = .completeOnLast) (hlast : isLast = true) :
    x.step R V mode isLast id = some ((x.setVerifier v).visited t.id []
      (((x.setVerifier v).admitted i j t).terminate R V i j (!x.started.contains t.id)
        t.toTaskInfo)) := by
  rw [step_eq_advance hget ht hcut hpermit, advance, if_neg (by simp [hret]),
    if_pos ⟨hmode, hlast⟩]
  rfl

theorem step_eq_resumed (hmode : ¬ (mode = .completeOnLast ∧ isLast = true)) :
    x.step R V mode isLast id = some ((x.setVerifier v).visited t.id [t.id]
      (((x.setVerifier v).admitted i j t).after R V i j (!x.started.contains t.id)
        t.clearWakeupCondition)) := by
  have hcleared := admitted_task? (x := x.setVerifier v) ht
  rw [step_eq_advance hget ht hcut hpermit, advance, if_neg (by simp [hret]), if_neg hmode,
    Trace.perform_eq hcleared hret]
  rfl

end Eq

end Step

variable (R : Recorder P E) (V : Verifier P ν) (mode : ReplayMode)

/-- The loop of `ReplayRound`. -/
def run : List ℕ → Replay P ν E → Option (Replay P ν E)
  | [], x => some x
  | id :: ids, x => (x.step R V mode (!ids.contains id) id).bind (run ids)

variable {R V}

variable (R V) in
/-- A part of an ordering in which all tasks occur again. -/
def resumeAll (ids : List ℕ) (x : Replay P ν E) : Option (Replay P ν E) :=
  ids.foldlM (fun x id => x.step R V mode false id) x

variable {mode}

theorem resumeAll_concat (ids : List ℕ) (id : ℕ) (x : Replay P ν E) :
    resumeAll R V mode (ids ++ [id]) x =
      (resumeAll R V mode ids x).bind fun x => x.step R V mode false id := by
  rw [resumeAll, List.foldlM_append]
  exact congrArg _ (funext fun _ => List.foldlM_cons.trans (bind_pure _))

theorem run_append {ids later : List ℕ} (hlater : ∀ id ∈ ids, id ∈ later) (x : Replay P ν E) :
    run R V mode (ids ++ later) x = (resumeAll R V mode ids x).bind (run R V mode later) := by
  induction ids generalizing x with
  | nil => rfl
  | cons id ids ih =>
    have hagain : (!(ids ++ later).contains id) = false := by
      simp [hlater id List.mem_cons_self]
    have ih := ih fun id hid => hlater id (List.mem_cons_of_mem _ hid)
    rw [List.cons_append, run, hagain]
    show _ = (Option.bind _ (resumeAll R V mode ids)).bind _
    rw [Option.bind_assoc]
    exact congrArg _ (funext ih)

/-- Without forced completion, the last step of a task is like the others. -/
theorem run_noForceComplete (ids : List ℕ) (x : Replay P ν E) :
    run R V .noForceComplete ids x = resumeAll R V .noForceComplete ids x := by
  have hstep (isLast : Bool) (id : ℕ) (x : Replay P ν E) :
      x.step R V .noForceComplete isLast id = x.step R V .noForceComplete false id := by
    simp [step, visit, advance]
  induction ids generalizing x with
  | nil => rfl
  | cons id ids ih =>
    rw [run, hstep]
    exact congrArg _ (funext ih)

variable (R mode) in
/-- What a replay reports. -/
def result (check : List E → Bool) (policy : DeadlockPolicy) (tasksOrdering : List ℕ)
    (x : Replay P ν E) : Result E :=
  if mode = .noForceComplete ∧
      x.trace.world.getUnfinishedAndRunnable (some tasksOrdering) = (true, false) then
    if !check x.trace.seq then some ⟨x.trace.full, x.trace.seq, .nonLinearizableHistory⟩
    else if policy = .fail then
      if R.isReportableDeadlockHistory x.trace.seq then
        some ⟨x.trace.full, x.trace.seq, .deadlock⟩
      else none
    else none
  else checked check x.trace.full x.trace.seq

end Replay

section ReplayRound

variable (R : Recorder P E) {V : Verifier P ν} (S : Strategy V ρ)
  (check : List E → Bool) (policy : DeadlockPolicy)

/-- The loop of a replay. -/
def replayRun (w : World P ν) (tasksOrdering : List ℕ) (mode : ReplayMode) :
    Option (Replay P ν E) :=
  Replay.run R V mode tasksOrdering { trace := ⟨w.resetCurrentRound V, [], []⟩ }

/-- `ReplayRound` for both schedulers: what is reported, the replay and the variables of the
strategy. -/
def replayRound (w : World P ν) (s : ρ) (tasksOrdering : List ℕ) (mode : ReplayMode) :
    Option (Result E × Replay P ν E × ρ) :=
  (replayRun R (V := V) w tasksOrdering mode).map fun x =>
    (x.result R mode check policy tasksOrdering, x,
      S.resetCurrentRound (w.resetCurrentRound V) s)

end ReplayRound

/-- `GetTasksOrdering`. -/
def getTasksOrdering (full : List ℕ) (excludeTaskIds : List ℕ) : List ℕ :=
  full.filter fun id => !excludeTaskIds.contains id

theorem getTasksOrdering_nil (full : List ℕ) : getTasksOrdering full [] = full := by
  simp [getTasksOrdering]

/-! ### The two schedulers -/

namespace StrategyScheduler

variable {V : Verifier P ν} (S : Strategy V ρ)

/-- The reset at the beginning of an attempt. -/
def exploreReset (w : World P ν) (s : ρ) : World P ν × ρ :=
  let w := w.resetCurrentRound V
  (w, S.resetCurrentRound w s)

/-- `StrategyScheduler::ExploreRound`. -/
def exploreRound (check : List (HistoryEvent P) → Bool) (policy : DeadlockPolicy) (fuel runs : ℕ)
    (w : World P ν) (s : ρ) : Option (Result (HistoryEvent P) × Explore P ν ρ (HistoryEvent P)) :=
  Scheduler.exploreRound ordinaryRecorder S (exploreReset S) check policy fuel runs w s

/-- `StrategyScheduler::ReplayRound`. -/
def replayRound (check : List (HistoryEvent P) → Bool) (policy : DeadlockPolicy) (w : World P ν)
    (s : ρ) (tasksOrdering : List ℕ) (mode : ReplayMode) :
    Option (Result (HistoryEvent P) × Replay P ν (HistoryEvent P) × ρ) :=
  Scheduler.replayRound ordinaryRecorder S check policy w s tasksOrdering mode

end StrategyScheduler

namespace DualStrategyScheduler

variable {V : Verifier P ν} (S : Strategy V ρ)

/-- The reset at the beginning of an attempt. -/
def exploreReset (w : World P ν) (s : ρ) : World P ν × ρ :=
  let w := w.resetExplorationState V
  (w, S.resetExplorationState w s)

/-- `DualStrategyScheduler::ExploreRound`. -/
def exploreRound (check : List (DualHistoryEvent P) → Bool) (policy : DeadlockPolicy)
    (fuel runs : ℕ) (w : World P ν) (s : ρ) :
    Option (Result (DualHistoryEvent P) × Explore P ν ρ (DualHistoryEvent P)) :=
  Scheduler.exploreRound dualRecorder S (exploreReset S) check policy fuel runs w s

/-- `DualStrategyScheduler::ReplayRound`. -/
def replayRound (check : List (DualHistoryEvent P) → Bool) (policy : DeadlockPolicy)
    (w : World P ν) (s : ρ) (tasksOrdering : List ℕ) (mode : ReplayMode) :
    Option (Result (DualHistoryEvent P) × Replay P ν (DualHistoryEvent P) × ρ) :=
  Scheduler.replayRound dualRecorder S check policy w s tasksOrdering mode

end DualStrategyScheduler

end Scheduler

end LTest
