import LTest.Lib.Transition
import LTest.Scheduler.Operations
import LTest.Scheduler.Strategies

/-!
# The life cycle of tasks

A task object may be destroyed, replaced or restarted only after its coroutine has returned; the
destructor and `Restart` assert this. `StartNextRound` and the resets terminate all tasks first.
`TryRollbackDeadlock` does not: when an alternative round was explored in vain, it resets the round,
which restarts the task it had appended, and then drops that task.

The schedulers are a transition system here, whose moves are the calls of the strategy and the steps
of the loops, without the answers of the checker and the choices of the strategy. So it has more
runs than the schedulers.

## Main definitions

* `World.appendTaskForReplay`, `World.removeLastTaskForReplay` — what a rollback does
* `StrategyCall`, `StrategyCall.dropped` — the calls and the task objects they destroy or replace
* `RunPhase`, `LifeCycle.Step` — the runs of the two schedulers

## Main results

* `LifeCycle.reached_run`, `LifeCycle.reached_exploreAttempt`, `LifeCycle.reached_replayRun` — the
  loops are runs of the system
* `LifeCycle.respects_iff` — only a rollback that is undone breaks the life cycle
-/

namespace LTest

namespace Scheduler

open Relation

variable {P : Program} {ν ρ E : Type}

/-! ### Appended tasks -/

namespace World

/-- `AppendTaskForReplay`: the id of the new task and the round. -/
def appendTaskForReplay (constructors : List (TaskBuilder P)) (methodName : String) (i : ℕ)
    (w : World P ν) : Option (ℕ × World P ν) :=
  if w.threads.length ≤ i then none
  else (constructors.find? (·.name == methodName)).map fun b => (w.newTaskId, w.build i b)

/-- `RemoveLastTaskForReplay`. -/
def removeLastTaskForReplay (i id : ℕ) (w : World P ν) : Bool × World P ν :=
  if (w.back? i).any (·.id == id) then
    (true, setTaskRemoved id false { w with threads := Grid.pop w.threads i })
  else (false, w)

variable {w w' : World P ν} {i id : ℕ}

theorem appendTaskForReplay_some {constructors : List (TaskBuilder P)} {methodName : String}
    (h : w.appendTaskForReplay constructors methodName i = some (id, w')) :
    i < w.threads.length ∧ ∃ b, b.name = methodName ∧ id = w.newTaskId ∧ w' = w.build i b := by
  unfold appendTaskForReplay at h
  split at h
  · cases h
  · rename_i hi
    obtain ⟨b, hfind, hb⟩ := Option.map_eq_some_iff.mp h
    obtain ⟨rfl, rfl⟩ := Prod.mk.inj hb
    exact ⟨Nat.lt_of_not_le hi, b, by simpa using List.find?_some hfind, rfl, rfl⟩

/-- The last task of a thread is dropped, if it has the id. -/
theorem removeLastTaskForReplay_eq (h : (Grid.back? w.infos i).map (·.id) = some id) :
    w.removeLastTaskForReplay i id =
      (true, setTaskRemoved id false { w with threads := Grid.pop w.threads i }) := by
  have hany : (w.back? i).any (·.id == id) = true := by
    rw [infos, Grid.back?_map, Option.map_map, Option.map_eq_some_iff] at h
    obtain ⟨t, ht, hid⟩ := h
    rw [back?, ht, Option.any_some]
    exact beq_iff_eq.mpr hid
  rw [removeLastTaskForReplay, if_pos hany]

end World

/-! ### Calls -/

/-- The calls of the schedulers that create, destroy, replace or restart tasks. -/
inductive StrategyCall (P : Program)
  | operation (op : StrategyOp P)
  | appendTaskForReplay (i : ℕ)
  | removeLastTaskForReplay (i id : ℕ)
  | other

namespace StrategyCall

/-- The task objects that a call destroys or replaces, as they are at that moment. The resets call
`Restart` for these. -/
def dropped (w : World P ν) : StrategyCall P → List (Task P)
  | operation (.setCustomRound _) => w.threads.flatten
  | operation .resetCurrentRound | operation .resetExplorationState =>
    w.terminateRunningTasks.threads.flatten.filter fun t => !w.isTaskRemoved t.id
  | operation .startNextRound => w.terminateRunningTasks.threads.flatten
  | removeLastTaskForReplay i id => (w.back? i).toList.filter (·.id == id)
  | _ => []

/-- The assertions of the destructor and of `Restart` hold in a call. -/
def Respects (w : World P ν) (c : StrategyCall P) : Prop := ∀ t ∈ c.dropped w, t.returned = true

/-- After `TerminateRunningTasks` all tasks have returned. -/
theorem returned_of_mem_terminateRunningTasks {w : World P ν} {t : Task P}
    (h : t ∈ w.terminateRunningTasks.threads.flatten) : t.returned = true := by
  obtain ⟨ts, hts, ht⟩ := List.mem_flatten.mp h
  obtain ⟨us, -, rfl⟩ := List.mem_map.mp hts
  obtain ⟨u, -, rfl⟩ := List.mem_map.mp ht
  exact u.stop_returned

theorem respects_startNextRound (w : World P ν) :
    (operation .startNextRound : StrategyCall P).Respects w :=
  fun _ h => returned_of_mem_terminateRunningTasks h

theorem respects_resetCurrentRound (w : World P ν) :
    (operation .resetCurrentRound : StrategyCall P).Respects w :=
  fun _ h => returned_of_mem_terminateRunningTasks (List.mem_of_mem_filter h)

theorem respects_resetExplorationState (w : World P ν) :
    (operation .resetExplorationState : StrategyCall P).Respects w :=
  fun _ h => returned_of_mem_terminateRunningTasks (List.mem_of_mem_filter h)

end StrategyCall

/-! ### The runs -/

/-- Where a scheduler is: before a round, in a round and its explorations, in a rollback that tries
another task in place of a blocked one, in the reset that undoes it, or in the minimization. -/
inductive RunPhase
  | head
  | round
  | rollback (threadId taskId appended : ℕ)
  | undo (threadId taskId appended : ℕ)
  | minimizing

namespace RunPhase

/-- The phases in which rounds are explored or replayed. -/
def Resets : RunPhase → Prop
  | round | rollback _ _ _ | minimizing => True
  | _ => False

end RunPhase

namespace LifeCycle

/-- A scheduler with its round. -/
structure Config (P : Program) (ν : Type) where
  /-- What the scheduler does. -/
  phase : RunPhase
  /-- The round. -/
  world : World P ν

/-- The moves of the schedulers. `dual` says which of the two it is: only `StrategyScheduler` has
custom rounds, and only `DualStrategyScheduler` rolls back. -/
inductive Step (V : Verifier P ν) (dual : Bool) :
    Config P ν → StrategyCall P → Config P ν → Prop
  | begins (w : World P ν) : Step V dual ⟨.head, w⟩ .other ⟨.round, w⟩
  | custom (w : World P ν) (custom : CustomRound P) (h : dual = false) :
      Step V dual ⟨.head, w⟩ (.operation (.setCustomRound custom))
        ⟨.round, w.setCustomRound V custom⟩
  | plays {p : RunPhase} {w w' : World P ν} (hp : p.Resets) (h : w.Plays w') :
      Step V dual ⟨p, w⟩ .other ⟨p, w'⟩
  | builds (w : World P ν) (i : ℕ) (b : TaskBuilder P) :
      Step V dual ⟨.round, w⟩ .other ⟨.round, w.build i b⟩
  | restarts (w : World P ν) :
      Step V dual ⟨.round, w⟩ (.operation .startNextRound) ⟨.round, w.startNextRound V⟩
  | resetsCurrentRound {p : RunPhase} (w : World P ν) (hp : p.Resets) :
      Step V dual ⟨p, w⟩ (.operation .resetCurrentRound) ⟨p, w.resetCurrentRound V⟩
  | resetsExplorationState {p : RunPhase} (w : World P ν) (hp : p.Resets) :
      Step V dual ⟨p, w⟩ (.operation .resetExplorationState) ⟨p, w.resetExplorationState V⟩
  | next (w : World P ν) :
      Step V dual ⟨.round, w⟩ (.operation .startNextRound) ⟨.head, w.startNextRound V⟩
  | minimizes {p : RunPhase} (w : World P ν) (hp : p.Resets) :
      Step V dual ⟨p, w⟩ .other ⟨.minimizing, w⟩
  | removes (w : World P ν) (id : ℕ) (isRemoved : Bool) :
      Step V dual ⟨.minimizing, w⟩ .other ⟨.minimizing, w.setTaskRemoved id isRemoved⟩
  | rollsBack {w w' : World P ν} {constructors : List (TaskBuilder P)} {methodName : String}
      {i j id appended : ℕ} (h : dual = true) (hid : w.getTask id = some (i, j))
      (happend : (w.setTaskRemoved id true).appendTaskForReplay constructors methodName i =
        some (appended, w')) :
      Step V dual ⟨.round, w⟩ (.appendTaskForReplay i) ⟨.rollback i id appended, w'⟩
  | undoes (w : World P ν) (i id appended : ℕ) :
      Step V dual ⟨.rollback i id appended, w⟩ (.operation .resetExplorationState)
        ⟨.undo i id appended, w.resetExplorationState V⟩
  | undone (w : World P ν) (i id appended : ℕ) :
      Step V dual ⟨.undo i id appended, w⟩ (.removeLastTaskForReplay i appended)
        ⟨.round, (w.removeLastTaskForReplay i appended).2.setTaskRemoved id false⟩

/-- A scheduler is started with a new round. -/
def Starts (c : Config P ν) : Prop :=
  ∃ threadsCount target env verifier, c = ⟨.head, World.new threadsCount target env verifier⟩

/-- The configurations of all runs. -/
abbrev Reachable (V : Verifier P ν) (dual : Bool) : Config P ν → Prop :=
  Reached (Step V dual) (fun _ _ => True) Starts

/-! ### The loops are runs -/

section Loops

variable {V : Verifier P ν} {S : Strategy V ρ} {R : Recorder P E} {dual : Bool} {w : World P ν}
  {p : RunPhase}

theorem reachable_plays {w' : World P ν} (hp : p.Resets) (h : Reachable V dual ⟨p, w⟩)
    (hplays : ReflTransGen World.Plays w w') : Reachable V dual ⟨p, w'⟩ := by
  induction hplays with
  | refl => exact h
  | tail _ hlast ih => exact ih.step trivial (.plays hp hlast)

theorem reachable_generates {w' : World P ν} (h : Reachable V dual ⟨.head, w⟩)
    (hgenerates : ReflTransGen (World.Generates V) w w') : Reachable V dual ⟨.round, w'⟩ := by
  induction hgenerates with
  | refl => exact h.step trivial (.begins w)
  | tail _ hlast ih =>
    cases hlast with
    | plays hplay => exact ih.step trivial (.plays trivial hplay)
    | builds i b => exact ih.step trivial (.builds _ i b)
    | restarts => exact ih.step trivial (.restarts _)

/-- `RunRound` of both schedulers. -/
theorem reached_run (S : Strategy V ρ) (maxTasks : ℕ) (h : Reachable V dual ⟨.head, w⟩) (s : ρ)
    (n : ℕ) :
    ((StrategyScheduler.run S maxTasks w s n).status = .aborted ∨
        Reachable V dual ⟨.round, (StrategyScheduler.run S maxTasks w s n).trace.world⟩) ∧
      ((DualStrategyScheduler.run S maxTasks w s n).status = .aborted ∨
        Reachable V dual ⟨.round, (DualStrategyScheduler.run S maxTasks w s n).trace.world⟩) :=
  ⟨(Round.iterate_generates StrategyScheduler.playsBefore_prepare
      (StrategyScheduler.step_cases maxTasks) w s n).imp_right (reachable_generates h),
    (Round.iterate_generates DualStrategyScheduler.playsBefore_prepare
      (DualStrategyScheduler.step_cases maxTasks) w s n).imp_right (reachable_generates h)⟩

/-- An attempt of `ExploreRound` of both schedulers. -/
theorem reached_exploreAttempt (S : Strategy V ρ) (hp : p.Resets) (h : Reachable V dual ⟨p, w⟩)
    (s : ρ) (fuel : ℕ) :
    Reachable V dual ⟨p, (exploreAttempt ordinaryRecorder S (StrategyScheduler.exploreReset S) fuel
        w s).trace.world⟩ ∧
      Reachable V dual ⟨p, (exploreAttempt dualRecorder S (DualStrategyScheduler.exploreReset S)
        fuel w s).trace.world⟩ :=
  ⟨reachable_plays hp (h.step trivial (.resetsCurrentRound w hp))
      (exploreAttempt_plays (StrategyScheduler.exploreReset S) w s),
    reachable_plays hp (h.step trivial (.resetsExplorationState w hp))
      (exploreAttempt_plays (DualStrategyScheduler.exploreReset S) w s)⟩

/-- `ReplayRound` of both schedulers. -/
theorem reached_replayRun (hp : p.Resets) (h : Reachable V dual ⟨p, w⟩) {tasksOrdering : List ℕ}
    {mode : ReplayMode} {x : Replay P ν E}
    (hx : replayRun R (V := V) w tasksOrdering mode = some x) :
    Reachable V dual ⟨p, x.trace.world⟩ :=
  reachable_plays hp (h.step trivial (.resetsCurrentRound w hp)) (Replay.run_plays hx)

end Loops

/-! ### The invariant -/

/-- The last task of thread `i` is `appended`, and the task it stands in for is the only removed
one. -/
structure Appended (i id appended : ℕ) (w : World P ν) : Prop where
  serial : w.Serial
  removed : w.removed = {id}
  ne : appended ≠ id
  back : (Grid.back? w.infos i).map (·.id) = some appended

/-- What holds of the round in each phase. -/
def Inv (c : Config P ν) : Prop :=
  match c.phase with
  | .head => c.world.Fresh ∧ c.world.emissions = []
  | .round => c.world.Serial ∧ c.world.removed = ∅
  | .rollback i id appended => Appended i id appended c.world
  | .undo i id appended =>
    Appended i id appended c.world ∧ (c.world.back? i).any (·.returned) = false
  | .minimizing => c.world.Serial

namespace Appended

variable {V : Verifier P ν} {i id appended : ℕ} {w w' : World P ν}

theorem congr (h : Appended i id appended w) (hkept : w.Kept w') : Appended i id appended w' where
  serial := h.serial.congr hkept.infos hkept.newTaskId
  removed := hkept.removed.trans h.removed
  ne := h.ne
  back := hkept.infos ▸ h.back

theorem exists_back (h : Appended i id appended w) : ∃ t, w.back? i = some t ∧ t.id = appended := by
  have hback := h.back
  rw [World.infos, Grid.back?_map, Option.map_map, Option.map_eq_some_iff] at hback
  exact hback

/-- The reset restarts the appended task. -/
theorem back_resetCurrentRound (h : Appended i id appended w) :
    ((w.resetCurrentRound V).back? i).any (·.returned) = false := by
  obtain ⟨t, ht, hid⟩ := h.exists_back
  have hremoved : w.isTaskRemoved t.id = false := by
    simp [World.isTaskRemoved, h.removed, hid, h.ne]
  rw [World.back?, World.resetCurrentRound_threads, Grid.back?_map]
  show ((w.back? i).map _).any _ = false
  rw [ht]
  simp [hremoved, Task.restart, Task.new]

theorem append {constructors : List (TaskBuilder P)} {methodName : String} {j : ℕ}
    (hserial : w.Serial) (hremoved : w.removed = ∅) (hid : w.getTask id = some (i, j))
    (happend : (w.setTaskRemoved id true).appendTaskForReplay constructors methodName i =
      some (appended, w')) : Appended i id appended w' := by
  obtain ⟨hi, b, -, rfl, rfl⟩ := World.appendTaskForReplay_some happend
  obtain ⟨t, ht, htid⟩ := World.getTask_eq_some hid
  have hmarked : (w.setTaskRemoved id true).Serial := ⟨hserial.numbered, hserial.lt⟩
  refine ⟨hmarked.build i b, ?_, ?_, ?_⟩
  · show insert id w.removed = {id}
    rw [hremoved]
    rfl
  · exact (Nat.ne_of_lt (htid ▸ hserial.lt i j t ht)).symm
  · rw [World.infos_build, Grid.back?_push_self]
    · rfl
    · rw [World.length_infos]
      exact hi

/-- A rollback is undone: the appended task is dropped, and no task is removed. -/
theorem remove (h : Appended i id appended w) :
    ((w.removeLastTaskForReplay i appended).2.setTaskRemoved id false).Serial ∧
      ((w.removeLastTaskForReplay i appended).2.setTaskRemoved id false).removed = ∅ := by
  rw [World.removeLastTaskForReplay_eq h.back]
  constructor
  · constructor
    · intro i₁ j₁ i₂ j₂ t₁ t₂ h₁ h₂
      exact h.serial.numbered i₁ j₁ i₂ j₂ t₁ t₂ (Grid.get?_of_get?_pop h₁)
        (Grid.get?_of_get?_pop h₂)
    · exact fun i' j' t' ht' => h.serial.lt i' j' t' (Grid.get?_of_get?_pop ht')
  · show (w.removed.erase appended).erase id = ∅
    have hnot : appended ∉ ({id} : Finset ℕ) := by simpa using h.ne
    rw [h.removed, Finset.erase_eq_of_notMem hnot, Finset.erase_singleton]

end Appended

section Inv

variable {V : Verifier P ν} {dual : Bool} {c c' : Config P ν}

theorem inv_of_starts (h : Starts c) : Inv c := by
  obtain ⟨threadsCount, target, env, verifier, rfl⟩ := h
  exact ⟨World.fresh_new threadsCount target env verifier, rfl⟩

/-- What keeps the tasks but for their states keeps the invariant of a phase with resets. -/
theorem inv_congr {p : RunPhase} {w w' : World P ν} (hp : p.Resets) (hkept : w.Kept w')
    (h : Inv ⟨p, w⟩) : Inv ⟨p, w'⟩ := by
  cases p with
  | head => exact hp.elim
  | round => exact ⟨h.1.congr hkept.infos hkept.newTaskId, hkept.removed.trans h.2⟩
  | rollback i id appended => exact Appended.congr h hkept
  | undo => exact hp.elim
  | minimizing => exact h.congr hkept.infos hkept.newTaskId

theorem serial_startNextRound (w : World P ν) : (w.startNextRound V).Serial :=
  .of_forall_nil fun _ hts => (List.mem_replicate.mp hts).2

/-- In every phase tasks have different ids. -/
theorem serial_of_inv (h : Inv c) : c.world.Serial := by
  obtain ⟨p, w⟩ := c
  cases p with
  | head => exact .of_forall_nil h.1.threads
  | round => exact h.1
  | rollback => exact Appended.serial h
  | undo => exact h.1.serial
  | minimizing => exact h

theorem inv_step {call : StrategyCall P} (h : Inv c) (hs : Step V dual c call c') : Inv c' := by
  cases hs with
  | begins w => exact ⟨.of_forall_nil h.1.threads, h.1.removed⟩
  | custom w custom =>
    exact ⟨World.serial_setCustomRound V custom w,
      (World.buildThreads_counts custom _).2.2.trans h.1.removed⟩
  | plays hp hplay => exact inv_congr hp hplay.kept h
  | builds w i b => exact ⟨h.1.build i b, h.2⟩
  | restarts w => exact ⟨serial_startNextRound w, h.2⟩
  | resetsCurrentRound w hp => exact inv_congr hp (World.kept_resetCurrentRound V w) h
  | resetsExplorationState w hp => exact inv_congr hp (World.kept_resetCurrentRound V w) h
  | next w => exact ⟨⟨fun _ hts => (List.mem_replicate.mp hts).2, h.2⟩, rfl⟩
  | @minimizes p w hp => exact serial_of_inv (c := ⟨p, w⟩) h
  | removes w id isRemoved => exact ⟨h.numbered, h.lt⟩
  | rollsBack _ hid happend => exact Appended.append h.1 h.2 hid happend
  | undoes w i id appended =>
    exact ⟨Appended.congr h (World.kept_resetCurrentRound V w), Appended.back_resetCurrentRound h⟩
  | undone w i id appended => exact Appended.remove h.1

theorem inv_of_reachable (h : Reachable V dual c) : Inv c :=
  h.invariant (fun _ => inv_of_starts) fun _ _ _ hc _ hstep => inv_step hc hstep

/-- **Only a rollback that is undone breaks the life cycle.** In every run of either scheduler, a
call destroys, replaces and restarts only tasks that have returned, unless it drops the task that a
rollback had appended; and then it drops a task that has not returned. -/
theorem respects_iff {call : StrategyCall P} (h : Reachable V dual c) (hs : Step V dual c call c') :
    call.Respects c.world ↔ ∀ i id, call ≠ .removeLastTaskForReplay i id := by
  have hinv : Inv c := inv_of_reachable h
  cases hs with
  | begins => exact iff_of_true nofun nofun
  | custom w custom =>
    refine iff_of_true (fun t ht => ?_) nofun
    obtain ⟨ts, hts, ht⟩ := List.mem_flatten.mp ht
    rw [hinv.1.threads ts hts] at ht
    cases ht
  | plays => exact iff_of_true nofun nofun
  | builds => exact iff_of_true nofun nofun
  | restarts w => exact iff_of_true (StrategyCall.respects_startNextRound w) nofun
  | resetsCurrentRound w => exact iff_of_true (StrategyCall.respects_resetCurrentRound w) nofun
  | resetsExplorationState w =>
    exact iff_of_true (StrategyCall.respects_resetExplorationState w) nofun
  | next w => exact iff_of_true (StrategyCall.respects_startNextRound w) nofun
  | minimizes => exact iff_of_true nofun nofun
  | removes => exact iff_of_true nofun nofun
  | rollsBack => exact iff_of_true nofun nofun
  | undoes w => exact iff_of_true (StrategyCall.respects_resetExplorationState w) nofun
  | undone w i id appended =>
    obtain ⟨t, ht, htid⟩ := hinv.1.exists_back
    have hreturned : t.returned = false := by simpa [ht] using hinv.2
    refine iff_of_false (fun hrespects => ?_) fun hne => hne i appended rfl
    have hdropped : t ∈ (StrategyCall.removeLastTaskForReplay i appended).dropped w := by
      simp [StrategyCall.dropped, ht, htid]
    cases hreturned.symm.trans (hrespects t hdropped)

end Inv

/-! ### A rollback that is undone -/

/-- A target with a method that blocks and never returns, and one that returns at once. -/
def waitProgram : Program where
  Target := Unit
  Env := Unit
  Fiber := Bool
  Args := Unit
  Val := Unit
  targetFactory _ := ((), ())
  resume id _ waits _ m _ :=
    if waits then (⟨waits, (), m.blockOn 1 id, some 1, none, [], none⟩, ())
    else (⟨waits, (), m, none, none, [], some ()⟩, ())

/-- Its methods. -/
def waitBuilders : List (TaskBuilder waitProgram) :=
  [⟨"wait", fun _ _ => ((), ()), fun _ => true, false⟩,
    ⟨"signal", fun _ _ => ((), ()), fun _ => false, false⟩]

/-- Round-robin for this target. -/
abbrev waitStrategy : Picker (P := waitProgram) (defaultStrategyTaskVerifier (ν := Unit)) Unit ℕ :=
  roundRobinStrategy _ .first false

/-- A generated round with one task, which waits. -/
abbrev waitRound :=
  DualStrategyScheduler.run waitStrategy.toStrategy 1 (World.new 1 () () ())
    ⟨waitBuilders, (), [none], 0⟩ 2

/-- The round in which a signal stands in for it. -/
abbrev signalled : World waitProgram Unit :=
  (((waitRound.trace.world.setTaskRemoved 0 true).appendTaskForReplay waitBuilders "signal" 0).map
    Prod.snd).getD waitRound.trace.world

/-- The exploration of that round, with a checker that accepts everything. -/
abbrev signalledExploration :=
  DualStrategyScheduler.exploreRound waitStrategy.toStrategy (fun _ => true) .rollback 3 1 signalled
    waitRound.strategy

/-- The round when `TryRollbackDeadlock` gives up this attempt. -/
abbrev abandoned : World waitProgram Unit :=
  (exploreAttempt dualRecorder waitStrategy.toStrategy
    (DualStrategyScheduler.exploreReset waitStrategy.toStrategy) 3 signalled
    waitRound.strategy).trace.world.resetExplorationState defaultStrategyTaskVerifier

theorem reachable_waitRound :
    Reachable defaultStrategyTaskVerifier true ⟨.round, waitRound.trace.world⟩ := by
  have hhead : Reachable (P := waitProgram) defaultStrategyTaskVerifier true
      ⟨.head, World.new 1 () () ()⟩ := .init ⟨1, (), (), (), rfl⟩
  exact (reached_run waitStrategy.toStrategy 1 hhead ⟨waitBuilders, (), [none], 0⟩
    2).2.resolve_left (by decide)

theorem reachable_abandoned :
    Reachable defaultStrategyTaskVerifier true ⟨.undo 0 0 1, abandoned⟩ := by
  have hid : waitRound.trace.world.getTask 0 = some (0, 0) := rfl
  have happend : (waitRound.trace.world.setTaskRemoved 0 true).appendTaskForReplay waitBuilders
      "signal" 0 = some (1, signalled) := rfl
  have hrolled : Reachable defaultStrategyTaskVerifier true ⟨.rollback 0 0 1, signalled⟩ :=
    reachable_waitRound.step trivial (.rollsBack rfl hid happend)
  exact (reached_exploreAttempt waitStrategy.toStrategy (p := .rollback 0 0 1) trivial hrolled
    waitRound.strategy 3).2.step trivial (.undoes _ 0 0 1)

/-- The next round is started after all tasks were terminated. -/
theorem respects_next_waitRound :
    (StrategyCall.operation .startNextRound).Respects waitRound.trace.world :=
  (respects_iff reachable_waitRound (.next _)).mpr nofun

/-- The generated round is a deadlock, the exploration finds nothing, and the task that was appended
for it is destroyed although it has not returned. -/
theorem rollback_destroys_running_task :
    waitRound.status = .ended true ∧ signalledExploration.map Prod.fst = some none ∧
      Reachable defaultStrategyTaskVerifier true ⟨.undo 0 0 1, abandoned⟩ ∧
      ∃ t ∈ (StrategyCall.removeLastTaskForReplay 0 1).dropped abandoned, t.returned = false :=
  ⟨by decide, rfl, reachable_abandoned, _, List.mem_singleton_self _, rfl⟩

end LifeCycle

end Scheduler

end LTest
