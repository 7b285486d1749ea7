import LTest.Scheduler.Exploration
import LTest.Scheduler.Reset

/-!
# Operations on a round

A strategy keeps the tasks of one round at a time. `StrategyOp` collects the operations that
exchange or reset the whole round. Between two of them the loops of the schedulers ask the verifier,
resume tasks, build tasks and terminate tasks one at a time. `World.Plays` says what they may do
then, without the order in which they do it; each loop of the two schedulers is a sequence of such
steps and of operations.

## Main definitions

* `World.setCustomRound`, `World.terminateTasks` — two more operations
* `StrategyOp`, `StrategyOp.apply` — the operations
* `World.Plays` — a step of a loop between two operations
* `World.Generates` — a step of `RunRound`

## Main results

* `World.Plays.kept` — what all these steps keep
* `Explore.Iterates.plays`, `Replay.run_plays`, `Round.Iterates.generates` — the loops
-/

namespace LTest

namespace Scheduler

open Relation

variable {P : Program} {ν ρ E : Type}

/-! ### Custom rounds -/

/-- `CustomRound`: the builders of each thread. -/
abbrev CustomRound (P : Program) : Type := List (List (TaskBuilder P))

namespace World

/-- The tasks of a thread of a custom round are built. -/
def buildThread (i : ℕ) (builders : List (TaskBuilder P)) (w : World P ν) : World P ν :=
  builders.foldl (fun w b => w.build i b) w

/-- The tasks of a custom round are built. -/
def buildThreads (custom : CustomRound P) (w : World P ν) : World P ν :=
  custom.zipIdx.foldl (fun w row => w.buildThread row.2 row.1) w

section Verifier

variable (V : Verifier P ν)

/-- `BaseStrategyWithThreads::SetCustomRound`. The tasks of the round before are neither terminated
nor unblocked, and the ids continue. -/
def setCustomRound (custom : CustomRound P) (w : World P ν) : World P ν :=
  let w := (w.resetVerifier V).resetTargetState
  let w := buildThreads custom { w with threads := List.replicate custom.length [] }
  w.setVerifier (V.onRoundStart w.verifier custom.length)

/-- `BaseStrategyWithThreads::TerminateTasks`. -/
def terminateTasks (w : World P ν) : World P ν :=
  (w.terminateRunningTasks.resetVerifier V).resetTargetState

end Verifier

/-- What is kept when a task is built is kept when a custom round is built. -/
theorem buildThreads_induction {Q : World P ν → Prop} (hbuild : ∀ w i b, Q w → Q (w.build i b))
    (custom : CustomRound P) {w : World P ν} (hw : Q w) : Q (w.buildThreads custom) := by
  have hthread (i : ℕ) (builders : List (TaskBuilder P)) (w : World P ν) (hw : Q w) :
      Q (w.buildThread i builders) := by
    induction builders generalizing w with
    | nil => exact hw
    | cons b bs ih => exact ih _ (hbuild w i b hw)
  unfold buildThreads
  generalize custom.zipIdx = rows
  induction rows generalizing w with
  | nil => exact hw
  | cons row rows ih => exact ih (hthread row.2 row.1 w hw)

theorem buildThreads_counts (custom : CustomRound P) (w : World P ν) :
    (w.buildThreads custom).threads.length = w.threads.length ∧
      (w.buildThreads custom).threadsCount = w.threadsCount ∧
      (w.buildThreads custom).removed = w.removed :=
  buildThreads_induction (Q := fun w' => w'.threads.length = w.threads.length ∧
      w'.threadsCount = w.threadsCount ∧ w'.removed = w.removed)
    (fun _ _ _ h => ⟨Grid.length_push.trans h.1, h.2⟩) custom ⟨rfl, rfl, rfl⟩

/-- The tasks of a custom round have different ids. -/
theorem serial_setCustomRound (V : Verifier P ν) (custom : CustomRound P)
    (w : World P ν) : (w.setCustomRound V custom).Serial := by
  have hbuilt : (buildThreads custom { (w.resetVerifier V).resetTargetState with
      threads := List.replicate custom.length [] }).Serial :=
    buildThreads_induction (fun _ i b h => h.build i b) custom
      (.of_forall_nil fun _ hts => (List.mem_replicate.mp hts).2)
  exact ⟨hbuilt.numbered, hbuilt.lt⟩

end World

/-! ### Operations -/

/-- The operations that exchange or reset the round of a strategy. -/
inductive StrategyOp (P : Program)
  | setCustomRound (custom : CustomRound P)
  | resetCurrentRound
  | resetExplorationState
  | terminateTasks
  | startNextRound

namespace StrategyOp

/-- The round after an operation. -/
def apply (V : Verifier P ν) (w : World P ν) : StrategyOp P → World P ν
  | setCustomRound custom => w.setCustomRound V custom
  | resetCurrentRound => w.resetCurrentRound V
  | resetExplorationState => w.resetExplorationState V
  | terminateTasks => w.terminateTasks V
  | startNextRound => w.startNextRound V

/-- The number of threads after an operation. -/
def threads (w : World P ν) : StrategyOp P → ℕ
  | setCustomRound custom => custom.length
  | startNextRound => w.threadsCount
  | _ => w.threads.length

variable {V : Verifier P ν}

theorem length_threads_apply (w : World P ν) (op : StrategyOp P) :
    (op.apply V w).threads.length = op.threads w := by
  cases op with
  | setCustomRound custom =>
    exact (World.buildThreads_counts custom _).1.trans List.length_replicate
  | resetCurrentRound =>
    show (w.resetCurrentRound V).threads.length = w.threads.length
    rw [World.resetCurrentRound_threads, List.length_map]
  | resetExplorationState =>
    show (w.resetCurrentRound V).threads.length = w.threads.length
    rw [World.resetCurrentRound_threads, List.length_map]
  | terminateTasks => exact List.length_map _
  | startNextRound => exact List.length_replicate

theorem threadsCount_apply (w : World P ν) (op : StrategyOp P) :
    (op.apply V w).threadsCount = w.threadsCount := by
  cases op with
  | setCustomRound custom => exact (World.buildThreads_counts custom _).2.1
  | resetCurrentRound => rfl
  | resetExplorationState => rfl
  | terminateTasks => rfl
  | startNextRound => rfl

end StrategyOp

/-! ### Between two operations -/

namespace World

/-- What the loops of the schedulers may do with a round between two operations, but for tasks that
they build. -/
inductive Plays (w : World P ν) : World P ν → Prop
  | asks (v : ν) : Plays w (w.setVerifier v)
  | allows (b : Bool) : Plays w (w.setAllowNewTasks b)
  | clears (i j : ℕ) : Plays w (w.modifyTask i j Task.clearWakeupCondition)
  | resumes {i j : ℕ} {w' : World P ν} (h : w.resume i j = some w') : Plays w w'
  | drains {E : Type} (R : Recorder P E) : Plays w (w.mapTasks R.drainTask)
  | terminates (i j : ℕ) : Plays w (w.modifyTask i j Task.terminate)

/-- What a step of `RunRound` may do with a round. -/
inductive Generates (V : Verifier P ν) (w : World P ν) : World P ν → Prop
  | plays {w' : World P ν} (h : w.Plays w') : Generates V w w'
  | builds (i : ℕ) (b : TaskBuilder P) : Generates V w (w.build i b)
  | restarts : Generates V w (w.startNextRound V)

/-- The same tasks but for their states, of which the same are removed. -/
structure Kept (w w' : World P ν) : Prop where
  infos : w'.infos = w.infos
  removed : w'.removed = w.removed
  newTaskId : w'.newTaskId = w.newTaskId
  threadsCount : w'.threadsCount = w.threadsCount

theorem Kept.refl (w : World P ν) : Kept w w := ⟨rfl, rfl, rfl, rfl⟩

theorem Kept.trans {w₁ w₂ w₃ : World P ν} (h : Kept w₁ w₂) (h' : Kept w₂ w₃) : Kept w₁ w₃ :=
  ⟨h'.infos.trans h.infos, h'.removed.trans h.removed, h'.newTaskId.trans h.newTaskId,
    h'.threadsCount.trans h.threadsCount⟩

theorem Kept.length_threads {w w' : World P ν} (h : Kept w w') :
    w'.threads.length = w.threads.length := by
  rw [← length_infos, ← length_infos, h.infos]

/-- **What the loops keep between two operations.** -/
theorem Plays.kept {w w' : World P ν} (h : w.Plays w') : Kept w w' := by
  cases h with
  | asks v => exact ⟨rfl, rfl, rfl, rfl⟩
  | allows b => exact ⟨rfl, rfl, rfl, rfl⟩
  | clears i j => exact ⟨infos_modifyTask fun _ => rfl, rfl, rfl, rfl⟩
  | resumes h =>
    obtain ⟨t, -, -, rfl⟩ := resume_cases h
    exact ⟨infos_stepTask t, rfl, rfl, rfl⟩
  | drains R => exact ⟨infos_mapTasks R.drainTask_toTaskInfo, rfl, rfl, rfl⟩
  | terminates i j => exact ⟨infos_modifyTask fun _ => rfl, rfl, rfl, rfl⟩

theorem Kept.of_plays {w w' : World P ν} (h : ReflTransGen Plays w w') : Kept w w' := by
  induction h with
  | refl => exact .refl w
  | tail _ hlast ih => exact ih.trans hlast.kept

theorem kept_resetCurrentRound (V : Verifier P ν) (w : World P ν) :
    Kept w (w.resetCurrentRound V) :=
  ⟨infos_resetCurrentRound V, rfl, rfl, rfl⟩

end World

/-! ### The loops -/

section Loops

variable {R : Recorder P E} {V : Verifier P ν} {S : Strategy V ρ}
  {prep : ℕ → ℕ → Trace P ν E → Trace P ν E} {maxTasks : ℕ}

theorem World.plays_reportFinish (i j : ℕ) (w : World P ν) : w.Plays (w.reportFinish V i j) := by
  obtain ⟨v, hv⟩ := World.reportFinish_eq V i j w
  rw [hv]
  exact .asks v

/-- The step of a task: it is resumed, dual events are drained, and the verifier is told. -/
theorem Trace.perform_plays {tr tr' : Trace P ν E} {i j : ℕ} {isNew : Bool}
    (h : tr.perform R V i j isNew = some tr') : ReflTransGen World.Plays tr.world tr'.world := by
  obtain ⟨t, ht, hret, rfl⟩ := Trace.perform_cases h
  have hresumes : tr.world.Plays (tr.world.stepTask i j t) := .resumes (World.resume_eq ht hret)
  exact ((ReflTransGen.single hresumes).tail (.drains R)).tail (World.plays_reportFinish i j _)

theorem Explore.Iterates.plays {x x' : Explore P ν ρ E} (h : Explore.Iterates R V x x') :
    ReflTransGen World.Plays x.trace.world x'.trace.world := by
  cases h with
  | idle => exact .refl
  | finished => exact .refl
  | stopped => exact .single (.asks _)
  | @performed v v' s i j t tr hrunning hasks ht hpermit htr =>
    have hasked : x.trace.world.Plays ((x.asked v' s).trace.pushFull t.id).world := .asks v'
    exact (ReflTransGen.single hasked).trans (Trace.perform_plays htr)

/-- An attempt of `ExploreRound` after its reset. -/
theorem exploreAttempt_plays (reset : World P ν → ρ → World P ν × ρ) {fuel : ℕ} (w : World P ν)
    (s : ρ) :
    ReflTransGen World.Plays (reset w s).1 (exploreAttempt R S reset fuel w s).trace.world :=
  exploreAttempt_induction (Q := fun x => ReflTransGen World.Plays (reset w s).1 x.trace.world)
    .refl fun _ _ h hx' => h.trans hx'.plays

theorem Replay.step_plays {mode : ReplayMode} {isLast : Bool} {id : ℕ} {x x' : Replay P ν E}
    (h : x.step R V mode isLast id = some x') :
    ReflTransGen World.Plays x.trace.world x'.trace.world := by
  obtain ⟨i, j, t, -, -, hsteps⟩ := Replay.step_cases h
  have hadmitted (v : ν) :
      ReflTransGen World.Plays x.trace.world ((x.setVerifier v).admitted i j t).world :=
    (ReflTransGen.single (.asks v)).tail (.clears i j)
  cases hsteps with
  | cut => exact .refl
  | refused => exact .single (.asks _)
  | returned => exact hadmitted _
  | terminated =>
    exact (((hadmitted _).tail (.terminates i j)).tail (.drains R)).tail
      (World.plays_reportFinish i j _)
  | resumed hcut hpermit hret hmode htr => exact (hadmitted _).trans (Trace.perform_plays htr)

/-- The loop of `ReplayRound`. -/
theorem Replay.run_plays {mode : ReplayMode} {ids : List ℕ} {x x' : Replay P ν E}
    (h : Replay.run R V mode ids x = some x') :
    ReflTransGen World.Plays x.trace.world x'.trace.world := by
  induction ids generalizing x with
  | nil => exact Option.some.inj h ▸ .refl
  | cons id ids ih =>
    obtain ⟨y, hy, hrun⟩ := Option.bind_eq_some_iff.mp h
    exact (Replay.step_plays hy).trans (ih hrun)

/-- What the schedulers do before they perform a task only concerns the round between two
operations. -/
def PlaysBefore (prep : ℕ → ℕ → Trace P ν E → Trace P ν E) : Prop :=
  ∀ i j tr, ReflTransGen World.Plays tr.world (prep i j tr).world

theorem StrategyScheduler.playsBefore_prepare :
    PlaysBefore (prepare : ℕ → ℕ → Trace P ν (HistoryEvent P) → _) :=
  fun i j _ => .single (.clears i j)

theorem DualStrategyScheduler.playsBefore_prepare :
    PlaysBefore (prepare : ℕ → ℕ → Trace P ν (DualHistoryEvent P) → _) :=
  fun _ _ _ => .refl

theorem World.generates_of_plays {w w' : World P ν} (h : ReflTransGen World.Plays w w') :
    ReflTransGen (World.Generates V) w w' :=
  h.lift id fun _ _ h => .plays h

theorem Round.Iterates.status_of_aborted {r r' : Round P ν ρ E}
    (h : r.Iterates R S prep maxTasks r') (haborted : r.status = .aborted) :
    r'.status = .aborted := by
  cases h with
  | idle => exact haborted
  | ended hrunning => cases haborted.symm.trans hrunning
  | follows hrunning => cases haborted.symm.trans hrunning

/-- An iteration of `RunRound`. -/
theorem Round.Iterates.generates (hprep : PlaysBefore prep) {r r' : Round P ν ρ E}
    (h : r.Iterates R S prep maxTasks r') :
    r'.status = .aborted ∨ ReflTransGen (World.Generates V) r.trace.world r'.trace.world := by
  have hlimit : ReflTransGen World.Plays r.trace.world (r.limit maxTasks).trace.world := by
    unfold Round.limit
    split
    · exact .refl
    · exact .single (.allows false)
  cases h with
  | idle => exact .inr .refl
  | ended => exact .inr (World.generates_of_plays hlimit)
  | @follows n v s r' hrunning hover hnext h =>
    have hasked : ReflTransGen (World.Generates V) r.trace.world
        ((r.limit maxTasks).asked v s).trace.world :=
      World.generates_of_plays (hlimit.tail (.asks v))
    cases h with
    | deadlock => exact .inr hasked
    | needReplay => exact .inr ((hasked.tail .restarts).tail (.plays (.asks _)))
    | exhausted => exact .inr hasked
    | aborted haborted => exact .inl haborted
    | @start i j b tr hj htr =>
      exact .inr ((hasked.tail (.builds i b)).trans
        (World.generates_of_plays ((hprep i j _).trans (Trace.perform_plays htr))))
    | @resume i j tr htr =>
      exact .inr (hasked.trans
        (World.generates_of_plays ((hprep i j _).trans (Trace.perform_plays htr))))

/-- The first iterations of `RunRound`. -/
theorem Round.iterate_generates (hprep : PlaysBefore prep) {step : Round P ν ρ E → Round P ν ρ E}
    (hstep : ∀ r, Round.Iterates R S prep maxTasks r (step r)) (w : World P ν) (s : ρ) (n : ℕ) :
    (step^[n] (Round.init w s)).status = .aborted ∨
      ReflTransGen (World.Generates V) w (step^[n] (Round.init w s)).trace.world := by
  induction n with
  | zero => exact .inr (.single (.plays (.allows true)))
  | succ n ih =>
    rw [Function.iterate_succ_apply']
    obtain haborted | ih := ih
    · exact .inl ((hstep _).status_of_aborted haborted)
    · exact ((hstep _).generates hprep).imp_right ih.trans

end Loops

end Scheduler

end LTest
