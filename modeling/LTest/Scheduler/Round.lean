import LTest.Scheduler.Trace

/-!
# Generating a round

`RunRound` asks the strategy for the next task, starts or resumes it, and records what happens,
until all tasks have been started and have returned. The loops of the two schedulers are the same
but for the events they record, what they do before a task is performed, and one failure of the
strategy: `DualStrategyScheduler` does not expect that the interleavings are exhausted, and the
variant access that follows throws.

## Main definitions

* `Strategy` — `Next`, `NextSchedule` and what a strategy does when rounds start
* `Round` — the local variables of `RunRound`
* `Round.step` — one iteration of the loop; `StrategyScheduler.step`, `DualStrategyScheduler.step`
* `Round.result` — what `RunRound` returns

## Main results

* `Round.step_cases` — what an iteration does
-/

namespace LTest

namespace Scheduler

variable {P : Program} {ν ρ E : Type}

/-! ### Strategies -/

/-- `StrategyNextScheduleFailure`. -/
inductive StrategyNextScheduleFailure
  | deadlock
  | needReplay
  | exhaustedInterleavings
  deriving DecidableEq, Repr

/-- What `Next` returns: a failure, a task that was just built on a thread, or an existing task. -/
inductive Next (P : Program)
  | failure (f : StrategyNextScheduleFailure)
  | start (threadId : ℕ) (builder : TaskBuilder P)
  | resume (threadId index : ℕ)

/-- From one state of the verifier the other is reached by asking for verdicts. -/
inductive Asks {T : Type} (V : StrategyTaskVerifier ν T) (v : ν) : ν → Prop
  | none : Asks V v v
  | verify {v' : ν} (name : String) (threadId : ℕ) (isNew : Bool) :
      Asks V v v' → Asks V v (V.verify v' name threadId isNew).2
  | verifyStart {v' : ν} (name : String) (threadId : ℕ) (ctx : StartContext) :
      Asks V v v' → Asks V v (V.verifyStart v' name threadId ctx).2
  | verifyExisting {v' : ν} (task : T) (threadId : ℕ) :
      Asks V v v' → Asks V v (V.verifyExisting v' task threadId).2

/-- What no question changes is the same after all of them. -/
theorem Asks.keeps {T β : Type} {V : StrategyTaskVerifier ν T} (f : ν → β)
    (hverify : ∀ v name i isNew, f (V.verify v name i isNew).2 = f v)
    (hstart : ∀ v name i ctx, f (V.verifyStart v name i ctx).2 = f v)
    (hexisting : ∀ v t i, f (V.verifyExisting v t i).2 = f v) {v v' : ν} (h : Asks V v v') :
    f v' = f v := by
  induction h with
  | none => rfl
  | verify name i isNew _ ih => exact (hverify _ name i isNew).trans ih
  | verifyStart name i ctx _ ih => exact (hstart _ name i ctx).trans ih
  | verifyExisting t i _ ih => exact (hexisting _ t i).trans ih

theorem Asks.verifyTaskStart {T : Type} {V : StrategyTaskVerifier ν T} {v v' : ν} (h : Asks V v v')
    (name : String) (i : ℕ) (ctx : StartContext) :
    Asks V v (V.verifyTaskStart v' name i ctx).2 := by
  unfold StrategyTaskVerifier.verifyTaskStart
  dsimp only
  split
  · exact (h.verifyStart name i ctx).verify name i true
  · exact h.verifyStart name i ctx

/-- A strategy with variables `ρ` of its own. The last three fields say what it does in addition to
`BaseStrategyWithThreads`. -/
structure Strategy (V : Verifier P ν) (ρ : Type) where
  /-- `Next`. A task that it starts is built on the round it was called with. -/
  next : World P ν → ρ → Next P × ν × ρ
  /-- `NextSchedule`, which picks an existing task. -/
  nextSchedule : World P ν → ρ → Except StrategyNextScheduleFailure (ℕ × ℕ) × ν × ρ
  /-- `NextSchedule` only asks the verifier for verdicts. -/
  asks : ∀ w s, Asks V w.verifier (nextSchedule w s).2.1
  /-- `StartNextRound`. -/
  startNextRound : World P ν → ρ → ν × ρ
  /-- `ResetCurrentRound`. -/
  resetCurrentRound : World P ν → ρ → ρ
  /-- `ResetExplorationState`. -/
  resetExplorationState : World P ν → ρ → ρ

/-- The strategy whose `Next` returns a given sequence of outcomes. -/
def Strategy.ofOutcomes (V : Verifier P ν) (outcomes : ℕ → Next P) :
    Strategy V ℕ where
  next w k := (outcomes k, w.verifier, k + 1)
  nextSchedule w k := (.error .deadlock, w.verifier, k)
  asks _ _ := .none
  startNextRound w k := (w.verifier, k)
  resetCurrentRound _ k := k
  resetExplorationState _ k := k

/-! ### The loop -/

/-- How far `RunRound` is: in its loop, after the loop, returned because the interleavings are
exhausted, thrown, or stopped by an assertion. -/
inductive Status
  | running
  | ended (deadlockDetected : Bool)
  | exhausted
  | threw
  | aborted
  deriving DecidableEq, Repr

/-- The local variables of `RunRound`. -/
structure Round (P : Program) (ν ρ E : Type) where
  /-- The round. -/
  trace : Trace P ν E
  /-- The variables of the strategy. -/
  strategy : ρ
  /-- The number of started tasks. -/
  startedTasks : ℕ := 0
  /-- Whether the loop goes on. -/
  status : Status := .running

namespace Round

variable {r : Round P ν ρ E} {maxTasks : ℕ}

/-- The round when `RunRound` is called. -/
def init (w : World P ν) (s : ρ) : Round P ν ρ E where
  trace := ⟨w.setAllowNewTasks true, [], []⟩
  strategy := s

/-- The round with its loop left. -/
def stop (status : Status) (r : Round P ν ρ E) : Round P ν ρ E := { r with status := status }

/-- The call of `SetAllowNewTasks` when all tasks have been started. -/
def limit (maxTasks : ℕ) (r : Round P ν ρ E) : Round P ν ρ E :=
  if r.startedTasks < maxTasks then r
  else { r with trace := r.trace.mapWorld (World.setAllowNewTasks false) }

/-- Whether the loop is left before the strategy is asked, and whether for a deadlock. -/
def ending (maxTasks : ℕ) (r : Round P ν ρ E) : Option Bool :=
  if r.startedTasks < maxTasks then none
  else
    match r.trace.world.getUnfinishedAndRunnable none with
    | (false, _) => some false
    | (true, false) => some true
    | (true, true) => none

@[simp] theorem limit_startedTasks : (r.limit maxTasks).startedTasks = r.startedTasks := by
  unfold Round.limit
  split <;> rfl

@[simp] theorem limit_status : (r.limit maxTasks).status = r.status := by
  unfold Round.limit
  split <;> rfl

@[simp] theorem limit_strategy : (r.limit maxTasks).strategy = r.strategy := by
  unfold Round.limit
  split <;> rfl

/-- The loop is left without a deadlock when all tasks have been started and none is unfinished. -/
theorem ending_false (h : r.ending maxTasks = some false) :
    maxTasks ≤ (r.limit maxTasks).startedTasks ∧
      ((r.limit maxTasks).trace.world.getUnfinishedAndRunnable none).1 = false := by
  unfold Round.ending at h
  split at h
  · cases h
  · rename_i hle
    rw [Round.limit, if_neg hle]
    refine ⟨Nat.le_of_not_lt hle, ?_⟩
    split at h
    · rename_i hunfinished
      exact congrArg Prod.fst hunfinished
    · cases h
    · cases h

/-- The round after the call of `Next`, without a task that is built. -/
def asked (v : ν) (s : ρ) (r : Round P ν ρ E) : Round P ν ρ E :=
  { r with trace := r.trace.mapWorld (World.setVerifier v), strategy := s }

/-- The round after a task is built. -/
def build (i : ℕ) (b : TaskBuilder P) (r : Round P ν ρ E) : Round P ν ρ E :=
  { r with trace := r.trace.mapWorld (World.build i b) }

section Restart

variable {V : Verifier P ν} (S : Strategy V ρ)

/-- The round after `NEED_REPLAY`: it is started again, and the histories are cleared. -/
def restart (r : Round P ν ρ E) : Round P ν ρ E :=
  let w := r.trace.world.startNextRound V
  let vs := S.startNextRound w r.strategy
  { r with trace := ⟨w.setVerifier vs.1, [], []⟩, strategy := vs.2 }

end Restart

/-- The round after a task was performed; it is stopped by the assertion if it could not be. -/
def performed (isNew : Bool) (r : Round P ν ρ E) : Option (Trace P ν E) → Round P ν ρ E
  | some tr =>
    { r with
      trace := tr
      startedTasks := if isNew then r.startedTasks + 1 else r.startedTasks }
  | none => r.stop .aborted

/-- What `RunRound` returns after its loop. -/
def result (R : Recorder P E) (check : List E → Bool) (policy : DeadlockPolicy)
    (alternative : Result E) (r : Round P ν ρ E) : Option (Result E) :=
  match r.status with
  | .ended true =>
    some (handleDeadlock R check policy alternative r.trace.full r.trace.seq)
  | .ended false => some (checked check r.trace.full r.trace.seq)
  | .exhausted => some none
  | _ => none

theorem result_some {R : Recorder P E} {check : List E → Bool} {policy : DeadlockPolicy}
    {history : NonLinearizableHistory E} (h : r.result R check policy none = some (some history)) :
    r.status ≠ .aborted ∧ history.IsOf r.trace.full r.trace.seq := by
  unfold result at h
  split at h
  · rename_i hended
    exact ⟨by simp [hended], handleDeadlock_some (Option.some.inj h)⟩
  · rename_i hended
    exact ⟨by simp [hended], checked_some (Option.some.inj h)⟩
  · cases h
  · cases h

end Round

/-! ### What an iteration does -/

section Iterations

variable {V : Verifier P ν}

/-- What an iteration may do after the call of `Next`, in a scheduler that records with `R` and
prepares a trace with `prep` before it performs a task. -/
inductive Round.Follows (R : Recorder P E) (S : Strategy V ρ)
    (prep : ℕ → ℕ → Trace P ν E → Trace P ν E) (r : Round P ν ρ E) : Next P → Round P ν ρ E → Prop
  | deadlock : Follows R S prep r (.failure .deadlock) (r.stop (.ended true))
  | needReplay : Follows R S prep r (.failure .needReplay) (r.restart S)
  | exhausted {status : Status} (h : status = .exhausted ∨ status = .threw) :
      Follows R S prep r (.failure .exhaustedInterleavings) (r.stop status)
  | aborted {n : Next P} {r' : Round P ν ρ E} (h : r'.status = .aborted)
      (hseq : r'.trace.seq = r.trace.seq) : Follows R S prep r n r'
  | start {i j : ℕ} {b : TaskBuilder P} {tr : Trace P ν E}
      (hj : j = Grid.rowLength r.trace.world.threads i)
      (h : (prep i j (r.build i b).trace).perform R V i j true = some tr) :
      Follows R S prep r (.start i b) ((r.build i b).performed true (some tr))
  | resume {i j : ℕ} {tr : Trace P ν E}
      (h : (prep i j r.trace).perform R V i j false = some tr) :
      Follows R S prep r (.resume i j) (r.performed false (some tr))

/-- What an iteration of `RunRound` may do. -/
inductive Round.Iterates (R : Recorder P E) (S : Strategy V ρ)
    (prep : ℕ → ℕ → Trace P ν E → Trace P ν E) (maxTasks : ℕ) (r : Round P ν ρ E) :
    Round P ν ρ E → Prop
  | idle (h : r.status ≠ .running) : Iterates R S prep maxTasks r r
  | ended {d : Bool} (hrunning : r.status = .running) (h : r.ending maxTasks = some d) :
      Iterates R S prep maxTasks r ((r.limit maxTasks).stop (.ended d))
  | follows {n : Next P} {v : ν} {s : ρ} {r' : Round P ν ρ E} (hrunning : r.status = .running)
      (hover : r.ending maxTasks = none)
      (hnext : S.next (r.limit maxTasks).trace.world (r.limit maxTasks).strategy = (n, v, s))
      (h : Follows R S prep ((r.limit maxTasks).asked v s) n r') :
      Iterates R S prep maxTasks r r'

end Iterations

/-! ### The loops of the schedulers -/

section Loop

variable {V : Verifier P ν} (R : Recorder P E) (S : Strategy V ρ)
  (prep : ℕ → ℕ → Trace P ν E → Trace P ν E) (onExhausted : Status)

namespace Round

variable (V) in
/-- A task is started or resumed. -/
def advance (i j : ℕ) (isNew : Bool) (r : Round P ν ρ E) : Round P ν ρ E :=
  r.performed isNew ((prep i j r.trace).perform R V i j isNew)

/-- The part of an iteration after the call of `Next`. The schedulers differ in what they do when
the interleavings are exhausted. -/
def follow (r : Round P ν ρ E) : Next P → Round P ν ρ E
  | .failure .deadlock => r.stop (.ended true)
  | .failure .needReplay => r.restart S
  | .failure .exhaustedInterleavings => r.stop onExhausted
  | .start i b =>
    (r.build i b).advance V R prep i (Grid.rowLength r.trace.world.threads i) true
  | .resume i j => r.advance V R prep i j false

/-- An iteration of the loop. -/
def step (maxTasks : ℕ) (r : Round P ν ρ E) : Round P ν ρ E :=
  match r.status with
  | .running =>
    match r.ending maxTasks with
    | some d => (r.limit maxTasks).stop (.ended d)
    | none =>
      let r := r.limit maxTasks
      let n := S.next r.trace.world r.strategy
      (r.asked n.2.1 n.2.2).follow R S prep onExhausted n.1
  | _ => r

variable {R S prep onExhausted} {maxTasks : ℕ} {r : Round P ν ρ E}

theorem step_of_not_running (h : r.status ≠ .running) :
    r.step R S prep onExhausted maxTasks = r := by
  unfold step
  split
  · contradiction
  · rfl

theorem step_of_over {d : Bool} (hrunning : r.status = .running)
    (hover : r.ending maxTasks = some d) :
    r.step R S prep onExhausted maxTasks = (r.limit maxTasks).stop (.ended d) := by
  simp only [step, hrunning, hover]

theorem step_of_next (hrunning : r.status = .running) (hover : r.ending maxTasks = none) :
    r.step R S prep onExhausted maxTasks =
      let n := S.next (r.limit maxTasks).trace.world (r.limit maxTasks).strategy
      ((r.limit maxTasks).asked n.2.1 n.2.2).follow R S prep onExhausted n.1 := by
  simp only [step, hrunning, hover]

theorem follow_cases (hexhausted : onExhausted = .exhausted ∨ onExhausted = .threw)
    (r : Round P ν ρ E) (n : Next P) : r.Follows R S prep n (r.follow R S prep onExhausted n) := by
  cases n with
  | failure f =>
    cases f with
    | deadlock => exact .deadlock
    | needReplay => exact .needReplay
    | exhaustedInterleavings => exact .exhausted hexhausted
  | start i b =>
    rw [follow, advance]
    cases h : (prep i _ (r.build i b).trace).perform R V i _ true with
    | none => exact .aborted rfl rfl
    | some tr => exact .start rfl h
  | resume i j =>
    rw [follow, advance]
    cases h : (prep i j r.trace).perform R V i j false with
    | none => exact .aborted rfl rfl
    | some tr => exact .resume h

/-- **What an iteration does.** -/
theorem step_cases (hexhausted : onExhausted = .exhausted ∨ onExhausted = .threw) (maxTasks : ℕ)
    (r : Round P ν ρ E) : r.Iterates R S prep maxTasks (r.step R S prep onExhausted maxTasks) := by
  by_cases hrunning : r.status = .running
  · cases hover : r.ending maxTasks with
    | some d =>
      rw [step_of_over hrunning hover]
      exact .ended hrunning hover
    | none =>
      rw [step_of_next hrunning hover]
      exact .follows hrunning hover rfl (follow_cases hexhausted _ _)
  · rw [step_of_not_running hrunning]
    exact .idle hrunning

end Round

namespace StrategyScheduler

/-- Before a task is performed its wakeup condition is cleared. -/
def prepare (i j : ℕ) (tr : Trace P ν (HistoryEvent P)) : Trace P ν (HistoryEvent P) :=
  tr.mapWorld (World.modifyTask i j Task.clearWakeupCondition)

/-- An iteration of the loop of `StrategyScheduler::RunRound`. -/
def step (maxTasks : ℕ) (r : Round P ν ρ (HistoryEvent P)) : Round P ν ρ (HistoryEvent P) :=
  r.step ordinaryRecorder S prepare .exhausted maxTasks

theorem step_cases {S : Strategy V ρ} (maxTasks : ℕ) (r : Round P ν ρ (HistoryEvent P)) :
    r.Iterates ordinaryRecorder S prepare maxTasks (step S maxTasks r) :=
  Round.step_cases (.inl rfl) maxTasks r

/-- The first iterations of `RunRound`. -/
def run (maxTasks : ℕ) (w : World P ν) (s : ρ) (n : ℕ) :=
  (step S maxTasks)^[n] (Round.init w s)

end StrategyScheduler

namespace DualStrategyScheduler

/-- Before a task is performed it is appended to the full history; its wakeup condition is left as
it is. -/
def prepare (i j : ℕ) (tr : Trace P ν (DualHistoryEvent P)) : Trace P ν (DualHistoryEvent P) :=
  tr.pushFull ((tr.world.task? i j).elim 0 (·.id))

/-- An iteration of the loop of `DualStrategyScheduler::RunRound`. The variant that `Next` returns
is read as a task after `DEADLOCK` and `NEED_REPLAY` only, so that the third failure throws. -/
def step (maxTasks : ℕ) (r : Round P ν ρ (DualHistoryEvent P)) :
    Round P ν ρ (DualHistoryEvent P) :=
  r.step dualRecorder S prepare .threw maxTasks

theorem step_cases {S : Strategy V ρ} (maxTasks : ℕ) (r : Round P ν ρ (DualHistoryEvent P)) :
    r.Iterates dualRecorder S prepare maxTasks (step S maxTasks r) :=
  Round.step_cases (.inr rfl) maxTasks r

/-- The first iterations of `RunRound`. -/
def run (maxTasks : ℕ) (w : World P ν) (s : ρ) (n : ℕ) :=
  (step S maxTasks)^[n] (Round.init w s)

end DualStrategyScheduler

end Loop

end Scheduler

end LTest
