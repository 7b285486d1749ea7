import LTest.Scheduler.Faithful

/-!
# Full histories

A full history is meant to have one entry for each `Resume` of a round, in order. `ExploreRound`
appends a task just before it resumes it. `StrategyScheduler::RunRound` hands its full history to
the simulator of operating system threads and appends nothing itself, so without such threads it
reports an empty full history. The calls of `Resume` are collected here next to the loops, without
reading what the loops record.

## Main definitions

* `StrategyScheduler.resumed` — the calls of `Resume` in `RunRound` since the last restart
* `Explore.resumes`, `exploreResumed` — the calls of `Resume` in an attempt of `ExploreRound`
* `StrategyScheduler.runRound` — `RunRound` with the exploration that may follow a deadlock
* `StrategyScheduler.Returned` — the results of the two functions with these calls

## Main results

* `StrategyScheduler.run_unrecorded` — `RunRound` records nothing
* `explore_full` — an attempt records its calls of `Resume`
* `StrategyScheduler.returned_complete_iff` — the results with the right full history
-/

namespace LTest

namespace Scheduler

variable {P : Program} {ν ρ E : Type}

/-! ### The calls of `Resume` in a generated round -/

namespace StrategyScheduler

variable {V : Verifier P ν} (S : Strategy V ρ) (maxTasks : ℕ)

/-- The calls of `Resume` since the last restart, after `Next` has returned an outcome. -/
def resumedAfter (w : World P ν) (resumed : List ℕ) : Next P → List ℕ
  | .failure .needReplay => []
  | .failure _ => resumed
  | .start _ _ => resumed ++ [w.newTaskId]
  | .resume i j => resumed ++ ((w.task? i j).map (·.id)).toList

/-- The calls of `Resume` since the last restart, after an iteration. -/
def resumedBy (r : Round P ν ρ (HistoryEvent P)) (resumed : List ℕ) : List ℕ :=
  match r.status, r.ending maxTasks with
  | .running, none =>
    let r := r.limit maxTasks
    resumedAfter r.trace.world resumed (S.next r.trace.world r.strategy).1
  | _, _ => resumed

/-- The calls of `Resume` in the first iterations of `RunRound` since the last restart. -/
def resumed (w : World P ν) (s : ρ) : ℕ → List ℕ
  | 0 => []
  | n + 1 => resumedBy S maxTasks (run S maxTasks w s n) (resumed w s n)

variable {S maxTasks} {r : Round P ν ρ (HistoryEvent P)}

theorem resumedAfter_setVerifier (v : ν) (w : World P ν) (resumed : List ℕ) (n : Next P) :
    resumedAfter (w.setVerifier v) resumed n = resumedAfter w resumed n := by
  cases n <;> rfl

theorem resumedBy_of_not_running (h : r.status ≠ .running) (resumed : List ℕ) :
    resumedBy S maxTasks r resumed = resumed := by
  unfold resumedBy
  split
  · contradiction
  · rfl

theorem resumedBy_of_over {d : Bool} (h : r.ending maxTasks = some d) (resumed : List ℕ) :
    resumedBy S maxTasks r resumed = resumed := by
  unfold resumedBy
  split
  · rename_i hover
    cases hover.symm.trans h
  · rfl

theorem resumedBy_of_next (hrunning : r.status = .running) (hover : r.ending maxTasks = none)
    (resumed : List ℕ) :
    resumedBy S maxTasks r resumed = resumedAfter (r.limit maxTasks).trace.world resumed
      (S.next (r.limit maxTasks).trace.world (r.limit maxTasks).strategy).1 := by
  simp only [resumedBy, hrunning, hover]

/-- The round has recorded no call of `Resume`, but each task that it has started was resumed. -/
structure Unrecorded (r : Round P ν ρ (HistoryEvent P)) (resumed : List ℕ) : Prop where
  full : r.trace.full = []
  starts : ∀ id ∈ ordinaryRecorder.starts r.trace.seq, id ∈ resumed

namespace Unrecorded

variable {r r' : Round P ν ρ (HistoryEvent P)} {resumed : List ℕ}

theorem limit (h : Unrecorded r resumed) : Unrecorded (r.limit maxTasks) resumed := by
  unfold Round.limit
  split
  · exact h
  · exact ⟨h.full, h.starts⟩

/-- The task that was just built is the one that is performed. -/
theorem start {i : ℕ} {b : TaskBuilder P} {tr : Trace P ν (HistoryEvent P)}
    (h : Unrecorded r resumed)
    (htr : (prepare i (Grid.rowLength r.trace.world.threads i) (r.build i b).trace).perform
      ordinaryRecorder V i (Grid.rowLength r.trace.world.threads i) true = some tr) :
    Unrecorded ((r.build i b).performed true (some tr)) (resumed ++ [r.trace.world.newTaskId]) := by
  obtain ⟨t, ht, -, rfl⟩ := Trace.perform_cases htr
  have hi : i < r.trace.world.threads.length := by
    simpa [prepare, Round.build, Trace.mapWorld, World.modifyTask, World.build] using
      World.task?_lt ht
  have hid : t.id = r.trace.world.newTaskId := by
    have htask : ((r.trace.world.build i b).modifyTask i (Grid.rowLength r.trace.world.threads i)
        Task.clearWakeupCondition).task? i (Grid.rowLength r.trace.world.threads i) =
          some (r.trace.world.built i b).clearWakeupCondition := by
      rw [World.task?_modifyTask_self]
      exact congrArg (Option.map _) (Grid.get?_push_self hi)
    exact congrArg (·.id) (Option.some.inj (ht.symm.trans htask))
  refine ⟨h.full, fun id hmem => ?_⟩
  change id ∈ ordinaryRecorder.starts (Trace.after ..).seq at hmem
  rw [Trace.after_starts ht, if_pos rfl, hid] at hmem
  obtain hmem | hmem := List.mem_append.mp hmem
  · exact List.mem_append_left _ (h.starts id hmem)
  · exact List.mem_append_right _ hmem

/-- After `Next` the calls of `Resume` and the histories change together. -/
theorem follows {n : Next P} (h : Unrecorded r resumed)
    (hr' : Round.Follows ordinaryRecorder S prepare r n r') :
    r'.status = .aborted ∨ Unrecorded r' (resumedAfter r.trace.world resumed n) := by
  cases hr' with
  | deadlock => exact .inr ⟨h.full, h.starts⟩
  | needReplay => exact .inr ⟨rfl, fun id hid => nomatch hid⟩
  | exhausted => exact .inr ⟨h.full, h.starts⟩
  | aborted haborted => exact .inl haborted
  | start hj htr =>
    subst hj
    exact .inr (h.start htr)
  | resume htr =>
    obtain ⟨t, ht, -, rfl⟩ := Trace.perform_cases htr
    refine .inr ⟨h.full, fun id hmem => ?_⟩
    change id ∈ ordinaryRecorder.starts (Trace.after ..).seq at hmem
    rw [Trace.after_starts ht, if_neg Bool.false_ne_true, List.append_nil] at hmem
    exact List.mem_append_left _ (h.starts id hmem)

theorem step (h : r.status = .aborted ∨ Unrecorded r resumed) :
    (StrategyScheduler.step S maxTasks r).status = .aborted ∨
      Unrecorded (StrategyScheduler.step S maxTasks r) (resumedBy S maxTasks r resumed) := by
  have hstep := step_cases (S := S) maxTasks r
  generalize StrategyScheduler.step S maxTasks r = r' at hstep
  cases hstep with
  | idle hidle =>
    rw [resumedBy_of_not_running hidle]
    exact h
  | ended hrunning hover =>
    obtain haborted | h := h
    · cases haborted.symm.trans hrunning
    · rw [resumedBy_of_over hover]
      exact .inr ⟨h.limit.full, h.limit.starts⟩
  | follows hrunning hover hnext hfollows =>
    rename_i n v s
    obtain haborted | h := h
    · cases haborted.symm.trans hrunning
    · have hasked : Unrecorded ((r.limit maxTasks).asked v s) resumed :=
        ⟨h.limit.full, h.limit.starts⟩
      rw [resumedBy_of_next hrunning hover, hnext, ← resumedAfter_setVerifier v]
      exact hasked.follows hfollows

end Unrecorded

variable (S maxTasks) in
/-- **A generated round records no call of `Resume`.** -/
theorem run_unrecorded (w : World P ν) (s : ρ) (n : ℕ) :
    (run S maxTasks w s n).status = .aborted ∨
      Unrecorded (run S maxTasks w s n) (resumed S maxTasks w s n) := by
  induction n with
  | zero => exact .inr ⟨rfl, fun id hid => nomatch hid⟩
  | succ n ih =>
    rw [run, Function.iterate_succ_apply', resumed]
    exact Unrecorded.step ih

end StrategyScheduler

/-! ### The calls of `Resume` in an exploration -/

section Exploration

variable {R : Recorder P E} {V : Verifier P ν} (S : Strategy V ρ)

variable (V) in
/-- The call of `Resume` for a task that `NextSchedule` returns, if the verifier permits it. -/
def Explore.resumesAt (i j : ℕ) (x : Explore P ν ρ E) : List ℕ :=
  match x.trace.world.task? i j with
  | some t => if (x.trace.world.permit V x.startedIds i t).1 then [t.id] else []
  | none => []

/-- The call of `Resume` that an iteration of an exploration makes, if any. -/
def Explore.resumes (x : Explore P ν ρ E) : List ℕ :=
  match x.status with
  | .running =>
    if x.tasksToRun = 0 then []
    else
      let n := S.nextSchedule x.trace.world x.strategy
      match n.1 with
      | .error _ => []
      | .ok (i, j) => (x.asked n.2.1 n.2.2).resumesAt V i j
  | _ => []

variable (R) in
/-- The calls of `Resume` in the first iterations of an attempt. -/
def exploreResumed (w : World P ν) (s : ρ) : ℕ → List ℕ
  | 0 => []
  | n + 1 => exploreResumed w s n ++ ((Explore.step R S)^[n] (Explore.init w s)).resumes S

variable {S}

theorem Explore.follow_full (i j : ℕ) (x : Explore P ν ρ E) :
    (x.follow R V i j).status = .aborted ∨
      (x.follow R V i j).trace.full = x.trace.full ++ x.resumesAt V i j := by
  cases ht : x.trace.world.task? i j with
  | none =>
    simp only [follow, ht]
    exact .inl rfl
  | some t =>
    simp only [follow, resumesAt, ht]
    split
    · split
      · rename_i tr htr
        obtain ⟨t', -, -, rfl⟩ := Trace.perform_cases htr
        exact .inr rfl
      · exact .inl rfl
    · exact .inr (List.append_nil _).symm

/-- An iteration appends its call of `Resume` to the full history. -/
theorem Explore.step_full (x : Explore P ν ρ E) :
    (step R S x).status = .aborted ∨ (step R S x).trace.full = x.trace.full ++ x.resumes S := by
  by_cases hrunning : x.status = .running
  · by_cases hzero : x.tasksToRun = 0
    · simp only [step, resumes, hrunning, hzero, if_true]
      exact .inr (List.append_nil _).symm
    · simp only [step, resumes, hrunning, hzero, if_false]
      cases S.nextSchedule x.trace.world x.strategy with
      | mk n vs =>
        cases n with
        | error f => cases f <;> exact .inr (List.append_nil _).symm
        | ok ij => exact follow_full ij.1 ij.2 _
  · have hresumes : x.resumes S = [] := by
      unfold resumes
      split
      · contradiction
      · rfl
    rw [step_of_not_running hrunning, hresumes, List.append_nil]
    exact .inr rfl

/-- **An attempt records its calls of `Resume`.** -/
theorem explore_full (w : World P ν) (s : ρ) (n : ℕ) :
    ((Explore.step R S)^[n] (Explore.init w s)).status = .aborted ∨
      ((Explore.step R S)^[n] (Explore.init w s)).trace.full = exploreResumed R S w s n := by
  induction n with
  | zero => exact .inr rfl
  | succ n ih =>
    rw [Function.iterate_succ_apply', exploreResumed]
    obtain haborted | hfull := ih
    · rw [Explore.step_of_not_running (by simp [haborted])]
      exact .inl haborted
    · rw [← hfull]
      exact Explore.step_full _

variable {reset : World P ν → ρ → World P ν × ρ} {fuel : ℕ}

/-- The tasks that an attempt has started are in its full history. -/
theorem exploreAttempt_starts (w : World P ν) (s : ρ) :
    ∀ id ∈ R.starts (exploreAttempt R S reset fuel w s).trace.seq,
      id ∈ (exploreAttempt R S reset fuel w s).trace.full := by
  refine exploreAttempt_induction
    (Q := fun x => ∀ id ∈ R.starts x.trace.seq, id ∈ x.trace.full) (fun id hid => nomatch hid) ?_
  intro x x' hx hx' id hid
  cases hx' with
  | idle => exact hx id hid
  | finished => exact hx id hid
  | stopped => exact hx id hid
  | performed hrunning hasks ht hpermit htr =>
    obtain ⟨t', ht', -, rfl⟩ := Trace.perform_cases htr
    obtain rfl := Option.some.inj (ht.symm.trans ht')
    change id ∈ R.starts (Trace.after ..).seq at hid
    rw [Trace.after_starts ht'] at hid
    obtain hid | hid := List.mem_append.mp hid
    · exact List.mem_append_left _ (hx id hid)
    · split at hid
      · exact List.mem_append_right _ hid
      · cases hid

end Exploration

/-! ### What is reported -/

/-- The histories of a result are complete. -/
structure NonLinearizableHistory.Complete (R : Recorder P E) (history : NonLinearizableHistory E)
    (resumed : List ℕ) : Prop where
  /-- The full history lists the calls of `Resume`. -/
  full : history.full = resumed
  /-- The ordering that is read off it has all tasks that the sequential history invokes. -/
  starts : ∀ id ∈ R.starts history.seq, id ∈ getTasksOrdering history.full []

namespace StrategyScheduler

variable {V : Verifier P ν} (S : Strategy V ρ)
  (check : List (HistoryEvent P) → Bool) (policy : DeadlockPolicy) (maxTasks fuel : ℕ)

/-- `StrategyScheduler::RunRound`, if its loop is left in `n` iterations: after a deadlock whose
history is accepted, other schedules of the round may be explored. -/
def runRound (n runs : ℕ) (w : World P ν) (s : ρ) : Option (Result (HistoryEvent P)) :=
  let r := run S maxTasks w s n
  if r.status = .ended true ∧ (policy = .explore ∨ policy = .rollback) ∧ check r.trace.seq then
    (exploreRound S check policy fuel runs r.trace.world r.strategy).map Prod.fst
  else r.result ordinaryRecorder check policy none

/-- A history that `RunRound` or `ExploreRound` returns, with the calls of `Resume` it is about and
whether it is one of an exploration. -/
inductive Returned : NonLinearizableHistory (HistoryEvent P) → List ℕ → Bool → Prop
  | generated {w : World P ν} {s : ρ} {n : ℕ} {history : NonLinearizableHistory (HistoryEvent P)}
      (h : (run S maxTasks w s n).result ordinaryRecorder check policy none =
        some (some history)) : Returned history (resumed S maxTasks w s n) false
  | explored {w w' : World P ν} {s s' : ρ} {runs : ℕ}
      {history : NonLinearizableHistory (HistoryEvent P)} {x : Explore P ν ρ (HistoryEvent P)}
      (h : exploreRound S check policy fuel runs w s = some (some history, x))
      (hx : exploreAttempt ordinaryRecorder S (exploreReset S) fuel w' s' = x) :
      Returned history (exploreResumed ordinaryRecorder S (exploreReset S w' s').1
        (exploreReset S w' s').2 fuel) true

variable {S check policy maxTasks fuel} {history : NonLinearizableHistory (HistoryEvent P)}
  {x : Explore P ν ρ (HistoryEvent P)} {w : World P ν}

theorem returned_of_exploreRound {s : ρ} {runs : ℕ}
    (h : exploreRound S check policy fuel runs w s = some (some history, x)) :
    ∃ resumed, Returned S check policy maxTasks fuel history resumed true := by
  obtain ⟨w', s', -, -, hx, -⟩ := exploreRound_some (Q := fun _ => True)
    (fun _ _ _ => trivial) trivial h
  exact ⟨_, .explored h hx⟩

/-- What `RunRound` returns is returned by its own loop or by the exploration. -/
theorem returned_of_runRound {s : ρ} {n runs : ℕ}
    (h : runRound S check policy maxTasks fuel n runs w s = some (some history)) :
    ∃ resumed explored, Returned S check policy maxTasks fuel history resumed explored := by
  unfold runRound at h
  dsimp only at h
  split at h
  · obtain ⟨⟨result, x⟩, hx, rfl⟩ := Option.map_eq_some_iff.mp h
    obtain ⟨resumed, hresumed⟩ := returned_of_exploreRound hx
    exact ⟨resumed, true, hresumed⟩
  · exact ⟨_, false, .generated h⟩

theorem explored_complete {w' : World P ν} {s s' : ρ} {runs : ℕ}
    (h : exploreRound S check policy fuel runs w s = some (some history, x))
    (hx : exploreAttempt ordinaryRecorder S (exploreReset S) fuel w' s' = x) :
    history.Complete ordinaryRecorder (exploreResumed ordinaryRecorder S (exploreReset S w' s').1
      (exploreReset S w' s').2 fuel) := by
  obtain ⟨-, -, d, -, -, hstatus, hresult⟩ := exploreRound_some (Q := fun _ => True)
    (fun _ _ _ => trivial) trivial h
  obtain ⟨hfull, hseq⟩ := Explore.result_some hresult
  subst hx
  constructor
  · obtain haborted | h := explore_full (R := ordinaryRecorder) (S := S) (exploreReset S w' s').1
      (exploreReset S w' s').2 fuel
    · cases haborted.symm.trans hstatus
    · exact hfull.trans h
  · rw [getTasksOrdering_nil, hfull, hseq]
    exact exploreAttempt_starts w' s'

/-- **Which reported full histories are the executed schedules**: those of an exploration, and of
the generated rounds only those in which no task was resumed. -/
theorem returned_complete_iff {history : NonLinearizableHistory (HistoryEvent P)} {resumed : List ℕ}
    {explored : Bool} (h : Returned S check policy maxTasks fuel history resumed explored) :
    history.Complete ordinaryRecorder resumed ↔ explored = true ∨ resumed = [] := by
  cases h with
  | generated h =>
    rename_i w s n
    obtain ⟨hstatus, hfull, hseq⟩ := Round.result_some h
    have hrun := (run_unrecorded S maxTasks w s n).resolve_left hstatus
    constructor
    · intro hcomplete
      exact .inr (hcomplete.full.symm.trans (hfull.trans hrun.full))
    · intro hnone
      have hresumed : resumed S maxTasks w s n = [] := hnone.resolve_left Bool.false_ne_true
      refine ⟨(hfull.trans hrun.full).trans hresumed.symm, fun id hid => ?_⟩
      rw [hseq] at hid
      exact nomatch hresumed ▸ hrun.starts id hid
  | explored h hx => exact iff_of_true (explored_complete h hx) (.inl rfl)

/-- The exploration with the lost update reports an entry for each `Resume`. -/
theorem returned_complete_lostUpdate :
    ∃ history, Returned counterStrategy.toStrategy distinctAnswers .fail 2 5 history [0, 1, 0, 1]
        true ∧
      ordinaryRecorder.starts history.seq = [0, 1] ∧
      history.Complete ordinaryRecorder [0, 1, 0, 1] := by
  obtain ⟨history, x, hx, hattempt, hstarts⟩ : ∃ history x,
      lostUpdate = some (some history, x) ∧
        exploreAttempt ordinaryRecorder counterStrategy.toStrategy
          (exploreReset counterStrategy.toStrategy) 5 counterRound
          ⟨[counterBuilder], (), [none, none], 0⟩ = x ∧
        ordinaryRecorder.starts history.seq = [0, 1] := ⟨_, _, rfl, rfl, rfl⟩
  have hreturned : Returned counterStrategy.toStrategy distinctAnswers .fail 2 5 history
      [0, 1, 0, 1] true := .explored hx hattempt
  exact ⟨history, hreturned, hstarts, (returned_complete_iff hreturned).mpr (.inl rfl)⟩

/-- A generated round with one task is reported with an empty full history, although the task was
resumed and is invoked in the sequential history. -/
theorem generated_full_empty :
    ∃ history, runRound startAlways (fun _ => false) .fail 1 1 2 1 (World.new 1 () () ()) 0 =
        some (some history) ∧
      resumed startAlways 1 (World.new 1 () () ()) 0 2 = [0] ∧ history.full = [] ∧
      ordinaryRecorder.starts history.seq = [0] ∧ 0 ∉ getTasksOrdering history.full [] :=
  ⟨_, rfl, by decide, rfl, by decide, by decide⟩

end StrategyScheduler

end Scheduler

end LTest
