import LTest.Scheduler.Round
import LTest.Tla.Replay

/-!
# Rounds with the TLA strategy

`TLAStrategy` is a strategy of `StrategyScheduler`. On a target whose tasks never block and return
after a number of resumes that depends on their constructor, `Run.step` says what the loops of
`RunRound` and `Run` do with it: the threads of the round are those of `Run`, and the same schedules
are executed.

## Main definitions

* `tlaStrategy` — `TLAStrategy`, on the tasks of `program`
* `Rounds.step` — one iteration of the loop of `RunRound`, with the loop of `Run` around it
* `Simulates` — a state of the scheduler shows a state of `Run`

## Main results

* `Simulates.step` — an iteration of the scheduler is an iteration of `Run`
* `enumeratesOnce_iff_rounds` — the rounds of the scheduler execute the schedules of `Run`
-/

namespace LTest

namespace Tla

open Scheduler

/-! ### The strategy -/

/-- A target whose coroutines are the tasks of this model. -/
def program : Program where
  Target := Unit
  Env := Unit
  Fiber := Task
  Args := Unit
  Val := Unit
  targetFactory _ := ((), ())
  resume _ _ task _ blocks _ :=
    (⟨{ task with left := task.left - 1 }, (), blocks, none, none, [],
      if task.left ≤ 1 then some () else none⟩, ())

/-- The builder of a constructor. -/
def builder (resumes : List ℕ) (constrId : ℕ) : TaskBuilder program :=
  ⟨"", fun _ _ => ((), ()), fun _ => ⟨constrId, resumes.getD constrId 0⟩, false⟩

/-- What a task has left to do. -/
def fiber (t : Scheduler.Task program) : Task := t.fiber

/-- The tasks of a thread. -/
def fibers (w : World program Unit) (i : ℕ) : List Task := (w.threads.getD i []).map fiber

/-- The variables of the strategy, with those of its bases as they are in the round. -/
def Strategy.view (w : World program Unit) (s : Strategy) : Strategy :=
  { s with threads := fibers w, allowNewTasks := w.allowNewTasks }

/-- `NextSchedule`. -/
def Strategy.nextSchedule (w : World program Unit) (s : Strategy) :
    Except StrategyNextScheduleFailure (ℕ × ℕ) × Strategy :=
  match s.frames[s.frameCounter]? with
  | none => (.error .deadlock, s)
  | some frame =>
    (if frame.taskIndex < (fibers w frame.threadId).length then
      .ok (frame.threadId, frame.taskIndex) else .error .deadlock, s.countFrame)

/-- `TLAStrategy`. After a failed assertion it returns a task that does not exist. -/
def tlaStrategy (resumes : List ℕ) :
    Scheduler.Strategy (P := program) (defaultStrategyTaskVerifier (ν := Unit)) Strategy where
  next w s :=
    let r := (s.view w).next w.threads.length resumes
    (match r.1 with
      | .task i j isNew => (Run.row r.2 i j isNew).constr.elim (.resume i j) fun c =>
          .start i (builder resumes c)
      | .needReplay => .failure .needReplay
      | .exhaustedInterleavings => .failure .exhaustedInterleavings
      | .assertFailed => .resume w.threads.length 0, (), r.2)
  nextSchedule w s := ((s.nextSchedule w).1, w.verifier, (s.nextSchedule w).2)
  asks _ _ := .none
  startNextRound w s := (w.verifier, s.startNextRound resumes)
  resetCurrentRound _ s := s
  resetExplorationState _ s := { s with frameCounter := 0 }

/-! ### The scheduler -/

/-- The variables of `RunRound`. -/
abbrev TlaRound := Round program Unit Strategy (HistoryEvent program)

/-- The variables of `Run` and of the round it is in, with the schedules that the rounds have
executed so far. -/
structure Rounds where
  /-- The round. -/
  round : TlaRound
  /-- The schedules. -/
  executed : List (List Choice) := []

namespace Rounds

/-- `Run` starts the next round. -/
def startNextRound (resumes : List ℕ) (q : Rounds) : Rounds :=
  let r := q.round.restart (tlaStrategy resumes)
  { q with round := .init r.trace.world r.strategy }

/-- The schedule that was executed; a row is a frame. -/
def schedule (s : Strategy) : List Choice := (s.frames.take s.frameCounter).map Frame.choice

/-- One iteration of the loop of `RunRound`; `Run` goes on if the loop is left. -/
def step (resumes : List ℕ) (maxTasks : ℕ) (q : Rounds) : Rounds :=
  let r := StrategyScheduler.step (tlaStrategy resumes) maxTasks q.round
  match r.status with
  | .ended _ => startNextRound resumes ⟨r, q.executed ++ [schedule r.strategy]⟩
  | .exhausted => startNextRound resumes ⟨r, q.executed⟩
  | _ => ⟨r, q.executed⟩

/-- The state after some iterations, from the first round on. -/
def after (n : ℕ) (resumes : List ℕ) (maxTasks steps : ℕ) : Rounds :=
  (step resumes maxTasks)^[steps] ⟨.init (.new n () () ()) {}, []⟩

end Rounds

/-! ### The threads of a round -/

variable {resumes : List ℕ} {n m i j : ℕ} {w : World program Unit} {threads : ℕ → List Task}
  {s s' : Strategy} {t : Scheduler.Task program} {r : TlaRound} {f : Frame} {q : Rounds} {x : Run}

/-- The tasks of a round are those of the threads, and they are not blocked. -/
structure Mirrors (n : ℕ) (w : World program Unit) (threads : ℕ → List Task) : Prop where
  /-- There are `n` threads. -/
  length : w.threads.length = n
  /-- The next round will have `n` threads. -/
  count : w.threadsCount = n
  /-- The tasks are the same. -/
  fibers : fibers w = threads
  /-- A task has returned when it has nothing left to do. -/
  returned : ∀ i j t, w.task? i j = some t → t.returned = (fiber t).isReturned
  /-- No task is blocked. -/
  blocks : w.blocks = {}
  /-- No task is removed. -/
  removed : w.removed = ∅

theorem fibers_getElem? (w : World program Unit) (i j : ℕ) :
    (fibers w i)[j]? = (w.task? i j).map fiber := by
  cases h : w.threads[i]? <;> simp [fibers, World.task?, Grid.get?, h]

namespace Mirrors

/-- A round without tasks. -/
theorem of_replicate (hthreads : w.threads = List.replicate n []) (hcount : w.threadsCount = n)
    (hblocks : w.blocks = {}) (hremoved : w.removed = ∅) : Mirrors n w fun _ => [] where
  length := by simp [hthreads]
  count := hcount
  fibers := by
    funext i
    by_cases hi : i < n <;> simp [Tla.fibers, hthreads, hi]
  returned i j t ht := by
    have hnone : w.task? i j = none := Grid.get?_of_forall_nil (by simp [hthreads])
    simp [hnone] at ht
  blocks := hblocks
  removed := hremoved

section

variable (h : Mirrors n w threads)
include h

theorem task? (i j : ℕ) : (w.task? i j).map fiber = (threads i)[j]? := by
  rw [← fibers_getElem?, h.fibers]

theorem rowLength (i : ℕ) : Grid.rowLength w.threads i = (threads i).length := by
  rw [← h.fibers, Tla.fibers, List.length_map, Grid.rowLength]

/-- A task is built. -/
theorem build (hi : i < n) {c : ℕ} (hc : resumes.getD c 0 ≠ 0) :
    Mirrors n (w.build i (builder resumes c))
      (Function.update threads i (threads i ++ [⟨c, resumes.getD c 0⟩])) where
  length := (Grid.length_push ..).trans h.length
  count := h.count
  fibers := by
    funext i'
    rw [← h.fibers]
    by_cases hi' : i' = i
    · subst hi'
      have hrow := h.length ▸ hi
      simp [Tla.fibers, World.build, Grid.push, hrow, World.built, Task.new, fiber, builder]
    · simp [Tla.fibers, World.build, Grid.push, Function.update_of_ne hi',
        List.getElem?_modify_ne _ _ (Ne.symm hi')]
  returned i' j' t ht := by
    obtain ⟨-, -, rfl⟩ | ht := Grid.get?_push_cases ht
    · simpa [fiber, World.built, Task.new, builder, Task.isReturned] using hc
    · exact h.returned i' j' t ht
  blocks := h.blocks
  removed := h.removed

/-- A task is changed. -/
theorem modifyTask (ht : w.task? i j = some t)
    {f : Scheduler.Task program → Scheduler.Task program} {g : Task → Task}
    (hfiber : fiber (f t) = g (fiber t)) (hreturned : (f t).returned = (fiber (f t)).isReturned) :
    Mirrors n (w.modifyTask i j f) (Function.update threads i ((threads i).modify j g)) where
  length := (Grid.length_modify _).trans h.length
  count := h.count
  fibers := by
    funext i'
    refine List.ext_getElem? fun j' => ?_
    rw [fibers_getElem?]
    by_cases hij : i' = i ∧ j' = j
    · obtain ⟨rfl, rfl⟩ := hij
      simp [← h.task?, ht, hfiber]
    · rw [World.task?_modifyTask_of_ne f hij, h.task?]
      by_cases hi : i' = i
      · subst hi
        have hj : j ≠ j' := fun hj => hij ⟨rfl, hj.symm⟩
        simp [List.getElem?_modify_ne _ _ hj]
      · rw [Function.update_of_ne hi]
  returned i' j' t' ht' := by
    by_cases hij : i' = i ∧ j' = j
    · obtain ⟨rfl, rfl⟩ := hij
      rw [World.task?_modifyTask_self, ht] at ht'
      exact Option.some.inj ht' ▸ hreturned
    · exact h.returned i' j' t' ((World.task?_modifyTask_of_ne f hij).symm.trans ht')
  blocks := h.blocks
  removed := h.removed

/-- A task makes a step. -/
theorem stepTask (ht : w.task? i j = some t) :
    Mirrors n (w.stepTask i j t) (Function.update threads i
      ((threads i).modify j fun task => { task with left := task.left - 1 })) := by
  have hreturned : Option.isSome (if (fiber t).left ≤ 1 then some () else none) =
      ((fiber t).left - 1 == 0) := by
    split <;> simp <;> omega
  exact { h.modifyTask ht (f := Task.stepped (w.stepOf i t).1 w.seqno) rfl hreturned with
    blocks := h.blocks }

end

theorem view_eq (h : Mirrors n w s.threads) (hallow : w.allowNewTasks = s.allowNewTasks) :
    s.view w = s := by
  rw [Strategy.view, h.fibers, hallow]

theorem any_eq (h : Mirrors n w s.threads) {p : Scheduler.Task program → Bool}
    (hp : ∀ t, p t = !t.returned) : (w.threads.any fun ts => ts.any p) = s.hasUnfinished n := by
  rw [Bool.eq_iff_iff, Grid.any_any_iff]
  simp only [Strategy.hasUnfinished, List.any_eq_true, List.mem_range]
  constructor
  · rintro ⟨i, j, t, ht, hpt⟩
    have hfiber := h.task? i j
    rw [World.task?, ht, Option.map_some] at hfiber
    rw [hp, h.returned i j t ht] at hpt
    exact ⟨i, h.length ▸ Grid.get?_lt ht, fiber t, List.mem_of_getElem? hfiber.symm, hpt⟩
  · rintro ⟨i, -, task, htask, hreturned⟩
    obtain ⟨j, hj⟩ := List.mem_iff_getElem?.mp htask
    rw [← h.task?] at hj
    obtain ⟨t, ht, rfl⟩ := Option.map_eq_some_iff.mp hj
    exact ⟨i, j, t, ht, by rw [hp, h.returned i j t ht, hreturned]⟩

/-- The unfinished tasks are runnable. -/
theorem getUnfinishedAndRunnable (h : Mirrors n w s.threads) :
    w.getUnfinishedAndRunnable none = (s.hasUnfinished n, s.hasUnfinished n) := by
  have hunfinished (t : Scheduler.Task program) : w.isUnfinished none t = !t.returned := by
    simp [World.isUnfinished, World.isTaskRemoved, h.removed]
  have hblocked (t : Scheduler.Task program) : w.isBlocked t = false := by
    simp [World.isBlocked, BlockManager.isBlocked, h.blocks]
  refine Prod.ext (h.any_eq hunfinished) (h.any_eq fun t => ?_)
  rw [hunfinished, hblocked, Bool.not_false, Bool.and_true]

/-- A task is performed. -/
theorem advance (h : Mirrors n r.trace.world s.threads) {task : Task}
    (htask : (s.threads i)[j]? = some task) (hreturned : task.isReturned = false) (isNew : Bool) :
    ∃ tr, r.advance defaultStrategyTaskVerifier ordinaryRecorder StrategyScheduler.prepare i j
        isNew = r.performed isNew (some tr) ∧
      tr.world.allowNewTasks = r.trace.world.allowNewTasks ∧
      Mirrors n tr.world (s.resume i j).threads := by
  rw [← h.task?] at htask
  obtain ⟨t, ht, rfl⟩ := Option.map_eq_some_iff.mp htask
  have hret := h.returned i j t ht
  have hprepare : Mirrors n (r.trace.world.modifyTask i j Task.clearWakeupCondition) s.threads := by
    have hid := h.modifyTask ht (f := Task.clearWakeupCondition) (g := id) rfl hret
    rwa [List.modify_id, Function.update_eq_self] at hid
  have ht' : (r.trace.world.modifyTask i j Task.clearWakeupCondition).task? i j =
      some t.clearWakeupCondition := by
    rw [World.task?_modifyTask_self, ht, Option.map_some]
  obtain ⟨v, hworld⟩ := Trace.after_world_eq (R := ordinaryRecorder)
    (V := defaultStrategyTaskVerifier) i j isNew t.clearWakeupCondition
    (StrategyScheduler.prepare i j r.trace)
  refine ⟨_, congrArg (r.performed isNew) (Trace.perform_eq ht' (hret.trans hreturned)), ?_, ?_⟩
  · rw [hworld]
    rfl
  · rw [hworld, ordinaryRecorder_drain]
    exact { hprepare.stepTask ht' with }

/-- The round is started again. -/
theorem restart (resumes : List ℕ) (h : Mirrors n r.trace.world threads) :
    Mirrors n (r.restart (tlaStrategy resumes)).trace.world
        (r.strategy.startNextRound resumes).threads ∧
      (r.strategy.startNextRound resumes).view (r.restart (tlaStrategy resumes)).trace.world =
        r.strategy.startNextRound resumes := by
  have hempty : Mirrors n (r.restart (tlaStrategy resumes)).trace.world
      (r.strategy.startNextRound resumes).threads := by
    rw [Strategy.startNextRound_threads]
    exact of_replicate (congrArg (List.replicate · []) h.count) h.count rfl h.removed
  refine ⟨hempty, hempty.view_eq ?_⟩
  rw [Strategy.startNextRound_allowNewTasks]
  rfl

end Mirrors

/-! ### What `Next` returns -/

/-- `Next` returns the task of a frame. -/
structure Takes (n : ℕ) (resumes : List ℕ) (s : Strategy) (f : Frame) (s' : Strategy) : Prop where
  /-- The result and the strategy after it. -/
  next : s.next n resumes = (.task f.threadId f.taskIndex f.isNew, s')
  /-- A search can produce the frame. -/
  valid : ValidFrame resumes s.threads f
  /-- The thread exists. -/
  thread : f.threadId < n
  /-- A new task was built. -/
  threads : s'.threads = (s.place resumes f).threads
  /-- New tasks are allowed as before. -/
  allowNewTasks : s'.allowNewTasks = s.allowNewTasks
  /-- There is no other new frame. -/
  frames : ∀ g ∈ s'.frames, g ∈ s.frames ∨ g = f

/-- **What `Next` returns**: the task of a frame, or a failure that leaves the frames as they
are. -/
theorem Run.Sound.next_cases (h : x.Sound resumes)
    (hthreads : ∀ f ∈ x.strategy.frames, f.threadId < n) (m : ℕ) :
    (∃ f s, Takes n resumes (x.searching m) f s) ∨
    ∃ s, s.frames = x.strategy.frames ∧ ((x.searching m).next n resumes = (.needReplay, s) ∨
      (x.searching m).next n resumes = (.exhaustedInterleavings, s)) := by
  cases hf : x.strategy.frames[x.strategy.frameCounter]? with
  | some f =>
    have hvalid := h.valid.frame hf
    rw [← h.threads] at hvalid
    refine .inl ⟨f, _, next_replay (s := x.searching m) hf hvalid, hvalid,
      hthreads f (List.mem_of_getElem? hf), ?_, ?_, ?_⟩
    · unfold Strategy.place
      split <;> rfl
    · split <;> rfl
    · split <;> exact fun g hg => .inl hg
  | none =>
    have hlen : x.strategy.frameCounter = x.strategy.frames.length :=
      Nat.le_antisymm h.counter (List.getElem?_eq_none_iff.mp hf)
    have hnext : (x.searching m).next n resumes = _ := next_search (s := x.searching m) hlen
    obtain ⟨f, hvalid, hmem, hsearch⟩ | ⟨a, i, c, hsearch⟩ :=
      (x.searching m).search_cases resumes (x.searched n)
    · have hlt : f.threadId < n := by
        have := List.mem_range'_1.mp hmem
        omega
      refine .inl ⟨f, _, hnext.trans hsearch, hvalid, hlt, rfl, ?_, ?_⟩
      · unfold Strategy.place
        split <;> rfl
      · unfold Strategy.place
        split <;> simp [Strategy.push, Strategy.build]
    · split at hsearch
      · refine .inr ⟨_, ?_, .inr (hnext.trans hsearch)⟩
        rfl
      · refine .inr ⟨_, ?_, .inl (hnext.trans hsearch)⟩
        rfl

theorem getD_ne_zero (hresumes : ∀ r ∈ resumes, 1 ≤ r) {c : ℕ} (hc : c < resumes.length) :
    resumes.getD c 0 ≠ 0 := by
  simpa [hc] using Nat.ne_of_gt (hresumes _ (List.getElem_mem hc))

namespace Takes

/-- What the strategy of the scheduler returns. -/
theorem tlaStrategy_next (h : Takes n resumes s f s') {s₀ : Strategy}
    (hlength : w.threads.length = n) (hview : s₀.view w = s) :
    (tlaStrategy resumes).next w s₀ =
      (if f.isNew then .start f.threadId (builder resumes f.constrId)
        else .resume f.threadId f.taskIndex, (), s') := by
  have hrow : Run.row s' f.threadId f.taskIndex f.isNew = f.choice := by
    rw [← Run.row_build h.valid, Run.row, Run.row, h.threads]
    rfl
  subst hlength hview
  simp only [tlaStrategy, h.next, hrow, Frame.choice]
  cases f.isNew <;> rfl

/-- The task has not returned. -/
theorem task (h : Takes n resumes s f s') (hresumes : ∀ r ∈ resumes, 1 ≤ r) :
    ∃ task, (s'.threads f.threadId)[f.taskIndex]? = some task ∧ task.isReturned = false := by
  have hindex := h.valid.index
  rw [h.threads]
  cases hnew : f.isNew with
  | true =>
    refine ⟨⟨f.constrId, resumes.getD f.constrId 0⟩, ?_, ?_⟩
    · simp [Strategy.place, Strategy.push, Strategy.build, hnew, hindex]
    · simpa [Task.isReturned] using getD_ne_zero hresumes (h.valid.constr hnew)
  | false =>
    have hactive := h.valid.active hnew
    cases hlast : (s.threads f.threadId).getLast? with
    | none => simp [hasActive, hlast] at hactive
    | some task =>
      refine ⟨task, ?_, by simpa [hasActive, hlast] using hactive⟩
      simpa [Strategy.place, Strategy.push, hnew, hindex, ← List.getLast?_eq_getElem?] using hlast

/-- The task is performed. -/
theorem follow (h : Takes n resumes s f s') (hresumes : ∀ r ∈ resumes, 1 ≤ r)
    (hmirrors : Mirrors n r.trace.world s.threads) :
    ∃ tr, r.follow ordinaryRecorder (tlaStrategy resumes) StrategyScheduler.prepare .exhausted
        (if f.isNew then .start f.threadId (builder resumes f.constrId)
          else .resume f.threadId f.taskIndex) = r.performed f.isNew (some tr) ∧
      tr.world.allowNewTasks = r.trace.world.allowNewTasks ∧
      Mirrors n tr.world (s'.resume f.threadId f.taskIndex).threads := by
  obtain ⟨task, htask, hreturned⟩ := h.task hresumes
  have hindex := h.valid.index
  have hthreads := h.threads
  cases hnew : f.isNew with
  | true =>
    have hbuilt : s'.threads = (s.build resumes f.threadId f.constrId).threads := by
      simpa [Strategy.place, Strategy.push, hnew] using hthreads
    have hbuild : Mirrors n (r.build f.threadId (builder resumes f.constrId)).trace.world
        s'.threads := by
      rw [hbuilt]
      exact hmirrors.build h.thread (getD_ne_zero hresumes (h.valid.constr hnew))
    obtain ⟨tr, htr, hallow, htr'⟩ := hbuild.advance htask hreturned true
    refine ⟨tr, ?_, hallow, htr'⟩
    rw [hnew, if_pos rfl, ← hmirrors.rowLength] at hindex
    rw [hindex] at htr
    exact htr
  | false =>
    have hsame : s'.threads = s.threads := by
      simpa [Strategy.place, Strategy.push, hnew] using hthreads
    exact Mirrors.advance (s := s') (hsame ▸ hmirrors) htask hreturned false

end Takes

/-! ### The simulation -/

/-- A state of the scheduler shows a state of `Run`. -/
structure Simulates (n : ℕ) (resumes : List ℕ) (q : Rounds) (x : Run) : Prop where
  /-- The scheduler is in the loop of `RunRound`. -/
  running : q.round.status = .running
  /-- As many tasks were started. -/
  startedTasks : q.round.startedTasks = x.startedTasks
  /-- The tasks are the same. -/
  mirrors : Mirrors n q.round.trace.world x.strategy.threads
  /-- The variables of the strategy are the same. -/
  strategy : q.round.strategy.view q.round.trace.world = x.strategy
  /-- The same schedules were executed. -/
  executed : q.executed = x.executed
  /-- The frames produce the threads. -/
  sound : x.Sound resumes
  /-- The threads of the frames exist. -/
  threads : ∀ f ∈ x.strategy.frames, f.threadId < n

namespace Simulates

/-- The round as `Next` finds it. -/
theorem limit (h : Simulates n resumes q x) (m : ℕ) :
    Mirrors n (q.round.limit m).trace.world x.strategy.threads ∧
      q.round.strategy.view (q.round.limit m).trace.world = x.searching m := by
  have hm := h.startedTasks
  by_cases hlt : q.round.startedTasks < m
  · rw [Round.limit, if_pos hlt, Run.searching, Run.allowed, if_neg (by omega)]
    exact ⟨h.mirrors, h.strategy⟩
  · rw [Round.limit, if_neg hlt, Run.searching, Run.allowed, if_pos (by omega)]
    exact ⟨{ h.mirrors with }, congrArg (Strategy.setAllowNewTasks · false) h.strategy⟩

theorem ending (h : Simulates n resumes q x) (m : ℕ) :
    q.round.ending m =
      if m ≤ x.startedTasks ∧ x.strategy.hasUnfinished n = false then some false else none := by
  have hm := h.startedTasks
  by_cases hlt : q.round.startedTasks < m
  · rw [Round.ending, if_pos hlt, if_neg (by omega)]
  · have hle : m ≤ x.startedTasks := by omega
    rw [Round.ending, if_neg hlt, h.mirrors.getUnfinishedAndRunnable]
    cases x.strategy.hasUnfinished n <;> simp [hle]

/-- `Run` starts the next round. -/
theorem startNextRound {executed : List (List Choice)} (hmirrors : Mirrors n r.trace.world threads)
    (hstrategy : r.strategy.startNextRound resumes = x.strategy.startNextRound resumes)
    (hexecuted : executed = x.executed) (hthreads : ∀ f ∈ x.strategy.frames, f.threadId < n)
    (hsound : (x.startNextRound resumes).Sound resumes) :
    Simulates n resumes (Rounds.startNextRound resumes ⟨r, executed⟩)
      (x.startNextRound resumes) := by
  obtain ⟨hrestart, hview⟩ := hmirrors.restart resumes
  rw [hstrategy] at hrestart hview
  refine ⟨rfl, rfl, { hrestart with }, ?_, hexecuted, hsound, fun f hf => ?_⟩
  · show (r.strategy.startNextRound resumes).view _ = _
    rw [hstrategy]
    exact congrArg (Strategy.setAllowNewTasks · true) hview
  · refine hthreads f (List.mem_of_mem_dropLast ?_)
    rw [← Strategy.startNextRound_frames resumes]
    exact hf

/-- The loop is left. -/
theorem step_of_isOver (h : Simulates n resumes q x) (hover : x.IsOver n m) :
    Simulates n resumes (q.step resumes m) (x.step n resumes m) := by
  have hending : q.round.ending m = some false := by
    rw [h.ending]
    exact if_pos hover
  have hstep : StrategyScheduler.step (tlaStrategy resumes) m q.round =
    (q.round.limit m).stop (.ended false) := Round.step_of_over h.running hending
  have hschedule : Rounds.schedule q.round.strategy = x.history := by
    rw [h.sound.history, ← h.strategy]
    rfl
  have hsound : (x.step n resumes m).Sound resumes := h.sound.step
  rw [Run.step_of_isOver hover] at hsound ⊢
  rw [Rounds.step, hstep]
  refine startNextRound (x := { x with executed := x.executed ++ [x.history] }) (h.limit m).1
    (.trans ?_ (congrArg (Strategy.startNextRound resumes) h.strategy)) ?_ h.threads hsound
  · rw [Round.stop, Round.limit_strategy]
    rfl
  · rw [Round.stop, Round.limit_strategy, hschedule, h.executed]

section

variable (h : Simulates n resumes q x) (hover : ¬ x.IsOver n m)
include h hover

/-- `Next` is called. -/
theorem step_of_next {a : Next program}
    (hnext : (tlaStrategy resumes).next (q.round.limit m).trace.world q.round.strategy =
      (a, (), s)) :
    StrategyScheduler.step (tlaStrategy resumes) m q.round =
      ((q.round.limit m).asked () s).follow ordinaryRecorder (tlaStrategy resumes)
        StrategyScheduler.prepare .exhausted a := by
  have hending : q.round.ending m = none := by
    rw [h.ending]
    exact if_neg hover
  refine (Round.step_of_next h.running hending).trans ?_
  rw [Round.limit_strategy, hnext]

/-- A task is performed. -/
theorem step_of_takes (hresumes : ∀ r ∈ resumes, 1 ≤ r)
    (htakes : Takes n resumes (x.searching m) f s) :
    Simulates n resumes (q.step resumes m) (x.step n resumes m) := by
  have hsound : (x.step n resumes m).Sound resumes := h.sound.step
  obtain ⟨hlimit, hview⟩ := h.limit m
  have hstep := h.step_of_next hover (htakes.tlaStrategy_next hlimit.length hview)
  obtain ⟨tr, hfollow, hallow, hmirrors⟩ :=
    htakes.follow (r := (q.round.limit m).asked () s) hresumes { hlimit with }
  rw [hfollow] at hstep
  have hrunning : (q.round.limit m).status = .running := Round.limit_status.trans h.running
  have hstarted : (q.round.limit m).startedTasks = x.startedTasks :=
    Round.limit_startedTasks.trans h.startedTasks
  have hallow' := hallow.trans ((congrArg Strategy.allowNewTasks hview).trans
    htakes.allowNewTasks.symm)
  rw [Run.step_of_not_isOver hover, Run.advance, htakes.next] at hsound ⊢
  rw [Rounds.step, hstep]
  simp only [Round.performed, Round.asked, hrunning, hstarted]
  refine ⟨rfl, rfl, hmirrors, hmirrors.view_eq hallow', h.executed, hsound, fun g hg => ?_⟩
  obtain hg | rfl := htakes.frames g hg
  · exact h.threads g hg
  · exact htakes.thread

end

/-- **An iteration of the scheduler is an iteration of `Run`.** -/
theorem step (h : Simulates n resumes q x) (hresumes : ∀ r ∈ resumes, 1 ≤ r) (m : ℕ) :
    Simulates n resumes (q.step resumes m) (x.step n resumes m) := by
  by_cases hover : x.IsOver n m
  · exact h.step_of_isOver hover
  have hsound : (x.step n resumes m).Sound resumes := h.sound.step
  obtain ⟨hlimit, hview⟩ := h.limit m
  obtain ⟨f, s, htakes⟩ | ⟨s, hframes, hnext | hnext⟩ := h.sound.next_cases h.threads m
  · exact h.step_of_takes hover hresumes htakes
  · have hstep := h.step_of_next (a := .failure .needReplay) (s := s) hover (by
      simp only [tlaStrategy, hview, hlimit.length, hnext])
    have hrunning : (q.round.limit m).status = .running := Round.limit_status.trans h.running
    obtain ⟨hmirrors, hstrategy⟩ := Mirrors.restart (n := n) (r := (q.round.limit m).asked () s)
      resumes { hlimit with }
    rw [Run.step_of_not_isOver hover, Run.advance, hnext] at hsound ⊢
    rw [Rounds.step, hstep]
    simp only [Round.follow, Round.restart, Round.asked, hrunning]
    refine ⟨rfl, Round.limit_startedTasks.trans h.startedTasks, hmirrors, hstrategy, h.executed,
      hsound, fun g hg => h.threads g ?_⟩
    rw [← hframes]
    exact List.mem_of_mem_dropLast (Strategy.startNextRound_frames resumes s ▸ hg)
  · have hstep := h.step_of_next (a := .failure .exhaustedInterleavings) (s := s) hover (by
      simp only [tlaStrategy, hview, hlimit.length, hnext])
    rw [Run.step_of_not_isOver hover, Run.advance, hnext] at hsound ⊢
    rw [Rounds.step, hstep]
    exact startNextRound (x := { x with strategy := s }) (n := n)
      (r := ((q.round.limit m).asked () s).stop .exhausted) { hlimit with } rfl h.executed
      (hframes ▸ h.threads) hsound

end Simulates

/-- Every state of the scheduler shows the state of `Run` after as many iterations. -/
theorem simulates_after (hresumes : ∀ r ∈ resumes, 1 ≤ r) (n m steps : ℕ) :
    Simulates n resumes (Rounds.after n resumes m steps) (Run.after n resumes m steps) := by
  induction steps with
  | zero =>
    have hempty : Mirrors n (World.new n () () ()) (fun _ => []) := .of_replicate rfl rfl rfl rfl
    exact ⟨rfl, rfl, { hempty with }, hempty.view_eq (s := {}) rfl, rfl,
      Run.sound_after n resumes m 0, by simp [Run.after]⟩
  | succ steps ih =>
    rw [Rounds.after, Run.after, Function.iterate_succ_apply', Function.iterate_succ_apply']
    exact ih.step hresumes m

/-- **The rounds of the scheduler execute the schedules of `Run`.** -/
theorem enumeratesOnce_iff_rounds (hresumes : ∀ r ∈ resumes, 1 ≤ r) (n m : ℕ) :
    EnumeratesOnce n resumes m ↔ ∃ steps, ∀ later, steps ≤ later →
      (Rounds.after n resumes m later).round.strategy.isExhausted = true ∧
      ∀ schedule, Complete n resumes m schedule →
        (Rounds.after n resumes m later).executed.count schedule = 1 := by
  have hexhausted (later : ℕ) : (Rounds.after n resumes m later).round.strategy.isExhausted =
      (Run.after n resumes m later).strategy.isExhausted := by
    rw [← (simulates_after hresumes n m later).strategy]
    rfl
  simp only [EnumeratesOnce, hexhausted, (simulates_after hresumes n m _).executed]

end Tla

end LTest
