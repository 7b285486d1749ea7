import LTest.Tla.Replay
import Mathlib.Data.List.Induction

/-!
# Tasks that are resumed more than once

If some task is resumed more than once, the strategy is never exhausted. The rounds come to a
schedule whose last row continues a task. `StartNextRound` removes that row, but the next round
finds it again: no new tasks are allowed there, so the flag `at_task_creation`, which should skip
the row, is ignored.

## Main definitions

* `Solo` — frames that run tasks one after another on the first thread
* `Repeating` — the states of such a run

## Main results

* `Repeating.step` — an iteration stays in these states
* `not_enumeratesOnce_of_two_le` — the schedules are not enumerated
-/

namespace LTest

namespace Tla

variable {resumes : List ℕ} {n m c₁ : ℕ}

/-! ### Frames of one thread -/

variable {frames : List Frame} {f : Frame} {threads : ℕ → List Task}

/-- Tasks of the first thread, with constructors up to `c₁`. -/
structure Solo (resumes : List ℕ) (m c₁ : ℕ) (frames : List Frame) : Prop where
  /-- The frames are valid. -/
  valid : Valid resumes frames
  /-- They are of the first thread. -/
  thread : ∀ f ∈ frames, f.threadId = 0
  /-- Their constructors are small. -/
  small : ∀ f ∈ frames, f.isNew = true → f.constrId ≤ c₁
  /-- Tasks run one after another, at most `m` of them. -/
  idle : ∀ before f, (before ++ [f]) <+: frames → f.isNew = true →
    hasActive (threadsAfter resumes before 0) = false ∧
      (threadsAfter resumes before 0).length < m

theorem solo_nil : Solo resumes m c₁ [] :=
  ⟨valid_nil, by simp, by simp, by simp⟩

theorem Solo.of_isPrefix {frames' : List Frame} (h : Solo resumes m c₁ frames)
    (hpre : frames' <+: frames) : Solo resumes m c₁ frames' where
  valid := h.valid.of_isPrefix hpre
  thread f hf := h.thread f (hpre.subset hf)
  small f hf := h.small f (hpre.subset hf)
  idle before f hf := h.idle before f (hf.trans hpre)

theorem Solo.append_singleton (h : Solo resumes m c₁ frames)
    (hf : ValidFrame resumes (threadsAfter resumes frames) f) (hthread : f.threadId = 0)
    (hnew : f.isNew = true → f.constrId ≤ c₁ ∧ hasActive (threadsAfter resumes frames 0) = false ∧
      (threadsAfter resumes frames 0).length < m) : Solo resumes m c₁ (frames ++ [f]) where
  valid := h.valid.append_singleton hf
  thread g hg := by
    obtain hg | hg := List.mem_append.mp hg
    · exact h.thread g hg
    · rw [List.mem_singleton.mp hg, hthread]
  small g hg hgnew := by
    obtain hg | hg := List.mem_append.mp hg
    · exact h.small g hg hgnew
    · obtain rfl := List.mem_singleton.mp hg
      exact (hnew hgnew).1
  idle before g hg hgnew := by
    obtain heq | hpre := List.prefix_concat_iff.mp hg
    · obtain ⟨rfl, hgf⟩ := List.append_inj' heq rfl
      obtain rfl := List.singleton_inj.mp hgf
      exact (hnew hgnew).2
    · exact h.idle before g hpre hgnew

theorem Solo.last (h : Solo resumes m c₁ (frames ++ [f])) :
    ValidFrame resumes (threadsAfter resumes frames) f ∧ f.threadId = 0 ∧
      (f.isNew = true → f.constrId ≤ c₁ ∧ hasActive (threadsAfter resumes frames 0) = false ∧
        (threadsAfter resumes frames 0).length < m) :=
  ⟨h.valid frames f List.prefix_rfl, h.thread f (by simp), fun hnew =>
    ⟨h.small f (by simp) hnew, h.idle frames f List.prefix_rfl hnew⟩⟩

theorem playFrame_zero (hf : ValidFrame resumes threads f) (hthread : f.threadId = 0) :
    (f.isNew = true ∧ playFrame resumes threads f 0 =
      threads 0 ++ [⟨f.constrId, resumes.getD f.constrId 0 - 1⟩]) ∨
    (f.isNew = false ∧ ∃ tasks task, threads 0 = tasks ++ [task] ∧ task.left ≠ 0 ∧
      playFrame resumes threads f 0 = tasks ++ [{ task with left := task.left - 1 }]) := by
  have hindex := hf.index
  cases hnew : f.isNew with
  | true => exact .inl ⟨rfl, by simp [playFrame, hthread, hnew]⟩
  | false =>
    have hactive := hf.active hnew
    rw [hthread] at hactive hindex
    obtain ⟨tasks, task, htasks⟩ := (List.eq_nil_or_concat' (threads 0)).resolve_left
      (hasActive_ne_nil hactive)
    rw [hnew, if_neg Bool.false_ne_true, htasks, List.length_append] at hindex
    rw [htasks] at hactive
    refine .inr ⟨rfl, tasks, task, htasks, by simpa [hasActive, Task.isReturned] using hactive, ?_⟩
    simp [playFrame, hthread, hnew, htasks, hindex, Run.modify_append_singleton]

theorem Solo.threads_of_ne (h : Solo resumes m c₁ frames) {i : ℕ} (hi : i ≠ 0) :
    threadsAfter resumes frames i = [] := by
  induction frames using List.reverseRecOn with
  | nil => rfl
  | append_singleton frames f ih =>
    obtain ⟨-, hthread, -⟩ := h.last
    rw [threadsAfter_append_singleton, playFrame, hthread, Function.update_of_ne hi]
    exact ih (h.of_isPrefix (List.prefix_append _ _))

/-- A thread whose last task is not active has no unreturned task, if only the last one can be. -/
theorem forall_left_eq_zero {tasks : List Task} (hret : ∀ task ∈ tasks.dropLast, task.left = 0)
    (hidle : hasActive tasks = false) : ∀ task ∈ tasks, task.left = 0 := by
  obtain rfl | ⟨tasks, last, rfl⟩ := List.eq_nil_or_concat' tasks
  · simp
  intro task htask
  rw [List.dropLast_concat] at hret
  obtain htask | htask := List.mem_append.mp htask
  · exact hret task htask
  · rw [List.mem_singleton.mp htask]
    simpa [hasActive, Task.isReturned] using hidle

/-- All tasks but the last one have returned. -/
theorem Solo.returned (h : Solo resumes m c₁ frames) :
    ∀ task ∈ (threadsAfter resumes frames 0).dropLast, task.left = 0 := by
  induction frames using List.reverseRecOn with
  | nil => simp
  | append_singleton frames f ih =>
    have hret := ih (h.of_isPrefix (List.prefix_append _ _))
    obtain ⟨hf, hthread, hnew⟩ := h.last
    rw [threadsAfter_append_singleton]
    obtain ⟨hisNew, hplay⟩ | ⟨-, tasks, task, htasks, -, hplay⟩ := playFrame_zero hf hthread
    · rw [hplay, List.dropLast_concat]
      obtain ⟨-, hidle, -⟩ := hnew hisNew
      exact forall_left_eq_zero hret hidle
    · rw [hplay, List.dropLast_concat]
      rwa [htasks, List.dropLast_concat] at hret

/-- At most `m` tasks are started. -/
theorem Solo.length_le (h : Solo resumes m c₁ frames) :
    (threadsAfter resumes frames 0).length ≤ m := by
  induction frames using List.reverseRecOn with
  | nil => simp
  | append_singleton frames f ih =>
    have hle := ih (h.of_isPrefix (List.prefix_append _ _))
    obtain ⟨hf, hthread, hnew⟩ := h.last
    rw [threadsAfter_append_singleton]
    obtain ⟨hisNew, hplay⟩ | ⟨-, tasks, task, htasks, -, hplay⟩ := playFrame_zero hf hthread
    · obtain ⟨-, -, hlt⟩ := hnew hisNew
      rw [hplay, List.length_append]
      exact hlt
    · rw [hplay, List.length_append]
      rwa [htasks, List.length_append] at hle

/-! ### Rounds -/

/-- Where a round of such a run is. It searches for new frames from the start; or it replays
frames that lack one task, and the search will start that task; or it replays frames that have
all the tasks, and the search will continue the last one. -/
inductive Phase (resumes : List ℕ) (m c₁ : ℕ) (s : Strategy) : Prop
  | searching (counter : s.frameCounter = s.frames.length) (constr : s.startConstrId = 0)
      (creation : s.atTaskCreation = false)
  | starting (idle : hasActive (threadsAfter resumes s.frames 0) = false)
      (length : (threadsAfter resumes s.frames 0).length + 1 = m) (constr : s.startConstrId ≤ c₁)
  | continuing (active : hasActive (threadsAfter resumes s.frames 0) = true)
      (length : (threadsAfter resumes s.frames 0).length = m)

/-- The states of a run that never gets beyond the first constructor with more than one resume. -/
structure Repeating (resumes : List ℕ) (m c₁ : ℕ) (r : Run) : Prop where
  sound : r.Sound resumes
  solo : Solo resumes m c₁ r.strategy.frames
  unexhausted : r.strategy.isExhausted = false
  started : r.startedTasks = (r.strategy.threads 0).length
  allow : r.startedTasks < m → r.strategy.allowNewTasks = true
  start : r.strategy.startThreadId = 0
  phase : Phase resumes m c₁ r.strategy

variable {r : Run}

theorem repeating_init : Repeating resumes m c₁ {} where
  sound := ⟨valid_nil, Nat.le_refl _, rfl, rfl⟩
  solo := solo_nil
  unexhausted := rfl
  started := rfl
  allow _ := rfl
  start := rfl
  phase := .searching rfl rfl rfl

theorem Repeating.solo_take (h : Repeating resumes m c₁ r) :
    Solo resumes m c₁ (r.strategy.frames.take r.strategy.frameCounter) :=
  h.solo.of_isPrefix (List.take_prefix _ _)

theorem Repeating.returned (h : Repeating resumes m c₁ r) :
    ∀ task ∈ (r.strategy.threads 0).dropLast, task.left = 0 := by
  rw [h.sound.threads]
  exact h.solo_take.returned

/-- When the round is over, the last task is not active. -/
theorem hasActive_of_isOver (hn : n ≠ 0) (hover : r.IsOver n m) :
    hasActive (r.strategy.threads 0) = false := by
  have hall := hover.2
  simp only [Strategy.hasUnfinished, List.any_eq_false, List.mem_range] at hall
  have hzero := hall 0 (by omega)
  cases hlast : (r.strategy.threads 0).getLast? with
  | none => simp [hasActive, hlast]
  | some task =>
    have hmem := List.mem_of_getLast? hlast
    simp only [List.any_eq_true, not_exists, not_and] at hzero
    simpa [hasActive, hlast] using hzero task hmem

/-- When the last task is not active and all tasks were started, the round is over. -/
theorem Repeating.isOver (h : Repeating resumes m c₁ r)
    (hidle : hasActive (r.strategy.threads 0) = false) (hm : m ≤ r.startedTasks) :
    r.IsOver n m := by
  refine ⟨hm, ?_⟩
  have hret := forall_left_eq_zero h.returned hidle
  simp only [Strategy.hasUnfinished, List.any_eq_false, List.any_eq_true, not_exists, not_and,
    Bool.not_eq_true', Task.isReturned]
  intro i _ task htask
  by_cases hi : i = 0
  · subst hi
    simp [hret task htask]
  · rw [h.sound.threads, h.solo_take.threads_of_ne hi] at htask
    cases htask

/-- A round ends only after a search. -/
theorem Repeating.searching_of_isOver (h : Repeating resumes m c₁ r) (hn : n ≠ 0)
    (hover : r.IsOver n m) :
    r.strategy.frameCounter = r.strategy.frames.length ∧ r.strategy.startConstrId = 0 := by
  have hidle := hasActive_of_isOver hn hover
  have hm := hover.1
  rw [h.started] at hm
  -- a frame that is left would start a task too many or continue one that has returned
  have hlen : r.strategy.frameCounter = r.strategy.frames.length := by
    refine Nat.le_antisymm h.sound.counter (Nat.le_of_not_lt fun hlt => ?_)
    have hf := List.getElem?_eq_getElem hlt
    have hpre := List.take_prefix (r.strategy.frameCounter + 1) r.strategy.frames
    rw [take_succ_of_getElem? hf] at hpre
    obtain ⟨hvalid, hthread, hnew⟩ := (h.solo.of_isPrefix hpre).last
    rw [← h.sound.threads] at hvalid hnew
    cases hisNew : (r.strategy.frames[r.strategy.frameCounter]).isNew with
    | true =>
      have := (hnew hisNew).2.2
      omega
    | false =>
      have := hvalid.active hisNew
      rw [hthread, hidle] at this
      cases this
  have hthreads := h.sound.threads
  rw [hlen, List.take_length] at hthreads
  rw [hthreads] at hm hidle
  cases h.phase with
  | searching _ hconstr _ => exact ⟨hlen, hconstr⟩
  | starting _ hlength _ => omega
  | continuing hactive _ =>
    rw [hidle] at hactive
    cases hactive

/-- The length of the first thread counts the new frames. -/
theorem length_playFrame_zero (hf : ValidFrame resumes threads f) (hthread : f.threadId = 0) :
    (playFrame resumes threads f 0).length =
      if f.isNew then (threads 0).length + 1 else (threads 0).length := by
  obtain ⟨hisNew, hplay⟩ | ⟨hisNew, tasks, task, htasks, -, hplay⟩ := playFrame_zero hf hthread
  · simp [hplay, hisNew]
  · simp [hplay, hisNew, htasks]

section

variable (h : Repeating resumes m c₁ r)
include h

/-- The counter of the started tasks after a frame of the first thread. -/
theorem Repeating.started_play (hf : ValidFrame resumes r.strategy.threads f)
    (hthread : f.threadId = 0) :
    (if f.isNew then r.startedTasks + 1 else r.startedTasks) =
      (playFrame resumes r.strategy.threads f 0).length := by
  rw [length_playFrame_zero hf hthread, h.started]

/-- New tasks stay allowed until all of them were started. -/
theorem Repeating.allowed (hlt : r.startedTasks < m) : r.allowed m = true := by
  rw [Run.allowed, if_neg (Nat.not_le_of_lt hlt), h.allow hlt]

theorem Repeating.allow_play (hlt : (if f.isNew then r.startedTasks + 1 else r.startedTasks) < m) :
    r.allowed m = true := by
  refine h.allowed ?_
  split at hlt <;> omega

theorem Repeating.played (hf : r.strategy.frames[r.strategy.frameCounter]? = some f) :
    Repeating resumes m c₁ (r.played resumes m f) := by
  have hvalid := h.sound.valid.frame hf
  rw [← h.sound.threads] at hvalid
  have hthread := h.solo.thread f (List.mem_of_getElem? hf)
  refine ⟨h.sound.played hf, h.solo, h.unexhausted, h.started_play hvalid hthread, h.allow_play,
    h.start, ?_⟩
  cases h.phase with
  | searching hcounter =>
    rw [hcounter, List.getElem?_eq_none (Nat.le_refl _)] at hf
    cases hf
  | starting hidle hlength hconstr => exact .starting hidle hlength hconstr
  | continuing hactive hlength => exact .continuing hactive hlength

theorem Repeating.extended (hlen : r.strategy.frameCounter = r.strategy.frames.length)
    (hf : ValidFrame resumes r.strategy.threads f) (hthread : f.threadId = 0)
    (hnew : f.isNew = true → f.constrId ≤ c₁ ∧ hasActive (r.strategy.threads 0) = false ∧
      r.startedTasks < m) : Repeating resumes m c₁ (r.extended resumes m f) := by
  refine ⟨h.sound.extended hlen hf, ?_, h.unexhausted, h.started_play hf hthread, h.allow_play,
    rfl, .searching ?_ rfl rfl⟩
  · rw [h.started] at hnew
    have hthreads := h.sound.threads
    rw [hlen, List.take_length] at hthreads
    rw [hthreads] at hf hnew
    exact h.solo.append_singleton hf hthread hnew
  · show r.strategy.frameCounter + 1 = (r.strategy.frames ++ [f]).length
    rw [List.length_append, hlen]
    rfl

/-- The first thread is the first one that is searched. -/
theorem Repeating.searched (hn : n ≠ 0) : r.searched n = 0 :: List.range' 1 (n - 1) := by
  obtain ⟨n, rfl⟩ := Nat.exists_eq_succ_of_ne_zero hn
  rw [Run.searched, h.start]
  rfl

/-- The search continues a task that has not returned. -/
theorem Repeating.step_of_active (hn : n ≠ 0)
    (hlen : r.strategy.frameCounter = r.strategy.frames.length)
    (hactive : hasActive (r.strategy.threads 0) = true) :
    Repeating resumes m c₁ (r.step n resumes m) := by
  have hover : ¬ r.IsOver n m := by
    intro hover
    rw [hasActive_of_isOver hn hover] at hactive
    cases hactive
  have hskip : (!r.strategy.atTaskCreation || !r.allowed m) = true := by
    have hthreads := h.sound.threads
    rw [hlen, List.take_length] at hthreads
    cases h.phase with
    | searching _ _ hcreation => rw [hcreation]; rfl
    | starting hidle =>
      rw [hthreads, hidle] at hactive
      cases hactive
    | continuing _ hlength =>
      have hm : m ≤ r.startedTasks := by
        rw [h.started, hthreads]
        exact Nat.le_of_eq hlength.symm
      rw [Run.allowed, if_pos hm]
      exact Bool.or_true _
  have hf : ValidFrame resumes r.strategy.threads
      ⟨0, 0, (r.strategy.threads 0).length - 1, false⟩ :=
    ⟨by simp, rfl, fun _ => hactive⟩
  rw [Run.step_extend hover hlen hf]
  · exact h.extended hlen hf rfl (by simp)
  · rw [h.searched hn, Strategy.search]
    exact if_pos (Bool.and_eq_true_iff.mpr ⟨hactive, hskip⟩)

/-- The search starts a task after the last one has returned. -/
theorem Repeating.step_of_idle (hn : n ≠ 0) (hc₁ : c₁ < resumes.length) (hover : ¬ r.IsOver n m)
    (hlen : r.strategy.frameCounter = r.strategy.frames.length)
    (hidle : hasActive (r.strategy.threads 0) = false) :
    Repeating resumes m c₁ (r.step n resumes m) := by
  have hlt : r.startedTasks < m := Nat.lt_of_not_le fun hm => hover (h.isOver hidle hm)
  have hallowed := h.allowed hlt
  have hconstr : r.strategy.startConstrId ≤ c₁ := by
    cases h.phase with
    | searching _ hconstr _ => omega
    | starting _ _ hconstr => exact hconstr
    | continuing hactive =>
      have hthreads := h.sound.threads
      rw [hlen, List.take_length] at hthreads
      rw [hthreads, hactive] at hidle
      cases hidle
  have hf : ValidFrame resumes r.strategy.threads
      ⟨0, r.strategy.startConstrId, (r.strategy.threads 0).length, true⟩ :=
    ⟨fun _ => Nat.lt_of_le_of_lt hconstr hc₁, rfl, by simp⟩
  rw [Run.step_extend hover hlen hf]
  · exact h.extended hlen hf rfl fun _ => ⟨hconstr, hidle, hlt⟩
  · have hactive : hasActive ((r.searching m).threads 0) = false := hidle
    have hallow : (r.searching m).allowNewTasks = true := hallowed
    have hless : (r.searching m).startConstrId < resumes.length :=
      Nat.lt_of_le_of_lt hconstr hc₁
    rw [h.searched hn, Strategy.search]
    simp only [hactive, hallow, hless, Bool.false_and, Bool.false_eq_true, if_false, if_true,
      Bool.not_true]
    rfl

/-- The next round starts with the last frame removed. -/
theorem Repeating.finishRound (hn : n ≠ 0) (hm : 1 ≤ m) (hc₁ : c₁ < resumes.length)
    (htwo : 2 ≤ resumes.getD c₁ 0) (hover : r.IsOver n m) :
    Repeating resumes m c₁ (r.finishRound resumes) := by
  obtain ⟨hlen, hconstr⟩ := h.searching_of_isOver hn hover
  have hidle := hasActive_of_isOver hn hover
  have hstarted := hover.1
  have hthreads := h.sound.threads
  rw [hlen, List.take_length] at hthreads
  rw [h.started, hthreads] at hstarted
  rw [hthreads] at hidle
  have hlength : (threadsAfter resumes r.strategy.frames 0).length = m :=
    Nat.le_antisymm h.solo.length_le hstarted
  obtain ⟨frames, f, hframes⟩ := (List.eq_nil_or_concat' r.strategy.frames).resolve_left (by
    intro hnil
    rw [hnil] at hlength
    exact Nat.ne_of_lt hm hlength)
  have hsolo := h.solo
  rw [hframes] at hsolo
  rw [hframes, threadsAfter_append_singleton] at hidle hlength
  obtain ⟨hf, hthread, hnew⟩ := hsolo.last
  have hsound : (r.finishRound resumes).Sound resumes := by
    rw [← Run.step_of_isOver hover]
    exact h.sound.step
  -- the strategy of the next round, but for the cursor
  have hnext : ∀ a c, (r.strategy.startNextRound resumes) =
      (r.strategy.restarted frames).moveStart a 0 c →
      Phase resumes m c₁ ((r.strategy.restarted frames).moveStart a 0 c) →
      Repeating resumes m c₁ (r.finishRound resumes) := by
    intro a c heq hphase
    have hstrategy : (r.finishRound resumes).strategy =
        (r.strategy.restarted frames).moveStart a 0 c :=
      congrArg (Strategy.setAllowNewTasks · true) heq
    refine ⟨hsound, ?_, ?_, ?_, fun _ => rfl, ?_, ?_⟩
    all_goals rw [hstrategy]
    · exact hsolo.of_isPrefix (List.prefix_append _ _)
    · exact h.unexhausted
    · rfl
    · rfl
    · exact hphase
  obtain ⟨hisNew, hplay⟩ | ⟨hisNew, tasks, task, htasks, -, hplay⟩ := playFrame_zero hf hthread
  · obtain ⟨hsmall, hidle', -⟩ := hnew hisNew
    rw [hplay] at hidle hlength
    -- the last task has returned after one resume
    have hone : resumes.getD f.constrId 0 - 1 = 0 := by
      simpa [hasActive, Task.isReturned] using hidle
    have hne : f.constrId ≠ c₁ := by
      rintro rfl
      omega
    refine hnext true (f.constrId + 1) ?_ (.starting hidle' ?_ ?_)
    · rw [Strategy.startNextRound_of_new hframes hisNew, if_neg (by omega), hthread]
    · rwa [List.length_append] at hlength
    · show f.constrId + 1 ≤ c₁
      omega
  · refine hnext true 0 ?_ (.continuing ?_ ?_)
    · rw [Strategy.startNextRound_of_continue hframes hisNew, hthread]
    · have hactive := hf.active hisNew
      rwa [hthread] at hactive
    · show (threadsAfter resumes frames 0).length = m
      rw [hplay, List.length_append] at hlength
      rw [htasks, List.length_append]
      exact hlength

/-- **An iteration stays in these states.** -/
theorem Repeating.step (hn : n ≠ 0) (hm : 1 ≤ m) (hc₁ : c₁ < resumes.length)
    (htwo : 2 ≤ resumes.getD c₁ 0) : Repeating resumes m c₁ (r.step n resumes m) := by
  by_cases hover : r.IsOver n m
  · rw [Run.step_of_isOver hover]
    exact h.finishRound hn hm hc₁ htwo hover
  cases hf : r.strategy.frames[r.strategy.frameCounter]? with
  | some f =>
    rw [h.sound.step_replay hover hf]
    exact h.played hf
  | none =>
    have hlen : r.strategy.frameCounter = r.strategy.frames.length :=
      Nat.le_antisymm h.sound.counter (List.getElem?_eq_none_iff.mp hf)
    cases hactive : hasActive (r.strategy.threads 0) with
    | true => exact h.step_of_active hn hlen hactive
    | false => exact h.step_of_idle hn hc₁ hover hlen hactive

end

theorem repeating_after (hn : n ≠ 0) (hm : 1 ≤ m) (hc₁ : c₁ < resumes.length)
    (htwo : 2 ≤ resumes.getD c₁ 0) (steps : ℕ) :
    Repeating resumes m c₁ (Run.after n resumes m steps) := by
  induction steps with
  | zero => exact repeating_init
  | succ steps ih =>
    rw [Run.after, Function.iterate_succ_apply']
    exact ih.step hn hm hc₁ htwo

/-- **If some task is resumed more than once, the strategy is never exhausted.** -/
theorem not_enumeratesOnce_of_two_le (hn : n ≠ 0) (hm : 1 ≤ m) (hc₁ : c₁ < resumes.length)
    (htwo : 2 ≤ resumes.getD c₁ 0) : ¬ EnumeratesOnce n resumes m := by
  rintro ⟨steps, h⟩
  have hexhausted := (h steps (Nat.le_refl _)).1
  rw [(repeating_after hn hm hc₁ htwo steps).unexhausted] at hexhausted
  cases hexhausted

end Tla

end LTest
