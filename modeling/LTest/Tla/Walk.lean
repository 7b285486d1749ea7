import LTest.Tla.Replay
import Mathlib.Data.List.Count
import Mathlib.Data.List.Induction

/-!
# Tasks that return at once

When every task returns at its first resume, no task is ever left unreturned: a frame is only a
thread and a constructor, and the strategy walks through pairs of numbers. `Walk` is this simpler
machine, and the strategy refines it.

## Main definitions

* `Walk`, `Walk.step` — the machine
* `Walk.Models` — the machine and the strategy are in the same state

## Main results

* `Walk.Models.step` — an iteration of the scheduler is a step of the machine
* `enumeratesOnce_iff_walk` — what the machine has to do for an enumeration
-/

namespace LTest

namespace Tla

/-! ### The machine -/

/-- Frames are pairs of a thread and a constructor; `start` is where the search starts. -/
structure Walk where
  frames : List (ℕ × ℕ) := []
  frameCounter : ℕ := 0
  start : ℕ × ℕ := (0, 0)
  startedTasks : ℕ := 0
  executed : List (List (ℕ × ℕ)) := []
  isExhausted : Bool := false

namespace Walk

/-- What the search finds: the first constructor from the start on, if it is on a thread. -/
def target (n k : ℕ) (w : Walk) : ℕ × ℕ :=
  if w.start.1 < n ∧ k ≤ w.start.2 then (w.start.1 + 1, 0) else w.start

theorem target_snd_lt {n k : ℕ} (w : Walk) (hk : 0 < k) (h : (w.target n k).1 < n) :
    (w.target n k).2 < k := by
  rw [target] at h ⊢
  split at h <;> split <;> simp_all

/-- Remove the last frame and start behind it. -/
def startNextRound (k : ℕ) (w : Walk) : Walk :=
  match w.frames.getLast? with
  | none => { w with frameCounter := 0, isExhausted := true }
  | some (t, c) =>
    { w with
      frames := w.frames.dropLast
      frameCounter := 0
      start := if w.start.2 + 1 = k then (t + 1, 0) else (t, c + 1) }

/-- The round is over. -/
def finishRound (k : ℕ) (w : Walk) : Walk :=
  { w with
    executed := w.executed ++ [w.frames.take w.frameCounter]
    startedTasks := 0 }.startNextRound k

/-- A frame is replayed. -/
def replay (w : Walk) : Walk :=
  { w with frameCounter := w.frameCounter + 1, startedTasks := w.startedTasks + 1 }

/-- A frame is found. -/
def push (w : Walk) (p : ℕ × ℕ) : Walk :=
  { w.replay with frames := w.frames ++ [p], start := (0, 0) }

/-- The search ends behind the last thread. -/
def fail (k : ℕ) (w : Walk) (p : ℕ × ℕ) : Walk :=
  if w.frames = [] then { w with start := p, startedTasks := 0 }.startNextRound k
  else { w with start := p }.startNextRound k

/-- An iteration. -/
def step (n k m : ℕ) (w : Walk) : Walk :=
  if m ≤ w.startedTasks then w.finishRound k
  else if w.frameCounter < w.frames.length then w.replay
  else if (w.target n k).1 < n then w.push (w.target n k)
  else w.fail k (w.target n k)

end Walk

/-! ### Idle threads -/

variable {resumes : List ℕ} {n m : ℕ}

/-- The thread and the constructor of a frame. -/
def Frame.pair (f : Frame) : ℕ × ℕ := (f.threadId, f.constrId)

/-- The row that starts a task. -/
def startRow (p : ℕ × ℕ) : Choice := ⟨p.1, some p.2⟩

theorem startRow_injective : Function.Injective startRow := by
  intro p q h
  simp only [startRow, Choice.mk.injEq, Option.some.injEq] at h
  exact Prod.ext h.1 h.2

theorem Frame.choice_of_isNew {f : Frame} (h : f.isNew = true) : f.choice = startRow f.pair := by
  simp [Frame.choice, startRow, Frame.pair, h]

theorem hasActive_of_returned {tasks : List Task} (h : ∀ task ∈ tasks, task.isReturned = true) :
    hasActive tasks = false := by
  cases hlast : tasks.getLast? with
  | none => simp [hasActive, hlast]
  | some task => simp [hasActive, hlast, h task (List.mem_of_getLast? hlast)]

section Once

variable (hone : ∀ r ∈ resumes, r = 1)
include hone

/-- All frames start a task, and all tasks have returned. -/
theorem Valid.returned {frames : List Frame} (h : Valid resumes frames) :
    (∀ f ∈ frames, f.isNew = true) ∧
      ∀ i, ∀ task ∈ threadsAfter resumes frames i, task.isReturned = true := by
  induction frames using List.reverseRecOn with
  | nil => simp
  | append_singleton frames f ih =>
    obtain ⟨hnew, hret⟩ := ih (h.of_isPrefix (List.prefix_append _ _))
    have hf := h frames f List.prefix_rfl
    have hisNew : f.isNew = true := by
      rw [← Bool.not_eq_false]
      intro hold
      have hactive := hf.active hold
      rw [hasActive_of_returned (hret _)] at hactive
      cases hactive
    refine ⟨fun g hg => ?_, fun i task htask => ?_⟩
    · obtain hg | hg := List.mem_append.mp hg
      · exact hnew g hg
      · rwa [List.mem_singleton.mp hg]
    · rw [threadsAfter_append_singleton, playFrame] at htask
      by_cases hi : i = f.threadId
      · subst hi
        rw [Function.update_self, hisNew, if_pos rfl] at htask
        obtain htask | htask := List.mem_append.mp htask
        · exact hret _ task htask
        · have hlt := hf.constr hisNew
          have hres := hone resumes[f.constrId] (List.getElem_mem hlt)
          rw [List.mem_singleton.mp htask]
          simp [Task.isReturned, List.getD_eq_getElem?_getD, hlt, hres]
      · rw [Function.update_of_ne hi] at htask
        exact hret i task htask

end Once

/-! ### Refinement -/

/-- The machine and the scheduler are in the same state. -/
structure Walk.Models (resumes : List ℕ) (w : Walk) (r : Run) : Prop where
  sound : r.Sound resumes
  allow : r.strategy.allowNewTasks = true
  frames : r.strategy.frames.map Frame.pair = w.frames
  frameCounter : r.strategy.frameCounter = w.frameCounter
  start : (r.strategy.startThreadId, r.strategy.startConstrId) = w.start
  startedTasks : r.startedTasks = w.startedTasks
  executed : r.executed = w.executed.map (·.map startRow)
  isExhausted : r.strategy.isExhausted = w.isExhausted

namespace Walk

variable {w : Walk} {r : Run}

theorem models_init : Models resumes {} {} :=
  ⟨⟨valid_nil, Nat.le_refl _, rfl, rfl⟩, rfl, rfl, rfl, rfl, rfl, rfl, rfl⟩

section Models

variable (h : w.Models resumes r) (hone : ∀ r ∈ resumes, r = 1)
include h hone

theorem Models.isNew : ∀ f ∈ r.strategy.frames, f.isNew = true :=
  (h.sound.valid.returned hone).1

theorem Models.returned (i : ℕ) : ∀ task ∈ r.strategy.threads i, task.isReturned = true := by
  rw [h.sound.threads]
  exact ((h.sound.valid.of_isPrefix (List.take_prefix _ _)).returned hone).2 i

/-- A round is over as soon as all tasks were started. -/
theorem Models.isOver_iff : r.IsOver n m ↔ m ≤ w.startedTasks := by
  rw [Run.IsOver, h.startedTasks, and_iff_left]
  simp only [Strategy.hasUnfinished, List.any_eq_false, List.any_eq_true, not_exists, not_and,
    Bool.not_eq_true', Bool.not_eq_false]
  exact fun i _ => h.returned hone i

theorem Models.history : r.history = (w.frames.take w.frameCounter).map startRow := by
  rw [h.sound.history, ← h.frames, ← h.frameCounter, ← List.map_take, List.map_map]
  refine List.map_congr_left fun f hf => ?_
  exact Frame.choice_of_isNew (h.isNew hone f (List.take_subset _ _ hf))

end Models

/-! ### The search over idle threads -/

section Search

variable {s : Strategy} (hidle : ∀ i, hasActive (s.threads i) = false)
  (hallow : s.allowNewTasks = true)
include hidle hallow

theorem search_idle_cons (i : ℕ) (rest : List ℕ) : s.search resumes (i :: rest) =
    if s.startConstrId < resumes.length then
      (.task i (s.threads i).length true,
        s.place resumes ⟨i, s.startConstrId, (s.threads i).length, true⟩)
    else (s.moveStart false (i + 1) 0).search resumes rest := by
  rw [Strategy.search, if_neg (by simp [hidle]), if_neg (by simp [hallow])]
  rfl

variable (hstart : (s.startThreadId, s.startConstrId) = w.start)
include hstart

theorem search_target (hpos : 0 < resumes.length) (h : (w.target n resumes.length).1 < n) :
    s.search resumes (List.range' s.startThreadId (n - s.startThreadId)) =
      let p := w.target n resumes.length
      (.task p.1 (s.threads p.1).length true,
        s.place resumes ⟨p.1, p.2, (s.threads p.1).length, true⟩) := by
  rw [target, ← hstart] at h ⊢
  have hlt : s.startThreadId < n := by
    split at h <;> omega
  obtain ⟨j, hj⟩ : ∃ j, n - s.startThreadId = j + 1 := ⟨n - s.startThreadId - 1, by omega⟩
  rw [hj, List.range'_succ, search_idle_cons hidle hallow]
  by_cases hc : s.startConstrId < resumes.length
  · rw [if_pos hc, if_neg (by simp [hc])]
  · rw [if_pos ⟨hlt, Nat.le_of_not_lt hc⟩] at h
    obtain ⟨j, rfl⟩ : ∃ j', j = j' + 1 := ⟨j - 1, by simp only at h; omega⟩
    rw [if_neg hc, List.range'_succ, search_idle_cons (s := s.moveStart false _ 0) hidle hallow,
      if_pos (show (s.moveStart false _ 0).startConstrId < resumes.length from hpos)]
    simp only [hlt, Nat.le_of_not_lt hc, and_self, if_true, Strategy.place_moveStart]
    rfl

theorem search_failed (h : ¬ (w.target n resumes.length).1 < n) :
    ∃ a, s.search resumes (List.range' s.startThreadId (n - s.startThreadId)) =
      let s' := s.moveStart a (w.target n resumes.length).1 (w.target n resumes.length).2
      if s.frames = [] then (.exhaustedInterleavings, { s' with isExhausted := true })
      else (.needReplay, s') := by
  have htarget : w.target n resumes.length =
      if s.startThreadId < n ∧ resumes.length ≤ s.startConstrId then (s.startThreadId + 1, 0)
      else (s.startThreadId, s.startConstrId) := by rw [target, ← hstart]
  by_cases hlt : s.startThreadId < n
  · by_cases hc : resumes.length ≤ s.startConstrId
    · rw [if_pos ⟨hlt, hc⟩] at htarget
      rw [htarget] at h ⊢
      have hn : n - s.startThreadId = 1 := by
        simp only at h
        omega
      refine ⟨false, ?_⟩
      rw [hn, List.range'_one, search_idle_cons hidle hallow, if_neg (Nat.not_lt_of_le hc)]
      simp only [Strategy.search, List.isEmpty_iff]
      rfl
    · rw [if_neg (by simp [hc])] at htarget
      rw [htarget] at h
      exact absurd hlt h
  · rw [if_neg (by simp [hlt])] at htarget
    refine ⟨s.atTaskCreation, ?_⟩
    rw [Nat.sub_eq_zero_of_le (Nat.le_of_not_lt hlt), htarget]
    simp only [List.range'_zero, Strategy.search, List.isEmpty_iff]
    rfl

end Search

/-! ### Iterations -/

theorem setAllowNewTasks_startNextRound (s : Strategy) :
    (s.startNextRound resumes).setAllowNewTasks true = s.startNextRound resumes := by
  have h := s.startNextRound_allowNewTasks resumes
  cases hs : s.startNextRound resumes with
  | mk =>
    rw [hs] at h
    exact congrArg (fun v => Strategy.mk _ v _ _ _ _ _ _) h.symm

theorem Models.of_startNextRound {s : Strategy} (hstrategy : r.strategy = s.startNextRound resumes)
    (hhistory : r.history = []) (hvalid : Valid resumes s.frames)
    (hnew : ∀ f ∈ s.frames, f.isNew = true) (hframes : s.frames.map Frame.pair = w.frames)
    (hstart : (s.startThreadId, s.startConstrId) = w.start)
    (hexhausted : s.frames ≠ [] → s.isExhausted = w.isExhausted)
    (hstarted : r.startedTasks = w.startedTasks)
    (hexecuted : r.executed = w.executed.map (·.map startRow)) :
    (w.startNextRound resumes.length).Models resumes r := by
  have hsound : r.Sound resumes := .of_dropLast hvalid (by simp [hstrategy]) (by simp [hstrategy])
    (by simp [hstrategy]) hhistory
  obtain hnil | ⟨frames, f, hf⟩ := List.eq_nil_or_concat' s.frames
  · have hnil' : w.frames = [] := by rw [← hframes, hnil]; rfl
    have hnext : w.startNextRound resumes.length =
        { w with frameCounter := 0, isExhausted := true } := by
      rw [startNextRound, hnil']
      rfl
    have hnext' := hstrategy.trans (Strategy.startNextRound_of_nil hnil)
    rw [hnext]
    refine ⟨hsound, by simp [hstrategy], by simp [hstrategy, hnil, hnil'], by simp [hstrategy], ?_,
      hstarted, hexecuted, ?_⟩
    · rw [hnext']
      exact hstart
    · rw [hnext']
      rfl
  · have hlast : w.frames.getLast? = some f.pair := by rw [← hframes, hf]; simp
    have hdrop : w.frames.dropLast = frames.map Frame.pair := by rw [← hframes, hf]; simp
    have hc : s.startConstrId = w.start.2 := by rw [← hstart]
    have hnext : r.strategy = _ :=
      hstrategy.trans (Strategy.startNextRound_of_new hf (hnew f (by simp [hf])))
    rw [startNextRound, hlast]
    refine ⟨hsound, by simp [hstrategy], by simp [hstrategy, hf, hdrop], by simp [hstrategy], ?_,
      hstarted, hexecuted, ?_⟩
    · rw [hnext, hc]
      split <;> rfl
    · have := hexhausted (by simp [hf])
      rw [hnext]
      split <;> exact this

section Step

variable (h : w.Models resumes r) (hone : ∀ r ∈ resumes, r = 1)
include h hone

theorem Models.finishRound :
    (w.finishRound resumes.length).Models resumes (r.finishRound resumes) := by
  refine .of_startNextRound (setAllowNewTasks_startNextRound _) rfl h.sound.valid (h.isNew hone)
    h.frames h.start (fun _ => h.isExhausted) rfl ?_
  show r.executed ++ [r.history] = (w.executed ++ [w.frames.take w.frameCounter]).map _
  rw [h.executed, h.history hone, List.map_append]
  rfl

theorem Models.replay (hlt : r.startedTasks < m) {f : Frame}
    (hf : r.strategy.frames[r.strategy.frameCounter]? = some f) :
    w.replay.Models resumes (r.played resumes m f) := by
  refine ⟨h.sound.played hf, ?_, h.frames, ?_, h.start, ?_, h.executed, h.isExhausted⟩
  · show r.allowed m = true
    rw [Run.allowed, if_neg (Nat.not_le_of_lt hlt), h.allow]
  · show r.strategy.frameCounter + 1 = w.frameCounter + 1
    rw [h.frameCounter]
  · show (if f.isNew then r.startedTasks + 1 else r.startedTasks) = w.startedTasks + 1
    rw [h.isNew hone f (List.mem_of_getElem? hf), if_pos rfl, h.startedTasks]

end Step

theorem Models.push (h : w.Models resumes r) (hlt : r.startedTasks < m) {f : Frame}
    (hlen : r.strategy.frameCounter = r.strategy.frames.length)
    (hf : ValidFrame resumes r.strategy.threads f) (hnew : f.isNew = true) :
    (w.push f.pair).Models resumes (r.extended resumes m f) := by
  refine ⟨h.sound.extended hlen hf, ?_, ?_, ?_, rfl, ?_, h.executed, h.isExhausted⟩
  · show r.allowed m = true
    rw [Run.allowed, if_neg (Nat.not_le_of_lt hlt), h.allow]
  · show (r.strategy.frames ++ [f]).map Frame.pair = w.frames ++ [f.pair]
    rw [List.map_append, h.frames]
    rfl
  · show r.strategy.frameCounter + 1 = w.frameCounter + 1
    rw [h.frameCounter]
  · show (if f.isNew then r.startedTasks + 1 else r.startedTasks) = w.startedTasks + 1
    rw [hnew, if_pos rfl, h.startedTasks]

/-- **An iteration of the scheduler is a step of the machine.** -/
theorem Models.step (h : w.Models resumes r) (hone : ∀ r ∈ resumes, r = 1)
    (hpos : 0 < resumes.length) :
    (w.step n resumes.length m).Models resumes (r.step n resumes m) := by
  have hlength : r.strategy.frames.length = w.frames.length := by
    rw [← h.frames, List.length_map]
  by_cases hover : r.IsOver n m
  · rw [Run.step_of_isOver hover, Walk.step, if_pos ((h.isOver_iff hone).mp hover)]
    exact h.finishRound hone
  have hlt : w.startedTasks < m :=
    Nat.lt_of_not_le fun hle => hover ((h.isOver_iff hone).mpr hle)
  rw [Walk.step, if_neg (Nat.not_le_of_lt hlt)]
  rw [← h.startedTasks] at hlt
  cases hf : r.strategy.frames[r.strategy.frameCounter]? with
  | some f =>
    have hcounter := (List.getElem?_eq_some_iff.mp hf).1
    rw [h.sound.step_replay hover hf, if_pos (by rw [← h.frameCounter, ← hlength]; exact hcounter)]
    exact h.replay hone hlt hf
  | none =>
    have hlen : r.strategy.frameCounter = r.strategy.frames.length :=
      Nat.le_antisymm h.sound.counter (List.getElem?_eq_none_iff.mp hf)
    rw [if_neg (by rw [← h.frameCounter, ← hlength, hlen]; exact Nat.lt_irrefl _)]
    have hidle : ∀ i, hasActive ((r.searching m).threads i) = false :=
      fun i => hasActive_of_returned (h.returned hone i)
    have hallow : (r.searching m).allowNewTasks = true := by
      show r.allowed m = true
      rw [Run.allowed, if_neg (Nat.not_le_of_lt hlt), h.allow]
    by_cases htarget : (w.target n resumes.length).1 < n
    · rw [if_pos htarget]
      have hf : ValidFrame resumes r.strategy.threads ⟨(w.target n resumes.length).1,
          (w.target n resumes.length).2,
          (r.strategy.threads (w.target n resumes.length).1).length, true⟩ :=
        ⟨fun _ => w.target_snd_lt hpos htarget, rfl, by simp⟩
      rw [Run.step_extend hover hlen hf
        (search_target (s := r.searching m) hidle hallow h.start hpos htarget)]
      exact h.push hlt hlen hf rfl
    · rw [if_neg htarget]
      obtain ⟨a, hsearch⟩ := search_failed (s := r.searching m) hidle hallow h.start htarget
      by_cases hnil : r.strategy.frames = []
      · rw [Run.step_exhaust hover hlen (hsearch.trans (if_pos hnil)), Walk.fail,
          if_pos (by rw [← h.frames, hnil]; rfl)]
        exact .of_startNextRound (setAllowNewTasks_startNextRound _) rfl h.sound.valid
          (h.isNew hone) h.frames rfl (fun hne => absurd hnil hne) rfl h.executed
      · rw [Run.step_restart hover hlen (hsearch.trans (if_neg hnil)), Walk.fail,
          if_neg (by rw [← h.frames, List.map_eq_nil_iff]; exact hnil)]
        exact .of_startNextRound rfl rfl h.sound.valid (h.isNew hone) h.frames rfl
          (fun _ => h.isExhausted) h.startedTasks h.executed

/-- The state after some steps. -/
def after (n k m steps : ℕ) : Walk := (step n k m)^[steps] {}

theorem after_succ (n k m steps : ℕ) : after n k m (steps + 1) = (after n k m steps).step n k m :=
  Function.iterate_succ_apply' ..

theorem models_after (hone : ∀ r ∈ resumes, r = 1) (hpos : 0 < resumes.length) (steps : ℕ) :
    (after n resumes.length m steps).Models resumes (Run.after n resumes m steps) := by
  induction steps with
  | zero => exact models_init
  | succ steps ih =>
    rw [after_succ, Run.after, Function.iterate_succ_apply']
    exact ih.step hone hpos

end Walk

/-! ### Schedules of tasks that return at once -/

/-- A schedule of pairs on `n` threads with `k` constructors. -/
def Bounded (n k : ℕ) (pairs : List (ℕ × ℕ)) : Prop := ∀ p ∈ pairs, p.1 < n ∧ p.2 < k

section Schedules

variable (hone : ∀ r ∈ resumes, r = 1)
include hone

theorem update_resumes {c : ℕ} (hc : c < resumes.length) (i : ℕ) :
    Function.update (fun _ => 0) i (resumes.getD c 0 - 1) = fun _ : ℕ => 0 := by
  have hres := hone resumes[c] (List.getElem_mem hc)
  funext j
  by_cases hj : j = i
  · subst hj
    simp [List.getD_eq_getElem?_getD, hc, hres]
  · rw [Function.update_of_ne hj]

/-- A schedule runs exactly if it only starts tasks. -/
theorem runSchedule_iff (schedule : List Choice) (left : ℕ → ℕ) :
    runSchedule n resumes schedule (fun _ => 0) = some left ↔
      (left = fun _ => 0) ∧ ∃ pairs, schedule = pairs.map startRow ∧
        Bounded n resumes.length pairs := by
  induction schedule with
  | nil => simp [runSchedule, Bounded, eq_comm]
  | cons choice rest ih =>
    obtain ⟨i, c⟩ := choice
    cases c with
    | none =>
      simp only [runSchedule, ne_eq, not_true_eq_false, and_false, if_false, reduceCtorEq,
        false_iff, not_and, not_exists]
      rintro - pairs hpairs
      cases pairs with
      | nil => cases hpairs
      | cons p pairs => simp [startRow] at hpairs
    | some c =>
      rw [runSchedule]
      constructor
      · intro hrun
        split at hrun
        · rename_i hc
          rw [update_resumes hone hc.2.1, ih] at hrun
          obtain ⟨hleft, pairs, hrest, hbounded⟩ := hrun
          refine ⟨hleft, (i, c) :: pairs, by rw [hrest]; rfl, ?_⟩
          exact List.forall_mem_cons.mpr ⟨⟨hc.1, hc.2.1⟩, hbounded⟩
        · cases hrun
      · rintro ⟨hleft, pairs, hpairs, hbounded⟩
        cases pairs with
        | nil => cases hpairs
        | cons p pairs =>
          simp only [List.map_cons, List.cons.injEq, startRow, Choice.mk.injEq,
            Option.some.injEq] at hpairs
          obtain ⟨⟨rfl, rfl⟩, hrest⟩ := hpairs
          obtain ⟨⟨hi, hc⟩, hbounded⟩ := List.forall_mem_cons.mp hbounded
          rw [if_pos ⟨hi, hc, rfl⟩, update_resumes hone hc, ih]
          exact ⟨hleft, pairs, hrest, hbounded⟩

theorem complete_iff (schedule : List Choice) : Complete n resumes m schedule ↔
    ∃ pairs, schedule = pairs.map startRow ∧ Bounded n resumes.length pairs ∧
      pairs.length = m := by
  have hcount : ∀ pairs : List (ℕ × ℕ),
      (pairs.map startRow).countP (fun choice => choice.constr.isSome) = pairs.length := by
    intro pairs
    simp [List.countP_map, startRow, Function.comp_def]
  simp only [Complete, runSchedule_iff hone]
  constructor
  · rintro ⟨⟨left, ⟨-, pairs, rfl, hbounded⟩, -⟩, hlength⟩
    exact ⟨pairs, rfl, hbounded, by rwa [hcount] at hlength⟩
  · rintro ⟨pairs, rfl, hbounded, hlength⟩
    exact ⟨⟨_, ⟨rfl, pairs, rfl, hbounded⟩, fun _ => rfl⟩, by rwa [hcount]⟩

/-- **What the machine has to do for an enumeration.** -/
theorem enumeratesOnce_iff_walk (hpos : 0 < resumes.length) : EnumeratesOnce n resumes m ↔
    ∃ steps, ∀ later, steps ≤ later →
      (Walk.after n resumes.length m later).isExhausted = true ∧
      ∀ pairs, Bounded n resumes.length pairs → pairs.length = m →
        (Walk.after n resumes.length m later).executed.count pairs = 1 := by
  have hinj : Function.Injective (List.map startRow) := startRow_injective.list_map
  refine exists_congr fun steps => forall₂_congr fun later _ => ?_
  have hmodels := Walk.models_after (n := n) (m := m) hone hpos later
  rw [hmodels.isExhausted, hmodels.executed]
  refine and_congr_right fun _ => ⟨fun h pairs hbounded hlength => ?_,
    fun h schedule hschedule => ?_⟩
  · rw [← List.count_map_of_injective _ _ hinj]
    exact h _ ((complete_iff hone _).mpr ⟨pairs, rfl, hbounded, hlength⟩)
  · obtain ⟨pairs, rfl, hbounded, hlength⟩ := (complete_iff hone _).mp hschedule
    rw [List.count_map_of_injective _ _ hinj]
    exact h pairs hbounded hlength

end Schedules

end Tla

end LTest
