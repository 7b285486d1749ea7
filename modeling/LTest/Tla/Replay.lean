import LTest.Tla.Strategy

/-!
# Replaying frames

The frames of the strategy say how to get to the threads of the current round: playing them one
after another builds and resumes the same tasks. So a replay never fails its assertions, and an
iteration of the scheduler plays the next frame, finds a new one, or goes back to the start.

## Main definitions

* `playFrame`, `threadsAfter` — what a frame does to the threads
* `Valid` — the frames that a search can produce
* `Run.Sound` — the threads and the history are those of the frames that were played

## Main results

* `Strategy.search_cases` — what the search can return
* `Run.Sound.step_replay`, `Run.step_extend` — an iteration plays the next frame, or finds a new one
* `Run.sound_after` — every state of a run is sound
-/

namespace LTest

namespace Tla

/-! ### Playing frames -/

/-- What a frame does to the threads: it builds a task if it is new, and resumes it. -/
def playFrame (resumes : List ℕ) (threads : ℕ → List Task) (f : Frame) : ℕ → List Task :=
  Function.update threads f.threadId
    (if f.isNew then threads f.threadId ++ [⟨f.constrId, resumes.getD f.constrId 0 - 1⟩]
    else (threads f.threadId).modify f.taskIndex fun task => { task with left := task.left - 1 })

/-- The threads after some frames of a round. -/
def threadsAfter (resumes : List ℕ) (frames : List Frame) : ℕ → List Task :=
  frames.foldl (playFrame resumes) fun _ => []

/-- The row of a schedule that a frame stands for. -/
def Frame.choice (f : Frame) : Choice := ⟨f.threadId, if f.isNew then some f.constrId else none⟩

/-- A frame that a search can produce. -/
structure ValidFrame (resumes : List ℕ) (threads : ℕ → List Task) (f : Frame) : Prop where
  /-- A new task has a constructor. -/
  constr : f.isNew = true → f.constrId < resumes.length
  /-- It starts a task, or it continues the last task of a thread. -/
  index : f.taskIndex = if f.isNew then (threads f.threadId).length
    else (threads f.threadId).length - 1
  /-- This task has not returned. -/
  active : f.isNew = false → hasActive (threads f.threadId) = true

/-- Every frame is valid where it is played. -/
def Valid (resumes : List ℕ) (frames : List Frame) : Prop :=
  ∀ before f, (before ++ [f]) <+: frames → ValidFrame resumes (threadsAfter resumes before) f

variable {resumes : List ℕ} {n m : ℕ} {f : Frame} {frames : List Frame}

@[simp] theorem threadsAfter_nil : threadsAfter resumes [] = fun _ => [] := rfl

@[simp] theorem threadsAfter_append_singleton (frames : List Frame) (f : Frame) :
    threadsAfter resumes (frames ++ [f]) = playFrame resumes (threadsAfter resumes frames) f := by
  simp [threadsAfter]

theorem valid_nil : Valid resumes [] := by
  intro before f h
  simp at h

theorem Valid.of_isPrefix {frames' : List Frame} (h : Valid resumes frames)
    (hpre : frames' <+: frames) : Valid resumes frames' :=
  fun before f hf => h before f (hf.trans hpre)

theorem Valid.append_singleton (h : Valid resumes frames)
    (hf : ValidFrame resumes (threadsAfter resumes frames) f) : Valid resumes (frames ++ [f]) := by
  intro before g hg
  obtain hlt | heq := List.prefix_concat_iff.mp hg
  · obtain ⟨rfl, hgf⟩ := List.append_inj' hlt rfl
    obtain rfl := List.singleton_inj.mp hgf
    exact hf
  · exact h before g heq

theorem take_succ_of_getElem? {j : ℕ} (hf : frames[j]? = some f) :
    frames.take (j + 1) = frames.take j ++ [f] := by
  rw [List.take_add_one, hf]
  rfl

theorem Valid.frame (h : Valid resumes frames) {j : ℕ} (hf : frames[j]? = some f) :
    ValidFrame resumes (threadsAfter resumes (frames.take j)) f :=
  h _ f (take_succ_of_getElem? hf ▸ List.take_prefix (j + 1) frames)

theorem hasActive_ne_nil {tasks : List Task} (h : hasActive tasks = true) : tasks ≠ [] := by
  rintro rfl
  simp [hasActive] at h

/-! ### The search -/

namespace Strategy

/-- Take a new frame: build its task and append it. -/
def place (resumes : List ℕ) (s : Strategy) (f : Frame) : Strategy :=
  (if f.isNew then s.build resumes f.threadId f.constrId else s).push f

/-- The search has moved its start. -/
def moveStart (s : Strategy) (atTaskCreation : Bool) (threadId constrId : ℕ) : Strategy :=
  { s with
    atTaskCreation := atTaskCreation
    startThreadId := threadId
    startConstrId := constrId }

theorem place_moveStart (s : Strategy) (a : Bool) (i c : ℕ) (f : Frame) :
    (s.moveStart a i c).place resumes f = s.place resumes f := by
  cases hf : f.isNew <;> simp [place, moveStart, build, push, hf]

/-- **What the search can return**: a frame that is valid now, of a thread that is searched, or a
failure. -/
theorem search_cases (resumes : List ℕ) (s : Strategy) (threads : List ℕ) :
    (∃ f, ValidFrame resumes s.threads f ∧ f.threadId ∈ threads ∧
      s.search resumes threads = (.task f.threadId f.taskIndex f.isNew, s.place resumes f)) ∨
    ∃ a i c, s.search resumes threads =
      if s.frames = [] then
        (.exhaustedInterleavings, { s.moveStart a i c with isExhausted := true })
      else (.needReplay, s.moveStart a i c) := by
  induction threads generalizing s with
  | nil =>
    refine .inr ⟨s.atTaskCreation, s.startThreadId, s.startConstrId, ?_⟩
    simp only [search, List.isEmpty_iff]
    rfl
  | cons i rest ih =>
    rw [search]
    split
    · rename_i h
      refine .inl ⟨⟨i, 0, (s.threads i).length - 1, false⟩, ⟨by simp, rfl, fun _ => ?_⟩, .head _,
        rfl⟩
      exact (Bool.and_eq_true_iff.mp h).1
    split
    · obtain ⟨f, hf, hmem, hs⟩ | h := ih s
      · exact .inl ⟨f, hf, .tail _ hmem, hs⟩
      · exact .inr h
    split
    · rename_i hc
      exact .inl ⟨⟨i, s.startConstrId, (s.threads i).length, true⟩, ⟨fun _ => hc, rfl, by simp⟩,
        .head _, rfl⟩
    · obtain ⟨f, hf, hmem, hs⟩ | ⟨a, j, c, hs⟩ := ih (s.moveStart false (i + 1) 0)
      · exact .inl ⟨f, hf, .tail _ hmem, hs.trans (by rw [place_moveStart])⟩
      · exact .inr ⟨a, j, c, hs⟩

end Strategy

/-! ### Iterations -/

namespace Run

/-- Whether new tasks are allowed in this iteration. -/
def allowed (m : ℕ) (r : Run) : Bool :=
  if m ≤ r.startedTasks then false else r.strategy.allowNewTasks

/-- The strategy as `Next` finds it in this iteration. -/
def searching (m : ℕ) (r : Run) : Strategy := r.strategy.setAllowNewTasks (r.allowed m)

/-- A frame has been played. -/
def played (resumes : List ℕ) (m : ℕ) (r : Run) (f : Frame) : Run :=
  { r with
    strategy := { r.strategy with
      allowNewTasks := r.allowed m
      frameCounter := r.strategy.frameCounter + 1
      threads := playFrame resumes r.strategy.threads f }
    startedTasks := if f.isNew then r.startedTasks + 1 else r.startedTasks
    history := r.history ++ [f.choice] }

/-- A new frame has been found and played. -/
def extended (resumes : List ℕ) (m : ℕ) (r : Run) (f : Frame) : Run :=
  { r.played resumes m f with
    strategy := { (r.played resumes m f).strategy.moveStart false 0 0 with
      frames := r.strategy.frames ++ [f] } }

/-- The round is over: all its tasks were started and have returned. -/
def IsOver (n m : ℕ) (r : Run) : Prop :=
  m ≤ r.startedTasks ∧ r.strategy.hasUnfinished n = false

/-- The threads and the history are those of the frames that were played. -/
structure Sound (resumes : List ℕ) (r : Run) : Prop where
  /-- The frames are valid. -/
  valid : Valid resumes r.strategy.frames
  /-- The counter is within them. -/
  counter : r.strategy.frameCounter ≤ r.strategy.frames.length
  /-- The threads are those of the frames. -/
  threads : r.strategy.threads =
    threadsAfter resumes (r.strategy.frames.take r.strategy.frameCounter)
  /-- So is the history. -/
  history : r.history = (r.strategy.frames.take r.strategy.frameCounter).map Frame.choice

variable {r : Run} {s : Strategy}

theorem step_of_isOver (h : r.IsOver n m) : r.step n resumes m = r.finishRound resumes := by
  rw [step, if_pos h.1, h.2]
  rfl

theorem step_of_not_isOver (h : ¬ r.IsOver n m) : r.step n resumes m =
    { r with strategy := r.searching m }.advance n resumes := by
  by_cases hm : m ≤ r.startedTasks
  · have hu : r.strategy.hasUnfinished n = true := by
      rw [← Bool.not_eq_false]
      exact fun hu => h ⟨hm, hu⟩
    rw [step, if_pos hm, if_pos hu, searching, allowed, if_pos hm]
  · rw [step, if_neg hm, searching, allowed, if_neg hm]
    rfl

theorem modify_append_singleton (tasks : List Task) (task : Task) (g : Task → Task) :
    (tasks ++ [task]).modify tasks.length g = tasks ++ [g task] := by
  induction tasks with
  | nil => rfl
  | cons _ tasks ih => simpa using ih

/-- Building and resuming the task of a valid frame. -/
theorem resume_build (hf : ValidFrame resumes s.threads f) :
    ((if f.isNew then s.build resumes f.threadId f.constrId else s).resume f.threadId
      f.taskIndex) = { s with threads := playFrame resumes s.threads f } := by
  have hindex := hf.index
  cases hnew : f.isNew with
  | false => simp [Strategy.resume, playFrame, hnew]
  | true =>
    rw [hnew, if_pos rfl] at hindex
    simp [Strategy.resume, Strategy.build, playFrame, hnew, hindex, modify_append_singleton]

theorem row_build (hf : ValidFrame resumes s.threads f) :
    row (if f.isNew then s.build resumes f.threadId f.constrId else s) f.threadId f.taskIndex
      f.isNew = f.choice := by
  have hindex := hf.index
  cases hnew : f.isNew with
  | false => simp [row, Frame.choice, hnew]
  | true =>
    rw [hnew, if_pos rfl] at hindex
    simp [row, Frame.choice, Strategy.build, hnew, hindex]

/-- The assertion of the replay holds. -/
theorem taskIndex_lt (hf : ValidFrame resumes s.threads f) :
    f.taskIndex < ((if f.isNew then s.build resumes f.threadId f.constrId else s).threads
      f.threadId).length := by
  have hindex := hf.index
  cases hnew : f.isNew with
  | false =>
    rw [hnew, if_neg Bool.false_ne_true] at hindex
    have hpos := List.length_pos_iff.mpr (hasActive_ne_nil (hf.active hnew))
    simp only [Bool.false_eq_true, if_false]
    omega
  | true =>
    rw [hnew, if_pos rfl] at hindex
    simp [Strategy.build, hindex]

theorem next_replay (hf : s.frames[s.frameCounter]? = some f)
    (hvalid : ValidFrame resumes s.threads f) :
    s.next n resumes =
      (.task f.threadId f.taskIndex f.isNew,
        if f.isNew then s.countFrame.build resumes f.threadId f.constrId else s.countFrame) := by
  have hlt := taskIndex_lt (s := s.countFrame) hvalid
  rw [Strategy.next, hf]
  exact if_pos hlt

theorem next_search (hlen : s.frameCounter = s.frames.length) :
    s.next n resumes = s.search resumes (List.range' s.startThreadId (n - s.startThreadId)) := by
  rw [Strategy.next, List.getElem?_eq_none (Nat.le_of_eq hlen.symm)]

theorem Sound.step_replay (h : r.Sound resumes) (hover : ¬ r.IsOver n m)
    (hf : r.strategy.frames[r.strategy.frameCounter]? = some f) :
    r.step n resumes m = r.played resumes m f := by
  have hvalid := h.valid.frame hf
  rw [← h.threads] at hvalid
  have hnext : (r.searching m).next n resumes = _ := next_replay (s := r.searching m) hf hvalid
  have hresume := resume_build (s := (r.searching m).countFrame) hvalid
  have hrow := row_build (s := (r.searching m).countFrame) hvalid
  rw [step_of_not_isOver hover, advance, hnext]
  simp only [hresume, hrow]
  rfl

section Search

/-- The threads that are searched. -/
def searched (n : ℕ) (r : Run) : List ℕ :=
  List.range' r.strategy.startThreadId (n - r.strategy.startThreadId)

variable (hover : ¬ r.IsOver n m) (hlen : r.strategy.frameCounter = r.strategy.frames.length)
include hover hlen

theorem step_extend (hvalid : ValidFrame resumes r.strategy.threads f)
    (hsearch : (r.searching m).search resumes (r.searched n) =
      (.task f.threadId f.taskIndex f.isNew, (r.searching m).place resumes f)) :
    r.step n resumes m = r.extended resumes m f := by
  have hresume : ((r.searching m).place resumes f).resume f.threadId f.taskIndex =
      { r.searching m with threads := playFrame resumes r.strategy.threads f }.push f :=
    congrArg (Strategy.push · f) (resume_build (s := r.searching m) hvalid)
  have hrow : row ((r.searching m).place resumes f) f.threadId f.taskIndex f.isNew = f.choice :=
    row_build (s := r.searching m) hvalid
  have hnext : (r.searching m).next n resumes = _ :=
    (next_search (s := r.searching m) hlen).trans hsearch
  rw [step_of_not_isOver hover, advance, hnext]
  simp only [hresume, hrow]
  rfl

/-- The search fails, and the round is restarted. -/
theorem step_restart (hsearch : (r.searching m).search resumes (r.searched n) = (.needReplay, s)) :
    r.step n resumes m = { r with strategy := s.startNextRound resumes, history := [] } := by
  have hnext : (r.searching m).next n resumes = _ :=
    (next_search (s := r.searching m) hlen).trans hsearch
  rw [step_of_not_isOver hover, advance, hnext]

/-- The search fails, and there are no frames to replay. -/
theorem step_exhaust
    (hsearch : (r.searching m).search resumes (r.searched n) = (.exhaustedInterleavings, s)) :
    r.step n resumes m = { r with strategy := s }.startNextRound resumes := by
  have hnext : (r.searching m).next n resumes = _ :=
    (next_search (s := r.searching m) hlen).trans hsearch
  rw [step_of_not_isOver hover, advance, hnext]

end Search

/-! ### Soundness -/

theorem Sound.played (h : r.Sound resumes)
    (hf : r.strategy.frames[r.strategy.frameCounter]? = some f) :
    (r.played resumes m f).Sound resumes where
  valid := h.valid
  counter := (List.getElem?_eq_some_iff.mp hf).1
  threads := by
    show playFrame resumes r.strategy.threads f = threadsAfter resumes
      (r.strategy.frames.take (r.strategy.frameCounter + 1))
    rw [take_succ_of_getElem? hf, threadsAfter_append_singleton, ← h.threads]
  history := by
    show r.history ++ [f.choice] =
      (r.strategy.frames.take (r.strategy.frameCounter + 1)).map Frame.choice
    rw [take_succ_of_getElem? hf, List.map_append, ← h.history]
    rfl

theorem Sound.extended (h : r.Sound resumes)
    (hlen : r.strategy.frameCounter = r.strategy.frames.length)
    (hf : ValidFrame resumes r.strategy.threads f) : (r.extended resumes m f).Sound resumes := by
  have htake : (r.strategy.frames ++ [f]).take (r.strategy.frameCounter + 1) =
      r.strategy.frames ++ [f] := List.take_of_length_le (by simp [hlen])
  have hthreads := h.threads
  have hhistory := h.history
  rw [hlen, List.take_length] at hthreads hhistory
  refine ⟨h.valid.append_singleton (hthreads ▸ hf), ?_, ?_, ?_⟩
  · show r.strategy.frameCounter + 1 ≤ (r.strategy.frames ++ [f]).length
    simp [hlen]
  · show playFrame resumes r.strategy.threads f = threadsAfter resumes
      ((r.strategy.frames ++ [f]).take (r.strategy.frameCounter + 1))
    rw [htake, threadsAfter_append_singleton, ← hthreads]
  · show r.history ++ [f.choice] =
      ((r.strategy.frames ++ [f]).take (r.strategy.frameCounter + 1)).map Frame.choice
    rw [htake, List.map_append, ← hhistory]
    rfl

end Run

section

variable (resumes) (s : Strategy)

@[simp] theorem Strategy.startNextRound_threads :
    (s.startNextRound resumes).threads = fun _ => [] := by
  simp only [startNextRound]
  repeat' split
  all_goals rfl

@[simp] theorem Strategy.startNextRound_frameCounter :
    (s.startNextRound resumes).frameCounter = 0 := by
  simp only [startNextRound]
  repeat' split
  all_goals rfl

@[simp] theorem Strategy.startNextRound_allowNewTasks :
    (s.startNextRound resumes).allowNewTasks = true := by
  simp only [startNextRound]
  repeat' split
  all_goals rfl

@[simp] theorem Strategy.startNextRound_frames :
    (s.startNextRound resumes).frames = s.frames.dropLast := by
  simp only [startNextRound]
  split
  · rename_i h
    have hnil : s.frames = [] := List.getLast?_eq_none_iff.mp h
    simp [setAllowNewTasks, hnil]
  · repeat' split
    all_goals rfl

end

/-- The round starts again, with these frames to be replayed. -/
def Strategy.restarted (s : Strategy) (frames : List Frame) : Strategy :=
  { s with
    allowNewTasks := true
    threads := fun _ => []
    frameCounter := 0
    frames := frames }

/-- No schedule is left. -/
def Strategy.exhaust (s : Strategy) : Strategy := { s with isExhausted := true }

variable {s : Strategy}

theorem Strategy.startNextRound_of_nil (hframes : s.frames = []) :
    s.startNextRound resumes = (s.restarted []).exhaust := by
  simp [startNextRound, setAllowNewTasks, hframes, restarted, exhaust]

/-- The search of the next round starts a new task instead of continuing the last one. -/
theorem Strategy.startNextRound_of_continue (hframes : s.frames = frames ++ [f])
    (hf : f.isNew = false) :
    s.startNextRound resumes = (s.restarted frames).moveStart true f.threadId 0 := by
  simp [startNextRound, setAllowNewTasks, hframes, hf, restarted, moveStart]

/-- The search of the next round starts at the next constructor, or at the next thread. The cursor
decides which, not the constructor of the frame. -/
theorem Strategy.startNextRound_of_new (hframes : s.frames = frames ++ [f]) (hf : f.isNew = true) :
    s.startNextRound resumes =
      if s.startConstrId + 1 = resumes.length then
        (s.restarted frames).moveStart false (f.threadId + 1) 0
      else (s.restarted frames).moveStart true f.threadId (f.constrId + 1) := by
  simp [startNextRound, setAllowNewTasks, hframes, hf, restarted, moveStart]

namespace Run

variable {r : Run}

theorem Sound.of_dropLast (h : Valid resumes frames) {r' : Run}
    (hframes : r'.strategy.frames = frames.dropLast) (hcounter : r'.strategy.frameCounter = 0)
    (hthreads : r'.strategy.threads = fun _ => []) (hhistory : r'.history = []) :
    r'.Sound resumes where
  valid := hframes ▸ h.of_isPrefix (List.dropLast_prefix _)
  counter := by omega
  threads := by rw [hthreads, hcounter]; rfl
  history := by rw [hhistory, hcounter]; rfl

theorem Sound.step (h : r.Sound resumes) : (r.step n resumes m).Sound resumes := by
  by_cases hover : r.IsOver n m
  · rw [step_of_isOver hover]
    exact .of_dropLast h.valid (Strategy.startNextRound_frames ..)
      (Strategy.startNextRound_frameCounter ..) (Strategy.startNextRound_threads ..) rfl
  cases hf : r.strategy.frames[r.strategy.frameCounter]? with
  | some f =>
    rw [h.step_replay hover hf]
    exact h.played hf
  | none =>
    have hlen : r.strategy.frameCounter = r.strategy.frames.length :=
      Nat.le_antisymm h.counter (List.getElem?_eq_none_iff.mp hf)
    obtain ⟨f, hvalid, -, hsearch⟩ | ⟨a, i, c, hsearch⟩ :=
      (r.searching m).search_cases resumes (r.searched n)
    · rw [step_extend hover hlen hvalid hsearch]
      exact h.extended hlen hvalid
    · split at hsearch
      · rw [step_exhaust hover hlen hsearch]
        exact .of_dropLast h.valid (Strategy.startNextRound_frames ..)
          (Strategy.startNextRound_frameCounter ..) (Strategy.startNextRound_threads ..) rfl
      · rw [step_restart hover hlen hsearch]
        exact .of_dropLast h.valid (Strategy.startNextRound_frames ..)
          (Strategy.startNextRound_frameCounter ..) (Strategy.startNextRound_threads ..) rfl

/-- **Every state of a run is sound.** -/
theorem sound_after (n : ℕ) (resumes : List ℕ) (m steps : ℕ) :
    (after n resumes m steps).Sound resumes := by
  induction steps with
  | zero => exact ⟨valid_nil, Nat.le_refl _, rfl, rfl⟩
  | succ steps ih =>
    rw [after, Function.iterate_succ_apply']
    exact ih.step

end Run

end Tla

end LTest
