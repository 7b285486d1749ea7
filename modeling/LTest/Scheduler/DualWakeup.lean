import LTest.Lib.Transition
import LTest.Scheduler.DualMethod

/-!
# Dual methods and their wakers

The wrapper of a dual method that is suspended waits until a waker has run. The waker is run by any
other code: inside `await_suspend`, between two yields of the wrapper, or when the task is blocked.
Here the wrapper makes one small step at a time, so that others may do something at every place
where it can yield: it runs a part of the code of the method, and then the section under
`SchedCtxGuard` that follows.

## Main definitions

* `DualMethods.Wrapper` — the wrapper with all that it has done
* `DualMethods.Wrapper.code`, `DualMethods.Wrapper.guarded` — its steps
* `DualMethods.Acts` — what code may do with the wait state of a task
* `DualMethods.Wrapper.Reachable` — the states of a wrapper among other tasks

## Main results

* `DualMethods.Wrapper.resume_own` — a resume of the task is a sequence of small steps
* `DualMethods.Wrapper.Inv.moves` — what each move keeps
* `DualMethods.Wrapper.dual_wrapper_protocol` — the headline
-/

namespace LTest

namespace Scheduler

namespace DualMethods

variable {D : DualMethods}

/-! ### Small steps -/

/-- The code that the wrapper runs at a stage. -/
def Stage.part : D.Stage → Part
  | request => .request
  | prepare _ => .prepare
  | suspend _ _ => .suspend
  | drive _ => .drive
  | block _ => .block
  | settle => .settle
  | resume => .resume
  | leave _ => .leave

/-- Whether the follow-up was invoked before a stage. -/
def Stage.invoked : D.Stage → Bool
  | resume | leave _ => true
  | _ => false

/-- The wrapper runs the code of its stage, is at the end of it, has returned, or was left with a
`TestFailure`. -/
inductive Progress
  | runs
  | ends
  | returned
  | failed
  deriving DecidableEq

variable (D) in
/-- The wrapper of a task, with all that it has done in a frame. -/
structure Wrapper where
  /-- The stage. -/
  stage : D.Stage := .request
  /-- How far it is in its stage. -/
  progress : Progress := .runs
  /-- The frame. -/
  frame : Frame D
  /-- The address of its `DualWaitState`; nothing reads it. -/
  wait : Option ℕ := none
  /-- Whether it was suspended; nothing reads it. -/
  suspended : Bool := false

namespace Wrapper

/-- The code of a part, up to its stop. -/
def code (id i : ℕ) (x : Wrapper D) : Wrapper D :=
  let r := x.frame.run id i x.stage.part
  { x with
    frame := r.2
    progress := match r.1 with
      | .yields => .runs
      | .finishes => .ends
      | .fails => .failed }

/-- The wrapper at the beginning of a stage. -/
def enters (stage : D.Stage) (frame : Frame D) (x : Wrapper D) : Wrapper D :=
  { x with stage := stage, progress := .runs, frame := frame }

/-- What follows the code of a part. -/
def guarded (id : ℕ) (x : Wrapper D) : Wrapper D :=
  match x.stage with
  | .request =>
    if D.awaitReady x.frame.code then x.enters .resume x.frame.requestDone.followUpInvoke
    else { x.enters (.prepare x.frame.wait.1) x.frame.wait.2 with wait := some x.frame.wait.1 }
  | .prepare addr =>
    if D.emitRequestBeforeSuspend x.frame.code then
      x.enters (.suspend addr true) x.frame.requestDone
    else x.enters (.suspend addr false) x.frame
  | .suspend addr requestBeforeSuspend =>
    let done := if requestBeforeSuspend then x.frame else x.frame.requestDone
    if D.suspended x.frame.code then { x.enters (.drive addr) done with suspended := true }
    else x.enters .resume done.followUpInvoke
  | .drive addr =>
    if D.isReady x.frame.target addr then x.enters .settle x.frame
    else x.enters (.block addr) x.frame
  | .block addr =>
    let frame := x.frame.setBlocked id addr
    if D.isReady frame.target addr then x.enters .settle (frame.unblockAll addr)
    else x.enters (.drive addr) frame
  | .settle => x.enters .resume x.frame.clearWakeupCondition.followUpInvoke
  | .resume =>
    x.enters (.leave (D.value x.frame.code))
      (x.frame.emit .followUpResponse (D.value x.frame.code))
  | .leave _ => { x with progress := .returned }

/-- The wrapper makes a step. -/
inductive Own (id i : ℕ) : Wrapper D → Wrapper D → Prop
  | code {x : Wrapper D} (h : x.progress = .runs) : Own id i x (x.code id i)
  | guarded {x : Wrapper D} (h : x.progress = .ends) : Own id i x (x.guarded id)

/-! ### A resume is a sequence of small steps -/

/-- What the resume returns when the wrapper stops there. -/
inductive Stops (x : Wrapper D) : D.Resumed → Prop
  | yields (h : x.progress = .runs) : Stops x (x.frame.yields x.stage)
  | returned {v : D.Val} (h : x.progress = .returned) (hstage : x.stage = .leave v) :
      Stops x (x.frame.returns v)
  | failed (h : x.progress = .failed) : Stops x (x.frame.returns D.voidV)

end Wrapper

/-- The frame of a resume behind what was done in the resumes before. -/
def Frame.behind (fr base : Frame D) : Frame D :=
  { fr with
    block := fr.block.or base.block
    wakeup := fr.wakeup.or base.wakeup
    emitted := base.emitted ++ fr.emitted }

/-- A resume behind what was done in the resumes before. -/
def Resumed.behind (r : D.Resumed) (base : Frame D) : D.Resumed :=
  ({ r.1 with
    block := r.1.block.or base.block
    wakeup := r.1.wakeup.or base.wakeup
    emitted := base.emitted ++ r.1.emitted }, r.2)

namespace Wrapper

/-- The wrapper makes steps until it stops with the result, behind what was done before. -/
def Runs (base : Frame D) (id i : ℕ) (x : Wrapper D) (r : D.Resumed) : Prop :=
  ∃ x', Relation.ReflTransGen (Own id i) x x' ∧ x'.Stops (r.behind base)

section Runs

variable {base fr : Frame D} {id i : ℕ} {x : Wrapper D} {addr : ℕ}

theorem emit_behind (kind : DualEventKind) (v : D.Val) :
    (fr.behind base).emit kind v = (fr.emit kind v).behind base := by
  rw [Frame.emit, Frame.emit, Frame.behind, Frame.behind, List.append_assoc]

theorem requestDone_behind : (fr.behind base).requestDone = fr.requestDone.behind base :=
  emit_behind _ _

theorem followUpInvoke_behind : (fr.behind base).followUpInvoke = fr.followUpInvoke.behind base :=
  emit_behind _ _

theorem run_behind (p : Part) :
    (fr.behind base).run id i p = ((fr.run id i p).1, (fr.run id i p).2.behind base) := by
  rw [Frame.run, Frame.run, Frame.behind, Frame.behind]
  simp only [Option.or_assoc]

theorem through_runs {stage : D.Stage} {next : Frame D → D.Resumed} (hstage : x.stage = stage)
    (hruns : x.progress = .runs) (hframe : x.frame = fr.behind base)
    (hnext : ∀ (y : Wrapper D) fr, y.stage = stage → y.frame = fr.behind base →
      Runs base id i (y.guarded id) (next fr)) :
    Runs base id i x (through id i stage.part stage next fr) := by
  subst hstage
  have hown : Own id i x (x.code id i) := .code hruns
  have hrun : (fr.behind base).run id i x.stage.part = _ := run_behind x.stage.part
  rw [← hframe] at hrun
  have hcode : (x.code id i).frame = (fr.run id i x.stage.part).2.behind base := by rw [code, hrun]
  unfold through
  dsimp only
  split
  · rename_i houtcome
    have hstops : (x.code id i).Stops ((x.code id i).frame.yields x.stage) :=
      .yields (by simp only [code, hrun, houtcome])
    rw [hcode] at hstops
    exact ⟨x.code id i, .single hown, hstops⟩
  · rename_i houtcome
    have hends : (x.code id i).progress = .ends := by simp only [code, hrun, houtcome]
    obtain ⟨x', hx', hstops⟩ := hnext (x.code id i) _ rfl hcode
    exact ⟨x', .head hown (.head (.guarded hends) hx'), hstops⟩
  · rename_i houtcome
    have hstops : (x.code id i).Stops ((x.code id i).frame.returns D.voidV) :=
      .failed (by simp only [code, hrun, houtcome])
    rw [hcode] at hstops
    exact ⟨x.code id i, .single hown, hstops⟩

section Stages

variable (hruns : x.progress = .runs) (hframe : x.frame = fr.behind base)
include hruns hframe

theorem leave_runs {v : D.Val} (hstage : x.stage = .leave v) :
    Runs base id i x (leave id i v fr) := by
  refine through_runs hstage hruns hframe fun y fr hy hfr => ?_
  have hguarded : y.guarded id = { y with progress := .returned } := by rw [guarded, hy]
  have hreturns : Resumed.behind (fr.returns v) base = y.frame.returns v := by
    rw [hfr]
    rfl
  rw [hguarded]
  exact ⟨_, .refl, hreturns ▸ .returned rfl hy⟩

theorem finishFollowup_runs (hstage : x.stage = .resume) :
    Runs base id i x (finishFollowup id i fr) := by
  refine through_runs hstage hruns hframe fun y fr hy hfr => ?_
  rw [guarded, hy, hfr]
  exact leave_runs rfl (emit_behind _ _) rfl

theorem settle_runs (hstage : x.stage = .settle) : Runs base id i x (settle id i fr) := by
  refine through_runs hstage hruns hframe fun y fr hy hfr => ?_
  have hcleared : (fr.clearWakeupCondition.behind base).followUpInvoke = _ := followUpInvoke_behind
  rw [guarded, hy, hfr]
  exact finishFollowup_runs rfl hcleared rfl

theorem blockOn_runs (hstage : x.stage = .block addr) :
    Runs base id i x (blockOn id i addr fr) := by
  refine through_runs hstage hruns hframe fun y fr hy hfr => ?_
  rw [guarded, hy, hfr]
  show Runs base id i (if D.isReady fr.target addr then _ else _)
    (if D.isReady fr.target addr then _ else _)
  split
  · exact settle_runs rfl rfl rfl
  · exact ⟨_, .refl, .yields rfl⟩

theorem drive_runs (hstage : x.stage = .drive addr) : Runs base id i x (drive id i addr fr) := by
  refine through_runs hstage hruns hframe fun y fr hy hfr => ?_
  rw [guarded, hy, hfr]
  show Runs base id i (if D.isReady fr.target addr then _ else _) (if _ then _ else _)
  split
  · exact settle_runs rfl rfl rfl
  · exact blockOn_runs rfl rfl rfl

theorem suspend_runs {requestBeforeSuspend : Bool}
    (hstage : x.stage = .suspend addr requestBeforeSuspend) :
    Runs base id i x (suspend id i addr requestBeforeSuspend fr) := by
  refine through_runs hstage hruns hframe fun y fr hy hfr => ?_
  have hdone : (if requestBeforeSuspend then fr.behind base else (fr.behind base).requestDone) =
      (if requestBeforeSuspend then fr else fr.requestDone).behind base := by
    rw [requestDone_behind]
    cases requestBeforeSuspend <;> rfl
  rw [guarded, hy, hfr]
  dsimp only
  rw [hdone]
  show Runs base id i (if D.suspended fr.code then _ else _) (if _ then _ else _)
  split
  · exact drive_runs rfl rfl rfl
  · exact finishFollowup_runs rfl followUpInvoke_behind rfl

theorem prepare_runs (hstage : x.stage = .prepare addr) :
    Runs base id i x (prepare id i addr fr) := by
  refine through_runs hstage hruns hframe fun y fr hy hfr => ?_
  rw [guarded, hy, hfr]
  show Runs base id i (if D.emitRequestBeforeSuspend fr.code then _ else _) (if _ then _ else _)
  split
  · exact suspend_runs rfl requestDone_behind rfl
  · exact suspend_runs rfl rfl rfl

theorem request_runs (hstage : x.stage = .request) : Runs base id i x (request id i fr) := by
  refine through_runs hstage hruns hframe fun y fr hy hfr => ?_
  rw [guarded, hy, hfr]
  show Runs base id i (if D.awaitReady fr.code then _ else _) (if _ then _ else _)
  split
  · refine finishFollowup_runs rfl ?_ rfl
    rw [requestDone_behind]
    exact followUpInvoke_behind
  · exact prepare_runs rfl rfl rfl

/-- What was done before makes no difference for the wrapper. -/
theorem resumeStage_runs : Runs base id i x (resumeStage id i x.stage fr) := by
  cases hstage : x.stage with
  | request => exact request_runs hruns hframe hstage
  | prepare => exact prepare_runs hruns hframe hstage
  | suspend => exact suspend_runs hruns hframe hstage
  | drive => exact drive_runs hruns hframe hstage
  | block => exact blockOn_runs hruns hframe hstage
  | settle => exact settle_runs hruns hframe hstage
  | resume => exact finishFollowup_runs hruns hframe hstage
  | leave => exact leave_runs hruns hframe hstage

end Stages

end Runs

/-! ### The task in its round -/

/-- `IsBlocked` of the task. -/
def isBlocked (id : ℕ) (x : Wrapper D) : Bool :=
  x.frame.blocks.isBlocked (x.frame.block.getD 0) id &&
    (x.frame.wakeup.getD none).all fun cond => !cond x.frame.target

/-- The wrapper is that of a task of the round, at a yield or at its end. -/
structure Of {ν : Type} (x : Wrapper D) (w : World D.program ν) (t : Task D.program) : Prop where
  /-- The target is the same. -/
  target : w.target = x.frame.target
  /-- The block manager is the same. -/
  blocks : w.blocks = x.frame.blocks
  /-- What outlives the round is the same. -/
  env : w.env = x.frame.env
  /-- The block state is the same. -/
  fstate : t.fstate = x.frame.block.getD 0
  /-- The wakeup condition is the same. -/
  wakeup : t.wakeup = x.frame.wakeup.getD none
  /-- The coroutine is suspended in the stage. -/
  fiber : t.returned = false → t.fiber = .dual x.stage x.frame.code ∧ x.progress = .runs

section Of

variable {ν : Type} {x : Wrapper D} {w : World D.program ν} {t : Task D.program} {r : D.Resumed}

theorem Of.isBlocked_eq (h : x.Of w t) : w.isBlocked t = x.isBlocked t.id := by
  rw [World.isBlocked, isBlocked, h.blocks, h.fstate, h.wakeup, h.target]
  rfl

theorem Of.new {code : D.Code} (hfiber : t.fiber = .dual .request code) (hfstate : t.fstate = 0)
    (hwakeup : t.wakeup = none) :
    Of { frame := ⟨code, w.target, w.blocks, w.env, none, none, []⟩ } w t :=
  ⟨rfl, rfl, rfl, hfstate, hwakeup, fun _ => ⟨hfiber, rfl⟩⟩

theorem Of.others (h : x.Of w t) (w' : World D.program ν) : Of { x with frame :=
      { x.frame with target := w'.target, blocks := w'.blocks, env := w'.env } } w' t :=
  ⟨rfl, rfl, rfl, h.fstate, h.wakeup, h.fiber⟩

theorem Of.clears (h : x.Of w t) :
    Of { x with frame := x.frame.clearWakeupCondition } w t.clearWakeupCondition :=
  ⟨h.target, h.blocks, h.env, h.fstate, rfl, h.fiber⟩

theorem Stops.frame_eq (h : x.Stops r) : r.1.target = x.frame.target ∧
    r.1.blocks = x.frame.blocks ∧ r.2 = x.frame.env ∧ r.1.block = x.frame.block ∧
    r.1.wakeup = x.frame.wakeup ∧ r.1.emitted = x.frame.emitted := by
  cases h with
  | yields => exact ⟨rfl, rfl, rfl, rfl, rfl, rfl⟩
  | returned => exact ⟨rfl, rfl, rfl, rfl, rfl, rfl⟩
  | failed => exact ⟨rfl, rfl, rfl, rfl, rfl, rfl⟩

theorem Stops.fiber_eq (h : x.Stops r) (hret : r.1.ret = none) :
    r.1.fiber = .dual x.stage x.frame.code ∧ x.progress = .runs := by
  cases h with
  | yields h => exact ⟨rfl, h⟩
  | returned => cases hret
  | failed => cases hret

/-- **A resume of the task** is a sequence of small steps of its wrapper. -/
theorem resume_own {i j : ℕ} (h : x.Of w t) (ht : w.task? i j = some t)
    (hret : t.returned = false) :
    ∃ x' t', ∃ emitted : List (DualEventKind × Option D.Val),
      Relation.ReflTransGen (Own t.id i) x x' ∧
      (w.stepTask i j t).task? i j = some t' ∧ x'.Of (w.stepTask i j t) t' ∧
      (w.stepOf i t).1.emitted = emitted ∧ x'.frame.emitted = x.frame.emitted ++ emitted := by
  obtain ⟨hfiber, hruns⟩ := h.fiber hret
  have hframe : x.frame = Frame.behind
      ⟨x.frame.code, x.frame.target, x.frame.blocks, x.frame.env, none, none, []⟩ x.frame := by
    rw [Frame.behind, List.append_nil]
    rfl
  have hstep : w.stepOf i t = resumeStage t.id i x.stage
      ⟨x.frame.code, x.frame.target, x.frame.blocks, x.frame.env, none, none, []⟩ := by
    unfold World.stepOf
    rw [hfiber, h.target, h.blocks, h.env]
    rfl
  obtain ⟨x', hown, hstops⟩ : Runs x.frame t.id i x _ := resumeStage_runs hruns hframe
  rw [← hstep] at hstops
  obtain ⟨htarget, hblocks, henv, hblock, hwakeup, hemitted⟩ := hstops.frame_eq
  refine ⟨x', t.stepped (w.stepOf i t).1 w.seqno, _, hown, World.task?_stepTask_self ht, ?_, rfl,
    hemitted.symm⟩
  constructor
  case target => exact htarget
  case blocks => exact hblocks
  case env => exact henv
  case fstate =>
    rw [← hblock]
    show (w.stepOf i t).1.block.getD t.fstate = ((w.stepOf i t).1.block.or x.frame.block).getD 0
    rw [h.fstate]
    exact Option.getD_or.symm
  case wakeup =>
    rw [← hwakeup]
    show (w.stepOf i t).1.wakeup.getD t.wakeup =
      ((w.stepOf i t).1.wakeup.or x.frame.wakeup).getD none
    rw [h.wakeup]
    exact Option.getD_or.symm
  case fiber =>
    intro hret'
    exact hstops.fiber_eq (Option.not_isSome_iff_eq_none.1 (ne_true_of_eq_false hret'))

end Of

end Wrapper

/-! ### Wakers -/

variable {blocks : BlockManager} {id : ℕ}

theorem mem_unblockAllOn {a addr : ℕ} (h : id ∈ (blocks.unblockAllOn a).queues addr) :
    addr ≠ a ∧ id ∈ blocks.queues addr := by
  simp only [BlockManager.unblockAllOn, Function.update_apply] at h
  split at h
  · cases h
  · rename_i hne
    exact ⟨hne, h⟩

theorem mem_unblockOn {a maxWakes addr : ℕ} (h : id ∈ (blocks.unblockOn a maxWakes).2.queues addr) :
    id ∈ blocks.queues addr := by
  simp only [BlockManager.unblockOn, Function.update_apply] at h
  split at h
  · rename_i heq
    exact heq ▸ List.mem_of_mem_drop h
  · exact h

theorem mem_blockOn {a id' addr : ℕ} (h : id ∈ (blocks.blockOn a id').queues addr) :
    a = addr ∧ id' = id ∨ id ∈ blocks.queues addr := by
  simp only [BlockManager.blockOn, Function.update_apply] at h
  split at h
  · rename_i heq
    obtain hmem | hmem := List.mem_append.1 h
    · exact .inr (heq ▸ hmem)
    · exact .inl ⟨heq.symm, (List.mem_singleton.1 hmem).symm⟩
  · exact .inr h

variable (D) in
/-- A new `DualWaitState` is not ready. -/
def NewWaits : Prop :=
  ∀ target, D.isReady (D.newWaitState target).2 (D.newWaitState target).1 = false

variable (D) in
/-- What code may do while the `DualWaitState` at `addr` of the task `id` is in use. Only the waker
writes `ready`, and it unblocks the address without a yield in between. Only the wrapper puts the
task into the queue of this address. -/
inductive Acts (id addr : ℕ) (target : D.Target) (blocks : BlockManager) :
    D.Target → BlockManager → Prop
  | none : Acts id addr target blocks target blocks
  | works {target₁ target' : D.Target} {blocks₁ : BlockManager}
      (h : Acts id addr target blocks target₁ blocks₁)
      (hready : D.isReady target' addr = D.isReady target₁ addr) :
      Acts id addr target blocks target' blocks₁
  | wakes {target₁ target' : D.Target} {blocks₁ : BlockManager}
      (h : Acts id addr target blocks target₁ blocks₁) (hready : D.isReady target' addr = true) :
      Acts id addr target blocks target' (blocks₁.unblockAllOn addr)
  | setBlocked {target₁ : D.Target} {blocks₁ : BlockManager}
      (h : Acts id addr target blocks target₁ blocks₁) {a id' : ℕ}
      (hne : ¬ (a = addr ∧ id' = id)) :
      Acts id addr target blocks target₁ (blocks₁.blockOn a id')
  | unblockOn {target₁ : D.Target} {blocks₁ : BlockManager}
      (h : Acts id addr target blocks target₁ blocks₁) (a maxWakes : ℕ) :
      Acts id addr target blocks target₁ (blocks₁.unblockOn a maxWakes).2
  | unblockAllOn {target₁ : D.Target} {blocks₁ : BlockManager}
      (h : Acts id addr target blocks target₁ blocks₁) (a : ℕ) :
      Acts id addr target blocks target₁ (blocks₁.unblockAllOn a)

namespace Acts

variable {id addr : ℕ} {target target' : D.Target} {blocks blocks' : BlockManager}

theorem ready (h : D.Acts id addr target blocks target' blocks')
    (hready : D.isReady target addr = true) : D.isReady target' addr = true := by
  induction h with
  | none => exact hready
  | works _ heq ih => exact heq.trans ih
  | wakes _ heq => exact heq
  | setBlocked _ _ ih => exact ih
  | unblockOn _ _ _ ih => exact ih
  | unblockAllOn _ _ ih => exact ih

/-- After the waker the task is not in the queue. -/
theorem awake (h : D.Acts id addr target blocks target' blocks')
    (hawake : D.isReady target addr = true → id ∉ blocks.queues addr)
    (hready : D.isReady target' addr = true) : id ∉ blocks'.queues addr := by
  induction h with
  | none => exact hawake hready
  | works _ heq ih => exact ih (heq.symm.trans hready)
  | wakes => exact fun hmem => (mem_unblockAllOn hmem).1 rfl
  | setBlocked _ hne ih => exact fun hmem => (mem_blockOn hmem).elim hne (ih hready)
  | unblockOn _ a n ih => exact fun hmem => ih hready (mem_unblockOn hmem)
  | unblockAllOn _ a ih => exact fun hmem => ih hready (mem_unblockAllOn hmem).2

end Acts

namespace Wrapper

variable (D) in
/-- What happens: the wrapper makes one of its steps, other tasks do something, or the scheduler
clears the wakeup condition of the task. -/
inductive Move
  | code
  | guarded
  | others (target : D.Target) (blocks : BlockManager) (env : D.Env)
  | clears

/-- A move. -/
inductive Moves (id i : ℕ) : Wrapper D → Move D → Wrapper D → Prop
  | code {x : Wrapper D} (h : x.progress = .runs) : Moves id i x .code (x.code id i)
  | guarded {x : Wrapper D} (h : x.progress = .ends) : Moves id i x .guarded (x.guarded id)
  | others {x : Wrapper D} (target : D.Target) (blocks : BlockManager) (env : D.Env) :
      Moves id i x (.others target blocks env)
        { x with frame := { x.frame with target := target, blocks := blocks, env := env } }
  | clears {x : Wrapper D} :
      Moves id i x .clears { x with frame := x.frame.clearWakeupCondition }

/-- The code that runs uses the wait state of the wrapper only through its waker. -/
def Private (id i : ℕ) (x : Wrapper D) : Move D → Prop
  | .code => ∀ addr, x.wait = some addr → D.Acts id addr x.frame.target x.frame.blocks
      (x.code id i).frame.target (x.code id i).frame.blocks
  | .others target blocks _ => ∀ addr, x.wait = some addr →
      D.Acts id addr x.frame.target x.frame.blocks target blocks
  | _ => True

/-- The wrapper at its beginning. -/
def Initial (x : Wrapper D) : Prop :=
  x.stage = .request ∧ x.progress = .runs ∧ x.frame.emitted = [] ∧ x.wait = none ∧
    x.suspended = false

/-- The states of the wrapper of a task. -/
def Reachable (id i : ℕ) (x : Wrapper D) : Prop := Reached (Moves id i) (Private id i) Initial x

/-- The event is emitted that invokes the follow-up. -/
def invoked (x : Wrapper D) : Bool := x.frame.emitted.any (·.1 == .followUpInvoke)

/-- The waker has run. -/
def Woken (x : Wrapper D) : Prop :=
  ∃ addr, x.wait = some addr ∧ D.isReady x.frame.target addr = true

/-- What the stage says about the wait state. -/
def Located (x : Wrapper D) : D.Stage → Prop
  | .request => x.suspended = false
  | .prepare addr | .suspend addr _ => x.wait = some addr ∧ x.suspended = false
  | .drive addr | .block addr => x.wait = some addr ∧ x.suspended = true
  | .settle => x.Woken
  | .resume | .leave _ => x.suspended = true → x.Woken

/-- The invariant. -/
structure Inv (id : ℕ) (x : Wrapper D) : Prop where
  /-- The events are those of the stage. -/
  emitted : x.frame.emitted = x.stage.emitted
  /-- The wrapper returns from its last stage. -/
  returned : x.progress = .returned → ∃ v, x.stage = .leave v
  /-- The wait state is that of the stage. -/
  located : x.Located x.stage
  /-- A task whose wait state is ready is not in the queue. -/
  awake : ∀ addr, x.wait = some addr → D.isReady x.frame.target addr = true →
    id ∉ x.frame.blocks.queues addr

namespace Inv

variable {id i : ℕ} {x x' : Wrapper D}

theorem of_initial (h : x.Initial) : Inv id x where
  emitted := by rw [h.2.2.1, h.1]; rfl
  returned hret := nomatch h.2.1.symm.trans hret
  located := by rw [h.1]; exact h.2.2.2.2
  awake addr haddr := nomatch h.2.2.2.1.symm.trans haddr

theorem acts (h : Inv id x) (hstage : x'.stage = x.stage)
    (hprogress : x'.progress = .returned → x.progress = .returned)
    (hemitted : x'.frame.emitted = x.frame.emitted) (hwait : x'.wait = x.wait)
    (hsuspended : x'.suspended = x.suspended)
    (hacts : ∀ addr, x.wait = some addr → D.Acts id addr x.frame.target x.frame.blocks
      x'.frame.target x'.frame.blocks) : Inv id x' where
  emitted := by rw [hemitted, hstage, h.emitted]
  returned hret := hstage ▸ h.returned (hprogress hret)
  located := by
    have hwoken (hx : x.Woken) : x'.Woken := by
      obtain ⟨addr, haddr, hready⟩ := hx
      exact ⟨addr, hwait.trans haddr, (hacts addr haddr).ready hready⟩
    have hlocated := h.located
    rw [hstage]
    cases hx : x.stage with rw [hx] at hlocated
    | request => exact hsuspended.trans hlocated
    | prepare | suspend | drive | block =>
      exact ⟨hwait.trans hlocated.1, hsuspended.trans hlocated.2⟩
    | settle => exact hwoken hlocated
    | resume | leave => exact fun hs => hwoken (hlocated (hsuspended.symm.trans hs))
  awake addr haddr hready := by
    rw [hwait] at haddr
    exact (hacts addr haddr).awake (h.awake addr haddr) hready

theorem enters {y : Wrapper D} {stage : D.Stage} (hstage : y.stage = stage)
    (hprogress : y.progress = .runs) (hemitted : y.frame.emitted = stage.emitted)
    (hlocated : y.Located stage)
    (hawake : ∀ addr, y.wait = some addr → D.isReady y.frame.target addr = true →
      id ∉ y.frame.blocks.queues addr) : Inv id y where
  emitted := hstage ▸ hemitted
  returned hret := nomatch hprogress.symm.trans hret
  located := hstage ▸ hlocated
  awake := hawake

/-- **A guarded section.** The task is put into the queue of its wait state only here, and is taken
out again if the waker was faster. -/
theorem guarded (hnew : D.NewWaits) (h : Inv id x) : Inv id (x.guarded id) := by
  obtain ⟨stage, progress, frame, wait, suspended⟩ := x
  obtain ⟨hemitted, -, hlocated, hawake⟩ := h
  dsimp only at hemitted hlocated hawake
  rw [Wrapper.guarded]
  cases stage with
  | request =>
    dsimp only
    split
    · have hdone := emitted_requestDone (show [] ++ frame.emitted = [] from hemitted)
      exact enters rfl rfl (emitted_followUpInvoke hdone)
        (fun hs => nomatch hlocated.symm.trans hs) hawake
    · refine enters rfl rfl hemitted ⟨rfl, hlocated⟩ fun addr haddr hready => ?_
      obtain rfl := Option.some.inj haddr
      exact nomatch (hnew frame.target).symm.trans hready
  | prepare addr =>
    dsimp only
    split
    · have hdone := emitted_requestDone (show [] ++ frame.emitted = [] from hemitted)
      exact enters rfl rfl hdone hlocated hawake
    · exact enters rfl rfl hemitted hlocated hawake
  | suspend addr requestBeforeSuspend =>
    have hdone : [] ++ (if requestBeforeSuspend then frame else frame.requestDone).emitted =
        D.requested := by
      cases requestBeforeSuspend with
      | true => exact hemitted
      | false => exact emitted_requestDone (show [] ++ frame.emitted = [] from hemitted)
    have hframe : (if requestBeforeSuspend then frame else frame.requestDone).target =
          frame.target ∧
        (if requestBeforeSuspend then frame else frame.requestDone).blocks = frame.blocks := by
      cases requestBeforeSuspend with
      | true => exact ⟨rfl, rfl⟩
      | false => exact ⟨rfl, rfl⟩
    rw [← hframe.1, ← hframe.2] at hawake
    dsimp only
    split
    · exact enters rfl rfl hdone ⟨hlocated.1, rfl⟩ hawake
    · exact enters rfl rfl (emitted_followUpInvoke hdone)
        (fun hs => nomatch hlocated.2.symm.trans hs) hawake
  | drive addr =>
    dsimp only
    split
    · rename_i hready
      exact enters rfl rfl hemitted ⟨addr, hlocated.1, hready⟩ hawake
    · exact enters rfl rfl hemitted hlocated hawake
  | block addr =>
    dsimp only
    split
    · rename_i hready
      refine enters rfl rfl hemitted ⟨addr, hlocated.1, hready⟩ fun addr' haddr' _ hmem => ?_
      obtain rfl := Option.some.inj (hlocated.1.symm.trans haddr')
      exact (mem_unblockAllOn hmem).1 rfl
    · rename_i hready
      refine enters rfl rfl hemitted hlocated fun addr' haddr' hready' => ?_
      obtain rfl := Option.some.inj (hlocated.1.symm.trans haddr')
      exact absurd hready' hready
  | settle =>
    have hdone : [] ++ frame.clearWakeupCondition.emitted = D.requested := hemitted
    exact enters rfl rfl (emitted_followUpInvoke hdone) (fun _ => hlocated) hawake
  | resume =>
    refine enters rfl rfl ?_ hlocated hawake
    show frame.emitted ++ _ = _
    rw [hemitted]
    rfl
  | leave v => exact ⟨hemitted, fun _ => ⟨v, rfl⟩, hlocated, hawake⟩

/-- **Every move keeps the invariant.** -/
theorem moves (hnew : D.NewWaits) (h : Inv id x) {m : Move D} (hprivate : x.Private id i m)
    (hmoves : Moves id i x m x') : Inv id x' := by
  cases hmoves with
  | code hruns =>
    refine h.acts rfl (fun hret => ?_) rfl rfl rfl hprivate
    unfold Wrapper.code at hret
    dsimp only at hret
    split at hret <;> cases hret
  | guarded => exact h.guarded hnew
  | others target blocks env => exact h.acts rfl (fun hret => hret) rfl rfl rfl hprivate
  | clears => exact h.acts rfl (fun hret => hret) rfl rfl rfl fun _ _ => .none

theorem of_reachable (hnew : D.NewWaits) (h : Reachable id i x) : Inv id x :=
  h.invariant (fun _ => of_initial) fun _ _ _ hx hprivate hmoves => hx.moves hnew hprivate hmoves

end Inv

theorem Inv.invoked_eq {x : Wrapper D} (h : Inv id x) : x.invoked = x.stage.invoked := by
  rw [invoked, h.emitted]
  cases x.stage with
  | suspend addr requestBeforeSuspend => cases requestBeforeSuspend <;> rfl
  | _ => rfl

/-- The follow-up is invoked after a request that was not suspended, and where the wrapper leaves
its loop. -/
theorem Inv.woken {x : Wrapper D} (hnew : D.NewWaits) (h : Inv id x)
    (hsuspended : x.suspended = true) (hbefore : x.invoked = false)
    (hafter : (x.guarded id).invoked = true) : x.Woken := by
  rw [h.invoked_eq] at hbefore
  rw [(h.guarded hnew).invoked_eq, Wrapper.guarded] at hafter
  have hlocated := h.located
  cases hx : x.stage with rw [hx] at hlocated hbefore hafter
  | request => cases hlocated.symm.trans hsuspended
  | suspend => cases hlocated.2.symm.trans hsuspended
  | prepare | drive | block =>
    dsimp only at hafter
    split at hafter <;> cases hafter
  | settle => exact hlocated
  | resume | leave => cases hbefore

/-- **The protocol of dual methods**, however the awaiter behaves and whenever the waker runs: a
wrapper that returns has emitted the three events once each and in order; if it was suspended, the
follow-up is invoked only after the waker has run; and from then on the task is not blocked on the
address of its wait state. -/
theorem dual_wrapper_protocol (hnew : D.NewWaits) {id i : ℕ} {x : Wrapper D}
    (h : x.Reachable id i) :
    (x.progress = .returned → ∃ v, x.stage = .leave v ∧ x.frame.emitted = phases v) ∧
      (∀ m x', x.Private id i m → Moves id i x m x' → x.suspended = true → x.invoked = false →
        x'.invoked = true → x.Woken) ∧
      ∀ addr, x.wait = some addr → D.isReady x.frame.target addr = true →
        x.frame.block = some addr → x.isBlocked id = false := by
  have hinv : Inv id x := .of_reachable hnew h
  refine ⟨fun hret => ?_, fun m x' _ hmoves hsuspended hbefore hafter => ?_,
    fun addr haddr hready hblock => ?_⟩
  · obtain ⟨v, hv⟩ := hinv.returned hret
    exact ⟨v, hv, hinv.emitted.trans (congrArg Stage.emitted hv)⟩
  · cases hmoves with
    | guarded => exact hinv.woken hnew hsuspended hbefore hafter
    | code | others | clears => exact nomatch hbefore.symm.trans hafter
  · have hmem := hinv.awake addr haddr hready
    simp [isBlocked, hblock, BlockManager.isBlocked, hmem]

end Wrapper

/-- A method whose awaiter suspends until its waker has run. -/
def sleeper : DualMethods where
  Target := Bool
  Env := Unit
  Ordinary := Unit
  Args := Unit
  Val := Unit
  Code := Unit
  targetFactory _ := (false, ())
  ordinary _ _ _ target blocks _ := (⟨(), target, blocks, none, none, [], some ()⟩, ())
  run _ _ _ _ target blocks _ := (⟨.finishes, (), target, blocks, none⟩, ())
  awaitReady _ := false
  emitRequestBeforeSuspend _ := false
  suspended _ := true
  value _ := ()
  voidV := ()
  newWaitState _ := (1, false)
  isReady target _ := target

namespace Wrapper

/-- The next step of the wrapper of the task `0`. -/
def advance (x : Wrapper sleeper) : Wrapper sleeper :=
  match x.progress with
  | .runs => x.code 0 0
  | .ends => x.guarded 0
  | _ => x

theorem Reachable.advance {x : Wrapper sleeper} (h : x.Reachable 0 0) (n : ℕ) :
    (Wrapper.advance^[n] x).Reachable 0 0 := by
  refine Function.Iterate.rec (Reachable 0 0) h (fun x hx => ?_) n
  unfold Wrapper.advance
  split
  · rename_i hruns
    exact hx.step (m := Move.code) (fun _ _ => Acts.none) (.code hruns)
  · rename_i hends
    exact hx.step (m := Move.guarded) trivial (.guarded hends)
  · exact hx

/-- The wrapper when the task has blocked itself. -/
def asleep : Wrapper sleeper := advance^[10] { frame := ⟨(), false, {}, (), none, none, []⟩ }

/-- Another task runs the waker. -/
def awake : Wrapper sleeper :=
  { asleep with frame :=
    { asleep.frame with target := true, blocks := asleep.frame.blocks.unblockAllOn 1, env := () } }

theorem awake_reachable : awake.Reachable 0 0 := by
  have hasleep : asleep.Reachable 0 0 := Reachable.advance (.init ⟨rfl, rfl, rfl, rfl, rfl⟩) 10
  refine hasleep.step ?_ (Moves.others (D := sleeper) (x := asleep) true _ ())
  intro addr haddr
  obtain rfl : 1 = addr := Option.some.inj haddr
  exact Acts.none.wakes rfl

theorem dual_wrapper_protocol_sleeper :
    asleep.isBlocked 0 = true ∧ awake.isBlocked 0 = false ∧
      ∃ v, (advance^[8] awake).stage = .leave v ∧ (advance^[8] awake).frame.emitted = phases v :=
  ⟨rfl, (dual_wrapper_protocol (fun _ => rfl) awake_reachable).2.2 1 rfl rfl rfl,
    (dual_wrapper_protocol (fun _ => rfl) (awake_reachable.advance 8)).1 rfl⟩

end Wrapper

end DualMethods

end Scheduler

end LTest
