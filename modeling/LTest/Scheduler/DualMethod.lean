import LTest.Scheduler.Task

/-!
# Dual methods

`TargetDualMethod` wraps a method that returns an awaiter. The wrapper awaits it by hand, and emits
a dual event where the request is done, where the follow-up is invoked, and where it is done. The
code of the method and of its awaiter is a parameter: it runs in parts, each of which may yield, and
between the parts the wrapper has its sections under `SchedCtxGuard`.

## Main definitions

* `DualMethods` — a target with dual and ordinary methods
* `DualMethods.Stage` — where the wrapper is when it yields
* `DualMethods.program` — the program whose coroutines run the wrapper
* `DualMethods.Stage.emitted`, `DualMethods.phases` — the events emitted up to a stage, and all

## Main results

* `DualMethods.resume_reaches` — a resume emits the events between two stages
-/

namespace LTest

namespace Scheduler

/-! ### The code of a method -/

/-- How a part of the code comes to a stop: at a yield, at its end, or with a `TestFailure`. -/
inductive Outcome
  | yields
  | finishes
  | fails

/-- The parts between the guarded sections: the method and `await_ready`, the way to
`await_suspend`, `await_suspend`, `ltest_drive_executor`, the way to `SetBlocked`, the way out of
the loop, `await_resume`, and the way to the return. -/
inductive Part
  | request
  | prepare
  | suspend
  | drive
  | block
  | settle
  | resume
  | leave

/-- What a part of the code does up to its stop. -/
structure PartRun (Code Target : Type) where
  /-- How it stops. -/
  outcome : Outcome
  /-- The code after it. -/
  code : Code
  /-- The target after it. -/
  target : Target
  /-- The block manager after it. -/
  blocks : BlockManager
  /-- The last address of `SetBlocked`. -/
  block : Option ℕ := none

/-- A target with dual and ordinary methods. A waker is run by the code of another method, so that
`DualWaitState` is a part of the target. -/
structure DualMethods where
  /-- The target object. -/
  Target : Type
  /-- What outlives a round. -/
  Env : Type
  /-- The coroutines of ordinary methods. -/
  Ordinary : Type
  /-- The arguments. -/
  Args : Type
  /-- The return values. -/
  Val : Type
  /-- The code of a dual method with its awaiter. -/
  Code : Type
  /-- Makes a target. -/
  targetFactory : Env → Target × Env
  /-- What an ordinary method does; it emits no dual events. -/
  ordinary : ℕ → ℕ → Ordinary → Target → BlockManager → Env → Step Ordinary Target Val × Env
  /-- Runs a part of the code. -/
  run : ℕ → ℕ → Part → Code → Target → BlockManager → Env → PartRun Code Target × Env
  /-- What `await_ready` has returned. -/
  awaitReady : Code → Bool
  /-- `EmitDualRequestBeforeSuspend` of the awaiter. -/
  emitRequestBeforeSuspend : Code → Bool
  /-- What `await_suspend` has returned, if it is a Boolean. -/
  suspended : Code → Bool
  /-- What `await_resume` has returned. -/
  value : Code → Val
  /-- The value of `void`. -/
  voidV : Val
  /-- The address of a new `DualWaitState`. -/
  newWaitState : Target → ℕ × Target
  /-- `ready` of the `DualWaitState` at an address. -/
  isReady : Target → ℕ → Bool

namespace DualMethods

variable (D : DualMethods)

/-! ### The wrapper -/

/-- Where the wrapper is when it yields, with its local variables: the address of its
`DualWaitState`, `request_before_suspend` and the value that it will return. -/
inductive Stage
  | request
  | prepare (addr : ℕ)
  | suspend (addr : ℕ) (requestBeforeSuspend : Bool)
  | drive (addr : ℕ)
  | block (addr : ℕ)
  | settle
  | resume
  | leave (v : D.Val)

/-- The coroutines. -/
inductive Fiber
  | ordinary (f : D.Ordinary)
  | dual (stage : D.Stage) (code : D.Code)

/-- The wrapper in a resume, with what it has done since. -/
structure Frame where
  /-- The code. -/
  code : D.Code
  /-- The target. -/
  target : D.Target
  /-- The block manager. -/
  blocks : BlockManager
  /-- What outlives the round. -/
  env : D.Env
  /-- The last address of `SetBlocked`. -/
  block : Option ℕ := none
  /-- The last change of the wakeup condition. -/
  wakeup : Option (Option (D.Target → Bool)) := none
  /-- The calls of `EmitDualEvent`. -/
  emitted : List (DualEventKind × Option D.Val) := []

/-- What a resume does. -/
abbrev Resumed : Type := Step D.Fiber D.Target D.Val × D.Env

variable {D}

namespace Frame

/-- `EmitDualEvent`. -/
def emit (kind : DualEventKind) (v : D.Val) (fr : Frame D) : Frame D :=
  { fr with emitted := fr.emitted ++ [(kind, some v)] }

/-- The guarded section after a successful `await_ready`, with what follows if the request is done
already. -/
def followUpInvoke (fr : Frame D) : Frame D := fr.emit .followUpInvoke D.voidV

@[inherit_doc followUpInvoke]
def requestDone (fr : Frame D) : Frame D := fr.emit .requestResponse D.voidV

/-- A new `DualWaitState` and the wakeup condition of the task. -/
def wait (fr : Frame D) : ℕ × Frame D :=
  let st := D.newWaitState fr.target
  (st.1, { fr with target := st.2, wakeup := some (some fun target => D.isReady target st.1) })

/-- `dual_clear_wakeup_condition`. -/
def clearWakeupCondition (fr : Frame D) : Frame D := { fr with wakeup := some none }

/-- `dual_set_blocked`. -/
def setBlocked (id addr : ℕ) (fr : Frame D) : Frame D :=
  { fr with blocks := fr.blocks.blockOn addr id, block := some addr }

/-- `dual_unblock_all`. -/
def unblockAll (addr : ℕ) (fr : Frame D) : Frame D :=
  { fr with blocks := fr.blocks.unblockAllOn addr }

/-- A part of the code. -/
def run (id i : ℕ) (p : Part) (fr : Frame D) : Outcome × Frame D :=
  let r := D.run id i p fr.code fr.target fr.blocks fr.env
  (r.1.outcome, { fr with
    code := r.1.code
    target := r.1.target
    blocks := r.1.blocks
    env := r.2
    block := r.1.block.or fr.block })

/-- The coroutine yields. -/
def yields (stage : D.Stage) (fr : Frame D) : D.Resumed :=
  (⟨.dual stage fr.code, fr.target, fr.blocks, fr.block, fr.wakeup, fr.emitted, none⟩, fr.env)

/-- The coroutine returns. -/
def returns (v : D.Val) (fr : Frame D) : D.Resumed :=
  (⟨.dual (.leave v) fr.code, fr.target, fr.blocks, fr.block, fr.wakeup, fr.emitted, some v⟩,
    fr.env)

end Frame

section Wrapper

variable (id i : ℕ)

/-- A part of the code, at whose end the wrapper continues. After a `TestFailure` the coroutine
returns `void_v`. -/
def through (p : Part) (stage : D.Stage) (next : Frame D → D.Resumed) (fr : Frame D) : D.Resumed :=
  let r := fr.run id i p
  match r.1 with
  | .yields => r.2.yields stage
  | .finishes => next r.2
  | .fails => r.2.returns D.voidV

/-- The wrapper after the follow-up. -/
def leave (v : D.Val) : Frame D → D.Resumed := through id i .leave (.leave v) fun fr => fr.returns v

/-- `dual_finish_followup`. -/
def finishFollowup : Frame D → D.Resumed :=
  through id i .resume .resume fun fr =>
    leave id i (D.value fr.code) (fr.emit .followUpResponse (D.value fr.code))

/-- The wrapper after its loop. -/
def settle : Frame D → D.Resumed :=
  through id i .settle .settle fun fr =>
    finishFollowup id i fr.clearWakeupCondition.followUpInvoke

/-- The task blocks itself, unless the waker raced with it. -/
def blockOn (addr : ℕ) : Frame D → D.Resumed :=
  through id i .block (.block addr) fun fr =>
    let fr := fr.setBlocked id addr
    if D.isReady fr.target addr then settle id i (fr.unblockAll addr) else fr.yields (.drive addr)

/-- An iteration of the loop. -/
def drive (addr : ℕ) : Frame D → D.Resumed :=
  through id i .drive (.drive addr) fun fr =>
    if D.isReady fr.target addr then settle id i fr else blockOn id i addr fr

/-- `await_suspend` and what follows. -/
def suspend (addr : ℕ) (requestBeforeSuspend : Bool) : Frame D → D.Resumed :=
  through id i .suspend (.suspend addr requestBeforeSuspend) fun fr =>
    let done := if requestBeforeSuspend then fr else fr.requestDone
    if D.suspended fr.code then drive id i addr done
    else finishFollowup id i done.followUpInvoke

/-- The waker is made, and some awaiters want the request to be done before they suspend. -/
def prepare (addr : ℕ) : Frame D → D.Resumed :=
  through id i .prepare (.prepare addr) fun fr =>
    if D.emitRequestBeforeSuspend fr.code then suspend id i addr true fr.requestDone
    else suspend id i addr false fr

/-- The wrapper from its beginning. -/
def request : Frame D → D.Resumed :=
  through id i .request .request fun fr =>
    if D.awaitReady fr.code then finishFollowup id i fr.requestDone.followUpInvoke
    else prepare id i fr.wait.1 fr.wait.2

/-- The wrapper from a stage on. -/
def resumeStage : D.Stage → Frame D → D.Resumed
  | .request => request id i
  | .prepare addr => prepare id i addr
  | .suspend addr requestBeforeSuspend => suspend id i addr requestBeforeSuspend
  | .drive addr => drive id i addr
  | .block addr => blockOn id i addr
  | .settle => settle id i
  | .resume => finishFollowup id i
  | .leave v => leave id i v

end Wrapper

variable (D) in
/-- The program whose coroutines are ordinary methods and wrapped dual methods. -/
def program : Program where
  Target := D.Target
  Env := D.Env
  Fiber := D.Fiber
  Args := D.Args
  Val := D.Val
  targetFactory := D.targetFactory
  resume id i fiber target blocks env :=
    match fiber with
    | .ordinary f =>
      let r := D.ordinary id i f target blocks env
      ({ r.1 with fiber := .ordinary r.1.fiber, emitted := [] }, r.2)
    | .dual stage code => resumeStage id i stage { code, target, blocks, env }

/-- Whether the coroutine runs the wrapper. -/
def Fiber.isDual : D.Fiber → Bool
  | .ordinary _ => false
  | .dual _ _ => true

/-- The coroutine is at its beginning, and runs the wrapper if the task is dual. -/
def Begins (isDual : Bool) : D.Fiber → Prop
  | .ordinary _ => isDual = false
  | .dual .request _ => isDual = true
  | .dual _ _ => False

/-- The builders that `TargetDualMethod` and `TargetMethod` make. -/
def Builds (b : TaskBuilder D.program) : Prop := ∀ args, Begins b.isDual (b.func args)

/-- All tasks of the round were built by such builders. -/
def BuiltTasks {ν : Type} (w : World D.program ν) : Prop :=
  ∀ i j t, w.task? i j = some t → ∀ args, Begins t.isDual (t.func args)

/-! ### The events -/

variable (D) in
/-- The events of a request that is done. -/
def requested : List (DualEventKind × Option D.Val) := [(.requestResponse, some D.voidV)]

/-- All events of a dual method. -/
def phases (v : D.Val) : List (DualEventKind × Option D.Val) :=
  D.requested ++ [(DualEventKind.followUpInvoke, some D.voidV), (.followUpResponse, some v)]

namespace Stage

/-- The events that were emitted when the wrapper yields. -/
def emitted : D.Stage → List (DualEventKind × Option D.Val)
  | request | prepare _ => []
  | suspend _ requestBeforeSuspend => if requestBeforeSuspend then D.requested else []
  | drive _ | block _ | settle => D.requested
  | resume => D.requested ++ [(DualEventKind.followUpInvoke, some D.voidV)]
  | leave v => phases v

theorem emitted_prefix_phases (stage : D.Stage) : ∃ v, stage.emitted <+: phases v := by
  cases stage with
  | request => exact ⟨D.voidV, List.nil_prefix⟩
  | prepare => exact ⟨D.voidV, List.nil_prefix⟩
  | suspend addr requestBeforeSuspend =>
    refine ⟨D.voidV, ?_⟩
    cases requestBeforeSuspend with
    | true => exact List.prefix_append _ _
    | false => exact List.nil_prefix
  | drive => exact ⟨D.voidV, List.prefix_append _ _⟩
  | block => exact ⟨D.voidV, List.prefix_append _ _⟩
  | settle => exact ⟨D.voidV, List.prefix_append _ _⟩
  | resume => exact ⟨D.voidV, [(DualEventKind.followUpResponse, some D.voidV)], rfl⟩
  | leave v => exact ⟨v, List.prefix_refl _⟩

end Stage

/-- The events that were emitted when the coroutine yields. -/
def Fiber.emitted : D.Fiber → List (DualEventKind × Option D.Val)
  | .ordinary _ => []
  | .dual stage _ => stage.emitted

variable (D) in
/-- Some code throws a `TestFailure`. -/
def Fails : Prop :=
  ∃ id i p code target blocks env, (D.run id i p code target blocks env).1.outcome = .fails

/-- What a resume of a coroutine emits, if it has emitted `before`. -/
structure Reaches (before : List (DualEventKind × Option D.Val)) (r : D.Resumed) : Prop where
  isDual : r.1.fiber.isDual = true
  yields : r.1.ret = none → r.1.fiber.emitted = before ++ r.1.emitted
  returns : ∀ v, r.1.ret = some v → before ++ r.1.emitted = phases v ∨
    D.Fails ∧ ∃ stage : D.Stage, before ++ r.1.emitted = stage.emitted

theorem Reaches.exists_prefix {before : List (DualEventKind × Option D.Val)} {r : D.Resumed}
    (h : Reaches before r) : ∃ v : D.Val, before ++ r.1.emitted <+: phases v := by
  cases hret : r.1.ret with
  | none =>
    rw [← h.yields hret]
    cases hfiber : r.1.fiber with
    | ordinary => exact ⟨D.voidV, List.nil_prefix⟩
    | dual stage => exact stage.emitted_prefix_phases
  | some v =>
    obtain hall | ⟨-, stage, hstage⟩ := h.returns v hret
    · exact ⟨v, hall ▸ List.prefix_refl _⟩
    · rw [hstage]
      exact stage.emitted_prefix_phases

section Reaches

variable {id i : ℕ} {before : List (DualEventKind × Option D.Val)} {fr : Frame D} {addr : ℕ}
  {stage : D.Stage}

theorem Reaches.of_yields (h : before ++ fr.emitted = stage.emitted) :
    Reaches before (fr.yields stage) :=
  ⟨rfl, fun _ => h.symm, nofun⟩

theorem through_reaches {p : Part} {next : Frame D → D.Resumed}
    (h : before ++ fr.emitted = stage.emitted)
    (hnext : ∀ fr' : Frame D, fr'.emitted = fr.emitted → Reaches before (next fr')) :
    Reaches before (through id i p stage next fr) := by
  have hrun : (fr.run id i p).2.emitted = fr.emitted := rfl
  unfold through
  dsimp only
  split
  · exact .of_yields h
  · exact hnext _ hrun
  · rename_i hfails
    exact ⟨rfl, nofun, fun _ _ => .inr ⟨⟨id, i, p, _, _, _, _, hfails⟩, stage, h⟩⟩

theorem leave_reaches {v : D.Val} (h : before ++ fr.emitted = phases v) :
    Reaches before (leave id i v fr) := by
  refine through_reaches h fun fr' hfr' => ⟨rfl, nofun, fun u hu => .inl ?_⟩
  obtain rfl : v = u := Option.some.inj hu
  show before ++ fr'.emitted = _
  rw [hfr', h]

theorem finishFollowup_reaches (h : before ++ fr.emitted = (Stage.resume : D.Stage).emitted) :
    Reaches before (finishFollowup id i fr) := by
  refine through_reaches h fun fr' hfr' => leave_reaches ?_
  show before ++ (fr'.emitted ++ [(DualEventKind.followUpResponse, some (D.value fr'.code))]) = _
  rw [hfr', ← List.append_assoc, h]
  rfl

theorem emitted_followUpInvoke (h : before ++ fr.emitted = D.requested) :
    before ++ fr.followUpInvoke.emitted = (Stage.resume : D.Stage).emitted := by
  show before ++ (fr.emitted ++ [(DualEventKind.followUpInvoke, some D.voidV)]) = _
  rw [← List.append_assoc, h]
  rfl

theorem emitted_requestDone (h : before ++ fr.emitted = []) :
    before ++ fr.requestDone.emitted = D.requested := by
  show before ++ (fr.emitted ++ [(DualEventKind.requestResponse, some D.voidV)]) = _
  rw [← List.append_assoc, h]
  rfl

section

variable (h : before ++ fr.emitted = D.requested)
include h

theorem settle_reaches : Reaches before (settle id i fr) := by
  refine through_reaches h fun fr' hfr' => finishFollowup_reaches (emitted_followUpInvoke ?_)
  show before ++ fr'.emitted = _
  rw [hfr', h]

theorem blockOn_reaches : Reaches before (blockOn id i addr fr) := by
  refine through_reaches h fun fr' hfr' => ?_
  have h' : before ++ fr'.emitted = D.requested := hfr' ▸ h
  dsimp only
  split
  · exact settle_reaches h'
  · exact .of_yields h'

theorem drive_reaches : Reaches before (drive id i addr fr) := by
  refine through_reaches h fun fr' hfr' => ?_
  have h' : before ++ fr'.emitted = D.requested := hfr' ▸ h
  split
  · exact settle_reaches h'
  · exact blockOn_reaches h'

end

theorem suspend_reaches {requestBeforeSuspend : Bool}
    (h : before ++ fr.emitted = (Stage.suspend addr requestBeforeSuspend : D.Stage).emitted) :
    Reaches before (suspend id i addr requestBeforeSuspend fr) := by
  refine through_reaches h fun fr' hfr' => ?_
  have hdone : before ++ (if requestBeforeSuspend then fr' else fr'.requestDone).emitted =
      D.requested := by
    rw [← hfr'] at h
    cases requestBeforeSuspend with
    | true => exact h
    | false => exact emitted_requestDone h
  dsimp only
  split
  · exact drive_reaches hdone
  · exact finishFollowup_reaches (emitted_followUpInvoke hdone)

theorem prepare_reaches (h : before ++ fr.emitted = []) :
    Reaches before (prepare id i addr fr) := by
  refine through_reaches h fun fr' hfr' => ?_
  have h' : before ++ fr'.emitted = [] := hfr' ▸ h
  split
  · exact suspend_reaches (emitted_requestDone h')
  · exact suspend_reaches h'

theorem request_reaches (h : before ++ fr.emitted = []) : Reaches before (request id i fr) := by
  refine through_reaches h fun fr' hfr' => ?_
  have h' : before ++ fr'.emitted = [] := hfr' ▸ h
  split
  · exact finishFollowup_reaches (emitted_followUpInvoke (emitted_requestDone h'))
  · exact prepare_reaches h'

theorem resumeStage_reaches (h : before ++ fr.emitted = stage.emitted) :
    Reaches before (resumeStage id i stage fr) := by
  cases stage with
  | request => exact request_reaches h
  | prepare => exact prepare_reaches h
  | suspend => exact suspend_reaches h
  | drive => exact drive_reaches h
  | block => exact blockOn_reaches h
  | settle => exact settle_reaches h
  | resume => exact finishFollowup_reaches h
  | leave => exact leave_reaches h

end Reaches

/-- **The events of a resume** of a wrapped method: together with those emitted before they are the
events up to the stage it reaches, and all events if it returns and no code fails. -/
theorem resume_reaches (id i : ℕ) {fiber : D.Fiber} (hdual : fiber.isDual = true)
    (target : D.Target) (blocks : BlockManager) (env : D.Env) :
    Reaches fiber.emitted (D.program.resume id i fiber target blocks env) := by
  cases fiber with
  | ordinary => cases hdual
  | dual stage code => exact resumeStage_reaches (List.append_nil _)

/-- An ordinary method emits nothing and remains one. -/
theorem resume_ordinary (id i : ℕ) {fiber : D.Fiber} (hdual : fiber.isDual = false)
    (target : D.Target) (blocks : BlockManager) (env : D.Env) :
    (D.program.resume id i fiber target blocks env).1.emitted = [] ∧
      Fiber.isDual (D.program.resume id i fiber target blocks env).1.fiber = false := by
  cases fiber with
  | ordinary f => exact ⟨rfl, rfl⟩
  | dual => cases hdual

end DualMethods

end Scheduler

end LTest
