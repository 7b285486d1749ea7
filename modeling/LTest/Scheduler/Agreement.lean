import LTest.Scheduler.Alike
import LTest.Scheduler.Completion

/-!
# The two schedulers on ordinary tasks

On tasks of which none is dual the loops of `StrategyScheduler::RunRound` and
`DualStrategyScheduler::RunRound` do the same, with two exceptions. The dual loop does not handle
`EXHAUSTED_INTERLEAVINGS`. And only the ordinary loop clears the wakeup condition of a task before
it is resumed; this is seen when a task has a true wakeup condition and is still in the queue of
the block manager.

## Main definitions

* `World.Calm` — queued tasks have no wakeup condition that holds
* `Agree` — a round of the ordinary scheduler and one of the dual scheduler

## Main results

* `Agree.step` — an iteration of both loops
* `schedulers_agree` — the same events and the same verdict
* `exhausted_throws`, `cleared_wakeup_deadlock` — the two exceptions
-/

namespace LTest

namespace Scheduler

variable {P : Program} {ν : Type} {w : World P ν}

/-- A wakeup condition of a task in the queue of its address does not hold. -/
def World.Calm (w : World P ν) : Prop :=
  ∀ i j t, w.task? i j = some t → w.blocks.isBlocked t.fstate t.id = true →
    ∀ cond ∈ t.wakeup, cond w.target = false

theorem World.Calm.isBlocked (h : w.Calm) {i j : ℕ} {t : Task P} (ht : w.task? i j = some t) :
    w.isBlocked t = w.blocks.isBlocked t.fstate t.id := by
  rw [World.isBlocked]
  cases hblocked : w.blocks.isBlocked t.fstate t.id with
  | false => rfl
  | true =>
    cases hwakeup : t.wakeup with
    | none => rfl
    | some cond => simp [h i j t ht hblocked cond hwakeup]

/-- The same tasks and the same history in both schedulers. A wakeup condition may be missing in the
ordinary one. -/
structure TraceAgree (tr : Trace P ν (HistoryEvent P)) (tr' : Trace P ν (DualHistoryEvent P)) :
    Prop where
  alike : tr.world.Alike tr'.world
  env : tr.world.env = tr'.world.env
  wakeup : ∀ i j t t', tr.world.task? i j = some t → tr'.world.task? i j = some t' →
    t.wakeup = none ∨ t.wakeup = t'.wakeup
  ordinary : ∀ i j t, tr'.world.task? i j = some t → t.isDual = false
  seq : tr'.seq = tr.seq.map .ordinary

/-- No dual events are recorded if no task is dual. -/
theorem drainedDualEvents_eq_nil {threads : List (List (Task P))}
    (h : ∀ i j t, Grid.get? threads i j = some t → t.isDual = false) :
    drainedDualEvents threads = [] := by
  have hnil : collectDrainedDualEvents threads = [] := by
    refine List.flatMap_eq_nil_iff.mpr fun row hrow => List.flatMap_eq_nil_iff.mpr fun t ht => ?_
    obtain ⟨j, hj⟩ := List.mem_iff_getElem?.mp ht
    have hdual := h row.2 j t
      ((Grid.get?_eq_of_row (List.mem_zipIdx_iff_getElem?.mp hrow)).trans hj)
    simp [Task.records, hdual]
  rw [drainedDualEvents, hnil]
  rfl

namespace TraceAgree

variable {V : Verifier P ν} {tr : Trace P ν (HistoryEvent P)}
  {tr' : Trace P ν (DualHistoryEvent P)} {i j : ℕ} {t t' : Task P}

theorem prepare (h : TraceAgree tr tr') (i j : ℕ) :
    TraceAgree (StrategyScheduler.prepare i j tr) (DualStrategyScheduler.prepare i j tr') where
  __ := h
  alike := h.alike.modifyTask_left (f := Task.clearWakeupCondition) (fun _ => rfl) i j
  wakeup i' j' t t' ht ht' := by
    obtain ⟨-, -, u, -, rfl⟩ | ⟨-, ht⟩ := Grid.get?_modify_cases ht
    · exact .inl rfl
    · exact h.wakeup i' j' t t' ht ht'

theorem after (h : TraceAgree tr tr') (ht : tr.world.task? i j = some t)
    (ht' : tr'.world.task? i j = some t') (hcore : t.core = t'.core) (hnone : t.wakeup = none)
    (isNew : Bool) :
    TraceAgree (tr.after ordinaryRecorder V i j isNew t)
      (tr'.after dualRecorder V i j isNew t') := by
  have hstep : tr.world.stepOf i t = tr'.world.stepOf i t' := h.alike.stepOf hcore h.env i
  have hordinary : ∀ i' j' u, (tr'.world.stepTask i j t').task? i' j' = some u →
      u.isDual = false := by
    intro i' j' u hu
    obtain ⟨-, -, u', hu', rfl⟩ | ⟨-, hu⟩ := Grid.get?_modify_cases hu
    · exact h.ordinary i j u' hu'
    · exact h.ordinary i' j' u hu
  refine ⟨?_, ?_, ?_, ?_, ?_⟩
  · exact ((h.alike.stepTask (congrArg Prod.fst hstep)).mapTasks ordinaryRecorder.core_drainTask
      dualRecorder.core_drainTask).reportFinish V i j
  · obtain ⟨v, hv⟩ := Trace.after_world_eq (R := ordinaryRecorder) (V := V) i j isNew t tr
    obtain ⟨v', hv'⟩ := Trace.after_world_eq (R := dualRecorder) (V := V) i j isNew t' tr'
    rw [hv, hv']
    exact congrArg Prod.snd hstep
  · intro i' j' u u' hu hu'
    by_cases hij : i' = i ∧ j' = j
    · obtain ⟨rfl, rfl⟩ := hij
      rw [Trace.after_task?_self ht] at hu
      rw [Trace.after_task?_self ht'] at hu'
      obtain rfl := Option.some.inj hu
      obtain rfl := Option.some.inj hu'
      rw [Recorder.drainTask_wakeup, Recorder.drainTask_wakeup, hstep]
      show Option.getD _ t.wakeup = none ∨ Option.getD _ t.wakeup = Option.getD _ t'.wakeup
      rw [hnone]
      cases (tr'.world.stepOf i' t').1.wakeup with
      | none => exact .inl rfl
      | some cond => exact .inr rfl
    · rw [Trace.after_task?_of_ne hij, Option.map_eq_some_iff] at hu hu'
      obtain ⟨u₁, hu₁, rfl⟩ := hu
      obtain ⟨u₂, hu₂, rfl⟩ := hu'
      rw [Recorder.drainTask_wakeup, Recorder.drainTask_wakeup]
      exact h.wakeup i' j' u₁ u₂ hu₁ hu₂
  · intro i' j' u hu
    rw [Trace.after_world, World.task?_reportFinish, World.task?_mapTasks,
      Option.map_eq_some_iff] at hu
    obtain ⟨u', hu', rfl⟩ := hu
    rw [Recorder.drainTask_toTaskInfo]
    exact hordinary i' j' u' hu'
  · have hdual := h.ordinary i j t' ht'
    have hdrain : dualRecorder.drainEvents (tr'.world.stepTask i j t').threads = [] :=
      drainedDualEvents_eq_nil hordinary
    have hstart : dualRecorder.start t'.toTaskInfo i = .ordinary (.invoke t.toTaskInfo i) := by
      rw [Task.core_toTaskInfo hcore]
      exact if_neg (by simp [hdual])
    have hresponse (s : Step P.Fiber P.Target P.Val) (n n' : ℕ) :
        dualRecorder.response (dualRecorder.drainTask (t'.stepped s n')) i =
          (ordinaryRecorder.response (ordinaryRecorder.drainTask (t.stepped s n)) i).map
            .ordinary := by
      have hinfo : (dualRecorder.drainTask (t'.stepped s n')).toTaskInfo = t'.toTaskInfo :=
        dualRecorder.drainTask_toTaskInfo _
      have hret : (dualRecorder.drainTask (t'.stepped s n')).ret = s.ret.or t.ret := by
        rw [Recorder.drainTask_ret, Task.core_ret hcore]
        rfl
      show (if _ then _ else _ : List (DualHistoryEvent P)) = _
      rw [hinfo, hret, if_neg (by simp [hdual]), ← Task.core_toTaskInfo hcore]
      rfl
    rw [Trace.after_seq ht, Trace.after_seq ht', hdrain, h.seq, hstep, hstart,
      hresponse _ tr.world.seqno]
    cases isNew <;> cases (tr'.world.stepOf i t').1.ret.isSome <;> simp [ordinaryRecorder]

end TraceAgree

/-- The same round in both schedulers. -/
structure Agree (r : Round P ν ℕ (HistoryEvent P)) (r' : Round P ν ℕ (DualHistoryEvent P)) : Prop
    extends TraceAgree r.trace r'.trace where
  startedTasks : r.startedTasks = r'.startedTasks
  strategy : r.strategy = r'.strategy
  status : r.status = r'.status

namespace Agree

variable {V : Verifier P ν} {outcomes : ℕ → Next P} {maxTasks : ℕ}
  {r : Round P ν ℕ (HistoryEvent P)} {r' : Round P ν ℕ (DualHistoryEvent P)}

theorem init (w : World P ν) (hw : w.Fresh) : Agree (Round.init w 0) (Round.init w 0) where
  alike := .refl _
  env := rfl
  wakeup i j _ _ ht _ := by cases (hw.task?_eq_none i j).symm.trans ht
  ordinary i j _ ht := by cases (hw.task?_eq_none i j).symm.trans ht
  seq := rfl
  startedTasks := rfl
  strategy := rfl
  status := rfl

section

variable (h : Agree r r')
include h

theorem stop (status : Status) : Agree (r.stop status) (r'.stop status) :=
  { h with status := rfl }

theorem limit : Agree (r.limit maxTasks) (r'.limit maxTasks) := by
  by_cases hlt : r.startedTasks < maxTasks
  · rw [Round.limit, Round.limit, if_pos hlt, if_pos (h.startedTasks ▸ hlt)]
    exact h
  · rw [Round.limit, Round.limit, if_neg hlt, if_neg (h.startedTasks ▸ hlt)]
    exact { h with alike := ⟨h.alike.threads, h.alike.target, h.alike.blocks, h.alike.removed,
      h.alike.newTaskId, h.alike.threadsCount⟩ }

theorem ending (hcalm : r'.trace.world.Calm) : r.ending maxTasks = r'.ending maxTasks := by
  have hcalm' : r.trace.world.Calm := by
    intro i j t ht hblocked cond hcond
    obtain ⟨hnone, -⟩ | ⟨t₁, t', ht₁, ht', hcore⟩ := h.alike.cases i j
    · cases hnone.symm.trans ht
    obtain rfl : t₁ = t := Option.some.inj (ht₁.symm.trans ht)
    rw [h.alike.blocks, Task.core_fstate hcore, Task.core_id hcore] at hblocked
    obtain hwakeup | hwakeup := h.wakeup i j t₁ t' ht₁ ht'
    · rw [hwakeup] at hcond
      cases hcond
    · rw [hwakeup] at hcond
      rw [h.alike.target]
      exact hcalm i j t' ht' hblocked cond hcond
  have hunfinished (t t' : Task P) (hcore : t.core = t'.core) :
      r.trace.world.isUnfinished none t = r'.trace.world.isUnfinished none t' := by
    simp only [World.isUnfinished, World.isTaskRemoved, h.alike.removed, Task.core_id hcore,
      Task.core_returned hcore, Option.all_none]
  have hboth : r.trace.world.getUnfinishedAndRunnable none =
      r'.trace.world.getUnfinishedAndRunnable none := by
    refine Prod.ext (h.alike.any_eq fun i j t t' _ _ => hunfinished t t')
      (h.alike.any_eq fun i j t t' ht ht' hcore => ?_)
    rw [hunfinished t t' hcore, hcalm'.isBlocked ht, hcalm.isBlocked ht', h.alike.blocks,
      Task.core_fstate hcore, Task.core_id hcore]
  rw [Round.ending, Round.ending, h.startedTasks, hboth]

theorem asked (v v' : ν) (k : ℕ) : Agree (r.asked v k) (r'.asked v' k) :=
  { h with alike := h.alike.setVerifier v v', strategy := rfl }

theorem restart :
    Agree (r.restart (.ofOutcomes V outcomes)) (r'.restart (.ofOutcomes V outcomes)) where
  __ := h
  alike := by
    refine ⟨?_, ?_, rfl, h.alike.removed, rfl, h.alike.threadsCount⟩
    · show (List.replicate r.trace.world.threadsCount _).map _ =
        (List.replicate r'.trace.world.threadsCount _).map _
      rw [h.alike.threadsCount]
    · show (P.targetFactory r.trace.world.env).1 = (P.targetFactory r'.trace.world.env).1
      rw [h.env]
  env := by
    show (P.targetFactory r.trace.world.env).2 = (P.targetFactory r'.trace.world.env).2
    rw [h.env]
  wakeup i j t t' ht _ := by
    have hnone := Grid.get?_of_forall_nil (i := i) (j := j)
      fun ts (hts : ts ∈ List.replicate r.trace.world.threadsCount ([] : List (Task P))) =>
        (List.mem_replicate.mp hts).2
    cases hnone.symm.trans ht
  ordinary i j t ht := by
    have hnone := Grid.get?_of_forall_nil (i := i) (j := j)
      fun ts (hts : ts ∈ List.replicate r'.trace.world.threadsCount ([] : List (Task P))) =>
        (List.mem_replicate.mp hts).2
    cases hnone.symm.trans ht
  seq := rfl

theorem build (i : ℕ) {b : TaskBuilder P} (hb : b.isDual = false) :
    Agree (r.build i b) (r'.build i b) := by
  have hbuilt : r.trace.world.built i b = r'.trace.world.built i b := by
    simp only [World.built, World.generated, h.env, h.alike.newTaskId]
  have hpush : (r.build i b).trace.world.threads.map (·.map Task.core) =
      (r'.build i b).trace.world.threads.map (·.map Task.core) := by
    show (Grid.push _ i _).map _ = (Grid.push _ i _).map _
    rw [Grid.map_push, Grid.map_push, h.alike.threads, hbuilt]
  refine ⟨⟨⟨hpush, h.alike.target, h.alike.blocks, h.alike.removed,
    congrArg Nat.succ h.alike.newTaskId, h.alike.threadsCount⟩, ?_, ?_, ?_, h.seq⟩, h.startedTasks,
    h.strategy, h.status⟩
  · show (r.trace.world.generated i b).2 = (r'.trace.world.generated i b).2
    rw [World.generated, World.generated, h.env]
  · intro i' j' t t' ht ht'
    obtain ⟨-, -, rfl⟩ | hold := Grid.get?_push_cases ht
    · exact .inl rfl
    obtain ⟨rfl, hj, -⟩ | hold' := Grid.get?_push_cases ht'
    · have hlt := Grid.get?_lt_rowLength hold
      rw [h.alike.rowLength] at hlt
      omega
    · exact h.wakeup i' j' t t' hold hold'
  · intro i' j' t ht
    obtain ⟨-, -, rfl⟩ | ht := Grid.get?_push_cases ht
    · exact hb
    · exact h.ordinary i' j' t ht

theorem advance (i j : ℕ) (isNew : Bool) :
    Agree (r.advance V ordinaryRecorder StrategyScheduler.prepare i j isNew)
      (r'.advance V dualRecorder DualStrategyScheduler.prepare i j isNew) := by
  rw [Round.advance, Round.advance]
  have hprepare := h.toTraceAgree.prepare i j
  obtain ⟨hnone, hnone'⟩ | ⟨t, t', ht, ht', hcore⟩ := hprepare.alike.cases i j
  · rw [Trace.perform_of_none hnone, Trace.perform_of_none hnone']
    exact h.stop .aborted
  have hret' := Task.core_returned hcore
  cases hret : t.returned with
  | true =>
    rw [Trace.perform_of_returned ht hret, Trace.perform_of_returned ht' (hret' ▸ hret)]
    exact h.stop .aborted
  | false =>
    rw [Trace.perform_eq ht hret, Trace.perform_eq ht' (hret' ▸ hret)]
    have hwakeup : t.wakeup = none := by
      obtain ⟨-, -, u, -, rfl⟩ | ⟨hij, -⟩ := Grid.get?_modify_cases ht
      · rfl
      · exact absurd ⟨rfl, rfl⟩ hij
    refine ⟨hprepare.after ht ht' hcore hwakeup isNew, ?_, h.strategy, h.status⟩
    show (if isNew then r.startedTasks + 1 else r.startedTasks) =
      if isNew then r'.startedTasks + 1 else r'.startedTasks
    rw [h.startedTasks]

/-- What is done with the outcome of `Next`. -/
theorem follow {n : Next P} (hn : n ≠ .failure .exhaustedInterleavings)
    (hb : ∀ i b, n = .start i b → b.isDual = false) :
    Agree
      (r.follow ordinaryRecorder (.ofOutcomes V outcomes) StrategyScheduler.prepare .exhausted n)
      (r'.follow dualRecorder (.ofOutcomes V outcomes) DualStrategyScheduler.prepare .threw n) := by
  cases n with
  | failure f =>
    cases f with
    | deadlock => exact h.stop (.ended true)
    | needReplay => exact h.restart
    | exhaustedInterleavings => exact absurd rfl hn
  | start i b =>
    rw [Round.follow, Round.follow, h.alike.rowLength]
    exact (h.build i (hb i b rfl)).advance _ _ _
  | resume i j => exact h.advance i j false

end

end Agree

/-- The step of the dual scheduler meets the condition: no queued task has a wakeup condition that
holds, and the interleavings are not exhausted. -/
def DualStrategyScheduler.StepAgrees (outcomes : ℕ → Next P) (maxTasks : ℕ)
    (r : Round P ν ℕ (DualHistoryEvent P)) : Prop :=
  r.status = .running → r.trace.world.Calm ∧
    (r.ending maxTasks = none → outcomes r.strategy ≠ .failure .exhaustedInterleavings)

namespace Agree

variable {V : Verifier P ν} {outcomes : ℕ → Next P} {maxTasks : ℕ}
  {r : Round P ν ℕ (HistoryEvent P)} {r' : Round P ν ℕ (DualHistoryEvent P)}

/-- **An iteration of both loops.** -/
theorem step (h : Agree r r') (hb : ∀ k i b, outcomes k = .start i b → b.isDual = false)
    (hok : DualStrategyScheduler.StepAgrees outcomes maxTasks r') :
    Agree (StrategyScheduler.step (.ofOutcomes V outcomes) maxTasks r)
      (DualStrategyScheduler.step (.ofOutcomes V outcomes) maxTasks r') := by
  rw [StrategyScheduler.step, DualStrategyScheduler.step]
  by_cases hrunning : r.status = .running
  · have hrunning' := h.status ▸ hrunning
    obtain ⟨hcalm, hexhausted⟩ := hok hrunning'
    have hover : r.ending maxTasks = r'.ending maxTasks := h.ending hcalm
    cases hover' : r'.ending maxTasks with
    | some d =>
      rw [Round.step_of_over hrunning (hover.trans hover'), Round.step_of_over hrunning' hover']
      exact h.limit.stop _
    | none =>
      rw [Round.step_of_next hrunning (hover.trans hover'), Round.step_of_next hrunning' hover']
      rw [h.limit.strategy]
      refine (h.limit.asked _ _ _).follow ?_ (hb _)
      rw [Round.limit_strategy]
      exact hexhausted hover'
  · rw [Round.step_of_not_running hrunning, Round.step_of_not_running (h.status ▸ hrunning)]
    exact h

theorem iterate (hw : w.Fresh) (hb : ∀ k i b, outcomes k = .start i b → b.isDual = false) (n : ℕ)
    (hok : ∀ k < n, DualStrategyScheduler.StepAgrees outcomes maxTasks
      (DualStrategyScheduler.run (.ofOutcomes V outcomes) maxTasks w 0 k)) :
    Agree (StrategyScheduler.run (.ofOutcomes V outcomes) maxTasks w 0 n)
      (DualStrategyScheduler.run (.ofOutcomes V outcomes) maxTasks w 0 n) := by
  induction n with
  | zero => exact init w hw
  | succ n ih =>
    have ih := ih fun k hk => hok k (Nat.lt_succ_of_lt hk)
    rw [StrategyScheduler.run, DualStrategyScheduler.run, Function.iterate_succ_apply',
      Function.iterate_succ_apply']
    exact ih.step hb (hok n (Nat.lt_succ_self n))

end Agree

/-! ### Verdicts -/

theorem hasPending_map {E F : Type} {start finish : E → Option ℕ} (f : F → E) (seq : List F) :
    hasPending start finish (seq.map f) = hasPending (start ∘ f) (finish ∘ f) seq := by
  simp [hasPending, List.filterMap_map]

theorem isReportableDeadlockHistory_map (seq : List (HistoryEvent P)) :
    dualRecorder.isReportableDeadlockHistory (seq.map .ordinary) =
      ordinaryRecorder.isReportableDeadlockHistory seq := by
  have hdual : hasPending DualHistoryEvent.dualStart DualHistoryEvent.dualFinish
      (seq.map .ordinary) = false := by
    have hstart : (DualHistoryEvent.dualStart ∘ DualHistoryEvent.ordinary : HistoryEvent P → _) =
        fun _ => none := rfl
    rw [hasPending_map, hstart]
    simp [hasPending]
  have hordinary : hasPending DualHistoryEvent.ordinaryStart DualHistoryEvent.ordinaryFinish
      (seq.map .ordinary) = HistoryEvent.hasPendingVisibleOp seq := hasPending_map _ seq
  have hany : dualRecorder.hasAnyStartedOp (seq.map .ordinary) =
      ordinaryRecorder.hasAnyStartedOp seq := by
    rw [Recorder.hasAnyStartedOp, List.any_map]
    rfl
  rw [Recorder.isReportableDeadlockHistory, hany]
  show (_ && (_ || _)) = _
  rw [hordinary, hdual, Bool.or_false]
  rfl

/-- The verdict of a result. -/
def verdict {E : Type} (result : Option (Result E)) : Option (Option Reason) :=
  result.map (Option.map NonLinearizableHistory.reason)

/-- **The two schedulers agree on ordinary tasks**: as long as the steps of the dual scheduler meet
the condition, both are in the same state and have recorded the same events, so that both return
at the same time and with the same verdict. -/
theorem schedulers_agree (V : Verifier P ν) (outcomes : ℕ → Next P)
    (hb : ∀ k i b, outcomes k = .start i b → b.isDual = false) (maxTasks : ℕ) (w : World P ν)
    (hw : w.Fresh) (check : List (HistoryEvent P) → Bool)
    (check' : List (DualHistoryEvent P) → Bool)
    (hcheck : ∀ seq, check' (seq.map .ordinary) = check seq) (policy : DeadlockPolicy)
    (hpolicy : policy = .fail ∨ policy = .check) (alt : Result (HistoryEvent P))
    (alt' : Result (DualHistoryEvent P)) (n : ℕ)
    (hok : ∀ k < n, DualStrategyScheduler.StepAgrees outcomes maxTasks
      (DualStrategyScheduler.run (.ofOutcomes V outcomes) maxTasks w 0 k)) :
    let r := StrategyScheduler.run (.ofOutcomes V outcomes) maxTasks w 0 n
    let r' := DualStrategyScheduler.run (.ofOutcomes V outcomes) maxTasks w 0 n
    r'.status = r.status ∧ r'.trace.seq = r.trace.seq.map .ordinary ∧
      verdict (r'.result dualRecorder check' policy alt') =
        verdict (r.result ordinaryRecorder check policy alt) := by
  intro r r'
  have h : Agree r r' := Agree.iterate hw hb n hok
  have hchecked : (checked check' r'.trace.full r'.trace.seq).map NonLinearizableHistory.reason =
      (checked check r.trace.full r.trace.seq).map NonLinearizableHistory.reason := by
    rw [checked, checked, h.seq, hcheck]
    cases check r.trace.seq <;> rfl
  have hdeadlock : (handleDeadlock dualRecorder check' policy alt' r'.trace.full r'.trace.seq).map
        NonLinearizableHistory.reason =
      (handleDeadlock ordinaryRecorder check policy alt r.trace.full r.trace.seq).map
        NonLinearizableHistory.reason := by
    obtain rfl | rfl := hpolicy
    · rw [handleDeadlock, handleDeadlock, h.seq, isReportableDeadlockHistory_map]
      cases ordinaryRecorder.isReportableDeadlockHistory r.trace.seq <;> rfl
    · exact hchecked
  refine ⟨h.status.symm, h.seq, ?_⟩
  rw [verdict, verdict, Round.result, Round.result, ← h.status]
  cases r.status with
  | ended d =>
    cases d with
    | true => exact congrArg some hdeadlock
    | false => exact congrArg some hchecked
  | _ => rfl

theorem World.calm_of_not_queued
    (h : (w.threads.any fun ts => ts.any fun t => w.blocks.isBlocked t.fstate t.id) = false) :
    w.Calm := by
  intro i j t ht hblocked
  cases (Grid.any_any_iff.mpr ⟨i, j, t, ht, hblocked⟩).symm.trans h

/-- Two tasks that return at once, with a checker that accepts no event. -/
theorem schedulers_agree_two :
    verdict ((DualStrategyScheduler.run startAlways 2 (World.new 1 () () ()) 0 3).result
        dualRecorder List.isEmpty .fail none) =
      verdict ((StrategyScheduler.run startAlways 2 (World.new 1 () () ()) 0 3).result
        ordinaryRecorder List.isEmpty .fail none) := by
  refine (schedulers_agree defaultStrategyTaskVerifier (fun _ => .start 0 instantBuilder) ?_ 2
    (World.new 1 () () ()) (World.fresh_new 1 _ _ _) List.isEmpty List.isEmpty ?_ .fail (.inl rfl)
    none none 3 ?_).2.2
  · rintro k i b ⟨⟩
    rfl
  · intro seq
    simp
  · intro k hk _
    refine ⟨World.calm_of_not_queued ?_, nofun⟩
    match k with
    | 0 => rfl
    | 1 => rfl
    | 2 => rfl

/-- **The interleavings are exhausted**: the ordinary scheduler returns nothing, the dual one
throws. -/
theorem exhausted_throws :
    let S : Strategy (P := instantProgram) (defaultStrategyTaskVerifier (ν := Unit)) ℕ :=
      .ofOutcomes _ fun _ => .failure .exhaustedInterleavings
    let r := StrategyScheduler.run S 1 (World.new 1 () () ()) 0 1
    let r' := DualStrategyScheduler.run S 1 (World.new 1 () () ()) 0 1
    verdict (r.result ordinaryRecorder (fun _ => true) .fail none) = some none ∧
      r'.status = .threw ∧
      verdict (r'.result dualRecorder (fun _ => true) .fail none) = none := by
  decide

/-- A target whose method blocks at every resume; before the first block it sets a wakeup condition
that holds. -/
def wakeupProgram : Program where
  Target := Unit
  Env := Unit
  Fiber := Bool
  Args := Unit
  Val := Unit
  targetFactory _ := ((), ())
  resume id _ isFirst _ m _ :=
    (⟨false, (), m.blockOn 1 id, some 1, if isFirst then some (some fun _ => true) else none, [],
      none⟩, ())

/-- When the wakeup condition was cleared, the ordinary scheduler sees a deadlock that the dual one
does not see. -/
theorem cleared_wakeup_deadlock :
    let S : Strategy (P := wakeupProgram) (defaultStrategyTaskVerifier (ν := Unit)) ℕ :=
      .ofOutcomes _ fun k =>
        if k = 0 then .start 0 ⟨"f", fun _ _ => ((), ()), fun _ => true, false⟩ else .resume 0 0
    (StrategyScheduler.run S 1 (World.new 1 () () ()) 0 3).status = .ended true ∧
      (DualStrategyScheduler.run S 1 (World.new 1 () () ()) 0 3).status = .running := by
  decide

end Scheduler

end LTest
