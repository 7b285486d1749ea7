import LTest.Scheduler.Exploration
import LTest.Scheduler.Reset
import LTest.Scheduler.Strategies

/-!
# Faithful replay

An exploration and the replay of its full history are two loops over a round that is reset in
between. If the steps of tasks depend on their arguments and on the target, and the answers of the
verifier on what was reported to it, the two are the same step by step: the replay admits each task,
resumes it and records the same events.

## Main definitions

* `Reported`, `StrategyTaskVerifier.Determined` — answers depend on what was reported
* `Matches` — the same round and the same history, in an exploration and in its replay

## Main results

* `Matches.permit` — the verifier gives the same answer
* `Matches.after` — the same step of the same task
* `Explore.Replayed.step` — a replay follows an exploration
* `unforced_replay_faithful` — the replay of an exploration checks the same history
-/

namespace LTest

namespace Scheduler

variable {P : Program} {ν ρ E : Type}

/-! ### Verifiers that depend on reports -/

/-- A start or a finish that is reported to a verifier. -/
inductive Report (P : Program)
  | started (name : String) (threadId taskId : ℕ)
  | finished (task : Task P) (threadId : ℕ)

/-- A state that the verifier may be in when the given starts and finishes have been reported since
the round was started, whatever it was asked in between. Of a finished task, the report does not
include what other tasks do not see. -/
inductive Reported (V : Verifier P ν) (threads : ℕ) : List (Report P) → ν → Prop
  | roundStart (v : ν) : Reported V threads [] (V.onRoundStart (V.reset v) threads)
  | asks {reports : List (Report P)} {v v' : ν} (h : Reported V threads reports v)
      (hasks : Asks V v v') : Reported V threads reports v'
  | started {reports : List (Report P)} {v : ν} (h : Reported V threads reports v) (name : String)
      (i id : ℕ) :
      Reported V threads (reports ++ [Report.started name i id]) (V.onTaskStarted v name i id)
  | finished {reports : List (Report P)} {v : ν} (h : Reported V threads reports v) (t : Task P)
      (i : ℕ) : Reported V threads (reports ++ [Report.finished t.core i]) (V.onFinished v t i)

/-- The answers of the verifier depend on what was reported to it. -/
structure StrategyTaskVerifier.Determined (V : Verifier P ν) : Prop where
  /-- Those of `Verify`. -/
  verify : ∀ {threads reports v v'}, Reported V threads reports v → Reported V threads reports v' →
    ∀ name i isNew, (V.verify v name i isNew).1 = (V.verify v' name i isNew).1
  /-- Of the context of a start, it may read what is known from the reports. -/
  verifyStart : ∀ {threads reports v v'}, Reported V threads reports v →
    Reported V threads reports v' → ∀ name i (ctx ctx' : StartContext),
      ctx.threads = ctx'.threads → ctx.freeThreads = ctx'.freeThreads →
      ctx.activeByMethod = ctx'.activeByMethod →
      (V.verifyStart v name i ctx).1 = (V.verifyStart v' name i ctx').1
  /-- Those of `VerifyExisting`. -/
  verifyExisting : ∀ {threads reports v v'}, Reported V threads reports v →
    Reported V threads reports v' → ∀ (t t' : Task P) i, t.core = t'.core →
      (V.verifyExisting v t i).1 = (V.verifyExisting v' t' i).1

/-! ### Matching traces -/

section

variable {V : Verifier P ν}

/-- The same has been reported to the two states of the verifier. -/
def SameReports (V : Verifier P ν) (threads : ℕ) (v v' : ν) : Prop :=
  ∃ reports, Reported V threads reports v ∧ Reported V threads reports v'

/-- The same round with the same history, in an exploration and in its replay. -/
structure Matches (R : Recorder P E) (V : Verifier P ν)
    (tr tr' : Trace P ν E) : Prop where
  alike : tr.world.Alike tr'.world
  seq : tr'.seq = tr.seq
  full : tr'.full = tr.full
  reports : SameReports V tr.world.threadsCount tr.world.verifier tr'.world.verifier
  quiet : tr.world.Quiet R
  quiet' : tr'.world.Quiet R

namespace Matches

variable {R : Recorder P E} {tr tr' : Trace P ν E} {i j : ℕ} {t t' : Task P}
  {emit : TaskInfo P → ℕ → List (DualEventKind × Option P.Val) → List E}

theorem setVerifier (h : Matches R V tr tr') {v v' : ν}
    (hreports : SameReports V tr.world.threadsCount v v') :
    Matches R V (tr.mapWorld (World.setVerifier v)) (tr'.mapWorld (World.setVerifier v')) where
  __ := h
  alike := h.alike.setVerifier v v'
  reports := hreports

theorem pushFull (h : Matches R V tr tr') (id : ℕ) :
    Matches R V (tr.pushFull id) (tr'.pushFull id) :=
  ⟨h.alike, h.seq, congrArg (· ++ [id]) h.full, h.reports, h.quiet, h.quiet'⟩

theorem clear (h : Matches R V tr tr') (hR : R.Emits emit) (i j : ℕ) :
    Matches R V tr (tr'.mapWorld (World.modifyTask i j Task.clearWakeupCondition)) where
  __ := h
  alike := (h.alike.symm.modifyTask_left (f := Task.clearWakeupCondition) (fun _ => rfl) i j).symm
  quiet' i' j' t ht := by
    obtain ⟨rfl, rfl, u, hu, rfl⟩ | ⟨-, ht⟩ := Grid.get?_modify_cases ht
    · exact hR.drainTask_congr u _ rfl rfl (h.quiet' i' j' u hu)
    · exact h.quiet' i' j' t ht

/-- The contexts of a start agree in what is known from the reports. -/
theorem buildReplayStartContext {w w' : World P ν} (h : w.Alike w') (startedIds : List ℕ) :
    let ctx := w.buildReplayStartContext startedIds
    let ctx' := w'.buildReplayStartContext startedIds
    ctx.threads = ctx'.threads ∧ ctx.freeThreads = ctx'.freeThreads ∧
      ctx.activeByMethod = ctx'.activeByMethod := by
  have hactive : w'.isActive startedIds = w.isActive startedIds := by
    funext t
    simp only [World.isActive, World.isTaskRemoved, h.removed]
  -- The active tasks are counted in the rows of cores.
  have hfree (g : List (List (Task P))) (p : Task P → Bool) (hp : ∀ t, p t.core = p t) :
      g.countP (fun ts => !ts.any p) = (g.map (·.map Task.core)).countP fun ts => !ts.any p := by
    simp [List.countP_map, Function.comp_def, hp]
  have hcount (g : List (List (Task P))) (p : Task P → Bool) (hp : ∀ t, p t.core = p t) :
      g.map (·.countP p) = (g.map (·.map Task.core)).map (·.countP p) := by
    simp [List.countP_map, Function.comp_def, hp]
  refine ⟨?_, ?_, ?_⟩
  · have hlength := congrArg List.length h.threads
    rwa [List.length_map, List.length_map] at hlength
  · show w.threads.countP _ = w'.threads.countP _
    rw [hactive, hfree w.threads _ fun _ => rfl, hfree w'.threads _ fun _ => rfl, h.threads]
  · funext name
    show (w.threads.map _).sum = (w'.threads.map _).sum
    rw [hactive, hcount w.threads _ fun _ => rfl, hcount w'.threads _ fun _ => rfl, h.threads]

/-- The same answer about a start, if the contexts agree in what is known from the reports. -/
theorem verifyTaskStart (hV : V.Determined) {threads : ℕ} {reports : List (Report P)} {v v' : ν}
    (hv : Reported V threads reports v) (hv' : Reported V threads reports v') (name : String)
    (i : ℕ) {ctx ctx' : StartContext} (hthreads : ctx.threads = ctx'.threads)
    (hfree : ctx.freeThreads = ctx'.freeThreads)
    (hactive : ctx.activeByMethod = ctx'.activeByMethod) :
    (V.verifyTaskStart v name i ctx).1 = (V.verifyTaskStart v' name i ctx').1 := by
  have hstart := hV.verifyStart hv hv' name i ctx ctx' hthreads hfree hactive
  have hverify := hV.verify (hv.asks (.verifyStart name i ctx .none))
    (hv'.asks (.verifyStart name i ctx' .none)) name i true
  unfold StrategyTaskVerifier.verifyTaskStart
  dsimp only
  rw [← hstart]
  split
  · exact hverify
  · exact hstart

/-- **The verifier gives the same answer**, and if it admits the task, the same has been
reported. -/
theorem permit (h : Matches R V tr tr') (hV : V.Determined) (hcore : t.core = t'.core)
    (startedIds : List ℕ) (i : ℕ) {v : ν} (hpermit : tr.world.permit V startedIds i t = (true, v)) :
    ∃ v', tr'.world.permit V startedIds i t' = (true, v') ∧
      SameReports V tr.world.threadsCount v v' := by
  obtain ⟨reports, hv, hv'⟩ := h.reports
  have hid : t.id = t'.id := Task.core_id hcore
  have hname : t.name = t'.name := congrArg TaskInfo.name (Task.core_toTaskInfo hcore)
  unfold World.permit at hpermit ⊢
  rw [← hid, ← hname, ← Task.core_returned hcore]
  split at hpermit
  · rename_i hstarted
    split at hpermit
    · rename_i hret
      obtain ⟨-, rfl⟩ := Prod.mk.inj hpermit
      exact ⟨tr'.world.verifier, by rw [if_pos hstarted, if_pos hret], reports, hv, hv'⟩
    · rename_i hret
      have haccept : (V.verifyExisting tr.world.verifier t i).1 = true := congrArg Prod.fst hpermit
      obtain rfl : (V.verifyExisting tr.world.verifier t i).2 = v := congrArg Prod.snd hpermit
      refine ⟨(V.verifyExisting tr'.world.verifier t' i).2, ?_, reports,
        hv.asks (.verifyExisting t i .none), hv'.asks (.verifyExisting t' i .none)⟩
      rw [if_pos hstarted, if_neg hret]
      exact Prod.ext ((hV.verifyExisting hv hv' t t' i hcore).symm.trans haccept) rfl
  · rename_i hstarted
    obtain ⟨hthreads, hfree, hactive⟩ := buildReplayStartContext h.alike startedIds
    have hanswer := verifyTaskStart hV hv hv' t.name i hthreads hfree hactive
    dsimp only at hpermit
    split at hpermit
    · rename_i haccept
      obtain ⟨-, rfl⟩ := Prod.mk.inj hpermit
      refine ⟨V.onTaskStarted (V.verifyTaskStart tr'.world.verifier t.name i
        (tr'.world.buildReplayStartContext startedIds)).2 t.name i t.id, ?_,
        reports ++ [Report.started t.name i t.id], ?_, ?_⟩
      · rw [if_neg hstarted]
        dsimp only
        rw [if_pos (hanswer ▸ haccept)]
      · exact (hv.asks (Asks.none.verifyTaskStart ..)).started t.name i t.id
      · exact (hv'.asks (Asks.none.verifyTaskStart ..)).started t.name i t.id
    · rename_i haccept
      exact absurd (congrArg Prod.fst hpermit) haccept

/-- **The same step of the same task.** -/
theorem after (h : Matches R V tr tr') (hR : R.Emits emit) (hP : P.Deterministic)
    (ht : tr.world.task? i j = some t) (ht' : tr'.world.task? i j = some t')
    (hcore : t.core = t'.core) (isNew : Bool) :
    Matches R V (tr.after R V i j isNew t) (tr'.after R V i j isNew t') := by
  have hstep : (tr.world.stepOf i t).1 = (tr'.world.stepOf i t').1 :=
    h.alike.stepOf_of_deterministic hP hcore i
  have hstepped : (R.drainTask (t.stepped (tr.world.stepOf i t).1 tr.world.seqno)).core =
      (R.drainTask (t'.stepped (tr'.world.stepOf i t').1 tr'.world.seqno)).core := by
    rw [R.core_drainTask, R.core_drainTask, hstep]
    exact Task.core_stepped hcore _ _ _
  refine ⟨?_, ?_, h.full, ?_, hR.quiet_after, hR.quiet_after⟩
  · exact ((h.alike.stepTask hstep).mapTasks R.core_drainTask R.core_drainTask).reportFinish V i j
  · rw [Trace.after_seq ht, Trace.after_seq ht', hR.drainEvents _ i j t h.quiet ht,
      hR.drainEvents _ i j t' h.quiet' ht', h.seq, Task.core_toTaskInfo hcore,
      hR.response_congr _ _ i hstepped, hstep]
  · obtain ⟨reports, hv, hv'⟩ := h.reports
    have hcount : (tr.after R V i j isNew t).world.threadsCount = tr.world.threadsCount := by
      obtain ⟨v, hv⟩ := Trace.after_world_eq (R := R) (V := V) i j isNew t tr
      rw [hv]
      rfl
    rw [hcount, Trace.after_verifier ht, Trace.after_verifier ht', ← hstep]
    split
    · refine ⟨_, hv.finished _ i, ?_⟩
      rw [hstepped, hstep]
      exact hv'.finished _ i
    · exact ⟨reports, hv, hv'⟩

end Matches

/-! ### Explorations and their replays -/

/-- The replay has followed the exploration so far. -/
structure Explore.Replayed (R : Recorder P E) (V : Verifier P ν)
    (x : Explore P ν ρ E) (y : Replay P ν E) : Prop where
  matching : Matches R V x.trace y.trace
  started : y.started = x.startedIds
  threadCutoff : y.threadCutoff = []
  resumed : y.resumed = x.trace.full
  numbered : x.trace.world.Numbered

namespace Explore.Replayed

variable {R : Recorder P E} {S : Strategy V ρ} {x x' : Explore P ν ρ E} {y : Replay P ν E}
  {emit : TaskInfo P → ℕ → List (DualEventKind × Option P.Val) → List E}

/-- The replay admits the task that the exploration admits. -/
theorem permit (h : Explore.Replayed R V x y) (hV : V.Determined) {v v' : ν} {s : ρ} {i j : ℕ}
    {t : Task P} (hasks : Asks V x.trace.world.verifier v) (ht : x.trace.world.task? i j = some t)
    (hpermit : (x.asked v s).trace.world.permit V x.startedIds i t = (true, v')) :
    ∃ t' u, y.trace.world.getTask t.id = some (i, j) ∧ y.trace.world.task? i j = some t' ∧
      t.core = t'.core ∧ y.trace.world.permit V y.started i t' = (true, u) ∧
      Matches R V (x.asked v' s).trace (y.setVerifier u).trace := by
  obtain ⟨t', ht', hcore⟩ := h.matching.alike.exists_task ht
  have hget : y.trace.world.getTask t'.id = some (i, j) :=
    (h.matching.alike.numbered h.numbered).getTask ht'
  -- `NextSchedule` has only asked the verifier.
  have hasked : Matches R V (x.asked v s).trace y.trace := by
    obtain ⟨reports, hv, hv'⟩ := h.matching.reports
    exact h.matching.setVerifier ⟨reports, hv.asks hasks, hv'⟩
  obtain ⟨u, hu, hreports⟩ := hasked.permit hV hcore x.startedIds i hpermit
  rw [← h.started] at hu
  exact ⟨t', u, Task.core_id hcore ▸ hget, ht', hcore, hu, hasked.setVerifier hreports⟩

/-- A step of the exploration is followed by a step of the replay that resumes the task. -/
theorem step (h : Explore.Replayed R V x y) (hR : R.Emits emit) (hP : P.Deterministic)
    (hV : V.Determined) {v v' : ν} {s : ρ} {i j : ℕ} {t : Task P} {tr : Trace P ν E}
    (hasks : Asks V x.trace.world.verifier v) (ht : x.trace.world.task? i j = some t)
    (hpermit : (x.asked v s).trace.world.permit V x.startedIds i t = (true, v'))
    (htr : (x.asked v' s).perform R V i j t = some tr) {mode : ReplayMode} {isLast : Bool}
    (hmode : ¬ (mode = .completeOnLast ∧ isLast = true)) :
    ∃ y', y.step R V mode isLast t.id = some y' ∧
      Explore.Replayed R V ((x.asked v' s).performed i j t.id tr) y' := by
  obtain ⟨t', u, hget, ht', hcore, hu, hmatches⟩ := h.permit hV hasks ht hpermit
  have hid : t'.id = t.id := (Task.core_id hcore).symm
  obtain ⟨t₁, ht₁, hret, rfl⟩ := Trace.perform_cases htr
  obtain rfl : t₁ = t := Option.some.inj (ht₁.symm.trans ht)
  refine ⟨_, Replay.step_eq_resumed hget ht' (h.threadCutoff ▸ List.not_mem_nil) hu
    (Task.core_returned hcore ▸ hret) hmode, ?_, ?_, h.threadCutoff, ?_, ?_⟩
  · have hadmitted : Matches R V ((x.asked v' s).trace.pushFull t₁.id)
        ((y.setVerifier u).admitted i j t') := by
      rw [Replay.admitted, hid]
      exact (hmatches.clear hR i j).pushFull t₁.id
    rw [h.started, hid]
    exact hadmitted.after hR hP ht₁ (Replay.admitted_task? (x := y.setVerifier u) ht') hcore _
  · show addStarted y.started t'.id = addStarted x.startedIds t₁.id
    rw [h.started, hid]
  · show y.resumed ++ [t'.id] = x.trace.full ++ [t₁.id]
    rw [h.resumed, hid]
  · exact h.numbered.congr Trace.after_infos

end Explore.Replayed

section Runs

variable {R : Recorder P E} {S : Strategy V ρ} {x x' : Explore P ν ρ E} {y : Replay P ν E}
  {mode : ReplayMode} {emit : TaskInfo P → ℕ → List (DualEventKind × Option P.Val) → List E}
  {w : World P ν}

/-- If the exploration was not stopped, the replay of its full history follows it. -/
def Explore.FollowedFrom (R : Recorder P E) (V : Verifier P ν)
    (mode : ReplayMode) (y : Replay P ν E) (x : Explore P ν ρ E) : Prop :=
  x.status = .running ∨ x.status = .ended false →
    ∃ y', Replay.resumeAll R V mode x.trace.full y = some y' ∧ Explore.Replayed R V x y'

theorem Explore.FollowedFrom.iterates (h : Explore.FollowedFrom R V mode y x) (hR : R.Emits emit)
    (hP : P.Deterministic) (hV : V.Determined) (hx' : Explore.Iterates R V x x') :
    Explore.FollowedFrom R V mode y x' := by
  intro hstatus
  cases hx' with
  | idle => exact h hstatus
  | finished hrunning =>
    obtain ⟨y', hrun, hreplayed⟩ := h (.inl hrunning)
    exact ⟨y', hrun, hreplayed.matching, hreplayed.started, hreplayed.threadCutoff,
      hreplayed.resumed, hreplayed.numbered⟩
  | stopped _ hstop =>
    obtain hstatus | hstatus := hstatus
    · exact absurd hstatus hstop.1
    · exact absurd hstatus hstop.2
  | performed hrunning hasks ht hpermit htr =>
    obtain ⟨y₁, hrun, hreplayed⟩ := h (.inl hrunning)
    have hnotLast : ¬ (mode = .completeOnLast ∧ false = true) := fun h => Bool.false_ne_true h.2
    obtain ⟨y', hstep, hreplayed'⟩ := hreplayed.step hR hP hV hasks ht hpermit htr hnotLast
    refine ⟨y', ?_, hreplayed'⟩
    obtain ⟨t₁, -, -, rfl⟩ := Trace.perform_cases htr
    show Replay.resumeAll R V mode (x.trace.full ++ [_]) y = some y'
    rw [Replay.resumeAll_concat, hrun, Option.bind_some, hstep]

theorem Explore.resets_iterates (h : w.Resets x.trace.world) (hx' : Explore.Iterates R V x x') :
    w.Resets x'.trace.world := by
  cases hx' with
  | idle => exact h
  | finished => exact h
  | stopped => exact h.setVerifier _
  | performed _ _ _ _ htr =>
    obtain ⟨t, ht, hret, rfl⟩ := Trace.perform_cases htr
    exact World.Resets.after (h.setVerifier _) ht hret

theorem Explore.infos_iterates (hx' : Explore.Iterates R V x x') :
    x'.trace.world.infos = x.trace.world.infos := by
  cases hx' with
  | idle => rfl
  | finished => rfl
  | stopped => rfl
  | performed _ _ _ _ htr =>
    obtain ⟨t, -, -, rfl⟩ := Trace.perform_cases htr
    exact Trace.after_infos

variable {reset : World P ν → ρ → World P ν × ρ}
  (hreset : ∀ w s, (reset w s).1 = w.resetCurrentRound V) {x : Explore P ν ρ E}
  {history : NonLinearizableHistory E} {check : List E → Bool}

include hreset

theorem exploreAttempt_infos (w : World P ν) (s : ρ) (fuel : ℕ) :
    (exploreAttempt R S reset fuel w s).trace.world.infos = w.infos := by
  refine exploreAttempt_induction (Q := fun x => x.trace.world.infos = w.infos) ?_ ?_
  · show (reset w s).1.infos = w.infos
    rw [hreset, World.infos_resetCurrentRound]
  · intro x x' hx hx'
    exact (Explore.infos_iterates hx').trans hx

theorem exploreAttempt_resets (w : World P ν) (s : ρ) (fuel : ℕ) :
    (w.resetCurrentRound V).Resets (exploreAttempt R S reset fuel w s).trace.world := by
  refine exploreAttempt_induction (Q := fun x => (w.resetCurrentRound V).Resets x.trace.world)
    ?_ fun x x' h hx' => Explore.resets_iterates h hx'
  rw [hreset]
  exact World.Resets.reset w

/-- An exploration and a replay of the round that it leaves start alike. -/
theorem exploreAttempt_init (hR : R.Emits emit) (hP : P.Deterministic) (hw : w.Numbered) (s : ρ)
    (fuel : ℕ) : Explore.Replayed R V (Explore.init (reset w s).1 (reset w s).2) { trace :=
      ⟨(exploreAttempt R S reset fuel w s).trace.world.resetCurrentRound V, [], []⟩ } := by
  have hresets := exploreAttempt_resets (R := R) (S := S) hreset w s fuel
  rw [hreset]
  refine ⟨⟨hresets.alike hP, rfl, rfl, ⟨[], .roundStart _, ?_⟩, ?_, ?_⟩, rfl, rfl, rfl, ?_⟩
  · have hcount : (exploreAttempt R S reset fuel w s).trace.world.threadsCount = w.threadsCount :=
      hresets.threadsCount
    show Reported V w.threadsCount [] (V.onRoundStart _ (exploreAttempt R S reset fuel w
      s).trace.world.threadsCount)
    rw [hcount]
    exact .roundStart _
  · exact World.quiet_resetCurrentRound V hR
  · exact World.quiet_resetCurrentRound V hR
  · exact hw.congr (World.infos_resetCurrentRound V)

/-- A replay of the full history follows an exploration, if it starts from the round that the
exploration leaves. -/
theorem exploreAttempt_replayed (hR : R.Emits emit) (hP : P.Deterministic) (hV : V.Determined)
    (hw : w.Numbered) (s : ρ) (fuel : ℕ) (hx : exploreAttempt R S reset fuel w s = x)
    (hended : x.status = .ended false) :
    ∃ y, replayRun R (V := V) x.trace.world x.trace.full .noForceComplete = some y ∧
      Explore.Replayed R V x y := by
  have hinit := exploreAttempt_init (S := S) hreset hR hP hw s fuel
  have hfollowed : Explore.FollowedFrom R V .noForceComplete
      { trace := ⟨x.trace.world.resetCurrentRound V, [], []⟩ } x := by
    rw [← hx]
    exact exploreAttempt_induction (fun _ => ⟨_, rfl, hinit⟩)
      fun _ _ h hx' => h.iterates hR hP hV hx'
  rw [replayRun, Replay.run_noForceComplete]
  exact hfollowed (.inr hended)

/-- What is reported by an exploration without a deadlock. -/
theorem exploreRound_ended {policy : DeadlockPolicy} {fuel runs : ℕ} (hw : w.Numbered) {s : ρ}
    (hx : exploreRound R S reset check policy fuel runs w s = some (some history, x))
    (hended : x.status = .ended false) :
    ∃ w' s', w'.Numbered ∧ exploreAttempt R S reset fuel w' s' = x ∧
      check x.trace.seq = false ∧
      history = ⟨x.trace.full, x.trace.seq, .nonLinearizableHistory⟩ := by
  have hkeeps (w' : World P ν) (s' : ρ) (hw' : w'.Numbered) :
      (exploreAttempt R S reset fuel w' s').trace.world.Numbered :=
    hw'.congr (exploreAttempt_infos hreset w' s' fuel)
  obtain ⟨w', s', d, hw', hattempt, hstatus, hresult⟩ := exploreRound_some hkeeps hw hx
  obtain rfl : d = false := Status.ended.inj (hstatus.symm.trans hended)
  refine ⟨w', s', hw', hattempt, ?_⟩
  rw [Explore.result, if_neg (fun h => Bool.false_ne_true h.1), checked] at hresult
  split at hresult
  · cases hresult
  · rename_i hcheck
    exact ⟨by simpa using hcheck, (Option.some.inj hresult).symm⟩

/-- The replay of an exploration reports what the exploration reported, and resumes the tasks in the
same order. -/
theorem exploreRound_replayRound (hR : R.Emits emit) (hP : P.Deterministic) (hV : V.Determined)
    {policy policy' : DeadlockPolicy} {fuel runs : ℕ} (hw : w.Numbered) {s : ρ}
    (hx : exploreRound R S reset check policy fuel runs w s = some (some history, x))
    (hended : x.status = .ended false) :
    ∃ y, replayRound R S check policy' x.trace.world x.strategy
        (getTasksOrdering history.full []) .noForceComplete = some (some history, y) ∧
      y.1.resumed = history.full ∧ y.1.trace.seq = history.seq := by
  obtain ⟨w', s', hw', hattempt, hcheck, rfl⟩ := exploreRound_ended hreset hw hx hended
  obtain ⟨y, hrun, hreplayed⟩ := exploreAttempt_replayed hreset hR hP hV hw' s' fuel hattempt hended
  refine ⟨(y, S.resetCurrentRound (x.trace.world.resetCurrentRound V) x.strategy), ?_,
    hreplayed.resumed, hreplayed.matching.seq⟩
  have hy : y.result R .noForceComplete check policy' x.trace.full =
      some ⟨x.trace.full, x.trace.seq, .nonLinearizableHistory⟩ := by
    simp only [Replay.result, checked, hreplayed.matching.seq, hreplayed.matching.full, hcheck]
    split <;> rfl
  rw [replayRound, getTasksOrdering_nil, hrun, Option.map_some, hy]

end Runs

/-- **Unforced replay is faithful**, in both schedulers: after an exploration that ended without a
deadlock, the replay of its full history resumes the tasks in the same order, and checks the same
history. -/
theorem unforced_replay_faithful (hP : P.Deterministic) (V : Verifier P ν)
    (hV : V.Determined) (S : Strategy V ρ) (w : World P ν) (hw : w.Numbered) (s : ρ)
    (policy policy' : DeadlockPolicy) (fuel runs : ℕ) :
    (∀ check history x,
      StrategyScheduler.exploreRound S check policy fuel runs w s = some (some history, x) →
      x.status = .ended false →
      ∃ y, StrategyScheduler.replayRound S check policy' x.trace.world x.strategy
          (getTasksOrdering history.full []) .noForceComplete = some (some history, y) ∧
        y.1.resumed = history.full ∧ y.1.trace.seq = history.seq) ∧
    (∀ check history x,
      DualStrategyScheduler.exploreRound S check policy fuel runs w s = some (some history, x) →
      x.status = .ended false →
      ∃ y, DualStrategyScheduler.replayRound S check policy' x.trace.world x.strategy
          (getTasksOrdering history.full []) .noForceComplete = some (some history, y) ∧
        y.1.resumed = history.full ∧ y.1.trace.seq = history.seq) :=
  ⟨fun _ _ _ hx hended => exploreRound_replayRound (fun _ _ => rfl) ordinaryRecorder_emits hP hV hw
      hx hended,
    fun _ _ _ hx hended => exploreRound_replayRound (fun _ _ => rfl) dualRecorder_emits hP hV hw
      hx hended⟩

end

theorem defaultStrategyTaskVerifier_determined :
    (defaultStrategyTaskVerifier : Verifier P ν).Determined where
  verify _ _ _ _ _ := rfl
  verifyStart _ _ _ _ _ _ _ _ _ := rfl
  verifyExisting _ _ _ _ _ _ := rfl

/-- A round with one task, and round-robin. -/
abbrev instantTask : World instantProgram Unit := (World.new 1 () () ()).build 0 instantBuilder

@[inherit_doc instantTask]
abbrev instantStrategy : Picker (P := instantProgram) (defaultStrategyTaskVerifier (ν := Unit))
    Unit ℕ :=
  roundRobinStrategy _ .first false

/-- A counter. Its method reads it in one step, and writes and returns in the next one what was
read. -/
def counterProgram : Program where
  Target := ℕ
  Env := Unit
  Fiber := Option ℕ
  Args := Unit
  Val := ℕ
  targetFactory _ := (0, ())
  resume _ _ read n m _ :=
    match read with
    | none => (⟨some n, n, m, none, none, [], none⟩, ())
    | some k => (⟨some k, k + 1, m, none, none, [], some k⟩, ())

/-- The builder of its tasks. -/
def counterBuilder : TaskBuilder counterProgram :=
  ⟨"add", fun _ _ => ((), ()), fun _ => none, false⟩

/-- A round with a task on each of two threads, and round-robin. -/
abbrev counterRound : World counterProgram Unit :=
  ((World.new 2 (0 : ℕ) () ()).build 0 counterBuilder).build 1 counterBuilder

@[inherit_doc counterRound]
abbrev counterStrategy : Picker (P := counterProgram) (defaultStrategyTaskVerifier (ν := Unit))
    Unit ℕ :=
  roundRobinStrategy _ .first false

theorem counterRound_numbered : counterRound.Numbered :=
  (((World.Serial.of_forall_nil fun _ hts => (List.mem_replicate.mp hts).2).build 0
    counterBuilder).build 1 counterBuilder).numbered

theorem counterProgram_deterministic : counterProgram.Deterministic :=
  ⟨fun _ _ => rfl, fun _ _ _ _ _ _ _ => rfl⟩

/-- What an operation has read. -/
def answer : HistoryEvent counterProgram → Option ℕ
  | .response _ result _ => result
  | .invoke _ _ => none

/-- A checker of the counter: no two operations read the same number. -/
def distinctAnswers (seq : List (HistoryEvent counterProgram)) : Bool :=
  decide (seq.filterMap answer).Nodup

/-- The exploration of this round: the two tasks take turns, and an update is lost. -/
abbrev lostUpdate :=
  StrategyScheduler.exploreRound counterStrategy.toStrategy distinctAnswers .fail 5 1 counterRound
    ⟨[counterBuilder], (), [none, none], 0⟩

/-- The exploration and the replay report the same. -/
theorem unforced_replay_lostUpdate :
    ∃ history x y, lostUpdate = some (some history, x) ∧ history.full = [0, 1, 0, 1] ∧
      StrategyScheduler.replayRound counterStrategy.toStrategy distinctAnswers .fail x.trace.world
          x.strategy (getTasksOrdering history.full []) .noForceComplete =
        some (some history, y) ∧ y.1.resumed = [0, 1, 0, 1] := by
  obtain ⟨history, x, hx, hstatus, hfull⟩ : ∃ history x, lostUpdate = some (some history, x) ∧
      x.status = .ended false ∧ history.full = [0, 1, 0, 1] := ⟨_, _, rfl, rfl, rfl⟩
  obtain ⟨y, hy, hresumed, -⟩ := (unforced_replay_faithful counterProgram_deterministic _
    defaultStrategyTaskVerifier_determined counterStrategy.toStrategy counterRound
    counterRound_numbered ⟨[counterBuilder], (), [none, none], 0⟩ .fail .fail 5 1).1
    distinctAnswers history x hx hstatus
  exact ⟨history, x, y, hx, hfull, hy, hresumed.trans hfull⟩

end Scheduler

end LTest
