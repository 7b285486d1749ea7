import LTest.Scheduler.Round

/-!
# Completed rounds

`RunRound` counts the tasks it starts, and leaves its loop when there are `max_tasks` of them and
all have returned. The count is not set back when the strategy asks for a restart, although the
histories are cleared then. So only if a strategy restarts before it has started a task, and starts
tasks only while this is allowed, a completed round has `max_tasks` tasks.

## Main definitions

* `World.Fresh` — a round without tasks
* `Full` — the history of a completed round
* `Strategy.InStep` — the condition on the strategy

## Main results

* `RoundCounted.iterates` — started tasks and start events are the tasks of the round
* `completed_round_full` — completed rounds of both schedulers are full
* `completed_round_after_restart` — a restart in the middle of a round
-/

namespace LTest

namespace Scheduler

variable {P : Program} {ν ρ E : Type} {w : World P ν}

/-- A round that has just been started. -/
structure World.Fresh (w : World P ν) : Prop where
  threads : ∀ ts ∈ w.threads, ts = []
  removed : w.removed = ∅

theorem World.Fresh.task?_eq_none (hw : w.Fresh) (i j : ℕ) :
    w.task? i j = none := Grid.get?_of_forall_nil hw.threads

/-- A history with all tasks of the round. -/
structure Full (R : Recorder P E) (maxTasks : ℕ) (tr : Trace P ν E) : Prop where
  /-- `maxTasks` tasks have start events. -/
  length : (R.starts tr.seq).length = maxTasks
  /-- They have one each. -/
  nodup : (R.starts tr.seq).Nodup
  /-- They are the tasks of the round. -/
  mem : ∀ id, id ∈ R.starts tr.seq ↔ ∃ i j t, tr.world.task? i j = some t ∧ t.id = id
  /-- All of them have returned. -/
  returned : ∀ i j t, tr.world.task? i j = some t → t.returned = true

section

variable {V : Verifier P ν}

/-- If the strategy is called, it asks for a restart only when no task has been started, and starts
a task only when fewer than `maxTasks` have been started. -/
def Strategy.InStep (S : Strategy V ρ) (maxTasks : ℕ) (r : Round P ν ρ E) : Prop :=
  r.status = .running → r.ending maxTasks = none →
    match (S.next (r.limit maxTasks).trace.world (r.limit maxTasks).strategy).1 with
    | .failure .needReplay => r.startedTasks = 0
    | .start _ _ => r.startedTasks < maxTasks
    | _ => True

/-! ### Counting -/

/-- What a scheduler does before it performs a task changes nothing that is counted. -/
structure Preparation (prep : ℕ → ℕ → Trace P ν E → Trace P ν E) : Prop where
  seq : ∀ i j tr, (prep i j tr).seq = tr.seq
  infos : ∀ i j tr, (prep i j tr).world.infos = tr.world.infos
  newTaskId : ∀ i j tr, (prep i j tr).world.newTaskId = tr.world.newTaskId
  removed : ∀ i j tr, (prep i j tr).world.removed = tr.world.removed

theorem StrategyScheduler.preparation :
    Preparation (prepare : ℕ → ℕ → Trace P ν (HistoryEvent P) → _) where
  seq _ _ _ := rfl
  infos _ _ _ := World.infos_modifyTask fun _ => rfl
  newTaskId _ _ _ := rfl
  removed _ _ _ := rfl

theorem DualStrategyScheduler.preparation :
    Preparation (prepare : ℕ → ℕ → Trace P ν (DualHistoryEvent P) → _) where
  seq _ _ _ := rfl
  infos _ _ _ := rfl
  newTaskId _ _ _ := rfl
  removed _ _ _ := rfl

/-- The start events are those of the tasks of the round. -/
structure Counted (R : Recorder P E) (tr : Trace P ν E) : Prop where
  nodup : (R.starts tr.seq).Nodup
  lt : ∀ id ∈ R.starts tr.seq, id < tr.world.newTaskId
  mem : ∀ id, id ∈ R.starts tr.seq ↔ ∃ i j t, Grid.get? tr.world.infos i j = some t ∧ t.id = id
  length : (R.starts tr.seq).length = Grid.size tr.world.infos
  removed : tr.world.removed = ∅

namespace Counted

variable {R : Recorder P E} {tr tr' : Trace P ν E}

theorem congr (h : Counted R tr) (hseq : R.starts tr'.seq = R.starts tr.seq)
    (hinfos : tr'.world.infos = tr.world.infos) (hid : tr'.world.newTaskId = tr.world.newTaskId)
    (hremoved : tr'.world.removed = tr.world.removed) : Counted R tr' where
  nodup := hseq ▸ h.nodup
  lt := by
    rw [hseq, hid]
    exact h.lt
  mem := by
    rw [hseq, hinfos]
    exact h.mem
  length := by
    rw [hseq, hinfos]
    exact h.length
  removed := hremoved.trans h.removed

/-- Nothing has been started in a round without tasks. -/
theorem of_empty (hw : ∀ ts ∈ w.threads, ts = []) (hremoved : w.removed = ∅) :
    Counted R ⟨w, [], []⟩ where
  nodup := List.nodup_nil
  lt := by simp
  mem id := by
    refine ⟨nofun, ?_⟩
    rintro ⟨i, j, t, ht, -⟩
    rw [World.infos_get?, World.task?, Grid.get?_of_forall_nil hw] at ht
    cases ht
  length := by
    show 0 = Grid.size (w.threads.map (·.map Task.toTaskInfo))
    rw [Grid.size_map, Grid.size_of_forall_nil hw]
  removed := hremoved

/-- A step of a task does not change what is counted, but for its start event. -/
theorem after_newTaskId_removed {i j : ℕ} {isNew : Bool} {t : Task P} :
    (tr.after R V i j isNew t).world.newTaskId = tr.world.newTaskId ∧
      (tr.after R V i j isNew t).world.removed = tr.world.removed := by
  obtain ⟨v, hv⟩ := Trace.after_world_eq (R := R) (V := V) i j isNew t tr
  rw [hv]
  exact ⟨rfl, rfl⟩

theorem perform {i j : ℕ} (h : Counted R tr) (htr : tr.perform R V i j false = some tr') :
    Counted R tr' := by
  obtain ⟨t, ht, -, rfl⟩ := Trace.perform_cases htr
  refine h.congr ?_ Trace.after_infos after_newTaskId_removed.1 after_newTaskId_removed.2
  rw [Trace.after_starts ht, if_neg Bool.false_ne_true, List.append_nil]

theorem start {tr₁ : Trace P ν E} {i j : ℕ} {b : TaskBuilder P} (h : Counted R tr)
    (hj : j = Grid.rowLength tr.world.threads i) (hseq : tr₁.seq = tr.seq)
    (hinfos : tr₁.world.infos = (tr.world.build i b).infos)
    (hid : tr₁.world.newTaskId = (tr.world.build i b).newTaskId)
    (hremoved : tr₁.world.removed = tr.world.removed) (htr : tr₁.perform R V i j true = some tr') :
    Counted R tr' ∧ (R.starts tr'.seq).length = (R.starts tr.seq).length + 1 := by
  obtain ⟨t, ht, -, rfl⟩ := Trace.perform_cases htr
  have hinfos' : (tr₁.after R V i j true t).world.infos =
      Grid.push tr.world.infos i (tr.world.built i b).toTaskInfo :=
    (Trace.after_infos.trans hinfos).trans (World.infos_build b)
  have hid' : (tr₁.after R V i j true t).world.newTaskId = tr.world.newTaskId + 1 :=
    after_newTaskId_removed.1.trans hid
  have hi : i < tr.world.infos.length := by
    have hlt := World.task?_lt ht
    rwa [← World.length_infos, hinfos, World.infos_build, Grid.length_push] at hlt
  have hrow : Grid.rowLength tr.world.infos i = j := (Grid.rowLength_map _).trans hj.symm
  have hnew : t.id = tr.world.newTaskId := by
    have hget : Grid.get? tr₁.world.infos i j = some t.toTaskInfo := by
      rw [World.infos_get?, ht, Option.map_some]
    rw [hinfos, World.infos_build, ← hrow, Grid.get?_push_self hi] at hget
    exact congrArg TaskInfo.id (Option.some.inj hget).symm
  have hstarts' : R.starts (tr₁.after R V i j true t).seq =
      R.starts tr.seq ++ [tr.world.newTaskId] := by
    rw [Trace.after_starts ht, hseq, hnew, if_pos rfl]
  refine ⟨⟨?_, ?_, ?_, ?_, ?_⟩, by simp [hstarts']⟩
  · rw [hstarts', List.nodup_append]
    refine ⟨h.nodup, List.nodup_singleton _, fun id hmem id' hmem' => ?_⟩
    have hlt := h.lt id hmem
    rw [List.mem_singleton.mp hmem']
    omega
  · intro id hmem
    rw [hstarts', List.mem_append, List.mem_singleton] at hmem
    rw [hid']
    cases hmem with
    | inl hmem => exact Nat.lt_succ_of_lt (h.lt id hmem)
    | inr hmem => omega
  · intro id
    rw [hstarts', hinfos', List.mem_append, List.mem_singleton, h.mem]
    constructor
    · rintro (⟨i', j', t', ht', rfl⟩ | rfl)
      · exact ⟨i', j', t', Grid.get?_push_of_get? ht', rfl⟩
      · exact ⟨i, _, _, Grid.get?_push_self hi, rfl⟩
    · rintro ⟨i', j', t', ht', rfl⟩
      obtain ⟨-, -, rfl⟩ | ht' := Grid.get?_push_cases ht'
      · exact .inr rfl
      · exact .inl ⟨i', j', t', ht', rfl⟩
  · rw [hstarts', hinfos', Grid.size_push hi, ← h.length]
    simp
  · exact after_newTaskId_removed.2.trans (hremoved.trans h.removed)

end Counted

/-! ### Runs -/

/-- The start events of a generated round. -/
structure RoundCounted (R : Recorder P E) (maxTasks : ℕ) (r : Round P ν ρ E) : Prop where
  /-- They are those of its tasks. -/
  counted : Counted R r.trace
  /-- Their number is the number of started tasks. -/
  started : r.startedTasks = (R.starts r.trace.seq).length
  /-- It is at most `maxTasks`. -/
  started_le : r.startedTasks ≤ maxTasks
  /-- If the loop was left without a deadlock, all have been started and have returned. -/
  ended : r.status = .ended false → maxTasks ≤ r.startedTasks ∧
    (r.trace.world.getUnfinishedAndRunnable none).1 = false

namespace RoundCounted

variable {R : Recorder P E} {S : Strategy V ρ} {prep : ℕ → ℕ → Trace P ν E → Trace P ν E}
  {maxTasks : ℕ} {r r' : Round P ν ρ E}

theorem limit (h : RoundCounted R maxTasks r) : RoundCounted R maxTasks (r.limit maxTasks) := by
  unfold Round.limit
  split
  · exact h
  · exact ⟨h.counted.congr rfl rfl rfl rfl, h.started, h.started_le, h.ended⟩

/-- The part of an iteration after the call of `Next`. -/
theorem follows (hprep : Preparation prep) {n : Next P} (h : RoundCounted R maxTasks r)
    (hrunning : r.status = .running) (hreplay : n = .failure .needReplay → r.startedTasks = 0)
    (hstart : ∀ i b, n = .start i b → r.startedTasks < maxTasks)
    (hr' : Round.Follows R S prep r n r') : r'.status = .aborted ∨ RoundCounted R maxTasks r' := by
  cases hr' with
  | deadlock => exact .inr ⟨h.counted, h.started, h.started_le, nofun⟩
  | needReplay =>
    refine .inr ⟨?_, hreplay rfl, h.started_le, fun hs => ?_⟩
    · exact Counted.of_empty (fun ts hts => (List.mem_replicate.mp hts).2) h.counted.removed
    · cases hrunning.symm.trans hs
  | exhausted hstatus =>
    refine .inr ⟨h.counted, h.started, h.started_le, fun hs => ?_⟩
    obtain rfl | rfl := hstatus <;> cases hs
  | aborted habort _ => exact .inl habort
  | start hj htr =>
    obtain ⟨hcounted, hlength⟩ := h.counted.start hj (hprep.seq _ _ (r.build _ _).trace)
      (hprep.infos _ _ _) (hprep.newTaskId _ _ _) (hprep.removed _ _ _) htr
    refine .inr ⟨hcounted, (congrArg Nat.succ h.started).trans hlength.symm,
      Nat.succ_le_of_lt (hstart _ _ rfl), fun hs => ?_⟩
    cases hrunning.symm.trans hs
  | resume htr =>
    have hcounted (i j : ℕ) : Counted R (prep i j r.trace) :=
      h.counted.congr (congrArg R.starts (hprep.seq i j r.trace)) (hprep.infos i j _)
        (hprep.newTaskId i j _) (hprep.removed i j _)
    obtain ⟨t, ht, -, rfl⟩ := Trace.perform_cases htr
    refine .inr ⟨(hcounted _ _).perform htr, ?_, h.started_le, fun hs => ?_⟩
    · have hstarts : R.starts (Trace.after R V _ _ false t (prep _ _ r.trace)).seq = _ :=
        Trace.after_starts ht
      rw [hprep.seq, if_neg Bool.false_ne_true, List.append_nil] at hstarts
      exact h.started.trans (congrArg List.length hstarts.symm)
    · cases hrunning.symm.trans hs

theorem iterates (hprep : Preparation prep) (h : r.status = .aborted ∨ RoundCounted R maxTasks r)
    (hstep : S.InStep maxTasks r) (hr' : Round.Iterates R S prep maxTasks r r') :
    r'.status = .aborted ∨ RoundCounted R maxTasks r' := by
  cases hr' with
  | idle => exact h
  | ended hrunning hover =>
    obtain habort | h := h
    · cases hrunning.symm.trans habort
    have h' := h.limit
    refine .inr ⟨h'.counted, h'.started, h'.started_le, fun hs => ?_⟩
    obtain rfl : _ = false := Status.ended.inj hs
    exact Round.ending_false hover
  | follows hrunning hover hnext hfollows =>
    obtain habort | h := h
    · cases hrunning.symm.trans habort
    have hstep := hstep hrunning hover
    rw [hnext] at hstep
    have hstatus : (r.limit maxTasks).status = .running := Round.limit_status.trans hrunning
    rename_i n v s
    have h' := h.limit
    have hasked : RoundCounted R maxTasks ((r.limit maxTasks).asked v s) :=
      ⟨h'.counted.congr rfl rfl rfl rfl, h'.started, h'.started_le, h'.ended⟩
    refine follows hprep hasked hstatus (fun hn => ?_) (fun i b hn => ?_) hfollows
    · subst hn
      exact Round.limit_startedTasks.trans hstep
    · subst hn
      exact Round.limit_startedTasks.trans_lt hstep

theorem iterate (hprep : Preparation prep) {step : Round P ν ρ E → Round P ν ρ E}
    (hstep : ∀ r, Round.Iterates R S prep maxTasks r (step r)) (h : RoundCounted R maxTasks r)
    (n : ℕ) (hin : ∀ k < n, S.InStep maxTasks (step^[k] r)) :
    (step^[n] r).status = .aborted ∨ RoundCounted R maxTasks (step^[n] r) := by
  induction n with
  | zero => exact .inr h
  | succ n ih =>
    rw [Function.iterate_succ_apply']
    exact iterates hprep (ih fun k hk => hin k (Nat.lt_succ_of_lt hk)) (hin n (Nat.lt_succ_self n))
      (hstep _)

theorem init (hw : w.Fresh) (s : ρ) : RoundCounted R maxTasks (Round.init w s) where
  counted := Counted.of_empty hw.threads hw.removed
  started := rfl
  started_le := Nat.zero_le _
  ended := nofun

/-- A round whose loop was left without a deadlock is full. -/
theorem full (h : RoundCounted R maxTasks r) (hended : r.status = .ended false) :
    Full R maxTasks r.trace where
  length := h.started ▸ Nat.le_antisymm h.started_le (h.ended hended).1
  nodup := h.counted.nodup
  mem id := by
    rw [h.counted.mem]
    constructor
    · rintro ⟨i, j, info, hinfo, rfl⟩
      rw [World.infos_get?, Option.map_eq_some_iff] at hinfo
      obtain ⟨t, ht, rfl⟩ := hinfo
      exact ⟨i, j, t, ht, rfl⟩
    · rintro ⟨i, j, t, ht, rfl⟩
      exact ⟨i, j, t.toTaskInfo, by rw [World.infos_get?, ht, Option.map_some], rfl⟩
  returned i j t ht := by
    by_contra hret
    rw [Bool.not_eq_true] at hret
    have hnone := (h.ended hended).2
    have hany : (r.trace.world.threads.any fun ts =>
        ts.any (r.trace.world.isUnfinished none)) = true := by
      refine Grid.any_any_iff.mpr ⟨i, j, t, ht, ?_⟩
      simp [World.isUnfinished, World.isTaskRemoved, h.counted.removed, hret]
    cases hany.symm.trans hnone

end RoundCounted

/-- **Completed rounds are full**, in both schedulers, if the strategy is in step in every iteration
of the round. -/
theorem completed_round_full (S : Strategy V ρ) (maxTasks : ℕ) (w : World P ν) (hw : w.Fresh)
    (s : ρ) (n : ℕ) :
    ((∀ k < n, S.InStep maxTasks (StrategyScheduler.run S maxTasks w s k)) →
      (StrategyScheduler.run S maxTasks w s n).status = .ended false →
      Full ordinaryRecorder maxTasks (StrategyScheduler.run S maxTasks w s n).trace) ∧
    ((∀ k < n, S.InStep maxTasks (DualStrategyScheduler.run S maxTasks w s k)) →
      (DualStrategyScheduler.run S maxTasks w s n).status = .ended false →
      Full dualRecorder maxTasks (DualStrategyScheduler.run S maxTasks w s n).trace) := by
  constructor
  · intro hin hended
    obtain habort | h := RoundCounted.iterate StrategyScheduler.preparation
      (StrategyScheduler.step_cases maxTasks) (RoundCounted.init hw s) n hin
    · cases habort.symm.trans hended
    · exact h.full hended
  · intro hin hended
    obtain habort | h := RoundCounted.iterate DualStrategyScheduler.preparation
      (DualStrategyScheduler.step_cases maxTasks) (RoundCounted.init hw s) n hin
    · cases habort.symm.trans hended
    · exact h.full hended

end

theorem World.fresh_new (n : ℕ) (target : P.Target) (env : P.Env) (v : ν) :
    (World.new n target env v).Fresh where
  threads _ h := (List.mem_replicate.mp h).2
  removed := rfl

/-- A strategy that starts a task on the only thread, whenever it is called. -/
def startAlways : Strategy (P := instantProgram) (defaultStrategyTaskVerifier (ν := Unit)) ℕ :=
  .ofOutcomes _ fun _ => .start 0 instantBuilder

theorem completed_round_full_two :
    Full ordinaryRecorder 2
        (StrategyScheduler.run startAlways 2 (World.new 1 () () ()) 0 3).trace ∧
      Full dualRecorder 2
        (DualStrategyScheduler.run startAlways 2 (World.new 1 () () ()) 0 3).trace := by
  have hfull := completed_round_full startAlways 2 (World.new 1 () () ()) (World.fresh_new 1 _ _ _)
    0 3
  refine ⟨hfull.1 (fun k hk _ hover => ?_) rfl, hfull.2 (fun k hk _ hover => ?_) rfl⟩
  · match k with
    | 0 => exact Nat.zero_lt_two
    | 1 => exact Nat.one_lt_two
    | 2 => exact absurd hover (by decide)
  · match k with
    | 0 => exact Nat.zero_lt_two
    | 1 => exact Nat.one_lt_two
    | 2 => exact absurd hover (by decide)

/-- A strategy that starts a task, asks for a restart, and then starts tasks. -/
def restartOnce : Strategy (P := instantProgram) (defaultStrategyTaskVerifier (ν := Unit)) ℕ :=
  .ofOutcomes _ fun k => if k = 1 then .failure .needReplay else .start 0 instantBuilder

/-- A restart in the middle of a round: the loops are left without a deadlock, and the histories
have one task, not two. -/
theorem completed_round_after_restart :
    (StrategyScheduler.run restartOnce 2 (World.new 1 () () ()) 0 4).status = .ended false ∧
      (ordinaryRecorder.starts
        (StrategyScheduler.run restartOnce 2 (World.new 1 () () ()) 0 4).trace.seq).length = 1 ∧
      (DualStrategyScheduler.run restartOnce 2 (World.new 1 () () ()) 0 4).status = .ended false ∧
      (dualRecorder.starts
        (DualStrategyScheduler.run restartOnce 2 (World.new 1 () () ()) 0 4).trace.seq).length =
          1 := by
  decide

end Scheduler

end LTest
