import LTest.Scheduler.RepositoryVerifiers

/-!
# Started tasks stay schedulable

Before a strategy picks a thread, it asks the verifier whether the current task of the thread may go
on. If the verifier keeps what it has said of a thread until the thread has finished a task, every
task that was admitted may go on until it returns. So it is in generated rounds, where tasks are
admitted when they are built, and in explored rounds, where they are admitted at their first step.

## Main definitions

* `World.AllSchedulable`, `Explore.AllSchedulable` — all tasks that were started may go on
* `Admitted`, `ExploreAdmitted` — the invariants
* `RepositoryVerifier.KeepsSchedulable` — started tasks stay schedulable, with every strategy

## Main results

* `Admitted.iterates` — an iteration of `RunRound`
* `ExploreAdmitted.step` — an iteration of `ExploreRound`
* `started_tasks_schedulable` — the headline
-/

namespace LTest

namespace Scheduler

variable {P : Program} {ν γ ρ E : Type}

/-- The verifier lets all tasks go on that have not returned. -/
def World.AllSchedulable (V : Verifier P ν) (w : World P ν) : Prop :=
  ∀ i j t, w.task? i j = some t → t.returned = false → V.Accepts w.verifier t i

section Rounds

variable {V : Verifier P ν} {ok : ν → ℕ → String → Prop}

/-! ### Asking the verifier -/

variable {K : Picker V γ ρ} {w : World P ν} {s : Base P γ ρ} {v : ν}

/-- **What `Next` returns** if questions change nothing: a deadlock, a task that was admitted, or
the current task of a thread. -/
theorem Picker.AsksFirst.next_cases (hK : K.AsksFirst) (hV : V.Remembers ok) {s' : Base P γ ρ}
    {n : Next P} (h : K.next w s = (n, v, s')) :
    (n = .failure .deadlock ∧ v = w.verifier) ∨
      (∃ i b, n = .start i b ∧ i < w.threads.length ∧ w.isFree i = true ∧
        ok w.verifier i b.name ∧ v = V.onTaskStarted w.verifier b.name i w.newTaskId) ∨
      ∃ i j, n = .resume i j ∧ v = w.verifier := by
  have hpick : (K.nextThreadId w s).2.1 = w.verifier := hV.pure (hK w s)
  have hself : w.setVerifier w.verifier = w := rfl
  rw [next, hpick, hself] at h
  cases hi : (K.nextThreadId w s).1 with
  | none =>
    rw [hi, nextVerifiedFor, Prod.mk.injEq, Prod.mk.injEq] at h
    exact .inl ⟨h.1.symm, h.2.1.symm⟩
  | some i =>
    rw [hi] at h
    cases n with
    | failure f =>
      rw [nextVerifiedFor] at h
      split at h
      · dsimp only at h
        split at h
        · rename_i v' hfound
          simp only [Prod.mk.injEq] at h
          obtain ⟨hf, rfl, -⟩ := h
          have hasks : Asks V w.verifier (findConstructor V w.startContext i w.verifier
            ((K.nextThreadId w s).2.2.shuffled K.rng).constructors).2 := Asks.none.findConstructor _
          rw [hfound] at hasks
          exact .inl ⟨hf.symm, hV.pure hasks⟩
        · cases h
      · cases h
    | start i' b =>
      obtain ⟨rfl, hfree, v₀, v₁, hasks, hverify, rfl⟩ := nextVerifiedFor_start h
      obtain rfl := hV.pure hasks
      obtain ⟨hok, rfl⟩ := hV.verifyTaskStart hverify
      exact .inr (.inl ⟨i', b, rfl, K.nextThreadId_lt w s i' hi, hfree, hok, rfl⟩)
    | resume i' j =>
      rw [nextVerifiedFor] at h
      split at h
      · dsimp only at h
        split at h <;> cases h
      · simp only [Prod.mk.injEq] at h
        exact .inr (.inr ⟨i', j, rfl, h.2.1.symm⟩)

/-! ### Generated rounds -/

/-- All tasks that have not returned were admitted. -/
structure Admitted (ok : ν → ℕ → String → Prop) (w : World P ν) : Prop where
  orderly : w.Orderly
  ok : ∀ i j t, w.task? i j = some t → t.returned = false → ok w.verifier i t.name

namespace Admitted

variable {w w' : World P ν} {R : Recorder P E} {prep : ℕ → ℕ → Trace P ν E → Trace P ν E}
  {tr : Trace P ν E}

theorem of_fresh (hw : w.Fresh) : Admitted ok w where
  orderly := .of_fresh hw
  ok i j _ ht := nomatch (hw.task?_eq_none i j).symm.trans ht

theorem setAllowNewTasks (h : Admitted ok w) (b : Bool) : Admitted ok (w.setAllowNewTasks b) :=
  ⟨⟨h.orderly.last, h.orderly.removed⟩, h.ok⟩

theorem clear (h : Admitted ok w) (i j : ℕ) :
    Admitted ok (w.modifyTask i j Task.clearWakeupCondition) where
  orderly := h.orderly.clear
  ok i' j' t' ht' hret := by
    obtain ⟨rfl, rfl, t, ht, rfl⟩ | ⟨-, ht⟩ := Grid.get?_modify_cases ht'
    · exact h.ok i' j' t ht hret
    · exact h.ok i' j' t' ht hret

/-- A task that was admitted is built on a thread that is free. -/
theorem build (hV : V.Remembers ok) (h : Admitted ok w) {i : ℕ} (hi : i < w.threads.length)
    (hfree : w.isFree i = true) {b : TaskBuilder P} (hok : ok w.verifier i b.name) :
    Admitted ok ((w.setVerifier (V.onTaskStarted w.verifier b.name i w.newTaskId)).build i b) where
  orderly := by
    have horderly : (w.setVerifier (V.onTaskStarted w.verifier b.name i w.newTaskId)).Orderly :=
      ⟨h.orderly.last, h.orderly.removed⟩
    exact horderly.build hi hfree b
  ok i' j' t' ht' hret := by
    obtain ⟨rfl, -, rfl⟩ | ht := Grid.get?_push_cases ht'
    · exact hV.started hok
    · exact hV.started (h.ok i' j' t' ht hret)

/-- A step of a task. If the task returns, its thread has no other task that has not. -/
theorem after (hV : V.Remembers ok) {i j : ℕ} {isNew : Bool} {t : Task P} (h : Admitted ok tr.world)
    (ht : tr.world.task? i j = some t) (hret : t.returned = false) :
    Admitted ok (tr.after R V i j isNew t).world where
  orderly := h.orderly.after ht hret
  ok i' j' t' ht' hret' := by
    rw [Trace.after_verifier ht]
    by_cases hij : i' = i ∧ j' = j
    · obtain ⟨rfl, rfl⟩ := hij
      rw [Trace.after_task?_self ht] at ht'
      obtain rfl := Option.some.inj ht'
      rw [R.drainTask_returned] at hret'
      have hnot : ¬ (tr.world.stepOf i' t).1.ret.isSome = true := ne_true_of_eq_false hret'
      rw [if_neg hnot]
      have hinfo := R.drainTask_toTaskInfo (t.stepped (tr.world.stepOf i' t).1 tr.world.seqno)
      rw [congrArg TaskInfo.name hinfo]
      exact h.ok i' j' t ht hret
    · rw [Trace.after_task?_of_ne hij, Option.map_eq_some_iff] at ht'
      obtain ⟨u, hu, rfl⟩ := ht'
      rw [R.drainTask_returned] at hret'
      rw [congrArg TaskInfo.name (R.drainTask_toTaskInfo u)]
      have hok := h.ok i' j' u hu hret'
      have hne : i' ≠ i := by
        rintro rfl
        have hlast := h.orderly.last i' j t ht hret
        have hlast' := h.orderly.last i' j' u hu hret'
        exact hij ⟨rfl, by omega⟩
      split
      · exact hV.finished hne hok
      · exact hok

theorem perform (hV : V.Remembers ok) {tr' : Trace P ν E} {i j : ℕ} {isNew : Bool}
    (h : Admitted ok tr.world) (htr : tr.perform R V i j isNew = some tr') :
    Admitted ok tr'.world := by
  obtain ⟨t, ht, hret, rfl⟩ := Trace.perform_cases htr
  exact h.after hV ht hret

theorem prepared (hprep : Clears prep) (h : Admitted ok tr.world) (i j : ℕ) :
    Admitted ok (prep i j tr).world := by
  obtain hw | hw := hprep i j tr
  · exact hw ▸ h
  · exact hw ▸ h.clear i j

/-- **An iteration of `RunRound`** admits the tasks that it starts. -/
theorem iterates (hV : V.Remembers ok) (hK : K.AsksFirst) (hprep : Clears prep) {maxTasks : ℕ}
    {r r' : Round P ν (Base P γ ρ) E} (h : r.status = .aborted ∨ Admitted ok r.trace.world)
    (hr' : r.Iterates R K.toStrategy prep maxTasks r') :
    r'.status = .aborted ∨ Admitted ok r'.trace.world := by
  have hlimit (hrunning : r.status = .running) :
      Admitted ok (r.limit maxTasks).trace.world := by
    obtain habort | h := h
    · cases hrunning.symm.trans habort
    · obtain ⟨b, hb⟩ := RoundOrderly.limit_world maxTasks r
      exact hb ▸ h.setAllowNewTasks b
  cases hr' with
  | idle => exact h
  | ended hrunning _ => exact .inr (hlimit hrunning)
  | @follows n v s _ hrunning _ hnext hfollows =>
    have h' := hlimit hrunning
    have hnext' : K.next (r.limit maxTasks).trace.world (r.limit maxTasks).strategy = (n, v, s) :=
      hnext
    obtain ⟨rfl, rfl⟩ | ⟨i, b, rfl, hi, hfree, hok, rfl⟩ | ⟨i, j, rfl, rfl⟩ :=
      hK.next_cases hV hnext'
    · cases hfollows with
      | deadlock => exact .inr h'
      | aborted habort _ => exact .inl habort
    · cases hfollows with
      | aborted habort _ => exact .inl habort
      | start _ htr =>
        have hbuild := h'.build hV hi hfree hok
        exact .inr ((prepared hprep hbuild i _).perform hV htr)
    · cases hfollows with
      | aborted habort _ => exact .inl habort
      | resume htr => exact .inr ((prepared hprep h' i j).perform hV htr)

theorem iterate (hV : V.Remembers ok) (hK : K.AsksFirst) (hprep : Clears prep) {maxTasks : ℕ}
    {step : Round P ν (Base P γ ρ) E → Round P ν (Base P γ ρ) E}
    (hstep : ∀ r, Round.Iterates R K.toStrategy prep maxTasks r (step r)) (hw : w.Fresh)
    (s : Base P γ ρ) (n : ℕ) :
    (step^[n] (Round.init w s)).status = .aborted ∨
      (step^[n] (Round.init w s)).trace.world.AllSchedulable V := by
  suffices hadmitted : (step^[n] (Round.init w s)).status = .aborted ∨
      Admitted ok (step^[n] (Round.init w s)).trace.world from
    hadmitted.imp_right fun h i j t ht hret => hV.accepts (h.ok i j t ht hret)
  induction n with
  | zero => exact .inr ((of_fresh hw).setAllowNewTasks true)
  | succ n ih =>
    rw [Function.iterate_succ_apply']
    exact iterates hV hK hprep ih (hstep _)

end Admitted

/-! ### Explored rounds -/

namespace World

/-- Where the search for the next task of a thread begins. -/
def scheduledFrom (roundSchedule : List (Option ℕ)) (i : ℕ) : ℕ :=
  (roundSchedule.getD i none).getD 0

/-- The task is skipped when the next one is looked for. -/
def isSkipped (w : World P ν) (t : Task P) : Bool := t.returned || w.isTaskRemoved t.id

/-- The tasks before the places where the searches begin are skipped. -/
def Skips (w : World P ν) (roundSchedule : List (Option ℕ)) : Prop :=
  ∀ i j t, j < scheduledFrom roundSchedule i → w.task? i j = some t → w.isSkipped t = true

variable {w w' : World P ν} {rs rs' : List (Option ℕ)} {i j : ℕ} {t : Task P}

/-- The tasks of a thread from the place on where the search begins. -/
theorem task?_eq_drop (hfrom : scheduledFrom rs i ≤ j) :
    w.task? i j = ((w.threads.getD i []).drop (scheduledFrom rs i))[j - scheduledFrom rs i]? := by
  rw [List.getElem?_drop, Nat.add_sub_cancel' hfrom, task?, Grid.get?, List.getD_eq_getElem?_getD]
  cases w.threads[i]? with
  | none => rfl
  | some row => rfl

theorem getNextTaskInThread_eq_add (w : World P ν) (rs : List (Option ℕ)) (i : ℕ) :
    w.getNextTaskInThread rs i = scheduledFrom rs i +
      (((w.threads.getD i []).drop (scheduledFrom rs i)).takeWhile w.isSkipped).length := rfl

theorem scheduledFrom_le (w : World P ν) : scheduledFrom rs i ≤ w.getNextTaskInThread rs i :=
  Nat.le_add_right _ _

theorem isSkipped_of_lt (hfrom : scheduledFrom rs i ≤ j) (hj : j < w.getNextTaskInThread rs i)
    (ht : w.task? i j = some t) : w.isSkipped t = true := by
  rw [task?_eq_drop hfrom] at ht
  refine (Scan.takeWhile_spec w.isSkipped _).1 _ t ?_ ht
  rw [getNextTaskInThread_eq_add] at hj
  omega

theorem isSkipped_next (ht : w.task? i (w.getNextTaskInThread rs i) = some t) :
    w.isSkipped t = false := by
  rw [task?_eq_drop (scheduledFrom_le w), getNextTaskInThread_eq_add,
    Nat.add_sub_cancel_left] at ht
  exact (Scan.takeWhile_spec w.isSkipped _).2 t ht

/-- All tasks of a thread before its next one are skipped. -/
theorem Skips.isSkipped (h : w.Skips rs) (hj : j < w.getNextTaskInThread rs i)
    (ht : w.task? i j = some t) : w.isSkipped t = true := by
  by_cases hfrom : scheduledFrom rs i ≤ j
  · exact isSkipped_of_lt hfrom hj ht
  · exact h i j t (Nat.lt_of_not_le hfrom) ht

/-- The next task is the first one that is not skipped. -/
theorem getNextTaskInThread_eq (hfrom : scheduledFrom rs i ≤ j) (ht : w.task? i j = some t)
    (hskip : w.isSkipped t = false)
    (hbefore : ∀ j' u, scheduledFrom rs i ≤ j' → j' < j → w.task? i j' = some u →
      w.isSkipped u = true) : w.getNextTaskInThread rs i = j := by
  obtain hlt | heq | hgt := Nat.lt_trichotomy (w.getNextTaskInThread rs i) j
  · obtain ⟨u, hu⟩ : ∃ u, w.task? i (w.getNextTaskInThread rs i) = some u := by
      rw [task?_eq_drop hfrom] at ht
      rw [task?_eq_drop (scheduledFrom_le w)]
      have hlength := (List.getElem?_eq_some_iff.1 ht).1
      exact ⟨_, List.getElem?_eq_getElem (by omega)⟩
    have := hbefore _ u (scheduledFrom_le w) hlt hu
    rw [isSkipped_next hu] at this
    cases this
  · exact heq
  · have := isSkipped_of_lt hfrom hgt ht
    rw [hskip] at this
    cases this
end World

theorem scheduledFrom_set (rs : List (Option ℕ)) (i i' j : ℕ) :
    World.scheduledFrom (rs.set i (some j)) i' =
      if i' = i ∧ i < rs.length then j else World.scheduledFrom rs i' := by
  unfold World.scheduledFrom
  rw [List.getD_eq_getElem?_getD, List.getD_eq_getElem?_getD, List.getElem?_set]
  by_cases hi : i = i'
  · subst hi
    by_cases hlt : i < rs.length
    · simp [hlt]
    · simp [hlt]
  · simp [hi, Ne.symm hi]

/-- All tasks that were started in the attempt and have not returned may go on. -/
def Explore.AllSchedulable (V : Verifier P ν) (x : Explore P ν ρ E) : Prop :=
  ∀ i j t, x.trace.world.task? i j = some t → x.startedIds.contains t.id = true →
    t.returned = false → V.Accepts x.trace.world.verifier t i

/-- A task that was started and has not returned is the next one of its thread and was admitted. The
tasks before the place where the search for the next one begins are skipped. -/
structure ExploreAdmitted (ok : ν → ℕ → String → Prop) (x : Explore P ν (Base P γ ρ) E) : Prop where
  numbered : x.trace.world.Numbered
  skipped : ∀ i j t, j < World.scheduledFrom x.strategy.roundSchedule i →
    x.trace.world.task? i j = some t → x.trace.world.isSkipped t = true
  current : ∀ i j t, x.trace.world.task? i j = some t → x.startedIds.contains t.id = true →
    t.returned = false → x.trace.world.getNextTaskInThread x.strategy.roundSchedule i = j ∧
      ok x.trace.world.verifier i t.name

/-- A pick leaves the schedule as it is. -/
def Picker.KeepsSchedule (K : Picker V γ ρ) : Prop :=
  ∀ w s, (K.pickSchedule w s).2.2.roundSchedule = s.roundSchedule

/-- What `NextSchedule` returns: a deadlock, or the next task of a thread, which the schedule then
shows. -/
theorem Picker.KeepsSchedule.nextSchedule_cases (hK : K.KeepsSchedule) {s' : Base P γ ρ}
    {n : Except StrategyNextScheduleFailure (ℕ × ℕ)} (h : K.nextSchedule w s = (n, v, s')) :
    n = .error .deadlock ∨ ∃ i j, w.getNextTaskInThread s.roundSchedule i = j ∧ n = .ok (i, j) ∧
      s'.roundSchedule = s.roundSchedule.set i (some j) := by
  rw [nextSchedule] at h
  split at h
  · exact .inl (Prod.mk.inj h).1.symm
  · rename_i i _
    rw [hK w s] at h
    simp only [Prod.mk.injEq] at h
    obtain ⟨rfl, rfl, rfl⟩ := h
    exact .inr ⟨i, _, rfl, rfl, rfl⟩

variable {startedIds : List ℕ}

/-- The task may make its step: it was admitted before, or it is admitted now. -/
theorem StrategyTaskVerifier.Remembers.permit (hV : V.Remembers ok) {i : ℕ} {t : Task P}
    (hret : t.returned = false)
    (hstarted : startedIds.contains t.id = true → ok w.verifier i t.name)
    (h : w.permit V startedIds i t = (true, v)) :
    ok v i t.name ∧ ∀ i' name, ok w.verifier i' name → ok v i' name := by
  rw [World.permit] at h
  split at h
  · rename_i hid
    rw [if_neg (ne_true_of_eq_false hret)] at h
    have hv : v = w.verifier := by
      have hpure : (V.verifyExisting w.verifier t i).2 = w.verifier :=
        hV.pure (Asks.none.verifyExisting t i)
      rwa [h] at hpure
    rw [hv]
    exact ⟨hstarted hid, fun _ _ => id⟩
  · dsimp only at h
    split at h
    · rename_i hstart
      obtain ⟨hok, hpure⟩ := hV.verifyTaskStart (Prod.ext hstart rfl)
      have hv := (Prod.mk.inj h).2.symm
      simp only [hpure] at hv
      rw [hv]
      exact ⟨hV.started hok, fun _ _ => hV.started⟩
    · rename_i hstart
      exact absurd (congrArg Prod.fst h) hstart

/-- A task that may not make its step was only asked about. -/
theorem Asks.permit_refused {i : ℕ} {t : Task P} (h : (w.permit V startedIds i t).1 = false) :
    Asks V w.verifier (w.permit V startedIds i t).2 := by
  rw [World.permit] at h ⊢
  split
  · split
    · exact .none
    · exact Asks.none.verifyExisting t i
  · rename_i hid
    rw [if_neg hid] at h
    dsimp only at h ⊢
    split
    · rename_i hstart
      rw [if_pos hstart] at h
      cases h
    · exact Asks.none.verifyTaskStart t.name i _

theorem Asks.trans {v' v'' : ν} (h : Asks V v v') (h' : Asks V v' v'') : Asks V v v'' := by
  induction h' with
  | none => exact h
  | verify name i isNew _ ih => exact ih.verify name i isNew
  | verifyStart name i ctx _ ih => exact ih.verifyStart name i ctx
  | verifyExisting t i _ ih => exact ih.verifyExisting t i

/-- **An iteration of `ExploreRound`**: the attempt ends with the round as it is, or the next task
of a thread makes a step. Unless an assertion fails, the verifier was only asked before. When no
task is left, the strategy is not called. -/
theorem Picker.KeepsSchedule.step_cases {R : Recorder P E} (hK : K.KeepsSchedule)
    {x : Explore P ν (Base P γ ρ) E} (hrunning : x.status = .running) :
    (∃ v s status, status ≠ .running ∧ (status = .aborted ∨ Asks V x.trace.world.verifier v) ∧
        (status = .ended false → s = x.strategy) ∧
        Explore.step R K.toStrategy x = (x.asked v s).stop status) ∨
      ∃ i j t v₀ v s tr, x.trace.world.getNextTaskInThread x.strategy.roundSchedule i = j ∧
        x.trace.world.task? i j = some t ∧
        s.roundSchedule = x.strategy.roundSchedule.set i (some j) ∧
        Asks V x.trace.world.verifier v₀ ∧
        (x.asked v₀ s).trace.world.permit V x.startedIds i t = (true, v) ∧
        (x.asked v s).perform R V i j t = some tr ∧
        Explore.step R K.toStrategy x = (x.asked v s).performed i j t.id tr := by
  by_cases hzero : x.tasksToRun = 0
  · refine .inl ⟨x.trace.world.verifier, x.strategy, .ended false, (by simp), .inr .none,
      fun _ => rfl, ?_⟩
    simp only [Explore.step, hrunning, hzero, if_true]
    rfl
  obtain ⟨n, v, s, hn⟩ :
      ∃ n v s, K.toStrategy.nextSchedule x.trace.world x.strategy = (n, v, s) := ⟨_, _, _, rfl⟩
  have hasks := K.toStrategy.asks x.trace.world x.strategy
  rw [hn] at hasks
  simp only [Explore.step, hrunning, hzero, if_false, hn]
  obtain rfl | ⟨i, j, hj, rfl, hs⟩ := hK.nextSchedule_cases hn
  · exact .inl ⟨v, s, .ended true, (by simp), .inr hasks, (by simp), rfl⟩
  dsimp only [Explore.follow]
  split
  · rename_i t ht
    split
    · rename_i hpermit
      split
      · rename_i tr htr
        exact .inr ⟨i, j, t, v, _, s, tr, hj, ht, hs, hasks, Prod.ext hpermit rfl, htr, rfl⟩
      · exact .inl ⟨_, s, .aborted, (by simp), .inl rfl, (by simp), rfl⟩
    · rename_i hpermit
      have hrefused := Asks.permit_refused (Bool.eq_false_of_not_eq_true hpermit)
      exact .inl ⟨_, s, .ended true, (by simp), .inr (hasks.trans hrefused), (by simp), rfl⟩
  · exact .inl ⟨v, s, .aborted, (by simp), .inl rfl, (by simp), rfl⟩

theorem contains_addStarted {id id' : ℕ} (hne : id' ≠ id)
    (h : (addStarted startedIds id).contains id' = true) : startedIds.contains id' = true := by
  unfold addStarted at h
  split at h
  · exact h
  · rw [List.contains_cons, Bool.or_eq_true, beq_iff_eq] at h
    exact h.resolve_left hne

/-- The round after a step of a task, before which the verifier was in the state `v`. -/
structure Stepped (R : Recorder P E) (V : Verifier P ν) (i j : ℕ) (t : Task P)
    (v : ν) (w w' : World P ν) : Prop where
  self : ∃ t', w'.task? i j = some t' ∧ t'.toTaskInfo = t.toTaskInfo ∧
    (t'.returned = false → w'.verifier = v)
  other : ∀ i' j', ¬ (i' = i ∧ j' = j) → w'.task? i' j' = (w.task? i' j').map R.drainTask
  infos : w'.infos = w.infos
  removed : w'.removed = w.removed
  verifier : w'.verifier = v ∨ ∃ t', w'.verifier = V.onFinished v t' i

namespace Stepped

variable {R : Recorder P E} {w w' : World P ν} {i j : ℕ} {t : Task P} {v : ν}

theorem of_perform {tr tr' : Trace P ν E} {isNew : Bool}
    (h : tr.perform R V i j isNew = some tr') (ht : tr.world.task? i j = some t) :
    Stepped R V i j t tr.world.verifier tr.world tr'.world := by
  obtain ⟨t', ht', -, rfl⟩ := Trace.perform_cases h
  obtain rfl : t' = t := Option.some.inj (ht'.symm.trans ht)
  constructor
  case self =>
    refine ⟨_, Trace.after_task?_self ht, R.drainTask_toTaskInfo _, fun hret => ?_⟩
    rw [R.drainTask_returned] at hret
    rw [Trace.after_verifier ht]
    exact if_neg (ne_true_of_eq_false hret)
  case other => exact fun _ _ => Trace.after_task?_of_ne
  case infos => exact Trace.after_infos
  case removed =>
    obtain ⟨v, hv⟩ := Trace.after_world_eq (R := R) (V := V) i j isNew t' tr
    rw [hv]
    rfl
  case verifier =>
    rw [Trace.after_verifier ht]
    split
    · exact .inr ⟨_, rfl⟩
    · exact .inl rfl

/-- A step in an attempt of `ExploreRound`. -/
theorem of_explore {x : Explore P ν ρ E} {s : ρ} {tr : Trace P ν E}
    (h : (x.asked v s).perform R V i j t = some tr) (ht : x.trace.world.task? i j = some t) :
    Stepped R V i j t v x.trace.world tr.world :=
  have hstep : Stepped R V i j t v (x.trace.world.setVerifier v) tr.world := of_perform h ht
  ⟨hstep.self, hstep.other, hstep.infos, hstep.removed, hstep.verifier⟩

section

variable (h : Stepped R V i j t v w w')
include h

theorem isSkipped (u : Task P) : w'.isSkipped (R.drainTask u) = w.isSkipped u := by
  rw [World.isSkipped, World.isSkipped, R.drainTask_returned, World.isTaskRemoved,
    World.isTaskRemoved, h.removed, congrArg TaskInfo.id (R.drainTask_toTaskInfo u)]

theorem isSkipped_self {t' : Task P} (hinfo : t'.toTaskInfo = t.toTaskInfo)
    (hret : t'.returned = false) : w'.isSkipped t' = w.isTaskRemoved t.id := by
  rw [World.isSkipped, hret, Bool.false_or, World.isTaskRemoved, World.isTaskRemoved, h.removed,
    congrArg TaskInfo.id hinfo]

theorem exists_other {i' j' : ℕ} {u' : Task P} (hij : ¬ (i' = i ∧ j' = j))
    (hu' : w'.task? i' j' = some u') : ∃ u, w.task? i' j' = some u ∧ u' = R.drainTask u := by
  obtain ⟨u, hu, rfl⟩ := Option.map_eq_some_iff.1 ((h.other i' j' hij).symm.trans hu')
  exact ⟨u, hu, rfl⟩

/-- After a step of the next task of a thread, the search there begins with this task. -/
theorem skips {rs : List (Option ℕ)} (hskips : w.Skips rs) (hj : w.getNextTaskInThread rs i = j) :
    w'.Skips (rs.set i (some j)) := by
  intro i' j' u' hlt hu'
  rw [scheduledFrom_set] at hlt
  by_cases hi : i' = i
  · subst hi
    have hlt : j' < j := by
      split at hlt
      · exact hlt
      · exact hlt.trans_le (hj ▸ World.scheduledFrom_le w)
    obtain ⟨u, hu, rfl⟩ := h.exists_other (fun hij => hlt.ne hij.2) hu'
    exact (h.isSkipped u).trans (hskips.isSkipped (hj.symm ▸ hlt) hu)
  · rw [if_neg fun h => hi h.1] at hlt
    obtain ⟨u, hu, rfl⟩ := h.exists_other (fun hij => hi hij.1) hu'
    exact (h.isSkipped u).trans (hskips i' j' u hlt hu)

end

theorem ok_of_ne (hV : V.Remembers ok) (h : Stepped R V i j t v w w') {i' : ℕ} {name : String}
    (hi : i' ≠ i) (hname : ok v i' name) : ok w'.verifier i' name := by
  obtain hv | ⟨t', hv⟩ := h.verifier
  · exact hv ▸ hname
  · exact hv ▸ hV.finished hi hname

end Stepped

namespace ExploreAdmitted

variable {R : Recorder P E} {K : Picker V γ ρ} {x : Explore P ν (Base P γ ρ) E} {i j : ℕ}
  {t : Task P}

theorem allSchedulable (hV : V.Remembers ok) (h : ExploreAdmitted ok x) : x.AllSchedulable V :=
  fun i j t ht hid hret => hV.accepts (h.current i j t ht hid hret).2

/-- All tasks of a thread before its next one are skipped. -/
theorem isSkipped_of_lt (h : ExploreAdmitted ok x)
    (hj : x.trace.world.getNextTaskInThread x.strategy.roundSchedule i = j) {j' : ℕ} {u : Task P}
    (hlt : j' < j) (hu : x.trace.world.task? i j' = some u) : x.trace.world.isSkipped u = true := by
  have hskips : x.trace.world.Skips x.strategy.roundSchedule := h.skipped
  exact hskips.isSkipped (hj.symm ▸ hlt) hu

/-- **A step of the next task of a thread.** -/
theorem performed (hV : V.Remembers ok) (h : ExploreAdmitted ok x) {tr : Trace P ν E}
    (hj : x.trace.world.getNextTaskInThread x.strategy.roundSchedule i = j)
    (ht : x.trace.world.task? i j = some t)
    (hs : s.roundSchedule = x.strategy.roundSchedule.set i (some j))
    (hpermit : x.trace.world.permit V x.startedIds i t = (true, v))
    (htr : (x.asked v s).perform R V i j t = some tr) :
    ExploreAdmitted ok ((x.asked v s).performed i j t.id tr) := by
  have hskip : x.trace.world.isSkipped t = false := World.isSkipped_next (hj ▸ ht)
  have hret : t.returned = false := (Bool.or_eq_false_iff.1 hskip).1
  obtain ⟨hok, hkept⟩ := hV.permit hret (fun hid => (h.current i j t ht hid hret).2) hpermit
  have hstep : Stepped R V i j t v x.trace.world tr.world := .of_explore htr ht
  -- where the search for the next task begins
  have hfrom : World.scheduledFrom s.roundSchedule i ≤ j := by
    rw [hs, scheduledFrom_set]
    split
    · exact Nat.le_refl j
    · exact hj ▸ World.scheduledFrom_le _
  have hfrom_ne (i' : ℕ) (hi : i' ≠ i) : World.scheduledFrom s.roundSchedule i' =
      World.scheduledFrom x.strategy.roundSchedule i' := by
    rw [hs, scheduledFrom_set, if_neg fun h => hi h.1]
  constructor
  case numbered => exact h.numbered.congr hstep.infos
  case skipped =>
    show tr.world.Skips s.roundSchedule
    rw [hs]
    exact hstep.skips h.skipped hj
  case current =>
    intro i' j' u' hu' hid hret'
    by_cases hij : i' = i ∧ j' = j
    · -- the task of the step has not returned
      obtain ⟨rfl, rfl⟩ := hij
      obtain ⟨t', ht', hinfo, hv⟩ := hstep.self
      obtain rfl := Option.some.inj (ht'.symm.trans hu')
      refine ⟨World.getNextTaskInThread_eq hfrom ht' ?_ fun j₁ u₁ _ hlt hu₁ => ?_, ?_⟩
      · exact (hstep.isSkipped_self hinfo hret').trans (Bool.or_eq_false_iff.1 hskip).2
      · obtain ⟨u, hu, rfl⟩ := hstep.exists_other (fun h => hlt.ne h.2) hu₁
        exact (hstep.isSkipped u).trans (h.isSkipped_of_lt hj hlt hu)
      · show ok tr.world.verifier i' t'.name
        rw [hv hret', congrArg TaskInfo.name hinfo]
        exact hok
    · -- a task of another thread
      obtain ⟨u, hu, rfl⟩ := hstep.exists_other hij hu'
      rw [congrArg TaskInfo.id (R.drainTask_toTaskInfo u)] at hid
      rw [R.drainTask_returned] at hret'
      have hne : u.id ≠ t.id := fun heq => hij (h.numbered i' j' i j u t hu ht heq)
      obtain ⟨hnext, hname⟩ := h.current i' j' u hu (contains_addStarted hne hid) hret'
      have hi : i' ≠ i := by
        rintro rfl
        exact hij ⟨rfl, hnext.symm.trans hj⟩
      have hu_skip : x.trace.world.isSkipped u = false := World.isSkipped_next (hnext.symm ▸ hu)
      refine ⟨World.getNextTaskInThread_eq ?_ hu' ((hstep.isSkipped u).trans hu_skip)
        fun j₁ u₁ _ hlt hu₁ => ?_, ?_⟩
      · show World.scheduledFrom s.roundSchedule i' ≤ j'
        rw [hfrom_ne i' hi]
        exact hnext ▸ World.scheduledFrom_le _
      · obtain ⟨u₀, hu₀, rfl⟩ := hstep.exists_other (fun h => hi h.1) hu₁
        exact (hstep.isSkipped u₀).trans (h.isSkipped_of_lt hnext hlt hu₀)
      · show ok tr.world.verifier i' (R.drainTask u).name
        rw [congrArg TaskInfo.name (R.drainTask_toTaskInfo u)]
        exact hstep.ok_of_ne hV hi (hkept i' u.name hname)

/-- **An iteration of `ExploreRound`** if questions change nothing: the attempt ends with the round
as it is, or the next task of a thread makes a step. -/
theorem step_cases (hV : V.Remembers ok) (hK : K.KeepsSchedule) (hrunning : x.status = .running) :
    (Explore.step R K.toStrategy x).status = .aborted ∨
      (∃ s status, status ≠ .running ∧
        Explore.step R K.toStrategy x = (x.asked x.trace.world.verifier s).stop status) ∨
      ∃ i j t v s tr, x.trace.world.getNextTaskInThread x.strategy.roundSchedule i = j ∧
        x.trace.world.task? i j = some t ∧
        s.roundSchedule = x.strategy.roundSchedule.set i (some j) ∧
        x.trace.world.permit V x.startedIds i t = (true, v) ∧
        (x.asked v s).perform R V i j t = some tr ∧
        Explore.step R K.toStrategy x = (x.asked v s).performed i j t.id tr := by
  obtain ⟨v, s, status, hne, hasks, -, heq⟩ | ⟨i, j, t, v₀, v, s, tr, hj, ht, hs, hasks, hpermit,
    htr, heq⟩ := hK.step_cases (R := R) hrunning
  · obtain rfl | hasks := hasks
    · exact .inl (congrArg Explore.status heq)
    · obtain rfl := hV.pure hasks
      exact .inr (.inl ⟨s, status, hne, heq⟩)
  · obtain rfl := hV.pure hasks
    exact .inr (.inr ⟨i, j, t, v, s, tr, hj, ht, hs, hpermit, htr, heq⟩)

/-- The tasks that were started may go on, also after the attempt has ended. -/
theorem step (hV : V.Remembers ok) (hK : K.KeepsSchedule)
    (h : x.status = .aborted ∨ x.AllSchedulable V ∧ (x.status = .running → ExploreAdmitted ok x)) :
    (Explore.step R K.toStrategy x).status = .aborted ∨
      (Explore.step R K.toStrategy x).AllSchedulable V ∧
        ((Explore.step R K.toStrategy x).status = .running →
          ExploreAdmitted ok (Explore.step R K.toStrategy x)) := by
  by_cases hrunning : x.status = .running
  · obtain habort | ⟨hall, hadmitted⟩ := h
    · cases hrunning.symm.trans habort
    obtain habort | ⟨s, status, hne, heq⟩ | ⟨i, j, t, v, s, tr, hj, ht, hs, hpermit, htr, heq⟩ :=
      step_cases (R := R) hV hK hrunning
    · exact .inl habort
    · rw [heq]
      exact .inr ⟨hall, fun h => absurd h hne⟩
    · rw [heq]
      have h' := (hadmitted hrunning).performed hV hj ht hs hpermit htr
      exact .inr ⟨h'.allSchedulable hV, fun _ => h'⟩
  · rwa [Explore.step_of_not_running hrunning]

theorem init (hw : w.Numbered) (hs : World.scheduledFrom s.roundSchedule = fun _ => 0) :
    ExploreAdmitted ok (Explore.init (E := E) w s) where
  numbered := hw
  skipped i j t hlt := by
    rw [show World.scheduledFrom (Explore.init (E := E) w s).strategy.roundSchedule i = 0 from
      congrFun hs i] at hlt
    cases hlt
  current _ _ _ _ hid := nomatch hid

/-- **An attempt of `ExploreRound`.** -/
theorem attempt (hV : V.Remembers ok) (hK : K.KeepsSchedule)
    {reset : World P ν → Base P γ ρ → World P ν × Base P γ ρ}
    (hinfos : ∀ w s, (reset w s).1.infos = w.infos)
    (hfrom : ∀ w s, World.scheduledFrom (reset w s).2.roundSchedule = fun _ => 0) (hw : w.Numbered)
    (s : Base P γ ρ) (fuel : ℕ) :
    (exploreAttempt R K.toStrategy reset fuel w s).status = .aborted ∨
      (exploreAttempt R K.toStrategy reset fuel w s).AllSchedulable V := by
  have hinit : ExploreAdmitted ok (Explore.init (E := E) (reset w s).1 (reset w s).2) :=
    init (hw.congr (hinfos w s)) (hfrom w s)
  have hattempt := Function.Iterate.rec
    (fun x => x.status = .aborted ∨
      x.AllSchedulable V ∧ (x.status = .running → ExploreAdmitted ok x))
    (.inr ⟨hinit.allSchedulable hV, fun _ => hinit⟩) (fun x hx => step (R := R) hV hK hx) fuel
  exact hattempt.imp_right And.left

end ExploreAdmitted

theorem scheduledFrom_reset (rs : List (Option ℕ)) :
    World.scheduledFrom (rs.map fun _ => none) = fun _ => 0 := by
  funext i
  rw [World.scheduledFrom, List.getD_eq_getElem?_getD, List.getElem?_map]
  cases rs[i]? with
  | none => rfl
  | some _ => rfl

theorem roundRobin_keepsSchedule (V : Verifier P ν) (G : Rng γ)
    (onlyOne : Bool) : (roundRobinStrategy V G onlyOne).KeepsSchedule := fun _ _ => rfl

theorem random_keepsSchedule (V : Verifier P ν) (G : Rng γ) (onlyOne : Bool) :
    (randomStrategy V G onlyOne).KeepsSchedule := by
  intro w s
  dsimp only [randomStrategy, randomPick]
  split
  · rfl
  · rfl

theorem pct_keepsSchedule (V : Verifier P ν) (G : Rng γ) (onlyOne : Bool) :
    (pctStrategy V G onlyOne).KeepsSchedule := fun _ _ => rfl

/-- Tasks that were started and have not returned may go on. -/
structure Picker.KeepsSchedulable (K : Picker V γ ρ) : Prop where
  /-- In every round that the two schedulers run with the strategy. -/
  generated : ∀ (maxTasks : ℕ) (w : World P ν), w.Fresh → ∀ (s : Base P γ ρ) (n : ℕ),
    ((StrategyScheduler.run K.toStrategy maxTasks w s n).status = .aborted ∨
      (StrategyScheduler.run K.toStrategy maxTasks w s n).trace.world.AllSchedulable V) ∧
    ((DualStrategyScheduler.run K.toStrategy maxTasks w s n).status = .aborted ∨
      (DualStrategyScheduler.run K.toStrategy maxTasks w s n).trace.world.AllSchedulable V)
  /-- In every round that they explore. -/
  explored : ∀ (w : World P ν), w.Numbered → ∀ (s : Base P γ ρ) (fuel : ℕ),
    ((exploreAttempt ordinaryRecorder K.toStrategy
        (StrategyScheduler.exploreReset K.toStrategy) fuel w s).status = .aborted ∨
      (exploreAttempt ordinaryRecorder K.toStrategy
        (StrategyScheduler.exploreReset K.toStrategy) fuel w s).AllSchedulable V) ∧
    ((exploreAttempt dualRecorder K.toStrategy
        (DualStrategyScheduler.exploreReset K.toStrategy) fuel w s).status = .aborted ∨
      (exploreAttempt dualRecorder K.toStrategy
        (DualStrategyScheduler.exploreReset K.toStrategy) fuel w s).AllSchedulable V)

theorem Picker.AsksFirst.keepsSchedulable (hK : K.AsksFirst) (hschedule : K.KeepsSchedule)
    (hV : V.Remembers ok) : K.KeepsSchedulable where
  generated maxTasks _ hw s n :=
    ⟨Admitted.iterate hV hK StrategyScheduler.clears (StrategyScheduler.step_cases maxTasks) hw s n,
      Admitted.iterate hV hK DualStrategyScheduler.clears
        (DualStrategyScheduler.step_cases maxTasks) hw s n⟩
  explored _ hw s fuel :=
    ⟨ExploreAdmitted.attempt hV hschedule (fun _ _ => World.infos_resetCurrentRound V)
        (fun _ _ => scheduledFrom_reset _) hw s fuel,
      ExploreAdmitted.attempt hV hschedule (fun _ _ => World.infos_resetCurrentRound V)
        (fun _ _ => scheduledFrom_reset _) hw s fuel⟩

end Rounds

namespace RepositoryVerifier

/-- With every target and each of the three strategies, tasks that were admitted and have not
returned may go on. -/
def KeepsSchedulable (k : RepositoryVerifier) : Prop :=
  ∀ (P : Program) (asBool : P.Val → Option Bool) (γ : Type) (G : Rng γ),
    (roundRobinStrategy (k.verifier (boolReader asBool)) G k.onlyOne).KeepsSchedulable ∧
    (randomStrategy (k.verifier (boolReader asBool)) G k.onlyOne).KeepsSchedulable ∧
    (pctStrategy (k.verifier (boolReader asBool)) G k.onlyOne).KeepsSchedulable

end RepositoryVerifier

/-- A target whose methods yield and never return. -/
def yieldProgram : Program where
  Target := Unit
  Env := Unit
  Fiber := Unit
  Args := Unit
  Val := Unit
  targetFactory _ := ((), ())
  resume _ _ _ _ m _ := (⟨(), (), m, none, none, [], none⟩, ())

/-- Its method. -/
def sendBuilder : TaskBuilder yieldProgram := ⟨"Send", fun _ _ => ((), ()), fun _ => (), false⟩

/-- One iteration of `RunRound` with round-robin and one thread: a task is started. -/
def firstSend (k : RepositoryVerifier) : Round yieldProgram k.State (Base yieldProgram Unit ℕ)
    (HistoryEvent yieldProgram) :=
  StrategyScheduler.run (roundRobinStrategy (k.verifier (boolReader fun _ => none)) Rng.first
    k.onlyOne).toStrategy 1 (World.new 1 () () k.init) ⟨[sendBuilder], (), [none], 0⟩ 1

/-- The verifier refuses a task that it has admitted. -/
def RefusesAdmitted (k : RepositoryVerifier) : Prop :=
  (firstSend k).status = .running ∧ ∃ t, (firstSend k).trace.world.task? 0 0 = some t ∧
    t.returned = false ∧ ((k.verifier (boolReader fun _ => none)).verifyExisting
      (firstSend k).trace.world.verifier t 0).1 = false

theorem refusesAdmitted_of_forgets {k : RepositoryVerifier} (h : k.forgets = true) :
    RefusesAdmitted k := by
  cases k with
  | onlyOneTaskPerThread | uniqueArgs | bufferedChannel => exact ⟨rfl, _, rfl, rfl, rfl⟩
  | _ => cases h

/-- **Started tasks stay schedulable** with all verifiers of the repository but three. -/
theorem started_tasks_schedulable (k : RepositoryVerifier) :
    k.KeepsSchedulable ↔ k.forgets = false := by
  constructor
  · intro h
    by_contra hforgets
    obtain ⟨hrunning, t, ht, hret, hrefused⟩ :=
      refusesAdmitted_of_forgets (Bool.eq_true_of_not_eq_false hforgets)
    obtain habort | hall := ((h yieldProgram (fun _ => none) Unit Rng.first).1.generated 1
      _ (World.fresh_new (P := yieldProgram) 1 () () k.init) ⟨[sendBuilder], (), [none], 0⟩ 1).1
    · cases hrunning.symm.trans habort
    · cases (hall 0 0 t ht hret).1.symm.trans hrefused
  · intro hforgets P asBool γ G
    obtain ⟨ok, hok⟩ := RepositoryVerifier.exists_remembers asBool hforgets
    exact ⟨(roundRobin_asksFirst _ G _).keepsSchedulable (roundRobin_keepsSchedule _ G _) hok,
      (random_asksFirst _ G _).keepsSchedulable (random_keepsSchedule _ G _) hok,
      (pct_asksFirst _ G _).keepsSchedulable (pct_keepsSchedule _ G _) hok⟩

/-- **An admitted task is refused**: `BufferedChannelVerifier` counts a sender when it admits
`Send`, and refuses the same task when it is asked again. -/
theorem admitted_send_refused :
    (firstSend .bufferedChannel).status = .running ∧
      ∃ t, (firstSend .bufferedChannel).trace.world.task? 0 0 = some t ∧ t.name = "Send" ∧
        t.returned = false ∧ ((RepositoryVerifier.bufferedChannel.verifier
          (boolReader fun _ => none)).verifyExisting
            (firstSend .bufferedChannel).trace.world.verifier t 0).1 = false :=
  ⟨rfl, _, rfl, rfl, rfl, rfl⟩

end Scheduler

end LTest
