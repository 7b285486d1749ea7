import LTest.Scheduler.Execution
import LTest.Scheduler.Locks
import Mathlib.Data.List.Rotate

/-!
# Reported deadlocks

`RunRound` reports a deadlock when the strategy returns one. The strategies do so when no thread may
be picked, but also when the thread that they picked is free and the verifier accepts no constructor
for it. Other threads may have tasks that could be resumed then. If, whenever there is such a task,
some thread may be picked and the verifier accepts a constructor for each free thread that may be
picked, all tasks that have not returned are blocked when a deadlock is reported.

## Main definitions

* `World.Runnable` — some task could be resumed
* `World.Serves` — the condition on a state before `Next` is called
* `DeadlockIsReal` — a reported deadlock is one

## Main results

* `RoundOrderly.iterates` — only the last task of a thread has not returned
* `deadlock_reported_only_if_blocked` — reported deadlocks of all strategies and both schedulers
* `deadlock_reported_while_unlocking` — a mutex whose owner is about to unlock it
-/

namespace LTest

namespace Scheduler

variable {P : Program} {ν ρ γ E : Type}

/-! ### Tasks that have not returned -/

namespace World

/-- All tasks that have not returned are blocked. -/
def AllBlocked (w : World P ν) : Prop :=
  ∀ i j t, w.task? i j = some t → t.returned = false → w.isBlocked t = true

/-- Some task could be resumed. -/
def Runnable (w : World P ν) : Prop :=
  ∃ i j t, w.task? i j = some t ∧ t.returned = false ∧ w.isBlocked t = false

/-- In a round without removed tasks only the last task of a thread may not have returned. -/
structure Orderly (w : World P ν) : Prop where
  last : ∀ i j t, w.task? i j = some t → t.returned = false →
    j + 1 = Grid.rowLength w.threads i
  removed : w.removed = ∅

variable {w w' : World P ν} {i j : ℕ}

theorem allBlocked_of_not_runnable (h : ¬ w.Runnable) : w.AllBlocked := by
  intro i j t ht hret
  by_contra hblocked
  exact h ⟨i, j, t, ht, hret, by simpa using hblocked⟩

namespace Orderly

theorem of_fresh (hw : w.Fresh) : w.Orderly where
  last i j t ht := by rw [hw.task?_eq_none] at ht; cases ht
  removed := hw.removed

/-- A round in which no other tasks have not returned. -/
theorem congr (h : w.Orderly) (hrow : ∀ i, Grid.rowLength w'.threads i = Grid.rowLength w.threads i)
    (htask : ∀ i j t', w'.task? i j = some t' → t'.returned = false →
      ∃ t, w.task? i j = some t ∧ t.returned = false) (hremoved : w'.removed = w.removed) :
    w'.Orderly where
  last i j t' ht' hret' := by
    obtain ⟨t, ht, hret⟩ := htask i j t' ht' hret'
    rw [hrow]
    exact h.last i j t ht hret
  removed := hremoved.trans h.removed

theorem clear (h : w.Orderly) : (w.modifyTask i j Task.clearWakeupCondition).Orderly := by
  refine h.congr (fun _ => Grid.rowLength_modify _) (fun i' j' t' ht' hret' => ?_) rfl
  obtain ⟨rfl, rfl, t, ht, rfl⟩ | ⟨-, ht⟩ := Grid.get?_modify_cases ht'
  · exact ⟨t, ht, hret'⟩
  · exact ⟨t', ht, hret'⟩

/-- All tasks of a thread that is free have returned. -/
theorem returned_of_isFree (h : w.Orderly) (hfree : w.isFree i = true) {t : Task P}
    (ht : w.task? i j = some t) : t.returned = true := by
  by_contra hret
  rw [Bool.not_eq_true] at hret
  have hlast : j = Grid.rowLength w.threads i - 1 := by
    have := h.last i j t ht hret
    omega
  rw [isFree, back?_eq_task?, ← hlast, ht, Option.all_some] at hfree
  cases hfree.symm.trans hret

theorem build (h : w.Orderly) (hi : i < w.threads.length) (hfree : w.isFree i = true)
    (b : TaskBuilder P) : (w.build i b).Orderly where
  last i' j' t' ht' hret' := by
    show j' + 1 = Grid.rowLength (Grid.push w.threads i _) i'
    obtain ⟨rfl, rfl, -⟩ | ht := Grid.get?_push_cases ht'
    · rw [Grid.rowLength_push_self hi]
    · by_cases hii : i = i'
      · subst hii
        cases (h.returned_of_isFree hfree ht).symm.trans hret'
      · rw [Grid.rowLength_push_of_ne hii]
        exact h.last i' j' t' ht hret'
  removed := h.removed

theorem after {R : Recorder P E} {V : Verifier P ν} {tr : Trace P ν E}
    {isNew : Bool} {t : Task P} (h : tr.world.Orderly) (ht : tr.world.task? i j = some t)
    (hret : t.returned = false) : (tr.after R V i j isNew t).world.Orderly := by
  obtain ⟨v, hv⟩ := Trace.after_world_eq (R := R) (V := V) i j isNew t tr
  refine h.congr (fun i' => ?_) (fun i' j' t' ht' hret' => ?_) (by rw [hv]; rfl)
  · rw [hv]
    exact (Grid.rowLength_map _).trans (Grid.rowLength_modify _)
  · by_cases hij : i' = i ∧ j' = j
    · obtain ⟨rfl, rfl⟩ := hij
      exact ⟨t, ht, hret⟩
    · rw [Trace.after_task?_of_ne hij, Option.map_eq_some_iff] at ht'
      obtain ⟨t₁, ht₁, rfl⟩ := ht'
      exact ⟨t₁, ht₁, R.drainTask_returned t₁ ▸ hret'⟩

/-- If the loop is left for a deadlock, all tasks are blocked. -/
theorem allBlocked_of_getUnfinished (h : w.Orderly)
    (hrunnable : (w.getUnfinishedAndRunnable none).2 = false) : w.AllBlocked := by
  refine allBlocked_of_not_runnable ?_
  rintro ⟨i, j, t, ht, hret, hblocked⟩
  have hany : (w.threads.any fun ts =>
      ts.any fun t => w.isUnfinished none t && !w.isBlocked t) = true := by
    refine Grid.any_any_iff.mpr ⟨i, j, t, ht, ?_⟩
    simp [isUnfinished, isTaskRemoved, h.removed, hret, hblocked]
  cases hany.symm.trans hrunnable

end Orderly

end World

theorem Round.over_true {ρ : Type} {maxTasks : ℕ} {r : Round P ν ρ E}
    (h : r.ending maxTasks = some true) :
    (r.trace.world.getUnfinishedAndRunnable none).2 = false := by
  unfold Round.ending at h
  split at h
  · cases h
  · split at h
    · cases h
    · rename_i hunfinished
      exact congrArg Prod.snd hunfinished
    · cases h

/-! ### The strategies -/

section

variable {V : Verifier P ν} {w : World P ν}

/-- There is a thread to pick and a task to start on it, and it does not matter in which order the
verifier is asked. -/
structure World.Serves (V : Verifier P ν) (onlyOne : Bool)
    (constructors : List (TaskBuilder P)) (w : World P ν) : Prop where
  /-- Questions do not change the answer about the last task of a thread. -/
  existing : ∀ v, Asks V w.verifier v → ∀ i t, w.back? i = some t →
    (V.verifyExisting v t i).1 = (V.verifyExisting w.verifier t i).1
  /-- Questions do not change the answer about a start. -/
  start : ∀ v, Asks V w.verifier v → ∀ name i,
    (V.verifyTaskStart v name i w.startContext).1 =
      (V.verifyTaskStart w.verifier name i w.startContext).1
  /-- Some thread may be picked. -/
  thread : ∃ i < w.threads.length, (w.eligible V onlyOne false w.verifier i).1 = true
  /-- A task may be started on each free thread that may be picked. -/
  constructor : ∀ i < w.threads.length, w.isFree i = true →
    (w.eligible V onlyOne false w.verifier i).1 = true →
    ∃ b ∈ constructors, (V.verifyTaskStart w.verifier b.name i w.startContext).1 = true

/-- The condition on the state in which an iteration calls `Next`. -/
def Round.Serves (V : Verifier P ν) (onlyOne : Bool) (maxTasks : ℕ)
    (r : Round P ν (Base P γ ρ) E) : Prop :=
  r.status = .running → r.ending maxTasks = none → (r.limit maxTasks).trace.world.Runnable →
    (r.limit maxTasks).trace.world.Serves V onlyOne (r.limit maxTasks).strategy.constructors

/-- Neither the verifier's state nor the order of the tests matters for what is eligible. -/
theorem World.Serves.eligible {onlyOne : Bool} {bs : List (TaskBuilder P)}
    (h : w.Serves V onlyOne bs) (verifyFirst : Bool) {v : ν} (i : ℕ) (hv : Asks V w.verifier v) :
    (w.eligible V onlyOne verifyFirst v i).1 = (w.eligible V onlyOne false w.verifier i).1 := by
  rw [World.eligible_fst, World.eligible_fst]
  cases hback : w.back? i with
  | none => rfl
  | some t => simp only [Option.all_some, h.existing v hv i t hback]

namespace Picker

/-- The strategy keeps `valid`, picks only eligible threads, and picks one if there is one and also
`cond` holds. Both are about the number of threads and the variables of the strategy. -/
structure Finds (K : Picker V γ ρ) (onlyOne : Bool) (valid cond : ℕ → ρ → Prop) : Prop where
  /-- The verifier is only asked. -/
  asks : K.AsksFirst
  /-- The constructors are left as they are. -/
  constructors : ∀ w s, (K.nextThreadId w s).2.2.constructors = s.constructors
  /-- `valid` is kept. -/
  kept : ∀ w s, valid w.threads.length s.own → valid w.threads.length (K.nextThreadId w s).2.2.own
  /-- A thread that is picked is eligible when it is tested. -/
  some : ∀ (w : World P ν) (s : Base P γ ρ) i, (K.nextThreadId w s).1 = some i →
    ∃ b v, Asks V w.verifier v ∧ (w.eligible V onlyOne b v i).1 = true
  /-- No thread is picked only if none is eligible. -/
  none : ∀ (w : World P ν) (s : Base P γ ρ) (p : ℕ → Bool), valid w.threads.length s.own →
    cond w.threads.length s.own →
    (∀ b v i, Asks V w.verifier v → (w.eligible V onlyOne b v i).1 = p i) →
    (K.nextThreadId w s).1 = none → ∀ i < w.threads.length, p i = false

theorem next_own {K : Picker V γ ρ} {s s' : Base P γ ρ} {n : Next P} {v : ν}
    (h : K.next w s = (n, v, s')) : s'.own = (K.nextThreadId w s).2.2.own := by
  rw [next] at h
  unfold nextVerifiedFor at h
  split at h
  · rw [← (Prod.mk.inj (Prod.mk.inj h).2).2]
  · dsimp only at h
    split at h
    · split at h
      · rw [← (Prod.mk.inj (Prod.mk.inj h).2).2]
        rfl
      · rw [← (Prod.mk.inj (Prod.mk.inj h).2).2]
        rfl
    · rw [← (Prod.mk.inj (Prod.mk.inj h).2).2]

variable {K : Picker V γ ρ} {onlyOne : Bool} {valid cond : ℕ → ρ → Prop} {w : World P ν}
  {s : Base P γ ρ}

/-- If the strategy returns a deadlock, all tasks are blocked. -/
theorem Finds.allBlocked (hK : K.Finds onlyOne valid cond)
    (hvalid : valid w.threads.length s.own) (hcond : cond w.threads.length s.own)
    (hs : w.Runnable → w.Serves V onlyOne s.constructors) {v : ν} {s' : Base P γ ρ} {n : Next P}
    (h : K.next w s = (n, v, s')) (hn : n = .failure .deadlock) : w.AllBlocked := by
  refine World.allBlocked_of_not_runnable fun hrunnable => ?_
  have hs := hs hrunnable
  obtain ⟨hnone, -⟩ | ⟨i, hi, hlt, ⟨hfree, hfound, -⟩ | ⟨-, b, rfl⟩ | ⟨-, rfl⟩⟩ := next_cases h
  · obtain ⟨i, hi, helig⟩ := hs.thread
    have hnot := hK.none w s _ hvalid hcond (fun b _ i hv => hs.eligible b i hv) hnone i hi
    cases helig.symm.trans hnot
  · -- The thread that was picked is free, so a constructor is accepted whatever was asked before.
    obtain ⟨b, v₁, hv₁, helig⟩ := hK.some w s i hi
    rw [hs.eligible b i hv₁] at helig
    obtain ⟨c, hc, haccept⟩ := hs.constructor i hlt hfree helig
    rw [← hK.constructors w s] at hc
    refine findConstructor_ne_none (hK.asks w s) ((K.rng.shuffle_perm _ _).mem_iff.mpr hc) ?_ hfound
    exact fun v hv => (hs.start v hv c.name i).trans haccept
  · cases hn
  · cases hn

end Picker

section

variable (V)

theorem roundRobin_finds (G : Rng γ) (onlyOne : Bool) :
    (roundRobinStrategy V G onlyOne).Finds onlyOne (fun _ _ => True)
      fun threads own => own + threads ≤ 2 ^ 64 where
  asks := roundRobin_asksFirst V G onlyOne
  constructors _ _ := rfl
  kept _ _ _ := trivial
  some _ _ _ h := ⟨false, (roundRobin_some (fun _ _ => Asks.eligible) .none h).2⟩
  none _ _ _ _ hcond hp h _ hi :=
    roundRobin_none (fun _ _ => Asks.eligible) .none (hp false) hcond h hi

theorem random_finds (G : Rng γ) (onlyOne : Bool) :
    (randomStrategy V G onlyOne).Finds onlyOne (fun _ _ => True) fun _ _ => True where
  asks := random_asksFirst V G onlyOne
  constructors w s := by
    dsimp only [randomStrategy, randomPick]
    split <;> rfl
  kept _ _ _ := trivial
  some _ _ _ h := ⟨true, (random_some (fun _ _ => Asks.eligible) .none h).2⟩
  none _ _ _ _ _ hp h _ hi := random_none (fun _ _ => Asks.eligible) .none (hp true) h hi

theorem pct_finds (G : Rng γ) (onlyOne : Bool) :
    (pctStrategy V G onlyOne).Finds onlyOne
      (fun threads own => threads ≤ own.priorities.values.length) fun _ _ => True where
  asks := pct_asksFirst V G onlyOne
  constructors _ _ := rfl
  kept _ _ h := h.trans_eq Pct.pick_length.symm
  some _ _ _ h := (Pct.pick_some (fun _ _ _ => Asks.eligible) .none h).2
  none _ _ _ hvalid _ hp h _ hi :=
    Pct.pick_none (fun _ _ _ => Asks.eligible) .none hp hvalid h hi

end

/-! ### Rounds -/

/-- What a scheduler does before it performs a task changes at most its wakeup condition. -/
def Clears (prep : ℕ → ℕ → Trace P ν E → Trace P ν E) : Prop :=
  ∀ i j tr, (prep i j tr).world = tr.world ∨
    (prep i j tr).world = tr.world.modifyTask i j Task.clearWakeupCondition

theorem StrategyScheduler.clears : Clears (P := P) (ν := ν) prepare := fun _ _ _ => .inr rfl

theorem DualStrategyScheduler.clears : Clears (P := P) (ν := ν) prepare := fun _ _ _ => .inl rfl

/-- The round is in order, and if its loop was left for a deadlock, all tasks are blocked. -/
structure RoundOrderly (valid : ℕ → ρ → Prop) (r : Round P ν (Base P γ ρ) E) : Prop where
  orderly : r.trace.world.Orderly
  valid : valid r.trace.world.threads.length r.strategy.own
  blocked : r.status = .ended true → r.trace.world.AllBlocked

namespace RoundOrderly

variable {R : Recorder P E} {K : Picker V γ ρ} {prep : ℕ → ℕ → Trace P ν E → Trace P ν E}
  {onlyOne : Bool} {valid cond : ℕ → ρ → Prop} {maxTasks : ℕ} {r r' : Round P ν (Base P γ ρ) E}

theorem limit_world (maxTasks : ℕ) (r : Round P ν (Base P γ ρ) E) :
    ∃ b, (r.limit maxTasks).trace.world = r.trace.world.setAllowNewTasks b := by
  unfold Round.limit
  split
  · exact ⟨r.trace.world.allowNewTasks, rfl⟩
  · exact ⟨false, rfl⟩

theorem limit (h : RoundOrderly valid r) : RoundOrderly valid (r.limit maxTasks) := by
  obtain ⟨b, hb⟩ := limit_world maxTasks r
  refine ⟨?_, ?_, fun hended => ?_⟩
  · rw [hb]
    exact ⟨h.orderly.last, h.orderly.removed⟩
  · rw [hb, Round.limit_strategy]
    exact h.valid
  · rw [hb]
    exact h.blocked (Round.limit_status.symm.trans hended)

theorem prepared (hprep : Clears prep) {tr : Trace P ν E} (h : tr.world.Orderly) (i j : ℕ) :
    (prep i j tr).world.Orderly ∧ (prep i j tr).world.threads.length = tr.world.threads.length := by
  obtain hw | hw := hprep i j tr
  · rw [hw]
    exact ⟨h, rfl⟩
  · rw [hw]
    exact ⟨h.clear, Grid.length_modify _⟩

theorem perform {tr tr' : Trace P ν E} {i j : ℕ} {isNew : Bool} (h : tr.world.Orderly)
    (htr : tr.perform R V i j isNew = some tr') :
    tr'.world.Orderly ∧ tr'.world.threads.length = tr.world.threads.length := by
  obtain ⟨t, ht, hret, rfl⟩ := Trace.perform_cases htr
  refine ⟨h.after ht hret, ?_⟩
  rw [← World.length_infos, Trace.after_infos, World.length_infos]

/-- The part of an iteration after the call of `Next`. -/
theorem follows (hprep : Clears prep) {n : Next P} (h : RoundOrderly valid r)
    (hrunning : r.status = .running) (hr' : r.Follows R K.toStrategy prep n r')
    (hdeadlock : n = .failure .deadlock → r.trace.world.AllBlocked)
    (hreplay : n ≠ .failure .needReplay)
    (hstart : ∀ i b, n = .start i b → i < r.trace.world.threads.length ∧
      r.trace.world.isFree i = true) : r'.status = .aborted ∨ RoundOrderly valid r' := by
  cases hr' with
  | deadlock => exact .inr ⟨h.orderly, h.valid, fun _ => hdeadlock rfl⟩
  | needReplay => exact absurd rfl hreplay
  | exhausted hstatus =>
    refine .inr ⟨h.orderly, h.valid, fun hended => ?_⟩
    obtain rfl | rfl := hstatus <;> cases hended
  | aborted habort _ => exact .inl habort
  | @start i j b tr hj htr =>
    obtain ⟨hi, hfree⟩ := hstart _ _ rfl
    have hbuild : (r.build i b).trace.world.Orderly := h.orderly.build hi hfree b
    have hprep := prepared hprep hbuild i j
    have hperform := perform hprep.1 htr
    refine .inr ⟨hperform.1, ?_, fun hended => by cases hrunning.symm.trans hended⟩
    have hlength : tr.world.threads.length = r.trace.world.threads.length :=
      (hperform.2.trans hprep.2).trans Grid.length_push
    exact hlength.symm ▸ h.valid
  | @resume i j tr htr =>
    have hprep := prepared hprep h.orderly i j
    have hperform := perform hprep.1 htr
    refine .inr ⟨hperform.1, ?_, fun hended => by cases hrunning.symm.trans hended⟩
    have hlength : tr.world.threads.length = r.trace.world.threads.length :=
      hperform.2.trans hprep.2
    exact hlength.symm ▸ h.valid

/-- **Only the last task of a thread has not returned**, and a deadlock is one, if the strategy is
served. -/
theorem iterates (hprep : Clears prep) (hK : K.Finds onlyOne valid cond)
    (h : r.status = .aborted ∨ RoundOrderly valid r) (hserves : r.Serves V onlyOne maxTasks)
    (hcond : cond r.trace.world.threads.length r.strategy.own)
    (hr' : r.Iterates R K.toStrategy prep maxTasks r') :
    r'.status = .aborted ∨ RoundOrderly valid r' := by
  have hlimit (hrunning : r.status = .running) : RoundOrderly valid (r.limit maxTasks) := by
    obtain habort | h := h
    · cases hrunning.symm.trans habort
    · exact h.limit
  cases hr' with
  | idle => exact h
  | @ended d hrunning hover =>
    have h' := hlimit hrunning
    refine .inr ⟨h'.orderly, h'.valid, fun hended => ?_⟩
    obtain rfl : d = true := Status.ended.inj hended
    refine h'.orderly.allBlocked_of_getUnfinished ?_
    obtain ⟨b, hb⟩ := limit_world maxTasks r
    rw [hb]
    exact Round.over_true hover
  | @follows n v s _ hrunning hover hnext hfollows =>
    have h' := hlimit hrunning
    have hserves := hserves hrunning hover
    have hcond : cond (r.limit maxTasks).trace.world.threads.length
        (r.limit maxTasks).strategy.own := by
      obtain ⟨b, hb⟩ := limit_world maxTasks r
      rw [hb, Round.limit_strategy]
      exact hcond
    have hstatus : (r.limit maxTasks).status = .running := Round.limit_status.trans hrunning
    have hown := Picker.next_own hnext
    have hasked : RoundOrderly valid ((r.limit maxTasks).asked v s) := by
      refine ⟨⟨h'.orderly.last, h'.orderly.removed⟩, ?_, fun hended => ?_⟩
      · exact hown ▸ hK.kept _ _ h'.valid
      · cases hstatus.symm.trans hended
    refine follows hprep hasked hstatus hfollows
      (hK.allBlocked h'.valid hcond hserves hnext) ?_ ?_
    · rintro rfl
      obtain ⟨-, hn⟩ | ⟨i, -, -, ⟨-, -, hn⟩ | ⟨-, b, hn⟩ | ⟨-, hn⟩⟩ := Picker.next_cases hnext <;>
        cases hn
    · rintro i b rfl
      obtain ⟨-, hn⟩ | ⟨i', -, hi, ⟨-, -, hn⟩ | ⟨hfree, b', hn⟩ | ⟨-, hn⟩⟩ :=
        Picker.next_cases hnext
      · cases hn
      · cases hn
      · cases hn
        exact ⟨hi, hfree⟩
      · cases hn

theorem iterate (hprep : Clears prep) (hK : K.Finds onlyOne valid cond)
    {step : Round P ν (Base P γ ρ) E → Round P ν (Base P γ ρ) E}
    (hstep : ∀ r, Round.Iterates R K.toStrategy prep maxTasks r (step r)) (h : RoundOrderly valid r)
    (n : ℕ) (hserves : ∀ k < n, (step^[k] r).Serves V onlyOne maxTasks)
    (hcond : ∀ k < n, cond (step^[k] r).trace.world.threads.length (step^[k] r).strategy.own) :
    (step^[n] r).status = .aborted ∨ RoundOrderly valid (step^[n] r) := by
  induction n with
  | zero => exact .inr h
  | succ n ih =>
    rw [Function.iterate_succ_apply']
    have ih := ih (fun k hk => hserves k (Nat.lt_succ_of_lt hk))
      fun k hk => hcond k (Nat.lt_succ_of_lt hk)
    exact iterates hprep hK ih (hserves n (Nat.lt_succ_self n)) (hcond n (Nat.lt_succ_self n))
      (hstep _)

theorem init (hw : w.Fresh) {s : Base P γ ρ} (hvalid : valid w.threads.length s.own) :
    RoundOrderly valid (Round.init (E := E) w s) where
  orderly := .of_fresh ⟨hw.threads, hw.removed⟩
  valid := hvalid
  blocked := nofun

end RoundOrderly

/-- If `RunRound` returns a deadlock under `DeadlockPolicy::Fail`, all tasks that have not returned
are blocked. -/
def DeadlockIsReal (R : Recorder P E) (r : Round P ν ρ E) : Prop :=
  ∀ check alternative history, r.result R check .fail alternative = some (some history) →
    history.reason = .deadlock → r.trace.world.AllBlocked

variable {r : Round P ν ρ E}

/-- A deadlock is returned only after the loop was left for one. -/
theorem deadlockIsReal_of_ended {R : Recorder P E}
    (h : r.status = .ended true → r.trace.world.AllBlocked) : DeadlockIsReal R r := by
  intro check alternative history hresult hreason
  unfold Round.result at hresult
  split at hresult
  · exact h ‹_›
  · -- After a complete round the history is checked, and the reason is another one.
    rw [checked] at hresult
    split at hresult
    · cases Option.some.inj hresult
    · obtain rfl := Option.some.inj (Option.some.inj hresult)
      cases hreason
  · cases Option.some.inj hresult
  · cases hresult

/-- A deadlock that is reported while a task could be resumed. -/
theorem not_deadlockIsReal {R : Recorder P E} {i j : ℕ} (hended : r.status = .ended true)
    (hreport : R.isReportableDeadlockHistory r.trace.seq = true)
    (hrunnable : ((r.trace.world.task? i j).any fun t =>
      !t.returned && !r.trace.world.isBlocked t) = true) : ¬ DeadlockIsReal R r := by
  intro h
  have hblocked : r.trace.world.AllBlocked := by
    refine h (fun _ => true) none ⟨r.trace.full, r.trace.seq, .deadlock⟩ ?_ rfl
    simp only [Round.result, hended, handleDeadlock, hreport, if_true]
  cases ht : r.trace.world.task? i j with
  | none => simp [ht] at hrunnable
  | some t =>
    simp only [ht, Option.any_some, Bool.and_eq_true, Bool.not_eq_true'] at hrunnable
    cases (hblocked i j t ht hrunnable.1).symm.trans hrunnable.2

/-- The two schedulers report only real deadlocks with a strategy, if the strategy is served and
`cond` holds in every iteration. -/
def ReportsRealDeadlocks (K : Picker V γ ρ) (onlyOne : Bool) (cond : ℕ → ρ → Prop) (maxTasks : ℕ)
    (w : World P ν) (s : Base P γ ρ) (n : ℕ) : Prop :=
  ((∀ k < n, let r := StrategyScheduler.run K.toStrategy maxTasks w s k
      r.Serves V onlyOne maxTasks ∧ cond r.trace.world.threads.length r.strategy.own) →
    DeadlockIsReal ordinaryRecorder (StrategyScheduler.run K.toStrategy maxTasks w s n)) ∧
  ((∀ k < n, let r := DualStrategyScheduler.run K.toStrategy maxTasks w s k
      r.Serves V onlyOne maxTasks ∧ cond r.trace.world.threads.length r.strategy.own) →
    DeadlockIsReal dualRecorder (DualStrategyScheduler.run K.toStrategy maxTasks w s n))

theorem Picker.Finds.reports {K : Picker V γ ρ} {onlyOne : Bool} {valid cond : ℕ → ρ → Prop}
    (hK : K.Finds onlyOne valid cond) (hw : w.Fresh) {s : Base P γ ρ}
    (hvalid : valid w.threads.length s.own) (maxTasks n : ℕ) :
    ReportsRealDeadlocks K onlyOne cond maxTasks w s n := by
  constructor
  · intro h
    refine deadlockIsReal_of_ended fun hended => ?_
    obtain habort | horderly := RoundOrderly.iterate StrategyScheduler.clears hK
      (StrategyScheduler.step_cases maxTasks) (.init hw hvalid) n (fun k hk => (h k hk).1)
      fun k hk => (h k hk).2
    · cases habort.symm.trans hended
    · exact horderly.blocked hended
  · intro h
    refine deadlockIsReal_of_ended fun hended => ?_
    obtain habort | horderly := RoundOrderly.iterate DualStrategyScheduler.clears hK
      (DualStrategyScheduler.step_cases maxTasks) (.init hw hvalid) n (fun k hk => (h k hk).1)
      fun k hk => (h k hk).2
    · cases habort.symm.trans hended
    · exact horderly.blocked hended

/-- **Reported deadlocks are real**, for all three strategies and both schedulers, if the strategy
is served in every iteration. The counter of round-robin must not overflow, and PCT has a priority
for each thread. -/
theorem deadlock_reported_only_if_blocked (V : Verifier P ν) (G : Rng γ)
    (onlyOne : Bool) (maxTasks : ℕ) (w : World P ν) (hw : w.Fresh) (n : ℕ) :
    (∀ s, ReportsRealDeadlocks (roundRobinStrategy V G onlyOne) onlyOne
      (fun threads own => own + threads ≤ 2 ^ 64) maxTasks w s n) ∧
    (∀ s, ReportsRealDeadlocks (randomStrategy V G onlyOne) onlyOne (fun _ _ => True) maxTasks w s
      n) ∧
    ∀ s, w.threads.length ≤ s.own.priorities.values.length →
      ReportsRealDeadlocks (pctStrategy V G onlyOne) onlyOne (fun _ _ => True) maxTasks w s n :=
  ⟨fun _ => (roundRobin_finds V G onlyOne).reports hw trivial maxTasks n,
    fun _ => (random_finds V G onlyOne).reports hw trivial maxTasks n,
    fun _ hs => (pct_finds V G onlyOne).reports hw hs maxTasks n⟩

end

/-! ### Tasks that block -/

/-- A target whose method yields, then blocks and never returns. The fiber says whether it has
yielded. -/
def stuckProgram : Program where
  Target := Unit
  Env := Unit
  Fiber := Bool
  Args := Unit
  Val := Unit
  targetFactory _ := ((), ())
  resume id _ yielded _ m _ :=
    if yielded then (⟨true, (), m.blockOn 1 id, some 1, none, [], none⟩, ())
    else (⟨true, (), m, none, none, [], none⟩, ())

/-- The builder of the tasks that block. -/
def stuckBuilder : TaskBuilder stuckProgram := ⟨"f", fun _ _ => ((), ()), fun _ => false, false⟩

/-- The first iterations of a round with two such tasks, with round-robin. -/
abbrev stuckRound (n : ℕ) :=
  StrategyScheduler.run (roundRobinStrategy (defaultStrategyTaskVerifier (ν := Unit)) .first
    false).toStrategy 2 (World.new (P := stuckProgram) 2 () () ()) ⟨[stuckBuilder], (), [], 0⟩ n

/-- Both tasks are started, then each of them blocks, and this is reported. -/
theorem deadlock_reported_for_blocked_tasks :
    DeadlockIsReal ordinaryRecorder (stuckRound 5) ∧ (stuckRound 5).status = .ended true := by
  constructor
  · have h := deadlock_reported_only_if_blocked (defaultStrategyTaskVerifier (ν := Unit)) .first
      false 2 (World.new (P := stuckProgram) 2 () () ()) (World.fresh_new 2 _ _ _) 5
    refine (h.1 ⟨[stuckBuilder], (), [], 0⟩).1 fun k hk => ?_
    match k with
    | 0 | 1 | 2 =>
      exact ⟨fun _ _ _ => ⟨fun _ _ _ _ _ => rfl, fun _ _ _ _ => rfl, ⟨0, by decide, by decide⟩,
        fun _ _ _ _ => ⟨stuckBuilder, .head _, rfl⟩⟩, by decide⟩
    | 3 =>
      exact ⟨fun _ _ _ => ⟨fun _ _ _ _ _ => rfl, fun _ _ _ _ => rfl, ⟨1, by decide, by decide⟩,
        fun _ _ _ _ => ⟨stuckBuilder, .head _, rfl⟩⟩, by decide⟩
    | 4 => exact ⟨fun _ hover => absurd hover (by decide), by decide⟩
  · decide

/-! ### A mutex -/

/-- The methods of a mutex; `unlock` yields before it releases the mutex. -/
inductive MutexFiber
  | lock
  | tryLock
  | unlock
  | unlocking

/-- A mutex; the target says whether it is locked. -/
def mutexProgram : Program where
  Target := Bool
  Env := Unit
  Fiber := MutexFiber
  Args := Unit
  Val := Bool
  targetFactory _ := (false, ())
  resume id _ fiber locked m _ :=
    match fiber with
    | .lock =>
      if locked then (⟨.lock, true, m.blockOn 1 id, some 1, none, [], none⟩, ())
      else (⟨.lock, true, m, none, none, [], some true⟩, ())
    | .tryLock => (⟨.tryLock, true, m, none, none, [], some !locked⟩, ())
    | .unlock => (⟨.unlocking, locked, m, none, none, [], none⟩, ())
    | .unlocking => (⟨.unlocking, false, m.unblockAllOn 1, none, none, [], some true⟩, ())

/-- What the verifier reads of its tasks. -/
def mutexReader : TaskReader (Task mutexProgram) where
  name t := t.name
  isReturned t := t.returned
  retBool t := Option.getD (α := Bool) t.ret false

/-- Its constructors. -/
def mutexBuilders : List (TaskBuilder mutexProgram) :=
  [⟨"lock", fun _ _ => ((), ()), fun _ => .lock, false⟩,
    ⟨"try_lock", fun _ _ => ((), ()), fun _ => .tryLock, false⟩,
    ⟨"unlock", fun _ _ => ((), ()), fun _ => .unlock, false⟩]

/-- The generator that rotates lists by the number of its calls. -/
def Rng.rotating : Rng ℕ where
  shuffle k l := (l.rotate k, k + 1)
  discrete k _ := (0, k + 1)
  uniform k a _ := (a, k + 1)
  shuffle_perm k l := List.rotate_perm l k
  discrete_lt _ _ h := List.length_pos_of_ne_nil h

/-- Round-robin with the verifier of the mutex. -/
abbrev mutexStrategy := (roundRobinStrategy (libcoroMutexVerifier mutexReader) .rotating false)

/-- A round with three threads. -/
def mutexWorld : World mutexProgram (ReserveState (Option ℕ)) :=
  World.new 3 false () ⟨none, fun _ => 0, [], 3⟩

/-- **A mutex whose owner is about to unlock it.** Thread 0 has locked it and is in `unlock`, and
thread 2 is blocked in `lock`. Thread 1 is picked: as only one thread is free, it may start nothing
but `unlock`, which it may not start either. Both schedulers report a deadlock. -/
theorem deadlock_reported_while_unlocking :
    ¬ DeadlockIsReal ordinaryRecorder (StrategyScheduler.run mutexStrategy.toStrategy 10 mutexWorld
        ⟨mutexBuilders, 0, [], 0⟩ 5) ∧
      ¬ DeadlockIsReal dualRecorder (DualStrategyScheduler.run mutexStrategy.toStrategy 10
        mutexWorld ⟨mutexBuilders, 0, [], 0⟩ 5) := by
  constructor
  · exact not_deadlockIsReal (i := 0) (j := 1) (by decide) (by decide) (by decide)
  · exact not_deadlockIsReal (i := 0) (j := 1) (by decide) (by decide) (by decide)

end Scheduler

end LTest
