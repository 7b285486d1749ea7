import LTest.Scheduler.Forced
import LTest.Scheduler.FullHistory
import LTest.Scheduler.Schedulable

/-!
# Explored rounds are whole

An attempt of `ExploreRound` knows how far it is from three places: the index of the current task of
each thread, which the strategy keeps; the ids of the tasks that were started; and the number of
tasks that are left. They agree: the tasks before the current one of a thread have returned or are
removed, a task that has returned was started, and none is left when all have returned. So the loop
is left without a deadlock only when the whole round was run, thread by thread in the order of the
tasks. No assumption on the verifier or on the target is needed, and ids have to be different, since
started tasks are known by their ids.

## Main definitions

* `RunsWhole` — an attempt runs all tasks that are not removed, and no others
* `Picker.ExploresWhole` — so do the attempts of both schedulers that end without a deadlock
* `Progress` — the invariant

## Main results

* `Progress.performed` — a step of the next task of a thread
* `Progress.runsWhole` — attempts that end without a deadlock
* `explored_rounds_whole` — the headline
-/

namespace LTest

namespace Scheduler

variable {P : Program} {ν γ ρ E : Type}

/-! ### Whole rounds -/

section

variable {V : Verifier P ν}

/-- What `n` iterations of an attempt have done. -/
structure RunsWhole (R : Recorder P E) (S : Strategy V ρ)
    (reset : World P ν → ρ → World P ν × ρ) (w : World P ν) (s : ρ) (n : ℕ) : Prop where
  /-- Each task of the round that is not removed has one start event. -/
  started : ∀ i j t, w.task? i j = some t → t.id ∉ w.removed →
    (R.starts (exploreAttempt R S reset n w s).trace.seq).count t.id = 1
  /-- It has returned. -/
  returned : ∀ i j t, w.task? i j = some t → t.id ∉ w.removed →
    ∃ t', (exploreAttempt R S reset n w s).trace.world.task? i j = some t' ∧ t'.id = t.id ∧
      t'.returned = true
  /-- No removed task was started. -/
  not_started : ∀ id ∈ w.removed, id ∉ R.starts (exploreAttempt R S reset n w s).trace.seq
  /-- No removed task was resumed. -/
  not_resumed : ∀ id ∈ w.removed, id ∉ exploreResumed R S (reset w s).1 (reset w s).2 n
  /-- The tasks of a thread started in their order. -/
  ordered : ∀ i j j' t t', j < j' → w.task? i j = some t → w.task? i j' = some t' →
    t.id ∉ w.removed → t'.id ∉ w.removed →
      [t.id, t'.id].Sublist (R.starts (exploreAttempt R S reset n w s).trace.seq)
  /-- All earlier ones that are not removed had returned before the iteration. -/
  after_returned : ∀ m < n, ∀ i j j' t', j < j' → w.task? i j' = some t' →
    t'.id ∉ R.starts (exploreAttempt R S reset m w s).trace.seq →
    t'.id ∈ R.starts (exploreAttempt R S reset (m + 1) w s).trace.seq →
      ∀ u, (exploreAttempt R S reset m w s).trace.world.task? i j = some u →
        u.id ∉ w.removed → u.returned = true

/-- With the strategy, the attempts of both schedulers that end without a deadlock run the whole
round. -/
def Picker.ExploresWhole (K : Picker V γ ρ) (w : World P ν) : Prop :=
  ∀ (s : Base P γ ρ) (n : ℕ),
    ((exploreAttempt ordinaryRecorder K.toStrategy (StrategyScheduler.exploreReset K.toStrategy) n
        w s).status = .ended false →
      RunsWhole ordinaryRecorder K.toStrategy (StrategyScheduler.exploreReset K.toStrategy) w s n) ∧
    ((exploreAttempt dualRecorder K.toStrategy (DualStrategyScheduler.exploreReset K.toStrategy) n
        w s).status = .ended false →
      RunsWhole dualRecorder K.toStrategy (DualStrategyScheduler.exploreReset K.toStrategy) w s n)

/-! ### Progress -/

variable {w : World P ν}

/-- What an attempt knows of its progress. -/
structure Progress (R : Recorder P E) (x : Explore P ν (Base P γ ρ) E) : Prop where
  numbered : x.trace.world.Numbered
  skips : x.trace.world.Skips x.strategy.roundSchedule
  started : ∀ id, id ∈ x.startedIds ↔ id ∈ R.starts x.trace.seq
  nodup : (R.starts x.trace.seq).Nodup
  resumed : ∀ id ∈ x.trace.full, id ∉ x.trace.world.removed
  returned : ∀ i j t, x.trace.world.task? i j = some t → t.returned = true →
    t.id ∉ x.trace.world.removed → t.id ∈ R.starts x.trace.seq
  ordered : ∀ i j j' t t', j < j' → x.trace.world.task? i j = some t →
    x.trace.world.task? i j' = some t' → t.id ∉ x.trace.world.removed →
    t'.id ∈ R.starts x.trace.seq → [t.id, t'.id].Sublist (R.starts x.trace.seq)

/-- The tasks of rounds with the same infos have the same ids. -/
theorem World.exists_task?_of_infos {w' : World P ν} (hinfos : w'.infos = w.infos) {i j : ℕ}
    {t' : Task P} (ht' : w'.task? i j = some t') : ∃ t, w.task? i j = some t ∧ t.id = t'.id := by
  have hget : (w.task? i j).map Task.toTaskInfo = some t'.toTaskInfo := by
    rw [← World.infos_get?, ← hinfos, World.infos_get?, ht', Option.map_some]
  obtain ⟨t, ht, hinfo⟩ := Option.map_eq_some_iff.1 hget
  exact ⟨t, ht, congrArg TaskInfo.id hinfo⟩

namespace Progress

variable {R : Recorder P E} {K : Picker V γ ρ} {x : Explore P ν (Base P γ ρ) E} {i j : ℕ}
  {t : Task P}

theorem init (hw : w.Numbered) {s : Base P γ ρ}
    (hs : World.scheduledFrom s.roundSchedule = fun _ => 0)
    (hreturned : ∀ i j t, w.task? i j = some t → t.returned = w.isTaskRemoved t.id) :
    Progress R (Explore.init w s) where
  numbered := hw
  skips i j t hlt := by
    rw [show World.scheduledFrom (Explore.init (E := E) w s).strategy.roundSchedule i = 0 from
      congrFun hs i] at hlt
    cases hlt
  started _ := Iff.rfl
  nodup := List.nodup_nil
  resumed _ hid := absurd hid List.not_mem_nil
  returned i j t ht hret hid := by
    have hremoved : w.isTaskRemoved t.id = true := (hreturned i j t ht).symm.trans hret
    exact absurd (of_decide_eq_true hremoved) hid
  ordered _ _ _ _ _ _ _ _ _ hstart := absurd hstart List.not_mem_nil

/-- The earlier tasks of a thread have returned when its next task makes a step. -/
theorem returned_of_lt (h : Progress R x)
    (hj : x.trace.world.getNextTaskInThread x.strategy.roundSchedule i = j) {j' : ℕ} {u : Task P}
    (hlt : j' < j) (hu : x.trace.world.task? i j' = some u) (hid : u.id ∉ x.trace.world.removed) :
    u.returned = true := by
  have hskip := h.skips.isSkipped (hj.symm ▸ hlt) hu
  rw [World.isSkipped, World.isTaskRemoved, decide_eq_false hid, Bool.or_false] at hskip
  exact hskip

section Performed

variable {v : ν} {s : Base P γ ρ} {tr : Trace P ν E}
  (ht : x.trace.world.task? i j = some t) (htr : (x.asked v s).perform R V i j t = some tr)

include ht htr

theorem performed_histories (h : Progress R x) :
    R.starts tr.seq = R.starts x.trace.seq ++
        (if t.id ∈ R.starts x.trace.seq then [] else [t.id]) ∧
      tr.full = x.trace.full ++ [t.id] := by
  obtain ⟨t', ht', -, rfl⟩ := Trace.perform_cases htr
  obtain rfl : t' = t := Option.some.inj (ht'.symm.trans ht)
  refine ⟨(Trace.after_starts ht').trans (congrArg (R.starts x.trace.seq ++ ·) ?_), rfl⟩
  show (if (!x.startedIds.contains t'.id) = true then [t'.id] else []) = _
  by_cases hid : t'.id ∈ R.starts x.trace.seq
  · rw [if_pos hid, if_neg]
    simpa using (h.started t'.id).2 hid
  · rw [if_neg hid, if_pos]
    simpa using fun hstarted => hid ((h.started t'.id).1 hstarted)

theorem mem_starts (h : Progress R x) {id : ℕ} :
    id ∈ R.starts tr.seq ↔ id ∈ R.starts x.trace.seq ∨ id = t.id := by
  rw [(h.performed_histories ht htr).1, List.mem_append]
  by_cases hid : t.id ∈ R.starts x.trace.seq
  · rw [if_pos hid]
    refine ⟨fun h => .inl (h.resolve_right List.not_mem_nil), fun h => .inl ?_⟩
    exact h.elim (fun h => h) fun heq => heq ▸ hid
  · rw [if_neg hid, List.mem_singleton]

/-- **A step of the next task of a thread.** -/
theorem performed (h : Progress R x)
    (hj : x.trace.world.getNextTaskInThread x.strategy.roundSchedule i = j)
    (hs : s.roundSchedule = x.strategy.roundSchedule.set i (some j)) :
    Progress R ((x.asked v s).performed i j t.id tr) := by
  obtain ⟨hstarts, hfull⟩ := h.performed_histories ht htr
  have hmem (id : ℕ) : id ∈ R.starts tr.seq ↔ id ∈ R.starts x.trace.seq ∨ id = t.id :=
    h.mem_starts ht htr
  have hstep : Stepped R V i j t v x.trace.world tr.world := .of_explore htr ht
  have hlive : t.id ∉ x.trace.world.removed := by
    have hskip : x.trace.world.isSkipped t = false := World.isSkipped_next (hj ▸ ht)
    exact of_decide_eq_false (Bool.or_eq_false_iff.1 hskip).2
  constructor
  case numbered => exact h.numbered.congr hstep.infos
  case skips =>
    show tr.world.Skips s.roundSchedule
    rw [hs]
    exact hstep.skips h.skips hj
  case started =>
    intro id
    show id ∈ addStarted x.startedIds t.id ↔ id ∈ R.starts tr.seq
    rw [mem_addStarted, hmem, h.started]
  case nodup =>
    show (R.starts tr.seq).Nodup
    rw [hstarts]
    split
    · rw [List.append_nil]
      exact h.nodup
    · rename_i hid
      exact List.nodup_append.2 ⟨h.nodup, List.nodup_singleton _, fun a ha b hb hab =>
        hid (List.mem_singleton.1 hb ▸ hab ▸ ha)⟩
  case resumed =>
    show ∀ id ∈ tr.full, id ∉ tr.world.removed
    rw [hfull, hstep.removed]
    intro id hid
    obtain hid | hid := List.mem_append.1 hid
    · exact h.resumed id hid
    · exact List.mem_singleton.1 hid ▸ hlive
  case returned =>
    intro i' j' u' (hu' : tr.world.task? i' j' = some u') hret (hid : u'.id ∉ tr.world.removed)
    show u'.id ∈ R.starts tr.seq
    rw [hmem]
    by_cases hij : i' = i ∧ j' = j
    · obtain ⟨rfl, rfl⟩ := hij
      obtain ⟨t', ht', hinfo, -⟩ := hstep.self
      obtain rfl := Option.some.inj (ht'.symm.trans hu')
      exact .inr (congrArg TaskInfo.id hinfo)
    · obtain ⟨u, hu, rfl⟩ := hstep.exists_other hij hu'
      rw [R.drainTask_returned] at hret
      rw [hstep.removed, R.drainTask_toTaskInfo] at hid
      rw [R.drainTask_toTaskInfo]
      exact .inl (h.returned i' j' u hu hret hid)
  case ordered =>
    intro i' j₁ j₂ u₁' u₂' hlt (hu₁' : tr.world.task? i' j₁ = some u₁')
      (hu₂' : tr.world.task? i' j₂ = some u₂') (hid₁ : u₁'.id ∉ tr.world.removed)
      (hid₂ : u₂'.id ∈ R.starts tr.seq)
    show [u₁'.id, u₂'.id].Sublist (R.starts tr.seq)
    obtain ⟨u₁, hu₁, heq₁⟩ := World.exists_task?_of_infos hstep.infos hu₁'
    obtain ⟨u₂, hu₂, heq₂⟩ := World.exists_task?_of_infos hstep.infos hu₂'
    rw [hstep.removed, ← heq₁] at hid₁
    rw [← heq₂] at hid₂
    rw [← heq₁, ← heq₂, hstarts]
    by_cases hold : u₂.id ∈ R.starts x.trace.seq
    · exact (h.ordered i' j₁ j₂ u₁ u₂ hlt hu₁ hu₂ hid₁ hold).trans
        (List.sublist_append_left _ _)
    · -- the task starts with this step, and all before it have returned
      have heq : u₂.id = t.id := ((hmem _).1 hid₂).resolve_left hold
      obtain ⟨rfl, rfl⟩ := h.numbered i' j₂ i j u₂ t hu₂ ht heq
      have hret := h.returned_of_lt hj hlt hu₁ hid₁
      have hfirst := h.returned i' j₁ u₁ hu₁ hret hid₁
      rw [heq] at hold ⊢
      rw [if_neg hold]
      exact (List.singleton_sublist.2 hfirst).append (List.Sublist.refl [t.id])

end Performed

/-- The attempt is going on, or its loop was left without a deadlock. -/
def Undisturbed (x : Explore P ν (Base P γ ρ) E) : Prop :=
  x.status = .running ∨ x.status = .ended false

/-- **An iteration** keeps the invariant, and if a task starts, the earlier tasks of its thread have
returned. -/
theorem step (hK : K.KeepsSchedule) (h : Undisturbed x → Progress R x)
    (hx' : Undisturbed (Explore.step R K.toStrategy x)) :
    Undisturbed x ∧ Progress R (Explore.step R K.toStrategy x) ∧
      ∀ i j j' t', j < j' → x.trace.world.task? i j' = some t' → t'.id ∉ R.starts x.trace.seq →
        t'.id ∈ R.starts (Explore.step R K.toStrategy x).trace.seq →
        ∀ u, x.trace.world.task? i j = some u → u.id ∉ x.trace.world.removed →
          u.returned = true := by
  by_cases hrunning : x.status = .running
  · have hx := h (.inl hrunning)
    refine ⟨.inl hrunning, ?_⟩
    obtain ⟨v, s, status, hne, -, hs, heq⟩ | ⟨i, j, t, v₀, v, s, tr, hj, ht, hs, -, -, htr, heq⟩ :=
      hK.step_cases (R := R) hrunning
    · rw [heq] at hx' ⊢
      obtain rfl := hs (hx'.resolve_left hne)
      exact ⟨⟨hx.numbered, hx.skips, hx.started, hx.nodup, hx.resumed, hx.returned, hx.ordered⟩,
        fun _ _ _ _ _ _ hnot hmem => absurd hmem hnot⟩
    · rw [heq]
      refine ⟨hx.performed ht htr hj hs, fun i' j₁ j₂ t' hlt ht' hnot hmem u hu hid => ?_⟩
      have heq : t'.id = t.id := ((hx.mem_starts ht htr).1 hmem).resolve_left hnot
      obtain ⟨rfl, rfl⟩ := hx.numbered i' j₂ i j t' t ht' ht heq
      exact hx.returned_of_lt hj hlt hu hid
  · rw [Explore.step_of_not_running hrunning] at hx' ⊢
    exact ⟨hx', h hx', fun _ _ _ _ _ _ hnot hmem => absurd hmem hnot⟩

section Attempts

variable {reset : World P ν → Base P γ ρ → World P ν × Base P γ ρ}
  (hreset : ∀ w s, (reset w s).1 = w.resetCurrentRound V)
  (hfrom : ∀ w s, World.scheduledFrom (reset w s).2.roundSchedule = fun _ => 0)

include hreset hfrom

/-- **An attempt**: the invariant holds as long as it is undisturbed. -/
theorem attempt (hK : K.KeepsSchedule) (hw : w.Numbered) (s : Base P γ ρ) (n : ℕ)
    (hn : Undisturbed (exploreAttempt R K.toStrategy reset n w s)) :
    Progress R (exploreAttempt R K.toStrategy reset n w s) := by
  induction n with
  | zero =>
    refine init ?_ (hfrom w s) ?_
    · rw [hreset]
      exact hw.congr (World.infos_resetCurrentRound V)
    · rw [hreset]
      exact fun i j t ht => World.returned_resetCurrentRound (w := w) V ht
  | succ n ih =>
    rw [exploreAttempt, Function.iterate_succ_apply'] at hn ⊢
    exact (step hK ih hn).2.1

theorem undisturbed_of_le (hK : K.KeepsSchedule) (hw : w.Numbered) (s : Base P γ ρ) {m n : ℕ}
    (hm : m ≤ n) (hn : Undisturbed (exploreAttempt R K.toStrategy reset n w s)) :
    Undisturbed (exploreAttempt R K.toStrategy reset m w s) := by
  induction n, hm using Nat.le_induction with
  | base => exact hn
  | succ n _ ih =>
    refine ih ?_
    rw [exploreAttempt, Function.iterate_succ_apply'] at hn
    exact (step hK (attempt hreset hfrom hK hw s n) hn).1

/-- **An attempt that ends without a deadlock** runs the whole round. -/
theorem runsWhole (hK : K.KeepsSchedule) (hw : w.Numbered) (s : Base P γ ρ) (n : ℕ)
    (hended : (exploreAttempt R K.toStrategy reset n w s).status = .ended false) :
    RunsWhole R K.toStrategy reset w s n := by
  have hprogress := attempt hreset hfrom hK hw s n (.inr hended)
  have hinfos (m : ℕ) : (exploreAttempt R K.toStrategy reset m w s).trace.world.infos = w.infos :=
    exploreAttempt_infos hreset w s m
  have hresets (m : ℕ) := exploreAttempt_resets (R := R) (S := K.toStrategy) hreset w s m
  have hremoved (m : ℕ) :
      (exploreAttempt R K.toStrategy reset m w s).trace.world.removed = w.removed :=
    (hresets m).removed
  have htask (i j : ℕ) (t : Task P) (ht : w.task? i j = some t) :
      ∃ t', (exploreAttempt R K.toStrategy reset n w s).trace.world.task? i j = some t' ∧
        t'.id = t.id ∧ t'.returned = true := by
    obtain ⟨t', ht', hid⟩ := World.exists_task?_of_infos (hinfos n).symm ht
    have hcounts := exploreAttempt_counts (R := R) (S := K.toStrategy) hreset w s n
    exact ⟨t', ht', hid, hcounts.returned (hresets n) hended ht'⟩
  have hmem (i j : ℕ) (t : Task P) (ht : w.task? i j = some t) (hid : t.id ∉ w.removed) :
      t.id ∈ R.starts (exploreAttempt R K.toStrategy reset n w s).trace.seq := by
    obtain ⟨t', ht', heq, hret⟩ := htask i j t ht
    rw [← heq] at hid ⊢
    exact hprogress.returned i j t' ht' hret ((hremoved n).symm ▸ hid)
  constructor
  case started =>
    intro i j t ht hid
    exact List.count_eq_one_of_mem hprogress.nodup (hmem i j t ht hid)
  case returned => exact fun i j t ht _ => htask i j t ht
  case not_started =>
    intro id hid hstart
    have hfull := exploreAttempt_starts w s id hstart
    exact hprogress.resumed id hfull ((hremoved n).symm ▸ hid)
  case not_resumed =>
    intro id hid
    have hfull : (exploreAttempt R K.toStrategy reset n w s).trace.full =
        exploreResumed R K.toStrategy (reset w s).1 (reset w s).2 n := by
      refine (explore_full _ _ n).resolve_left fun haborted => ?_
      cases hended.symm.trans haborted
    rw [← hfull]
    exact fun hresumed => hprogress.resumed id hresumed ((hremoved n).symm ▸ hid)
  case ordered =>
    intro i j j' t t' hlt ht ht' hid hid'
    obtain ⟨u, hu, heq, -⟩ := htask i j t ht
    obtain ⟨u', hu', heq', -⟩ := htask i j' t' ht'
    rw [← heq, ← heq']
    refine hprogress.ordered i j j' u u' hlt hu hu' ?_ ?_
    · rw [hremoved n, heq]
      exact hid
    · rw [heq']
      exact hmem i j' t' ht' hid'
  case after_returned =>
    intro m hm i j j' t' hlt ht' hnot hstart u hu hid
    have hnext := undisturbed_of_le hreset hfrom hK hw s hm (.inr hended)
    obtain ⟨u', hu', heq⟩ := World.exists_task?_of_infos (hinfos m).symm ht'
    rw [exploreAttempt, Function.iterate_succ_apply'] at hnext hstart
    obtain ⟨-, -, hafter⟩ := step hK (attempt hreset hfrom hK hw s m) hnext
    refine hafter i j j' u' hlt hu' (heq.symm ▸ hnot) (heq.symm ▸ hstart) u hu ?_
    exact (hremoved m).symm ▸ hid

end Attempts

end Progress

theorem Picker.KeepsSchedule.exploresWhole {K : Picker V γ ρ} (hK : K.KeepsSchedule)
    (hw : w.Numbered) : K.ExploresWhole w := fun s n =>
  ⟨Progress.runsWhole (fun _ _ => rfl) (fun _ _ => scheduledFrom_reset _) hK hw s n,
    Progress.runsWhole (fun _ _ => rfl) (fun _ _ => scheduledFrom_reset _) hK hw s n⟩

/-- **Explored rounds are whole**, for round-robin, random and PCT: with every verifier and every
generator of random numbers, from every round whose tasks have different ids, with any tasks
removed, the attempts of both schedulers that end without a deadlock run all other tasks. -/
theorem explored_rounds_whole (V : Verifier P ν) (G : Rng γ) (onlyOne : Bool)
    (w : World P ν) (hw : w.Numbered) :
    (roundRobinStrategy V G onlyOne).ExploresWhole w ∧
      (randomStrategy V G onlyOne).ExploresWhole w ∧ (pctStrategy V G onlyOne).ExploresWhole w :=
  ⟨(roundRobin_keepsSchedule V G onlyOne).exploresWhole hw,
    (random_keepsSchedule V G onlyOne).exploresWhole hw,
    (pct_keepsSchedule V G onlyOne).exploresWhole hw⟩

end

/-- A round with three tasks on a thread and one on another. The second task is removed. -/
def roundOfFour : World instantProgram Unit :=
  ((((World.new 2 () () ()).build 0 instantBuilder).build 0 instantBuilder).build 0
    instantBuilder).build 1 instantBuilder |>.setTaskRemoved 1 true

theorem numbered_roundOfFour : roundOfFour.Numbered := by
  have hnew : (World.new (P := instantProgram) 2 () () ()).Serial :=
    .of_forall_nil (World.fresh_new 2 () () ()).threads
  have hbuilt := (((hnew.build 0 instantBuilder).build 0 instantBuilder).build 0
    instantBuilder).build 1 instantBuilder
  exact hbuilt.numbered.congr rfl

/-- The exploration of the round. -/
abbrev exploredFour :=
  exploreAttempt ordinaryRecorder instantStrategy.toStrategy
    (StrategyScheduler.exploreReset instantStrategy.toStrategy) 4 roundOfFour
    ⟨[instantBuilder], (), [none, none], 0⟩

theorem explored_round_of_four :
    exploredFour.status = .ended false ∧
      ordinaryRecorder.starts exploredFour.trace.seq = [0, 3, 2] ∧
      RunsWhole ordinaryRecorder instantStrategy.toStrategy
        (StrategyScheduler.exploreReset instantStrategy.toStrategy) roundOfFour
        ⟨[instantBuilder], (), [none, none], 0⟩ 4 := by
  have hended : exploredFour.status = .ended false := by decide
  have h := explored_rounds_whole (P := instantProgram) (defaultStrategyTaskVerifier (ν := Unit))
    .first false roundOfFour numbered_roundOfFour
  exact ⟨hended, by decide, (h.1 _ 4).1 hended⟩

end Scheduler

end LTest
