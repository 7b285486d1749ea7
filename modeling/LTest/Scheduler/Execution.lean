import LTest.Scheduler.Completion
import LTest.Scheduler.Strategies

/-!
# Well-formed executions

The checkers expect histories in which each thread performs one operation after the other. The
histories of `StrategyScheduler` are of this kind, whichever thread the strategy picks: a task is
started only on a thread whose last task has returned, and no other task than the last one of a
thread is resumed.

## Main definitions

* `Threaded` — histories with the operation that each thread has not finished
* `WellFormedExecution` — what the checkers expect
* `World.pendingTask` — the last task of a thread, if it has not returned

## Main results

* `Threaded.wellFormed` — histories of this kind are well-formed
* `RoundOrdered.iterates` — an iteration appends events that are in order
* `generated_histories_wellFormed` — the histories of round-robin, random and PCT
-/

namespace LTest

namespace Scheduler

variable {P : Program} {ν ρ γ E : Type}

/-! ### Histories of threads -/

/-- A history in which every thread performs one operation after the other, and the operation that
each thread has not finished. No operation is invoked twice. -/
inductive Threaded : List (HistoryEvent P) → (ℕ → Option (TaskInfo P)) → Prop
  | nil : Threaded [] fun _ => none
  | invoke {seq : List (HistoryEvent P)} {pend : ℕ → Option (TaskInfo P)} {t : TaskInfo P} {i : ℕ}
      (h : Threaded seq pend) (hi : pend i = none) (ht : t.id ∉ ordinaryRecorder.starts seq) :
      Threaded (seq ++ [HistoryEvent.invoke t i]) (Function.update pend i (some t))
  | response {seq : List (HistoryEvent P)} {pend : ℕ → Option (TaskInfo P)} {t : TaskInfo P}
      {i : ℕ} (r : Option P.Val) (h : Threaded seq pend) (hi : pend i = some t) :
      Threaded (seq ++ [HistoryEvent.response t r i]) (Function.update pend i none)

/-- The tasks that have finished. -/
def finishes (seq : List (HistoryEvent P)) : List ℕ := seq.filterMap HistoryEvent.finishedTaskId

/-- A history of threads. -/
structure WellFormedExecution (seq : List (HistoryEvent P)) : Prop where
  /-- A task is invoked at most once. -/
  invoked_once : (ordinaryRecorder.starts seq).Nodup
  /-- It is answered at most once. -/
  answered_once : (finishes seq).Nodup
  /-- This is after its invoke and on the same thread. -/
  answered_after : ∀ l l' t r i, seq = l ++ HistoryEvent.response t r i :: l' → .invoke t i ∈ l
  /-- A thread has at most one operation that is not answered. -/
  one_unanswered : ∀ i t t', .invoke t i ∈ seq → .invoke t' i ∈ seq → t.id ∉ finishes seq →
    t'.id ∉ finishes seq → t = t'
  /-- Its next one is invoked only after the response of the one before. -/
  invoked_after : ∀ l l' t t' i, seq = l ++ HistoryEvent.invoke t i :: l' → .invoke t' i ∈ l →
    ∃ r, .response t' r i ∈ l

namespace Threaded

variable {seq : List (HistoryEvent P)} {pend : ℕ → Option (TaskInfo P)} {t : TaskInfo P} {i : ℕ}

theorem starts_invoke (t : TaskInfo P) (i : ℕ) :
    ordinaryRecorder.starts (seq ++ [HistoryEvent.invoke t i]) =
      ordinaryRecorder.starts seq ++ [t.id] := by
  rw [Recorder.starts_append]
  rfl

theorem starts_response (t : TaskInfo P) (r : Option P.Val) (i : ℕ) :
    ordinaryRecorder.starts (seq ++ [HistoryEvent.response t r i]) =
      ordinaryRecorder.starts seq := by
  rw [Recorder.starts_append]
  exact List.append_nil _

theorem finishes_invoke (t : TaskInfo P) (i : ℕ) :
    finishes (seq ++ [HistoryEvent.invoke t i]) = finishes seq := by
  rw [finishes, List.filterMap_append]
  exact List.append_nil _

theorem finishes_response (t : TaskInfo P) (r : Option P.Val) (i : ℕ) :
    finishes (seq ++ [HistoryEvent.response t r i]) = finishes seq ++ [t.id] := by
  rw [finishes, List.filterMap_append]
  rfl

theorem mem_starts (h : .invoke t i ∈ seq) :
    t.id ∈ ordinaryRecorder.starts seq := List.mem_filterMap.mpr ⟨_, h, rfl⟩

section

variable (h : Threaded seq pend)
include h

theorem mem_of_pend (hi : pend i = some t) : .invoke t i ∈ seq := by
  induction h with
  | nil => cases hi
  | @invoke seq pend t' i' _ _ _ ih =>
    by_cases hii : i = i'
    · subst hii
      rw [Function.update_self] at hi
      rw [Option.some.inj hi]
      exact List.mem_append_right _ List.mem_cons_self
    · rw [Function.update_of_ne hii] at hi
      exact List.mem_append_left _ (ih hi)
  | @response seq pend t' i' _ _ _ ih =>
    by_cases hii : i = i'
    · subst hii
      rw [Function.update_self] at hi
      cases hi
    · rw [Function.update_of_ne hii] at hi
      exact List.mem_append_left _ (ih hi)

/-- Operations of different threads that are not finished are different. -/
theorem pend_injective {i' : ℕ} {t' : TaskInfo P} (hi : pend i = some t) (hi' : pend i' = some t')
    (hid : t.id = t'.id) : i = i' := by
  induction h with
  | nil => cases hi
  | @invoke seq pend u k h _ hfresh ih =>
    have hne (i : ℕ) (t : TaskInfo P) (hi : pend i = some t) : t.id ≠ u.id :=
      fun hid => hfresh (hid ▸ mem_starts (h.mem_of_pend hi))
    by_cases hk : i = k
    · subst hk
      by_cases hk' : i' = i
      · exact hk'.symm
      · rw [Function.update_self] at hi
        rw [Function.update_of_ne hk'] at hi'
        obtain rfl := Option.some.inj hi
        exact absurd hid.symm (hne i' t' hi')
    · rw [Function.update_of_ne hk] at hi
      by_cases hk' : i' = k
      · subst hk'
        rw [Function.update_self] at hi'
        obtain rfl := Option.some.inj hi'
        exact absurd hid (hne i t hi)
      · rw [Function.update_of_ne hk'] at hi'
        exact ih hi hi'
  | @response seq pend u k r _ _ ih =>
    by_cases hk : i = k
    · subst hk
      rw [Function.update_self] at hi
      cases hi
    by_cases hk' : i' = k
    · subst hk'
      rw [Function.update_self] at hi'
      cases hi'
    rw [Function.update_of_ne hk] at hi
    rw [Function.update_of_ne hk'] at hi'
    exact ih hi hi'

/-- An operation that was invoked has a response, or it is the one that its thread has not
finished. -/
theorem answered_or_pend (ht : .invoke t i ∈ seq) :
    (∃ r, .response t r i ∈ seq) ∨ pend i = some t := by
  induction h with
  | nil => cases ht
  | @invoke seq pend u k _ hk _ ih =>
    rw [List.mem_append, List.mem_singleton] at ht
    obtain ht | ht := ht
    · obtain ⟨r, hr⟩ | hpend := ih ht
      · exact .inl ⟨r, List.mem_append_left _ hr⟩
      · have hne : i ≠ k := by
          rintro rfl
          cases hk.symm.trans hpend
        exact .inr (Function.update_of_ne hne _ _ ▸ hpend)
    · cases ht
      exact .inr (Function.update_self ..)
  | @response seq pend u k r _ hk ih =>
    rw [List.mem_append, List.mem_singleton] at ht
    obtain ht | ht := ht
    · obtain ⟨r', hr⟩ | hpend := ih ht
      · exact .inl ⟨r', List.mem_append_left _ hr⟩
      by_cases hne : i = k
      · subst hne
        obtain rfl := Option.some.inj (hk.symm.trans hpend)
        exact .inl ⟨r, List.mem_append_right _ List.mem_cons_self⟩
      · exact .inr (Function.update_of_ne hne _ _ ▸ hpend)
    · cases ht

theorem mem_starts_of_mem_finishes {id : ℕ} (hid : id ∈ finishes seq) :
    id ∈ ordinaryRecorder.starts seq := by
  induction h with
  | nil => cases hid
  | @invoke seq pend u k _ _ _ ih =>
    rw [finishes_invoke] at hid
    rw [starts_invoke]
    exact List.mem_append_left _ (ih hid)
  | @response seq pend u k r h hk ih =>
    rw [finishes_response, List.mem_append, List.mem_singleton] at hid
    rw [starts_response]
    obtain hid | rfl := hid
    · exact ih hid
    · exact mem_starts (h.mem_of_pend hk)

/-- An operation that is not finished has no response. -/
theorem not_mem_finishes (hi : pend i = some t) : t.id ∉ finishes seq := by
  induction h with
  | nil => cases hi
  | @invoke seq pend u k h _ hfresh ih =>
    rw [finishes_invoke]
    by_cases hk : i = k
    · subst hk
      rw [Function.update_self] at hi
      obtain rfl := Option.some.inj hi
      exact fun hmem => hfresh (h.mem_starts_of_mem_finishes hmem)
    · rw [Function.update_of_ne hk] at hi
      exact ih hi
  | @response seq pend u k r h hk ih =>
    by_cases hki : i = k
    · subst hki
      rw [Function.update_self] at hi
      cases hi
    rw [Function.update_of_ne hki] at hi
    rw [finishes_response, List.mem_append, List.mem_singleton]
    rintro (hmem | hid)
    · exact ih hi hmem
    · exact hki (h.pend_injective hi hk hid)

theorem invoked_once : (ordinaryRecorder.starts seq).Nodup := by
  induction h with
  | nil => exact List.nodup_nil
  | @invoke seq pend u k _ _ hfresh ih =>
    rw [starts_invoke]
    exact List.nodup_append.mpr ⟨ih, List.nodup_singleton _, fun a ha b hb hab =>
      hfresh (List.mem_singleton.mp hb ▸ hab ▸ ha)⟩
  | response _ _ _ ih =>
    rw [starts_response]
    exact ih

theorem answered_once : (finishes seq).Nodup := by
  induction h with
  | nil => exact List.nodup_nil
  | invoke _ _ _ ih =>
    rw [finishes_invoke]
    exact ih
  | @response seq pend u k r h hk ih =>
    rw [finishes_response]
    exact List.nodup_append.mpr ⟨ih, List.nodup_singleton _, fun a ha b hb hab =>
      h.not_mem_finishes hk (List.mem_singleton.mp hb ▸ hab ▸ ha)⟩

/-- The beginnings of such a history are such histories. -/
theorem of_prefix {l : List (HistoryEvent P)} (hl : l <+: seq) : ∃ pend', Threaded l pend' := by
  induction h with
  | nil =>
    obtain rfl := List.prefix_nil.mp hl
    exact ⟨_, .nil⟩
  | invoke h hi ht ih =>
    obtain rfl | hl := List.prefix_concat_iff.mp hl
    · exact ⟨_, h.invoke hi ht⟩
    · exact ih hl
  | response r h hi ih =>
    obtain rfl | hl := List.prefix_concat_iff.mp hl
    · exact ⟨_, h.response r hi⟩
    · exact ih hl

end

/-- The last event of a history of this kind. -/
theorem concat_cases {e : HistoryEvent P} (h : Threaded (seq ++ [e]) pend) :
    ∃ pend', Threaded seq pend' ∧
      ((∃ t i, e = .invoke t i ∧ pend' i = none) ∨
        ∃ t r i, e = .response t r i ∧ pend' i = some t) := by
  generalize hl : seq ++ [e] = l at h
  cases h with
  | nil => exact absurd hl (by simp)
  | invoke h hi ht =>
    obtain ⟨rfl, rfl⟩ : _ ∧ e = _ := by simpa using hl
    exact ⟨_, h, .inl ⟨_, _, rfl, hi⟩⟩
  | response r h hi =>
    obtain ⟨rfl, rfl⟩ : _ ∧ e = _ := by simpa using hl
    exact ⟨_, h, .inr ⟨_, _, _, rfl, hi⟩⟩

/-- **Histories of threads are well-formed.** -/
theorem wellFormed (h : Threaded seq pend) : WellFormedExecution seq where
  invoked_once := h.invoked_once
  answered_once := h.answered_once
  answered_after l l' t r i hseq := by
    obtain ⟨pend', h'⟩ := h.of_prefix (l := l ++ [HistoryEvent.response t r i]) ⟨l', by simp [hseq]⟩
    obtain ⟨pend', h', ⟨t', i', he, -⟩ | ⟨t', r', i', he, hi'⟩⟩ := h'.concat_cases
    · cases he
    · cases he
      exact h'.mem_of_pend hi'
  one_unanswered i t t' ht ht' hfin hfin' := by
    have hpend (t : TaskInfo P) (ht : .invoke t i ∈ seq) (hfin : t.id ∉ finishes seq) :
        pend i = some t := by
      obtain ⟨r, hr⟩ | hpend := h.answered_or_pend ht
      · have hmem : t.id ∈ finishes seq := List.mem_filterMap.mpr ⟨_, hr, rfl⟩
        exact absurd hmem hfin
      · exact hpend
    exact Option.some.inj ((hpend t ht hfin).symm.trans (hpend t' ht' hfin'))
  invoked_after l l' t t' i hseq ht' := by
    obtain ⟨pend', h'⟩ := h.of_prefix (l := l ++ [HistoryEvent.invoke t i]) ⟨l', by simp [hseq]⟩
    obtain ⟨pend', h', ⟨t₁, i₁, he, hi⟩ | ⟨t₁, r₁, i₁, he, -⟩⟩ := h'.concat_cases
    · cases he
      obtain hr | hpend := h'.answered_or_pend ht'
      · exact hr
      · cases hi.symm.trans hpend
    · cases he

theorem respond (h : Threaded seq pend) (hi : pend i = some t) (returned : Bool)
    (r : Option P.Val) :
    Threaded (seq ++ if returned then [HistoryEvent.response t r i] else [])
      (Function.update pend i (if returned then none else some t)) := by
  cases returned with
  | true => exact h.response r hi
  | false =>
    have hsame : Function.update pend i (some t) = pend := Function.update_eq_self_iff.mpr hi.symm
    simpa [hsame] using h

end Threaded

/-! ### The pending tasks of a round -/

/-- The last task of a thread, if it has not returned. -/
def World.pendingTask (w : World P ν) (i : ℕ) : Option (TaskInfo P) :=
  (w.back? i).bind fun t => if t.returned then none else some t.toTaskInfo

namespace World

variable {w : World P ν} {i j : ℕ}

theorem back?_eq_task? : w.back? i = w.task? i (Grid.rowLength w.threads i - 1) :=
  Grid.back?_eq_get?

theorem pendingTask_of_isFree (h : w.isFree i = true) : w.pendingTask i = none := by
  unfold pendingTask
  cases hback : w.back? i with
  | none => rfl
  | some t =>
    have hret : t.returned = true := by simpa [isFree, hback] using h
    simp [hret]

theorem pendingTask_of_last {t : Task P} (ht : w.task? i (Grid.rowLength w.threads i - 1) = some t)
    (hret : t.returned = false) : w.pendingTask i = some t.toTaskInfo := by
  rw [pendingTask, back?_eq_task?, ht, Option.bind_some, hret, if_neg Bool.false_ne_true]

theorem pendingTask_congr {w' : World P ν} {f : ℕ → ℕ → Task P → Task P}
    (hf : ∀ i j t, (f i j t).toTaskInfo = t.toTaskInfo ∧ (f i j t).returned = t.returned)
    (hrow : Grid.rowLength w'.threads i = Grid.rowLength w.threads i)
    (htask : ∀ j, w'.task? i j = (w.task? i j).map (f i j)) :
    w'.pendingTask i = w.pendingTask i := by
  rw [pendingTask, pendingTask, back?_eq_task?, back?_eq_task?, htask, hrow]
  cases w.task? i (Grid.rowLength w.threads i - 1) with
  | none => rfl
  | some t =>
    obtain ⟨hinfo, hret⟩ := hf i (Grid.rowLength w.threads i - 1) t
    rw [Option.map_some, Option.bind_some, Option.bind_some, hinfo, hret]

theorem pendingTask_clear (w : World P ν) (i j : ℕ) :
    (w.modifyTask i j Task.clearWakeupCondition).pendingTask = w.pendingTask := by
  funext i'
  refine pendingTask_congr
    (f := fun i' j' t => if i' = i ∧ j' = j then t.clearWakeupCondition else t)
    (fun i' j' t => ?_) (Grid.rowLength_modify _) fun j' => ?_
  · split <;> exact ⟨rfl, rfl⟩
  · by_cases hij : i' = i ∧ j' = j
    · obtain ⟨rfl, rfl⟩ := hij
      simp
    · simp [task?_modifyTask_of_ne _ hij, hij]

theorem pendingTask_build (hi : i < w.threads.length) (b : TaskBuilder P) :
    (w.build i b).pendingTask =
      Function.update w.pendingTask i (some (w.built i b).toTaskInfo) := by
  funext i'
  by_cases hii : i' = i
  · subst hii
    rw [Function.update_self]
    refine pendingTask_of_last (t := w.built i' b) ?_ rfl
    show Grid.get? (Grid.push w.threads i' _) i' (Grid.rowLength (Grid.push _ _ _) i' - 1) = _
    rw [Grid.rowLength_push_self hi]
    exact Grid.get?_push_self hi
  · rw [Function.update_of_ne hii]
    have hrow : (w.build i b).threads[i']? = w.threads[i']? := by
      simp [build, Grid.push, List.getElem?_modify_ne _ _ (Ne.symm hii)]
    rw [pendingTask, pendingTask, back?, back?, Grid.back?, Grid.back?, hrow]

end World

theorem Trace.after_pendingTask {R : Recorder P E} {V : Verifier P ν} {i : ℕ}
    {isNew : Bool} {t : Task P} {tr : Trace P ν E}
    (ht : tr.world.task? i (Grid.rowLength tr.world.threads i - 1) = some t) :
    (tr.after R V i (Grid.rowLength tr.world.threads i - 1) isNew t).world.pendingTask =
      Function.update tr.world.pendingTask i
        (if (tr.world.stepOf i t).1.ret.isSome then none else some t.toTaskInfo) := by
  have hrow (i' : ℕ) : Grid.rowLength
      (tr.after R V i (Grid.rowLength tr.world.threads i - 1) isNew t).world.threads i' =
        Grid.rowLength tr.world.threads i' := by
    have hinfos : (tr.after R V i (Grid.rowLength tr.world.threads i - 1) isNew t).world.infos =
      tr.world.infos := after_infos
    have hinfos := congrArg (Grid.rowLength · i') hinfos
    simpa only [World.infos, Grid.rowLength_map] using hinfos
  funext i'
  by_cases hii : i' = i
  · subst hii
    rw [Function.update_self, World.pendingTask, World.back?_eq_task?, hrow, after_task?_self ht,
      Option.bind_some, R.drainTask_returned, R.drainTask_toTaskInfo]
    rfl
  · rw [Function.update_of_ne hii]
    refine World.pendingTask_congr (f := fun _ _ => R.drainTask)
      (fun _ _ t => ⟨R.drainTask_toTaskInfo t, R.drainTask_returned t⟩) (hrow i') fun j' => ?_
    exact after_task?_of_ne fun h => hii h.1

/-! ### Rounds -/

section

variable {V : Verifier P ν}

/-- The history is one of threads, and the operations that are not finished are the pending
tasks. -/
structure Ordered (tr : Trace P ν (HistoryEvent P)) : Prop where
  counted : Counted ordinaryRecorder tr
  threaded : Threaded tr.seq tr.world.pendingTask

namespace Ordered

variable {tr : Trace P ν (HistoryEvent P)} {i : ℕ} {tr' : Trace P ν (HistoryEvent P)}

theorem of_empty {w : World P ν} (hw : w.Fresh) : Ordered ⟨w, [], []⟩ where
  counted := Counted.of_empty hw.threads hw.removed
  threaded := by
    have hpending : w.pendingTask = fun _ => none := by
      funext i
      rw [World.pendingTask, World.back?_eq_task?, hw.task?_eq_none, Option.bind_none]
    rw [hpending]
    exact .nil

/-- The events of a step of the last task of a thread, after its start event. -/
theorem threaded_after {j : ℕ} {isNew : Bool} {t : Task P}
    (hj : j = Grid.rowLength tr.world.threads i - 1)
    (h : Threaded (tr.seq ++ if isNew then [HistoryEvent.invoke t.toTaskInfo i] else [])
      tr.world.pendingTask) (ht : tr.world.task? i j = some t) (hret : t.returned = false) :
    Threaded (tr.after ordinaryRecorder V i j isNew t).seq
      (tr.after ordinaryRecorder V i j isNew t).world.pendingTask := by
  subst hj
  rw [Trace.after_pendingTask ht, Trace.after_seq ht]
  have hrespond := h.respond (World.pendingTask_of_last ht hret)
    (tr.world.stepOf i t).1.ret.isSome ((tr.world.stepOf i t).1.ret.or t.ret)
  exact (List.append_nil (tr.seq ++ _)).symm ▸ hrespond

theorem resume (h : Ordered tr) {j : ℕ} (hj : j = Grid.rowLength tr.world.threads i - 1)
    (htr : (StrategyScheduler.prepare i j tr).perform ordinaryRecorder V i j false = some tr') :
    Ordered tr' := by
  have hcounted : Counted ordinaryRecorder (StrategyScheduler.prepare i j tr) :=
    h.counted.congr rfl (StrategyScheduler.preparation.infos i j tr) rfl rfl
  obtain ⟨t, ht, hret, rfl⟩ := Trace.perform_cases htr
  refine ⟨hcounted.perform htr, threaded_after ?_ ?_ ht hret⟩
  · exact hj.trans (congrArg (· - 1) (Grid.rowLength_modify _).symm)
  · rw [if_neg Bool.false_ne_true, List.append_nil]
    exact (World.pendingTask_clear tr.world i j).symm ▸ h.threaded

theorem start (h : Ordered tr) {j : ℕ} {b : TaskBuilder P} (hfree : tr.world.isFree i = true)
    (hi : i < tr.world.threads.length) (hj : j = Grid.rowLength tr.world.threads i)
    (htr : (StrategyScheduler.prepare i j (tr.mapWorld (World.build i b))).perform
      ordinaryRecorder V i j true = some tr') : Ordered tr' := by
  have hseq : (StrategyScheduler.prepare i j (tr.mapWorld (World.build i b))).seq = tr.seq := rfl
  have hcounted := (h.counted.start hj hseq
    (StrategyScheduler.preparation.infos i j (tr.mapWorld (World.build i b))) rfl rfl htr).1
  obtain ⟨t, ht, hret, rfl⟩ := Trace.perform_cases htr
  refine ⟨hcounted, threaded_after ?_ ?_ ht hret⟩
  · show j = Grid.rowLength (Grid.modify (Grid.push tr.world.threads i _) i j _) i - 1
    rw [Grid.rowLength_modify, Grid.rowLength_push_self hi, hj, Nat.add_sub_cancel]
  · have hbuilt : t.toTaskInfo = (tr.world.built i b).toTaskInfo := by
      have htask : ((tr.world.build i b).modifyTask i j Task.clearWakeupCondition).task? i j =
          some (tr.world.built i b).clearWakeupCondition := by
        rw [World.task?_modifyTask_self, hj]
        exact congrArg (Option.map _) (Grid.get?_push_self hi)
      exact congrArg Task.toTaskInfo (Option.some.inj (ht.symm.trans htask))
    have hfresh : (tr.world.built i b).toTaskInfo.id ∉ ordinaryRecorder.starts tr.seq :=
      fun hmem => Nat.lt_irrefl _ (h.counted.lt _ hmem)
    have hinvoke := h.threaded.invoke (World.pendingTask_of_isFree hfree) hfresh
    rw [if_pos rfl, hbuilt]
    rw [← World.pendingTask_build hi, ← World.pendingTask_clear _ i j] at hinvoke
    exact hinvoke

end Ordered

/-- The history is one of threads; its operations are the tasks of the round, unless the round was
stopped by the assertion. -/
structure RoundOrdered (r : Round P ν ρ (HistoryEvent P)) : Prop where
  threaded : ∃ pend, Threaded r.trace.seq pend
  ordered : r.status = .aborted ∨ Ordered r.trace

namespace RoundOrdered

theorem of_ordered {r : Round P ν ρ (HistoryEvent P)} (h : Ordered r.trace) : RoundOrdered r :=
  ⟨⟨_, h.threaded⟩, .inr h⟩

/-- The part of an iteration after the call of `Next`, if a task is started only on a free thread,
and only the last task of a thread is resumed. -/
theorem follows {S : Strategy V ρ} {r r' : Round P ν ρ (HistoryEvent P)} {n : Next P}
    (h : Ordered r.trace) (hr' : r.Follows ordinaryRecorder S StrategyScheduler.prepare n r')
    (hreplay : n ≠ .failure .needReplay)
    (hstart : ∀ i b, n = .start i b → i < r.trace.world.threads.length ∧
      r.trace.world.isFree i = true)
    (hresume : ∀ i j, n = .resume i j → j = Grid.rowLength r.trace.world.threads i - 1) :
    RoundOrdered r' := by
  cases hr' with
  | deadlock => exact of_ordered h
  | needReplay => exact absurd rfl hreplay
  | exhausted => exact of_ordered h
  | aborted habort hseq => exact ⟨⟨_, hseq ▸ h.threaded⟩, .inl habort⟩
  | start hj htr =>
    obtain ⟨hi, hfree⟩ := hstart _ _ rfl
    exact of_ordered (h.start hfree hi hj htr)
  | resume htr => exact of_ordered (h.resume (hresume _ _ rfl) htr)

variable {K : Picker V γ ρ} {maxTasks : ℕ} {r r' : Round P ν (Base P γ ρ) (HistoryEvent P)}

/-- **An iteration appends events in order**, whichever thread is picked. -/
theorem iterates (h : RoundOrdered r)
    (hr' : r.Iterates ordinaryRecorder K.toStrategy StrategyScheduler.prepare maxTasks r') :
    RoundOrdered r' := by
  have hlimit (hrunning : r.status = .running) : Ordered (r.limit maxTasks).trace := by
    obtain habort | hordered := h.ordered
    · cases hrunning.symm.trans habort
    · unfold Round.limit
      split
      · exact hordered
      · exact ⟨hordered.counted.congr rfl rfl rfl rfl, hordered.threaded⟩
  cases hr' with
  | idle => exact h
  | ended hrunning hover => exact of_ordered (hlimit hrunning)
  | @follows n v s _ hrunning hover hnext hfollows =>
    have hasked : Ordered ((r.limit maxTasks).asked v s).trace :=
      ⟨(hlimit hrunning).counted.congr rfl rfl rfl rfl, (hlimit hrunning).threaded⟩
    obtain ⟨-, rfl⟩ | ⟨i, -, hi, ⟨-, -, rfl⟩ | ⟨hfree, b, rfl⟩ | ⟨-, rfl⟩⟩ :=
      Picker.next_cases hnext
    · exact follows hasked hfollows nofun nofun nofun
    · exact follows hasked hfollows nofun nofun nofun
    · refine follows hasked hfollows nofun (fun i' b' hn => ?_) nofun
      cases hn
      exact ⟨hi, hfree⟩
    · refine follows hasked hfollows nofun nofun fun i' j' hn => ?_
      cases hn
      rfl

theorem run {w : World P ν} (hw : w.Fresh) (s : Base P γ ρ) (n : ℕ) :
    RoundOrdered (StrategyScheduler.run K.toStrategy maxTasks w s n) := by
  induction n with
  | zero => exact of_ordered (.of_empty ⟨hw.threads, hw.removed⟩)
  | succ n ih =>
    rw [StrategyScheduler.run, Function.iterate_succ_apply']
    exact ih.iterates (StrategyScheduler.step_cases maxTasks _)

theorem wellFormed (h : RoundOrdered r) {l : List (HistoryEvent P)} (hl : l <+: r.trace.seq) :
    WellFormedExecution l := by
  obtain ⟨pend, hthreaded⟩ := h.threaded
  obtain ⟨pend', hthreaded'⟩ := hthreaded.of_prefix hl
  exact hthreaded'.wellFormed

end RoundOrdered

/-- **Generated histories are well-formed executions**, at every moment of a round, for round-robin,
random and PCT. -/
theorem generated_histories_wellFormed (V : Verifier P ν) (G : Rng γ) (onlyOne : Bool)
    (maxTasks : ℕ) (w : World P ν) (hw : w.Fresh) (n : ℕ) (l : List (HistoryEvent P)) :
    (∀ s, l <+: (StrategyScheduler.run (roundRobinStrategy V G onlyOne).toStrategy maxTasks w s
        n).trace.seq → WellFormedExecution l) ∧
      (∀ s, l <+: (StrategyScheduler.run (randomStrategy V G onlyOne).toStrategy maxTasks w s
        n).trace.seq → WellFormedExecution l) ∧
      (∀ s, l <+: (StrategyScheduler.run (pctStrategy V G onlyOne).toStrategy maxTasks w s
        n).trace.seq → WellFormedExecution l) :=
  ⟨fun s => (RoundOrdered.run hw s n).wellFormed, fun s => (RoundOrdered.run hw s n).wellFormed,
    fun s => (RoundOrdered.run hw s n).wellFormed⟩

end

/-- The first iterations of a round with two tasks on two threads, with round-robin. -/
abbrev instantRound (n : ℕ) :=
  StrategyScheduler.run (P := instantProgram)
    (roundRobinStrategy (defaultStrategyTaskVerifier (ν := Unit)) .first false).toStrategy 2
    (World.new 2 () () ()) ⟨[instantBuilder], (), [], 0⟩ n

theorem generated_history_two :
    (instantRound 3).trace.seq.length = 4 ∧ WellFormedExecution (instantRound 3).trace.seq := by
  constructor
  · decide
  · have h := generated_histories_wellFormed (P := instantProgram)
      (defaultStrategyTaskVerifier (ν := Unit)) .first false 2 (World.new 2 () () ())
      (World.fresh_new 2 _ _ _) 3 (instantRound 3).trace.seq
    exact h.1 ⟨[instantBuilder], (), [], 0⟩ (List.prefix_refl _)

end Scheduler

end LTest
