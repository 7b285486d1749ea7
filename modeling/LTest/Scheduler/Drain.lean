import LTest.Scheduler.Alike

/-!
# Dual events of a step

Dual events are drained from all tasks after each resume, so that before a resume there are none.
Then the events that are drained are those of the task that was resumed, in the order in which it
emitted them.

## Main definitions

* `World.Quiet` — there is nothing to drain
* `Recorder.Emits` — what a scheduler records of the events that a task emits

## Main results

* `ordinaryRecorder_emits`, `dualRecorder_emits` — what the two schedulers record
-/

namespace LTest

namespace Scheduler

variable {P : Program} {ν E : Type}

/-! ### Lists with one entry that counts -/

variable {t : Task P}

/-- If all entries but one contribute nothing, the list contributes what this one does. -/
theorem flatMap_eq_of_getElem? {α β : Type} {l : List α} {f : α → List β} {j : ℕ} {a : α}
    (ha : l[j]? = some a) (h : ∀ j' a', j' ≠ j → l[j']? = some a' → f a' = []) :
    l.flatMap f = f a := by
  induction l generalizing j with
  | nil => cases ha
  | cons b l ih =>
    rw [List.flatMap_cons]
    cases j with
    | zero =>
      obtain rfl : b = a := by simpa using ha
      have hrest : l.flatMap f = [] := by
        refine List.flatMap_eq_nil_iff.mpr fun a' ha' => ?_
        obtain ⟨j', hj'⟩ := List.mem_iff_getElem?.mp ha'
        exact h (j' + 1) a' (Nat.succ_ne_zero j') (by simpa using hj')
      rw [hrest, List.append_nil]
    | succ j =>
      have hb : f b = [] := h 0 b (Nat.succ_ne_zero j).symm rfl
      rw [hb, List.nil_append]
      refine ih (by simpa using ha) fun j' a' hne ha' => ?_
      exact h (j' + 1) a' (fun heq => hne (Nat.succ.inj heq)) (by simpa using ha')

theorem collectDrainedDualEvents_eq {threads : List (List (Task P))} {i j : ℕ}
    (ht : Grid.get? threads i j = some t)
    (h : ∀ i' j' t', ¬ (i' = i ∧ j' = j) → Grid.get? threads i' j' = some t' → t'.records i' = []) :
    collectDrainedDualEvents threads = t.records i := by
  obtain ⟨row, hrow, hj⟩ := Option.bind_eq_some_iff.mp ht
  have hzip : threads.zipIdx[i]? = some (row, i) := by simp [hrow]
  rw [collectDrainedDualEvents, flatMap_eq_of_getElem? hzip]
  · refine flatMap_eq_of_getElem? hj fun j' t' hne ht' => ?_
    exact h i j' t' (fun hij => hne hij.2) ((Grid.get?_eq_of_row hrow).trans ht')
  · intro i' row' hne hrow'
    have hrow'' : threads[i']? = some row'.1 ∧ row'.2 = i' := by
      rw [List.getElem?_zipIdx, Option.map_eq_some_iff] at hrow'
      obtain ⟨ts, hts, rfl⟩ := hrow'
      exact ⟨hts, Nat.zero_add i'⟩
    refine List.flatMap_eq_nil_iff.mpr fun t' ht' => ?_
    obtain ⟨j', hj'⟩ := List.mem_iff_getElem?.mp ht'
    rw [hrow''.2]
    exact h i' j' t' (fun hij => hne hij.1) ((Grid.get?_eq_of_row hrow''.1).trans hj')

/-! ### The numbers of dual events -/

theorem le_seqno_of_mem_number {n : ℕ} {l : List (DualEventKind × Option P.Val)} {e : DualEvent P}
    (he : e ∈ number n l) : n ≤ e.seqno := by
  induction l generalizing n with
  | nil => cases he
  | cons a l ih =>
    cases he with
    | head => exact Nat.le_refl n
    | tail _ he => exact Nat.le_of_succ_le (ih he)

/-- Events are numbered in the order in which they are emitted. -/
theorem number_sorted (n : ℕ) (l : List (DualEventKind × Option P.Val)) :
    (number (P := P) n l).Pairwise fun e e' => e.seqno ≤ e'.seqno := by
  induction l generalizing n with
  | nil => exact .nil
  | cons a l ih =>
    exact .cons (fun e he => Nat.le_of_succ_le (le_seqno_of_mem_number he)) (ih (n + 1))

/-- The event that is recorded when a task emits one. -/
def emittedEvent (t : TaskInfo P) (i : ℕ) (e : DualEventKind × Option P.Val) : DualHistoryEvent P :=
  match e.1 with
  | .requestResponse => .requestResponse t i
  | .followUpInvoke => .followUpInvoke t i
  | .followUpResponse => .followUpResponse t e.2 i

theorem map_toEvent_number (t : TaskInfo P) (i n : ℕ) (l : List (DualEventKind × Option P.Val)) :
    (number n l).map (fun e => DualEventRecord.toEvent ⟨t, i, e⟩) = l.map (emittedEvent t i) := by
  induction l generalizing n with
  | nil => rfl
  | cons a l ih =>
    rw [number, List.map_cons, List.map_cons, ih]
    rfl

/-! ### Draining after a step -/

/-- There is nothing to drain. -/
def World.Quiet (R : Recorder P E) (w : World P ν) : Prop :=
  ∀ i j t, w.task? i j = some t → R.drainTask t = t

/-- If there was nothing to drain before a step, what is drained after it is `emit` of the events
that the task emitted. Draining looks at pending events of dual tasks only, and a response at what
is seen of a task. -/
structure Recorder.Emits (R : Recorder P E)
    (emit : TaskInfo P → ℕ → List (DualEventKind × Option P.Val) → List E) : Prop where
  drainTask_idem : ∀ t, R.drainTask (R.drainTask t) = R.drainTask t
  drainTask_of_nil : ∀ t, t.pending = [] → R.drainTask t = t
  drainTask_congr : ∀ t t' : Task P, t.isDual = t'.isDual → t.pending = t'.pending →
    R.drainTask t = t → R.drainTask t' = t'
  drainEvents : ∀ {ν : Type} (w : World P ν) (i j : ℕ) (t : Task P), w.Quiet R →
    w.task? i j = some t →
      R.drainEvents (w.stepTask i j t).threads = emit t.toTaskInfo i (w.stepOf i t).1.emitted
  drainEvents_nil : ∀ {ν : Type} (w : World P ν), w.Quiet R → R.drainEvents w.threads = []
  response_congr : ∀ (t t' : Task P) (i : ℕ), t.core = t'.core → R.response t i = R.response t' i

theorem Recorder.Emits.quiet_after {R : Recorder P E}
    {emit : TaskInfo P → ℕ → List (DualEventKind × Option P.Val) → List E} (hR : R.Emits emit)
    {V : Verifier P ν} {i j : ℕ} {isNew : Bool} {tr : Trace P ν E} :
    (tr.after R V i j isNew t).world.Quiet R := by
  intro i' j' u hu
  rw [Trace.after_world, World.task?_reportFinish, World.task?_mapTasks,
    Option.map_eq_some_iff] at hu
  obtain ⟨u, -, rfl⟩ := hu
  exact hR.drainTask_idem u

theorem ordinaryRecorder_emits : (ordinaryRecorder (P := P)).Emits fun _ _ _ => [] where
  drainTask_idem _ := rfl
  drainTask_of_nil _ _ := rfl
  drainTask_congr _ _ _ _ _ := rfl
  drainEvents _ _ _ _ _ _ := rfl
  drainEvents_nil _ _ := rfl
  response_congr t t' i h := by
    show [HistoryEvent.response t.toTaskInfo t.ret i] = [.response t'.toTaskInfo t'.ret i]
    rw [Task.core_toTaskInfo h, Task.core_ret h]

/-- Nothing is drained from a task if it is not dual or has no pending events. -/
theorem dualRecorder_drainTask_iff :
    dualRecorder.drainTask t = t ↔ (t.isDual = true → t.pending = []) := by
  show (if t.isDual = true then t.drained else t) = t ↔ _
  split
  · rename_i hdual
    constructor
    · intro h _
      rw [← h]
      rfl
    · intro h
      rw [Task.drained, ← h hdual]
  · rename_i hdual
    exact ⟨fun _ h => absurd h hdual, fun _ => rfl⟩

theorem Task.records_of_quiet (h : dualRecorder.drainTask t = t) (i : ℕ) : t.records i = [] := by
  unfold records
  split
  · rename_i hdual
    rw [dualRecorder_drainTask_iff.mp h hdual, List.map_nil]
  · rfl

theorem dualRecorder_drainEvents {w : World P ν} {i j : ℕ} (hw : w.Quiet dualRecorder)
    (ht : w.task? i j = some t) :
    dualRecorder.drainEvents (w.stepTask i j t).threads =
      if t.isDual then (w.stepOf i t).1.emitted.map (emittedEvent t.toTaskInfo i) else [] := by
  have hcollect := collectDrainedDualEvents_eq (World.task?_stepTask_self ht)
    fun i' j' t' hne ht' => by
      rw [← World.task?, World.task?_stepTask_of_ne t hne] at ht'
      exact Task.records_of_quiet (hw i' j' t' ht') i'
  show drainedDualEvents _ = _
  rw [drainedDualEvents, hcollect, Task.records]
  show List.map _ (List.insertionSort _ (if t.isDual then _ else [])) = _
  split
  · rename_i hdual
    have hevents : (t.stepped (w.stepOf i t).1 w.seqno).pending =
        number w.seqno (w.stepOf i t).1.emitted := by
      rw [Task.stepped, dualRecorder_drainTask_iff.mp (hw i j t ht) hdual, List.nil_append]
    rw [hevents, List.Pairwise.insertionSort_eq, List.map_map]
    · exact map_toEvent_number t.toTaskInfo i _ _
    · exact List.pairwise_map.mpr (number_sorted _ _)
  · rfl

theorem dualRecorder_emits :
    (dualRecorder (P := P)).Emits fun t i emitted =>
      if t.isDual then emitted.map (emittedEvent t i) else [] where
  drainTask_idem t := by
    refine dualRecorder_drainTask_iff.mpr ?_
    show (if t.isDual = true then t.drained else t).isDual = true →
      (if t.isDual = true then t.drained else t).pending = []
    split
    · exact fun _ => rfl
    · rename_i hdual
      exact fun h => absurd h hdual
  drainTask_of_nil t h := dualRecorder_drainTask_iff.mpr fun _ => h
  drainTask_congr t t' hdual hpending h := by
    rw [dualRecorder_drainTask_iff, hdual, hpending] at h
    exact dualRecorder_drainTask_iff.mpr h
  drainEvents w i j t hw ht := dualRecorder_drainEvents hw ht
  drainEvents_nil w hw := by
    have hnil : collectDrainedDualEvents w.threads = [] := by
      refine List.flatMap_eq_nil_iff.mpr fun row hrow => List.flatMap_eq_nil_iff.mpr fun t ht => ?_
      obtain ⟨j, hj⟩ := List.mem_iff_getElem?.mp ht
      have ht : w.task? row.2 j = some t :=
        (Grid.get?_eq_of_row (List.mem_zipIdx_iff_getElem?.mp hrow)).trans hj
      exact Task.records_of_quiet (hw row.2 j t ht) row.2
    show drainedDualEvents _ = _
    rw [drainedDualEvents, hnil]
    rfl
  response_congr t t' i h := by
    have hinfo := Task.core_toTaskInfo h
    simp only [dualRecorder, hinfo, Task.core_ret h]

end Scheduler

end LTest
