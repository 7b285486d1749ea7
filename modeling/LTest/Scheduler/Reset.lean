import LTest.Scheduler.Completion
import LTest.Scheduler.Drain

/-!
# Rounds that are reset

Tasks are found by their ids, which differ in every round that is generated. When a round is reset,
the tasks that are not removed are restarted; what a reset makes of a round is not changed by steps
of its tasks.

## Main definitions

* `World.Numbered`, `World.Serial` — tasks have different ids
* `World.cleared` — the tasks after a reset
* `World.Resets` — what steps keep of a round that was reset

## Main results

* `World.Numbered.getTask` — a task is found by its id
* `World.Serial.build` — a new task has an id of its own
* `World.Resets.alike` — two resets give rounds that are alike
-/

namespace LTest

namespace Scheduler

variable {P : Program} {ν E : Type}

/-! ### Tasks by their ids -/

/-- The tasks of the round have different ids. -/
def World.Numbered (w : World P ν) : Prop :=
  ∀ i j i' j' t t', w.task? i j = some t → w.task? i' j' = some t' → t.id = t'.id →
    i = i' ∧ j = j'

namespace World

variable {w w' : World P ν} {i j : ℕ} {t : Task P}

theorem getTask_eq_some {id : ℕ} (h : w.getTask id = some (i, j)) :
    ∃ t, w.task? i j = some t ∧ t.id = id := by
  obtain ⟨row, hrow, hfind⟩ := List.exists_of_findSome?_eq_some h
  obtain ⟨j', hj', heq⟩ := Option.map_eq_some_iff.mp hfind
  obtain ⟨rfl, rfl⟩ := Prod.mk.inj heq
  obtain ⟨hlt, hid, -⟩ := List.findIdx?_eq_some_iff_getElem.mp hj'
  refine ⟨row.1[j'], ?_, by simpa using hid⟩
  exact (Grid.get?_eq_of_row (List.mem_zipIdx_iff_getElem?.mp hrow)).trans
    (List.getElem?_eq_getElem hlt)

theorem getTask_isSome (ht : w.task? i j = some t) : ∃ ij, w.getTask t.id = some ij := by
  obtain ⟨row, hrow, hj⟩ := Option.bind_eq_some_iff.mp ht
  rw [← Option.isSome_iff_exists, getTask, List.findSome?_isSome_iff]
  refine ⟨(row, i), List.mem_zipIdx_iff_getElem?.mpr hrow, ?_⟩
  rw [Option.isSome_map, List.findIdx?_isSome, List.any_eq_true]
  exact ⟨t, List.mem_of_getElem? hj, beq_self_eq_true _⟩

theorem Numbered.getTask (h : w.Numbered) (ht : w.task? i j = some t) :
    w.getTask t.id = some (i, j) := by
  obtain ⟨⟨i', j'⟩, hget⟩ := getTask_isSome ht
  obtain ⟨t', ht', hid⟩ := getTask_eq_some hget
  obtain ⟨rfl, rfl⟩ := h i' j' i j t' t ht' ht hid
  exact hget

theorem Numbered.congr (h : w.Numbered) (hinfos : w'.infos = w.infos) : w'.Numbered := by
  have hinfo (i j : ℕ) (t' : Task P) (ht' : w'.task? i j = some t') :
      ∃ t, w.task? i j = some t ∧ t.id = t'.id := by
    have hget : Grid.get? w.infos i j = some t'.toTaskInfo := by
      rw [← hinfos, infos_get?, ht', Option.map_some]
    rw [infos_get?, Option.map_eq_some_iff] at hget
    obtain ⟨t, ht, hinfo⟩ := hget
    exact ⟨t, ht, congrArg TaskInfo.id hinfo⟩
  intro i j i' j' t t' ht ht' hid
  obtain ⟨u, hu, hid₁⟩ := hinfo i j t ht
  obtain ⟨u', hu', hid₂⟩ := hinfo i' j' t' ht'
  exact h i j i' j' u u' hu hu' ((hid₁.trans hid).trans hid₂.symm)

theorem Alike.numbered (h : w.Alike w') (hw : w.Numbered) : w'.Numbered := by
  refine hw.congr ?_
  have hinfos (g : List (List (Task P))) :
      g.map (·.map Task.toTaskInfo) = (g.map (·.map Task.core)).map (·.map Task.toTaskInfo) := by
    simp only [List.map_map, Function.comp_def]
    rfl
  rw [infos, infos, hinfos, hinfos w.threads, h.threads]

end World

/-- The ids of the tasks of the round. -/
structure World.Serial (w : World P ν) : Prop where
  /-- They are different. -/
  numbered : w.Numbered
  /-- They are less than the next one. -/
  lt : ∀ i j t, w.task? i j = some t → t.id < w.newTaskId

namespace World.Serial

variable {w w' : World P ν}

theorem of_forall_nil (h : ∀ ts ∈ w.threads, ts = []) : w.Serial where
  numbered i j _ _ t _ ht := by rw [task?, Grid.get?_of_forall_nil h] at ht; cases ht
  lt i j t ht := by rw [task?, Grid.get?_of_forall_nil h] at ht; cases ht

theorem congr (h : w.Serial) (hinfos : w'.infos = w.infos) (hid : w'.newTaskId = w.newTaskId) :
    w'.Serial where
  numbered := h.numbered.congr hinfos
  lt i j t ht := by
    have hget : Grid.get? w.infos i j = some t.toTaskInfo := by
      rw [← hinfos, infos_get?, ht, Option.map_some]
    rw [infos_get?, Option.map_eq_some_iff] at hget
    obtain ⟨u, hu, hinfo⟩ := hget
    rw [hid, ← congrArg TaskInfo.id hinfo]
    exact h.lt i j u hu

theorem build (h : w.Serial) (i : ℕ) (b : TaskBuilder P) : (w.build i b).Serial where
  numbered i₁ j₁ i₂ j₂ t₁ t₂ ht₁ ht₂ hid := by
    have hnew : (w.built i b).id = w.newTaskId := rfl
    obtain ⟨rfl, rfl, rfl⟩ | hold₁ := Grid.get?_push_cases ht₁
    · obtain ⟨rfl, rfl, -⟩ | hold₂ := Grid.get?_push_cases ht₂
      · exact ⟨rfl, rfl⟩
      · exact absurd (hid.symm.trans hnew) (Nat.ne_of_lt (h.lt _ _ _ hold₂))
    · obtain ⟨rfl, rfl, rfl⟩ | hold₂ := Grid.get?_push_cases ht₂
      · exact absurd (hid.trans hnew) (Nat.ne_of_lt (h.lt _ _ _ hold₁))
      · exact h.numbered i₁ j₁ i₂ j₂ t₁ t₂ hold₁ hold₂ hid
  lt i' j' t ht := by
    obtain ⟨-, -, rfl⟩ | ht := Grid.get?_push_cases ht
    · exact Nat.lt_succ_self w.newTaskId
    · exact Nat.lt_succ_of_lt (h.lt i' j' t ht)

end World.Serial

/-! ### Resets -/

/-- The task after a reset of the round. -/
def Task.cleared (isRemoved : Bool) (t : Task P) : Task P :=
  (if isRemoved then t.stop else t.restart).core

theorem Recorder.cleared_drainTask (R : Recorder P E) (w : World P ν) (t : Task P) :
    (R.drainTask t).cleared (w.isTaskRemoved (R.drainTask t).id) =
      t.cleared (w.isTaskRemoved t.id) := by
  rw [R.drainTask_toTaskInfo]
  obtain ⟨pending, h⟩ := R.drainTask_eq t
  rw [h]
  cases w.isTaskRemoved t.id with
  | true =>
    simp only [Task.cleared, Task.stop, if_true]
    split <;> rfl
  | false => rfl

namespace World

variable {w w' : World P ν} {i j : ℕ} {t : Task P} (V : Verifier P ν)

/-- The tasks after a reset of the round. -/
def cleared (w : World P ν) : List (List (Task P)) :=
  w.threads.map (·.map fun t => t.cleared (w.isTaskRemoved t.id))

theorem resetCurrentRound_threads :
    (w.resetCurrentRound V).threads =
      w.threads.map (·.map fun t => if w.isTaskRemoved t.id then t.stop else t.restart) := by
  show ((w.threads.map (·.map Task.stop)).map (·.map fun t =>
    if w.isTaskRemoved t.id then t else t.restart)) = _
  rw [Grid.map_map]
  refine Grid.map_congr fun t => ?_
  simp only [Task.restart, Task.stop_toTaskInfo, Task.stop_func]

theorem resetCurrentRound_core :
    (w.resetCurrentRound V).threads.map (·.map Task.core) = w.cleared := by
  rw [resetCurrentRound_threads, Grid.map_map]
  rfl

theorem cleared_resetCurrentRound : (w.resetCurrentRound V).cleared = w.cleared := by
  rw [cleared, resetCurrentRound_threads, Grid.map_map]
  refine Grid.map_congr fun t => ?_
  show Task.cleared (w.isTaskRemoved _) _ = _
  cases hremoved : w.isTaskRemoved t.id with
  | true =>
    have hid : t.stop.id = t.id := congrArg TaskInfo.id t.stop_toTaskInfo
    have hstop : t.stop.stop = t.stop := by
      rw [Task.stop, if_pos t.stop_returned]
      rfl
    simp only [if_true, hid, hremoved, Task.cleared, hstop]
  | false =>
    have hid : t.restart.id = t.id := rfl
    simp only [Bool.false_eq_true, if_false, hid, hremoved, Task.cleared]
    rfl

theorem infos_resetCurrentRound : (w.resetCurrentRound V).infos = w.infos := by
  rw [infos, resetCurrentRound_threads, Grid.map_map]
  refine Grid.map_congr fun t => ?_
  split
  · exact t.stop_toTaskInfo
  · rfl

theorem quiet_resetCurrentRound {R : Recorder P E}
    {emit : TaskInfo P → ℕ → List (DualEventKind × Option P.Val) → List E} (hR : R.Emits emit) :
    (w.resetCurrentRound V).Quiet R := by
  intro i j t ht
  rw [task?, resetCurrentRound_threads, Grid.get?_map, Option.map_eq_some_iff] at ht
  obtain ⟨u, -, rfl⟩ := ht
  refine hR.drainTask_of_nil _ ?_
  split <;> rfl

/-- After a reset the removed tasks have returned, and the others have not. -/
theorem returned_resetCurrentRound (ht : (w.resetCurrentRound V).task? i j = some t) :
    t.returned = w.isTaskRemoved t.id := by
  rw [task?, resetCurrentRound_threads, Grid.get?_map, Option.map_eq_some_iff] at ht
  obtain ⟨u, -, rfl⟩ := ht
  cases hremoved : w.isTaskRemoved u.id with
  | true =>
    have hid : u.stop.id = u.id := congrArg TaskInfo.id u.stop_toTaskInfo
    rw [if_pos rfl, u.stop_returned, hid, hremoved]
  | false => exact hremoved.symm

end World

/-- What an exploration keeps of a round: what a reset makes of it. Tasks that are removed have
returned. -/
structure World.Resets (w w' : World P ν) : Prop where
  cleared : w'.cleared = w.cleared
  removed : w'.removed = w.removed
  newTaskId : w'.newTaskId = w.newTaskId
  threadsCount : w'.threadsCount = w.threadsCount
  returned : ∀ i j t, w'.task? i j = some t → t.id ∈ w'.removed → t.returned = true

namespace World.Resets

variable {w w' : World P ν} {i j : ℕ} {t : Task P} {V : Verifier P ν}

theorem reset (w : World P ν) : (w.resetCurrentRound V).Resets (w.resetCurrentRound V) where
  cleared := rfl
  removed := rfl
  newTaskId := rfl
  threadsCount := rfl
  returned _ _ _ ht hremoved := (returned_resetCurrentRound V ht).trans (decide_eq_true hremoved)

theorem setVerifier (h : w.Resets w') (v : ν) : w.Resets (w'.setVerifier v) :=
  ⟨h.cleared, h.removed, h.newTaskId, h.threadsCount, h.returned⟩

theorem after {R : Recorder P E} {tr : Trace P ν E} {isNew : Bool} (h : w.Resets tr.world)
    (ht : tr.world.task? i j = some t) (hret : t.returned = false) :
    w.Resets (tr.after R V i j isNew t).world := by
  have hremoved : tr.world.isTaskRemoved t.id = false := by
    refine decide_eq_false fun hmem => ?_
    cases (h.returned i j t ht hmem).symm.trans hret
  have hstepped : w.Resets ((tr.world.stepTask i j t).mapTasks R.drainTask) := by
    refine ⟨?_, h.removed, h.newTaskId, h.threadsCount, ?_⟩
    · refine Eq.trans ?_ h.cleared
      show ((Grid.modify tr.world.threads i j _).map (·.map R.drainTask)).map
        (·.map fun t => t.cleared (tr.world.isTaskRemoved t.id)) = tr.world.cleared
      rw [Grid.map_map, Grid.map_congr (R.cleared_drainTask tr.world)]
      refine Grid.map_modify_of_get? fun u hu => ?_
      obtain rfl : u = t := Option.some.inj (hu.symm.trans ht)
      show Task.cleared (tr.world.isTaskRemoved u.id) _ = _
      rw [hremoved]
      rfl
    · intro i' j' t' ht' hmem
      rw [World.task?_mapTasks, Option.map_eq_some_iff] at ht'
      obtain ⟨u, hu, rfl⟩ := ht'
      rw [R.drainTask_returned]
      rw [R.drainTask_toTaskInfo] at hmem
      obtain ⟨rfl, rfl, u', hu', rfl⟩ | ⟨-, hu⟩ := Grid.get?_modify_cases hu
      · obtain rfl : u' = t := Option.some.inj (hu'.symm.trans ht)
        exact absurd hmem (of_decide_eq_false hremoved)
      · exact h.returned i' j' u hu hmem
  obtain ⟨v, hv⟩ := Trace.after_world_eq (R := R) (V := V) i j isNew t tr
  rw [hv]
  exact hstepped.setVerifier v

/-- The rounds after resets are alike, if new targets are the same. -/
theorem alike (h : (w.resetCurrentRound V).Resets w') (hP : P.Deterministic) :
    (w.resetCurrentRound V).Alike (w'.resetCurrentRound V) where
  threads := by
    rw [resetCurrentRound_core, resetCurrentRound_core, h.cleared, cleared_resetCurrentRound]
  target := hP.targetFactory _ _
  blocks := rfl
  removed := h.removed.symm
  newTaskId := h.newTaskId.symm
  threadsCount := h.threadsCount.symm

end World.Resets

end Scheduler

end LTest
