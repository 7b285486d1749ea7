import LTest.Scheduler.Trace

/-!
# Rounds that are alike

Two executions of the same tasks differ in what the tasks do not see: their wakeup conditions, the
numbers of their dual events, and the state of the verifier. `World.Alike` leaves these out, and a
step of a task keeps it.

## Main definitions

* `Task.core` — a task without its wakeup condition and pending events
* `Program.Deterministic` — steps depend on the task and the target
* `World.Alike` — rounds with the same tasks and the same target

## Main results

* `World.Alike.stepTask` — the same step of the same task
-/

namespace LTest

namespace Scheduler

variable {P : Program} {ν : Type}

/-- The task without its wakeup condition and its pending events. -/
def Task.core (t : Task P) : Task P := { t with wakeup := none, pending := [] }

namespace Task

variable {t t' : Task P}

section

variable (h : t.core = t'.core)
include h

theorem core_toTaskInfo : t.toTaskInfo = t'.toTaskInfo :=
  (congrArg (fun t : Task P => t.toTaskInfo) h :)

theorem core_id : t.id = t'.id := congrArg TaskInfo.id (core_toTaskInfo h)

theorem core_returned : t.returned = t'.returned :=
  (congrArg Task.returned h :)

theorem core_ret : t.ret = t'.ret := (congrArg Task.ret h :)

theorem core_fiber : t.fiber = t'.fiber := (congrArg Task.fiber h :)

theorem core_fstate : t.fstate = t'.fstate := (congrArg Task.fstate h :)

theorem core_stepped (s : Step P.Fiber P.Target P.Val) (n n' : ℕ) :
    (t.stepped s n).core = (t'.stepped s n').core := by
  have hinfo := core_toTaskInfo h
  have hfunc : t.func = t'.func := (congrArg Task.func h :)
  simp only [core, stepped, hinfo, hfunc, core_ret h, core_fstate h]

end

end Task

@[simp] theorem Recorder.core_drainTask {E : Type} (R : Recorder P E) (t : Task P) :
    (R.drainTask t).core = t.core := by
  obtain ⟨pending, h⟩ := R.drainTask_eq t
  rw [h]
  rfl

/-- The program is deterministic. -/
structure Program.Deterministic (P : Program) : Prop where
  /-- New targets are the same. -/
  targetFactory : ∀ env env', (P.targetFactory env).1 = (P.targetFactory env').1
  /-- Steps depend on the task and the target. -/
  resume : ∀ id i fiber target blocks env env',
    (P.resume id i fiber target blocks env).1 = (P.resume id i fiber target blocks env').1

/-- The same tasks and the same target. -/
structure World.Alike (w w' : World P ν) : Prop where
  threads : w.threads.map (·.map Task.core) = w'.threads.map (·.map Task.core)
  target : w.target = w'.target
  blocks : w.blocks = w'.blocks
  removed : w.removed = w'.removed
  newTaskId : w.newTaskId = w'.newTaskId
  threadsCount : w.threadsCount = w'.threadsCount

namespace World.Alike

variable {w w' : World P ν} {i j : ℕ}

theorem refl (w : World P ν) : w.Alike w := ⟨rfl, rfl, rfl, rfl, rfl, rfl⟩

section

variable (h : w.Alike w')
include h

theorem symm : w'.Alike w :=
  ⟨h.threads.symm, h.target.symm, h.blocks.symm, h.removed.symm, h.newTaskId.symm,
    h.threadsCount.symm⟩

theorem task? (i j : ℕ) : (w.task? i j).map Task.core = (w'.task? i j).map Task.core := by
  have hget := congrArg (Grid.get? · i j) h.threads
  simp only [Grid.get?_map] at hget
  exact hget

theorem cases (i j : ℕ) :
    (w.task? i j = none ∧ w'.task? i j = none) ∨
      ∃ t t', w.task? i j = some t ∧ w'.task? i j = some t' ∧ t.core = t'.core := by
  have htask := h.task? i j
  cases ht : w.task? i j with
  | none =>
    rw [ht, Option.map_none, eq_comm, Option.map_eq_none_iff] at htask
    exact .inl ⟨rfl, htask⟩
  | some t =>
    rw [ht, Option.map_some, eq_comm, Option.map_eq_some_iff] at htask
    obtain ⟨t', ht', hcore⟩ := htask
    exact .inr ⟨t, t', rfl, ht', hcore.symm⟩

theorem exists_task {i j : ℕ} {t : Task P} (ht : w.task? i j = some t) :
    ∃ t', w'.task? i j = some t' ∧ t.core = t'.core := by
  obtain ⟨hnone, -⟩ | ⟨t₁, t', ht₁, ht', hcore⟩ := h.cases i j
  · cases hnone.symm.trans ht
  · obtain rfl : t₁ = t := Option.some.inj (ht₁.symm.trans ht)
    exact ⟨t', ht', hcore⟩

/-- Whether some task has a property that is the same for both. -/
theorem any_eq {p p' : Task P → Bool}
    (hp : ∀ i j t t', w.task? i j = some t → w'.task? i j = some t' → t.core = t'.core →
      p t = p' t') : (w.threads.any fun ts => ts.any p) = w'.threads.any fun ts => ts.any p' := by
  rw [Bool.eq_iff_iff, Grid.any_any_iff, Grid.any_any_iff]
  constructor
  · rintro ⟨i, j, t, ht, hpt⟩
    obtain ⟨hnone, -⟩ | ⟨t₁, t', ht₁, ht', hcore⟩ := h.cases i j
    · cases hnone.symm.trans ht
    · obtain rfl : t₁ = t := Option.some.inj (ht₁.symm.trans ht)
      exact ⟨i, j, t', ht', hp i j t₁ t' ht₁ ht' hcore ▸ hpt⟩
  · rintro ⟨i, j, t', ht', hpt'⟩
    obtain ⟨-, hnone⟩ | ⟨t, t₁, ht, ht₁, hcore⟩ := h.cases i j
    · cases hnone.symm.trans ht'
    · obtain rfl : t₁ = t' := Option.some.inj (ht₁.symm.trans ht')
      exact ⟨i, j, t, ht, (hp i j t t₁ ht ht₁ hcore).symm ▸ hpt'⟩

theorem rowLength (i : ℕ) : Grid.rowLength w.threads i = Grid.rowLength w'.threads i := by
  have hrow := congrArg (Grid.rowLength · i) h.threads
  simpa only [Grid.rowLength_map] using hrow

theorem setVerifier (v v' : ν) : (w.setVerifier v).Alike (w'.setVerifier v') :=
  ⟨h.threads, h.target, h.blocks, h.removed, h.newTaskId, h.threadsCount⟩

theorem reportFinish (V : Verifier P ν) (i j : ℕ) :
    (w.reportFinish V i j).Alike (w'.reportFinish V i j) := by
  obtain ⟨v, hv⟩ := World.reportFinish_eq V i j w
  obtain ⟨v', hv'⟩ := World.reportFinish_eq V i j w'
  rw [hv, hv']
  exact h.setVerifier v v'

end

theorem modifyTask_left {f : Task P → Task P} (hf : ∀ t, (f t).core = t.core) (h : w.Alike w')
    (i j : ℕ) : (w.modifyTask i j f).Alike w' :=
  ⟨(Grid.map_modify hf).trans h.threads, h.target, h.blocks, h.removed, h.newTaskId,
    h.threadsCount⟩

theorem mapTasks {f f' : Task P → Task P} (hf : ∀ t, (f t).core = t.core)
    (hf' : ∀ t, (f' t).core = t.core) (h : w.Alike w') : (w.mapTasks f).Alike (w'.mapTasks f') := by
  refine ⟨?_, h.target, h.blocks, h.removed, h.newTaskId, h.threadsCount⟩
  have hmap (g : List (List (Task P))) {f : Task P → Task P} (hf : ∀ t, (f t).core = t.core) :
      (g.map (·.map f)).map (·.map Task.core) = g.map (·.map Task.core) := by
    simp [Function.comp_def, hf]
  exact (hmap _ hf).trans (h.threads.trans (hmap _ hf').symm)

/-- **The same step of the same task.** -/
theorem stepTask (h : w.Alike w') {t t' : Task P} (hstep : (w.stepOf i t).1 = (w'.stepOf i t').1) :
    (w.stepTask i j t).Alike (w'.stepTask i j t') := by
  refine ⟨?_, congrArg Step.target hstep, congrArg Step.blocks hstep, h.removed, h.newTaskId,
    h.threadsCount⟩
  show (Grid.modify _ i j (Task.stepped (w.stepOf i t).1 w.seqno)).map _ =
    (Grid.modify _ i j (Task.stepped (w'.stepOf i t').1 w'.seqno)).map _
  rw [hstep]
  exact Grid.map_modify_congr h.threads fun a a' ha => Task.core_stepped ha _ _ _

/-- A step depends on the task and the target, and on the environment. -/
theorem stepOf (h : w.Alike w') {t t' : Task P} (ht : t.core = t'.core) (henv : w.env = w'.env)
    (i : ℕ) : w.stepOf i t = w'.stepOf i t' := by
  simp only [World.stepOf, Task.core_id ht, Task.core_fiber ht, h.target, h.blocks, henv]

/-- If steps do not depend on the environment, the same task makes the same step. -/
theorem stepOf_of_deterministic (h : w.Alike w') (hP : P.Deterministic) {t t' : Task P}
    (ht : t.core = t'.core) (i : ℕ) : (w.stepOf i t).1 = (w'.stepOf i t').1 := by
  rw [World.stepOf, World.stepOf, Task.core_id ht, Task.core_fiber ht, h.target, h.blocks]
  exact hP.resume _ _ _ _ _ _ _

end World.Alike

end Scheduler

end LTest
