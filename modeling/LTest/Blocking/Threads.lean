import LTest.Scheduler.Task

/-!
# Threads that block

The blocking primitives put a coroutine that has to wait into a queue of the `BlockManager`, and the
scheduler resumes a coroutine only when it is in no queue. Here a number of threads share one
primitive. Each of them runs one coroutine, and what is left of the coroutine is the point at which
it is suspended.

## Main definitions

* `Thread`, `Config` — the threads, the primitive and the queues
* `Config.setBlocked`, `Config.stop`, `Config.newTask` — what a thread does to them
-/

namespace LTest

namespace Blocking

open Scheduler (BlockManager)

variable {n : ℕ} {σ κ : Type*}

/-- A thread with the coroutine it runs. -/
structure Thread (κ : Type*) where
  /-- The task. -/
  task : ℕ
  /-- The address of its block state. -/
  fstate : ℕ := 0
  /-- Where the coroutine is suspended. -/
  control : κ

/-- A primitive with the queues of the block manager and the threads that use it. -/
structure Config (n : ℕ) (σ κ : Type*) where
  /-- The primitive. -/
  mutex : σ
  /-- The block manager. -/
  blocks : BlockManager := {}
  /-- The threads. -/
  threads : Fin n → Thread κ

namespace Config

/-- Where a thread is. -/
def control (s : Config n σ κ) (t : Fin n) : κ := (s.threads t).control

/-- `IsBlocked` of the coroutine a thread runs. -/
def isBlocked (s : Config n σ κ) (t : Fin n) : Bool :=
  s.blocks.isBlocked (s.threads t).fstate (s.threads t).task

section

variable (t u : Fin n) (addr : ℕ) (point : κ) (s : Config n σ κ)

/-- `SetBlocked`. -/
def setBlocked : Config n σ κ :=
  { s with
    blocks := s.blocks.blockOn addr (s.threads t).task
    threads := Function.update s.threads t { s.threads t with fstate := addr } }

/-- The thread yields, or an operation returns. -/
def stop : Config n σ κ :=
  { s with threads := Function.update s.threads t { s.threads t with control := point } }

/-- The coroutine of the thread ends, and the thread begins another one. -/
def newTask (task : ℕ) : Config n σ κ :=
  { s with threads := Function.update s.threads t ⟨task, 0, s.control t⟩ }

@[simp] theorem mutex_stop : (stop t point s).mutex = s.mutex := rfl

@[simp] theorem blocks_stop : (stop t point s).blocks = s.blocks := rfl

@[simp] theorem control_stop :
    (stop t point s).control u = if u = t then point else s.control u := by
  unfold control stop
  by_cases h : u = t
  · subst h
    simp
  · simp [h]

@[simp] theorem fstate_stop : ((stop t point s).threads u).fstate = (s.threads u).fstate := by
  unfold stop
  by_cases h : u = t
  · subst h
    simp
  · simp [h]

@[simp] theorem task_stop : ((stop t point s).threads u).task = (s.threads u).task := by
  unfold stop
  by_cases h : u = t
  · subst h
    simp
  · simp [h]

@[simp] theorem mutex_setBlocked : (setBlocked t addr s).mutex = s.mutex := rfl

@[simp] theorem queues_setBlocked (b : ℕ) : (setBlocked t addr s).blocks.queues b =
    if b = addr then s.blocks.queues addr ++ [(s.threads t).task] else s.blocks.queues b := by
  simp [setBlocked, BlockManager.blockOn, Function.update_apply]

@[simp] theorem control_setBlocked : (setBlocked t addr s).control u = s.control u := by
  unfold control setBlocked
  by_cases h : u = t
  · subst h
    simp
  · simp [h]

@[simp] theorem fstate_setBlocked : ((setBlocked t addr s).threads u).fstate =
    if u = t then addr else (s.threads u).fstate := by
  unfold setBlocked
  by_cases h : u = t
  · subst h
    simp
  · simp [h]

@[simp] theorem task_setBlocked : ((setBlocked t addr s).threads u).task = (s.threads u).task := by
  unfold setBlocked
  by_cases h : u = t
  · subst h
    simp
  · simp [h]

variable (task : ℕ)

@[simp] theorem control_newTask : (newTask t s task).control u = s.control u := by
  unfold control newTask
  by_cases h : u = t
  · subst h
    simp [control]
  · simp [h]

@[simp] theorem fstate_newTask : ((newTask t s task).threads u).fstate =
    if u = t then 0 else (s.threads u).fstate := by
  unfold newTask
  by_cases h : u = t
  · subst h
    simp
  · simp [h]

end

end Config

end Blocking

end LTest
