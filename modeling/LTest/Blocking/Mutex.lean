import LTest.Blocking.Threads
import LTest.Lib.Transition
import Mathlib.Algebra.BigOperators.Ring.Finset
import Mathlib.Algebra.Order.BigOperators.Group.Finset

/-!
# The simulated mutex and the simple shared mutex

`ltest::mutex` and `ltest::shared_mutex_r` have one variable `locked` and one queue. An operation
that has to wait is a loop around a yield: while the lock is busy, the coroutine puts itself into
the queue. A release clears the whole queue, and those who were in it try again.

A task may acquire a lock again that it already holds. It then waits for itself, or it holds the
lock in shared mode more than once; `locked` counts how often the lock is held, not by how many.

## Main definitions

* `Holder`, `LockConfig` — what a task holds and where it is; the lock with its tasks
* `acquire`, `release` — the shapes of the operations
* `LockConfig.move`, `LockConfig.Permits` — one step, and when it may be made
* `LockCorrect` — exclusion, the value of `locked`, and no lost wakeups

## Main results

* `LockConfig.Inv.move` — a step keeps the invariant
* `locks_correct` — both locks are correct in every run
-/

namespace LTest

namespace Blocking

open Scheduler (BlockManager)

variable {n : ℕ}

/-! ### The locks and their tasks -/

/-- The operation in which a task is suspended. -/
inductive Point
  | running
  | lock
  | tryLock
  | lockShared
  deriving DecidableEq, Repr

/-- How a task holds the lock. -/
structure Holder where
  /-- How often exclusively. -/
  exclusive : ℕ := 0
  /-- How often shared. -/
  shared : ℕ := 0
  /-- Where the task is. -/
  point : Point := .running

namespace Holder

/-- The task has acquired the lock exclusively. -/
def addExclusive (c : Holder) : Holder := { c with exclusive := c.exclusive + 1 }

/-- The task has acquired the lock in shared mode. -/
def addShared (c : Holder) : Holder := { c with shared := c.shared + 1 }

/-- The task has released the lock. -/
def dropExclusive (c : Holder) : Holder := { c with exclusive := c.exclusive - 1 }

/-- The task has released the lock once in shared mode. -/
def dropShared (c : Holder) : Holder := { c with shared := c.shared - 1 }

end Holder

/-- The variable `locked` with the tasks that use it. -/
abbrev LockConfig (n : ℕ) := Config n ℤ Holder

open Config

section Operations

variable (addr : ℕ) (t : Fin n)

/-- The task is suspended, or goes on. -/
def goTo (point : Point) (s : LockConfig n) : LockConfig n :=
  stop t { s.control t with point := point } s

/-- `while (busy) { SetBlocked; CoroYield }`, and then the lock is taken. -/
def acquire (busy : ℤ → Bool) (take : ℤ → ℤ) (point : Point) (hold : Holder → Holder)
    (s : LockConfig n) : LockConfig n :=
  if busy s.mutex then goTo t point (setBlocked t addr s)
  else stop t { hold (s.control t) with point := .running } { s with mutex := take s.mutex }

/-- The lock is given back and the queue is cleared. -/
def release (give : ℤ → ℤ) (drop : Holder → Holder) (s : LockConfig n) : LockConfig n :=
  stop t (drop (s.control t))
    { s with mutex := give s.mutex, blocks := s.blocks.unblockAllOn addr }

namespace Mutex

/-- `mutex::lock`. -/
def lock : LockConfig n → LockConfig n :=
  acquire addr t (· != 0) (fun _ => 1) .lock .addExclusive

/-- `mutex::try_lock`; a task that finds the mutex locked yields before it returns `false`. -/
def tryLock (s : LockConfig n) : LockConfig n :=
  if s.mutex != 0 then goTo t .tryLock s
  else stop t (s.control t).addExclusive { s with mutex := 1 }

/-- `mutex::unlock`. -/
def unlock : LockConfig n → LockConfig n := release addr t (fun _ => 0) .dropExclusive

/-- The task goes on in its operation. -/
def resume (s : LockConfig n) : LockConfig n :=
  match (s.control t).point with
  | .lock => lock addr t s
  | .tryLock => goTo t .running s
  | .running | .lockShared => s

end Mutex

namespace SharedMutexR

/-- `shared_mutex_r::lock`. -/
def lock : LockConfig n → LockConfig n :=
  acquire addr t (· != 0) (fun _ => -1) .lock .addExclusive

/-- `shared_mutex_r::unlock`. -/
def unlock : LockConfig n → LockConfig n := release addr t (fun _ => 0) .dropExclusive

/-- `shared_mutex_r::lock_shared`. -/
def lockShared : LockConfig n → LockConfig n :=
  acquire addr t (· == -1) (· + 1) .lockShared .addShared

/-- `shared_mutex_r::unlock_shared`. -/
def unlockShared : LockConfig n → LockConfig n := release addr t (· - 1) .dropShared

/-- The task goes on in its operation. -/
def resume (s : LockConfig n) : LockConfig n :=
  match (s.control t).point with
  | .lock => lock addr t s
  | .lockShared => lockShared addr t s
  | .running | .tryLock => s

end SharedMutexR

end Operations

/-! ### Runs -/

/-- The two locks. -/
inductive Lock
  | mutex
  | sharedMutexR
  deriving DecidableEq, Repr

/-- The value of `locked` while the lock is held exclusively. -/
def Lock.taken : Lock → ℤ
  | .mutex => 1
  | .sharedMutexR => -1

namespace LockConfig

/-- What a task can do. -/
inductive Move (n : ℕ)
  | lock (t : Fin n)
  | tryLock (t : Fin n)
  | unlock (t : Fin n)
  | lockShared (t : Fin n)
  | unlockShared (t : Fin n)
  | resume (t : Fin n)

/-- One step. -/
def move (addr : ℕ) (s : LockConfig n) : Lock → Move n → LockConfig n
  | .mutex, .lock t => Mutex.lock addr t s
  | .mutex, .tryLock t => Mutex.tryLock t s
  | .mutex, .unlock t => Mutex.unlock addr t s
  | .mutex, .resume t => Mutex.resume addr t s
  | .sharedMutexR, .lock t => SharedMutexR.lock addr t s
  | .sharedMutexR, .unlock t => SharedMutexR.unlock addr t s
  | .sharedMutexR, .lockShared t => SharedMutexR.lockShared addr t s
  | .sharedMutexR, .unlockShared t => SharedMutexR.unlockShared addr t s
  | .sharedMutexR, .resume t => SharedMutexR.resume addr t s
  -- the other lock has these operations
  | .mutex, .lockShared _ | .mutex, .unlockShared _ | .sharedMutexR, .tryLock _ => s

/-- Only tasks that are not blocked are resumed, a task calls an operation when it is in none, and
only holders release. -/
def Permits (s : LockConfig n) : Move n → Prop
  | .lock t | .tryLock t | .lockShared t =>
    (s.control t).point = .running ∧ s.isBlocked t = false
  | .unlock t =>
    (s.control t).point = .running ∧ s.isBlocked t = false ∧ 0 < (s.control t).exclusive
  | .unlockShared t =>
    (s.control t).point = .running ∧ s.isBlocked t = false ∧ 0 < (s.control t).shared
  | .resume t => (s.control t).point ≠ .running ∧ s.isBlocked t = false

/-- A new lock and tasks that do not hold it. -/
structure Initial (addr : ℕ) (s : LockConfig n) : Prop where
  locked : s.mutex = 0
  queue : s.blocks.queues addr = []
  control : ∀ t, s.control t = {}
  fstate : ∀ t, (s.threads t).fstate = 0
  tasks : Function.Injective fun t => (s.threads t).task

/-- The states of the runs in which only tasks that are not blocked are resumed. -/
def Reachable (L : Lock) (addr : ℕ) : LockConfig n → Prop :=
  Reached (fun s m s' => s' = s.move addr L m) Permits (Initial addr)

/-! ### How often the lock is held -/

variable {s : LockConfig n} {f : Holder → ℕ}

/-- The sum of a number over all tasks. -/
def total (f : Holder → ℕ) (s : LockConfig n) : ℕ := ∑ t, f (s.control t)

theorem total_stop (f : Holder → ℕ) (t : Fin n) (c : Holder) (s : LockConfig n) :
    total f (stop t c s) + f (s.control t) = total f s + f c := by
  have hrest : ∑ u ∈ Finset.univ.erase t, f ((stop t c s).control u) =
      ∑ u ∈ Finset.univ.erase t, f (s.control u) := by
    refine Finset.sum_congr rfl fun u hu => ?_
    rw [control_stop, if_neg (Finset.ne_of_mem_erase hu)]
  have hown : f ((stop t c s).control t) = f c := by rw [control_stop, if_pos rfl]
  have hleft := Finset.add_sum_erase Finset.univ (fun u => f ((stop t c s).control u))
    (Finset.mem_univ t)
  have hright := Finset.add_sum_erase Finset.univ (fun u => f (s.control u)) (Finset.mem_univ t)
  rw [total, total, ← hleft, ← hright, hrest, hown]
  omega

theorem total_congr {s' : LockConfig n} (h : ∀ t, f (s'.control t) = f (s.control t)) :
    total f s' = total f s :=
  Finset.sum_congr rfl fun t _ => h t

theorem le_total (f : Holder → ℕ) (s : LockConfig n) (t : Fin n) : f (s.control t) ≤ total f s :=
  Finset.single_le_sum (f := fun t => f (s.control t)) (fun _ _ => Nat.zero_le _)
    (Finset.mem_univ t)

theorem add_le_total (f : Holder → ℕ) (s : LockConfig n) {t u : Fin n} (h : t ≠ u) :
    f (s.control t) + f (s.control u) ≤ total f s :=
  calc
    f (s.control t) + f (s.control u) = ∑ v ∈ {t, u}, f (s.control v) :=
      (Finset.sum_pair (f := fun v => f (s.control v)) h).symm
    _ ≤ total f s := Finset.sum_le_sum_of_subset (Finset.subset_univ _)

theorem exists_of_total_pos (h : 0 < total f s) : ∃ t, 0 < f (s.control t) := by
  obtain ⟨t, -, ht⟩ := Finset.exists_ne_zero_of_sum_ne_zero (Nat.ne_of_gt h)
  exact ⟨t, Nat.pos_of_ne_zero ht⟩

/-! ### The invariant -/

/-- What holds between two steps. -/
structure Inv (L : Lock) (addr : ℕ) (s : LockConfig n) : Prop where
  /-- Threads have tasks of their own. -/
  tasks : Function.Injective fun t => (s.threads t).task
  /-- The word counts the holders. -/
  locked : s.mutex = L.taken * s.total Holder.exclusive + s.total Holder.shared
  /-- An exclusive holder is alone. -/
  exclusion : s.total Holder.exclusive = 0 ∨
    s.total Holder.exclusive = 1 ∧ s.total Holder.shared = 0
  /-- Tasks block on this lock only. -/
  fstate : ∀ t, (s.threads t).fstate = 0 ∨ (s.threads t).fstate = addr
  /-- Tasks wait for a lock that is taken. -/
  queue : s.blocks.queues addr ≠ [] → s.mutex ≠ 0
  /-- A reader waits for an exclusive holder. -/
  awaits : ∀ t, (s.threads t).task ∈ s.blocks.queues addr → (s.control t).point = .lockShared →
    s.total Holder.exclusive = 1

namespace Inv

variable {L : Lock} {addr : ℕ} {s s' : LockConfig n} {t : Fin n}

theorem taken_cases (L : Lock) : L.taken = 1 ∨ L.taken = -1 := by
  cases L
  · exact .inl rfl
  · exact .inr rfl

section

variable (h : s.Inv L addr)
include h

theorem free (hfree : s.mutex = 0) : s.total Holder.exclusive = 0 ∧ s.total Holder.shared = 0 := by
  have hlocked := h.locked
  have hex := h.exclusion
  obtain hL | hL := taken_cases L <;> rw [hL] at hlocked <;> omega

/-- The task waits: it is in the queue of a lock that is held. -/
theorem wait {point : Point} (hbusy : s.mutex ≠ 0)
    (hshared : point = .lockShared → s.total Holder.exclusive = 1) :
    LockConfig.Inv L addr (goTo t point (setBlocked t addr s)) := by
  have htotal : ∀ f : Holder → ℕ, (∀ c point, f { c with point := point } = f c) →
      total f (goTo t point (setBlocked t addr s)) = total f s := by
    intro f hf
    refine total_congr fun u => ?_
    by_cases hu : u = t
    · subst hu
      simp [goTo, hf]
    · simp [goTo, hu]
  have hexclusive := htotal Holder.exclusive fun _ _ => rfl
  have hshared' := htotal Holder.shared fun _ _ => rfl
  constructor
  case tasks => simpa [goTo] using h.tasks
  case locked =>
    rw [hexclusive, hshared']
    exact h.locked
  case exclusion =>
    rw [hexclusive, hshared']
    exact h.exclusion
  case fstate =>
    intro u
    by_cases hu : u = t
    · simp [goTo, hu]
    · simpa [goTo, hu] using h.fstate u
  case queue => exact fun _ => hbusy
  case awaits =>
    intro u hmem hpoint
    rw [hexclusive]
    by_cases hu : u = t
    · subst hu
      exact hshared (by simpa [goTo] using hpoint)
    · have hne : (s.threads u).task ≠ (s.threads t).task := fun heq => hu (h.tasks heq)
      simp only [goTo, blocks_stop, queues_setBlocked, if_true, task_stop, task_setBlocked,
        List.mem_append, List.mem_singleton, hne, or_false] at hmem
      exact h.awaits u hmem (by simpa [goTo, hu] using hpoint)

/-- A step after which the task is not in the queue. The queue stays or is cleared. -/
theorem settle {c : Holder} {locked : ℤ} {blocks : BlockManager} {e k : ℕ}
    (hexclusive : e + (s.control t).exclusive = s.total Holder.exclusive + c.exclusive)
    (hshared : k + (s.control t).shared = s.total Holder.shared + c.shared)
    (hpoint : c.point ≠ .lockShared) (hlocked : locked = L.taken * e + k)
    (hexclusion : e = 0 ∨ e = 1 ∧ k = 0)
    (hblocks : blocks.queues addr = [] ∨ blocks.queues addr = s.blocks.queues addr ∧
      locked ≠ 0 ∧ (s.total Holder.exclusive = 1 → e = 1)) :
    LockConfig.Inv L addr (stop t c { s with mutex := locked, blocks := blocks }) := by
  have hE : total Holder.exclusive (stop t c { s with mutex := locked, blocks := blocks }) =
      e := by
    have hsum := total_stop Holder.exclusive t c { s with mutex := locked, blocks := blocks }
    change _ + (s.control t).exclusive = s.total Holder.exclusive + _ at hsum
    omega
  have hS : total Holder.shared (stop t c { s with mutex := locked, blocks := blocks }) =
      k := by
    have hsum := total_stop Holder.shared t c { s with mutex := locked, blocks := blocks }
    change _ + (s.control t).shared = s.total Holder.shared + _ at hsum
    omega
  constructor
  case tasks => simpa using h.tasks
  case locked => rw [hE, hS, mutex_stop, hlocked]
  case exclusion => rwa [hE, hS]
  case fstate => simpa using h.fstate
  case queue =>
    intro hne
    obtain hnil | ⟨-, hlocked, -⟩ := hblocks
    · exact absurd hnil hne
    · exact hlocked
  case awaits =>
    intro u hmem hpoint'
    rw [blocks_stop, task_stop] at hmem
    obtain hnil | ⟨hq, -, hkeep⟩ := hblocks
    · change _ ∈ blocks.queues addr at hmem
      rw [hnil] at hmem
      cases hmem
    · rw [hE]
      refine hkeep (h.awaits u (hq ▸ hmem) ?_)
      by_cases hu : u = t
      · subst hu
        rw [control_stop, if_pos rfl] at hpoint'
        exact absurd hpoint' hpoint
      · rwa [control_stop, if_neg hu] at hpoint'

theorem goTo {point : Point} (hpoint : point ≠ .lockShared) :
    LockConfig.Inv L addr (goTo t point s) := by
  by_cases hnil : s.blocks.queues addr = []
  · exact h.settle rfl rfl hpoint h.locked h.exclusion (.inl hnil)
  · exact h.settle rfl rfl hpoint h.locked h.exclusion (.inr ⟨rfl, h.queue hnil, id⟩)

theorem takeExclusive (hfree : s.mutex = 0) {c : Holder}
    (hexclusive : c.exclusive = (s.control t).exclusive + 1)
    (hshared : c.shared = (s.control t).shared) (hpoint : c.point ≠ .lockShared) :
    LockConfig.Inv L addr (stop t c { s with mutex := L.taken }) := by
  obtain ⟨hE, hS⟩ := h.free hfree
  have htaken : L.taken ≠ 0 := by obtain hL | hL := taken_cases L <;> rw [hL] <;> decide
  refine h.settle (e := 1) (k := 0) (by omega) (by omega) hpoint (by simp)
    (.inr ⟨rfl, rfl⟩) (.inr ⟨rfl, htaken, fun _ => rfl⟩)

theorem acquireExclusive :
    LockConfig.Inv L addr (acquire addr t (· != 0) (fun _ => L.taken) .lock .addExclusive s) := by
  rw [acquire]
  split
  · rename_i hbusy
    exact h.wait (by simpa using hbusy) nofun
  · rename_i hfree
    exact h.takeExclusive (by simpa using hfree) rfl rfl nofun

theorem releaseExclusive (hpoint : (s.control t).point = .running)
    (hpos : 0 < (s.control t).exclusive) :
    LockConfig.Inv L addr (release addr t (fun _ => 0) .dropExclusive s) := by
  have hle := le_total Holder.exclusive s t
  have hex := h.exclusion
  refine h.settle (e := 0) (k := 0) ?_ ?_ ?_ (by simp) (.inl rfl)
    (.inl (Function.update_self _ _ _))
  · simp only [Holder.dropExclusive]
    omega
  · simp only [Holder.dropExclusive]
    omega
  · simp [Holder.dropExclusive, hpoint]

end

theorem acquireShared (h : s.Inv .sharedMutexR addr) :
    LockConfig.Inv .sharedMutexR addr (SharedMutexR.lockShared addr t s) := by
  have hlocked := h.locked
  have hex := h.exclusion
  rw [Lock.taken] at hlocked
  rw [SharedMutexR.lockShared, acquire]
  split
  · rename_i hbusy
    have hbusy : s.mutex = -1 := by simpa using hbusy
    exact h.wait (by omega) fun _ => by omega
  · rename_i hfree
    have hfree : s.mutex ≠ -1 := by simpa using hfree
    refine h.settle (e := 0) (k := s.total Holder.shared + 1) ?_ ?_ nofun ?_ (.inl rfl)
      (.inr ⟨rfl, by omega, by omega⟩)
    · simp only [Holder.addShared]
      omega
    · simp only [Holder.addShared]
      omega
    · rw [Lock.taken]
      push_cast
      omega

theorem releaseShared (h : s.Inv .sharedMutexR addr) (hpoint : (s.control t).point = .running)
    (hpos : 0 < (s.control t).shared) :
    LockConfig.Inv .sharedMutexR addr (SharedMutexR.unlockShared addr t s) := by
  have hle := le_total Holder.shared s t
  have hlocked := h.locked
  have hex := h.exclusion
  rw [Lock.taken] at hlocked
  refine h.settle (e := 0) (k := s.total Holder.shared - 1) ?_ ?_ ?_ ?_ (.inl rfl)
    (.inl (Function.update_self _ _ _))
  · simp only [Holder.dropShared]
    omega
  · simp only [Holder.dropShared]
    omega
  · simp [Holder.dropShared, hpoint]
  · show s.mutex - 1 = _
    rw [Lock.taken]
    omega

theorem tryLock (h : s.Inv .mutex addr) (hpoint : (s.control t).point = .running) :
    LockConfig.Inv .mutex addr (Mutex.tryLock t s) := by
  rw [Mutex.tryLock]
  split
  · exact h.goTo nofun
  · rename_i hfree
    exact h.takeExclusive (by simpa using hfree) rfl rfl (by simp [Holder.addExclusive, hpoint])

/-- **A step keeps the invariant.** -/
theorem move (h : s.Inv L addr) {m : Move n} (hm : s.Permits m) :
    LockConfig.Inv L addr (s.move addr L m) := by
  cases L with
  | mutex =>
    cases m with
    | lock t => exact h.acquireExclusive
    | tryLock t => exact h.tryLock hm.1
    | unlock t => exact h.releaseExclusive hm.1 hm.2.2
    | lockShared t => exact h
    | unlockShared t => exact h
    | resume t =>
      rw [LockConfig.move, Mutex.resume]
      split
      · exact h.acquireExclusive
      · exact h.goTo nofun
      · exact h
      · exact h
  | sharedMutexR =>
    cases m with
    | lock t => exact h.acquireExclusive
    | tryLock t => exact h
    | unlock t => exact h.releaseExclusive hm.1 hm.2.2
    | lockShared t => exact h.acquireShared
    | unlockShared t => exact h.releaseShared hm.1 hm.2.2
    | resume t =>
      rw [LockConfig.move, SharedMutexR.resume]
      split
      · exact h.acquireExclusive
      · exact h.acquireShared
      · exact h
      · exact h

theorem mem_queue (h : s.Inv L addr) (hblocked : s.isBlocked t = true) :
    (s.threads t).task ∈ s.blocks.queues addr := by
  rw [isBlocked, BlockManager.isBlocked, Bool.and_eq_true, List.contains_iff_mem] at hblocked
  obtain ⟨hzero, hmem⟩ := hblocked
  obtain hf | hf := h.fstate t
  · simp [hf] at hzero
  · rwa [hf] at hmem

end Inv

theorem inv_of_initial {L : Lock} {addr : ℕ} (h : Initial addr s) : s.Inv L addr := by
  have hzero : ∀ f : Holder → ℕ, f {} = 0 → total f s = 0 := by
    intro f hf
    refine Finset.sum_eq_zero fun t _ => ?_
    rw [h.control, hf]
  have hE := hzero Holder.exclusive rfl
  have hS := hzero Holder.shared rfl
  constructor
  case tasks => exact h.tasks
  case locked => simp [hE, hS, h.locked]
  case exclusion => exact .inl hE
  case fstate => exact fun t => .inl (h.fstate t)
  case queue => exact fun hne => absurd h.queue hne
  case awaits =>
    intro t hmem
    rw [h.queue] at hmem
    cases hmem

theorem inv_of_reachable {L : Lock} {addr : ℕ} (h : Reachable L addr s) : s.Inv L addr :=
  h.invariant (fun _ => inv_of_initial) fun _ _ _ hinv hm hs => hs ▸ hinv.move hm

end LockConfig

open LockConfig

/-- A lock with exclusion and a right `locked`, whose waiters are not forgotten. -/
structure LockCorrect (L : Lock) (s : LockConfig n) : Prop where
  /-- There is at most one exclusive holder. -/
  exclusive : ∀ t u, 0 < (s.control t).exclusive → 0 < (s.control u).exclusive →
    t = u ∧ (s.control t).exclusive = 1
  /-- There is no exclusive holder together with a shared holder. -/
  shared : ∀ t u, 0 < (s.control t).exclusive → (s.control u).shared = 0
  /-- `locked` is `1` or `-1` while there is an exclusive holder. -/
  taken : (∃ t, 0 < (s.control t).exclusive) → s.mutex = L.taken
  /-- Otherwise it is the number of times that the lock is held in shared mode. -/
  counted : (∀ t, (s.control t).exclusive = 0) → s.mutex = ∑ t, ((s.control t).shared : ℤ)
  /-- No task is blocked on a free lock. -/
  free : ∀ t, s.isBlocked t = true →
    s.mutex ≠ 0 ∧ ∃ u, 0 < (s.control u).exclusive ∨ 0 < (s.control u).shared
  /-- No task that acquires the lock in shared mode is blocked without an exclusive holder. -/
  sharedWaits : ∀ t, s.isBlocked t = true → (s.control t).point = .lockShared →
    ∃ u, 0 < (s.control u).exclusive

/-- **The simulated mutex and shared mutex are correct and lose no wakeup**, for any number of tasks
that run any operations and release what they hold, in every state of every run in which only
tasks that are not blocked are resumed. -/
theorem locks_correct {L : Lock} {addr : ℕ} {s : LockConfig n} (h : Reachable L addr s) :
    LockCorrect L s := by
  have hinv := inv_of_reachable h
  have hex := hinv.exclusion
  have hlocked := hinv.locked
  have hle := le_total Holder.exclusive s
  have hle' := le_total Holder.shared s
  constructor
  case exclusive =>
    intro t u ht hu
    have hone : s.total Holder.exclusive = 1 := by
      have := hle t
      omega
    refine ⟨?_, ?_⟩
    · by_contra hne
      have htwo := add_le_total Holder.exclusive s hne
      omega
    · have := hle t
      omega
  case shared =>
    intro t u ht
    have := hle t
    have := hle' u
    omega
  case taken =>
    rintro ⟨t, ht⟩
    have := hle t
    obtain hE | ⟨hE, hS⟩ := hex
    · omega
    · rw [hlocked, hE, hS]
      simp
  case counted =>
    intro hnone
    have hE : s.total Holder.exclusive = 0 := Finset.sum_eq_zero fun t _ => hnone t
    rw [hlocked, hE, total, Nat.cast_sum]
    simp
  case free =>
    intro t ht
    have hne := hinv.queue (List.ne_nil_of_mem (hinv.mem_queue ht))
    refine ⟨hne, ?_⟩
    by_cases hE : s.total Holder.exclusive = 0
    · have hS : 0 < s.total Holder.shared := by
        rw [hlocked, hE] at hne
        simp at hne
        omega
      obtain ⟨u, hu⟩ := exists_of_total_pos hS
      exact ⟨u, .inr hu⟩
    · obtain ⟨u, hu⟩ := exists_of_total_pos (Nat.pos_of_ne_zero hE)
      exact ⟨u, .inl hu⟩
  case sharedWaits =>
    intro t ht hpoint
    have hone := hinv.awaits t (hinv.mem_queue ht) hpoint
    exact exists_of_total_pos (by omega)

/-- Two tasks that have not used the lock. -/
def twoTasks : LockConfig 2 := ⟨0, {}, fun t => ⟨t + 1, 0, {}⟩⟩

/-- Task `0` holds the shared mutex, and task `1` waits for it in shared mode. -/
def readerWaits : LockConfig 2 :=
  (twoTasks.move 1 .sharedMutexR (.lock 0)).move 1 .sharedMutexR (.lockShared 1)

theorem reachable_readerWaits : Reachable .sharedMutexR 1 readerWaits := by
  refine .step (.step (.init ?_) (m := .lock 0) ?_ rfl) (m := .lockShared 1) ?_ rfl
  · refine ⟨rfl, rfl, fun _ => rfl, fun _ => rfl, fun t u htu => ?_⟩
    exact Fin.ext (Nat.succ.inj htu)
  · exact ⟨rfl, rfl⟩
  · exact ⟨rfl, rfl⟩

theorem locks_correct_readerWaits :
    readerWaits.isBlocked 1 = true ∧ readerWaits.mutex = -1 ∧
      LockCorrect .sharedMutexR readerWaits :=
  ⟨rfl, rfl, locks_correct reachable_readerWaits⟩

end Blocking

end LTest
