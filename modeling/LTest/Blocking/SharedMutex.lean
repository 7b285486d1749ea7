import LTest.Blocking.Threads
import LTest.Lib.Transition
import Mathlib.Data.Fintype.Card

/-!
# The simulated shared mutex

`ltest::shared_mutex` is a reader-writer lock for coroutines. It is built from an `ltest::mutex`
and two `ltest::condition_variable`s. All operations are `as_atomic`: a coroutine yields in them
only where it waits.

An operation is written in continuation style. A call that may yield is given the point at which
the coroutine is then suspended, and what it does when it goes on.

## The inner mutex disappears

Every operation releases the inner mutex before it yields. So between two steps nobody holds it,
nobody waits for it, and a step is one of the seven turns of `Turn`, which do not speak of it.

## Main definitions

* `SharedMutex`, `SharedConfig` — the lock, and threads that use it
* `SharedConfig.move`, `SharedConfig.Permits` — one step of a thread, and when the scheduler may
  make it
* `Turn` — what a step does when nobody holds the inner mutex
* `SharedConfig.Inv` — what holds between two steps

## Main results

* `SharedConfig.Inv.turn` — a step is a turn
-/

namespace LTest

namespace Blocking

open Scheduler (BlockManager)

variable {n : ℕ}

/-! ### The lock and its threads -/

/-- How a thread holds the lock. -/
inductive Mode
  | exclusive
  | shared
  deriving DecidableEq, Repr

/-- The addresses of `mutex_.locked` and of the `wait_queue_` of the two condition variables. -/
structure Addresses where
  locked : ℕ
  writeEntered : ℕ
  noReaders : ℕ
  locked_ne_zero : locked ≠ 0
  writeEntered_ne_zero : writeEntered ≠ 0
  noReaders_ne_zero : noReaders ≠ 0
  locked_ne_writeEntered : locked ≠ writeEntered
  locked_ne_noReaders : locked ≠ noReaders
  writeEntered_ne_noReaders : writeEntered ≠ noReaders

/-- `shared_mutex` with its `mutex_`; `write` is `none` for `-1`. -/
structure SharedMutex (n : ℕ) where
  /-- The flag of `mutex_`. -/
  locked : Bool := false
  /-- The number of readers. -/
  readerCount : ℤ := 0
  /-- The writer. -/
  write : Option (Fin n) := none

/-- `has_write`. -/
def SharedMutex.hasWrite (m : SharedMutex n) : Bool := m.write.isSome

/-- Where a thread is: between its operations, or suspended in one of them. It is suspended where
it enters the inner mutex, where it waits for a condition variable, or where it takes the inner
mutex again after such a wait. -/
inductive Control
  | outside
  | holding (mode : Mode)
  | lockEnters
  | lockAwaitsWriter
  | lockResumesWriter
  | lockAwaitsReaders
  | lockResumesReaders
  | sharedEnters
  | sharedAwaitsWriter
  | sharedResumesWriter
  | unlockEnters (mode : Mode)
  deriving DecidableEq, Repr

namespace Control

/-- The thread has returned from `lock` or `lock_shared` and not from `unlock`. -/
def held : Control → Option Mode
  | holding mode => some mode
  | unlockEnters mode => some mode
  | _ => none

/-- The thread is suspended in `lock` or `lock_shared`. -/
def Acquires : Control → Prop
  | outside | holding _ | unlockEnters _ => False
  | _ => True

/-- The thread is suspended in an operation. -/
def Inside : Control → Prop
  | outside | holding _ => False
  | _ => True

end Control

/-- A shared mutex and the threads that use it. -/
abbrev SharedConfig (n : ℕ) := Config n (SharedMutex n) Control

namespace SharedConfig

open Config

/-- How each thread holds the lock. -/
def held (s : SharedConfig n) (t : Fin n) : Option Mode := (s.control t).held

/-- The threads that hold the lock as readers. -/
def readers (s : SharedConfig n) : Finset (Fin n) :=
  Finset.univ.filter fun t => s.held t = some .shared

/-! ### The operations -/

section Operations

variable (A : Addresses) (t : Fin n)

/-- `mutex::lock`. When the mutex is locked, the coroutine yields in the loop, at `point`. -/
def lockMutex (point : Control) (next : SharedConfig n → SharedConfig n) (s : SharedConfig n) :
    SharedConfig n :=
  if s.mutex.locked then stop t point (setBlocked t A.locked s)
  else next { s with mutex := { s.mutex with locked := true } }

section

variable (s : SharedConfig n)

/-- `mutex::unlock`. -/
def unlockMutex : SharedConfig n :=
  { s with
    mutex := { s.mutex with locked := false }
    blocks := s.blocks.unblockAllOn A.locked }

/-- `condition_variable::wait` up to its yield, which is at `point`; what is left is to lock the
mutex. -/
def wait (addr : ℕ) (point : Control) (s : SharedConfig n) : SharedConfig n :=
  stop t point (setBlocked t addr (unlockMutex A s))

/-- `condition_variable::notify_one`. -/
def notifyOne (addr : ℕ) (s : SharedConfig n) : SharedConfig n :=
  { s with blocks := (s.blocks.unblockOn addr 1).2 }

/-- `condition_variable::notify_all`. -/
def notifyAll (addr : ℕ) (s : SharedConfig n) : SharedConfig n :=
  { s with blocks := s.blocks.unblockAllOn addr }

/-- The second loop of `shared_mutex::lock`. -/
def lockReaders : SharedConfig n :=
  if s.mutex.readerCount > 0 then wait A t A.noReaders .lockAwaitsReaders s
  else stop t (.holding .exclusive) (unlockMutex A s)

/-- `shared_mutex::lock` from its first loop on. -/
def lockWriter : SharedConfig n :=
  if s.mutex.hasWrite then wait A t A.writeEntered .lockAwaitsWriter s
  else lockReaders A t { s with mutex := { s.mutex with write := some t } }

/-- `shared_mutex::lock`. -/
def lock : SharedConfig n → SharedConfig n := lockMutex A t .lockEnters (lockWriter A t)

/-- `shared_mutex::lock_shared` from its loop on. -/
def lockSharedWriter : SharedConfig n :=
  if s.mutex.hasWrite then wait A t A.writeEntered .sharedAwaitsWriter s
  else
    stop t (.holding .shared)
      (unlockMutex A { s with mutex := { s.mutex with readerCount := s.mutex.readerCount + 1 } })

/-- `shared_mutex::lock_shared`. -/
def lockShared : SharedConfig n → SharedConfig n :=
  lockMutex A t .sharedEnters (lockSharedWriter A t)

/-- The branch of `shared_mutex::unlock` of a writer. -/
def releaseWriter : SharedConfig n :=
  notifyAll A.writeEntered { s with mutex := { s.mutex with write := none } }

/-- The branch of `shared_mutex::unlock` of a reader. -/
def releaseReader : SharedConfig n :=
  let s := { s with mutex := { s.mutex with readerCount := s.mutex.readerCount - 1 } }
  if s.mutex.hasWrite && s.mutex.readerCount == 0 then notifyOne A.noReaders s else s

/-- `shared_mutex::unlock` with the mutex locked. -/
def release : SharedConfig n :=
  stop t .outside
    (unlockMutex A (if s.mutex.write = some t then releaseWriter A s else releaseReader A s))

/-- `shared_mutex::unlock`; the thread is in `mode` when it calls it. -/
def unlock (mode : Mode) : SharedConfig n → SharedConfig n :=
  lockMutex A t (.unlockEnters mode) (release A t)

/-- `shared_mutex::unlock_shared`. -/
def unlockShared : SharedConfig n → SharedConfig n := unlock A t .shared

/-- The coroutine goes on from where it is suspended. -/
def resume : SharedConfig n :=
  match s.control t with
  | .outside | .holding _ => s
  | .lockEnters => lockMutex A t .lockEnters (lockWriter A t) s
  | .lockAwaitsWriter | .lockResumesWriter => lockMutex A t .lockResumesWriter (lockWriter A t) s
  | .lockAwaitsReaders | .lockResumesReaders =>
    lockMutex A t .lockResumesReaders (lockReaders A t) s
  | .sharedEnters => lockMutex A t .sharedEnters (lockSharedWriter A t) s
  | .sharedAwaitsWriter | .sharedResumesWriter =>
    lockMutex A t .sharedResumesWriter (lockSharedWriter A t) s
  | .unlockEnters mode => lockMutex A t (.unlockEnters mode) (release A t) s

end

end Operations

/-! ### Runs -/

/-- What a thread can do: call an operation, go on in one, or end its coroutine and begin
another one. -/
inductive Move (n : ℕ)
  | newTask (t : Fin n) (task : ℕ)
  | lock (t : Fin n)
  | unlock (t : Fin n)
  | lockShared (t : Fin n)
  | unlockShared (t : Fin n)
  | resume (t : Fin n)

/-- One step. -/
def move (A : Addresses) (s : SharedConfig n) : Move n → SharedConfig n
  | .newTask t task =>
    s.newTask t task
  | .lock t => s.lock A t
  | .unlock t => s.unlock A t .exclusive
  | .lockShared t => s.lockShared A t
  | .unlockShared t => s.unlockShared A t
  | .resume t => s.resume A t

/-- The scheduler runs only coroutines that are not blocked, and sections are not nested. -/
def Permits (s : SharedConfig n) : Move n → Prop
  | .newTask t task =>
    ¬ (s.control t).Inside ∧ s.isBlocked t = false ∧ ∀ u, u ≠ t → (s.threads u).task ≠ task
  | .lock t | .lockShared t => s.control t = .outside ∧ s.isBlocked t = false
  | .unlock t => s.control t = .holding .exclusive ∧ s.isBlocked t = false
  | .unlockShared t => s.control t = .holding .shared ∧ s.isBlocked t = false
  | .resume t => (s.control t).Inside ∧ s.isBlocked t = false

/-- A new lock, whose queues are empty, and threads that have not used it. -/
structure Initial (A : Addresses) (s : SharedConfig n) : Prop where
  mutex : s.mutex = {}
  locked : s.blocks.queues A.locked = []
  writeEntered : s.blocks.queues A.writeEntered = []
  noReaders : s.blocks.queues A.noReaders = []
  outside : ∀ t, s.control t = .outside
  fstate : ∀ t, (s.threads t).fstate = 0
  tasks : Function.Injective fun t => (s.threads t).task

/-- The states of the runs in which the scheduler resumes only coroutines that are not blocked. -/
def Reachable (A : Addresses) : SharedConfig n → Prop :=
  Reached (fun s m s' => s' = s.move A m) Permits (Initial A)

/-! ### What the parts of an operation change -/

section Lemmas

variable (A : Addresses) (t u : Fin n) (s : SharedConfig n) (addr : ℕ) (point : Control)

theorem readers_congr {s s' : SharedConfig n} (h : s'.held = s.held) : s'.readers = s.readers := by
  rw [readers, readers, h]

theorem held_setBlocked : held (setBlocked t addr s) = s.held :=
  funext fun u => congrArg Control.held (control_setBlocked t u addr s)

theorem readers_setBlocked : readers (setBlocked t addr s) = s.readers :=
  readers_congr (held_setBlocked t s addr)

theorem held_stop : held (stop t point s) = Function.update s.held t point.held := by
  funext u
  rw [held, control_stop, Function.update_apply]
  split <;> rfl

theorem mem_readers {s : SharedConfig n} {t : Fin n} : t ∈ s.readers ↔ s.held t = some .shared := by
  simp [readers]

/-- The readers after a thread has stopped at a point. -/
theorem readers_stop : readers (stop t point s) =
    if point.held = some .shared then insert t s.readers else s.readers.erase t := by
  ext u
  by_cases h : u = t
  · subst h
    by_cases hp : point.held = some .shared
    · simp [mem_readers, held_stop, hp]
    · simp [mem_readers, held_stop, hp]
  · split <;> simp [mem_readers, held_stop, h]

end Lemmas

end SharedConfig

/-! ### Turns -/

open Config SharedConfig

/-- What a step does when nobody holds the inner mutex: a thread begins a new coroutine, waits for
a writer or for readers, or acquires or releases the lock. -/
inductive Turn (A : Addresses) (s : SharedConfig n) : SharedConfig n → Prop
  | newTask {t : Fin n} {task : ℕ} (hcontrol : ¬ (s.control t).Inside) :
      Turn A s (s.newTask t task)
  | awaitWriter {t : Fin n} {point : Control}
      (hpoint : point = .lockAwaitsWriter ∨ point = .sharedAwaitsWriter)
      (hheld : s.held t = none) (hwrite : ∃ u, u ≠ t ∧ s.mutex.write = some u) :
      Turn A s (stop t point (setBlocked t A.writeEntered s))
  | awaitReaders {t : Fin n} (hheld : s.held t = none)
      (hwrite : s.mutex.write = none ∨ s.mutex.write = some t)
      (hqueue : s.blocks.queues A.noReaders = []) (hreaders : 0 < s.mutex.readerCount) :
      Turn A s
        (stop t .lockAwaitsReaders
          (setBlocked t A.noReaders { s with mutex := { s.mutex with write := some t } }))
  | acquireExclusive {t : Fin n} (hheld : s.held t = none)
      (hwrite : s.mutex.write = none ∨ s.mutex.write = some t)
      (hqueue : s.blocks.queues A.noReaders = []) (hreaders : s.mutex.readerCount ≤ 0) :
      Turn A s
        (stop t (.holding .exclusive) { s with mutex := { s.mutex with write := some t } })
  | acquireShared {t : Fin n} (hheld : s.held t = none) (hwrite : s.mutex.write = none) :
      Turn A s
        (stop t (.holding .shared)
          { s with mutex := { s.mutex with readerCount := s.mutex.readerCount + 1 } })
  | releaseExclusive {t : Fin n} (hcontrol : s.control t = .holding .exclusive)
      (hwrite : s.mutex.write = some t) :
      Turn A s (stop t .outside (releaseWriter A s))
  | releaseShared {t : Fin n} (hcontrol : s.control t = .holding .shared)
      (hwrite : s.mutex.write ≠ some t) :
      Turn A s (stop t .outside (releaseReader A s))

/-- What holds of a thread between two steps. -/
structure Placed (A : Addresses) (write : Option (Fin n)) (t : Fin n) (th : Thread Control) :
    Prop where
  /-- Where it can be suspended. -/
  settled : th.control = .outside ∨ (∃ mode, th.control = .holding mode) ∨
    th.control = .lockAwaitsWriter ∨ th.control = .lockAwaitsReaders ∨
    th.control = .sharedAwaitsWriter
  /-- The writer holds the lock or waits for the readers. -/
  writer : write = some t ↔ th.control = .holding .exclusive ∨ th.control = .lockAwaitsReaders
  /-- The addresses it can block on. -/
  fstate : th.fstate = 0 ∨ th.fstate = A.writeEntered ∨ th.fstate = A.noReaders
  /-- A writer that waits for the readers is blocked. -/
  awaits : th.control = .lockAwaitsReaders → th.fstate = A.noReaders

/-- What holds between two steps. -/
structure SharedConfig.Inv (A : Addresses) (s : SharedConfig n) : Prop where
  /-- The flag is not set. -/
  unlocked : s.mutex.locked = false
  /-- Nobody waits for the flag. -/
  nobody : s.blocks.queues A.locked = []
  /-- Each thread is in its place. -/
  placed : ∀ t, Placed A s.mutex.write t (s.threads t)
  /-- The readers are counted. -/
  count : s.mutex.readerCount = s.readers.card
  /-- Who waits for a writer has one to wait for. -/
  writeEntered : s.blocks.queues A.writeEntered ≠ [] → s.mutex.write ≠ none
  /-- Only the writer waits for the readers, and there are some. -/
  noReaders : s.blocks.queues A.noReaders ≠ [] → 0 < s.mutex.readerCount ∧
    ∃ t, s.control t = .lockAwaitsReaders ∧ s.blocks.queues A.noReaders = [(s.threads t).task]

/-! ### A step is a turn -/

namespace SharedConfig

variable {A : Addresses} {s s' : SharedConfig n} {t : Fin n}

theorem lockMutex_of_unlocked (h : s.mutex.locked = false) (point : Control)
    (next : SharedConfig n → SharedConfig n) :
    lockMutex A t point next s = next { s with mutex := { s.mutex with locked := true } } := by
  rw [lockMutex, if_neg (by simp [h])]

namespace Inv

variable (h : s.Inv A)
include h

theorem settled (t : Fin n) : s.control t = .outside ∨ (∃ mode, s.control t = .holding mode) ∨
    s.control t = .lockAwaitsWriter ∨ s.control t = .lockAwaitsReaders ∨
    s.control t = .sharedAwaitsWriter :=
  (h.placed t).settled

theorem writer (t : Fin n) : s.mutex.write = some t ↔
    s.control t = .holding .exclusive ∨ s.control t = .lockAwaitsReaders :=
  (h.placed t).writer

theorem unlockMutex_lock (m : SharedMutex n) (hm : m.locked = false) :
    unlockMutex A { s with mutex := { m with locked := true } } = { s with mutex := m } := by
  rw [unlockMutex, BlockManager.unblockAllOn_of_nil h.nobody, ← hm]

theorem wait_lock (addr : ℕ) (point : Control) (m : SharedMutex n) (hm : m.locked = false) :
    wait A t addr point { s with mutex := { m with locked := true } } =
      stop t point (setBlocked t addr { s with mutex := m }) := by
  rw [wait, h.unlockMutex_lock m hm]

theorem noReaders_eq_nil (hw : s.mutex.write = none) : s.blocks.queues A.noReaders = [] := by
  by_contra hne
  obtain ⟨_, u, hu, _⟩ := h.noReaders hne
  rw [(h.writer u).2 (.inr hu)] at hw
  cases hw

/-- A writer that waits for readers and is not blocked has been notified. -/
theorem noReaders_eq_nil_of_runs (hc : s.control t = .lockAwaitsReaders)
    (hrun : s.isBlocked t = false) : s.blocks.queues A.noReaders = [] := by
  by_contra hne
  obtain ⟨_, u, hu, hq⟩ := h.noReaders hne
  have hut : u = t := by
    have hwu := (h.writer u).2 (.inr hu)
    rw [(h.writer t).2 (.inr hc)] at hwu
    exact (Option.some.inj hwu).symm
  subst hut
  rw [isBlocked, BlockManager.isBlocked, (h.placed u).awaits hc, hq] at hrun
  simp [A.noReaders_ne_zero] at hrun

/-- The second loop of `lock`. -/
theorem turn_lockReaders (hheld : s.held t = none)
    (hwrite : s.mutex.write = none ∨ s.mutex.write = some t)
    (hqueue : s.blocks.queues A.noReaders = []) :
    Turn A s
      (lockReaders A t { s with mutex := { s.mutex with locked := true, write := some t } }) := by
  have hm : ({ s.mutex with write := some t } : SharedMutex n).locked = false := h.unlocked
  rw [lockReaders]
  split
  · rename_i hreaders
    exact h.wait_lock A.noReaders .lockAwaitsReaders { s.mutex with write := some t } hm ▸
      .awaitReaders hheld hwrite hqueue hreaders
  · rename_i hreaders
    exact h.unlockMutex_lock { s.mutex with write := some t } hm ▸
      .acquireExclusive hheld hwrite hqueue (not_lt.1 hreaders)

/-- A thread that has not announced itself as a writer and does not hold the lock. -/
theorem unannounced (hc : s.control t = .outside ∨ s.control t = .lockAwaitsWriter ∨
    s.control t = .sharedAwaitsWriter) : s.held t = none ∧ s.mutex.write ≠ some t := by
  rw [held, Ne, h.writer]
  obtain hc | hc | hc := hc <;> rw [hc] <;> decide

/-- The first loop of `lock`. -/
theorem turn_lockWriter (hfree : s.held t = none ∧ s.mutex.write ≠ some t) :
    Turn A s (lockWriter A t { s with mutex := { s.mutex with locked := true } }) := by
  obtain ⟨hheld, hwrite⟩ := hfree
  rw [lockWriter]
  cases hw : s.mutex.write with
  | none =>
    rw [if_neg (by simp [SharedMutex.hasWrite, hw])]
    exact h.turn_lockReaders hheld (.inl hw) (h.noReaders_eq_nil hw)
  | some u =>
    rw [if_pos (by simp [SharedMutex.hasWrite, hw]), h.wait_lock _ _ _ h.unlocked]
    exact .awaitWriter (.inl rfl) hheld ⟨u, fun hut => hwrite (hut ▸ hw), hw⟩

/-- The loop of `lock_shared`. -/
theorem turn_lockSharedWriter (hfree : s.held t = none ∧ s.mutex.write ≠ some t) :
    Turn A s (lockSharedWriter A t { s with mutex := { s.mutex with locked := true } }) := by
  obtain ⟨hheld, hwrite⟩ := hfree
  rw [lockSharedWriter]
  cases hw : s.mutex.write with
  | none =>
    rw [if_neg (by simp [SharedMutex.hasWrite, hw])]
    exact h.unlockMutex_lock { s.mutex with readerCount := s.mutex.readerCount + 1 } h.unlocked ▸
      .acquireShared hheld hw
  | some u =>
    rw [if_pos (by simp [SharedMutex.hasWrite, hw]), h.wait_lock _ _ _ h.unlocked]
    exact .awaitWriter (.inr rfl) hheld ⟨u, fun hut => hwrite (hut ▸ hw), hw⟩

theorem unlockMutex_releaseWriter :
    unlockMutex A (releaseWriter A { s with mutex := { s.mutex with locked := true } }) =
      releaseWriter A s := by
  have hq : (s.blocks.unblockAllOn A.writeEntered).queues A.locked = [] := by
    rw [← h.nobody]
    exact Function.update_of_ne A.locked_ne_writeEntered _ _
  simp only [unlockMutex, releaseWriter, notifyAll, BlockManager.unblockAllOn_of_nil hq, h.unlocked]

theorem unlockMutex_releaseReader :
    unlockMutex A (releaseReader A { s with mutex := { s.mutex with locked := true } }) =
      releaseReader A s := by
  have hq : (s.blocks.unblockOn A.noReaders 1).2.queues A.locked = [] := by
    rw [← h.nobody]
    exact Function.update_of_ne A.locked_ne_noReaders _ _
  by_cases hlast : (s.mutex.hasWrite && s.mutex.readerCount - 1 == 0) = true
  · simp only [SharedMutex.hasWrite] at hlast
    simp only [releaseReader, SharedMutex.hasWrite, hlast, if_true, unlockMutex, notifyOne,
      BlockManager.unblockAllOn_of_nil hq, h.unlocked]
  · simp only [SharedMutex.hasWrite] at hlast
    simp only [releaseReader, SharedMutex.hasWrite, hlast]
    exact h.unlockMutex_lock { s.mutex with readerCount := s.mutex.readerCount - 1 } h.unlocked

theorem turn_release {mode : Mode} (hc : s.control t = .holding mode) :
    Turn A s (release A t { s with mutex := { s.mutex with locked := true } }) := by
  -- only the thread id tells `unlock` whether its caller is a writer
  cases mode with
  | exclusive =>
    have hw := (h.writer t).2 (.inl hc)
    rw [release, if_pos hw, h.unlockMutex_releaseWriter]
    exact .releaseExclusive hc hw
  | shared =>
    have hw : s.mutex.write ≠ some t := by
      rw [Ne, h.writer, hc]
      decide
    rw [release, if_neg hw, h.unlockMutex_releaseReader]
    exact .releaseShared hc hw

/-- **A step is a turn.** -/
theorem turn {m : Move n} (hm : s.Permits m) : Turn A s (s.move A m) := by
  cases m with
  | newTask t task => exact .newTask hm.1
  | lock t =>
    rw [move, lock, lockMutex_of_unlocked h.unlocked]
    exact h.turn_lockWriter (h.unannounced (.inl hm.1))
  | lockShared t =>
    rw [move, lockShared, lockMutex_of_unlocked h.unlocked]
    exact h.turn_lockSharedWriter (h.unannounced (.inl hm.1))
  | unlock t =>
    rw [move, unlock, lockMutex_of_unlocked h.unlocked]
    exact h.turn_release hm.1
  | unlockShared t =>
    rw [move, unlockShared, unlock, lockMutex_of_unlocked h.unlocked]
    exact h.turn_release hm.1
  | resume t =>
    obtain ⟨hinside, hrun⟩ := hm
    rw [move, resume]
    obtain hc | ⟨mode, hc⟩ | hc | hc | hc := h.settled t
    · rw [hc] at hinside
      exact hinside.elim
    · rw [hc] at hinside
      exact hinside.elim
    · rw [hc]
      simp only
      rw [lockMutex_of_unlocked h.unlocked]
      exact h.turn_lockWriter (h.unannounced (.inr (.inl hc)))
    · rw [hc]
      simp only
      rw [lockMutex_of_unlocked h.unlocked]
      have hw := (h.writer t).2 (.inr hc)
      have hturn := h.turn_lockReaders (by rw [held, hc]; rfl) (.inr hw)
        (h.noReaders_eq_nil_of_runs hc hrun)
      rwa [← hw] at hturn
    · rw [hc]
      simp only
      rw [lockMutex_of_unlocked h.unlocked]
      exact h.turn_lockSharedWriter (h.unannounced (.inr (.inr hc)))

end Inv

end SharedConfig

end Blocking

end LTest
