import Mathlib.Data.Finset.Erase
import Mathlib.Data.Finset.Lattice.Lemmas

/-!
# Waiters of a shared mutex

The queue of waiting operations that the specifications of shared mutexes have in common. A queue
grows at its end. At its front one exclusive waiter is taken, or all shared waiters up to the first
exclusive one; either way those that stay keep their order.

## Main definitions

* `Waiter` — an operation in the queue
* `LockValue` — the results of the methods of a mutex
* `SharedMutexState` — the fields of a shared mutex
* `SharedMutexState.Queued` — what holds of the requests in every run
* `SharedMutexState.Behind` — a shared request that has to wait for an exclusive one

## Main results

* `SharedMutexState.wakeShared_eq` — what waking the readers at the front does
* `pair_sublist_cons`, `pair_sublist_dropWhile` — the order of those that stay
* `nodup_dropWhile` — those that stay are not among those that are taken
* `SharedMutexState.Queued.step` — what a call may do to the requests
-/

namespace LTest

namespace Specs

/-- `Waiter`. -/
structure Waiter where
  /-- The operation. -/
  opId : ℤ
  /-- Whether it waits for the exclusive lock. -/
  exclusive : Bool
  deriving DecidableEq

/-- The results of the methods of a mutex: `ValueWrapper` with a Boolean, or `void_v`. -/
inductive LockValue
  | bool (b : Bool)
  | void
  deriving DecidableEq

/-- `GetValue<bool>`. -/
def LockValue.getBool : LockValue → Except String Bool
  | .bool b => .ok b
  | .void => .error "bad any_cast"

/-! ### The state of a shared mutex -/

/-- The fields of the specifications of shared mutexes. -/
structure SharedMutexState where
  /-- The number of readers that have the lock. -/
  activeReaders : ℕ := 0
  /-- Whether a writer has the lock. -/
  writerActive : Bool := false
  /-- Those that wait, in the order of their requests. -/
  waiters : List Waiter := []
  /-- The writers that are granted the lock. -/
  readyLocks : Finset ℤ := ∅
  /-- The readers that are granted the lock. -/
  readySharedLocks : Finset ℤ := ∅
  deriving DecidableEq

namespace SharedMutexState

/-- The loop of `WakeNextWaiters` over the waiters; for each reader that is granted the lock, `n`
readers are counted. -/
def wakeShared (n : ℕ) : List Waiter → SharedMutexState → SharedMutexState
  | [], s => s
  | w :: rest, s =>
    if w.exclusive then s
    else
      wakeShared n rest
        { s with
          waiters := rest
          activeReaders := s.activeReaders + n
          readySharedLocks := insert w.opId s.readySharedLocks }

/-- **The readers at the front are granted the lock.** -/
theorem wakeShared_eq {n : ℕ} {s : SharedMutexState} {waiting : List Waiter}
    (hs : s.waiters = waiting) :
    wakeShared n waiting s =
      { s with
        waiters := waiting.dropWhile (!·.exclusive)
        activeReaders := s.activeReaders + (waiting.takeWhile (!·.exclusive)).length * n
        readySharedLocks := s.readySharedLocks ∪
          ((waiting.takeWhile (!·.exclusive)).map Waiter.opId).toFinset } := by
  induction waiting generalizing s with
  | nil =>
    cases s
    simp_all [wakeShared]
  | cons w rest ih =>
    rw [wakeShared]
    cases hw : w.exclusive with
    | true =>
      cases s
      simp_all
    | false =>
      rw [if_neg Bool.false_ne_true, ih rfl]
      simp [hw, Finset.insert_union, Nat.succ_mul, Nat.add_assoc, Nat.add_comm n]

end SharedMutexState

/-! ### Order in a queue -/

/-- What stands in a queue in this order still does so after entries of another kind than the first
are taken from its front. -/
theorem pair_sublist_dropWhile {α : Type} {p : α → Bool} {x y : α} (hx : p x = false) {l : List α}
    (h : [x, y].Sublist l) : [x, y].Sublist (l.dropWhile p) := by
  induction l with
  | nil => cases h
  | cons a l ih =>
    by_cases ha : p a = true
    · rw [List.dropWhile_cons_of_pos ha]
      cases h with
      | cons _ h => exact ih h
      | cons_cons _ h => exact absurd (hx.symm.trans ha) Bool.false_ne_true
    · rw [List.dropWhile_cons_of_neg ha]
      exact h

/-- The front of a queue is the first of two entries, or both still stand in the rest. -/
theorem pair_sublist_cons {α : Type} {a x y : α} {l : List α} (h : [x, y].Sublist (a :: l)) :
    a = x ∧ y ∈ l ∨ [x, y].Sublist l := by
  cases h with
  | cons _ h => exact .inr h
  | cons_cons _ h => exact .inl ⟨rfl, List.singleton_sublist.mp h⟩

/-- The ids of those that stay in the queue are distinct, and differ from those that are taken. -/
theorem nodup_dropWhile {waiters : List Waiter} (h : (waiters.map Waiter.opId).Nodup)
    (p : Waiter → Bool) :
    ((waiters.takeWhile p).map Waiter.opId).Nodup ∧ ((waiters.dropWhile p).map Waiter.opId).Nodup ∧
      ∀ w ∈ waiters.dropWhile p, w.opId ∉ (waiters.takeWhile p).map Waiter.opId := by
  rw [← List.takeWhile_append_dropWhile (p := p) (l := waiters), List.map_append,
    List.nodup_append] at h
  refine ⟨h.1, h.2.1, fun w hw hmem => ?_⟩
  exact h.2.2 _ hmem _ (List.mem_map_of_mem hw) rfl

namespace SharedMutexState

variable {s s' : SharedMutexState} {ids ids' : List ℤ} {opId x y : ℤ} {w : Waiter}
  {rest : List Waiter}

/-! ### The requests of a run -/

/-- The request is granted the lock. -/
def Ready (s : SharedMutexState) (opId : ℤ) : Prop :=
  opId ∈ s.readyLocks ∨ opId ∈ s.readySharedLocks

/-- The requests have distinct ids among `ids`, and a request is queued or ready, but not both. -/
structure Queued (s : SharedMutexState) (ids : List ℤ) : Prop where
  /-- The requests in the queue have distinct ids. -/
  nodup : (s.waiters.map Waiter.opId).Nodup
  /-- What is queued is not ready. -/
  not_ready : ∀ w ∈ s.waiters, ¬ s.Ready w.opId
  /-- What is queued was requested. -/
  waiter_ids : ∀ w ∈ s.waiters, w.opId ∈ ids
  /-- What is ready was requested. -/
  ready_ids : ∀ a, s.Ready a → a ∈ ids

namespace Queued

section

variable (h : s.Queued ids)
include h

/-- No waiter is added, and what becomes ready does not wait any more. -/
theorem step (hwaiters : s'.waiters.Sublist s.waiters) (hids : ids ⊆ ids')
    (hready : ∀ a, s'.Ready a → s.Ready a ∨ a ∈ ids' ∧ ∀ w ∈ s'.waiters, w.opId ≠ a) :
    s'.Queued ids' where
  nodup := h.nodup.sublist (hwaiters.map _)
  not_ready w hw hr := by
    obtain hr | ⟨-, hne⟩ := hready _ hr
    · exact h.not_ready w (hwaiters.subset hw) hr
    · exact hne w hw rfl
  waiter_ids w hw := hids (h.waiter_ids w (hwaiters.subset hw))
  ready_ids a ha := by
    obtain ha | ⟨ha, -⟩ := hready a ha
    · exact hids (h.ready_ids a ha)
    · exact ha

theorem completeWriter (opId : ℤ) :
    Queued { s with readyLocks := s.readyLocks.erase opId } ids :=
  h.step (.refl _) (.refl _) fun _ ha => .inl (ha.imp_left Finset.mem_of_mem_erase)

theorem completeReader (opId : ℤ) :
    Queued { s with readySharedLocks := s.readySharedLocks.erase opId } ids :=
  h.step (.refl _) (.refl _) fun _ ha => .inl (ha.imp_right Finset.mem_of_mem_erase)

theorem grant (hnew : opId ∉ ids) (hwaiters : s'.waiters = s.waiters)
    (hready : ∀ a, s'.Ready a → a = opId ∨ s.Ready a) : s'.Queued (ids ++ [opId]) := by
  refine h.step (hwaiters ▸ List.Sublist.refl _) (List.subset_append_left _ _) fun a ha => ?_
  obtain rfl | ha := hready a ha
  · refine .inr ⟨List.mem_append_right _ (List.mem_singleton_self a), fun w hw hne => hnew ?_⟩
    exact hne ▸ h.waiter_ids w (hwaiters ▸ hw)
  · exact .inl ha

theorem grantWriter (hnew : opId ∉ ids) :
    Queued { s with readyLocks := insert opId s.readyLocks } (ids ++ [opId]) :=
  h.grant hnew rfl fun _ ha =>
    (ha.imp_left Finset.mem_insert.mp).elim (·.imp_right .inl) (.inr ∘ .inr)

theorem grantReader (hnew : opId ∉ ids) :
    Queued { s with readySharedLocks := insert opId s.readySharedLocks } (ids ++ [opId]) :=
  h.grant hnew rfl fun _ ha =>
    (ha.imp_right Finset.mem_insert.mp).elim (.inr ∘ .inl) (·.imp_right .inr)

theorem append (hnew : opId ∉ ids) (exclusive : Bool) :
    Queued { s with waiters := s.waiters ++ [⟨opId, exclusive⟩] } (ids ++ [opId]) where
  nodup := by
    rw [List.map_append, List.nodup_append]
    refine ⟨h.nodup, List.nodup_singleton opId, ?_⟩
    rintro a ha b hb rfl
    obtain ⟨w, hw, rfl⟩ := List.mem_map.mp ha
    have hid : w.opId = opId := List.mem_singleton.mp hb
    exact hnew (hid ▸ h.waiter_ids w hw)
  not_ready w hw ha := by
    rcases List.mem_append.mp hw with hw | hw
    · exact h.not_ready w hw ha
    · rw [List.mem_singleton.mp hw] at ha
      exact hnew (h.ready_ids opId ha)
  waiter_ids w hw := by
    rcases List.mem_append.mp hw with hw | hw
    · exact List.mem_append_left _ (h.waiter_ids w hw)
    · rw [List.mem_singleton.mp hw]
      exact List.mem_append_right _ (List.mem_singleton_self opId)
  ready_ids a ha := List.mem_append_left _ (h.ready_ids a ha)

theorem wakeWriter (hwaiters : s.waiters = w :: rest) :
    Queued { s with waiters := rest, readyLocks := insert w.opId s.readyLocks } ids := by
  have hnodup := h.nodup
  rw [hwaiters, List.map_cons, List.nodup_cons] at hnodup
  refine h.step (hwaiters ▸ List.sublist_cons_self w rest) (List.Subset.refl _) fun a ha => ?_
  rcases ha with ha | ha
  · rcases Finset.mem_insert.mp ha with rfl | ha
    · refine .inr ⟨h.waiter_ids w (hwaiters ▸ List.mem_cons_self), fun w' hw' hne => hnodup.1 ?_⟩
      exact hne ▸ List.mem_map_of_mem hw'
    · exact .inl (.inl ha)
  · exact .inl (.inr ha)

/-- Some waiters at the front of the queue are granted the lock. -/
theorem wakeReaders (p : Waiter → Bool) :
    Queued { s with
      waiters := s.waiters.dropWhile p
      readySharedLocks :=
        s.readySharedLocks ∪ ((s.waiters.takeWhile p).map Waiter.opId).toFinset } ids := by
  obtain ⟨-, -, hapart⟩ := nodup_dropWhile h.nodup p
  refine h.step (List.dropWhile_sublist _) (List.Subset.refl _) fun a ha => ?_
  rcases ha with ha | ha
  · exact .inl (.inl ha)
  rcases Finset.mem_union.mp ha with ha | ha
  · exact .inl (.inr ha)
  · have htaken := List.mem_toFinset.mp ha
    obtain ⟨w, hw, rfl⟩ := List.mem_map.mp htaken
    exact .inr ⟨h.waiter_ids w ((List.takeWhile_sublist _).subset hw),
      fun w' hw' hne => hapart w' hw' (hne ▸ htaken)⟩

end

theorem init : Queued {} [] := ⟨List.nodup_nil, nofun, nofun, nofun⟩

end Queued

/-! ### Two requests -/

/-- The shared request `y` is queued behind the exclusive request `x`, or `x` has been granted the
lock and `y` is queued. -/
def Behind (s : SharedMutexState) (x y : ℤ) : Prop :=
  [⟨x, true⟩, ⟨y, false⟩].Sublist s.waiters ∨ x ∈ s.readyLocks ∧ ⟨y, false⟩ ∈ s.waiters

theorem Behind.mem_waiters (h : s.Behind x y) : ⟨y, false⟩ ∈ s.waiters := by
  rcases h with h | h
  · exact h.subset (List.mem_cons_of_mem _ (List.mem_singleton_self _))
  · exact h.2

theorem Behind.append (h : s.Behind x y) (w : Waiter) :
    Behind { s with waiters := s.waiters ++ [w] } x y := by
  rcases h with h | ⟨hx, hy⟩
  · exact .inl (h.trans (List.sublist_append_left _ _))
  · exact .inr ⟨hx, List.mem_append_left _ hy⟩

theorem behind_wakeWriter (h : [⟨x, true⟩, ⟨y, false⟩].Sublist s.waiters)
    (hwaiters : s.waiters = w :: rest) :
    Behind { s with waiters := rest, readyLocks := insert w.opId s.readyLocks } x y := by
  rw [hwaiters] at h
  rcases pair_sublist_cons h with ⟨rfl, hy⟩ | h
  · exact .inr ⟨Finset.mem_insert_self x _, hy⟩
  · exact .inl h

end SharedMutexState

end Specs

end LTest
