import LTest.Lincheck.DualHistory
import LTest.Specs.Waiters
import Mathlib.Data.Finset.Card

/-!
# The specification of a shared mutex that strands no waiter

`LibcoroSharedMutex` is the sequential specification of a shared mutex. A request that is granted
takes the lock at once, and its follow-up only completes the operation; so `writer_active` and
`active_readers` count those that were granted the lock, whether they have completed or not. A
release hands the lock on to the front of the queue.

A run keeps count of the completed acquisitions that have not been released. Together with the
granted ones that are not completed they are the holders of the lock, and this is why a release
leaves the lock free exactly when the last holder goes.

## Main definitions

* `LibcoroSharedMutex` and its operations — the specification
* `LibcoroSharedMutex.Run` — a run, with the acquisitions that were completed and not released
* `LibcoroSharedMutex.Run.Valid` — requests have new ids, and only holders release

## Main results

* `LibcoroSharedMutex.strands_no_waiter` — exclusion, nobody waits for a free lock, and no shared
  request is granted before an exclusive one that was queued earlier
* `LibcoroSharedMutex.applies_call` — the phases the checker applies are calls
-/

namespace LTest

namespace Specs

open Lincheck

/-- `LibcoroSharedMutex`. -/
structure LibcoroSharedMutex extends SharedMutexState
  deriving DecidableEq

namespace LibcoroSharedMutex

/-- `HasExclusiveWaiter`. -/
def hasExclusiveWaiter (s : LibcoroSharedMutex) : Bool := s.waiters.any (·.exclusive)

/-- `WakeNextWaiters`. -/
def wakeNextWaiters (s : LibcoroSharedMutex) : LibcoroSharedMutex :=
  if s.writerActive || s.activeReaders ≠ 0 then s
  else
    match s.waiters with
    | [] => s
    | w :: rest =>
      if w.exclusive then
        { s with
          waiters := rest
          writerActive := true
          readyLocks := insert w.opId s.readyLocks }
      else { s with toSharedMutexState := s.wakeShared 1 s.waiters }

/-- `RequestLock`. -/
def requestLock (opId : ℤ) (s : LibcoroSharedMutex) : LibcoroSharedMutex :=
  if !s.writerActive && s.activeReaders = 0 then
    { s with writerActive := true, readyLocks := insert opId s.readyLocks }
  else { s with waiters := s.waiters ++ [⟨opId, true⟩] }

/-- `FollowUpLock`. -/
def followUpLock (opId : ℤ) (s : LibcoroSharedMutex) : Option LockValue × LibcoroSharedMutex :=
  if opId ∉ s.readyLocks then (none, s)
  else (some .void, { s with readyLocks := s.readyLocks.erase opId })

/-- `RequestLockShared`. -/
def requestLockShared (opId : ℤ) (s : LibcoroSharedMutex) : LibcoroSharedMutex :=
  if !s.writerActive && !s.hasExclusiveWaiter then
    { s with
      activeReaders := s.activeReaders + 1
      readySharedLocks := insert opId s.readySharedLocks }
  else { s with waiters := s.waiters ++ [⟨opId, false⟩] }

/-- `FollowUpLockShared`. -/
def followUpLockShared (opId : ℤ) (s : LibcoroSharedMutex) :
    Option LockValue × LibcoroSharedMutex :=
  if opId ∉ s.readySharedLocks then (none, s)
  else (some .void, { s with readySharedLocks := s.readySharedLocks.erase opId })

/-- `Unlock`. -/
def unlock (s : LibcoroSharedMutex) : LibcoroSharedMutex :=
  { s with writerActive := false }.wakeNextWaiters

/-- `UnlockShared`. -/
def unlockShared (s : LibcoroSharedMutex) : LibcoroSharedMutex :=
  let s := { s with activeReaders := s.activeReaders - 1 }
  if s.activeReaders = 0 then s.wakeNextWaiters else s

/-- `GetDualMethods`. The methods have no arguments. -/
def getDualMethods : DualMethodMap LibcoroSharedMutex Unit LockValue
  | "lock" =>
    some (.blocking (fun s _ opId => s.requestLock opId) fun s _ opId => s.followUpLock opId)
  | "lock_shared" =>
    some (.blocking (fun s _ opId => s.requestLockShared opId)
      fun s _ opId => s.followUpLockShared opId)
  | "unlock" => some (.nonBlocking fun s _ => (.void, s.unlock))
  | "unlock_shared" => some (.nonBlocking fun s _ => (.void, s.unlockShared))
  | _ => none

/-! ### Runs -/

/-- A call of one of the operations. -/
inductive Call
  | requestLock (opId : ℤ)
  | followUpLock (opId : ℤ)
  | requestLockShared (opId : ℤ)
  | followUpLockShared (opId : ℤ)
  | unlock
  | unlockShared
  deriving DecidableEq

/-- The state after a call. -/
def call (s : LibcoroSharedMutex) : Call → LibcoroSharedMutex
  | .requestLock opId => s.requestLock opId
  | .followUpLock opId => (s.followUpLock opId).2
  | .requestLockShared opId => s.requestLockShared opId
  | .followUpLockShared opId => (s.followUpLockShared opId).2
  | .unlock => s.unlock
  | .unlockShared => s.unlockShared

/-- A run. -/
structure Run where
  /-- The state. -/
  state : LibcoroSharedMutex := {}
  /-- The completed exclusive acquisitions that were not released. -/
  held : ℕ := 0
  /-- The completed shared acquisitions that were not released. -/
  heldShared : ℕ := 0
  /-- The ids of the requests. -/
  ids : List ℤ := []

/-- The run after a call. -/
def Run.call (r : Run) (c : Call) : Run :=
  let r' := { r with state := r.state.call c }
  match c with
  | .requestLock opId | .requestLockShared opId => { r' with ids := r.ids ++ [opId] }
  | .followUpLock opId =>
    if (r.state.followUpLock opId).1.isSome then { r' with held := r.held + 1 } else r'
  | .followUpLockShared opId =>
    if (r.state.followUpLockShared opId).1.isSome then { r' with heldShared := r.heldShared + 1 }
    else r'
  | .unlock => { r' with held := r.held - 1 }
  | .unlockShared => { r' with heldShared := r.heldShared - 1 }

/-- A request has a new id, and a release follows a completed acquisition of its kind. -/
def Run.Permits (r : Run) : Call → Prop
  | .requestLock opId | .requestLockShared opId => opId ∉ r.ids
  | .unlock => 0 < r.held
  | .unlockShared => 0 < r.heldShared
  | _ => True

instance (r : Run) (c : Call) : Decidable (r.Permits c) := by
  cases c <;> unfold Run.Permits <;> infer_instance

/-- The run after a sequence of calls. -/
def Run.after (r : Run) (calls : List Call) : Run := calls.foldl Run.call r

/-- All calls of a sequence are permitted. -/
def Run.Valid (r : Run) : List Call → Prop
  | [] => True
  | c :: calls => r.Permits c ∧ (r.call c).Valid calls

instance Run.decidableValid : (r : Run) → (calls : List Call) → Decidable (r.Valid calls)
  | _, [] => .isTrue trivial
  | r, c :: calls =>
    have := (r.call c).decidableValid calls
    inferInstanceAs (Decidable (r.Permits c ∧ (r.call c).Valid calls))

theorem Run.after_append (r : Run) (calls calls' : List Call) :
    r.after (calls ++ calls') = (r.after calls).after calls' :=
  List.foldl_append

theorem Run.valid_append {r : Run} {calls calls' : List Call} :
    r.Valid (calls ++ calls') ↔ r.Valid calls ∧ (r.after calls).Valid calls' := by
  induction calls generalizing r with
  | nil => exact (iff_of_eq (true_and _)).symm
  | cons c calls ih =>
    show r.Permits c ∧ (r.call c).Valid (calls ++ calls') ↔ _
    rw [ih, ← and_assoc]
    rfl

/-! ### The invariant -/

variable {r : Run} {s : LibcoroSharedMutex}

/-- What waking the waiters does to a free lock: it stays free if nobody waits, it is handed to the
writer at the front, or to the readers at the front. -/
theorem wakeNextWaiters_of_free (hwriter : s.writerActive = false)
    (hreaders : s.activeReaders = 0) :
    (s.waiters = [] ∧ s.wakeNextWaiters = s) ∨
    (∃ w rest, s.waiters = w :: rest ∧ w.exclusive = true ∧
      s.wakeNextWaiters =
        { s with
          waiters := rest
          writerActive := true
          readyLocks := insert w.opId s.readyLocks }) ∨
    (∃ w rest, s.waiters = w :: rest ∧ w.exclusive = false) ∧
      s.wakeNextWaiters =
        { s with
          waiters := s.waiters.dropWhile (!·.exclusive)
          activeReaders := (s.waiters.takeWhile (!·.exclusive)).length
          readySharedLocks := s.readySharedLocks ∪
            ((s.waiters.takeWhile (!·.exclusive)).map Waiter.opId).toFinset } := by
  rw [wakeNextWaiters, hwriter, hreaders, if_neg (by decide)]
  split
  · rename_i hwaiters
    exact .inl ⟨hwaiters, rfl⟩
  · rename_i w rest hwaiters
    split
    · rename_i hw
      exact .inr (.inl ⟨w, rest, hwaiters, hw, rfl⟩)
    · rename_i hw
      refine .inr (.inr ⟨⟨w, rest, hwaiters, Bool.eq_false_iff.mpr hw⟩, ?_⟩)
      rw [SharedMutexState.wakeShared_eq rfl, hreaders, Nat.zero_add, Nat.mul_one, hwriter]

/-- The bookkeeping of a run. -/
structure Run.Counted (r : Run) : Prop extends r.state.toSharedMutexState.Queued r.ids where
  /-- The lock excludes. -/
  exclusion : r.state.writerActive = true → r.state.activeReaders = 0
  /-- The writers that have the lock completed their acquisition or were granted it. -/
  writers : r.held + r.state.readyLocks.card = if r.state.writerActive then 1 else 0
  /-- So did the readers. -/
  readers : r.heldShared + r.state.readySharedLocks.card = r.state.activeReaders

/-- The invariant. -/
structure Run.Inv (r : Run) : Prop extends r.Counted where
  /-- Nobody waits for a lock that is free. -/
  waiting : r.state.waiters ≠ [] → r.state.writerActive = true ∨ 0 < r.state.activeReaders

namespace Run

theorem Inv.init : Inv {} := ⟨⟨.init, nofun, rfl, rfl⟩, fun h => absurd rfl h⟩

/-- Waking the waiters of a free lock leaves nobody waiting for it. -/
theorem Counted.wakeNextWaiters (h : r.Counted) (hwriter : r.state.writerActive = false)
    (hreaders : r.state.activeReaders = 0) : Inv { r with state := r.state.wakeNextWaiters } := by
  have hlocks := h.writers
  have hshared := h.readers
  rw [hwriter, if_neg Bool.false_ne_true] at hlocks
  rw [hreaders] at hshared
  obtain ⟨hwaiters, hwake⟩ | ⟨w, rest, hwaiters, -, hwake⟩ | ⟨⟨w, rest, hwaiters, hw⟩, hwake⟩ :=
    wakeNextWaiters_of_free hwriter hreaders
  · rw [hwake]
    exact { h with waiting := fun hne => absurd hwaiters hne }
  · have hready := h.not_ready w (hwaiters ▸ List.mem_cons_self)
    rw [hwake]
    exact { h.toQueued.wakeWriter hwaiters with
      exclusion := fun _ => hreaders
      writers := by
        rw [Finset.card_insert_of_notMem fun ha => hready (.inl ha), if_pos rfl]
        dsimp only
        omega
      readers := h.readers
      waiting := fun _ => .inl rfl }
  · have hempty : r.state.readySharedLocks = ∅ := Finset.card_eq_zero.mp (by omega)
    rw [hwake]
    exact { h.toQueued.wakeReaders (!·.exclusive) with
      exclusion := fun hactive => absurd (hwriter.symm.trans hactive) Bool.false_ne_true
      writers := h.writers
      readers := by
        have htaken := (nodup_dropWhile h.nodup (!·.exclusive)).1
        dsimp only
        rw [hempty, Finset.empty_union, List.toFinset_card_of_nodup htaken, List.length_map]
        omega
      waiting := fun _ => .inr (by simp [hwaiters, hw]) }

namespace Inv

theorem append (h : r.Inv) {opId : ℤ} (hnew : opId ∉ r.ids)
    (hheld : r.state.writerActive = true ∨ 0 < r.state.activeReaders) (exclusive : Bool) :
    Inv { r with
      state := { r.state with waiters := r.state.waiters ++ [⟨opId, exclusive⟩] }
      ids := r.ids ++ [opId] } :=
  { h.toQueued.append hnew exclusive, h with waiting := fun _ => hheld }

theorem requestLock (h : r.Inv) {opId : ℤ} (hnew : opId ∉ r.ids) :
    (r.call (.requestLock opId)).Inv := by
  show Inv { r with state := r.state.requestLock opId, ids := r.ids ++ [opId] }
  rw [LibcoroSharedMutex.requestLock]
  split
  · rename_i hfree
    simp only [Bool.and_eq_true, Bool.not_eq_true', decide_eq_true_eq] at hfree
    obtain ⟨hwriter, hreaders⟩ := hfree
    have hlocks := h.writers
    rw [hwriter, if_neg Bool.false_ne_true] at hlocks
    have hready : opId ∉ r.state.readyLocks := fun ha => hnew (h.ready_ids opId (.inl ha))
    exact { h.toQueued.grantWriter hnew, h with
      exclusion := fun _ => hreaders
      writers := by
        rw [Finset.card_insert_of_notMem hready, if_pos rfl]
        dsimp only
        omega
      waiting := fun _ => .inl rfl }
  · rename_i hheld
    refine h.append hnew ?_ true
    cases hwriter : r.state.writerActive with
    | true => exact .inl rfl
    | false =>
      rw [hwriter] at hheld
      exact .inr (Nat.pos_of_ne_zero fun hreaders => hheld (by simp [hreaders]))

theorem requestLockShared (h : r.Inv) {opId : ℤ} (hnew : opId ∉ r.ids) :
    (r.call (.requestLockShared opId)).Inv := by
  show Inv { r with state := r.state.requestLockShared opId, ids := r.ids ++ [opId] }
  rw [LibcoroSharedMutex.requestLockShared]
  split
  · rename_i hfree
    simp only [Bool.and_eq_true, Bool.not_eq_true'] at hfree
    have hready : opId ∉ r.state.readySharedLocks := fun ha => hnew (h.ready_ids opId (.inr ha))
    exact { h.toQueued.grantReader hnew, h with
      exclusion := fun hwriter => absurd (hfree.1.symm.trans hwriter) Bool.false_ne_true
      readers := by
        rw [Finset.card_insert_of_notMem hready, ← h.readers, Nat.add_assoc]
      waiting := fun _ => .inr (Nat.succ_pos _) }
  · rename_i hheld
    refine h.append hnew ?_ false
    cases hwriter : r.state.writerActive with
    | true => exact .inl rfl
    | false =>
      -- an exclusive waiter waits for a lock that is held
      rw [hwriter] at hheld
      have hwait := h.waiting fun hnil => hheld (by simp [hasExclusiveWaiter, hnil])
      rwa [hwriter] at hwait

theorem followUpLock (h : r.Inv) (opId : ℤ) : (r.call (.followUpLock opId)).Inv := by
  by_cases hready : opId ∈ r.state.readyLocks
  · have hcall : r.call (.followUpLock opId) =
        { r with
          state := { r.state with readyLocks := r.state.readyLocks.erase opId }
          held := r.held + 1 } := by
      simp [Run.call, LibcoroSharedMutex.call, LibcoroSharedMutex.followUpLock, hready]
    rw [hcall]
    exact { h.toQueued.completeWriter opId, h with
      writers := by
        rw [← h.writers, ← Finset.card_erase_add_one hready]
        dsimp only
        omega }
  · have hcall : r.call (.followUpLock opId) = r := by
      simp [Run.call, LibcoroSharedMutex.call, LibcoroSharedMutex.followUpLock, hready]
    rwa [hcall]

theorem followUpLockShared (h : r.Inv) (opId : ℤ) : (r.call (.followUpLockShared opId)).Inv := by
  by_cases hready : opId ∈ r.state.readySharedLocks
  · have hcall : r.call (.followUpLockShared opId) =
        { r with
          state := { r.state with readySharedLocks := r.state.readySharedLocks.erase opId }
          heldShared := r.heldShared + 1 } := by
      simp [Run.call, LibcoroSharedMutex.call, LibcoroSharedMutex.followUpLockShared, hready]
    rw [hcall]
    exact { h.toQueued.completeReader opId, h with
      readers := by
        rw [← h.readers, ← Finset.card_erase_add_one hready]
        dsimp only
        omega }
  · have hcall : r.call (.followUpLockShared opId) = r := by
      simp [Run.call, LibcoroSharedMutex.call, LibcoroSharedMutex.followUpLockShared, hready]
    rwa [hcall]

/-- The writer that releases the lock is its only holder. -/
theorem unlock (h : r.Inv) (hheld : 0 < r.held) : (r.call .unlock).Inv := by
  have hwriters := h.writers
  have hwriter : r.state.writerActive = true := by
    by_contra hwriter
    rw [if_neg hwriter] at hwriters
    omega
  rw [if_pos hwriter] at hwriters
  have hfree : Counted
      { r with state := { r.state with writerActive := false }, held := r.held - 1 } :=
    { h with
      exclusion := nofun
      writers := by
        rw [if_neg Bool.false_ne_true]
        dsimp only
        omega }
  exact hfree.wakeNextWaiters rfl (h.exclusion hwriter)

/-- The last reader that releases the lock is its only holder. -/
theorem unlockShared (h : r.Inv) (hheld : 0 < r.heldShared) : (r.call .unlockShared).Inv := by
  have hreaders := h.readers
  have hpos : 0 < r.state.activeReaders := by omega
  have hwriter : r.state.writerActive = false :=
    Bool.eq_false_iff.mpr fun hwriter => Nat.ne_of_gt hpos (h.exclusion hwriter)
  have hleft : Counted
      { r with
        state := { r.state with activeReaders := r.state.activeReaders - 1 }
        heldShared := r.heldShared - 1 } :=
    { h with
      exclusion := fun hactive => absurd (hwriter.symm.trans hactive) Bool.false_ne_true
      readers := by
        dsimp only
        omega }
  show Inv { r with state := r.state.unlockShared, heldShared := r.heldShared - 1 }
  rw [LibcoroSharedMutex.unlockShared]
  dsimp only
  split
  · rename_i hlast
    exact hleft.wakeNextWaiters hwriter hlast
  · rename_i hmore
    exact { hleft with waiting := fun _ => .inr (Nat.pos_of_ne_zero hmore) }

theorem call (h : r.Inv) {c : Call} (hc : r.Permits c) : (r.call c).Inv := by
  cases c with
  | requestLock opId => exact h.requestLock hc
  | followUpLock opId => exact h.followUpLock opId
  | requestLockShared opId => exact h.requestLockShared hc
  | followUpLockShared opId => exact h.followUpLockShared opId
  | unlock => exact h.unlock hc
  | unlockShared => exact h.unlockShared hc

theorem after (h : r.Inv) {calls : List Call} (hvalid : r.Valid calls) : (r.after calls).Inv := by
  induction calls generalizing r with
  | nil => exact h
  | cons c calls ih => exact ih (h.call hvalid.1) hvalid.2

end Inv

end Run

/-! ### The order of grants -/

variable {x y : ℤ}

/-- Waking the waiters takes the exclusive request before the shared one. -/
theorem behind_wakeNextWaiters (h : [⟨x, true⟩, ⟨y, false⟩].Sublist s.waiters) :
    s.wakeNextWaiters.Behind x y := by
  by_cases hfree : s.writerActive = false ∧ s.activeReaders = 0
  · obtain ⟨-, hwake⟩ | ⟨w, rest, hwaiters, -, hwake⟩ | ⟨-, hwake⟩ :=
      wakeNextWaiters_of_free hfree.1 hfree.2
    · rw [hwake]
      exact .inl h
    · rw [hwake]
      exact SharedMutexState.behind_wakeWriter h hwaiters
    · rw [hwake]
      exact .inl (pair_sublist_dropWhile rfl h)
  · rw [wakeNextWaiters, if_pos]
    · exact .inl h
    · simpa [Classical.or_iff_not_imp_left] using hfree

/-- No call grants the lock to the shared request while the exclusive one is queued before it. -/
theorem behind_call (h : [⟨x, true⟩, ⟨y, false⟩].Sublist s.waiters) (c : Call) :
    (s.call c).Behind x y := by
  have happend (w : Waiter) : [⟨x, true⟩, ⟨y, false⟩].Sublist (s.waiters ++ [w]) :=
    h.trans (List.sublist_append_left _ _)
  cases c with
  | requestLock opId =>
    show (s.requestLock opId).Behind x y
    rw [requestLock]
    split
    · exact .inl h
    · exact .inl (happend _)
  | followUpLock opId =>
    show (s.followUpLock opId).2.Behind x y
    rw [followUpLock]
    split
    · exact .inl h
    · exact .inl h
  | requestLockShared opId =>
    show (s.requestLockShared opId).Behind x y
    rw [requestLockShared]
    split
    · exact .inl h
    · exact .inl (happend _)
  | followUpLockShared opId =>
    show (s.followUpLockShared opId).2.Behind x y
    rw [followUpLockShared]
    split
    · exact .inl h
    · exact .inl h
  | unlock => exact behind_wakeNextWaiters (s := { s with writerActive := false }) h
  | unlockShared =>
    show s.unlockShared.Behind x y
    rw [unlockShared]
    dsimp only
    split
    · exact behind_wakeNextWaiters (s := { s with activeReaders := s.activeReaders - 1 }) h
    · exact .inl h

theorem Run.call_state (r : Run) (c : Call) : (r.call c).state = r.state.call c := by
  cases c with
  | followUpLock opId =>
    rw [Run.call]
    dsimp only
    split <;> rfl
  | followUpLockShared opId =>
    rw [Run.call]
    dsimp only
    split <;> rfl
  | _ => rfl

/-- The shared request stays behind the exclusive one until that has been granted the lock. -/
theorem Run.behind_after (h : r.state.Behind x y) (mid : List Call) :
    (r.after mid).state.Behind x y ∨
      ∃ mid', mid' <+: mid ∧ mid' ≠ mid ∧ x ∈ (r.after mid').state.readyLocks := by
  induction mid using List.reverseRecOn with
  | nil => exact .inl h
  | append_singleton mid c ih =>
    have hproper : mid <+: mid ++ [c] ∧ mid ≠ mid ++ [c] :=
      ⟨List.prefix_append mid [c], fun heq => by simpa using congrArg List.length heq⟩
    rcases ih with (hqueued | ⟨hx, -⟩) | ⟨mid', hpre, -, hx⟩
    · rw [Run.after_append]
      show ((r.after mid).call c).state.Behind x y ∨ _
      rw [Run.call_state]
      exact .inl (behind_call hqueued c)
    · exact .inr ⟨mid, hproper.1, hproper.2, hx⟩
    · refine .inr ⟨mid', hpre.trans hproper.1, ?_, hx⟩
      rintro rfl
      have hlength := hpre.length_le
      rw [List.length_append, List.length_singleton] at hlength
      omega

/-- A shared request that comes while an exclusive one is queued is queued behind it. -/
theorem behind_requestLockShared (hx : ⟨x, true⟩ ∈ s.waiters) :
    (s.requestLockShared y).Behind x y := by
  have hexclusive : s.hasExclusiveWaiter = true := List.any_eq_true.mpr ⟨_, hx, rfl⟩
  rw [requestLockShared, hexclusive, if_neg (by simp)]
  exact .inl ((List.singleton_sublist.mpr hx).append (List.Sublist.refl _))

/-- **The shared mutex strands no waiter.** In every run in which requests have new ids and only
holders release the lock, a writer and readers never hold it together, the lock is held whenever
somebody waits, and a shared request is granted it only after the exclusive ones that were queued
before it. -/
theorem strands_no_waiter (calls : List Call) (hvalid : Run.Valid {} calls) :
    (∀ before, before <+: calls →
      ¬ ((Run.after {} before).state.writerActive = true ∧
          0 < (Run.after {} before).state.activeReaders) ∧
      ((Run.after {} before).state.waiters ≠ [] →
        (Run.after {} before).state.writerActive = true ∨
          0 < (Run.after {} before).state.activeReaders)) ∧
    ∀ x y before mid, before ++ .requestLockShared y :: mid <+: calls →
      ⟨x, true⟩ ∈ (Run.after {} before).state.waiters →
      y ∈ (Run.after {} (before ++ .requestLockShared y :: mid)).state.readySharedLocks →
      ∃ mid', mid' <+: mid ∧ mid' ≠ mid ∧
        x ∈ (Run.after {} (before ++ .requestLockShared y :: mid')).state.readyLocks := by
  have hinv {before : List Call} (hpre : before <+: calls) : (Run.after {} before).Inv := by
    obtain ⟨rest, rfl⟩ := hpre
    exact Run.Inv.init.after (Run.valid_append.mp hvalid).1
  refine ⟨fun before hpre => ⟨fun ⟨hwriter, hreaders⟩ => ?_, (hinv hpre).waiting⟩,
    fun x y before mid hpre hx hy => ?_⟩
  · exact Nat.ne_of_gt hreaders ((hinv hpre).exclusion hwriter)
  · have hafter (mid : List Call) : Run.after {} (before ++ .requestLockShared y :: mid) =
        ((Run.after {} before).call (.requestLockShared y)).after mid :=
      Run.after_append {} before _
    have hbehind : ((Run.after {} before).call (.requestLockShared y)).state.Behind x y :=
      behind_requestLockShared hx
    obtain hwaits | hgranted := Run.behind_after hbehind mid
    · rw [← hafter] at hwaits
      exact absurd (.inr hy) ((hinv hpre).not_ready _ hwaits.mem_waiters)
    · simpa only [hafter] using hgranted

/-- A reader has the lock, a writer is queued, and another reader behind it. The release hands the
lock to the writer, whose release hands it to the second reader. -/
theorem strands_no_waiter_three :
    Run.Valid {} [.requestLockShared 1, .followUpLockShared 1, .requestLock 2, .requestLockShared 3,
      .unlockShared, .followUpLock 2, .unlock] ∧
    ∃ mid', mid' <+: ([.unlockShared, .followUpLock 2, .unlock] : List Call) ∧
      mid' ≠ [.unlockShared, .followUpLock 2, .unlock] ∧
      (2 : ℤ) ∈ (Run.after {} ([.requestLockShared 1, .followUpLockShared 1, .requestLock 2] ++
        .requestLockShared 3 :: mid')).state.readyLocks :=
  ⟨by decide, (strands_no_waiter [.requestLockShared 1, .followUpLockShared 1, .requestLock 2,
    .requestLockShared 3, .unlockShared, .followUpLock 2, .unlock] (by decide)).2 2 3 _ _
    List.prefix_rfl (by decide) (by decide)⟩

/-- The phases that the dual checker applies are calls. -/
theorem applies_call {name : String} {method : DualMethod LibcoroSharedMutex Unit LockValue}
    (hmethod : getDualMethods name = some method) {coro : CoroBase Unit LockValue}
    {result : Option LockValue} {phase : Phase} {s' : LibcoroSharedMutex}
    (h : DualMethod.Applies coro result s method phase s') : ∃ c, s' = s.call c := by
  unfold getDualMethods at hmethod
  split at hmethod
  · cases hmethod
    cases h
    · exact ⟨.requestLock coro.id, rfl⟩
    · exact ⟨.followUpLock coro.id, rfl⟩
  · cases hmethod
    cases h
    · exact ⟨.requestLockShared coro.id, rfl⟩
    · exact ⟨.followUpLockShared coro.id, rfl⟩
  · cases hmethod
    cases h
    exact ⟨.unlock, rfl⟩
  · cases hmethod
    cases h
    exact ⟨.unlockShared, rfl⟩
  · cases hmethod

end LibcoroSharedMutex

end Specs

end LTest
