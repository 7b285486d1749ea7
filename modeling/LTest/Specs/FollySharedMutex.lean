import LTest.Lincheck.DualHistory
import LTest.Specs.Waiters

/-!
# The specification of a fair shared mutex

`FollyCoroSharedMutex` is the sequential specification of a shared mutex whose waiters are served
in order. An acquisition has two phases. The request is granted or queued; a granted operation is in
one of the two ready sets, and its follow-up completes the acquisition.

An exclusive waiter should block later shared waiters until it has the lock. The queue does that,
but a shared request is queued only while a writer holds the lock. If readers hold it, or if the
lock is granted to a writer that has not completed its acquisition, then a later shared request is
granted at once and overtakes the writers that wait.

## Main definitions

* `FollyCoroSharedMutex` and its operations — the specification
* `FollyCoroSharedMutex.Overtakes` — a shared request is served before an older exclusive one
* `FollyCoroSharedMutex.Barges` — a shared request that finds the lock without a writer, although
  an exclusive one is pending

## Main results

* `FollyCoroSharedMutex.fair_iff` — the lock excludes; it is fair exactly when no request barges
* `FollyCoroSharedMutex.reader_barges` — a reader that overtakes a queued writer
* `FollyCoroSharedMutex.applies_call` — the phases the checker applies are calls
-/

namespace LTest

namespace Specs

open Lincheck

/-- `FollyCoroSharedMutex`. -/
structure FollyCoroSharedMutex extends SharedMutexState
  deriving DecidableEq

namespace FollyCoroSharedMutex

section

variable (s : FollyCoroSharedMutex)

/-- `CanTryLock`. -/
def canTryLock : Bool :=
  !s.writerActive && s.activeReaders = 0 && s.waiters.isEmpty && s.readyLocks = ∅ &&
    s.readySharedLocks = ∅

/-- `CanTryLockShared`. -/
def canTryLockShared : Bool := !s.writerActive && s.readyLocks = ∅

/-- `WakeNextWaiters`. -/
def wakeNextWaiters : FollyCoroSharedMutex :=
  if s.writerActive || s.activeReaders ≠ 0 || s.readyLocks ≠ ∅ || s.readySharedLocks ≠ ∅ then s
  else
    match s.waiters with
    | [] => s
    | w :: rest =>
      if w.exclusive then { s with waiters := rest, readyLocks := insert w.opId s.readyLocks }
      else { s with toSharedMutexState := s.wakeShared 0 s.waiters }

/-- `TryLock`. -/
def tryLock : Bool × FollyCoroSharedMutex :=
  if s.canTryLock then (true, { s with writerActive := true }) else (false, s)

/-- `CheckTryLock`: a recorded failure is always accepted. -/
def checkTryLock (result : Option Bool) (s : FollyCoroSharedMutex) :
    Bool × FollyCoroSharedMutex :=
  if result = some false then (true, s) else s.tryLock

/-- `TryLockShared`. -/
def tryLockShared : Bool × FollyCoroSharedMutex :=
  if s.canTryLockShared then (true, { s with activeReaders := s.activeReaders + 1 })
  else (false, s)

/-- `CheckTryLockShared`. -/
def checkTryLockShared (result : Option Bool) (s : FollyCoroSharedMutex) :
    Bool × FollyCoroSharedMutex :=
  if result = some false then (true, s) else s.tryLockShared

/-- `Unlock`. -/
def unlock : FollyCoroSharedMutex :=
  { s with writerActive := false }.wakeNextWaiters

/-- `UnlockShared`. -/
def unlockShared : FollyCoroSharedMutex :=
  let s := { s with activeReaders := s.activeReaders - 1 }
  if s.activeReaders = 0 then s.wakeNextWaiters else s

end

/-- `RequestLock`. -/
def requestLock (opId : ℤ) (s : FollyCoroSharedMutex) : FollyCoroSharedMutex :=
  if !s.writerActive && s.activeReaders = 0 && s.waiters.isEmpty && s.readyLocks = ∅ &&
      s.readySharedLocks = ∅ then
    { s with readyLocks := insert opId s.readyLocks }
  else { s with waiters := s.waiters ++ [⟨opId, true⟩] }

/-- `FollowUpLock`. -/
def followUpLock (opId : ℤ) (s : FollyCoroSharedMutex) : Option LockValue × FollyCoroSharedMutex :=
  if opId ∉ s.readyLocks ∨ s.writerActive = true ∨ s.activeReaders ≠ 0 then (none, s)
  else (some .void, { s with readyLocks := s.readyLocks.erase opId, writerActive := true })

/-- `RequestLockShared`. -/
def requestLockShared (opId : ℤ) (s : FollyCoroSharedMutex) : FollyCoroSharedMutex :=
  if !s.writerActive then { s with readySharedLocks := insert opId s.readySharedLocks }
  else { s with waiters := s.waiters ++ [⟨opId, false⟩] }

/-- `FollowUpLockShared`. -/
def followUpLockShared (opId : ℤ) (s : FollyCoroSharedMutex) :
    Option LockValue × FollyCoroSharedMutex :=
  if opId ∉ s.readySharedLocks ∨ s.writerActive = true then (none, s)
  else
    (some .void, { s with
      readySharedLocks := s.readySharedLocks.erase opId
      activeReaders := s.activeReaders + 1 })

/-- The call of a check with the Boolean of the recorded result. Where reading it throws, the check
is not passed. -/
def checkResult (check : Option Bool → FollyCoroSharedMutex → Bool × FollyCoroSharedMutex)
    (s : FollyCoroSharedMutex) (result : Option LockValue) : Bool × FollyCoroSharedMutex :=
  match result.mapM LockValue.getBool with
  | .ok b => check b s
  | .error _ => (false, s)

/-- `GetDualMethods`. The methods have no arguments. -/
def getDualMethods : DualMethodMap FollyCoroSharedMutex Unit LockValue
  | "try_lock" => some (.predicate fun s _ => s.checkResult checkTryLock)
  | "try_lock_shared" => some (.predicate fun s _ => s.checkResult checkTryLockShared)
  | "unlock" => some (.nonBlocking fun s _ => (.void, s.unlock))
  | "unlock_shared" => some (.nonBlocking fun s _ => (.void, s.unlockShared))
  | "lock" =>
    some (.blocking (fun s _ opId => s.requestLock opId) fun s _ opId => s.followUpLock opId)
  | "lock_shared" =>
    some (.blocking (fun s _ opId => s.requestLockShared opId)
      fun s _ opId => s.followUpLockShared opId)
  | _ => none

/-! ### Runs -/

/-- A call of one of the operations. -/
inductive Call
  | checkTryLock (result : Option Bool)
  | checkTryLockShared (result : Option Bool)
  | unlock
  | unlockShared
  | requestLock (opId : ℤ)
  | followUpLock (opId : ℤ)
  | requestLockShared (opId : ℤ)
  | followUpLockShared (opId : ℤ)
  deriving DecidableEq

/-- The state after a call. -/
def call (s : FollyCoroSharedMutex) : Call → FollyCoroSharedMutex
  | .checkTryLock result => (s.checkTryLock result).2
  | .checkTryLockShared result => (s.checkTryLockShared result).2
  | .unlock => s.unlock
  | .unlockShared => s.unlockShared
  | .requestLock opId => s.requestLock opId
  | .followUpLock opId => (s.followUpLock opId).2
  | .requestLockShared opId => s.requestLockShared opId
  | .followUpLockShared opId => (s.followUpLockShared opId).2

/-- The id of a request. -/
def Call.requestId : Call → List ℤ
  | .requestLock opId | .requestLockShared opId => [opId]
  | _ => []

/-- The state after a sequence of calls. -/
def after (calls : List Call) : FollyCoroSharedMutex := calls.foldl call {}

theorem after_append_singleton (calls : List Call) (c : Call) :
    after (calls ++ [c]) = (after calls).call c := by
  rw [after, List.foldl_append]
  rfl

/-- The exclusive request is queued, or granted and not completed. -/
def Pending (s : FollyCoroSharedMutex) (x : ℤ) : Prop := ⟨x, true⟩ ∈ s.waiters ∨ x ∈ s.readyLocks

/-- The shared request `y`, made after the calls `before` while the exclusive request `x` is
pending, can be completed after the calls `mid`, in which `x` is not completed. -/
def Overtakes (x y : ℤ) (before mid : List Call) : Prop :=
  (after before).Pending x ∧
    ((after (before ++ .requestLockShared y :: mid)).followUpLockShared y).1.isSome = true ∧
    ∀ mid', mid' ++ [.followUpLock x] <+: mid →
      ((after (before ++ .requestLockShared y :: mid')).followUpLock x).1 = none

/-- A shared request is granted while an exclusive one is pending. -/
def Barges (s : FollyCoroSharedMutex) : Call → Prop
  | .requestLockShared _ => s.writerActive = false ∧ ∃ x, s.Pending x
  | _ => False

/-! ### The invariant -/

variable {s : FollyCoroSharedMutex} {ids : List ℤ}

/-- What waking the waiters can do: nothing, grant the lock to the writer at the front, or grant it
to the readers at the front. In the last two cases nobody has the lock and nobody is granted it. -/
theorem wakeNextWaiters_cases (s : FollyCoroSharedMutex) :
    s.wakeNextWaiters = s ∨
    (s.writerActive = false ∧ s.readyLocks = ∅ ∧ s.readySharedLocks = ∅) ∧
      ((∃ w rest, s.waiters = w :: rest ∧ w.exclusive = true ∧
          s.wakeNextWaiters =
            { s with waiters := rest, readyLocks := insert w.opId s.readyLocks }) ∨
        s.wakeNextWaiters =
          { s with
            waiters := s.waiters.dropWhile (!·.exclusive)
            readySharedLocks := s.readySharedLocks ∪
              ((s.waiters.takeWhile (!·.exclusive)).map Waiter.opId).toFinset }) := by
  rw [wakeNextWaiters]
  split
  · exact .inl rfl
  · rename_i hfree
    simp only [Bool.or_eq_true, decide_eq_true_eq, not_or, not_not, Bool.not_eq_true, ne_eq]
      at hfree
    obtain ⟨⟨⟨hwriter, -⟩, hlocks⟩, hshared⟩ := hfree
    split
    · exact .inl rfl
    · rename_i w rest hwaiters
      refine .inr ⟨⟨hwriter, hlocks, hshared⟩, ?_⟩
      split
      · rename_i hw
        exact .inl ⟨w, rest, hwaiters, hw, rfl⟩
      · rw [SharedMutexState.wakeShared_eq rfl, Nat.mul_zero]
        exact .inr rfl

/-- The invariant. -/
structure Inv (s : FollyCoroSharedMutex) (ids : List ℤ) : Prop
    extends s.toSharedMutexState.Queued ids where
  /-- The lock excludes. -/
  exclusion : s.writerActive = true → s.activeReaders = 0
  /-- At most one writer is granted the lock. -/
  ready_unique : ∀ a ∈ s.readyLocks, ∀ b ∈ s.readyLocks, a = b
  /-- Then no writer has it. -/
  ready_free : ∀ a ∈ s.readyLocks, s.writerActive = false

namespace Inv

theorem init : Inv {} [] := ⟨.init, nofun, nofun, nofun⟩

section

variable (h : s.Inv ids) {opId : ℤ}
include h

theorem wakeNextWaiters : s.wakeNextWaiters.Inv ids := by
  obtain hwake | ⟨⟨hwriter, hlocks, -⟩, ⟨w, rest, hwaiters, -, hwake⟩ | hwake⟩ :=
    s.wakeNextWaiters_cases
  · rw [hwake]
    exact h
  · rw [hwake]
    exact { h.toQueued.wakeWriter hwaiters with
      exclusion := h.exclusion
      ready_unique := by simp [hlocks]
      ready_free := fun _ _ => hwriter }
  · rw [hwake]
    exact { h.toQueued.wakeReaders (!·.exclusive), h with }

theorem requestLock (hnew : opId ∉ ids) : (s.requestLock opId).Inv (ids ++ [opId]) := by
  rw [FollyCoroSharedMutex.requestLock]
  split
  · rename_i hfree
    simp only [Bool.and_eq_true, Bool.not_eq_true', decide_eq_true_eq, List.isEmpty_iff] at hfree
    obtain ⟨⟨⟨⟨hwriter, -⟩, -⟩, hlocks⟩, -⟩ := hfree
    exact { h.toQueued.grantWriter hnew with
      exclusion := h.exclusion
      ready_unique := by simp [hlocks]
      ready_free := fun _ _ => hwriter }
  · exact { h.toQueued.append hnew true, h with }

theorem requestLockShared (hnew : opId ∉ ids) : (s.requestLockShared opId).Inv (ids ++ [opId]) := by
  rw [FollyCoroSharedMutex.requestLockShared]
  split
  · exact { h.toQueued.grantReader hnew, h with }
  · exact { h.toQueued.append hnew false, h with }

theorem followUpLock (opId : ℤ) : (s.followUpLock opId).2.Inv ids := by
  rw [FollyCoroSharedMutex.followUpLock]
  split
  · exact h
  · rename_i hready
    simp only [not_or, not_not] at hready
    obtain ⟨hmem, -, hreaders⟩ := hready
    -- the operation was the only one that was granted the lock
    have hnone (a : ℤ) (ha : a ∈ s.readyLocks.erase opId) : False :=
      Finset.ne_of_mem_erase ha (h.ready_unique a (Finset.mem_of_mem_erase ha) opId hmem)
    exact { h.toQueued.completeWriter opId with
      exclusion := fun _ => hreaders
      ready_unique := fun a ha => (hnone a ha).elim
      ready_free := fun a ha => (hnone a ha).elim }

theorem followUpLockShared (opId : ℤ) : (s.followUpLockShared opId).2.Inv ids := by
  rw [FollyCoroSharedMutex.followUpLockShared]
  split
  · exact h
  · rename_i hready
    simp only [not_or, not_not, Bool.not_eq_true] at hready
    exact { h.toQueued.completeReader opId, h with
      exclusion := fun hwriter => absurd (hready.2.symm.trans hwriter) Bool.false_ne_true }

theorem checkTryLock (result : Option Bool) : (s.checkTryLock result).2.Inv ids := by
  rw [FollyCoroSharedMutex.checkTryLock]
  split
  · exact h
  · rw [tryLock]
    split
    · rename_i hcan
      simp only [canTryLock, Bool.and_eq_true, Bool.not_eq_true', decide_eq_true_eq] at hcan
      obtain ⟨⟨⟨⟨-, hreaders⟩, -⟩, hlocks⟩, -⟩ := hcan
      refine { h with exclusion := fun _ => hreaders, ready_free := fun a ha => ?_ }
      rw [hlocks] at ha
      cases ha
    · exact h

theorem checkTryLockShared (result : Option Bool) : (s.checkTryLockShared result).2.Inv ids := by
  rw [FollyCoroSharedMutex.checkTryLockShared]
  split
  · exact h
  · rw [tryLockShared]
    split
    · rename_i hcan
      simp only [canTryLockShared, Bool.and_eq_true, Bool.not_eq_true'] at hcan
      exact { h with
        exclusion := fun hwriter => absurd (hcan.1.symm.trans hwriter) Bool.false_ne_true }
    · exact h

theorem unlock : s.unlock.Inv ids := by
  have hfree : Inv { s with writerActive := false } ids :=
    { h with exclusion := nofun, ready_free := fun _ _ => rfl }
  exact hfree.wakeNextWaiters

theorem unlockShared : s.unlockShared.Inv ids := by
  have hleft : Inv { s with activeReaders := s.activeReaders - 1 } ids :=
    { h with exclusion := fun hwriter => by rw [h.exclusion hwriter] }
  rw [FollyCoroSharedMutex.unlockShared]
  dsimp only
  split
  · exact hleft.wakeNextWaiters
  · exact hleft

theorem call {c : Call} (hids : (ids ++ c.requestId).Nodup) :
    (s.call c).Inv (ids ++ c.requestId) := by
  have hnew {opId : ℤ} (hid : (ids ++ [opId]).Nodup) : opId ∉ ids := fun hmem =>
    (List.nodup_append.mp hid).2.2 opId hmem opId (List.mem_singleton_self opId) rfl
  cases c with
  | requestLock opId => exact h.requestLock (hnew hids)
  | requestLockShared opId => exact h.requestLockShared (hnew hids)
  | checkTryLock result => exact (List.append_nil ids).symm ▸ h.checkTryLock result
  | checkTryLockShared result => exact (List.append_nil ids).symm ▸ h.checkTryLockShared result
  | unlock => exact (List.append_nil ids).symm ▸ h.unlock
  | unlockShared => exact (List.append_nil ids).symm ▸ h.unlockShared
  | followUpLock opId => exact (List.append_nil ids).symm ▸ h.followUpLock opId
  | followUpLockShared opId => exact (List.append_nil ids).symm ▸ h.followUpLockShared opId

end

end Inv

theorem inv_after {calls : List Call} (hids : (calls.flatMap Call.requestId).Nodup) :
    (after calls).Inv (calls.flatMap Call.requestId) := by
  induction calls using List.reverseRecOn with
  | nil => exact .init
  | append_singleton calls c ih =>
    rw [List.flatMap_append, List.flatMap_singleton] at hids ⊢
    rw [after_append_singleton]
    exact (ih (List.nodup_append.mp hids).1).call hids

/-! ### Fairness -/

variable {x y : ℤ}

section Behind

variable (h : s.Behind x y)
include h

theorem behind_wakeNextWaiters : s.wakeNextWaiters.Behind x y := by
  obtain hwake | ⟨⟨-, hlocks, -⟩, hwake⟩ := s.wakeNextWaiters_cases
  · rw [hwake]
    exact h
  · -- nobody has been granted the lock, so both are queued
    have hqueued : [⟨x, true⟩, ⟨y, false⟩].Sublist s.waiters := by
      rcases h with h | ⟨hx, -⟩
      · exact h
      · rw [hlocks] at hx
        cases hx
    rcases hwake with ⟨w, rest, hwaiters, -, hwake⟩ | hwake
    · rw [hwake]
      exact SharedMutexState.behind_wakeWriter hqueued hwaiters
    · rw [hwake]
      exact .inl (pair_sublist_dropWhile rfl hqueued)

/-- A call that does not complete the exclusive request leaves the shared one behind it. -/
theorem behind_call {c : Call} (hc : c = .followUpLock x → (s.followUpLock x).1 = none) :
    (s.call c).Behind x y := by
  cases c with
  | checkTryLock result =>
    show (s.checkTryLock result).2.Behind x y
    rw [checkTryLock, tryLock]
    repeat' split
    all_goals exact h
  | checkTryLockShared result =>
    show (s.checkTryLockShared result).2.Behind x y
    rw [checkTryLockShared, tryLockShared]
    repeat' split
    all_goals exact h
  | unlock => exact behind_wakeNextWaiters (s := { s with writerActive := false }) h
  | unlockShared =>
    show s.unlockShared.Behind x y
    rw [unlockShared]
    dsimp only
    split
    · exact behind_wakeNextWaiters (s := { s with activeReaders := s.activeReaders - 1 }) h
    · exact h
  | requestLock opId =>
    -- the queue is not empty, so the request is queued
    have hqueue : s.waiters.isEmpty = false := by
      cases hwaiters : s.waiters with
      | nil =>
        have hmem := h.mem_waiters
        rw [hwaiters] at hmem
        cases hmem
      | cons w rest => rfl
    show (s.requestLock opId).Behind x y
    rw [requestLock, hqueue, if_neg (by simp)]
    exact h.append _
  | followUpLock opId =>
    show (s.followUpLock opId).2.Behind x y
    by_cases hopId : opId = x
    · subst hopId
      have hnone := hc rfl
      rw [followUpLock] at hnone ⊢
      split at hnone
      · rename_i hcond
        rw [if_pos hcond]
        exact h
      · cases hnone
    · rw [followUpLock]
      split
      · exact h
      · rcases h with h | ⟨hx, hy⟩
        · exact .inl h
        · exact .inr ⟨Finset.mem_erase.mpr ⟨fun hxo => hopId hxo.symm, hx⟩, hy⟩
  | requestLockShared opId =>
    show (s.requestLockShared opId).Behind x y
    rw [requestLockShared]
    split
    · exact h
    · exact h.append _
  | followUpLockShared opId =>
    show (s.followUpLockShared opId).2.Behind x y
    rw [followUpLockShared]
    split
    · exact h
    · exact h

/-- The shared request stays behind the exclusive one as long as that is not completed. -/
theorem behind_foldl {mid : List Call}
    (hmid : ∀ mid', mid' ++ [.followUpLock x] <+: mid →
      ((mid'.foldl FollyCoroSharedMutex.call s).followUpLock x).1 = none) :
    (mid.foldl FollyCoroSharedMutex.call s).Behind x y := by
  induction mid using List.reverseRecOn with
  | nil => exact h
  | append_singleton mid c ih =>
    rw [List.foldl_append]
    refine behind_call
      (ih fun mid' hmid' => hmid mid' (hmid'.trans (List.prefix_append mid [c]))) ?_
    rintro rfl
    exact hmid mid List.prefix_rfl

end Behind

/-- A shared request that does not barge is queued behind the exclusive requests. -/
theorem Inv.behind (h : s.Inv ids) (hx : s.Pending x)
    (hbarges : ¬ s.Barges (.requestLockShared y)) : (s.requestLockShared y).Behind x y := by
  have hwriter : s.writerActive = true := by
    by_contra hwriter
    exact hbarges ⟨Bool.not_eq_true _ ▸ hwriter, x, hx⟩
  rw [FollyCoroSharedMutex.requestLockShared, hwriter, if_neg (by simp)]
  rcases hx with hx | hx
  · exact .inl ((List.singleton_sublist.mpr hx).append (List.Sublist.refl _))
  · exact absurd ((h.ready_free x hx).symm.trans hwriter) Bool.false_ne_true

/-- A shared request that barges can be completed at once. -/
theorem isSome_followUpLockShared (hwriter : s.writerActive = false) :
    ((s.requestLockShared y).followUpLockShared y).1.isSome = true := by
  rw [requestLockShared, hwriter, if_pos (by rfl), followUpLockShared, if_neg]
  · rfl
  · simp

/-- **Exclusion and fairness of the shared mutex.** In every run in which no two requests have the
same id, a writer and readers never hold the lock together. A shared request overtakes no exclusive
one exactly when no shared request is granted while an exclusive one is pending. Then the follow-up
of a shared request, if it is made before an older exclusive request is completed, is refused. -/
theorem fair_iff (calls : List Call) (hids : (calls.flatMap Call.requestId).Nodup) :
    (∀ before, before <+: calls →
      ¬ ((after before).writerActive = true ∧ 0 < (after before).activeReaders)) ∧
    ((∀ x y before mid, before ++ .requestLockShared y :: mid <+: calls →
        ¬ Overtakes x y before mid) ↔
      ∀ before c, before ++ [c] <+: calls → ¬ (after before).Barges c) ∧
    ((∀ before c, before ++ [c] <+: calls → ¬ (after before).Barges c) →
      ∀ x y before mid,
        before ++ .requestLockShared y :: (mid ++ [.followUpLockShared y]) <+: calls →
        (after before).Pending x →
        (∀ mid', mid' ++ [.followUpLock x] <+: mid →
          ((after (before ++ .requestLockShared y :: mid')).followUpLock x).1 = none) →
        ((after (before ++ .requestLockShared y :: mid)).followUpLockShared y).1 = none) := by
  have hinv {before : List Call} (hpre : before <+: calls) :
      (after before).Inv (before.flatMap Call.requestId) := by
    obtain ⟨rest, rfl⟩ := hpre
    rw [List.flatMap_append] at hids
    exact inv_after (List.nodup_append.mp hids).1
  have hfair (h : ∀ before c, before ++ [c] <+: calls → ¬ (after before).Barges c) (x y : ℤ)
      (before mid : List Call) (hpre : before ++ .requestLockShared y :: mid <+: calls) :
      ¬ Overtakes x y before mid := by
    rintro ⟨hx, hdone, hmid⟩
    have hbefore : before ++ [.requestLockShared y] <+: calls :=
      (List.prefix_append (before ++ [.requestLockShared y]) mid).trans (by simpa using hpre)
    have hfold (mid : List Call) : after (before ++ .requestLockShared y :: mid) =
        mid.foldl call ((after before).requestLockShared y) := by
      rw [after, List.foldl_append]
      rfl
    have hbehind := (hinv ((List.prefix_append before _).trans hbefore)).behind hx
      (h before _ hbefore)
    simp only [hfold] at hdone hmid
    have hwaits := (behind_foldl hbehind hmid).mem_waiters
    rw [← hfold] at hwaits hdone
    have hready := (hinv hpre).not_ready _ hwaits
    rw [followUpLockShared, if_pos (.inl fun hy => hready (.inr hy))] at hdone
    cases hdone
  refine ⟨fun before hpre ⟨hwriter, hreaders⟩ => ?_, ⟨fun h before c hpre hc => ?_, hfair⟩,
    fun h x y before mid hpre hx hmid => ?_⟩
  · exact Nat.ne_of_gt hreaders ((hinv hpre).exclusion hwriter)
  · cases c with
    | requestLockShared y =>
      obtain ⟨hwriter, x, hx⟩ := hc
      refine h x y before [] hpre ⟨hx, ?_, fun mid' hmid' => ?_⟩
      · rw [after_append_singleton]
        exact isSome_followUpLockShared hwriter
      · exact absurd (List.prefix_nil.mp hmid') (by simp)
    | _ => exact hc
  · have hmade : before ++ .requestLockShared y :: mid <+: calls := by
      refine .trans ?_ hpre
      rw [List.prefix_append_right_inj]
      exact List.prefix_append (.requestLockShared y :: mid) _
    by_contra hdone
    exact hfair h x y before mid hmade ⟨hx, Option.isSome_iff_ne_none.mpr hdone, hmid⟩

/-- A writer has the lock and another one is queued when a reader comes: it is queued, too. -/
theorem fair_iff_queued :
    (([.requestLock 1, .followUpLock 1, .requestLock 2, .requestLockShared 3] : List Call).flatMap
      Call.requestId).Nodup ∧
    ¬ Overtakes 2 3 [.requestLock 1, .followUpLock 1, .requestLock 2] [] := by
  refine ⟨by decide, ?_⟩
  refine (fair_iff [.requestLock 1, .followUpLock 1, .requestLock 2, .requestLockShared 3]
    (by decide)).2.1.mpr (fun before c hpre hc => ?_) 2 3 _ [] List.prefix_rfl
  obtain ⟨rest, hrest⟩ := hpre
  match before with
  | [] =>
    cases hrest
    exact hc
  | [_] =>
    cases hrest
    exact hc
  | [_, _] =>
    cases hrest
    exact hc
  | [_, _, _] =>
    cases hrest
    cases hc.1
  | _ :: _ :: _ :: _ :: before => simp at hrest

/-- A reader has the lock and a writer is queued. Another reader comes, and gets the lock before the
writer does; nobody has released it. -/
theorem reader_barges :
    (([.requestLockShared 1, .followUpLockShared 1, .requestLock 2, .requestLockShared 3,
      .followUpLockShared 3] : List Call).flatMap Call.requestId).Nodup ∧
    Overtakes 2 3 [.requestLockShared 1, .followUpLockShared 1, .requestLock 2] [] ∧
    (after [.requestLockShared 1, .followUpLockShared 1, .requestLock 2, .requestLockShared 3,
      .followUpLockShared 3]).activeReaders = 2 ∧
    (after [.requestLockShared 1, .followUpLockShared 1, .requestLock 2, .requestLockShared 3,
      .followUpLockShared 3]).waiters = [⟨2, true⟩] := by
  refine ⟨by decide, ⟨.inl (by decide), by decide, fun mid' hmid' => ?_⟩, by decide, by decide⟩
  exact absurd (List.prefix_nil.mp hmid') (by simp)

variable {result : Option LockValue}

theorem checkResult_eq {check : Option Bool → FollyCoroSharedMutex → Bool × FollyCoroSharedMutex}
    (h : (s.checkResult check result).1 = true) : ∃ b, s.checkResult check result = check b s := by
  unfold checkResult at h ⊢
  split
  · exact ⟨_, rfl⟩
  · rename_i herror
    rw [herror] at h
    cases h

/-- The phases that the dual checker applies are calls. -/
theorem applies_call {name : String} {method : DualMethod FollyCoroSharedMutex Unit LockValue}
    (hmethod : getDualMethods name = some method) {coro : CoroBase Unit LockValue} {phase : Phase}
    {s' : FollyCoroSharedMutex} (h : DualMethod.Applies coro result s method phase s') :
    ∃ c, s' = s.call c := by
  unfold getDualMethods at hmethod
  split at hmethod
  · cases hmethod
    cases h with
    | predicate haccept =>
      obtain ⟨b, hb⟩ := checkResult_eq haccept
      exact ⟨.checkTryLock b, congrArg Prod.snd hb⟩
  · cases hmethod
    cases h with
    | predicate haccept =>
      obtain ⟨b, hb⟩ := checkResult_eq haccept
      exact ⟨.checkTryLockShared b, congrArg Prod.snd hb⟩
  · cases hmethod
    cases h
    exact ⟨.unlock, rfl⟩
  · cases hmethod
    cases h
    exact ⟨.unlockShared, rfl⟩
  · cases hmethod
    cases h
    · exact ⟨.requestLock coro.id, rfl⟩
    · exact ⟨.followUpLock coro.id, rfl⟩
  · cases hmethod
    cases h
    · exact ⟨.requestLockShared coro.id, rfl⟩
    · exact ⟨.followUpLockShared coro.id, rfl⟩
  · cases hmethod

end FollyCoroSharedMutex

end Specs

end LTest
