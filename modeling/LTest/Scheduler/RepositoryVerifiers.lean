import LTest.Scheduler.ReplayLocks

/-!
# The verifiers of the repository

A verifier without `VerifyExisting` is asked with `Verify` whether a task may go on, as if the task
were new. For the verifiers of mutexes this does no harm: the status of a thread changes only when
the thread has finished a task. Three verifiers refuse what they have admitted:
`OnlyOneTaskPerThreadVerifier`, `BufferedChannelVerifier` and `UniqueArgsVerifier` note that a task
was started, and take it for another one when they are asked again.

## Main definitions

* `statusVerifier`, `bufferedChannelVerifier`, `uniqueArgsVerifier` — further verifiers
* `RepositoryVerifier` — all verifiers of the repository
* `StrategyTaskVerifier.Accepts` — a task may go on
* `StrategyTaskVerifier.Remembers` — the verifier keeps what it has said of a thread

## Main results

* `RepositoryVerifier.exists_remembers` — all verifiers but three do
-/

namespace LTest

namespace Scheduler

/-! ### The verifiers -/

section Verifiers

variable {T : Type} (R : TaskReader T)

/-- Verifiers with a status for each thread, which is `0` at first. A method is accepted for a
thread with the status it requires, and a finished task sets the status. After a failed assertion
`Verify` returns `false` here. -/
def statusVerifier (required : String → Option ℕ) (finished : T → Option ℕ) :
    StrategyTaskVerifier (ℕ → ℕ) T where
  verify status name threadId _ := ((required name).any (· == status threadId), status)
  verifyStart status _ _ _ := (true, status)
  verifyExisting status task threadId :=
    ((required (R.name task)).any (· == status threadId), status)
  onTaskStarted status _ _ _ := status
  onFinished status task threadId :=
    (finished task).elim status (Function.update status threadId)
  reset _ := fun _ => 0
  onRoundStart status _ := status

/-- `MutexVerifier`. -/
def mutexVerifier : StrategyTaskVerifier (ℕ → ℕ) T :=
  statusVerifier R
    (fun name => if name = "Lock" then some 0 else if name = "Unlock" then some 1 else none)
    fun task =>
      if R.name task = "Lock" then some 1 else if R.name task = "Unlock" then some 0 else none

/-- What the two verifiers of shared mutexes require; `FREE` is `0` and `WRITER` is `1`. -/
def sharedMutexRequired (reader : ℕ) (name : String) : Option ℕ :=
  if name = "lock" then some 0
  else if name = "unlock" then some 1
  else if name = "lock_shared" then some 0
  else if name = "unlock_shared" then some reader
  else none

/-- `SharedMutexVerifier`. -/
def sharedMutexVerifier : StrategyTaskVerifier (ℕ → ℕ) T :=
  statusVerifier R (sharedMutexRequired 4) fun task =>
    if R.name task = "lock" then some 1
    else if R.name task = "unlock" then some 0
    else if R.name task = "lock_shared" then some 4
    else if R.name task = "unlock_shared" then some 0
    else none

/-- `LibcoroSharedMutexVerifier`; only a lock that has returned is held. -/
def libcoroSharedMutexVerifier : StrategyTaskVerifier (ℕ → ℕ) T :=
  statusVerifier R (sharedMutexRequired 2) fun task =>
    if R.name task = "lock" then if R.isReturned task then some 1 else none
    else if R.name task = "lock_shared" then if R.isReturned task then some 2 else none
    else if R.name task = "unlock" then some 0
    else if R.name task = "unlock_shared" then some 0
    else none

/-- The variables of `BufferedChannelVerifier`. -/
structure ChannelCounts where
  /-- The senders. -/
  senders : UInt64 := 0
  /-- The receivers. -/
  receivers : UInt64 := 0
  /-- The size. -/
  size : UInt64 := 0

/-- `BufferedChannelVerifier::Verify`. -/
def ChannelCounts.verify (c : ChannelCounts) (name : String) : Bool × ChannelCounts :=
  if name = "Send" then
    if c.senders = 0 then (true, { c with senders := c.senders + 1, size := c.size + 1 })
    else (false, c)
  else if name = "Recv" then
    if c.receivers = 0 then
      (true, { c with
        receivers := c.receivers + 1
        size := if 0 < c.size then c.size - 1 else c.size })
    else (false, c)
  else (false, c)

/-- `BufferedChannelVerifier`. -/
def bufferedChannelVerifier : StrategyTaskVerifier ChannelCounts T where
  verify c name _ _ := c.verify name
  verifyStart c _ _ _ := (true, c)
  verifyExisting c task _ := c.verify (R.name task)
  onTaskStarted c _ _ _ := c
  onFinished c task _ :=
    if R.name task = "Send" then { c with senders := c.senders - 1 }
    else if R.name task = "Recv" then { c with receivers := c.receivers - 1 }
    else c
  reset _ := {}
  onRoundStart c _ := c

/-- `UniqueArgsVerifier::Verify`. -/
def verifyUnique (status : ℕ → Bool) (threadId : ℕ) (isNew : Bool) : Bool × (ℕ → Bool) :=
  if isNew && status threadId then (false, status)
  else (true, Function.update status threadId true)

/-- `UniqueArgsVerifier`. -/
def uniqueArgsVerifier : StrategyTaskVerifier (ℕ → Bool) T where
  verify status _ threadId isNew := verifyUnique status threadId isNew
  verifyStart status _ _ _ := (true, status)
  verifyExisting status _ threadId := verifyUnique status threadId true
  onTaskStarted status _ _ _ := status
  onFinished status _ _ := status
  reset _ := fun _ => false
  onRoundStart status _ := status

end Verifiers

/-- The verifiers of the repository. -/
inductive RepositoryVerifier
  | default
  | onlyOneTaskPerThread
  | uniqueArgs
  | bufferedChannel
  | mutex
  | sharedMutex
  | libcoroSharedMutex
  | libcoroMutex
  | follyCoroMutex
  | follyCoroSharedMutex
  deriving DecidableEq, Repr

namespace RepositoryVerifier

/-- The variables of a verifier. -/
def State : RepositoryVerifier → Type
  | default => Unit
  | onlyOneTaskPerThread => Bool
  | uniqueArgs => ℕ → Bool
  | bufferedChannel => ChannelCounts
  | mutex | sharedMutex | libcoroSharedMutex => ℕ → ℕ
  | libcoroMutex | follyCoroMutex => ReserveState (Option ℕ)
  | follyCoroSharedMutex => ReserveState SharedOwners

/-- The verifier. -/
def verifier {T : Type} (R : TaskReader T) :
    (k : RepositoryVerifier) → StrategyTaskVerifier k.State T
  | default => defaultStrategyTaskVerifier
  | onlyOneTaskPerThread => onlyOneTaskPerThreadVerifier
  | uniqueArgs => uniqueArgsVerifier
  | bufferedChannel => bufferedChannelVerifier R
  | mutex => mutexVerifier R
  | sharedMutex => sharedMutexVerifier R
  | libcoroSharedMutex => libcoroSharedMutexVerifier R
  | libcoroMutex => libcoroMutexVerifier R
  | follyCoroMutex => follyCoroMutexVerifier R
  | follyCoroSharedMutex => follyCoroSharedMutexVerifier R

/-- The variables of a new verifier. -/
def init : (k : RepositoryVerifier) → k.State
  | default => ()
  | onlyOneTaskPerThread => false
  | uniqueArgs => fun _ => false
  | bufferedChannel => {}
  | mutex | sharedMutex | libcoroSharedMutex => fun _ => 0
  | libcoroMutex | follyCoroMutex => { base := none }
  | follyCoroSharedMutex => { base := {} }

/-- `NewTaskAreEnabled` is different for one of them. -/
def onlyOne (k : RepositoryVerifier) : Bool := k == onlyOneTaskPerThread

/-- The verifier takes a task that it has admitted for another one. -/
def forgets : RepositoryVerifier → Bool
  | onlyOneTaskPerThread | uniqueArgs | bufferedChannel => true
  | _ => false

end RepositoryVerifier

/-! ### Tasks that may go on -/

namespace StrategyTaskVerifier

variable {ν T : Type} (V : StrategyTaskVerifier ν T)

/-- What the verifier answers to a call. -/
def answer (v : ν) : Call T → Option Bool
  | .verify name threadId isNew => some (V.verify v name threadId isNew).1
  | .verifyStart name threadId ctx => some (V.verifyStart v name threadId ctx).1
  | .verifyExisting task threadId => some (V.verifyExisting v task threadId).1
  | _ => none

/-- What it answers to calls one after the other. -/
def answers : ν → List (Call T) → List (Option Bool)
  | _, [] => []
  | v, c :: cs => V.answer v c :: answers (V.call v c) cs

/-- The verifier lets the task go on, and however often it is asked, its later answers are the
same. -/
def Accepts (v : ν) (task : T) (threadId : ℕ) : Prop :=
  (V.verifyExisting v task threadId).1 = true ∧
    ∀ k calls, V.answers ((fun v => (V.verifyExisting v task threadId).2)^[k] v) calls =
      V.answers v calls

end StrategyTaskVerifier

variable {P : Program} {ν : Type}

/-- The verifier keeps what it has said of a thread: `ok` holds of a method that was accepted for
the thread, until the thread has finished a task. Questions change nothing. -/
structure StrategyTaskVerifier.Remembers (V : Verifier P ν)
    (ok : ν → ℕ → String → Prop) : Prop where
  pure : ∀ {v v'}, Asks V v v' → v' = v
  admitted : ∀ {v name i}, (V.verify v name i true).1 = true → ok v i name
  existing : ∀ {v t i}, ok v i t.name → (V.verifyExisting v t i).1 = true
  started : ∀ {v i name i' name' id}, ok v i name → ok (V.onTaskStarted v name' i' id) i name
  finished : ∀ {v i name t i'}, i ≠ i' → ok v i name → ok (V.onFinished v t i') i name

namespace StrategyTaskVerifier.Remembers

variable {V : Verifier P ν} {ok : ν → ℕ → String → Prop}

theorem accepts (hV : V.Remembers ok) {v : ν} {t : Task P} {i : ℕ}
    (h : ok v i t.name) : V.Accepts v t i := by
  have hpure : (V.verifyExisting v t i).2 = v := hV.pure (Asks.none.verifyExisting t i)
  refine ⟨hV.existing h, fun k calls => ?_⟩
  rw [Function.iterate_fixed hpure]

theorem verifyTaskStart (hV : V.Remembers ok) {v v' : ν}
    {name : String} {i : ℕ} {ctx : StartContext}
    (h : V.verifyTaskStart v name i ctx = (true, v')) : ok v i name ∧ v' = v := by
  have hv' : v' = v := by
    have hasks := (Asks.none (V := V) (v := v)).verifyTaskStart name i ctx
    rw [h] at hasks
    exact hV.pure hasks
  have hstart : (V.verifyStart v name i ctx).2 = v := hV.pure (Asks.none.verifyStart name i ctx)
  rw [StrategyTaskVerifier.verifyTaskStart, hstart] at h
  split at h
  · exact ⟨hV.admitted (congrArg Prod.fst h), hv'⟩
  · rename_i hnot
    exact absurd (congrArg Prod.fst h) hnot

end StrategyTaskVerifier.Remembers

/-! ### Which verifiers remember -/

/-- The status of a thread changes only when the thread has finished a task. -/
theorem statusVerifier_remembers (asBool : P.Val → Option Bool) (required : String → Option ℕ)
    (finished : Task P → Option ℕ) :
    (statusVerifier (boolReader asBool) required finished).Remembers
      fun status i name => (required name).any (· == status i) = true where
  pure := Asks.keeps id (fun _ _ _ _ => rfl) (fun _ _ _ _ => rfl) fun _ _ _ => rfl
  admitted h := h
  existing h := h
  started h := h
  finished {status i name t i'} hne h := by
    have hstatus : ((finished t).elim status (Function.update status i')) i = status i := by
      cases finished t with
      | none => rfl
      | some _ => exact Function.update_of_ne hne _ _
    show (required name).any (· == ((finished t).elim status (Function.update status i')) i) = true
    rw [hstatus]
    exact h

/-- A verifier that lets all tasks go on. -/
theorem remembers_of_forall_existing {V : Verifier P ν}
    (hverify : ∀ v name i isNew, (V.verify v name i isNew).2 = v)
    (hstart : ∀ v name i ctx, (V.verifyStart v name i ctx).2 = v)
    (hexisting : ∀ v t i, V.verifyExisting v t i = (true, v)) : V.Remembers fun _ _ _ => True where
  pure := Asks.keeps id hverify hstart fun v t i => by rw [hexisting]
  admitted _ := trivial
  existing {v t i} _ := by rw [hexisting]
  started _ := trivial
  finished _ _ := trivial

theorem RepositoryVerifier.exists_remembers (asBool : P.Val → Option Bool) {k : RepositoryVerifier}
    (h : k.forgets = false) : ∃ ok, (k.verifier (boolReader asBool)).Remembers ok := by
  cases k with
  | onlyOneTaskPerThread | uniqueArgs | bufferedChannel => cases h
  | mutex | sharedMutex | libcoroSharedMutex => exact ⟨_, statusVerifier_remembers asBool _ _⟩
  | default | libcoroMutex | follyCoroMutex | follyCoroSharedMutex =>
    refine ⟨_, remembers_of_forall_existing ?_ ?_ ?_⟩
    · exact fun _ _ _ _ => rfl
    · exact fun _ _ _ _ => rfl
    · exact fun _ _ _ => rfl

end Scheduler

end LTest
