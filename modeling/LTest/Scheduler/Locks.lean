import LTest.Scheduler.Verifier
import Mathlib.Data.List.DropRight

/-!
# Verifiers of lock protocols

The verifiers of the libcoro mutex and of the two folly mutexes remember which thread owns a lock.
They are derived from `DefaultStrategyTaskVerifier` and do not define `Reset` or `OnRoundStart`, so
that the empty ones of the base are called: the owner of one round is the owner of the next. Only
when every round ends with the locks released, an unlock is verified exactly for what was locked in
the current round.

## Main definitions

* `libcoroMutexVerifier`, `follyCoroMutexVerifier`, `follyCoroSharedMutexVerifier` — the verifiers
* `Call`, `StrategyTaskVerifier.after` — runs of any number of rounds
* `Holds`, `acquisitions`, `releases` — what a thread has done in the current round

## Main results

* `holds_of_owner` — the owner has locked in the current round
* `unlock_verified_only_if_held` — when an unlock is verified
* `unlock_verified_in_next_round` — a lock held at the end of a round
-/

namespace LTest

namespace Scheduler

variable {ν T : Type}

/-! ### The verifiers -/

/-- How a finished task changes the owner of a mutex. -/
def updateOwner (R : TaskReader T) (owner : Option ℕ) (task : T) (threadId : ℕ) : Option ℕ :=
  if R.name task = "lock" then
    if R.isReturned task then some threadId else owner
  else if R.name task = "try_lock" then
    if R.retBool task then some threadId else owner
  else if R.name task = "unlock" then
    if owner = some threadId then none else owner
  else owner

/-- The verifier of a mutex; the state is `owner_thread_`. After a failed assertion, which is left
out in a release build, `Verify` returns `false`. -/
def mutexVerifierBase (R : TaskReader T) : StrategyTaskVerifier (Option ℕ) T :=
  { defaultStrategyTaskVerifier with
    verify := fun owner name threadId _ =>
      (if name = "lock" ∨ name = "try_lock" then owner != some threadId
        else if name = "unlock" then owner == some threadId
        else false, owner)
    onFinished := updateOwner R }

/-- `LibcoroMutexVerifierBase`. -/
def libcoroMutexVerifierBase (R : TaskReader T) : StrategyTaskVerifier (Option ℕ) T :=
  mutexVerifierBase R

/-- `FollyCoroMutexVerifierBase`. -/
def follyCoroMutexVerifierBase (R : TaskReader T) : StrategyTaskVerifier (Option ℕ) T :=
  mutexVerifierBase R

/-- The variables of `FollyCoroSharedMutexVerifierBase`. -/
structure SharedOwners where
  /-- The exclusive owner. -/
  exclusiveOwner : Option ℕ := none
  /-- The counts of threads; `EnsureThread` fills them up with zeros. -/
  sharedCounts : ℕ → ℕ := fun _ => 0

/-- How a finished task changes the counts of shared owners. -/
def updateCounts (R : TaskReader T) (counts : ℕ → ℕ) (task : T) (threadId : ℕ) : ℕ → ℕ :=
  if R.name task = "lock_shared" then
    if R.isReturned task then Function.update counts threadId (counts threadId + 1) else counts
  else if R.name task = "try_lock_shared" then
    if R.retBool task then Function.update counts threadId (counts threadId + 1) else counts
  else if R.name task = "unlock_shared" then
    if 0 < counts threadId then Function.update counts threadId (counts threadId - 1) else counts
  else counts

/-- `FollyCoroSharedMutexVerifierBase`. -/
def follyCoroSharedMutexVerifierBase (R : TaskReader T) : StrategyTaskVerifier SharedOwners T :=
  { defaultStrategyTaskVerifier with
    verify := fun v name threadId _ =>
      (if name = "lock" ∨ name = "try_lock" ∨ name = "lock_shared" ∨ name = "try_lock_shared" then
          v.exclusiveOwner != some threadId && v.sharedCounts threadId == 0
        else if name = "unlock" then v.exclusiveOwner == some threadId
        else if name = "unlock_shared" then decide (0 < v.sharedCounts threadId)
        else false, v)
    onFinished := fun v task threadId =>
      ⟨updateOwner R v.exclusiveOwner task threadId,
        updateCounts R v.sharedCounts task threadId⟩ }

/-- `GetWorkloadPolicy` of the specifications of mutexes. -/
def mutexPolicy : WorkloadPolicy where
  reserve := [⟨"lock", ["unlock"], 1⟩]

/-- `GetWorkloadPolicy` of the specification of shared mutexes. -/
def sharedMutexPolicy : WorkloadPolicy where
  reserve := [⟨"lock", ["unlock", "unlock_shared"], 1⟩,
    ⟨"lock_shared", ["unlock", "unlock_shared"], 1⟩]

/-- `LibcoroMutexVerifier`. -/
def libcoroMutexVerifier (R : TaskReader T) : StrategyTaskVerifier (ReserveState (Option ℕ)) T :=
  reservePolicyVerifier mutexPolicy (libcoroMutexVerifierBase R)

/-- `FollyCoroMutexVerifier`. -/
def follyCoroMutexVerifier (R : TaskReader T) :
    StrategyTaskVerifier (ReserveState (Option ℕ)) T :=
  reservePolicyVerifier mutexPolicy (follyCoroMutexVerifierBase R)

/-- `FollyCoroSharedMutexVerifier`. -/
def follyCoroSharedMutexVerifier (R : TaskReader T) :
    StrategyTaskVerifier (ReserveState SharedOwners) T :=
  reservePolicyVerifier sharedMutexPolicy (follyCoroSharedMutexVerifierBase R)

/-! ### Runs -/

/-- A call of a strategy to its verifier. Rounds are separated by `reset`. -/
inductive Call (T : Type)
  | verify (name : String) (threadId : ℕ) (isNew : Bool)
  | verifyStart (name : String) (threadId : ℕ) (ctx : StartContext)
  | verifyExisting (task : T) (threadId : ℕ)
  | onTaskStarted (name : String) (threadId taskId : ℕ)
  | onFinished (task : T) (threadId : ℕ)
  | reset
  | onRoundStart (threads : ℕ)

namespace Call

/-- The call starts a new round. -/
def isReset : Call T → Bool
  | reset => true
  | _ => false

/-- The call reports that the thread has finished a task with a property. -/
def finishes (threadId : ℕ) (p : T → Bool) : Call T → Bool
  | onFinished task i => i == threadId && p task
  | _ => false

end Call

/-- The state after a call. -/
def StrategyTaskVerifier.call (V : StrategyTaskVerifier ν T) (v : ν) : Call T → ν
  | .verify name threadId isNew => (V.verify v name threadId isNew).2
  | .verifyStart name threadId ctx => (V.verifyStart v name threadId ctx).2
  | .verifyExisting task threadId => (V.verifyExisting v task threadId).2
  | .onTaskStarted name threadId taskId => V.onTaskStarted v name threadId taskId
  | .onFinished task threadId => V.onFinished v task threadId
  | .reset => V.reset v
  | .onRoundStart threads => V.onRoundStart v threads

/-- The state after some calls. -/
def StrategyTaskVerifier.after (V : StrategyTaskVerifier ν T) (init : ν) (calls : List (Call T)) :
    ν :=
  calls.foldl V.call init

@[simp] theorem StrategyTaskVerifier.after_append_singleton (V : StrategyTaskVerifier ν T)
    (init : ν) (calls : List (Call T)) (c : Call T) :
    V.after init (calls ++ [c]) = V.call (V.after init calls) c := by
  simp [after]

/-- The calls of the current round. -/
def currentRound (calls : List (Call T)) : List (Call T) := calls.rtakeWhile fun c => !c.isReset

theorem currentRound_append_singleton (calls : List (Call T)) (c : Call T) :
    currentRound (calls ++ [c]) = if c.isReset then [] else currentRound calls ++ [c] := by
  rw [currentRound, List.rtakeWhile_concat]
  cases c.isReset <;> rfl

/-- The task has acquired an exclusive lock. -/
def acquires (R : TaskReader T) (task : T) : Bool :=
  (R.name task == "lock" && R.isReturned task) || (R.name task == "try_lock" && R.retBool task)

/-- The task has acquired a shared lock. -/
def acquiresShared (R : TaskReader T) (task : T) : Bool :=
  (R.name task == "lock_shared" && R.isReturned task) ||
    (R.name task == "try_lock_shared" && R.retBool task)

/-- The thread has finished acquiring a lock and has finished no unlock since. -/
def Holds (R : TaskReader T) (calls : List (Call T)) (threadId : ℕ) : Prop :=
  ∃ before task after, calls = before ++ Call.onFinished task threadId :: after ∧
    acquires R task = true ∧
    ∀ c ∈ after, c.finishes threadId (fun task => R.name task == "unlock") = false

/-- How often the thread has finished acquiring a shared lock. -/
def acquisitions (R : TaskReader T) (calls : List (Call T)) (threadId : ℕ) : ℕ :=
  calls.countP (Call.finishes threadId (acquiresShared R))

/-- How often the thread has finished `unlock_shared`. -/
def releases (R : TaskReader T) (calls : List (Call T)) (threadId : ℕ) : ℕ :=
  calls.countP (Call.finishes threadId fun task => R.name task == "unlock_shared")

/-! ### The owner -/

section Owner

variable {R : TaskReader T} {calls : List (Call T)} {t : ℕ}

/-- How a call changes the owner. -/
def Call.updateOwner (R : TaskReader T) (owner : Option ℕ) : Call T → Option ℕ
  | .onFinished task threadId => Scheduler.updateOwner R owner task threadId
  | _ => owner

theorem Holds.append_singleton (h : Holds R calls t) {c : Call T}
    (hc : c.finishes t (fun task => R.name task == "unlock") = false) :
    Holds R (calls ++ [c]) t := by
  obtain ⟨before, task, after, rfl, hacq, hafter⟩ := h
  refine ⟨before, task, after ++ [c], by simp, hacq, fun d hd => ?_⟩
  cases List.mem_append.mp hd with
  | inl hd => exact hafter d hd
  | inr hd => exact List.mem_singleton.mp hd ▸ hc

theorem holds_append_singleton {task : T} (hacq : acquires R task = true) :
    Holds R (calls ++ [Call.onFinished task t]) t :=
  ⟨calls, task, [], rfl, hacq, by simp⟩

/-- The owner after a finished task: it has acquired the lock now, or it was the owner and this is
not its unlock. -/
theorem owner_of_updateOwner {owner : Option ℕ} {task : T} {i : ℕ}
    (h : updateOwner R owner task i = some t) :
    (i = t ∧ acquires R task = true) ∨
      owner = some t ∧ (Call.onFinished task i).finishes t
        (fun task => R.name task == "unlock") = false := by
  unfold updateOwner at h
  split at h
  · rename_i hname
    split at h
    · rename_i hret
      exact .inl ⟨Option.some.inj h, by simp [acquires, hname, hret]⟩
    · exact .inr ⟨h, by simp [Call.finishes, hname]⟩
  split at h
  · rename_i hname
    split at h
    · rename_i hret
      exact .inl ⟨Option.some.inj h, by simp [acquires, hname, hret]⟩
    · exact .inr ⟨h, by simp [Call.finishes, hname]⟩
  split at h
  · split at h
    · cases h
    · rename_i hne
      refine .inr ⟨h, ?_⟩
      have hit : i ≠ t := by
        rintro rfl
        exact hne h
      simp [Call.finishes, hit]
  · rename_i hname
    exact .inr ⟨h, by simp [Call.finishes, hname]⟩

/-- **The owner has locked in the current round**, if no round before ended with an owner. -/
theorem holds_of_owner (owner : List (Call T) → Option ℕ) (hinit : owner [] = none)
    (hcall : ∀ (calls : List (Call T)) (c : Call T),
      owner (calls ++ [c]) = c.updateOwner R (owner calls))
    (hreleased : ∀ before : List (Call T), before ++ [Call.reset] <+: calls → owner before = none)
    (h : owner calls = some t) : Holds R (currentRound calls) t := by
  induction calls using List.reverseRecOn with
  | nil =>
    rw [hinit] at h
    cases h
  | append_singleton calls c ih =>
    have ih := ih fun before hb => hreleased before (hb.trans (List.prefix_append _ _))
    rw [hcall] at h
    rw [currentRound_append_singleton]
    cases c with
    | reset =>
      have hnone := hreleased calls List.prefix_rfl
      cases hnone.symm.trans h
    | onFinished task i =>
      obtain ⟨rfl, hacq⟩ | ⟨howner, hc⟩ := owner_of_updateOwner h
      · exact holds_append_singleton hacq
      · exact (ih howner).append_singleton hc
    | _ => exact (ih h).append_singleton rfl

end Owner

/-! ### The counts of shared owners -/

section Counts

variable {R : TaskReader T} {counts : ℕ → ℕ}

/-- How a call changes the counts. -/
def Call.updateCounts (R : TaskReader T) (counts : ℕ → ℕ) : Call T → ℕ → ℕ
  | .onFinished task threadId => Scheduler.updateCounts R counts task threadId
  | _ => counts

theorem updateCounts_cases (R : TaskReader T) (counts : ℕ → ℕ) (task : T) (i : ℕ) :
    (acquiresShared R task = true ∧ R.name task ≠ "unlock_shared" ∧
        updateCounts R counts task i = Function.update counts i (counts i + 1)) ∨
      (acquiresShared R task = false ∧ R.name task = "unlock_shared" ∧
        updateCounts R counts task i = Function.update counts i (counts i - 1)) ∨
      (acquiresShared R task = false ∧ R.name task ≠ "unlock_shared" ∧
        updateCounts R counts task i = counts) := by
  rw [updateCounts]
  split
  · rename_i hname
    split
    · rename_i hret
      exact .inl ⟨by simp [acquiresShared, hname, hret], by simp [hname], rfl⟩
    · rename_i hret
      exact .inr (.inr ⟨by simp [acquiresShared, hname, hret], by simp [hname], rfl⟩)
  rename_i hlock
  split
  · rename_i hname
    split
    · rename_i hret
      exact .inl ⟨by simp [acquiresShared, hname, hret], by simp [hname], rfl⟩
    · rename_i hret
      exact .inr (.inr ⟨by simp [acquiresShared, hname, hret], by simp [hname], rfl⟩)
  rename_i htry
  have hacquires : acquiresShared R task = false := by simp [acquiresShared, hlock, htry]
  split
  · rename_i hname
    refine .inr (.inl ⟨hacquires, hname, ?_⟩)
    split
    · rfl
    · rename_i hzero
      have hsame : counts i - 1 = counts i := by omega
      rw [hsame, Function.update_eq_self]
  · rename_i hname
    exact .inr (.inr ⟨hacquires, hname, rfl⟩)

theorem updateCounts_of_ne {task : T} {i k : ℕ} (h : k ≠ i) :
    updateCounts R counts task i k = counts k := by
  obtain ⟨-, -, heq⟩ | ⟨-, -, heq⟩ | ⟨-, -, heq⟩ := updateCounts_cases R counts task i
  · rw [heq, Function.update_of_ne h]
  · rw [heq, Function.update_of_ne h]
  · rw [heq]

/-- A finished task changes the count of its thread by what it has acquired and released, if it
releases only what is there. -/
theorem updateCounts_add {task : T} {i : ℕ} (hlegal : R.name task = "unlock_shared" → 0 < counts i)
    (t : ℕ) :
    updateCounts R counts task i t +
        (if (Call.onFinished task i).finishes t (fun task => R.name task == "unlock_shared") then 1
          else 0) =
      counts t + if (Call.onFinished task i).finishes t (acquiresShared R) then 1 else 0 := by
  by_cases hit : i = t
  · subst hit
    obtain ⟨hacq, hname, heq⟩ | ⟨hacq, hname, heq⟩ | ⟨hacq, hname, heq⟩ :=
      updateCounts_cases R counts task i
    · simp [Call.finishes, hacq, hname, heq]
    · have hpos := hlegal hname
      simp only [Call.finishes, hacq, hname, heq, Function.update_self, beq_self_eq_true,
        Bool.and_true, Bool.and_false, if_true, Bool.false_eq_true, if_false]
      omega
    · simp [Call.finishes, hacq, hname, heq]
  · rw [updateCounts_of_ne (Ne.symm hit)]
    simp [Call.finishes, hit]

/-- The counts are the acquisitions without the releases of the current round, if no round before
ended with a shared owner and only owners release. -/
theorem counts_add_releases (counts : List (Call T) → ℕ → ℕ) (hinit : counts [] = fun _ => 0)
    (hcall : ∀ (calls : List (Call T)) (c : Call T),
      counts (calls ++ [c]) = c.updateCounts R (counts calls)) {calls : List (Call T)}
    (hreleased : ∀ before : List (Call T), before ++ [Call.reset] <+: calls →
      counts before = fun _ => 0)
    (hlegal : ∀ (before : List (Call T)) (task : T) (i : ℕ),
      before ++ [Call.onFinished task i] <+: calls →
      R.name task = "unlock_shared" → 0 < counts before i) (t : ℕ) :
    counts calls t + releases R (currentRound calls) t = acquisitions R (currentRound calls) t := by
  induction calls using List.reverseRecOn with
  | nil => simp [hinit, currentRound, releases, acquisitions]
  | append_singleton calls c ih =>
    have ih := ih (fun before hb => hreleased before (hb.trans (List.prefix_append _ _)))
      fun before task i hb => hlegal before task i (hb.trans (List.prefix_append _ _))
    rw [hcall, currentRound_append_singleton]
    simp only [releases, acquisitions] at ih ⊢
    cases c with
    | reset =>
      have hzero := hreleased calls List.prefix_rfl
      simp [Call.updateCounts, hzero, Call.isReset]
    | onFinished task i =>
      have hadd := updateCounts_add (hlegal calls task i List.prefix_rfl) t
      simp only [Call.isReset, Bool.false_eq_true, if_false, List.countP_append,
        List.countP_singleton, Call.updateCounts]
      omega
    | _ => simpa [Call.isReset, Call.updateCounts, Call.finishes] using ih

end Counts

/-! ### Runs of the verifiers -/

section Verifiers

variable (R : TaskReader T)

/-- The calls change the owner as they do without the policy. -/
theorem mutex_base_call (pol : WorkloadPolicy) (v : ReserveState (Option ℕ)) (c : Call T) :
    ((reservePolicyVerifier pol (mutexVerifierBase R)).call v c).base = c.updateOwner R v.base := by
  cases c with
  | onTaskStarted name threadId taskId =>
    show (if _ then v else _ : ReserveState (Option ℕ)).base = v.base
    split <;> rfl
  | _ => rfl

/-- The calls change the owners as they do without the policy. -/
theorem shared_base_call (pol : WorkloadPolicy) (v : ReserveState SharedOwners) (c : Call T) :
    ((reservePolicyVerifier pol (follyCoroSharedMutexVerifierBase R)).call v c).base =
      ⟨c.updateOwner R v.base.exclusiveOwner, c.updateCounts R v.base.sharedCounts⟩ := by
  cases c with
  | onTaskStarted name threadId taskId =>
    show (if _ then v else _ : ReserveState SharedOwners).base = v.base
    split <;> rfl
  | _ => rfl

/-- A step of a run of a mutex verifier at which the theorem below holds: a round is left only when
the mutex is not owned. -/
def MutexStep (v : ReserveState (Option ℕ)) (c : Call T) : Prop :=
  c.isReset = true → v.base = none

/-- A step of a run of the shared mutex verifier at which the theorem below holds: a round is left
only when nothing is owned, and only a shared owner finishes `unlock_shared`. -/
def SharedMutexStep (v : ReserveState SharedOwners) (c : Call T) : Prop :=
  (c.isReset = true → v.base.exclusiveOwner = none ∧ v.base.sharedCounts = fun _ => 0) ∧
    ∀ threadId, c.finishes threadId (fun task => R.name task == "unlock_shared") = true →
      0 < v.base.sharedCounts threadId

/-- All steps of a run have a property. -/
def StrategyTaskVerifier.Steps (V : StrategyTaskVerifier ν T) (init : ν) (P : ν → Call T → Prop)
    (calls : List (Call T)) : Prop :=
  ∀ (before : List (Call T)) (c : Call T), before ++ [c] <+: calls → P (V.after init before) c

/-- A mutex verifier verifies an unlock only of a thread that has locked in this round. -/
theorem mutex_holds (pol : WorkloadPolicy) {calls : List (Call T)}
    (hsteps : (reservePolicyVerifier pol (mutexVerifierBase R)).Steps { base := none } MutexStep
      calls) {t : ℕ} {isNew : Bool}
    (h : ((reservePolicyVerifier pol (mutexVerifierBase R)).verify
      ((reservePolicyVerifier pol (mutexVerifierBase R)).after { base := none } calls)
      "unlock" t isNew).1 = true) :
    Holds R (currentRound calls) t := by
  let owner (calls : List (Call T)) : Option ℕ :=
    ((reservePolicyVerifier pol (mutexVerifierBase R)).after { base := none } calls).base
  have hcall (calls : List (Call T)) (c : Call T) :
      owner (calls ++ [c]) = c.updateOwner R (owner calls) := by
    simp only [owner, StrategyTaskVerifier.after_append_singleton, mutex_base_call]
  have howner : (owner calls == some t) = true := h
  exact holds_of_owner owner rfl hcall (fun before hb => hsteps before .reset hb rfl)
    (eq_of_beq howner)

section Shared

variable {R} {calls : List (Call T)} {t : ℕ} {isNew : Bool}
  (hsteps : (follyCoroSharedMutexVerifier R).Steps { base := {} } (SharedMutexStep R) calls)

include hsteps

/-- The shared mutex verifier verifies an unlock only of a thread that has locked in this round. -/
theorem shared_holds
    (h : ((follyCoroSharedMutexVerifier R).verify
      ((follyCoroSharedMutexVerifier R).after { base := {} } calls) "unlock" t isNew).1 = true) :
    Holds R (currentRound calls) t := by
  let owner (calls : List (Call T)) : Option ℕ :=
    ((follyCoroSharedMutexVerifier R).after { base := {} } calls).base.exclusiveOwner
  have hcall (calls : List (Call T)) (c : Call T) :
      owner (calls ++ [c]) = c.updateOwner R (owner calls) := by
    simp only [owner, StrategyTaskVerifier.after_append_singleton, follyCoroSharedMutexVerifier,
      shared_base_call]
  have howner : (owner calls == some t) = true := h
  exact holds_of_owner owner rfl hcall (fun before hb => ((hsteps before .reset hb).1 rfl).1)
    (eq_of_beq howner)

/-- The shared mutex verifier verifies a shared unlock only of a thread that has acquired more than
it has released in this round. -/
theorem shared_releases_lt
    (h : ((follyCoroSharedMutexVerifier R).verify
      ((follyCoroSharedMutexVerifier R).after { base := {} } calls)
      "unlock_shared" t isNew).1 = true) :
    releases R (currentRound calls) t < acquisitions R (currentRound calls) t := by
  let counts (calls : List (Call T)) : ℕ → ℕ :=
    ((follyCoroSharedMutexVerifier R).after { base := {} } calls).base.sharedCounts
  have hcall (calls : List (Call T)) (c : Call T) :
      counts (calls ++ [c]) = c.updateCounts R (counts calls) := by
    simp only [counts, StrategyTaskVerifier.after_append_singleton, follyCoroSharedMutexVerifier,
      shared_base_call]
  have hpos : 0 < counts calls t := of_decide_eq_true h
  have hadd := counts_add_releases counts rfl hcall
    (fun before hb => ((hsteps before .reset hb).1 rfl).2)
    (fun before task i hb hname =>
      (hsteps before (.onFinished task i) hb).2 i (by simp [Call.finishes, hname])) t
  omega

end Shared

/-- **When an unlock is verified.** If each round ends with the locks released, and `unlock_shared`
is finished only by shared owners, then an unlock is verified only for what the thread has locked
in the current round. -/
theorem unlock_verified_only_if_held (calls : List (Call T)) (t : ℕ) (isNew : Bool) :
    ((libcoroMutexVerifier R).Steps { base := none } MutexStep calls →
      ((libcoroMutexVerifier R).verify
        ((libcoroMutexVerifier R).after { base := none } calls) "unlock" t isNew).1 = true →
      Holds R (currentRound calls) t) ∧
    ((follyCoroMutexVerifier R).Steps { base := none } MutexStep calls →
      ((follyCoroMutexVerifier R).verify
        ((follyCoroMutexVerifier R).after { base := none } calls) "unlock" t isNew).1 = true →
      Holds R (currentRound calls) t) ∧
    ((follyCoroSharedMutexVerifier R).Steps { base := {} } (SharedMutexStep R) calls →
      (((follyCoroSharedMutexVerifier R).verify
        ((follyCoroSharedMutexVerifier R).after { base := {} } calls)
        "unlock" t isNew).1 = true → Holds R (currentRound calls) t) ∧
      (((follyCoroSharedMutexVerifier R).verify
        ((follyCoroSharedMutexVerifier R).after { base := {} } calls)
        "unlock_shared" t isNew).1 = true →
        releases R (currentRound calls) t < acquisitions R (currentRound calls) t)) :=
  ⟨fun hsteps h => mutex_holds R mutexPolicy hsteps h,
    fun hsteps h => mutex_holds R mutexPolicy hsteps h,
    fun hsteps => ⟨fun h => shared_holds hsteps h, fun h => shared_releases_lt hsteps h⟩⟩

end Verifiers

/-- A task that is only its name and has returned `true`. -/
def nameReader : TaskReader String where
  name task := task
  isReturned _ := true
  retBool _ := true

/-- After a lock, its unlock is verified by all three verifiers. -/
theorem unlock_verified_after_lock :
    Holds nameReader (currentRound [.onFinished "lock" 0]) 0 ∧
      releases nameReader (currentRound [.onFinished "lock_shared" 0]) 0 <
        acquisitions nameReader (currentRound [.onFinished "lock_shared" 0]) 0 := by
  have hfirst {before : List (Call String)} {c d : Call String}
      (h : before ++ [c] <+: [d]) : before = [] ∧ c = d := by
    have hlen := h.length_le
    cases before with
    | nil => simpa using h
    | cons _ _ => simp at hlen
  refine ⟨(unlock_verified_only_if_held nameReader [.onFinished "lock" 0] 0 true).1
    (fun before c h hreset => ?_) rfl,
    ((unlock_verified_only_if_held nameReader [.onFinished "lock_shared" 0] 0 true).2.2
      (fun before c h => ?_)).2 rfl⟩
  · obtain ⟨rfl, rfl⟩ := hfirst h
    rfl
  · obtain ⟨rfl, rfl⟩ := hfirst h
    exact ⟨nofun, by simp [Call.finishes, nameReader]⟩

/-- A lock held at the end of a round: in the next round, where nothing was locked yet, all three
verifiers verify its unlock. -/
theorem unlock_verified_in_next_round :
    let calls : List (Call String) := [.onFinished "lock" 0, .reset, .onRoundStart 2]
    ((libcoroMutexVerifier nameReader).verify
      ((libcoroMutexVerifier nameReader).after { base := none } calls) "unlock" 0 true).1 = true ∧
    ((follyCoroMutexVerifier nameReader).verify
      ((follyCoroMutexVerifier nameReader).after { base := none } calls)
      "unlock" 0 true).1 = true ∧
    ((follyCoroSharedMutexVerifier nameReader).verify
      ((follyCoroSharedMutexVerifier nameReader).after { base := {} } calls)
      "unlock" 0 true).1 = true ∧
    ¬ Holds nameReader (currentRound calls) 0 := by
  refine ⟨rfl, rfl, rfl, ?_⟩
  have hround : currentRound ([.onFinished "lock" 0, .reset, .onRoundStart 2] :
      List (Call String)) = [.onRoundStart 2] := rfl
  rw [hround]
  rintro ⟨before, task, after, h, -⟩
  have hmem : Call.onFinished task 0 ∈ [(.onRoundStart 2 : Call String)] := by
    rw [h]
    simp
  simp at hmem

end Scheduler

end LTest
