import Mathlib.Data.Nat.Notation

/-!
# Verifiers

A verifier tells the strategy which tasks may be started on a thread. `ReservePolicyVerifier` wraps
another verifier and adds the rules of a workload policy.

## Main definitions

* `StrategyTaskVerifier` — the calls of a verifier, with its hooks
* `defaultStrategyTaskVerifier`, `onlyOneTaskPerThreadVerifier` — two verifiers
* `reservePolicyVerifier` — a verifier with a workload policy
-/

namespace LTest

namespace Scheduler

/-! ### The interface -/

/-- `StartContext`. -/
structure StartContext where
  /-- The number of threads. -/
  threads : ℕ := 0
  /-- The number of free threads. -/
  freeThreads : ℕ := 0
  /-- The active tasks of a method. -/
  activeByMethod : String → ℕ := fun _ => 0
  /-- The blocked tasks of a method. -/
  blockedByMethod : String → ℕ := fun _ => 0

/-- What verifiers read of a task. -/
structure TaskReader (T : Type) where
  /-- The method. -/
  name : T → String
  /-- Whether it has returned. -/
  isReturned : T → Bool
  /-- The return value as a Boolean. -/
  retBool : T → Bool

/-- `StrategyTaskVerifier` and `verifier_hooks`. Calls may change the state of the verifier, also
those that ask for a verdict. -/
structure StrategyTaskVerifier (ν T : Type) where
  /-- `Verify`. -/
  verify : ν → String → ℕ → Bool → Bool × ν
  /-- `VerifyStart`. -/
  verifyStart : ν → String → ℕ → StartContext → Bool × ν
  /-- `VerifyExisting`. -/
  verifyExisting : ν → T → ℕ → Bool × ν
  /-- `OnTaskStarted`. -/
  onTaskStarted : ν → String → ℕ → ℕ → ν
  /-- `OnFinished`. -/
  onFinished : ν → T → ℕ → ν
  /-- `Reset`. -/
  reset : ν → ν
  /-- `OnRoundStart`. -/
  onRoundStart : ν → ℕ → ν

variable {ν T : Type}

/-- `VerifyTaskStart`, and the same in `NextVerifiedFor`: the two calls that allow a start. -/
def StrategyTaskVerifier.verifyTaskStart (V : StrategyTaskVerifier ν T) (v : ν) (name : String)
    (threadId : ℕ) (ctx : StartContext) : Bool × ν :=
  let r := V.verifyStart v name threadId ctx
  if r.1 then V.verify r.2 name threadId true else r

/-- `DefaultStrategyTaskVerifier`: everything is allowed, and all hooks are empty. -/
def defaultStrategyTaskVerifier : StrategyTaskVerifier ν T where
  verify v _ _ _ := (true, v)
  verifyStart v _ _ _ := (true, v)
  verifyExisting v _ _ := (true, v)
  onTaskStarted v _ _ _ := v
  onFinished v _ _ := v
  reset v := v
  onRoundStart v _ := v

/-- `OnlyOneTaskPerThreadVerifier`; the state is `has_started`. It has no hooks, so an existing
task is verified like a new one. -/
def onlyOneTaskPerThreadVerifier : StrategyTaskVerifier Bool T :=
  let verify (hasStarted : Bool) (threadId : ℕ) (isNew : Bool) : Bool × Bool :=
    if !isNew then (true, hasStarted)
    else if threadId ≠ 0 ∨ hasStarted then (false, hasStarted)
    else (true, true)
  { verify := fun v _ threadId isNew => verify v threadId isNew
    verifyStart := fun v _ _ _ => (true, v)
    verifyExisting := fun v _ threadId => verify v threadId true
    onTaskStarted := fun v _ _ _ => v
    onFinished := fun v _ _ => v
    reset := fun _ => false
    onRoundStart := fun v _ => v }

/-! ### Workload policies -/

/-- `ReserveRule`. -/
structure ReserveRule where
  /-- The method that waits. -/
  waitMethod : String
  /-- The methods that end the wait. -/
  progressMethods : List String
  /-- How many threads are reserved for them. -/
  reserveThreads : ℕ := 1

/-- `PrefixBudgetRule`. -/
structure PrefixBudgetRule where
  /-- The method that waits. -/
  waitMethod : String
  /-- The methods that end the wait. -/
  progressMethods : List String
  /-- How many threads are reserved for them. -/
  reserveThreads : ℕ := 1
  /-- The progress there is at first. -/
  initialCredit : ℕ := 0

/-- `MaxActiveRule`. -/
structure MaxActiveRule where
  /-- The method. -/
  method : String
  /-- The limit. -/
  maxActive : ℕ := 0

/-- `MaxBlockedRule`. -/
structure MaxBlockedRule where
  /-- The method. -/
  method : String
  /-- The limit. -/
  maxBlocked : ℕ := 0

/-- `WorkloadPolicy`; its rollback rules are not read here. -/
structure WorkloadPolicy where
  reserve : List ReserveRule := []
  prefixBudget : List PrefixBudgetRule := []
  maxActive : List MaxActiveRule := []
  maxBlocked : List MaxBlockedRule := []

/-- The variables of `ReservePolicyVerifier`. -/
structure ReserveState (ν : Type) where
  /-- Those of the verifier below. -/
  base : ν
  /-- How many tasks of a method were started. -/
  startedByMethod : String → ℕ := fun _ => 0
  /-- Their ids. -/
  startedTaskIds : List ℕ := []
  /-- The number of threads. -/
  threads : ℕ := 0

namespace WorkloadPolicy

variable (pol : WorkloadPolicy) (method : String)

section

variable (ctx : StartContext)

/-- `active_if`: the active tasks of a method if the new one is started. -/
def activeIf : ℕ := ctx.activeByMethod method + 1

/-- `started_if`: the started tasks of a method if the new one is started. -/
def startedIf (started : String → ℕ) (name : String) : ℕ :=
  if name = method then started name + 1 else started name

/-- The limit on active tasks. -/
def allowsActive : Bool :=
  pol.maxActive.all fun r => !(r.method == method && decide (r.maxActive < activeIf method ctx))

/-- The limit on blocked tasks. -/
def allowsBlocked : Bool :=
  pol.maxBlocked.all fun r =>
    !(r.method == method && decide (r.maxBlocked ≤ ctx.blockedByMethod method))

/-- The budget of a rule; the arithmetic is that of `size_t`. -/
def budget (started : String → ℕ) (ctx : StartContext) (r : PrefixBudgetRule) : UInt64 :=
  (r.progressMethods.map fun pm => UInt64.ofNat (startedIf method started pm)).foldl (· + ·)
    (.ofNat r.initialCredit + .ofNat ctx.threads - .ofNat r.reserveThreads)

/-- The prefix budgets. -/
def allowsPrefix (started : String → ℕ) (ctx : StartContext) : Bool :=
  pol.prefixBudget.all fun r =>
    decide (UInt64.ofNat (startedIf method started r.waitMethod) ≤ budget method started ctx r)

/-- The reserve rules whose wait method is blocked. -/
def triggered : List ReserveRule :=
  pol.reserve.filter fun r => ctx.blockedByMethod r.waitMethod != 0

/-- When few threads are free, only methods that make progress may be started. -/
def allowsReserve : Bool :=
  let rules := pol.triggered ctx
  let allowed := rules.flatMap (·.progressMethods)
  rules.isEmpty || decide ((rules.map (·.reserveThreads)).foldl max 0 < ctx.freeThreads) ||
    allowed.isEmpty || allowed.contains method

end

/-- The rules of the policy for a start of `method`. -/
def allows (started : String → ℕ) (ctx : StartContext) : Bool :=
  pol.allowsActive method ctx && pol.allowsBlocked method ctx &&
    pol.allowsPrefix method started ctx && pol.allowsReserve method ctx

end WorkloadPolicy

/-- `ReservePolicyVerifier`. -/
def reservePolicyVerifier (pol : WorkloadPolicy) (base : StrategyTaskVerifier ν T) :
    StrategyTaskVerifier (ReserveState ν) T where
  verify v name threadId isNew :=
    let r := base.verify v.base name threadId isNew
    (r.1, { v with base := r.2 })
  verifyStart v method threadId ctx :=
    let r := base.verifyStart v.base method threadId ctx
    (r.1 && pol.allows method v.startedByMethod ctx, { v with base := r.2 })
  verifyExisting v task threadId :=
    let r := base.verifyExisting v.base task threadId
    (r.1, { v with base := r.2 })
  onTaskStarted v method threadId taskId :=
    if v.startedTaskIds.contains taskId then v
    else
      { v with
        base := base.onTaskStarted v.base method threadId taskId
        startedByMethod := fun name =>
          if name = method then v.startedByMethod name + 1 else v.startedByMethod name
        startedTaskIds := taskId :: v.startedTaskIds }
  onFinished v task threadId := { v with base := base.onFinished v.base task threadId }
  reset v :=
    { v with base := base.reset v.base, startedByMethod := fun _ => 0, startedTaskIds := [] }
  onRoundStart v threads :=
    { base := base.onRoundStart v.base threads, threads := threads }

end Scheduler

end LTest
