import LTest.Lib.Transition
import LTest.Scheduler.Deadlock
import LTest.Scheduler.Operations

/-!
# Workload policies in a round

`ReservePolicyVerifier` allows a start only if the rules of its policy allow it. A prefix budget
bounds the starts of a method by those of other methods; the bound is computed in `size_t`, where it
wraps around if more threads are reserved than there is credit. A limit on active tasks is tested
with the new task, a limit on blocked tasks without it and only at starts: tasks that were started
before they could block may all block later.

## Main definitions

* `WorkloadStep` — a task is started by `NextVerifiedFor`, or the round goes on
* `WorkloadPolicy.BudgetsHold`, `WorkloadPolicy.LimitsHold` — the rules over the integers
* `WorkloadPolicy.Fits`, `WorkloadPolicy.Settled` — conditions on the starts

## Main results

* `WorkloadPolicy.budgets_hold` — budgets and limits hold after every start
* `WorkloadPolicy.blocked_bounded` — the limit on blocked tasks
-/

namespace LTest

namespace Scheduler

variable {P : Program} {ν : Type}

/-! ### The counts of the verifier -/

variable {pol : WorkloadPolicy}

/-- The two states count the same starts. -/
structure ReserveState.SameCounts (v v' : ReserveState ν) : Prop where
  startedByMethod : v'.startedByMethod = v.startedByMethod
  startedTaskIds : v'.startedTaskIds = v.startedTaskIds

theorem Asks.sameCounts {T : Type} {base : StrategyTaskVerifier ν T} {v v' : ReserveState ν}
    (h : Asks (reservePolicyVerifier pol base) v v') : v.SameCounts v' where
  startedByMethod := h.keeps (·.startedByMethod) (fun _ _ _ _ => rfl) (fun _ _ _ _ => rfl)
    fun _ _ _ => rfl
  startedTaskIds := h.keeps (·.startedTaskIds) (fun _ _ _ _ => rfl) (fun _ _ _ _ => rfl)
    fun _ _ _ => rfl

/-! ### The round -/

namespace World

/-- The number of started tasks of a method. -/
def started (w : World P ν) (method : String) : ℕ := w.countTasks fun t => t.name == method

/-- The number of tasks of a method that have not returned. -/
def active (w : World P ν) (method : String) : ℕ :=
  w.countTasks fun t => !t.returned && t.name == method

/-- The number of tasks of a method that have not returned and are blocked. -/
def blocked (w : World P ν) (method : String) : ℕ :=
  w.countTasks fun t => !t.returned && (t.name == method && w.isBlocked t)

variable {w w' : World P ν}

theorem Fresh.countTasks (h : w.Fresh) (p : Task P → Bool) : w.countTasks p = 0 := by
  have hle : w.countTasks p ≤ Grid.count p [] :=
    Grid.count_le_of_get? fun i j t ht _ => nomatch (h.task?_eq_none i j).symm.trans ht
  exact Nat.le_zero.1 hle

/-- The context of `NextVerifiedFor` counts all tasks, as only the last task of a thread may not
have returned. -/
theorem Orderly.countActive (h : w.Orderly) (p : Task P → Bool) :
    w.countActive p = w.countTasks fun t => !t.returned && p t := by
  refine (Grid.count_eq_countP_back? fun i j t ht hp => h.last i j t ht ?_).symm
  simpa using (Bool.and_eq_true_iff.1 hp).1

theorem Plays.task?_of_task? (h : w.Plays w') {i j : ℕ} {t' : Task P}
    (ht' : w'.task? i j = some t') :
    ∃ t, w.task? i j = some t ∧ t.toTaskInfo = t'.toTaskInfo ∧
      (t'.returned = false → t.returned = false) := by
  have hmodify {i₀ j₀ : ℕ} {f : Task P → Task P}
      (ht' : Grid.get? (Grid.modify w.threads i₀ j₀ f) i j = some t')
      (hinfo : ∀ t, (f t).toTaskInfo = t.toTaskInfo)
      (hret : ∀ t, w.task? i₀ j₀ = some t → (f t).returned = false → t.returned = false) :
      ∃ t, w.task? i j = some t ∧ t.toTaskInfo = t'.toTaskInfo ∧
        (t'.returned = false → t.returned = false) := by
    obtain ⟨rfl, rfl, t, ht, rfl⟩ | ⟨-, ht⟩ := Grid.get?_modify_cases ht'
    · exact ⟨t, ht, (hinfo t).symm, hret t ht⟩
    · exact ⟨t', ht, rfl, id⟩
  cases h with
  | asks v => exact ⟨t', ht', rfl, id⟩
  | allows b => exact ⟨t', ht', rfl, id⟩
  | clears i₀ j₀ => exact hmodify ht' (fun _ => rfl) fun _ _ => id
  | resumes h =>
    obtain ⟨t₀, ht₀, hret₀, rfl⟩ := resume_cases h
    refine hmodify ht' (fun _ => rfl) fun t ht _ => ?_
    exact Option.some.inj (ht₀.symm.trans ht) ▸ hret₀
  | drains R =>
    obtain ⟨t, ht, rfl⟩ := Option.map_eq_some_iff.1 ((Grid.get?_map _).symm.trans ht')
    exact ⟨t, ht, (R.drainTask_toTaskInfo t).symm, fun h => (R.drainTask_returned t).symm.trans h⟩
  | terminates i₀ j₀ => exact hmodify ht' (fun _ => rfl) fun _ _ h => nomatch h

theorem Plays.orderly (h : w.Plays w') (hw : w.Orderly) : w'.Orderly := by
  refine hw.congr (fun i => ?_) (fun i j t' ht' hret' => ?_) h.kept.removed
  · have hinfos := congrArg (Grid.rowLength · i) h.kept.infos
    simpa only [infos, Grid.rowLength_map] using hinfos
  · obtain ⟨t, ht, -, hret⟩ := h.task?_of_task? ht'
    exact ⟨t, ht, hret hret'⟩

theorem Plays.started (h : w.Plays w') (method : String) :
    w'.started method = w.started method := by
  have hinfos (w : World P ν) :
      w.started method = Grid.count (fun info => info.name == method) w.infos :=
    (Grid.count_map (p := fun info : TaskInfo P => info.name == method) Task.toTaskInfo).symm
  rw [hinfos, hinfos, h.kept.infos]

/-- While the round goes on, tasks return and none is started. -/
theorem Plays.active_le (h : w.Plays w') (method : String) :
    w'.active method ≤ w.active method := by
  refine Grid.count_le_of_get? fun i j t' ht' hactive => ?_
  obtain ⟨t, ht, hinfo, hret⟩ := h.task?_of_task? ht'
  rw [Bool.and_eq_true, Bool.not_eq_true'] at hactive
  have hname : t.name = t'.name := congrArg TaskInfo.name hinfo
  refine ⟨t, ht, ?_⟩
  rw [hret hactive.1, hname, hactive.2]
  rfl

theorem blocked_le_active (w : World P ν) (method : String) :
    w.blocked method ≤ w.active method := by
  refine Grid.count_le_of_get? fun i j t ht hblocked => ⟨t, ht, ?_⟩
  rw [Bool.and_eq_true, Bool.and_eq_true] at hblocked
  rw [hblocked.1, hblocked.2.1]
  rfl

section Build

variable {i : ℕ} (hi : i < w.threads.length) (b : TaskBuilder P) (method : String)

include hi

theorem countTasks_build {q : Task P → Bool} (hq : q (w.built i b) = (b.name == method)) :
    (w.build i b).countTasks q =
      if method = b.name then w.countTasks q + 1 else w.countTasks q := by
  refine (Grid.count_push hi).trans ?_
  rw [hq]
  by_cases hname : method = b.name
  · rw [if_pos hname, if_pos (beq_iff_eq.2 hname.symm)]
    rfl
  · rw [if_neg hname, if_neg fun h => hname (beq_iff_eq.1 h).symm]
    rfl

theorem started_build :
    (w.build i b).started method = WorkloadPolicy.startedIf b.name w.started method :=
  countTasks_build hi b method rfl

theorem active_build :
    (w.build i b).active method = WorkloadPolicy.startedIf b.name w.active method :=
  countTasks_build hi b method rfl

/-- A limit on the active tasks of a method survives a start that leaves room for one more. -/
theorem active_build_le {limit : ℕ} (hle : w.active method ≤ limit)
    (hroom : method = b.name → w.active b.name + 1 ≤ limit) :
    (w.build i b).active method ≤ limit := by
  rw [active_build hi, WorkloadPolicy.startedIf]
  split
  · rename_i hmethod
    rw [hmethod]
    exact hroom hmethod
  · exact hle

end Build

end World

/-! ### The steps -/

/-- A task is started on a thread, or something else happens. -/
inductive WorkloadMove (P : Program)
  | starts (i : ℕ) (b : TaskBuilder P)
  | plays

/-- The steps of a round. Calls of the verifier other than the report of a start may change the
variables of the verifier that is wrapped. -/
inductive WorkloadStep (pol : WorkloadPolicy) (base : Verifier P ν)
    (w : World P (ReserveState ν)) : WorkloadMove P → World P (ReserveState ν) → Prop
  | starts {γ ρ : Type} {G : Rng γ} {s s' : Base P γ ρ} {i : ℕ} {b : TaskBuilder P}
      {v : ReserveState ν} (hi : i < w.threads.length)
      (h : nextVerifiedFor (reservePolicyVerifier pol base) G w s (some i) = (.start i b, v, s')) :
      WorkloadStep pol base w (.starts i b) ((w.setVerifier v).build i b)
  | plays {w' : World P (ReserveState ν)} (h : w.Plays w')
      (hcounts : w.verifier.SameCounts w'.verifier) : WorkloadStep pol base w .plays w'

variable {b : TaskBuilder P} {i : ℕ}

theorem WorkloadStep.of_next {γ ρ : Type} {base : Verifier P ν} {w : World P (ReserveState ν)}
    (G : Rng γ) (s : Base P γ ρ) (hi : i < w.threads.length)
    (h : (nextVerifiedFor (reservePolicyVerifier pol base) G w s (some i)).1 = .start i b) :
    WorkloadStep pol base w (.starts i b) ((w.setVerifier
      (nextVerifiedFor (reservePolicyVerifier pol base) G w s (some i)).2.1).build i b) :=
  .starts hi (Prod.ext h (Prod.eta _).symm)

/-- A round without tasks, of which the verifier was told. -/
structure NewRound (w : World P (ReserveState ν)) : Prop where
  fresh : w.Fresh
  startedByMethod : w.verifier.startedByMethod = fun _ => 0
  startedTaskIds : w.verifier.startedTaskIds = []

/-- The verifier counts the tasks of the round. -/
structure Counting (w : World P (ReserveState ν)) : Prop where
  orderly : w.Orderly
  started : w.verifier.startedByMethod = w.started
  lt : ∀ id ∈ w.verifier.startedTaskIds, id < w.newTaskId

namespace Counting

variable {pol : WorkloadPolicy} {base : Verifier P ν}
  {w w' : World P (ReserveState ν)}

theorem of_newRound (h : NewRound w) : Counting w where
  orderly := .of_fresh h.fresh
  started := by
    funext method
    rw [h.startedByMethod]
    exact (h.fresh.countTasks _).symm
  lt := by
    rw [h.startedTaskIds]
    exact fun id hid => absurd hid (by simp)

theorem plays (h : Counting w) (hplays : w.Plays w')
    (hcounts : w.verifier.SameCounts w'.verifier) : Counting w' where
  orderly := hplays.orderly h.orderly
  started := by
    rw [hcounts.startedByMethod, h.started]
    exact (funext hplays.started).symm
  lt := by
    rw [hcounts.startedTaskIds, hplays.kept.newTaskId]
    exact h.lt

theorem build (h : Counting w) (hi : i < w.threads.length) (hfree : w.isFree i = true)
    (b : TaskBuilder P) {v : ReserveState ν}
    (hstarted : v.startedByMethod = WorkloadPolicy.startedIf b.name w.started)
    (hids : v.startedTaskIds = w.newTaskId :: w.verifier.startedTaskIds) :
    Counting ((w.setVerifier v).build i b) where
  orderly := by
    have horderly : (w.setVerifier v).Orderly :=
      h.orderly.congr (fun _ => rfl) (fun _ _ t ht hret => ⟨t, ht, hret⟩) rfl
    exact horderly.build hi hfree b
  started := by
    funext method
    exact (congrFun hstarted method).trans (World.started_build hi b method).symm
  lt id hid := by
    replace hid : id ∈ w.newTaskId :: w.verifier.startedTaskIds := hids ▸ hid
    cases hid with
    | head => exact Nat.lt_succ_self _
    | tail _ hid => exact Nat.lt_succ_of_lt (h.lt id hid)

/-- **What a start means**: the policy allows it in a context that counts the tasks of the round,
and the verifier counts the new task. -/
theorem starts (h : Counting w) (hstep : WorkloadStep pol base w (.starts i b) w') :
    i < w.threads.length ∧ pol.allows b.name w.started w.startContext = true ∧
      (∃ v, w' = (w.setVerifier v).build i b) ∧ Counting w' := by
  cases hstep with
  | @starts γ ρ G s s' _ _ v hi hnext =>
    obtain ⟨-, hfree, v₀, v₁, hasks, hverify, hv⟩ := nextVerifiedFor_start hnext
    have hcounts₀ := hasks.sameCounts
    have hcounts₁ : w.verifier.SameCounts v₁ := by
      have hasks₁ := hasks.verifyTaskStart b.name i w.startContext
      rw [hverify] at hasks₁
      exact hasks₁.sameCounts
    have hallows : pol.allows b.name v₀.startedByMethod w.startContext = true := by
      have hstart : ((reservePolicyVerifier pol base).verifyStart v₀ b.name i
          w.startContext).1 = true := by
        by_contra hnot
        rw [StrategyTaskVerifier.verifyTaskStart, if_neg hnot] at hverify
        exact hnot (congrArg Prod.fst hverify)
      exact (Bool.and_eq_true_iff.1 hstart).2
    have hnew : v₁.startedTaskIds.contains w.newTaskId = false := by
      rw [hcounts₁.startedTaskIds]
      by_contra hmem
      rw [Bool.not_eq_false, List.contains_iff_mem] at hmem
      exact Nat.lt_irrefl _ (h.lt _ hmem)
    rw [hcounts₀.startedByMethod, h.started] at hallows
    simp only [reservePolicyVerifier, hnew, Bool.false_eq_true, if_false] at hv
    refine ⟨hi, hallows, ⟨v, rfl⟩, h.build hi hfree b ?_ ?_⟩
    · rw [hv, hcounts₁.startedByMethod, h.started]
      rfl
    · rw [hv, hcounts₁.startedTaskIds]

end Counting

namespace WorkloadPolicy

/-! ### Budgets and limits -/

section Budgets

theorem foldl_ofNat (l : List ℕ) (x : UInt64) :
    (l.map UInt64.ofNat).foldl (· + ·) x = x + UInt64.ofNat l.sum := by
  induction l generalizing x with
  | nil => simp
  | cons n l ih =>
    rw [List.map_cons, List.foldl_cons, ih, List.sum_cons, UInt64.ofNat_add, UInt64.add_assoc]

/-- All that is added and what is subtracted. -/
theorem budget_eq (method : String) (started : String → ℕ) (ctx : StartContext)
    (r : PrefixBudgetRule) :
    budget method started ctx r =
      UInt64.ofNat (r.initialCredit + ctx.threads +
        (r.progressMethods.map (startedIf method started)).sum) -
          UInt64.ofNat r.reserveThreads := by
  have hmap : (r.progressMethods.map fun pm => UInt64.ofNat (startedIf method started pm)) =
      (r.progressMethods.map (startedIf method started)).map UInt64.ofNat := by
    rw [List.map_map]
    rfl
  rw [budget, hmap, foldl_ofNat, UInt64.ofNat_add, UInt64.ofNat_add]
  grind

variable (pol : WorkloadPolicy)

/-- A start is allowed if each of the four kinds of rules allows it. -/
theorem allows_eq_true_iff {method : String} {started : String → ℕ} {ctx : StartContext} :
    pol.allows method started ctx = true ↔
      pol.allowsActive method ctx = true ∧ pol.allowsBlocked method ctx = true ∧
        pol.allowsPrefix method started ctx = true ∧ pol.allowsReserve method ctx = true := by
  simp only [allows, Bool.and_eq_true, and_assoc]

/-- The prefix budgets over the integers. -/
def BudgetsHold (w : World P ν) : Prop :=
  ∀ r ∈ pol.prefixBudget,
    (w.started r.waitMethod : ℤ) ≤ r.initialCredit + (r.progressMethods.map w.started).sum +
      w.threads.length - r.reserveThreads

/-- The limits on active tasks. -/
def LimitsHold (w : World P ν) : Prop := ∀ r ∈ pol.maxActive, w.active r.method ≤ r.maxActive

/-- When a task is started, no budget is negative, and budgets and counts are less than `2 ^ 64`. -/
def Fits (w : World P ν) : WorkloadMove P → Prop
  | .starts _ b => ∀ r ∈ pol.prefixBudget,
    let credit := r.initialCredit + w.threads.length +
      (r.progressMethods.map (startedIf b.name w.started)).sum
    r.reserveThreads ≤ credit ∧ credit - r.reserveThreads < 2 ^ 64 ∧
      startedIf b.name w.started r.waitMethod < 2 ^ 64
  | .plays => True

variable {pol} {base : Verifier P ν} {w w' : World P (ReserveState ν)}

theorem BudgetsHold.of_start (h : Counting w) (hstep : WorkloadStep pol base w (.starts i b) w')
    (hfits : pol.Fits w (.starts i b)) : pol.BudgetsHold w' := by
  obtain ⟨hi, hallows, ⟨v, rfl⟩, -⟩ := h.starts hstep
  obtain ⟨-, -, hbudget, -⟩ := pol.allows_eq_true_iff.1 hallows
  intro r hr
  obtain ⟨hreserve, hcredit, hwait⟩ := hfits r hr
  have hle := of_decide_eq_true (List.all_eq_true.1 hbudget r hr)
  have hcontext : w.startContext.threads = w.threads.length := rfl
  rw [budget_eq, hcontext, ← UInt64.ofNat_sub hreserve, UInt64.ofNat_le_iff_le hwait hcredit] at hle
  have hstarted : ((w.setVerifier v).build i b).started = startedIf b.name w.started :=
    funext fun method => World.started_build hi b method
  have hthreads : ((w.setVerifier v).build i b).threads.length = w.threads.length :=
    Grid.length_push
  rw [hstarted, hthreads]
  omega

theorem LimitsHold.of_start (h : Counting w) (hlimits : pol.LimitsHold w)
    (hstep : WorkloadStep pol base w (.starts i b) w') : pol.LimitsHold w' := by
  obtain ⟨hi, hallows, ⟨v, rfl⟩, -⟩ := h.starts hstep
  obtain ⟨hactive, -⟩ := pol.allows_eq_true_iff.1 hallows
  intro r hr
  refine World.active_build_le (w := w.setVerifier v) hi b r.method (hlimits r hr) fun hmethod => ?_
  have hrule := List.all_eq_true.1 hactive r hr
  have hcontext : w.startContext.activeByMethod b.name = w.active b.name :=
    h.orderly.countActive _
  rw [hmethod, beq_self_eq_true, Bool.true_and, activeIf, hcontext] at hrule
  have hle : w.active b.name + 1 ≤ r.maxActive := by simpa using hrule
  exact hle

theorem BudgetsHold.plays (h : pol.BudgetsHold w) (hplays : w.Plays w') : pol.BudgetsHold w' := by
  have hstarted : w'.started = w.started := funext hplays.started
  intro r hr
  rw [hstarted, hplays.kept.length_threads]
  exact h r hr

theorem LimitsHold.plays (h : pol.LimitsHold w) (hplays : w.Plays w') : pol.LimitsHold w' :=
  fun r hr => (hplays.active_le r.method).trans (h r hr)

/-- What holds in a round. -/
structure Obeyed (pol : WorkloadPolicy) (w : World P (ReserveState ν)) : Prop where
  counting : Counting w
  limits : pol.LimitsHold w
  budgets : (∀ i j, w.task? i j = none) ∨ pol.BudgetsHold w

theorem Obeyed.of_newRound (h : NewRound w) : pol.Obeyed w where
  counting := .of_newRound h
  limits r _ := (h.fresh.countTasks _).trans_le (Nat.zero_le r.maxActive)
  budgets := .inl h.fresh.task?_eq_none

theorem Obeyed.step {m : WorkloadMove P} (h : pol.Obeyed w) (hfits : pol.Fits w m)
    (hstep : WorkloadStep pol base w m w') : pol.Obeyed w' := by
  cases m with
  | starts i b =>
    exact ⟨(h.counting.starts hstep).2.2.2, h.limits.of_start h.counting hstep,
      .inr (.of_start h.counting hstep hfits)⟩
  | plays =>
    cases hstep with
    | plays hplays hcounts =>
      refine ⟨h.counting.plays hplays hcounts, h.limits.plays hplays,
        h.budgets.imp (fun hnone i j => ?_) fun h => h.plays hplays⟩
      cases ht' : w'.task? i j with
      | none => rfl
      | some t' =>
        obtain ⟨t, ht, -⟩ := hplays.task?_of_task? ht'
        cases (hnone i j).symm.trans ht

end Budgets

/-- **Budgets and limits hold after every start**, in every round in which no budget is negative
when a task is started. -/
theorem budgets_hold {pol : WorkloadPolicy} {base : Verifier P ν}
    {w : World P (ReserveState ν)} (h : Reached (WorkloadStep pol base) pol.Fits NewRound w)
    {i j : ℕ} {t : Task P} (ht : w.task? i j = some t) : pol.BudgetsHold w ∧ pol.LimitsHold w := by
  have hobeyed : pol.Obeyed w :=
    h.invariant (fun _ => Obeyed.of_newRound) fun _ _ _ hw hfits hstep => hw.step hfits hstep
  obtain hnone | hbudgets := hobeyed.budgets
  · cases (hnone i j).symm.trans ht
  · exact ⟨hbudgets, hobeyed.limits⟩

/-- One thread, on which a task of the method `f` is started. -/
def firstStart (pol : WorkloadPolicy) : World instantProgram (ReserveState Unit) :=
  let w : World instantProgram (ReserveState Unit) := World.new 1 () () { base := () }
  let next := nextVerifiedFor (reservePolicyVerifier pol defaultStrategyTaskVerifier) Rng.first w
    ⟨[instantBuilder], (), [none], ()⟩ (some 0)
  (w.setVerifier next.2.1).build 0 instantBuilder

theorem firstStart_step (pol : WorkloadPolicy)
    (h : (nextVerifiedFor (reservePolicyVerifier pol defaultStrategyTaskVerifier) Rng.first
      (World.new 1 () () { base := () }) ⟨[instantBuilder], (), [none], ()⟩ (some 0)).1 =
        .start 0 instantBuilder) :
    WorkloadStep pol defaultStrategyTaskVerifier (World.new 1 () () { base := () })
      (.starts 0 instantBuilder) (firstStart pol) := by
  unfold firstStart
  exact .of_next Rng.first _ Nat.one_pos h

theorem newRound_new (n : ℕ) (P : Program) (target : P.Target) (env : P.Env) :
    NewRound (P := P) (World.new n target env ({ base := () } : ReserveState Unit)) :=
  ⟨World.fresh_new n target env _, rfl, rfl⟩

/-- One credit, one reserved thread and one active task. -/
def oneCredit : WorkloadPolicy where
  prefixBudget := [⟨"f", [], 1, 1⟩]
  maxActive := [⟨"f", 1⟩]

theorem budgets_hold_firstStart : (firstStart oneCredit).started "f" = 1 ∧
    oneCredit.BudgetsHold (firstStart oneCredit) ∧ oneCredit.LimitsHold (firstStart oneCredit) := by
  have h : Reached (WorkloadStep oneCredit defaultStrategyTaskVerifier) oneCredit.Fits NewRound
      (firstStart oneCredit) :=
    .step (.init (newRound_new 1 instantProgram () ())) (m := .starts 0 instantBuilder)
      (fun r hr => List.mem_singleton.1 hr ▸ ⟨by decide, by decide, by decide⟩)
      (firstStart_step oneCredit rfl)
  exact ⟨rfl, budgets_hold h (i := 0) (j := 0) rfl⟩

/-- Two threads of one are reserved. -/
def twoReserved : WorkloadPolicy where
  prefixBudget := [⟨"f", [], 2, 0⟩]

/-- **A negative budget allows every start**: `0 + 1 - 2` wraps around. -/
theorem negative_budget_allows :
    Reached (WorkloadStep twoReserved defaultStrategyTaskVerifier) (fun _ _ => True) NewRound
        (firstStart twoReserved) ∧
      (firstStart twoReserved).started "f" = 1 ∧
      ¬ twoReserved.BudgetsHold (firstStart twoReserved) := by
  refine ⟨?_, rfl, fun h => ?_⟩
  · exact .step (.init (newRound_new 1 instantProgram () ())) trivial
      (firstStart_step twoReserved rfl)
  · exact absurd (h ⟨"f", [], 2, 0⟩ (List.mem_singleton.2 rfl)) (by decide)

/-! ### Blocked tasks -/

section Blocked

variable (pol : WorkloadPolicy)

/-- When a task is started whose method has a limit on blocked tasks, fewer tasks of the method have
not returned, or all of them are blocked. -/
def Settled (w : World P ν) : WorkloadMove P → Prop
  | .starts _ b => ∀ r ∈ pol.maxBlocked, r.method = b.name →
    w.active b.name < r.maxBlocked ∨ w.active b.name = w.blocked b.name
  | .plays => True

/-- The tasks that have not returned are within the limit on blocked tasks. -/
structure Bounded (pol : WorkloadPolicy) (w : World P (ReserveState ν)) : Prop where
  counting : Counting w
  active_le : ∀ r ∈ pol.maxBlocked, w.active r.method ≤ r.maxBlocked

variable {pol} {base : Verifier P ν} {w w' : World P (ReserveState ν)}

theorem Bounded.starts (h : pol.Bounded w) (hsettled : pol.Settled w (.starts i b))
    (hstep : WorkloadStep pol base w (.starts i b) w') : pol.Bounded w' := by
  obtain ⟨hi, hallows, ⟨v, rfl⟩, hcounting⟩ := h.counting.starts hstep
  obtain ⟨-, hblocked, -⟩ := pol.allows_eq_true_iff.1 hallows
  refine ⟨hcounting, fun r hr => ?_⟩
  refine World.active_build_le (w := w.setVerifier v) hi b r.method (h.active_le r hr)
    fun hmethod => ?_
  have hrule := List.all_eq_true.1 hblocked r hr
  have hcontext : w.startContext.blockedByMethod b.name = w.blocked b.name :=
    h.counting.orderly.countActive _
  rw [hmethod, beq_self_eq_true, Bool.true_and, hcontext] at hrule
  have hlt : w.blocked b.name < r.maxBlocked := by simpa using hrule
  have hle : w.active b.name + 1 ≤ r.maxBlocked := by
    have := hsettled r hr hmethod
    omega
  exact hle

theorem Bounded.step {m : WorkloadMove P} (h : pol.Bounded w) (hsettled : pol.Settled w m)
    (hstep : WorkloadStep pol base w m w') : pol.Bounded w' := by
  cases m with
  | starts i b => exact h.starts hsettled hstep
  | plays =>
    cases hstep with
    | plays hplays hcounts =>
      exact ⟨h.counting.plays hplays hcounts, fun r hr =>
        (hplays.active_le r.method).trans (h.active_le r hr)⟩

end Blocked

/-- **The limit on blocked tasks holds** in every round in which tasks are started as the condition
says. -/
theorem blocked_bounded {pol : WorkloadPolicy} {base : Verifier P ν}
    {w : World P (ReserveState ν)} (h : Reached (WorkloadStep pol base) pol.Settled NewRound w)
    {r : MaxBlockedRule} (hr : r ∈ pol.maxBlocked) : w.blocked r.method ≤ r.maxBlocked := by
  have hbounded : pol.Bounded w := by
    refine h.invariant (fun w hw => ?_) fun _ _ _ hw hsettled hstep => hw.step hsettled hstep
    exact ⟨.of_newRound hw, fun r _ => (hw.fresh.countTasks _).trans_le (Nat.zero_le _)⟩
  exact (w.blocked_le_active r.method).trans (hbounded.active_le r hr)

/-- A target whose methods yield at their first resume, and block themselves at the second. -/
def lateProgram : Program where
  Target := Unit
  Env := Unit
  Fiber := Bool
  Args := Unit
  Val := Unit
  targetFactory _ := ((), ())
  resume id _ yielded _ m _ :=
    if yielded then (⟨true, (), m.blockOn (id + 1) id, some (id + 1), none, [], none⟩, ())
    else (⟨true, (), m, none, none, [], none⟩, ())

/-- Its method. -/
def lateBuilder : TaskBuilder lateProgram := ⟨"f", fun _ _ => ((), ()), fun _ => false, false⟩

/-- One blocked task. -/
def oneBlocked : WorkloadPolicy where
  maxBlocked := [⟨"f", 1⟩]

/-- A task is started on a thread of `lateProgram`. -/
def lateStart (i : ℕ) (w : World lateProgram (ReserveState Unit)) :
    World lateProgram (ReserveState Unit) :=
  (w.setVerifier (nextVerifiedFor (reservePolicyVerifier oneBlocked defaultStrategyTaskVerifier)
    Rng.first w ⟨[lateBuilder], (), [none, none], ()⟩ (some i)).2.1).build i lateBuilder

/-- The first task of a thread is resumed. -/
def lateResume (i : ℕ) (w : World lateProgram (ReserveState Unit)) :
    World lateProgram (ReserveState Unit) := (w.resume i 0).getD w

/-- Two threads without tasks. -/
def lateWorld : World lateProgram (ReserveState Unit) := World.new 2 () () { base := () }

variable {w : World lateProgram (ReserveState Unit)}

theorem lateStart_step (hi : i < w.threads.length)
    (h : (nextVerifiedFor (reservePolicyVerifier oneBlocked defaultStrategyTaskVerifier) Rng.first w
      ⟨[lateBuilder], (), [none, none], ()⟩ (some i)).1 = .start i lateBuilder) :
    WorkloadStep oneBlocked defaultStrategyTaskVerifier w (.starts i lateBuilder)
      (lateStart i w) := by
  unfold lateStart
  exact .of_next Rng.first _ hi h

theorem lateResume_step (h : (w.resume i 0).isSome = true) :
    WorkloadStep oneBlocked defaultStrategyTaskVerifier w .plays (lateResume i w) := by
  obtain ⟨w', hw'⟩ := Option.isSome_iff_exists.1 h
  obtain ⟨t, -, -, rfl⟩ := World.resume_cases hw'
  rw [lateResume, hw']
  exact .plays (.resumes hw') ⟨rfl, rfl⟩

theorem blocked_bounded_one :
    (lateResume 0 (lateResume 0 (lateStart 0 lateWorld))).blocked "f" = 1 ∧
      (lateResume 0 (lateResume 0 (lateStart 0 lateWorld))).blocked "f" ≤ 1 := by
  have hstart : Reached (WorkloadStep oneBlocked defaultStrategyTaskVerifier) oneBlocked.Settled
      NewRound (lateStart 0 lateWorld) :=
    .step (.init (newRound_new 2 lateProgram () ())) (m := .starts 0 lateBuilder)
      (fun r hr _ => List.mem_singleton.1 hr ▸ .inl (by decide)) (lateStart_step (by decide) rfl)
  have hfirst := hstart.step (m := WorkloadMove.plays) trivial (lateResume_step (i := 0) rfl)
  have h := hfirst.step (m := WorkloadMove.plays) trivial (lateResume_step (i := 0) rfl)
  exact ⟨rfl, blocked_bounded h (r := ⟨"f", 1⟩) (List.mem_singleton.2 rfl)⟩

/-- **Tasks block after they were started**: the second one is started while the first one could
run, and then both block. -/
theorem both_block :
    let w := lateResume 1 (lateResume 0 (lateResume 1 (lateStart 1 (lateResume 0
      (lateStart 0 lateWorld)))))
    Reached (WorkloadStep oneBlocked defaultStrategyTaskVerifier) (fun _ _ => True) NewRound w ∧
      ¬ w.blocked "f" ≤ 1 := by
  have h₀ : Reached (WorkloadStep oneBlocked defaultStrategyTaskVerifier) (fun _ _ => True) NewRound
      (lateResume 0 (lateStart 0 lateWorld)) :=
    ((Reached.init (newRound_new 2 lateProgram () ())).step trivial
      (lateStart_step (by decide) rfl)).step trivial (lateResume_step rfl)
  have h₁ : Reached (WorkloadStep oneBlocked defaultStrategyTaskVerifier) (fun _ _ => True) NewRound
      (lateResume 1 (lateStart 1 (lateResume 0 (lateStart 0 lateWorld)))) :=
    (h₀.step trivial (lateStart_step (by decide) rfl)).step trivial (lateResume_step rfl)
  refine ⟨(h₁.step trivial (lateResume_step rfl)).step trivial (lateResume_step rfl), ?_⟩
  decide

end WorkloadPolicy

end Scheduler

end LTest
