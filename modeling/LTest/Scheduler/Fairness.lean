import LTest.Scheduler.Strategies
import Mathlib.Algebra.Order.BigOperators.Group.Finset
import Mathlib.Tactic.IntervalCases

/-!
# Round-robin is fair

`Pick` and `PickSchedule` of `RoundRobinStrategy` share the counter `next_task`. A call tries the
threads from the counter on and stops behind the first one that is eligible. So a thread that stays
eligible is passed only when it is returned: with every call that returns another thread the counter
comes closer to it, and `n` calls are enough.

## Main definitions

* `StrategyTaskVerifier.Pure` — the checks of the verifier do not change its state
* `PickCall` — the two calls, with the threads that are eligible for them

## Main results

* `PickCall.result_cases` — what a call returns
* `roundRobin_fair` — the headline
-/

namespace LTest

namespace Scheduler

variable {P : Program} {ν γ : Type}

/-- The check of existing tasks does not change the state of the verifier. -/
def StrategyTaskVerifier.Pure {T : Type} (V : StrategyTaskVerifier ν T) : Prop :=
  ∀ v task i, (V.verifyExisting v task i).2 = v

section Pure

variable {V : Verifier P ν} (hV : V.Pure)

include hV

theorem StrategyTaskVerifier.Pure.eligible (w : World P ν) (onlyOne verifyFirst : Bool) (v : ν)
    (i : ℕ) : (w.eligible V onlyOne verifyFirst v i).2 = v := by
  unfold World.eligible
  split
  · rfl
  split
  · rfl
  dsimp only
  split
  · split
    · rfl
    · exact hV v _ i
  · rfl

theorem StrategyTaskVerifier.Pure.eligibleSchedule (w : World P ν) (roundSchedule : List (Option ℕ))
    (v : ν) (i : ℕ) : (w.eligibleSchedule V roundSchedule v i).2 = v := by
  unfold World.eligibleSchedule
  split
  · split
    · rfl
    · exact hV v _ i
  · rfl

end Pure

/-! ### The two calls -/

/-- `Pick` or `PickSchedule`. -/
inductive PickCall
  | pick
  | pickSchedule
  deriving DecidableEq, Repr

namespace PickCall

section Calls

variable (V : Verifier P ν) (G : Rng γ) (onlyOne : Bool) (c : PickCall)
  (w : World P ν) (s : Base P γ ℕ)

/-- How a thread is tested. -/
def test : ν → ℕ → Bool × ν :=
  match c with
  | pick => w.eligible V onlyOne false
  | pickSchedule => w.eligibleSchedule V s.roundSchedule

/-- Whether a thread is eligible. -/
def eligible (i : ℕ) : Bool := (c.test V onlyOne w s w.verifier i).1

/-- What `RoundRobinStrategy` returns. -/
def result : Option ℕ × ν × Base P γ ℕ :=
  match c with
  | pick => (roundRobinStrategy V G onlyOne).nextThreadId w s
  | pickSchedule => (roundRobinStrategy V G onlyOne).pickSchedule w s

/-- How many threads are scanned. -/
def scanned : ℕ :=
  Scan.attempts (c.test V onlyOne w s) (· % w.threads.length) (fun k => (k + 1) % 2 ^ 64)
    w.threads.length w.verifier s.own

theorem result_eq : c.result V G onlyOne w s =
    roundRobinPick (c.test V onlyOne w s) w.threads.length w.verifier s := by
  cases c <;> rfl

end Calls

variable {V : Verifier P ν} {G : Rng γ} {onlyOne : Bool} {c : PickCall}
  {w : World P ν} {s : Base P γ ℕ}

theorem test_state (hV : V.Pure) (i : ℕ) : (c.test V onlyOne w s w.verifier i).2 = w.verifier := by
  cases c with
  | pick => exact hV.eligible w onlyOne false _ i
  | pickSchedule => exact hV.eligibleSchedule w _ _ i

/-- **What a call returns**: the first eligible thread from the counter on. -/
theorem result_cases (hV : V.Pure) (htotal : s.own + c.scanned V onlyOne w s < 2 ^ 64) :
    (∃ a < w.threads.length,
        (c.result V G onlyOne w s).1 = some ((s.own + a) % w.threads.length) ∧
        (c.result V G onlyOne w s).2.2.own = s.own + (a + 1) ∧
        c.scanned V onlyOne w s = a + 1 ∧
        ∀ b < a, c.eligible V onlyOne w s ((s.own + b) % w.threads.length) = false) ∨
      (c.result V G onlyOne w s).1 = none ∧
        ∀ i < w.threads.length, c.eligible V onlyOne w s i = false := by
  have hstate : ∀ i, (c.test V onlyOne w s w.verifier i).2 = w.verifier := test_state hV
  obtain ⟨a, ha, hscan, hcount, -, hfail⟩ | ⟨hscan, hcount, hfail⟩ :=
    Scan.cyclic_cases hstate (· % w.threads.length) (fun k => (k + 1) % 2 ^ 64) w.threads.length
      s.own
  · left
    rw [scanned, hcount] at htotal
    refine ⟨a, ha, ?_, ?_, hcount, fun b hb => ?_⟩
    · rw [result_eq, roundRobinPick, hscan, iterate_counter (by omega)]
    · rw [result_eq, roundRobinPick, hscan]
      exact iterate_counter htotal
    · rw [← hfail b hb, iterate_counter (by omega)]
      rfl
  · right
    rw [scanned, hcount] at htotal
    refine ⟨?_, fun i hi => ?_⟩
    · rw [result_eq, roundRobinPick, hscan]
    · obtain ⟨a, ha, rfl⟩ := exists_attempt s.own hi
      rw [← hfail a ha, iterate_counter (by omega)]
      rfl

end PickCall

/-! ### Consecutive calls -/

/-- Consecutive calls. -/
structure PickCalls (V : Verifier P ν) (G : Rng γ) (onlyOne : Bool) (n : ℕ) where
  /-- The calls. -/
  call : ℕ → PickCall
  /-- The rounds. -/
  world : ℕ → World P ν
  /-- The variables of the strategy. -/
  state : ℕ → Base P γ ℕ
  /-- The number of threads stays constant. -/
  threads : ∀ k < n, (world k).threads.length = n
  /-- Other variables may change between calls. -/
  next : ∀ k < n,
    (state (k + 1)).own = ((call k).result V G onlyOne (world k) (state k)).2.2.own

namespace PickCalls

variable {V : Verifier P ν} {G : Rng γ} {onlyOne : Bool} {n : ℕ}
  (C : PickCalls V G onlyOne n)

/-- Whether a thread is eligible at a call. -/
def eligible (k i : ℕ) : Bool := (C.call k).eligible V onlyOne (C.world k) (C.state k) i

/-- The thread that a call returns. -/
def returned (k : ℕ) : Option ℕ := ((C.call k).result V G onlyOne (C.world k) (C.state k)).1

/-- How many threads a call scans. -/
def scanned (k : ℕ) : ℕ := (C.call k).scanned V onlyOne (C.world k) (C.state k)

variable {C}

/-- The counter has not passed the thread while the thread is not returned. -/
theorem counter_le (hV : V.Pure)
    (htotal : (C.state 0).own + ∑ k ∈ Finset.range n, C.scanned k < 2 ^ 64) {i m : ℕ}
    (hm : m % n = i) (hle : (C.state 0).own ≤ m) (hi : i < n)
    (heligible : ∀ k < n, C.eligible k i = true) (hnot : ∀ k < n, C.returned k ≠ some i) {k : ℕ}
    (hk : k ≤ n) :
    (C.state k).own = (C.state 0).own + ∑ j ∈ Finset.range k, C.scanned j ∧
      (C.state 0).own + k ≤ (C.state k).own ∧ (C.state k).own ≤ m := by
  induction k with
  | zero => exact ⟨by simp, Nat.le_refl _, hle⟩
  | succ k ih =>
    obtain ⟨hsum, hlow, hhigh⟩ := ih (Nat.le_of_succ_le hk)
    have hthreads := C.threads k hk
    have hrest : ∑ j ∈ Finset.range (k + 1), C.scanned j ≤ ∑ j ∈ Finset.range n, C.scanned j :=
      Finset.sum_le_sum_of_subset (Finset.range_subset_range.2 hk)
    rw [Finset.sum_range_succ] at hrest ⊢
    have hbound : (C.state k).own + C.scanned k < 2 ^ 64 := by omega
    obtain ⟨a, ha, hresult, hown, hcount, hfail⟩ | ⟨-, hnone⟩ :=
      PickCall.result_cases (G := G) (c := C.call k) hV hbound
    · rw [hthreads] at hresult hfail
      have hnext : (C.state (k + 1)).own = (C.state k).own + (a + 1) := (C.next k hk).trans hown
      have hscan : C.scanned k = a + 1 := hcount
      -- the call neither returns the thread nor skips it
      have hbefore : (C.state k).own + a < m := by
        by_contra hge
        obtain heq | hlt := Nat.eq_or_lt_of_le (Nat.le_of_not_lt hge)
        · exact hnot k hk (hresult.trans (by rw [← heq, hm]))
        · have hskip := hfail (m - (C.state k).own) (by omega)
          rw [Nat.add_sub_cancel' hhigh, hm] at hskip
          exact Bool.false_ne_true (hskip.symm.trans (heligible k hk))
      exact ⟨by omega, by omega, by omega⟩
    · have hfail := hnone i (by rw [hthreads]; exact hi)
      exact absurd (hfail.symm.trans (heligible k hk)) Bool.false_ne_true

/-- A thread that stays eligible is returned. -/
theorem exists_returned (hV : V.Pure)
    (htotal : (C.state 0).own + ∑ k ∈ Finset.range n, C.scanned k < 2 ^ 64) {i : ℕ} (hi : i < n)
    (heligible : ∀ k < n, C.eligible k i = true) : ∃ k < n, C.returned k = some i := by
  by_contra hnone
  obtain ⟨a, ha, hm⟩ := exists_attempt (C.state 0).own hi
  obtain ⟨-, hlow, hhigh⟩ := counter_le hV htotal hm (Nat.le_add_right _ _) hi heligible
    (fun k hk h => hnone ⟨k, hk, h⟩) (Nat.le_refl n)
  omega

end PickCalls

/-- **Round-robin is fair**: if `n` is the number of threads, a thread that is eligible at each of
`n` consecutive calls is returned by one of them, and a call returns no thread only if none is
eligible. -/
theorem roundRobin_fair {V : Verifier P ν} (G : Rng γ) (onlyOne : Bool) (hV : V.Pure) :
    (∀ (n : ℕ) (C : PickCalls V G onlyOne n),
        (C.state 0).own + ∑ k ∈ Finset.range n, C.scanned k < 2 ^ 64 → ∀ i < n,
          (∀ k < n, C.eligible k i = true) → ∃ k < n, C.returned k = some i) ∧
      ∀ (c : PickCall) (w : World P ν) (s : Base P γ ℕ),
        s.own + c.scanned V onlyOne w s < 2 ^ 64 → (c.result V G onlyOne w s).1 = none →
          ∀ i < w.threads.length, c.eligible V onlyOne w s i = false := by
  refine ⟨fun n C htotal i hi heligible => C.exists_returned hV htotal hi heligible, ?_⟩
  intro c w s htotal hnone
  obtain ⟨a, -, hsome, -⟩ | ⟨-, hfail⟩ := PickCall.result_cases (G := G) hV htotal
  · rw [hnone] at hsome
    cases hsome
  · exact hfail

/-- The verifier that allows everything. -/
abbrev permissive : Verifier instantProgram Unit := defaultStrategyTaskVerifier

/-- Two calls of `Pick` on two threads without tasks. -/
def twoPicks : PickCalls permissive Rng.first false 2 where
  call _ := .pick
  world _ := World.new 2 () () ()
  state k := ⟨[instantBuilder], (), [none, none], k⟩
  threads _ _ := rfl
  next k hk := by
    interval_cases k
    · rfl
    · rfl

theorem roundRobin_fair_twoPicks : ∃ k < 2, twoPicks.returned k = some 1 := by
  refine (roundRobin_fair Rng.first false fun _ _ _ => rfl).1 2 twoPicks (by decide) 1
    (by decide) ?_
  intro k _
  rfl

end Scheduler

end LTest
