import Mathlib.Init

/-!
# Transition systems with moves

The states that are reached from given ones by moves. A condition on moves and on the states they
are made in restricts the runs; what holds at the beginning and is kept by every such move holds in
every state that is reached.

## Main definitions

* `Reached` — the states reached by moves that meet a condition

## Main results

* `Reached.invariant` — invariants of such runs
-/

namespace LTest

variable {σ μ : Type*} {step : σ → μ → σ → Prop} {C C' : σ → μ → Prop} {init : σ → Prop}

/-- The states reached from initial ones by moves that all meet the condition `C`. -/
inductive Reached (step : σ → μ → σ → Prop) (C : σ → μ → Prop) (init : σ → Prop) : σ → Prop
  | init {s : σ} (h : init s) : Reached step C init s
  | step {s s' : σ} {m : μ} (h : Reached step C init s) (hC : C s m) (hstep : step s m s') :
      Reached step C init s'

namespace Reached

/-- **Invariants**: what holds initially and is kept by every move holds in every state. -/
theorem invariant {Inv : σ → Prop} (hinit : ∀ s, init s → Inv s)
    (hstep : ∀ s m s', Inv s → C s m → step s m s' → Inv s') {s : σ}
    (h : Reached step C init s) : Inv s := by
  induction h with
  | init h => exact hinit _ h
  | step _ hC hs ih => exact hstep _ _ _ ih hC hs

end Reached

end LTest
