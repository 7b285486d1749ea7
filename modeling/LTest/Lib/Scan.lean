import Mathlib.Logic.Function.Iterate

/-!
# Scans with a test

Loops that look for an index which passes a test. The test may change a state, so that the answer
for an index may depend on the questions asked before. A predicate on states that the test keeps is
kept by a scan; and if the answers are the same in all these states, a scan finds what is there.

## Main definitions

* `Scan.cyclic` — the first index that passes, from a counter on
* `Scan.values`, `Scan.nth` — the values of all indices that pass, and one of these indices
* `Scan.argmax` — the index with the greatest value among those that pass

## Main results

* `Scan.cyclic_cases`, `Scan.argmax_cases` — what is found if the test does not change the state
-/

namespace LTest

namespace Scan

variable {σ : Type} (test : σ → ℕ → Bool × σ)

/-- Tries the index of a counter, and moves the counter on, until an index passes. The first
argument bounds the number of attempts. -/
def cyclic (index next : ℕ → ℕ) : ℕ → σ → ℕ → Option ℕ × σ × ℕ
  | 0, s, k => (none, s, k)
  | n + 1, s, k =>
    let r := test s (index k)
    if r.1 then (some (index k), r.2, next k) else cyclic index next n r.2 (next k)

/-- The number of tests that `cyclic` makes. -/
def attempts (index next : ℕ → ℕ) : ℕ → σ → ℕ → ℕ
  | 0, _, _ => 0
  | n + 1, s, k =>
    let r := test s (index k)
    if r.1 then 1 else attempts index next n r.2 (next k) + 1

/-- The values of the indices that pass. -/
def values (value : ℕ → ℕ) : List ℕ → σ → List ℕ × σ
  | [], s => ([], s)
  | i :: is, s =>
    let r := test s i
    let rest := values value is r.2
    (if r.1 then value i :: rest.1 else rest.1, rest.2)

/-- One of the indices that pass, by its position among them. -/
def nth : List ℕ → σ → ℕ → Option ℕ × σ
  | [], s, _ => (none, s)
  | i :: is, s, k =>
    let r := test s i
    if r.1 then if k = 0 then (some i, r.2) else nth is r.2 (k - 1) else nth is r.2 k

/-- The greatest value of an index that passes, if it is not less than the one given, with the last
such index. -/
def argmax (value : ℕ → ℕ) : List ℕ → σ → ℕ × ℕ → (ℕ × ℕ) × σ
  | [], s, best => (best, s)
  | i :: is, s, best =>
    let r := test s i
    argmax value is r.2 (if r.1 && decide (best.1 ≤ value i) then (value i, i) else best)

variable {test}

/-! ### States -/

section States

variable {Q : σ → Prop} (hQ : ∀ s i, Q s → Q (test s i).2) {s : σ} {is : List ℕ} {value : ℕ → ℕ}

include hQ

theorem cyclic_state {index next : ℕ → ℕ} {n : ℕ} {k : ℕ} (hs : Q s) :
    Q (cyclic test index next n s k).2.1 := by
  induction n generalizing s k with
  | zero => exact hs
  | succ n ih =>
    rw [cyclic]
    cases (test s (index k)).1 with
    | true => exact hQ s (index k) hs
    | false => exact ih (hQ s (index k) hs)

theorem values_state (hs : Q s) : Q (values test value is s).2 := by
  induction is generalizing s with
  | nil => exact hs
  | cons i is ih => exact ih (hQ s i hs)

theorem nth_state {k : ℕ} (hs : Q s) : Q (nth test is s k).2 := by
  induction is generalizing s k with
  | nil => exact hs
  | cons i is ih =>
    rw [nth]
    cases (test s i).1 with
    | true =>
      by_cases hk : k = 0
      · simpa [hk] using hQ s i hs
      · simpa [hk] using ih (k := k - 1) (hQ s i hs)
    | false => exact ih (hQ s i hs)

theorem argmax_state {best : ℕ × ℕ} (hs : Q s) : Q (argmax test value is s best).2 := by
  induction is generalizing s best with
  | nil => exact hs
  | cons i is ih => exact ih (hQ s i hs)

/-! ### Indices -/

theorem cyclic_some {index next : ℕ → ℕ} {n : ℕ} {k i : ℕ} (hs : Q s)
    (h : (cyclic test index next n s k).1 = some i) :
    (∃ k', index k' = i) ∧ ∃ s', Q s' ∧ (test s' i).1 = true := by
  induction n generalizing s k with
  | zero => cases h
  | succ n ih =>
    rw [cyclic] at h
    cases hr : (test s (index k)).1 with
    | true =>
      simp only [hr, if_true] at h
      obtain rfl := Option.some.inj h
      exact ⟨⟨k, rfl⟩, s, hs, hr⟩
    | false =>
      simp only [hr, Bool.false_eq_true, if_false] at h
      exact ih (hQ s (index k) hs) h

theorem nth_some {k i : ℕ} (hs : Q s) (h : (nth test is s k).1 = some i) :
    i ∈ is ∧ ∃ s', Q s' ∧ (test s' i).1 = true := by
  induction is generalizing s k with
  | nil => cases h
  | cons i' is ih =>
    have hrest {k : ℕ} (h : (nth test is (test s i').2 k).1 = some i) :=
      (ih (hQ s i' hs) h).imp_left (List.mem_cons_of_mem i')
    rw [nth] at h
    split at h
    · rename_i hr
      split at h
      · obtain rfl := Option.some.inj h
        exact ⟨List.mem_cons_self, s, hs, hr⟩
      · exact hrest h
    · exact hrest h

/-- What is found is what was given, or one of the indices. -/
theorem argmax_mem (value : ℕ → ℕ) (is : List ℕ) (hs : Q s) (best : ℕ × ℕ) :
    (argmax test value is s best).1 = best ∨ (argmax test value is s best).1.2 ∈ is ∧
      ∃ s', Q s' ∧ (test s' (argmax test value is s best).1.2).1 = true := by
  induction is generalizing s best with
  | nil => exact .inl rfl
  | cons i is ih =>
    rw [argmax]
    split
    · rename_i hif
      obtain h | h := ih (hQ s i hs) (value i, i)
      · rw [h]
        exact .inr ⟨List.mem_cons_self, s, hs, (Bool.and_eq_true_iff.mp hif).1⟩
      · exact .inr (h.imp_left (List.mem_cons_of_mem _))
    · exact (ih (hQ s i hs) best).imp_right (And.imp_left (List.mem_cons_of_mem _))

end States

/-! ### Tests with the same answers in all states -/

section Constant

variable {Q : σ → Prop} (hQ : ∀ s i, Q s → Q (test s i).2) {p : ℕ → Bool}
  (hp : ∀ s i, Q s → (test s i).1 = p i) {is : List ℕ} {s : σ} {value : ℕ → ℕ}

include hQ hp

/-- Nothing is found only if all indices that were tried fail. -/
theorem cyclic_none {index next : ℕ → ℕ} {n : ℕ} {k : ℕ} (hs : Q s)
    (h : (cyclic test index next n s k).1 = none) {a : ℕ} (ha : a < n) :
    p (index (next^[a] k)) = false := by
  induction n generalizing s k a with
  | zero => cases ha
  | succ n ih =>
    rw [cyclic] at h
    cases hr : (test s (index k)).1 with
    | true =>
      simp only [hr, if_true] at h
      cases h
    | false =>
      simp only [hr, Bool.false_eq_true, if_false] at h
      cases a with
      | zero => exact hp s (index k) hs ▸ hr
      | succ a => exact ih (hQ s _ hs) h (Nat.lt_of_succ_lt_succ ha)

theorem values_length (hs : Q s) : (values test value is s).1.length = is.countP p := by
  induction is generalizing s with
  | nil => rfl
  | cons i is ih =>
    rw [values, List.countP_cons]
    cases hr : (test s i).1 with
    | true =>
      rw [hp s i hs] at hr
      simp [hr, ih (hQ s i hs)]
    | false =>
      rw [hp s i hs] at hr
      simp [hr, ih (hQ s i hs)]

/-- A position among the indices that pass is found. -/
theorem nth_isSome {k : ℕ} (hs : Q s) (hk : k < is.countP p) :
    (nth test is s k).1.isSome = true := by
  induction is generalizing s k with
  | nil => cases hk
  | cons i is ih =>
    rw [nth]
    rw [List.countP_cons] at hk
    cases hr : (test s i).1 with
    | true =>
      by_cases hk0 : k = 0
      · simp [hk0]
      · rw [hp s i hs] at hr
        rw [if_pos hr] at hk
        simpa [hk0] using ih (k := k - 1) (hQ s i hs) (by omega)
    | false =>
      rw [hp s i hs] at hr
      rw [hr, if_neg Bool.false_ne_true] at hk
      exact ih (hQ s i hs) hk

/-- No value is found only if no index passes, if the values are positive. -/
theorem argmax_eq_zero {best : ℕ × ℕ} (hs : Q s) (hvalue : ∀ i ∈ is, 0 < value i)
    (h : (argmax test value is s best).1.1 = 0) : best.1 = 0 ∧ ∀ i ∈ is, p i = false := by
  induction is generalizing s best with
  | nil => exact ⟨h, by simp⟩
  | cons i is ih =>
    rw [argmax] at h
    obtain ⟨hbest, his⟩ := ih (hQ s i hs) (fun i' hi' => hvalue i' (List.mem_cons_of_mem _ hi')) h
    have hpos := hvalue i List.mem_cons_self
    have hnot : ¬ ((test s i).1 && decide (best.1 ≤ value i)) = true := by
      intro hif
      rw [if_pos hif] at hbest
      exact Nat.lt_irrefl _ (hbest ▸ hpos)
    rw [if_neg hnot] at hbest
    refine ⟨hbest, fun i' hi' => ?_⟩
    cases hi' with
    | head =>
      rw [hbest] at hnot
      simpa [hp s i hs] using hnot
    | tail _ hi' => exact his i' hi'

end Constant

/-! ### Tests that do not change the state -/

section Pure

variable {s : σ} (hs : ∀ i, (test s i).2 = s)

include hs

/-- **What a scan finds**: the first index that passes, or nothing if all indices fail. -/
theorem cyclic_cases (index next : ℕ → ℕ) (n k : ℕ) :
    (∃ a < n, cyclic test index next n s k = (some (index (next^[a] k)), s, next^[a + 1] k) ∧
        attempts test index next n s k = a + 1 ∧ (test s (index (next^[a] k))).1 = true ∧
        ∀ b < a, (test s (index (next^[b] k))).1 = false) ∨
      cyclic test index next n s k = (none, s, next^[n] k) ∧
        attempts test index next n s k = n ∧ ∀ b < n, (test s (index (next^[b] k))).1 = false := by
  induction n generalizing k with
  | zero => exact .inr ⟨rfl, rfl, nofun⟩
  | succ n ih =>
    rw [cyclic, attempts]
    cases hr : (test s (index k)).1 with
    | true =>
      left
      refine ⟨0, Nat.succ_pos n, ?_, rfl, hr, nofun⟩
      rw [hs]
      rfl
    | false =>
      have hfirst (b : ℕ) (m : ℕ) (hb : b < m + 1)
          (hrest : ∀ b < m, (test s (index (next^[b] (next k)))).1 = false) :
          (test s (index (next^[b] k))).1 = false := by
        cases b with
        | zero => exact hr
        | succ b => exact hrest b (Nat.lt_of_succ_lt_succ hb)
      simp only [Bool.false_eq_true, if_false, hs]
      obtain ⟨a, ha, hscan, hcount, hpass, hfail⟩ | ⟨hscan, hcount, hfail⟩ := ih (next k)
      · refine .inl ⟨a + 1, Nat.succ_lt_succ ha, hscan, by rw [hcount], hpass, fun b hb => ?_⟩
        exact hfirst b a hb hfail
      · exact .inr ⟨hscan, by rw [hcount], fun b hb => hfirst b n hb hfail⟩

/-- **What the search for the greatest value finds**: no index that passes has a greater value, and
the value found is the one given or that of an index that passes. -/
theorem argmax_cases (value : ℕ → ℕ) (is : List ℕ) (best : ℕ × ℕ) :
    (argmax test value is s best).2 = s ∧ best.1 ≤ (argmax test value is s best).1.1 ∧
      (∀ i ∈ is, (test s i).1 = true → value i ≤ (argmax test value is s best).1.1) ∧
      ((argmax test value is s best).1 = best ∨
        ∃ i ∈ is, (test s i).1 = true ∧ (argmax test value is s best).1 = (value i, i)) := by
  induction is generalizing best with
  | nil => exact ⟨rfl, Nat.le_refl _, nofun, .inl rfl⟩
  | cons i is ih =>
    rw [argmax, hs]
    split
    · rename_i hif
      rw [Bool.and_eq_true, decide_eq_true_eq] at hif
      obtain ⟨hstate, hle, hmax, hfound⟩ := ih (value i, i)
      refine ⟨hstate, Nat.le_trans hif.2 hle, ?_, ?_⟩
      · intro j hj hpass
        cases hj with
        | head => exact hle
        | tail _ hj => exact hmax j hj hpass
      · obtain hfound | ⟨j, hj, hfound⟩ := hfound
        · exact .inr ⟨i, List.mem_cons_self, hif.1, hfound⟩
        · exact .inr ⟨j, List.mem_cons_of_mem _ hj, hfound⟩
    · rename_i hif
      obtain ⟨hstate, hle, hmax, hfound⟩ := ih best
      refine ⟨hstate, hle, ?_, ?_⟩
      · intro j hj hpass
        cases hj with
        | head =>
          rw [hpass, Bool.true_and, decide_eq_true_eq] at hif
          omega
        | tail _ hj => exact hmax j hj hpass
      · exact hfound.imp_right fun ⟨j, hj, hfound⟩ => ⟨j, List.mem_cons_of_mem _ hj, hfound⟩

end Pure

/-! ### The first entry that fails -/

/-- The entries before the first one that fails the test pass it, and that one fails. -/
theorem takeWhile_spec {α : Type} (p : α → Bool) (l : List α) :
    (∀ j a, j < (l.takeWhile p).length → l[j]? = some a → p a = true) ∧
      ∀ a, l[(l.takeWhile p).length]? = some a → p a = false := by
  induction l with
  | nil => exact ⟨nofun, nofun⟩
  | cons b l ih =>
    cases hp : p b with
    | false =>
      rw [List.takeWhile_cons_of_neg (ne_true_of_eq_false hp)]
      exact ⟨nofun, fun a ha => Option.some.inj ha ▸ hp⟩
    | true =>
      rw [List.takeWhile_cons_of_pos hp]
      refine ⟨fun j a hj ha => ?_, ih.2⟩
      cases j with
      | zero => exact Option.some.inj ha ▸ hp
      | succ j => exact ih.1 j a (Nat.lt_of_succ_lt_succ hj) ha

end Scan

end LTest
