import Mathlib.Data.Nat.Bitwise

/-!
# Blocks of doubling length

Positions `1, 2, 3, …` are laid out in blocks, the `i`th of which has `2 ^ i` slots: position `m`
is in the block of its highest bit, at the offset that the other bits give. The first position of a
block is a power of two.

A structure that grows and shrinks at its end and frees a block only when it has left the block
before it, keeps one block more than it needs at most. With `n` positions used and `a` blocks this
is `n < 2 ^ a` and `2 ^ a ≤ 4 * n + 2`, which needs no case for an empty structure.

## Main definitions

* `Reserve n a` — `a` blocks are kept for `n` positions

## Main results

* `xor_two_pow_log2`, `and_pred_eq_zero_iff` — offset and first position of a block, from bits
* `log2_two_pow_add` — the block of a position
* `Reserve.push`, `Reserve.pop` — one position more or less
-/

namespace LTest

namespace Doubling

variable {m n a i j k : ℕ}

/-- Clearing the highest bit. -/
theorem xor_two_pow_log2 (hm : m ≠ 0) : m ^^^ 2 ^ m.log2 = m - 2 ^ m.log2 := by
  have hle := Nat.log2_self_le hm
  have hlt := Nat.lt_log2_self (n := m)
  generalize m.log2 = k at *
  obtain ⟨j, rfl⟩ := Nat.exists_eq_add_of_le hle
  have hj : j < 2 ^ k := by
    rw [Nat.pow_succ] at hlt
    omega
  -- the bits above the highest one are zero, and those below it are not touched
  have hdiv : (2 ^ k + j) / 2 ^ k = 1 := by
    rw [Nat.add_div_left j (Nat.two_pow_pos k), Nat.div_eq_of_lt hj]
  rw [Nat.add_sub_cancel_left, ← Nat.div_add_mod ((2 ^ k + j) ^^^ 2 ^ k) (2 ^ k),
    Nat.xor_div_two_pow, Nat.xor_mod_two_pow, hdiv, Nat.div_self (Nat.two_pow_pos k),
    Nat.add_mod_left, Nat.mod_eq_of_lt hj, Nat.mod_self, Nat.xor_self, Nat.xor_zero, Nat.mul_zero,
    Nat.zero_add]

/-- The test for a power of two. -/
theorem and_pred_eq_zero_iff (hm : m ≠ 0) : m &&& (m - 1) = 0 ↔ m = 2 ^ m.log2 := by
  have hle := Nat.log2_self_le hm
  have hlt := Nat.lt_log2_self (n := m)
  constructor
  · intro hand
    by_contra hne
    -- otherwise both numbers have the highest bit
    have hbit : m.testBit m.log2 = true :=
      Nat.testBit_of_two_pow_le_and_two_pow_add_one_gt hle hlt
    have hbit' : (m - 1).testBit m.log2 = true :=
      Nat.testBit_of_two_pow_le_and_two_pow_add_one_gt (by omega) (by omega)
    have hzero : (m &&& (m - 1)).testBit m.log2 = true := by
      rw [Nat.testBit_and, hbit, hbit', Bool.and_self]
    rw [hand, Nat.zero_testBit] at hzero
    cases hzero
  · intro heq
    generalize m.log2 = k at *
    rw [heq, Nat.and_two_pow_sub_one_eq_mod, Nat.mod_self]

theorem log2_two_pow_add (hj : j < 2 ^ i) : (2 ^ i + j).log2 = i := by
  have hpos := Nat.two_pow_pos i
  rw [Nat.log2_eq_iff (by omega), Nat.pow_succ]
  omega

/-- A position is in its block. -/
theorem xor_two_pow_log2_lt (hm : m ≠ 0) : m ^^^ 2 ^ m.log2 < 2 ^ m.log2 := by
  have hlt := Nat.lt_log2_self (n := m)
  rw [Nat.pow_succ] at hlt
  rw [xor_two_pow_log2 hm]
  omega

/-- A position is found from its block and its offset. -/
theorem two_pow_log2_add_xor (hm : m ≠ 0) : 2 ^ m.log2 + (m ^^^ 2 ^ m.log2) = m := by
  rw [xor_two_pow_log2 hm]
  exact Nat.add_sub_of_le (Nat.log2_self_le hm)

/-! ### Blocks in reserve -/

/-- With `n` positions used there are `a` blocks: as many as are needed, or one more. -/
def Reserve (n a : ℕ) : Prop := n < 2 ^ a ∧ 2 ^ a ≤ 4 * n + 2

namespace Reserve

theorem zero : Reserve 0 0 := ⟨by decide, by decide⟩

theorem push (h : Reserve n a) (hblock : (n + 1).log2 < a) : Reserve (n + 1) a := by
  have hlt := (Nat.log2_lt (Nat.succ_ne_zero n)).mp hblock
  have hle := h.2
  exact ⟨hlt, by omega⟩

/-- The block of the next position is there, or it is the first in a new block. -/
theorem next (h : Reserve n a) : (n + 1).log2 < a ∨ (n + 1).log2 = a ∧ n + 1 = 2 ^ a := by
  rcases Nat.lt_or_eq_of_le (Nat.succ_le_of_lt h.1) with hlt | heq
  · exact .inl ((Nat.log2_lt (Nat.succ_ne_zero n)).mpr hlt)
  · refine .inr ⟨?_, heq⟩
    rw [show n + 1 = 2 ^ a from heq]
    exact Nat.log2_two_pow

theorem alloc (h : n + 1 = 2 ^ a) : Reserve (n + 1) (a + 1) := by
  have hpos := Nat.two_pow_pos a
  rw [Reserve, Nat.pow_succ]
  omega

/-- A position is left that is not the first of its block. -/
theorem pop (h : Reserve (n + 1) a) (hfirst : n + 1 ≠ 2 ^ (n + 1).log2) : Reserve n a := by
  have hlt := h.1
  have hle := h.2
  refine ⟨by omega, ?_⟩
  match a with
  | 0 => omega
  | 1 => omega
  | a + 2 =>
    have hne : n + 1 ≠ 2 ^ a := by
      rintro heq
      apply hfirst
      rw [heq, Nat.log2_two_pow]
    rw [Nat.pow_add] at hle ⊢
    omega

/-- The first position of a block is left, and the block after it is freed if it is there. -/
theorem pop_first (h : Reserve (n + 1) a) (hfirst : n + 1 = 2 ^ k) :
    (a = k + 1 ∨ a = k + 2) ∧ Reserve n (k + 1) := by
  have hpos := Nat.two_pow_pos k
  have hlt := h.1
  have hle := h.2
  rw [hfirst] at hlt hle
  have hk : k < a := (Nat.pow_lt_pow_iff_right (by decide)).mp hlt
  have ha : a < k + 3 := by
    refine (Nat.pow_lt_pow_iff_right (a := 2) (by decide)).mp ?_
    rw [Nat.pow_add 2 k 3]
    omega
  refine ⟨by omega, ?_⟩
  rw [Reserve, Nat.pow_succ]
  omega

end Reserve

end Doubling

end LTest
