import LTest.Lincheck.Search

/-!
# The cache of failed configurations

`SearchFailureCache` remembers the configurations that failed, and a level that is called with one
of them returns at once. It does nothing for states that cannot be hashed or compared. A key is a
copy of the bitmap, which every level changes in place, and a state that stands for its class.

Two facts make the cache harmless. A call of `step` that fails gives the bitmap back, so that the
configuration it inserts is the one it was called with. And success depends only on the class of
the state, so that a configuration found in the cache fails, whichever way it was reached.

## Main definitions

* `CachePolicy.withCache` — the search with the cache, and without it
* `GivesBack` — a computation that leaves the bitmap as it was if it fails
* `LeadsToResponses` — the response indices of invokes are indices of responses

## Main results

* `step_givesBack` — every call of `step` gives the bitmap back, for every adapter
* `search_withCache` — the cache changes no verdict
-/

namespace LTest

namespace Lincheck

variable {S : Type}

/-! ### The bitmap is given back -/

variable {st : SearchState S}

/-- When this computation fails, the bitmap is `l`. -/
def GivesBack (l : List Bool) (r : Option (Bool × SearchState S)) : Prop :=
  ∀ st, r = some (false, st) → st.linearized = l

/-- Every call of this level gives the bitmap back. -/
def LevelGivesBack (rec : Level S) : Prop :=
  ∀ s count st, GivesBack st.linearized (rec s count st)

theorem GivesBack.fail {l : List Bool} (h : st.linearized = l) :
    GivesBack l (some (false, st)) := by
  rintro _ ⟨⟩
  exact h

theorem GivesBack.orElse {l : List Bool} {r : Option (Bool × SearchState S)}
    {next : SearchState S → Option (Bool × SearchState S)} (h : GivesBack l r)
    (hnext : ∀ st, st.linearized = l → GivesBack l (next st)) : GivesBack l (orElse r next) := by
  cases r with
  | none =>
    intro st hst
    cases hst
  | some r =>
    obtain ⟨b, st⟩ := r
    cases b with
    | true =>
      intro st' hst'
      cases hst'
    | false => exact hnext st (h st rfl)

section Level

variable {A : Adapter S} {rec : Level S} {i : ℕ}

theorem descend_givesBack (hrec : LevelGivesBack rec) (hi : isLinearized st.linearized i = false)
    {o : Option ℕ} (ho : ∀ r, o = some r → isLinearized st.linearized r = false) (s : S)
    (count : ℕ) : GivesBack st.linearized (descend rec s count i o st) := by
  intro st' hst'
  rw [descend] at hst'
  have hback := hrec s count { st with linearized := mark st.linearized i o true }
  generalize rec s count { st with linearized := mark st.linearized i o true } = r at hback hst'
  cases r with
  | none => cases hst'
  | some r =>
    obtain ⟨b, st₁⟩ := r
    cases b with
    | true => cases hst'
    | false =>
      obtain rfl : { st₁ with linearized := mark st₁.linearized i o false } = st' := by
        simpa [orElse] using hst'
      rw [hback st₁ rfl]
      exact mark_mark hi ho

theorem dropInvoke_givesBack (hrec : LevelGivesBack rec) (h : Tries A st.linearized i) (s : S)
    (count : ℕ) : GivesBack st.linearized (dropInvoke A rec s count i st) := by
  rw [dropInvoke]
  split
  · exact descend_givesBack hrec h.fresh (by simp) s (count + 1)
  · exact .fail rfl

theorem applyInvoke_givesBack (hrec : LevelGivesBack rec) (h : Tries A st.linearized i) (s : S)
    (count : ℕ) : GivesBack st.linearized (applyInvoke A rec s count i st) := by
  rw [applyInvoke]
  cases A.tryApply i s with
  | none => exact .fail rfl
  | some s' =>
    cases hr : A.responseIndex i with
    | none => exact descend_givesBack hrec h.fresh (by simp) s' (count + 1)
    | some r => exact descend_givesBack hrec h.fresh (hr ▸ h.unanswered) s' (count + 2)

theorem loop_givesBack (hrec : LevelGivesBack rec) (s : S) (count : ℕ) (indices : List ℕ)
    (st : SearchState S) : GivesBack st.linearized (loop A rec s count indices st) := by
  induction indices generalizing st with
  | nil => exact .fail rfl
  | cons i rest ih =>
    by_cases hstops : Stops A st.linearized i
    · rw [loop_of_stops hstops]
      exact .fail rfl
    by_cases htries : Tries A st.linearized i
    · rw [loop_of_tries htries]
      refine (dropInvoke_givesBack hrec htries s count).orElse fun st₁ hst₁ => ?_
      -- the invoke can still be tried after the first alternative has failed
      rw [← hst₁] at htries ⊢
      refine (applyInvoke_givesBack hrec htries s count).orElse fun st₂ hst₂ => ?_
      rw [← hst₂]
      exact ih st₂
    · rw [loop_of_passes hstops htries]
      exact ih st

end Level

section Search

variable {policy : CachePolicy S} {A : Adapter S} {onComplete : S → Bool} {n : ℕ}

/-- **Every call of `step` that fails gives the bitmap back**, whatever the adapter, the cache and
the configuration it is called with. -/
theorem step_givesBack (fuel : ℕ) : LevelGivesBack (step policy A onComplete n fuel) := by
  induction fuel with
  | zero =>
    intro s count st st' hst'
    cases hst'
  | succ fuel ih =>
    intro s count st
    rw [step]
    split
    · intro st' hst'
      obtain ⟨-, rfl⟩ := Prod.mk.inj (Option.some.inj hst')
      rfl
    · split
      · exact .fail rfl
      · exact (loop_givesBack ih s count _ st).orElse fun st₁ hst₁ => .fail hst₁

/-! ### The verdict -/

/-- The template argument `Enabled` of `SearchFailureCache`. -/
def CachePolicy.withCache (policy : CachePolicy S) (enabled : Bool) : CachePolicy S :=
  { policy with cacheable := enabled }

/-- The response index of an invoke is the index of a response. -/
def LeadsToResponses (A : Adapter S) (n : ℕ) : Prop :=
  ∀ i < n, A.isInvoke i = true → ∀ r, A.responseIndex i = some r → r < n ∧ A.isResponse r = true

theorem LeadsToResponses.tried (hA : LeadsToResponses A n) : TriedIndexed A n := by
  intro i hi hinv hresp r hr
  obtain ⟨hlt, hr'⟩ := hA i hi hinv r hr
  refine ⟨hlt, ?_⟩
  rintro rfl
  rw [hresp] at hr'
  exact Bool.noConfusion hr'

theorem Congruent.withCache (hc : Congruent policy A onComplete) (enabled : Bool) :
    Congruent (policy.withCache enabled) A onComplete :=
  ⟨hc.tryApply, hc.onComplete⟩

/-- **The failure cache changes no verdict.** Invokes, responses and other events may stand in any
order, pending invokes may be dropped or not; it is only asked that response indices of invokes
are indices of responses, and that `TryApply` and `on_complete` respect `Equal`. Then the search
returns with the cache and without it, and it returns the same. Every call of its inner `step`
that returns `false` leaves `linearized` as it found it. -/
theorem search_withCache (hA : LeadsToResponses A n) (hc : Congruent policy A onComplete) (s : S) :
    (∃ b, search (policy.withCache true) n s A onComplete = some b ∧
      search (policy.withCache false) n s A onComplete = some b) ∧
    ∀ enabled fuel t count st st',
      step (policy.withCache enabled) A onComplete n fuel t count st = some (false, st') →
        st'.linearized = st.linearized := by
  refine ⟨?_, fun enabled fuel t count st st' h => step_givesBack fuel t count st st' h⟩
  by_cases hn : n = 0
  · exact ⟨true, by rw [search, if_pos hn], by rw [search, if_pos hn]⟩
  · obtain ⟨b, hb, hiff⟩ := search_decides hA.tried (hc.withCache true) hn s
    obtain ⟨b', hb', hiff'⟩ := search_decides hA.tried (hc.withCache false) hn s
    have hbb : b = b' := Bool.eq_iff_iff.mpr (hiff.trans hiff'.symm)
    exact ⟨b, hb, hbb ▸ hb'⟩

end Search

/-! ### A running total -/

/-- A pending invoke that may be dropped and two invokes that overlap. The state is the total of
what was applied and the invoke that was applied last. -/
def totalAdapter : Adapter (ℕ × ℕ) where
  isInvoke i := i < 3
  isResponse i := 3 ≤ i
  responseIndex
    | 1 => some 3
    | 2 => some 4
    | _ => none
  canDropPendingInvoke i := i == 0
  tryApply i s := some (s.1 + i, i)

/-- States with the same total are equal, whatever was applied last. -/
def totalPolicy : CachePolicy (ℕ × ℕ) where
  hash s := UInt64.ofNat s.1
  equal s t := s.1 == t.1

theorem leadsToResponses_totalAdapter : LeadsToResponses totalAdapter 5 := by
  intro i hi hinv r hr
  have hi : i < 3 := by simpa [totalAdapter] using hinv
  match i, hr with
  | 0, hr => cases hr
  | 1, hr => cases hr; decide
  | 2, hr => cases hr; decide

theorem congruent_totalPolicy (total : ℕ) :
    Congruent totalPolicy totalAdapter fun s => s.1 == total where
  tryApply s t hst i := by
    have hst : s.1 = t.1 := by simpa [totalPolicy] using hst
    exact .some (by simp [totalPolicy, hst])
  onComplete s t hst := by
    have hst : s.1 = t.1 := by simpa [totalPolicy] using hst
    rw [hst]

/-- No order of the invokes gives the total 7. The two orders of the overlapping invokes end in
different states of one class, and the second finds the first in the cache. -/
theorem search_withCache_total :
    LeadsToResponses totalAdapter 5 ∧
    Congruent totalPolicy totalAdapter (fun s => s.1 == 7) ∧
    (∃ b, search (totalPolicy.withCache true) 5 (0, 0) totalAdapter (fun s => s.1 == 7) = some b ∧
      search (totalPolicy.withCache false) 5 (0, 0) totalAdapter (fun s => s.1 == 7) = some b) ∧
    ∀ enabled fuel t count st st',
      step (totalPolicy.withCache enabled) totalAdapter (fun s => s.1 == 7) 5 fuel t count st =
        some (false, st') → st'.linearized = st.linearized :=
  ⟨leadsToResponses_totalAdapter, congruent_totalPolicy 7,
    search_withCache leadsToResponses_totalAdapter (congruent_totalPolicy 7) (0, 0)⟩

end Lincheck

end LTest
