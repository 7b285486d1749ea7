import LTest.Lincheck.Search
import Mathlib.Data.List.Nodup

/-!
# Linearizations

A linearization is a total order of the invokes of a history, or of all but some pending ones that
may be dropped, which extends real-time precedence and can be run by the specification. The search
succeeds if and only if there is one.

## Main definitions

* `Arranged` — every response answers one earlier invoke
* `Precedes` — real-time precedence
* `Linearization` — a total order of what is left, and what is dropped

## Main results

* `succeeds_iff_exists_linearization` — success from any configuration the search can be in
* `search_exact` — the search returns whether there is a linearization
-/

namespace LTest

namespace Lincheck

variable {S : Type}

/-- Invokes and responses as they stand in a well-formed history. -/
structure Arranged (A : Adapter S) (n : ℕ) : Prop where
  /-- An event is one or the other. -/
  kind : ∀ i < n, A.isInvoke i = !A.isResponse i
  /-- A response comes after its invoke. -/
  response : ∀ i < n, A.isInvoke i = true → ∀ r, A.responseIndex i = some r →
    i < r ∧ r < n ∧ A.isResponse r = true
  /-- It answers one invoke only. -/
  injective : ∀ i < n, ∀ j < n, A.isInvoke i = true → A.isInvoke j = true →
    ∀ r, A.responseIndex i = some r → A.responseIndex j = some r → i = j
  /-- It answers some invoke. -/
  surjective : ∀ r < n, A.isResponse r = true →
    ∃ i < n, A.isInvoke i = true ∧ A.responseIndex i = some r

/-- Real-time precedence: the response of `a` comes before the invoke `b`. -/
def Precedes (A : Adapter S) (a b : ℕ) : Prop := ∃ r, A.responseIndex a = some r ∧ r < b

/-- Precedence in terms of what the response index stands for. -/
theorem precedes_iff {A : Adapter S} {W : Type} {answers : ℕ → W → Prop} {a b : ℕ}
    (h : ∀ r, A.responseIndex a = some r ↔ ∃ v, answers r v) :
    Precedes A a b ↔ ∃ r v, answers r v ∧ r < b := by
  simp only [Precedes, h]
  exact ⟨fun ⟨r, ⟨v, hv⟩, hr⟩ => ⟨r, v, hv, hr⟩, fun ⟨r, v, hv, hr⟩ => ⟨r, ⟨v, hv⟩, hr⟩⟩

/-- Run invokes one after another. -/
def runAll (A : Adapter S) (order : List ℕ) (s : S) : Option S :=
  order.foldlM (fun s i => A.tryApply i s) s

/-- A total order of the invokes that are left, without those that are dropped. -/
structure Linearization (A : Adapter S) (onComplete : S → Bool) (n : ℕ) (l : List Bool) (s : S)
    (order dropped : List ℕ) : Prop where
  /-- No invoke is there twice. -/
  nodup : (order ++ dropped).Nodup
  /-- They are those that are not linearized yet. -/
  mem : ∀ i, i ∈ order ++ dropped ↔ i < n ∧ A.isInvoke i = true ∧ isLinearized l i = false
  /-- Dropped ones may be dropped. -/
  droppable : ∀ i ∈ dropped, A.responseIndex i = none ∧ A.canDropPendingInvoke i = true
  /-- It extends real-time precedence. -/
  extends_precedence : order.Pairwise fun a b => ¬ Precedes A b a
  /-- It runs to an accepted state. -/
  runs : ∃ s', runAll A order s = some s' ∧ onComplete s' = true

/-- A response is linearized together with its invoke. -/
def Closed (A : Adapter S) (n : ℕ) (l : List Bool) : Prop :=
  ∀ i < n, A.isInvoke i = true → ∀ r, A.responseIndex i = some r →
    isLinearized l r = isLinearized l i

section

variable {A : Adapter S} {onComplete : S → Bool} {n : ℕ} {l : List Bool} {s : S} {i : ℕ}

theorem exists_runAll_cons {rest : List ℕ} :
    (∃ s', runAll A (i :: rest) s = some s') ↔
      ∃ s₁, A.tryApply i s = some s₁ ∧ ∃ s', runAll A rest s₁ = some s' := by
  simp only [runAll, List.foldlM_cons, Option.bind_eq_bind, Option.bind_eq_some_iff]
  exact ⟨fun ⟨s', s₁, h, hrun⟩ => ⟨s₁, h, s', hrun⟩, fun ⟨s₁, h, s', hrun⟩ => ⟨s', s₁, h, hrun⟩⟩

theorem Arranged.indexed (hA : Arranged A n) : Indexed A n := fun i hi hinv r hr =>
  have ⟨hlt, hrn, _⟩ := hA.response i hi hinv r hr
  ⟨hrn, Nat.ne_of_gt hlt⟩

theorem isLinearized_mark {o : Option ℕ} (hi : i < l.length) (ho : ∀ r, o = some r → r < l.length)
    (j : ℕ) :
    isLinearized (mark l i o true) j = (isLinearized l j || decide (j = i ∨ o = some j)) := by
  cases o with
  | none =>
    rw [mark, isLinearized_set hi]
    split <;> simp [*]
  | some r =>
    rw [mark, isLinearized_set (by simpa using ho r rfl), isLinearized_set hi]
    by_cases hjr : j = r
    · simp [hjr]
    · by_cases hji : j = i <;> simp [hjr, hji, Ne.symm hjr]

section

variable (hA : Arranged A n)
include hA

/-- Linearizing an enabled invoke and its response. -/
theorem Closed.mark (hlen : l.length = n) (h : Closed A n l) (hi : i < n)
    (hinv : A.isInvoke i = true) : Closed A n (mark l i (A.responseIndex i) true) := by
  intro j hj hjinv r hr
  have ho : ∀ r, A.responseIndex i = some r → r < l.length := fun r hr =>
    hlen.symm ▸ (hA.response i hi hinv r hr).2.1
  rw [isLinearized_mark (hlen.symm ▸ hi) ho, isLinearized_mark (hlen.symm ▸ hi) ho,
    h j hj hjinv r hr]
  congr 1
  -- `r` is marked if and only if its invoke `j` is
  have hresp := (hA.response j hj hjinv r hr).2.2
  have hri : r ≠ i := by
    rintro rfl
    have := hA.kind r hi
    simp [hinv, hresp] at this
  have hji : A.responseIndex i ≠ some j := by
    intro hij
    have := (hA.response i hi hinv j hij).2.2
    have hk := hA.kind j hj
    simp [this, hjinv] at hk
  have hiff : A.responseIndex i = some r ↔ j = i := by
    constructor
    · exact fun hir => hA.injective j hj i hi hjinv hinv r hr hir
    · rintro rfl
      exact hr
  simp [hri, hji, hiff]

/-- What is left after an enabled invoke has been linearized. -/
theorem mem_left_mark (hlen : l.length = n) {j : ℕ} (hi : i < n) (hinv : A.isInvoke i = true)
    {o : Option ℕ} (ho : ∀ r, o = some r → A.responseIndex i = some r) :
    (j < n ∧ A.isInvoke j = true ∧ isLinearized (mark l i o true) j = false) ↔
      (j < n ∧ A.isInvoke j = true ∧ isLinearized l j = false) ∧ j ≠ i := by
  have hro : ∀ r, o = some r → r < l.length := fun r hr =>
    hlen.symm ▸ (hA.response i hi hinv r (ho r hr)).2.1
  rw [isLinearized_mark (hlen.symm ▸ hi) hro]
  have hoj : j < n → A.isInvoke j = true → o ≠ some j := by
    intro hj hjinv hij
    have hresp := (hA.response i hi hinv j (ho j hij)).2.2
    have hk := hA.kind j hj
    simp [hresp, hjinv] at hk
  constructor
  · rintro ⟨hj, hjinv, hlin⟩
    simp only [Bool.or_eq_false_iff, decide_eq_false_iff_not, not_or] at hlin
    exact ⟨⟨hj, hjinv, hlin.1⟩, hlin.2.1⟩
  · rintro ⟨⟨hj, hjinv, hlin⟩, hne⟩
    exact ⟨hj, hjinv, by simp [hlin, hne, hoj hj hjinv]⟩

/-- A response that is not linearized belongs to an invoke that is left. -/
theorem exists_left_of_response (hcl : Closed A n l) {r : ℕ} (hr : r < n)
    (hresp : A.isResponse r = true) (hlin : isLinearized l r = false) :
    ∃ a < n, A.isInvoke a = true ∧ isLinearized l a = false ∧ A.responseIndex a = some r := by
  obtain ⟨a, ha, hainv, har⟩ := hA.surjective r hr hresp
  exact ⟨a, ha, hainv, hcl a ha hainv r har ▸ hlin, har⟩

/-- When no invoke is left, everything is linearized. -/
theorem count_eq_of_nothing_left (hlen : l.length = n) (hcl : Closed A n l)
    (h : ∀ i < n, A.isInvoke i = true → isLinearized l i = true) : l.count true = n := by
  rw [← hlen]
  refine List.count_eq_length.mpr fun b hb => ?_
  obtain ⟨i, hi, rfl⟩ := List.mem_iff_getElem.mp hb
  have hi' : i < n := hlen ▸ hi
  have hlin : isLinearized l i = true := by
    cases hresp : A.isResponse i with
    | false => exact h i hi' (by rw [hA.kind i hi', hresp]; rfl)
    | true =>
      by_contra hno
      rw [Bool.not_eq_true] at hno
      obtain ⟨a, ha, hainv, halin, -⟩ := exists_left_of_response hA hcl hi' hresp hno
      simp [h a ha hainv] at halin
  simpa [isLinearized, hi] using hlin.symm

/-- A successful configuration has a linearization: the invokes in the order in which they were
applied. -/
theorem Succeeds.exists_linearization (h : Succeeds A onComplete n l s) (hlen : l.length = n)
    (hcl : Closed A n l) : ∃ order dropped, Linearization A onComplete n l s order dropped := by
  induction h with
  | @done l s hcount hs =>
    refine ⟨[], [], by simp, fun i => ?_, by simp, .nil, s, rfl, hs⟩
    refine ⟨fun h => absurd h (by simp), fun ⟨hi, _, hlin⟩ => ?_⟩
    have := isLinearized_of_count (hcount.trans hlen.symm) (hlen.symm ▸ hi)
    simp [hlin] at this
  | @drop l s i hi hen hr hd _ ih =>
    obtain ⟨order, dropped, hlinz⟩ := ih (by simpa using hlen)
      (by have := hcl.mark hA hlen hi hen.invoke; rwa [hr] at this)
    have hmem : ∀ j, j ∈ order ++ dropped ↔ _ := fun j =>
      (hlinz.mem j).trans (mem_left_mark hA hlen hi hen.invoke (by simp))
    refine ⟨order, i :: dropped, ?_, fun j => ?_, ?_, hlinz.extends_precedence, hlinz.runs⟩
    · refine (List.nodup_middle.mpr (List.nodup_cons.mpr ⟨fun hi' => ?_, hlinz.nodup⟩))
      exact ((hmem i).mp hi').2 rfl
    · rw [List.mem_append, List.mem_cons, or_left_comm, ← List.mem_append, hmem]
      by_cases hj : j = i
      · simp [hj, hi, hen.invoke, hen.fresh]
      · simp [hj]
    · rintro j hj
      obtain rfl | hj := List.mem_cons.mp hj
      · exact ⟨hr, hd⟩
      · exact hlinz.droppable j hj
  | @apply l s s' i hi hen happ _ ih =>
    obtain ⟨order, dropped, hlinz⟩ := ih (by simpa using hlen) (hcl.mark hA hlen hi hen.invoke)
    have hmem : ∀ j, j ∈ order ++ dropped ↔ _ := fun j =>
      (hlinz.mem j).trans (mem_left_mark hA hlen hi hen.invoke fun _ => id)
    refine ⟨i :: order, dropped, ?_, fun j => ?_, hlinz.droppable, ?_, ?_⟩
    · exact List.nodup_cons.mpr ⟨fun hi' => ((hmem i).mp hi').2 rfl, hlinz.nodup⟩
    · rw [List.cons_append, List.mem_cons, hmem]
      by_cases hj : j = i
      · simp [hj, hi, hen.invoke, hen.fresh]
      · simp [hj]
    · -- whoever has answered before `i` is linearized already
      refine List.pairwise_cons.mpr ⟨fun b hb hprec => ?_, hlinz.extends_precedence⟩
      obtain ⟨r, hr, hri⟩ := hprec
      obtain ⟨⟨hbn, hbinv, hblin⟩, -⟩ := (hmem b).mp (List.mem_append_left _ hb)
      have hrlin := hen.minimal r hri (hA.response b hbn hbinv r hr).2.2
      rw [hcl b hbn hbinv r hr, hblin] at hrlin
      exact Bool.noConfusion hrlin
    · obtain ⟨s'', hrun, hs''⟩ := hlinz.runs
      exact ⟨s'', by simp [runAll, happ] at hrun ⊢; exact hrun, hs''⟩

/-- An invoke that is left is enabled if no other one that is left precedes it. -/
theorem enabled_of_left (hcl : Closed A n l) (hi : i < n) (hinv : A.isInvoke i = true)
    (hlin : isLinearized l i = false)
    (hmin : ∀ a < n, A.isInvoke a = true → isLinearized l a = false → ¬ Precedes A a i) :
    Enabled A l i where
  invoke := hinv
  response := by
    have := hA.kind i hi
    simpa [hinv] using this
  fresh := hlin
  unanswered r hr := (hcl i hi hinv r hr).trans hlin
  minimal r hr hresp := by
    by_contra hno
    rw [Bool.not_eq_true] at hno
    obtain ⟨a, ha, hainv, halin, har⟩ :=
      exists_left_of_response hA hcl (Nat.lt_trans hr hi) hresp hno
    exact hmin a ha hainv halin ⟨r, har, hr⟩

/-- What is dropped comes last: nothing that is left has a response then. -/
theorem Linearization.succeeds_of_nil {dropped : List ℕ}
    (h : Linearization A onComplete n l s [] dropped) (hlen : l.length = n) (hcl : Closed A n l) :
    Succeeds A onComplete n l s := by
  obtain ⟨s', hrun, hs'⟩ := h.runs
  obtain rfl : s = s' := Option.some.inj hrun
  induction dropped generalizing l with
  | nil =>
    refine .done (count_eq_of_nothing_left hA hlen hcl fun i hi hinv => ?_) hs'
    by_contra hlin
    rw [Bool.not_eq_true] at hlin
    simpa using (h.mem i).mpr ⟨hi, hinv, hlin⟩
  | cons i dropped ih =>
    obtain ⟨hi, hinv, hlin⟩ := (h.mem i).mp (by simp)
    obtain ⟨hr, hd⟩ := h.droppable i (by simp)
    have hen : Enabled A l i := enabled_of_left hA hcl hi hinv hlin fun a ha hainv halin hprec => by
      obtain ⟨r, har, -⟩ := hprec
      have hmem : a ∈ i :: dropped := (h.mem a).mpr ⟨ha, hainv, halin⟩
      simp [(h.droppable a hmem).1] at har
    have hcl' := hcl.mark hA hlen hi hinv
    rw [hr] at hcl'
    obtain ⟨hi', hnodup⟩ := List.nodup_cons.mp h.nodup
    refine .drop hi hen hr hd (ih ⟨hnodup, fun j => ?_, fun j hj => ?_, .nil, s, rfl, hs'⟩
      (by simpa using hlen) hcl')
    · rw [mem_left_mark hA hlen hi hinv (by simp), ← h.mem]
      constructor
      · exact fun hj => ⟨List.mem_cons_of_mem i hj, by rintro rfl; exact hi' hj⟩
      · exact fun ⟨hj, hne⟩ => (List.mem_cons.mp hj).resolve_left hne
    · exact h.droppable j (List.mem_cons_of_mem i hj)

theorem Linearization.succeeds {order dropped : List ℕ}
    (h : Linearization A onComplete n l s order dropped) (hlen : l.length = n)
    (hcl : Closed A n l) : Succeeds A onComplete n l s := by
  induction order generalizing l s with
  | nil => exact h.succeeds_of_nil hA hlen hcl
  | cons i order ih =>
    obtain ⟨hi, hinv, hlin⟩ := (h.mem i).mp (by simp)
    obtain ⟨hprec, hext⟩ := List.pairwise_cons.mp h.extends_precedence
    have hen : Enabled A l i := enabled_of_left hA hcl hi hinv hlin fun a ha hainv halin har => by
      obtain ⟨r, hr, hri⟩ := har
      have hmem := (h.mem a).mpr ⟨ha, hainv, halin⟩
      obtain hmem | hmem := List.mem_append.mp hmem
      · obtain rfl | hmem := List.mem_cons.mp hmem
        · have := (hA.response a ha hainv r hr).1
          omega
        · exact hprec a hmem ⟨r, hr, hri⟩
      · simp [(h.droppable a hmem).1] at hr
    obtain ⟨s'', hrun, hs''⟩ := h.runs
    obtain ⟨s', happ, hrun'⟩ : ∃ s', A.tryApply i s = some s' ∧ runAll A order s' = some s'' := by
      simpa [runAll, Option.bind_eq_some_iff] using hrun
    obtain ⟨hi', hnodup⟩ := List.nodup_cons.mp h.nodup
    refine .apply hi hen happ (ih ⟨hnodup, fun j => ?_, h.droppable, hext, s'', hrun', hs''⟩
      (by simpa using hlen) (hcl.mark hA hlen hi hinv))
    rw [mem_left_mark hA hlen hi hinv fun _ hr => hr, ← h.mem]
    constructor
    · exact fun hj => ⟨List.mem_cons_of_mem i hj, by rintro rfl; exact hi' hj⟩
    · exact fun ⟨hj, hne⟩ => (List.mem_cons.mp hj).resolve_left hne

/-- **Success means that there is a linearization.** -/
theorem succeeds_iff_exists_linearization (hlen : l.length = n) (hcl : Closed A n l) :
    Succeeds A onComplete n l s ↔ ∃ order dropped, Linearization A onComplete n l s order dropped :=
  ⟨fun h => h.exists_linearization hA hlen hcl, fun ⟨_, _, h⟩ => h.succeeds hA hlen hcl⟩

end

@[simp] theorem isLinearized_replicate (n i : ℕ) :
    isLinearized (List.replicate n false) i = false := by
  simp only [isLinearized, List.getD_eq_getElem?_getD, List.getElem?_replicate]
  split <;> rfl

theorem closed_replicate : Closed A n (List.replicate n false) := fun i _ _ r _ => by
  rw [isLinearized_replicate, isLinearized_replicate]

/-- **The search is exact**: it returns, and it returns whether there is a linearization. -/
theorem search_exact {policy : CachePolicy S} (hA : Arranged A n)
    (hc : Congruent policy A onComplete) (hn : n ≠ 0) (s : S) :
    ∃ b, search policy n s A onComplete = some b ∧ (b = true ↔
      ∃ order dropped, Linearization A onComplete n (List.replicate n false) s order dropped) := by
  obtain ⟨b, hb, hiff⟩ := search_decides hA.indexed.tried hc hn s
  exact ⟨b, hb, hiff.trans (succeeds_iff_exists_linearization hA (by simp) closed_replicate)⟩

end

end Lincheck

end LTest
