import LTest.Lincheck.Dual
import LTest.Lincheck.Recursive
import Mathlib.Data.List.Induction

/-!
# Prefixes of histories

A linearization of a history, cut off behind the last operation that a prefix has completed, is a
linearization of the prefix. So a history that the recursive checker accepts has only accepted
prefixes. For the dual checker this needs an assumption on predicate methods: a call that was
answered in the history may be pending in the prefix, and a pending call is checked without its
result.

## Main definitions

* `DualMethod.ToleratesPending` — a predicate accepts a pending call as it accepts the answered one,
  or the call changes nothing

## Main results

* `Linearizes.of_isPrefix`, `DualLinearizes.of_isPrefix` — prefixes of linearizable histories
* `accepts_prefixes` — the checkers accept every prefix of an accepted history
-/

namespace LTest

namespace Lincheck

variable {S Args Val : Type} {order : List ℕ} {i : ℕ} {s : S} {rest : List ℕ}

/-- Cut an order behind the last operation that is answered before a bound. If the order extends
real-time precedence, everything before the cut is invoked before the bound. -/
theorem exists_cut (answered : ℕ → ℕ → Prop) {bound : ℕ}
    (hlt : ∀ i r, answered i r → i < r ∧ r < bound)
    (hpairs : order.Pairwise fun a b => ¬ ∃ r, answered b r ∧ r < a) :
    ∃ kept rest, order = kept ++ rest ∧ (∀ i ∈ rest, ∀ r, ¬ answered i r) ∧
      ∀ i ∈ kept, i < bound := by
  induction order using List.reverseRecOn with
  | nil => exact ⟨[], [], rfl, by simp, by simp⟩
  | append_singleton order a ih =>
    obtain ⟨hpairs, -, hlast⟩ := List.pairwise_append.mp hpairs
    by_cases ha : ∃ r, answered a r
    · obtain ⟨r, hr⟩ := ha
      obtain ⟨har, hrb⟩ := hlt a r hr
      refine ⟨order ++ [a], [], by simp, by simp, fun i hi => ?_⟩
      cases List.mem_append.mp hi with
      | inl hi =>
        have hno := hlast i hi a (by simp)
        exact Nat.lt_of_le_of_lt (Nat.le_of_not_lt fun hri => hno ⟨r, hr, hri⟩) hrb
      | inr hi =>
        rw [List.mem_singleton.mp hi]
        exact Nat.lt_trans har hrb
    · obtain ⟨kept, rest, rfl, hrest, hkept⟩ := ih hpairs
      refine ⟨kept, rest ++ [a], by simp, fun i hi r hr => ?_, hkept⟩
      cases List.mem_append.mp hi with
      | inl hi => exact hrest i hi r hr
      | inr hi => exact ha ⟨r, List.mem_singleton.mp hi ▸ hr⟩

theorem getElem?_of_isPrefix {α : Type} {l l' : List α} (h : l' <+: l) (hi : i < l'.length) :
    l'[i]? = l[i]? := by
  obtain ⟨rest, rfl⟩ := h
  rw [List.getElem?_append_left hi]

theorem getElem?_eq_some_of_isPrefix {α : Type} {l l' : List α} (h : l' <+: l) {a : α}
    (hi : l'[i]? = some a) : l[i]? = some a := by
  rw [← getElem?_of_isPrefix h (List.getElem?_eq_some_iff.mp hi).1, hi]

/-- A front of what runs does, if it is the head that decides what is asked of the rest. -/
theorem runs_of_append {runs : List ℕ → S → Prop} (hnil : ∀ s, runs [] s)
    (hcons : ∀ i l l' s, (∀ s', runs l s' → runs l' s') → runs (i :: l) s → runs (i :: l') s)
    (h : runs (order ++ rest) s) : runs order s := by
  induction order generalizing s with
  | nil => exact hnil s
  | cons i order ih => exact hcons i _ _ s (fun _ => ih) h

/-! ### Ordinary histories -/

section Ordinary

variable {methods : MethodMap S Args Val} {history pre : List (HistoryEvent Args Val)} {v : Val}
  {r : ℕ}

theorem InvokesAt.of_isPrefix (hpre : pre <+: history) {t : Task Args Val} (h : InvokesAt pre i t) :
    InvokesAt history i t :=
  getElem?_eq_some_of_isPrefix hpre h

theorem RespondsAt.of_isPrefix (hpre : pre <+: history) {t : Task Args Val}
    (h : RespondsAt pre r t v) : RespondsAt history r t v :=
  getElem?_eq_some_of_isPrefix hpre h

theorem Answers.of_isPrefix (hpre : pre <+: history) (h : Answers pre i r v) :
    Answers history i r v := by
  obtain ⟨t, u, ht, hu, hut⟩ := h
  exact ⟨t, u, ht.of_isPrefix hpre, hu.of_isPrefix hpre, hut⟩

theorem Answers.lt_length (h : Answers history i r v) : r < history.length := by
  obtain ⟨_, _, -, hu, -⟩ := h
  exact (List.getElem?_eq_some_iff.mp hu).1

theorem WellFormed.of_isPrefix (h : WellFormed methods history) (hpre : pre <+: history) :
    WellFormed methods pre where
  invoked_once i j t u hi hj := h.invoked_once i j t u (hi.of_isPrefix hpre) (hj.of_isPrefix hpre)
  answered_once r q t u v w hr hq :=
    h.answered_once r q t u v w (hr.of_isPrefix hpre) (hq.of_isPrefix hpre)
  answered_after r u v hr := by
    obtain ⟨i, hir, t, ht, htu⟩ := h.answered_after r u v (hr.of_isPrefix hpre)
    have hrlt : r < pre.length := (List.getElem?_eq_some_iff.mp hr).1
    exact ⟨i, hir, t, (getElem?_of_isPrefix hpre (Nat.lt_trans hir hrlt)).trans ht, htu⟩
  named i t hi := h.named i t (hi.of_isPrefix hpre)

/-- An answer comes after the invoke. -/
theorem WellFormed.lt_of_answers (h : WellFormed methods history) (hans : Answers history i r v) :
    i < r := by
  obtain ⟨t, u, ht, hu, hut⟩ := hans
  obtain ⟨j, hjr, t', ht', htu'⟩ := h.answered_after r u v hu
  rwa [h.invoked_once i j t t' ht ht' (hut.symm.trans htu'.symm)]

variable [BEq Val]

theorem RunsInOrder.of_append (h : RunsInOrder methods history (order ++ rest) s) :
    RunsInOrder methods history order s :=
  runs_of_append (fun _ => trivial) (fun _ _ _ _ hl ⟨t, method, ht, hmethod, hall, hrest⟩ =>
    ⟨t, method, ht, hmethod, hall, hl _ hrest⟩) h

/-- Operations that are invoked in the prefix run there: fewer results are recorded. -/
theorem RunsInOrder.of_isPrefix (hpre : pre <+: history) (hlt : ∀ i ∈ order, i < pre.length)
    (h : RunsInOrder methods history order s) : RunsInOrder methods pre order s := by
  induction order generalizing s with
  | nil => trivial
  | cons i order ih =>
    obtain ⟨hi, hrest⟩ := List.forall_mem_cons.mp hlt
    obtain ⟨t, method, ht, hmethod, hall, hrun⟩ := h
    exact ⟨t, method, (getElem?_of_isPrefix hpre hi).trans ht, hmethod,
      fun r v hans => hall r v (hans.of_isPrefix hpre), ih hrest hrun⟩

/-- **Prefixes of linearizable histories are linearizable.** -/
theorem Linearizes.of_isPrefix (hwf : WellFormed methods history) (hpre : pre <+: history)
    (h : Linearizes methods s history order) : ∃ order', Linearizes methods s pre order' := by
  have hpairs : order.Pairwise fun a b => ¬ ∃ r, (∃ v, Answers pre b r v) ∧ r < a := by
    refine h.extends_precedence.imp ?_
    rintro a b hab ⟨r, ⟨v, hans⟩, hr⟩
    exact hab ⟨r, v, hans.of_isPrefix hpre, hr⟩
  obtain ⟨kept, rest, rfl, hrest, hlt⟩ := exists_cut _ (fun i r ⟨v, hans⟩ =>
    ⟨(hwf.of_isPrefix hpre).lt_of_answers hans, hans.lt_length⟩) hpairs
  refine ⟨kept, (List.nodup_append.mp h.nodup).1, fun i r v hans => ?_, ?_,
    h.runs.of_append.of_isPrefix hpre hlt⟩
  · obtain hi | hi := List.mem_append.mp (h.completed i r v (hans.of_isPrefix hpre))
    · exact hi
    · exact absurd ⟨v, hans⟩ (hrest i hi r)
  · refine (List.pairwise_append.mp hpairs).1.imp ?_
    rintro a b hab ⟨r, v, hans, hr⟩
    exact hab ⟨r, ⟨v, hans⟩, hr⟩

end Ordinary

/-! ### Dual histories -/

/-- A predicate that accepts an answered call changes nothing by it, or accepts the pending call
and goes to the same state. -/
def DualMethod.ToleratesPending : DualMethod S Args Val → Prop
  | .predicate f => ∀ s args v, (f s args (some v)).1 = true →
      (f s args (some v)).2 = s ∨ f s args none = (true, (f s args (some v)).2)
  | _ => True

section Dual

variable {methods : DualMethodMap S Args Val} {history pre : List (DualHistoryEvent Args Val)}
  {v : Option Val} {e : DualHistoryEvent Args Val} {r : ℕ}

theorem DualInvokesAt.of_isPrefix (hpre : pre <+: history) (h : DualInvokesAt pre i e) :
    DualInvokesAt history i e :=
  ⟨getElem?_eq_some_of_isPrefix hpre h.1, h.2⟩

theorem DualRespondsAt.of_isPrefix (hpre : pre <+: history) (h : DualRespondsAt pre r e) :
    DualRespondsAt history r e :=
  ⟨getElem?_eq_some_of_isPrefix hpre h.1, h.2⟩

theorem DualAnswers.of_isPrefix (hpre : pre <+: history) (h : DualAnswers pre i r v) :
    DualAnswers history i r v := by
  obtain ⟨e, e', he, he', hkey, hv⟩ := h
  exact ⟨e, e', he.of_isPrefix hpre, he'.of_isPrefix hpre, hkey, hv⟩

theorem DualAnswers.lt_length (h : DualAnswers history i r v) : r < history.length := by
  obtain ⟨_, _, -, he', -⟩ := h
  exact (List.getElem?_eq_some_iff.mp he'.1).1

theorem DualWellFormed.of_isPrefix (h : DualWellFormed methods history) (hpre : pre <+: history) :
    DualWellFormed methods pre where
  invoked_once i j e e' hi hj := h.invoked_once i j e e' (hi.of_isPrefix hpre) (hj.of_isPrefix hpre)
  answered_once r q e e' hr hq :=
    h.answered_once r q e e' (hr.of_isPrefix hpre) (hq.of_isPrefix hpre)
  answered_after r e' hr := by
    obtain ⟨i, hir, e, he, hkey⟩ := h.answered_after r e' (hr.of_isPrefix hpre)
    have hrlt : r < pre.length := (List.getElem?_eq_some_iff.mp hr.1).1
    exact ⟨i, hir, e, ⟨(getElem?_of_isPrefix hpre (Nat.lt_trans hir hrlt)).trans he.1, he.2⟩, hkey⟩
  named i e hi := h.named i e (hi.of_isPrefix hpre)

theorem DualWellFormed.lt_of_dualAnswers (h : DualWellFormed methods history)
    (hans : DualAnswers history i r v) : i < r := by
  obtain ⟨e, e', he, he', hkey, -⟩ := hans
  obtain ⟨j, hjr, e'', he'', hkey'⟩ := h.answered_after r e' he'
  rwa [h.invoked_once i j e e'' he he'' (hkey.symm.trans hkey'.symm)]

variable [BEq Val]

theorem DualRunsInOrder.of_append (h : DualRunsInOrder methods history (order ++ rest) s) :
    DualRunsInOrder methods history order s :=
  runs_of_append (fun _ => trivial)
    (fun _ _ _ _ hl ⟨e, method, result, s', he, hmethod, hrec, happ, hrest⟩ =>
      ⟨e, method, result, s', he, hmethod, hrec, happ, hl _ hrest⟩) h

/-- A phase without its result: it does the same, or it was a call that changes nothing. -/
theorem DualMethod.Applies.pending {coro : CoroBase Args Val} {result : Option Val} {s' : S}
    {method : DualMethod S Args Val} {phase : Phase}
    (h : DualMethod.Applies coro result s method phase s') (htol : method.ToleratesPending) :
    DualMethod.Applies coro none s method phase s' ∨ s' = s := by
  cases h with
  | nonBlocking _ => exact .inl (.nonBlocking nofun)
  | @predicate f hf =>
    cases result with
    | none => exact .inl (.predicate hf)
    | some v =>
      obtain heq | hnone := htol s coro.args v hf
      · exact .inr heq
      · have happ : DualMethod.Applies coro none s (.predicate f) .ordinary
            (f s coro.args none).2 := .predicate (by rw [hnone])
        rw [hnone] at happ
        exact .inl happ
  | request => exact .inl .request
  | followUp hsome _ => exact .inl (.followUp hsome nofun)

/-- Phases that are invoked in the prefix run there, without some pending ones. -/
theorem DualRunsInOrder.of_isPrefix (hwf : DualWellFormed methods history) (hpre : pre <+: history)
    (htol : ∀ name method, methods name = some method → method.ToleratesPending)
    (hlt : ∀ i ∈ order, i < pre.length) (h : DualRunsInOrder methods history order s) :
    ∃ order', order'.Sublist order ∧
      (∀ i ∈ order, ∀ r v, DualAnswers pre i r v → i ∈ order') ∧
      DualRunsInOrder methods pre order' s := by
  induction order generalizing s with
  | nil => exact ⟨[], .slnil, by simp, trivial⟩
  | cons i order ih =>
    obtain ⟨hi, hlt⟩ := List.forall_mem_cons.mp hlt
    obtain ⟨e, method, result, s', he, hmethod, hrec, happ, hrest⟩ := h
    obtain ⟨order', hsub, hmem, hrun⟩ := ih hlt hrest
    have he' : DualInvokesAt pre i e := ⟨(getElem?_of_isPrefix hpre hi).trans he.1, he.2⟩
    have hkeep : ∀ result', Recorded pre i result' →
        DualMethod.Applies e.task.coro result' s method e.kind.phase s' →
        ∃ order', order'.Sublist (i :: order) ∧
          (∀ j ∈ i :: order, ∀ r v, DualAnswers pre j r v → j ∈ order') ∧
          DualRunsInOrder methods pre order' s := by
      intro result' hrec' happ'
      refine ⟨i :: order', hsub.cons_cons i, fun j hj r v hans => ?_,
        e, method, result', s', he', hmethod, hrec', happ', hrun⟩
      cases List.mem_cons.mp hj with
      | inl heq => exact heq ▸ List.mem_cons_self
      | inr hj => exact List.mem_cons_of_mem i (hmem j hj r v hans)
    by_cases hans : ∃ r v, DualAnswers pre i r v
    · -- answered in the prefix, so the same result is recorded
      obtain ⟨r, v, hans⟩ := hans
      obtain ⟨q, hq⟩ | ⟨-, hno⟩ := hrec
      · obtain ⟨-, rfl⟩ := hq.unique hwf (hans.of_isPrefix hpre)
        exact hkeep result (.inl ⟨r, hans⟩) happ
      · exact absurd (hans.of_isPrefix hpre) (hno r v)
    · push Not at hans
      obtain happ' | rfl := happ.pending (htol _ method hmethod)
      · exact hkeep none (.inr ⟨rfl, hans⟩) happ'
      · refine ⟨order', hsub.cons i, fun j hj r v hj' => ?_, hrun⟩
        cases List.mem_cons.mp hj with
        | inl heq => exact absurd (heq ▸ hj') (hans r v)
        | inr hj => exact hmem j hj r v hj'

/-- **Prefixes of linearizable dual histories are linearizable.** -/
theorem DualLinearizes.of_isPrefix (hwf : DualWellFormed methods history) (hpre : pre <+: history)
    (htol : ∀ name method, methods name = some method → method.ToleratesPending) {dropped : List ℕ}
    (h : DualLinearizes methods s history order dropped) :
    ∃ order' dropped', DualLinearizes methods s pre order' dropped' := by
  have hpairs : order.Pairwise fun a b => ¬ ∃ r, (∃ v, DualAnswers pre b r v) ∧ r < a := by
    refine h.extends_precedence.imp ?_
    rintro a b hab ⟨r, ⟨v, hans⟩, hr⟩
    exact hab ⟨r, v, hans.of_isPrefix hpre, hr⟩
  obtain ⟨kept, rest, rfl, hrest, hlt⟩ := exists_cut _ (fun i r ⟨v, hans⟩ =>
    ⟨(hwf.of_isPrefix hpre).lt_of_dualAnswers hans, hans.lt_length⟩) hpairs
  obtain ⟨order', hsub, hmem, hrun⟩ := h.runs.of_append.of_isPrefix hwf hpre htol hlt
  -- whatever else is invoked in the prefix is pending there
  set isDropped : ℕ → Bool := fun i =>
    (pre[i]?.map fun e => e.kind.isInvoke).getD false && !decide (i ∈ order') with hdropped
  have hisDropped : ∀ i, isDropped i = true ↔ (∃ e, DualInvokesAt pre i e) ∧ i ∉ order' := by
    intro i
    simp only [hdropped, DualInvokesAt, Bool.and_eq_true, Bool.not_eq_true',
      decide_eq_false_iff_not]
    cases pre[i]? <;> simp
  have hinvoke : ∀ i ∈ order', ∃ e, DualInvokesAt pre i e := by
    intro i hi
    obtain ⟨e, -, -, -, -, he, -⟩ := hrun.applies_of_mem hi
    exact ⟨e, he⟩
  have hanswered : ∀ i r v, DualAnswers pre i r v → i ∈ order' := by
    intro i r v hans
    obtain ⟨e, _, he, -⟩ := hans.of_isPrefix hpre
    have hi : i ∈ kept ++ rest ++ dropped := (h.mem i).mpr ⟨e, he⟩
    obtain hi | hi := List.mem_append.mp hi
    · obtain hi | hi := List.mem_append.mp hi
      · exact hmem i hi r v hans
      · exact absurd ⟨v, hans⟩ (hrest i hi r)
    · exact absurd (hans.of_isPrefix hpre) (h.pending i hi r v)
  refine ⟨order', (List.range pre.length).filter isDropped, ?_, fun i => ?_, fun i hi r v => ?_, ?_,
    hrun⟩
  · refine List.nodup_append.mpr ⟨?_, List.nodup_range.filter _, fun a ha b hb => ?_⟩
    · exact (List.nodup_append.mp (List.nodup_append.mp h.nodup).1).1.sublist hsub
    · rintro rfl
      exact ((hisDropped a).mp (List.mem_filter.mp hb).2).2 ha
  · rw [List.mem_append, List.mem_filter, List.mem_range, hisDropped]
    constructor
    · rintro (hi | ⟨-, hi, -⟩)
      · exact hinvoke i hi
      · exact hi
    · rintro ⟨e, he⟩
      by_cases hi : i ∈ order'
      · exact .inl hi
      · exact .inr ⟨(List.getElem?_eq_some_iff.mp he.1).1, ⟨e, he⟩, hi⟩
  · intro hans
    exact ((hisDropped i).mp (List.mem_filter.mp hi).2).2 (hanswered i r v hans)
  · refine ((List.pairwise_append.mp hpairs).1.sublist hsub).imp ?_
    rintro a b hab ⟨r, v, hans, hr⟩
    exact hab ⟨r, ⟨v, hans⟩, hr⟩

end Dual

/-! ### Verdicts -/

section Verdicts

variable [BEq Val] {policy : CachePolicy S}

theorem WellFormed.checkRecursive_eq_true_iff {methods : MethodMap S Args Val}
    {history : List (HistoryEvent Args Val)} (h : WellFormed methods history)
    (hpolicy : Respects methods policy.equal) :
    checkRecursive methods policy s history = .ok (some true) ↔
      ∃ order, Linearizes methods s history order := by
  obtain ⟨b, hb, hiff⟩ := h.checkRecursive_decides hpolicy s
  rw [← h.succeeds_iff_linearizes, ← hiff, hb]
  simp

theorem DualWellFormed.checkDual_eq_true_iff {methods : DualMethodMap S Args Val}
    {history : List (DualHistoryEvent Args Val)} (h : DualWellFormed methods history)
    (hpolicy : DualRespects methods policy.equal) :
    checkDual methods policy s history = .ok (some true) ↔
      ∃ order dropped, DualLinearizes methods s history order dropped := by
  obtain ⟨b, hb, hiff⟩ := h.checkDual_decides hpolicy s
  rw [← hiff, hb]
  simp

/-- **Accepted histories have accepted prefixes.** For the recursive checker this holds for every
specification whose methods respect the equality of states. For the dual checker, predicate methods
have to tolerate pending calls. -/
theorem accepts_prefixes (policy : CachePolicy S) (s : S) :
    (∀ (methods : MethodMap S Args Val) (history : List (HistoryEvent Args Val)),
      WellFormed methods history → Respects methods policy.equal →
      checkRecursive methods policy s history = .ok (some true) →
      ∀ pre, pre <+: history → checkRecursive methods policy s pre = .ok (some true)) ∧
    ∀ (methods : DualMethodMap S Args Val) (history : List (DualHistoryEvent Args Val)),
      DualWellFormed methods history → DualRespects methods policy.equal →
      (∀ name method, methods name = some method → method.ToleratesPending) →
      checkDual methods policy s history = .ok (some true) →
      ∀ pre, pre <+: history → checkDual methods policy s pre = .ok (some true) := by
  refine ⟨fun methods history hwf hpolicy hcheck pre hpre => ?_,
    fun methods history hwf hpolicy htol hcheck pre hpre => ?_⟩
  · rw [(hwf.of_isPrefix hpre).checkRecursive_eq_true_iff hpolicy]
    obtain ⟨order, hlin⟩ := (hwf.checkRecursive_eq_true_iff hpolicy).mp hcheck
    exact hlin.of_isPrefix hwf hpre
  · rw [(hwf.of_isPrefix hpre).checkDual_eq_true_iff hpolicy]
    obtain ⟨order, dropped, hlin⟩ := (hwf.checkDual_eq_true_iff hpolicy).mp hcheck
    exact hlin.of_isPrefix hwf hpre htol

end Verdicts

theorem toleratesPending_bufferMethods (name : String) (method : DualMethod (List ℕ) ℕ ℕ)
    (h : bufferMethods name = some method) : method.ToleratesPending := by
  unfold bufferMethods at h
  split at h
  · cases h
    trivial
  · cases h
    trivial
  · cases h

/-- The prefixes of the histories of a counter and of a buffer are accepted. -/
theorem accepts_prefixes_counterHistory :
    (∀ pre, pre <+: counterHistory →
      checkRecursive counterMethods counterPolicy 0 pre = .ok (some true)) ∧
    ∀ pre, pre <+: bufferHistory →
      checkDual bufferMethods bufferPolicy [] pre = .ok (some true) :=
  ⟨(accepts_prefixes counterPolicy 0).1 counterMethods counterHistory wellFormed_counterHistory
      respects_counterPolicy (by decide),
    (accepts_prefixes bufferPolicy []).2 bufferMethods bufferHistory dualWellFormed_bufferHistory
      dualRespects_bufferPolicy toleratesPending_bufferMethods (by decide)⟩

/-! ### A predicate that rejects pending calls -/

/-- `draw` stores any value it returns, and is rejected while it is pending; `peek` returns the
stored value. -/
def drawMethods : DualMethodMap ℕ Unit ℕ
  | "draw" => some (.predicate fun s _ result => (result.isSome, result.getD s))
  | "peek" => some (.nonBlocking fun s _ => (s, s))
  | _ => none

/-- The hash and the equality of stored values. -/
def drawPolicy : CachePolicy ℕ where
  hash s := .ofNat s
  equal := (· == ·)

/-- The task of an operation. -/
def drawTask (id : ℕ) (name : String) : Task Unit ℕ := ⟨id, id, id, name, (), 0⟩

/-- A `peek` returns what a concurrent `draw` returns later. -/
def drawHistory : List (DualHistoryEvent Unit ℕ) :=
  [.invoke (drawTask 0 "draw"), .invoke (drawTask 1 "peek"), .response (drawTask 1 "peek") 5,
    .response (drawTask 0 "draw") 5]

theorem dualWellFormed_drawHistory : DualWellFormed drawMethods drawHistory :=
  .of_getElem (by decide) (by decide) (by decide)

theorem dualRespects_drawPolicy : DualRespects drawMethods drawPolicy.equal := by
  intro name method hmethod s t hst
  obtain rfl : s = t := by simpa [drawPolicy] using hst
  unfold drawMethods at hmethod
  split at hmethod
  · cases hmethod
    exact fun args result => ⟨rfl, by simp [drawPolicy]⟩
  · cases hmethod
    exact fun args => ⟨fun _ => rfl, by simp [drawPolicy]⟩
  · cases hmethod

/-- The history is accepted, but not without its last event: the pending `draw` is neither accepted
nor can it be dropped. -/
theorem rejects_prefix_drawHistory :
    DualWellFormed drawMethods drawHistory ∧ DualRespects drawMethods drawPolicy.equal ∧
      checkDual drawMethods drawPolicy 0 drawHistory = .ok (some true) ∧
      drawHistory.take 3 <+: drawHistory ∧
      checkDual drawMethods drawPolicy 0 (drawHistory.take 3) = .ok (some false) :=
  ⟨dualWellFormed_drawHistory, dualRespects_drawPolicy, by decide, List.take_prefix _ _,
    by decide⟩

end Lincheck

end LTest
