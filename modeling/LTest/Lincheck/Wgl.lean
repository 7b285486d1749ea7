import LTest.Lincheck.Recursive
import Mathlib.Logic.Relation

/-!
# The iterative checker

`LinearizabilityChecker` runs the same search as the recursive checker as one loop with a cursor.
An applied invoke is pushed on a stack and the cursor returns to the start; a response that is not
linearized pops the stack and sends the cursor behind the popped invoke. The cache holds every
configuration that was ever entered, so it also holds the open ones. Those have fewer linearized
entries than a configuration that is looked up, and all the others have failed. The loop does not
check its cursor: a response stops it before the end, and when all responses are linearized the
rest is applied in one go.

## Main definitions

* `Wgl.getInvResMapping`, `Wgl.step`, `Wgl.check` — the checker
* `Wgl.Level` — what the loop does between two visits of an open section

## Main results

* `Wgl.level` — a level finishes with `true`, or stops at a response that is not linearized
* `Wgl.check_eq_checkRecursive` — the two checkers agree
-/

namespace LTest

namespace Lincheck

namespace Wgl

variable {S Args Val : Type}

/-! ### The checker -/

/-- The maps of `get_inv_res_mapping`. -/
structure Mapping where
  uids : ℕ → Option ℕ := fun _ => none
  invRes : ℕ → Option ℕ := fun _ => none

/-- One event of `get_inv_res_mapping`; a response of an unknown task fails an assertion. -/
def Mapping.add (m : Mapping) (i : ℕ) : HistoryEvent Args Val → Option Mapping
  | .invoke task => some { m with uids := Function.update m.uids task.handle (some i) }
  | .response task _ => (m.uids task.handle).map fun inv =>
      { m with invRes := Function.update m.invRes inv (some i) }

/-- The loop of `get_inv_res_mapping`, from the event `i` on. -/
def Mapping.addAll : ℕ → List (HistoryEvent Args Val) → Mapping → Option Mapping
  | _, [], m => some m
  | i, event :: rest, m => (m.add i event).bind (Mapping.addAll (i + 1) rest)

/-- `get_inv_res_mapping`. -/
def getInvResMapping (history : List (HistoryEvent Args Val)) : Option (ℕ → Option ℕ) :=
  (Mapping.addAll 0 history {}).map (·.invRes)

/-- `PairHash`, for some hash of bit vectors. -/
def pairHash (vectorHash : List Bool → UInt64) (policy : CachePolicy S) (k : List Bool × S) :
    UInt64 :=
  vectorHash k.1 ^^^ policy.hash k.2

/-- `PairEqual`. -/
def pairEqual (policy : CachePolicy S) (lhs rhs : List Bool × S) : Bool :=
  lhs.1 == rhs.1 && policy.equal lhs.2 rhs.2

/-- The lookup in `states_cache`. -/
def find (vectorHash : List Bool → UInt64) (policy : CachePolicy S) (cache : List (List Bool × S))
    (k : List Bool × S) : Bool :=
  cache.any fun k' => pairHash vectorHash policy k' == pairHash vectorHash policy k &&
    pairEqual policy k k'

/-- The variables of `Check`. -/
structure State (S : Type) where
  /-- The cursor. -/
  currentSectionStart : ℕ
  /-- The state. -/
  dataStructureState : S
  /-- `open_sections_stack`, with the entries of `states_stack` pushed with its own. -/
  openSections : List (ℕ × S)
  /-- The linearized events. -/
  linearized : List Bool
  /-- Their number. -/
  linearizedEntriesCount : ℕ
  /-- The cache. -/
  statesCache : List (List Bool × S)

/-- How an iteration of the loop ends. -/
inductive Outcome (S : Type)
  | running (st : State S)
  | finished (verdict : Bool)
  | outOfBounds
  | assertFailed

/-- Open a section at the invoke that the cursor is at, for a configuration that is new. -/
def State.openSection (st : State S) (linearized : List Bool) (count : ℕ) (state : S) :
    State S where
  currentSectionStart := 0
  dataStructureState := state
  openSections := (st.currentSectionStart, st.dataStructureState) :: st.openSections
  linearized := linearized
  linearizedEntriesCount := count
  statesCache := (linearized, state) :: st.statesCache

/-- How many entries an invoke and its response take. -/
def entries (response : Option ℕ) : ℕ := if response.isSome then 2 else 1

variable [BEq Val]

/-- An iteration at an invoke that is not linearized. -/
def stepInvoke (methods : MethodMap S Args Val) (vectorHash : List Bool → UInt64)
    (policy : CachePolicy S) (invRes : ℕ → Option ℕ) (st : State S) (task : Task Args Val) :
    Outcome S :=
  match methods task.coro.name with
  | none => .assertFailed
  | some method =>
    let i := st.currentSectionStart
    let r := method st.dataStructureState task.coro.args
    if invRes i = none ∨ (r.1 == task.coro.retVal) = true then
      let linearized := mark st.linearized i (invRes i) true
      let count := st.linearizedEntriesCount + entries (invRes i)
      if find vectorHash policy st.statesCache (linearized, r.2) then
        .running { st with
          currentSectionStart := i + 1
          linearized := mark linearized i (invRes i) false
          linearizedEntriesCount := count - entries (invRes i) }
      else .running (st.openSection linearized count r.2)
    else .running { st with currentSectionStart := i + 1 }

/-- An iteration at a response that is not linearized. -/
def stepResponse (invRes : ℕ → Option ℕ) (st : State S) : Outcome S :=
  match st.openSections with
  | [] => .finished false
  | (lastInv, state) :: rest =>
    .running { st with
      currentSectionStart := lastInv + 1
      dataStructureState := state
      openSections := rest
      linearized := mark st.linearized lastInv (invRes lastInv) false
      linearizedEntriesCount := st.linearizedEntriesCount - entries (invRes lastInv) }

/-- An iteration of the loop of `Check`. -/
def step (methods : MethodMap S Args Val) (vectorHash : List Bool → UInt64)
    (policy : CachePolicy S) (history : List (HistoryEvent Args Val)) (invRes : ℕ → Option ℕ)
    (st : State S) : Outcome S :=
  if st.linearizedEntriesCount = history.length then .finished true
  else
    match history[st.currentSectionStart]? with
    | none => .outOfBounds
    | some event =>
      if isLinearized st.linearized st.currentSectionStart then
        .running { st with currentSectionStart := st.currentSectionStart + 1 }
      else
        match event with
        | .invoke task => stepInvoke methods vectorHash policy invRes st task
        | .response _ _ => stepResponse invRes st

/-- At most `fuel` iterations. -/
def run (methods : MethodMap S Args Val) (vectorHash : List Bool → UInt64)
    (policy : CachePolicy S) (history : List (HistoryEvent Args Val)) (invRes : ℕ → Option ℕ) :
    ℕ → State S → Outcome S
  | 0, st => .running st
  | fuel + 1, st =>
    match step methods vectorHash policy history invRes st with
    | .running st' => run methods vectorHash policy history invRes fuel st'
    | outcome => outcome

/-- The variables before the loop. -/
def State.init (firstState : S) (n : ℕ) : State S where
  currentSectionStart := 0
  dataStructureState := firstState
  openSections := []
  linearized := List.replicate n false
  linearizedEntriesCount := 0
  statesCache := []

/-- `LinearizabilityChecker::Check`, with at most `fuel` iterations. -/
def check (methods : MethodMap S Args Val) (vectorHash : List Bool → UInt64)
    (policy : CachePolicy S) (firstState : S) (history : List (HistoryEvent Args Val))
    (fuel : ℕ) : Outcome S :=
  match getInvResMapping history with
  | none => .assertFailed
  | some invRes =>
    run methods vectorHash policy history invRes fuel (.init firstState history.length)

/-! ### The mapping -/

/-- How events refer to objects `Task`. -/
structure TaskObjects (history : List (HistoryEvent Args Val)) : Prop where
  /-- Tasks do not share one. -/
  distinct : ∀ i j t u, InvokesAt history i t → InvokesAt history j u → t.handle = u.handle → i = j
  /-- The events of a task refer to one. -/
  same : ∀ i r t u v, InvokesAt history i t → RespondsAt history r u v →
    u.coro.address = t.coro.address → u.handle = t.handle
  /-- A response carries the return value of its task. -/
  returned : ∀ i r t u v, InvokesAt history i t → RespondsAt history r u v →
    u.coro.address = t.coro.address → v = t.coro.retVal

section Mapping

variable {methods : MethodMap S Args Val} {history : List (HistoryEvent Args Val)}

/-- The maps after the first `p` events. -/
structure Mapping.Inv (history : List (HistoryEvent Args Val)) (p : ℕ) (m : Mapping) : Prop where
  uids : ∀ k i, m.uids k = some i ↔ i < p ∧ ∃ t, InvokesAt history i t ∧ t.handle = k
  invRes : ∀ i r, m.invRes i = some r ↔ r < p ∧ ∃ v, Answers history i r v

omit [BEq Val] in
theorem Mapping.Inv.add (h : WellFormed methods history) (ht : TaskObjects history) {p : ℕ}
    {m : Mapping} (hm : Mapping.Inv history p m) {event : HistoryEvent Args Val}
    (hevent : history[p]? = some event) :
    ∃ m', m.add p event = some m' ∧ m'.Inv history (p + 1) := by
  cases event with
  | invoke task =>
    refine ⟨_, rfl, fun k i => ?_, fun i r => ?_⟩
    · show Function.update m.uids task.handle (some p) k = some i ↔ _
      by_cases hk : k = task.handle
      · subst hk
        rw [Function.update_self]
        constructor
        · intro hi
          obtain rfl := Option.some.inj hi
          exact ⟨Nat.lt_succ_self p, task, hevent, rfl⟩
        · rintro ⟨-, t, hit, hkt⟩
          rw [ht.distinct i p t task hit hevent hkt]
      · rw [Function.update_of_ne hk, hm.uids]
        constructor
        · exact fun ⟨hi, hit⟩ => ⟨by omega, hit⟩
        · rintro ⟨hi, t, hit, rfl⟩
          obtain hi | rfl := Nat.lt_succ_iff_lt_or_eq.mp hi
          · exact ⟨hi, t, hit, rfl⟩
          · cases hevent.symm.trans hit
            exact absurd rfl hk
    · -- no response is added
      rw [hm.invRes]
      constructor
      · exact fun ⟨hr, hans⟩ => ⟨by omega, hans⟩
      · rintro ⟨hr, v, hans⟩
        obtain hr | rfl := Nat.lt_succ_iff_lt_or_eq.mp hr
        · exact ⟨hr, v, hans⟩
        · obtain ⟨_, u, -, hu, -⟩ := hans
          cases hevent.symm.trans hu
  | response u v =>
    obtain ⟨i, hip, t, hit, htu⟩ := h.answered_after p u v hevent
    have hans : Answers history i p v := ⟨t, u, hit, hevent, htu.symm⟩
    have huids : m.uids u.handle = some i :=
      (hm.uids _ i).mpr ⟨hip, t, hit, (ht.same i p t u v hit hevent htu.symm).symm⟩
    refine ⟨_, by rw [Mapping.add, huids]; rfl, fun k j => ?_, fun j r => ?_⟩
    · rw [hm.uids]
      constructor
      · exact fun ⟨hj, hjt⟩ => ⟨by omega, hjt⟩
      · rintro ⟨hj, t', hjt, hk⟩
        obtain hj | rfl := Nat.lt_succ_iff_lt_or_eq.mp hj
        · exact ⟨hj, t', hjt, hk⟩
        · cases hevent.symm.trans hjt
    · show Function.update m.invRes i (some p) j = some r ↔ _
      by_cases hj : j = i
      · subst hj
        rw [Function.update_self]
        constructor
        · intro hr
          obtain rfl := Option.some.inj hr
          exact ⟨Nat.lt_succ_self p, v, hans⟩
        · rintro ⟨-, w, hans'⟩
          rw [(hans.unique h hans').1]
      · rw [Function.update_of_ne hj, hm.invRes]
        constructor
        · exact fun ⟨hr, hans⟩ => ⟨by omega, hans⟩
        · rintro ⟨hr, w, hans'⟩
          obtain hr | rfl := Nat.lt_succ_iff_lt_or_eq.mp hr
          · exact ⟨hr, w, hans'⟩
          · obtain ⟨t', u', hjt, hu', hut'⟩ := hans'
            cases hevent.symm.trans hu'
            exact absurd (h.invoked_once j i t' t hjt hit (hut'.symm.trans htu.symm)) hj

omit [BEq Val] in
theorem Mapping.Inv.addAll (h : WellFormed methods history) (ht : TaskObjects history)
    {rest : List (HistoryEvent Args Val)} {p : ℕ} (hrest : history.drop p = rest) {m : Mapping}
    (hm : Mapping.Inv history p m) :
    ∃ m', Mapping.addAll p rest m = some m' ∧ m'.Inv history history.length := by
  induction rest generalizing p m with
  | nil =>
    have hp : history.length ≤ p := List.drop_eq_nil_iff.mp hrest
    refine ⟨m, rfl, fun k i => ?_, fun i r => ?_⟩
    · rw [hm.uids]
      refine and_congr_left fun ⟨t, hit, _⟩ => ?_
      have := (List.getElem?_eq_some_iff.mp hit).1
      omega
    · rw [hm.invRes]
      refine and_congr_left fun ⟨v, _, u, _, hu, _⟩ => ?_
      have := (List.getElem?_eq_some_iff.mp hu).1
      omega
  | cons event rest ih =>
    have hevent : history[p]? = some event := by
      rw [← List.head?_drop, hrest]
      rfl
    obtain ⟨m', hadd, hm'⟩ := hm.add h ht hevent
    have hrest' : history.drop (p + 1) = rest := by
      rw [← List.tail_drop, hrest]
      rfl
    rw [Mapping.addAll, hadd]
    exact ih hrest' hm'

/-- The mapping is the one of the recursive checker. -/
theorem exists_getInvResMapping (h : WellFormed methods history) (ht : TaskObjects history) :
    ∃ invRes, getInvResMapping history = some invRes ∧ ∀ i < history.length,
      invRes i = (historyAdapter methods history).responseIndex i := by
  have hinit : Mapping.Inv history 0 {} := ⟨by simp, by simp⟩
  obtain ⟨m, hm, hinv⟩ := hinit.addAll h ht List.drop_zero
  refine ⟨m.invRes, by rw [getInvResMapping, hm]; rfl, fun i hi => Option.ext fun r => ?_⟩
  rw [hinv.invRes, historyAdapter, h.responseIndex_iff _ hi]
  refine and_iff_right_of_imp fun hanswers => ?_
  obtain ⟨v, _, u, _, hu, _⟩ := hanswers
  exact (List.getElem?_eq_some_iff.mp hu).1

end Mapping

/-! ### An iteration -/

section Step

variable {methods : MethodMap S Args Val} {vectorHash : List Bool → UInt64} {policy : CachePolicy S}
  {history : List (HistoryEvent Args Val)} {invRes : ℕ → Option ℕ} {st : State S}
  {t : Task Args Val}

/-- What the loop is given. -/
structure Setup (methods : MethodMap S Args Val) (history : List (HistoryEvent Args Val))
    (invRes : ℕ → Option ℕ) : Prop where
  wellFormed : WellFormed methods history
  tasks : TaskObjects history
  invRes : ∀ i < history.length, invRes i = (historyAdapter methods history).responseIndex i

theorem step_finished (h : st.linearizedEntriesCount = history.length) :
    step methods vectorHash policy history invRes st = .finished true := by
  rw [step, if_pos h]

theorem step_linearized (hcount : st.linearizedEntriesCount ≠ history.length)
    (hc : st.currentSectionStart < history.length)
    (hlin : isLinearized st.linearized st.currentSectionStart = true) :
    step methods vectorHash policy history invRes st =
      .running { st with currentSectionStart := st.currentSectionStart + 1 } := by
  simp only [step, if_neg hcount, List.getElem?_eq_getElem hc, if_pos hlin]

theorem step_response (hcount : st.linearizedEntriesCount ≠ history.length)
    (hc : st.currentSectionStart < history.length)
    (hlin : isLinearized st.linearized st.currentSectionStart = false)
    (hresp : (historyAdapter methods history).isResponse st.currentSectionStart = true) :
    step methods vectorHash policy history invRes st = stepResponse invRes st := by
  rw [historyAdapter, (readsMarks_recursiveAdapter history _).isResponse _ (by simpa using hc)]
    at hresp
  obtain ⟨_, hclose⟩ := hresp
  obtain ⟨t, v, ht, -⟩ := closesAt_mark.mp hclose
  simp only [step, if_neg hcount, show history[st.currentSectionStart]? = _ from ht, hlin,
    Bool.false_eq_true, if_false]

/-- The test of the loop is the one of the recursive checker. -/
theorem Setup.applicable_iff (hs : Setup methods history invRes) {i : ℕ}
    (ht : InvokesAt history i t) (res : Val) :
    (invRes i = none ∨ (res == t.coro.retVal) = true) ↔
      ∀ r v, Answers history i r v → (res == v) = true := by
  have hi : i < history.length := (List.getElem?_eq_some_iff.mp ht).1
  have hresp : ∀ r, invRes i = some r ↔ ∃ v, Answers history i r v := by
    rw [hs.invRes i hi]
    exact hs.wellFormed.responseIndex_iff _ hi
  have hval : ∀ r v, Answers history i r v → v = t.coro.retVal := by
    rintro r v ⟨t', u, ht', hu, hut⟩
    cases ht.symm.trans ht'
    exact hs.tasks.returned i r t u v ht hu hut
  constructor
  · intro h r v hans
    have hsome := (hresp r).mpr ⟨v, hans⟩
    rw [hval r v hans]
    exact h.resolve_left (by simp [hsome])
  · intro h
    cases hr : invRes i with
    | none => exact .inl rfl
    | some r =>
      obtain ⟨v, hans⟩ := (hresp r).mp hr
      exact .inr (hval r v hans ▸ h r v hans)

/-- An invoke that cannot be applied is passed over. -/
theorem Setup.step_refused (hs : Setup methods history invRes)
    (hcount : st.linearizedEntriesCount ≠ history.length)
    (hlin : isLinearized st.linearized st.currentSectionStart = false)
    (ht : InvokesAt history st.currentSectionStart t)
    (happ : (historyAdapter methods history).tryApply st.currentSectionStart
      st.dataStructureState = none) :
    step methods vectorHash policy history invRes st =
      .running { st with currentSectionStart := st.currentSectionStart + 1 } := by
  obtain ⟨method, hmethod⟩ := Option.ne_none_iff_exists'.mp (hs.wellFormed.named _ t ht)
  have hno : ¬ (invRes st.currentSectionStart = none ∨
      ((method st.dataStructureState t.coro.args).1 == t.coro.retVal) = true) := by
    intro h
    have hsome := (hs.wellFormed.tryApply_iff ht hmethod).mpr ⟨rfl, (hs.applicable_iff ht _).mp h⟩
    cases happ.symm.trans hsome
  simp only [step, if_neg hcount, show history[st.currentSectionStart]? = _ from ht, hlin,
    Bool.false_eq_true, if_false, stepInvoke, hmethod, if_neg hno]

theorem Setup.step_applied (hs : Setup methods history invRes)
    (hcount : st.linearizedEntriesCount ≠ history.length)
    (hlin : isLinearized st.linearized st.currentSectionStart = false)
    (ht : InvokesAt history st.currentSectionStart t) {s : S}
    (happ : (historyAdapter methods history).tryApply st.currentSectionStart
      st.dataStructureState = some s) {o : Option ℕ} (ho : invRes st.currentSectionStart = o) :
    step methods vectorHash policy history invRes st =
      if find vectorHash policy st.statesCache
          (mark st.linearized st.currentSectionStart o true, s) then
        .running { st with
          currentSectionStart := st.currentSectionStart + 1
          linearized :=
            mark (mark st.linearized st.currentSectionStart o true) st.currentSectionStart o false
          linearizedEntriesCount := st.linearizedEntriesCount + entries o - entries o }
      else
        .running (st.openSection (mark st.linearized st.currentSectionStart o true)
          (st.linearizedEntriesCount + entries o) s) := by
  subst ho
  obtain ⟨method, hmethod⟩ := Option.ne_none_iff_exists'.mp (hs.wellFormed.named _ t ht)
  obtain ⟨rfl, hall⟩ := (hs.wellFormed.tryApply_iff ht hmethod).mp happ
  rw [← hs.applicable_iff ht] at hall
  simp only [step, if_neg hcount, show history[st.currentSectionStart]? = _ from ht, hlin,
    Bool.false_eq_true, if_false, stepInvoke, hmethod, if_pos hall]

end Step

/-! ### Levels -/

section Level

variable {methods : MethodMap S Args Val} {vectorHash : List Bool → UInt64}
  {policy : CachePolicy S} {history : List (HistoryEvent Args Val)} {invRes : ℕ → Option ℕ}
  {st : State S}

/-- The loop gets from one state to another. -/
def Reaches (methods : MethodMap S Args Val) (vectorHash : List Bool → UInt64)
    (policy : CachePolicy S) (history : List (HistoryEvent Args Val)) (invRes : ℕ → Option ℕ) :
    State S → State S → Prop :=
  Relation.ReflTransGen fun st st' =>
    step methods vectorHash policy history invRes st = .running st'

/-- The loop finishes with a verdict. -/
def Finishes (methods : MethodMap S Args Val) (vectorHash : List Bool → UInt64)
    (policy : CachePolicy S) (history : List (HistoryEvent Args Val)) (invRes : ℕ → Option ℕ)
    (st : State S) (verdict : Bool) : Prop :=
  ∃ st', Reaches methods vectorHash policy history invRes st st' ∧
    step methods vectorHash policy history invRes st' = .finished verdict

theorem Finishes.exists_run {b : Bool}
    (h : Finishes methods vectorHash policy history invRes st b) :
    ∃ fuel, run methods vectorHash policy history invRes fuel st = .finished b := by
  obtain ⟨st', hreach, hstep⟩ := h
  induction hreach using Relation.ReflTransGen.head_induction_on with
  | refl => exact ⟨1, by rw [run, hstep]⟩
  | head hfirst _ ih =>
    obtain ⟨fuel, hrun⟩ := ih
    exact ⟨fuel + 1, by rw [run, hfirst]; exact hrun⟩

/-- Every cached configuration has failed, or it is one of the open ones. -/
def Failed (A : Adapter S) (n : ℕ) (active cache : List (List Bool × S)) : Prop :=
  ∀ k ∈ cache, ¬ Succeeds A (fun _ => true) n k.1 k.2 ∨ k ∈ active

/-- The states of the loop. -/
structure Ready (A : Adapter S) (n : ℕ) (active : List (List Bool × S)) (st : State S) : Prop where
  /-- Every event has a flag. -/
  length : st.linearized.length = n
  /-- Linearized events are counted. -/
  count : st.linearizedEntriesCount = st.linearized.count true
  /-- Responses are linearized with their invokes. -/
  closed : Closed A n st.linearized
  /-- The cursor has passed linearized responses only. -/
  minimal : ∀ r < st.currentSectionStart, A.isResponse r = true →
    isLinearized st.linearized r = true
  /-- If all responses are linearized, it has passed nothing that is not. -/
  passed : (∀ r < n, A.isResponse r = true → isLinearized st.linearized r = true) →
    ∀ i < n, i < st.currentSectionStart → isLinearized st.linearized i = true
  /-- Cached configurations have failed or are open. -/
  cache : Failed A n active st.statesCache
  /-- Open ones are no larger. -/
  active : ∀ k ∈ active, k.1.count true ≤ st.linearized.count true

/-- Everything is linearized, or an invoke from the cursor on leads to success. -/
def Hopeful (A : Adapter S) (n : ℕ) (st : State S) : Prop :=
  st.linearized.count true = n ∨ ∃ i, st.currentSectionStart ≤ i ∧ i < n ∧
    Enabled A st.linearized i ∧ Promising A (fun _ => true) n st.linearized st.dataStructureState i

/-- The loop finishes with `true`, or it comes back to the section it is in and stops at a
response that is not linearized. -/
def Level (methods : MethodMap S Args Val) (vectorHash : List Bool → UInt64)
    (policy : CachePolicy S) (history : List (HistoryEvent Args Val)) (invRes : ℕ → Option ℕ)
    (active : List (List Bool × S)) (st : State S) : Prop :=
  (Hopeful (historyAdapter methods history) history.length st ∧
    Finishes methods vectorHash policy history invRes st true) ∨
  (¬ Hopeful (historyAdapter methods history) history.length st ∧
    ∃ r cache, r < history.length ∧ (historyAdapter methods history).isResponse r = true ∧
      isLinearized st.linearized r = false ∧
      Reaches methods vectorHash policy history invRes st
        { st with currentSectionStart := r, statesCache := cache } ∧
      Failed (historyAdapter methods history) history.length active cache)

section Ready

variable {A : Adapter S} {n : ℕ} {active : List (List Bool × S)} {l : List Bool}

/-- Without a bound check the cursor stays inside of the history. -/
theorem Ready.cursor_lt (h : Ready A n active st) (hcount : st.linearized.count true ≠ n) :
    st.currentSectionStart < n := by
  by_contra hge
  have hresp : ∀ r < n, A.isResponse r = true → isLinearized st.linearized r = true :=
    fun r hr => h.minimal r (by omega)
  refine hcount ?_
  rw [← h.length]
  refine List.count_eq_length.mpr fun b hb => ?_
  obtain ⟨i, hi, rfl⟩ := List.mem_iff_getElem.mp hb
  have hin : i < n := h.length ▸ hi
  have hlin := h.passed hresp i hin (by omega)
  simpa [isLinearized, hi] using hlin.symm

theorem Ready.skip (h : Ready A n active st) {cache : List (List Bool × S)}
    (hcache : Failed A n active cache)
    (hresp : A.isResponse st.currentSectionStart = true →
      isLinearized st.linearized st.currentSectionStart = true)
    (hpassed : (∀ r < n, A.isResponse r = true → isLinearized st.linearized r = true) →
      isLinearized st.linearized st.currentSectionStart = true) :
    Ready A n active
      { st with currentSectionStart := st.currentSectionStart + 1, statesCache := cache } where
  __ := h
  minimal r hr hrr := by
    obtain hr | rfl := Nat.lt_succ_iff_lt_or_eq.mp hr
    · exact h.minimal r hr hrr
    · exact hresp hrr
  passed hall i hin hi := by
    obtain hi | rfl := Nat.lt_succ_iff_lt_or_eq.mp hi
    · exact h.passed hall i hin hi
    · exact hpassed hall
  cache := hcache

theorem Ready.enabled (hA : Arranged A n) (h : Ready A n active st)
    (hlt : st.currentSectionStart < n) (hinv : A.isInvoke st.currentSectionStart = true)
    (hlin : isLinearized st.linearized st.currentSectionStart = false) :
    Enabled A st.linearized st.currentSectionStart where
  invoke := hinv
  response := by simpa [hinv] using hA.kind _ hlt
  fresh := hlin
  unanswered r hr := (h.closed _ hlt hinv r hr).trans hlin
  minimal := h.minimal

theorem entries_eq (o : Option ℕ) : entries o = 1 + o.toList.length := by
  cases o <;> rfl

/-- The entries of an invoke that is applied. -/
theorem Ready.count_mark (hA : Arranged A n) (h : Ready A n active st)
    (hlt : st.currentSectionStart < n) (hen : Enabled A st.linearized st.currentSectionStart) :
    (mark st.linearized st.currentSectionStart (A.responseIndex st.currentSectionStart) true).count
      true = st.linearized.count true + entries (A.responseIndex st.currentSectionStart) := by
  rw [Lincheck.count_mark hen (h.length.symm ▸ hlt), entries_eq, Nat.add_assoc]
  intro r hr
  obtain ⟨hrn, hne⟩ := hA.indexed _ hlt hen.invoke r hr
  exact ⟨h.length.symm ▸ hrn, hne, hen.unanswered r hr⟩

theorem Ready.openSection (hA : Arranged A n) (h : Ready A n active st)
    (hlt : st.currentSectionStart < n) (hen : Enabled A st.linearized st.currentSectionStart)
    (hl : mark st.linearized st.currentSectionStart
      (A.responseIndex st.currentSectionStart) true = l) (s : S) :
    Ready A n ((l, s) :: active) (st.openSection l
      (st.linearizedEntriesCount + entries (A.responseIndex st.currentSectionStart)) s) where
  length := by rw [State.openSection, ← hl, length_mark, h.length]
  count := by simp only [State.openSection, ← hl, h.count_mark hA hlt hen, h.count]
  closed := hl ▸ h.closed.mark hA h.length hlt hen.invoke
  minimal r hr := absurd hr (Nat.not_lt_zero r)
  passed _ i _ hi := absurd hi (Nat.not_lt_zero i)
  cache := by
    intro k hk
    obtain rfl | hk := List.mem_cons.mp hk
    · exact .inr List.mem_cons_self
    · exact (h.cache k hk).imp_right (List.mem_cons_of_mem _)
  active := by
    intro k hk
    obtain rfl | hk := List.mem_cons.mp hk
    · exact Nat.le_refl _
    · have hcount := h.count_mark hA hlt hen
      rw [hl] at hcount
      exact Nat.le_trans (h.active k hk) (hcount ▸ Nat.le_add_right _ _)

/-- At the start of a section, hope is success. -/
theorem hopeful_iff_succeeds (h : st.currentSectionStart = 0) :
    Hopeful A n st ↔ Succeeds A (fun _ => true) n st.linearized st.dataStructureState := by
  by_cases hcount : st.linearized.count true = n
  · exact iff_of_true (.inl hcount) (.done hcount rfl)
  · simp [Hopeful, succeeds_iff_exists_promising hcount, hcount, h]

theorem responses_mark (hA : Arranged A n) (hlen : l.length = n) {i : ℕ} (hi : i < n)
    (hinv : A.isInvoke i = true)
    (hresp : ∀ r < n, A.isResponse r = true → isLinearized l r = true) :
    ∀ r < n, A.isResponse r = true → isLinearized (mark l i (A.responseIndex i) true) r = true := by
  intro r hr hrr
  rw [isLinearized_mark (hlen.symm ▸ hi) fun r hr => hlen.symm ▸ (hA.indexed i hi hinv r hr).1,
    hresp r hr hrr]
  rfl

/-- When all responses are linearized, an invoke that is left is pending. -/
theorem responseIndex_eq_none (hA : Arranged A n) (hcl : Closed A n l)
    (hresp : ∀ r < n, A.isResponse r = true → isLinearized l r = true) {i : ℕ} (hi : i < n)
    (hinv : A.isInvoke i = true) (hlin : isLinearized l i = false) : A.responseIndex i = none := by
  by_contra hne
  obtain ⟨r, hr⟩ := Option.ne_none_iff_exists'.mp hne
  obtain ⟨-, hrn, hrr⟩ := hA.response i hi hinv r hr
  have := hresp r hrn hrr
  rw [hcl i hi hinv r hr, hlin] at this
  cases this

/-- When all responses are linearized, what is left can be applied. -/
theorem succeeds_of_responses (hA : Arranged A n)
    (htotal : ∀ i < n, A.isInvoke i = true → A.responseIndex i = none → ∀ s, A.tryApply i s ≠ none)
    (hlen : l.length = n) (hcl : Closed A n l)
    (hresp : ∀ r < n, A.isResponse r = true → isLinearized l r = true) (s : S) :
    Succeeds A (fun _ => true) n l s := by
  induction hm : n - l.count true using Nat.strongRecOn generalizing l s with
  | _ m ih =>
    by_cases hall : ∀ i < n, A.isInvoke i = true → isLinearized l i = true
    · exact .done (count_eq_of_nothing_left hA hlen hcl hall) rfl
    push Not at hall
    obtain ⟨i, hi, hinv, hlin⟩ := hall
    rw [ne_eq, Bool.not_eq_true] at hlin
    have hpend := responseIndex_eq_none hA hcl hresp hi hinv hlin
    have hen : Enabled A l i :=
      ⟨hinv, by simpa [hinv] using hA.kind i hi, hlin, by simp [hpend],
        fun r hr hrr => hresp r (by omega) hrr⟩
    obtain ⟨s', happ⟩ := Option.ne_none_iff_exists'.mp (htotal i hi hinv hpend s)
    have hcount := count_mark hen (hlen.symm ▸ hi)
      (by simp [hpend] : ∀ r, A.responseIndex i = some r → _)
    have hle := List.count_le_length (a := true) (l := mark l i (A.responseIndex i) true)
    rw [length_mark, hlen] at hle
    exact .apply hi hen happ (ih _ (by omega) (by simpa using hlen) (hcl.mark hA hlen hi hinv)
      (responses_mark hA hlen hi hinv hresp) s' rfl)

end Ready

section Setup

variable {active : List (List Bool × S)} {l : List Bool}

theorem Setup.tryApply_ne_none (hs : Setup methods history invRes) {i : ℕ}
    (hi : i < history.length) (hinv : (historyAdapter methods history).isInvoke i = true)
    (hpend : (historyAdapter methods history).responseIndex i = none) (s : S) :
    (historyAdapter methods history).tryApply i s ≠ none := by
  obtain ⟨t, ht⟩ := (historyAdapter_isInvoke hi).mp hinv
  obtain ⟨method, hmethod⟩ := Option.ne_none_iff_exists'.mp (hs.wellFormed.named i t ht)
  have hno : ∀ r v, ¬ Answers history i r v := fun r v hans => by
    have := (hs.wellFormed.responseIndex_iff (methodsOf methods history) hi r).mpr ⟨v, hans⟩
    cases hpend.symm.trans this
  have := (hs.wellFormed.tryApply_iff ht hmethod (s := s)).mpr
    ⟨rfl, fun r v hans => absurd hans (hno r v)⟩
  exact fun h => by cases h.symm.trans this

/-- A configuration that the cache has seen, with more entries than all open ones, has failed. -/
theorem Ready.not_succeeds_of_find {A : Adapter S} {n : ℕ} (hc : Congruent policy A fun _ => true)
    (h : Ready A n active st) {s : S} (hcount : st.linearized.count true < l.count true)
    (hfind : find vectorHash policy st.statesCache (l, s) = true) :
    ¬ Succeeds A (fun _ => true) n l s := by
  simp only [find, pairEqual, List.any_eq_true, Bool.and_eq_true, beq_iff_eq] at hfind
  obtain ⟨⟨l', s'⟩, hmem, -, rfl, heq⟩ := hfind
  rw [succeeds_congr hc heq]
  refine (h.cache _ hmem).resolve_right fun hact => ?_
  exact absurd (h.active _ hact) (by simpa using hcount)

/-- The cursor has moved on from an invoke that does not lead to success. -/
theorem Level.of_skip {cache : List (List Bool × S)}
    (hreach : Reaches methods vectorHash policy history invRes st
      { st with currentSectionStart := st.currentSectionStart + 1, statesCache := cache })
    (hno : ¬ (Enabled (historyAdapter methods history) st.linearized st.currentSectionStart ∧
      Promising (historyAdapter methods history) (fun _ => true) history.length st.linearized
        st.dataStructureState st.currentSectionStart))
    (h : Level methods vectorHash policy history invRes active
      { st with currentSectionStart := st.currentSectionStart + 1, statesCache := cache }) :
    Level methods vectorHash policy history invRes active st := by
  have hiff : Hopeful (historyAdapter methods history) history.length st ↔
      Hopeful (historyAdapter methods history) history.length
        { st with currentSectionStart := st.currentSectionStart + 1, statesCache := cache } := by
    refine or_congr_right ⟨?_, ?_⟩
    · rintro ⟨i, hi, hin, hen, hprom⟩
      obtain rfl | hlt := Nat.eq_or_lt_of_le hi
      · exact absurd ⟨hen, hprom⟩ hno
      · exact ⟨i, hlt, hin, hen, hprom⟩
    · rintro ⟨i, hi, h⟩
      exact ⟨i, Nat.le_of_succ_le hi, h⟩
  obtain ⟨hhope, st', hreach', hfin⟩ | ⟨hhope, r, cache', hr, hresp, hlin, hreach', hfail⟩ := h
  · exact .inl ⟨hiff.mpr hhope, st', hreach.trans hreach', hfin⟩
  · exact .inr
      ⟨fun hh => hhope (hiff.mp hh), r, cache', hr, hresp, hlin, hreach.trans hreach', hfail⟩

theorem promising_iff {n i : ℕ} {s s' : S}
    (happ : (historyAdapter methods history).tryApply i s = some s') :
    Promising (historyAdapter methods history) (fun _ => true) n l s i ↔
      Succeeds (historyAdapter methods history) (fun _ => true) n
        (mark l i ((historyAdapter methods history).responseIndex i) true) s' := by
  constructor
  · rintro (⟨-, hdrop, -⟩ | ⟨s'', happ', hsucc⟩)
    · cases hdrop
    · cases happ.symm.trans happ'
      exact hsucc
  · exact fun hsucc => .inr ⟨s', happ, hsucc⟩

/-- A section is closed at a response that is not linearized. -/
theorem step_closed {s : S} {o : Option ℕ} (ho : invRes st.currentSectionStart = o)
    (hl : mark l st.currentSectionStart o false = st.linearized)
    (hcount : st.linearizedEntriesCount + entries o ≠ history.length) {r : ℕ}
    (hr : r < history.length) (hresp : (historyAdapter methods history).isResponse r = true)
    (hlin : isLinearized l r = false) {cache : List (List Bool × S)} :
    step methods vectorHash policy history invRes
        { st.openSection l (st.linearizedEntriesCount + entries o) s with
          currentSectionStart := r
          statesCache := cache } =
      .running { st with
        currentSectionStart := st.currentSectionStart + 1
        statesCache := cache } := by
  rw [step_response hcount hr hlin hresp]
  simp only [stepResponse, State.openSection, ho, hl, Nat.add_sub_cancel]

/-- **A level**, by induction on the entries that are left and on the way of the cursor. -/
theorem level (hs : Setup methods history invRes)
    (hc : Congruent policy (historyAdapter methods history) fun _ => true) (m : ℕ) :
    ∀ (d : ℕ) (st : State S) (active : List (List Bool × S)),
      history.length - st.linearized.count true < m →
      history.length - st.currentSectionStart < d →
      Ready (historyAdapter methods history) history.length active st →
      Level methods vectorHash policy history invRes active st := by
  have hA := hs.wellFormed.arranged
  induction m with
  | zero => exact fun d st active hm => absurd hm (Nat.not_lt_zero _)
  | succ m ihm =>
    intro d
    induction d with
    | zero => exact fun st active _ hd => absurd hd (Nat.not_lt_zero _)
    | succ d ihd =>
      intro st active hm hd hready
      have hlen := hready.length
      have hcnt := hready.count
      have hcl := hready.closed
      by_cases hcount : st.linearized.count true = history.length
      · exact .inl ⟨.inl hcount, st, .refl, step_finished (hcnt.trans hcount)⟩
      have hcount' : st.linearizedEntriesCount ≠ history.length := hcnt ▸ hcount
      have hle : st.linearized.count true ≤ history.length := hlen ▸ List.count_le_length
      have hlt := hready.cursor_lt hcount
      by_cases hlin : isLinearized st.linearized st.currentSectionStart = true
      · refine .of_skip (.single (step_linearized hcount' hlt hlin)) (fun h => ?_)
          (ihd _ active hm (by simp only; omega)
            (hready.skip hready.cache (fun _ => hlin) fun _ => hlin))
        simp [h.1.fresh] at hlin
      rw [Bool.not_eq_true] at hlin
      by_cases hresp : (historyAdapter methods history).isResponse st.currentSectionStart = true
      · -- nothing at or after an open response is enabled
        refine .inr ⟨?_, st.currentSectionStart, st.statesCache, hlt, hresp, hlin, .refl,
          hready.cache⟩
        rintro (h | ⟨i, hi, -, hen, -⟩)
        · exact hcount h
        · obtain rfl | hlt := Nat.eq_or_lt_of_le hi
          · simp [hen.response] at hresp
          · simp [hen.minimal _ hlt hresp] at hlin
      have hinv : (historyAdapter methods history).isInvoke st.currentSectionStart = true := by
        rw [hA.kind _ hlt]
        simpa using hresp
      obtain ⟨t, ht⟩ := (historyAdapter_isInvoke hlt).mp hinv
      have hen := hready.enabled hA hlt hinv hlin
      cases happ : (historyAdapter methods history).tryApply st.currentSectionStart
          st.dataStructureState with
      | none =>
        refine .of_skip (.single (hs.step_refused hcount' hlin ht happ)) (fun h => ?_)
          (ihd _ active hm (by simp only; omega) (hready.skip hready.cache
            (fun h => absurd h hresp) fun hall =>
              absurd happ (hs.tryApply_ne_none hlt hinv
                (responseIndex_eq_none hA hcl hall hlt hinv hlin) _)))
        obtain ⟨-, ⟨-, hdrop, -⟩ | ⟨s', happ', -⟩⟩ := h
        · cases hdrop
        · cases happ.symm.trans happ'
      | some s =>
        have hres := hs.invRes _ hlt
        have hundo := mark_mark hen.fresh hen.unanswered
        have hcountl := hready.count_mark hA hlt hen
        have hprom := promising_iff (n := history.length) (l := st.linearized) happ
        have hall := responses_mark hA hlen hlt hinv
        have hopen := hready.openSection hA hlt hen rfl s
        have hcll := hcl.mark hA hlen hlt hinv
        have hstep : step methods vectorHash policy history invRes st = _ :=
          hs.step_applied hcount' hlin ht happ hres
        set o := (historyAdapter methods history).responseIndex st.currentSectionStart
        set l := mark st.linearized st.currentSectionStart o true
        have hpos : 0 < entries o := by
          rw [entries_eq]
          omega
        by_cases hfind : find vectorHash policy st.statesCache (l, s) = true
        · have hfail := hready.not_succeeds_of_find hc (by omega) hfind
          rw [if_pos hfind, hundo, Nat.add_sub_cancel] at hstep
          refine .of_skip (.single hstep) (fun h => hfail (hprom.mp h.2))
            (ihd _ active hm (by simp only; omega) (hready.skip hready.cache
              (fun h => absurd h hresp) fun h => absurd ?_ hfail))
          exact succeeds_of_responses hA (fun i hi hinv hp s => hs.tryApply_ne_none hi hinv hp s)
            hopen.length hcll (hall h) s
        · rw [if_neg hfind] at hstep
          obtain ⟨hhope, st', hreach, hfin⟩ | ⟨hhope, r, cache, hr, hrr, hrlin, hreach, hfail⟩ :=
            ihm (history.length + 1) _ _ (by simp only [State.openSection]; omega)
              (by simp only [State.openSection]; omega) hopen
          · rw [hopeful_iff_succeeds rfl] at hhope
            exact .inl ⟨.inr ⟨_, Nat.le_refl _, hlt, hen, hprom.mpr hhope⟩, st',
              .head hstep hreach, hfin⟩
          · -- the section fails and is closed
            rw [hopeful_iff_succeeds rfl] at hhope
            have hcache : Failed (historyAdapter methods history) history.length active cache := by
              intro k hk
              obtain h | h := hfail k hk
              · exact .inl h
              · obtain rfl | h := List.mem_cons.mp h
                · exact .inl hhope
                · exact .inr h
            have hne : st.linearizedEntriesCount + entries o ≠ history.length := by
              rw [hcnt, ← hcountl]
              exact fun h => hhope (.done h rfl)
            have hback : Reaches methods vectorHash policy history invRes st _ :=
              .head hstep (.tail hreach (step_closed hres hundo hne hr hrr hrlin))
            refine .of_skip hback (fun h => hhope (hprom.mp h.2))
              (ihd _ active hm (by simp only; omega) (hready.skip hcache
                (fun h => absurd h hresp) fun h => ?_))
            cases (hall h r hr hrr).symm.trans hrlin

end Setup

end Level

/-! ### Agreement -/

section Agreement

variable {methods : MethodMap S Args Val} {vectorHash : List Bool → UInt64}
  {policy : CachePolicy S} {history : List (HistoryEvent Args Val)}

theorem ready_init (A : Adapter S) (firstState : S) (n : ℕ) :
    Ready A n [] (State.init firstState n) where
  length := List.length_replicate
  count := by simp [State.init, List.count_replicate]
  closed i _ _ r _ := by simp [State.init]
  minimal r hr := absurd hr (Nat.not_lt_zero r)
  passed _ i _ hi := absurd hi (Nat.not_lt_zero i)
  cache k hk := absurd hk List.not_mem_nil
  active k hk := absurd hk List.not_mem_nil

/-- The loop returns whether everything can be linearized from the start. -/
theorem check_decides (vectorHash : List Bool → UInt64) (h : WellFormed methods history)
    (ht : TaskObjects history) (hpolicy : Respects methods policy.equal) (firstState : S) :
    ∃ fuel b, check methods vectorHash policy firstState history fuel = .finished b ∧
      (b = true ↔ Succeeds (historyAdapter methods history) (fun _ => true) history.length
        (List.replicate history.length false) firstState) := by
  obtain ⟨invRes, hmap, hinvRes⟩ := exists_getInvResMapping h ht
  have hs : Setup methods history invRes := ⟨h, ht, hinvRes⟩
  have hfinish : ∃ b, Finishes methods vectorHash policy history invRes
      (State.init firstState history.length) b ∧ (b = true ↔
        Succeeds (historyAdapter methods history) (fun _ => true) history.length
          (List.replicate history.length false) firstState) := by
    have hlevel : Level methods vectorHash policy history invRes [] _ :=
      level hs (h.congruent hpolicy) _ _ _ [] (Nat.lt_succ_self _) (Nat.lt_succ_self _)
        (ready_init _ firstState history.length)
    obtain ⟨hhope, hfin⟩ | ⟨hhope, r, cache, hr, hresp, hlin, hreach, -⟩ := hlevel
    · exact ⟨true, hfin, iff_of_true rfl ((hopeful_iff_succeeds rfl).mp hhope)⟩
    · -- no section is open
      rw [hopeful_iff_succeeds rfl] at hhope
      refine ⟨false, ⟨_, hreach, ?_⟩, iff_of_false Bool.false_ne_true hhope⟩
      rw [step_response (fun hn => ?_) hr hlin hresp]
      · rfl
      · rw [← show 0 = history.length from hn] at hr
        exact absurd hr (Nat.not_lt_zero r)
  obtain ⟨b, hfin, hiff⟩ := hfinish
  obtain ⟨fuel, hrun⟩ := hfin.exists_run
  exact ⟨fuel, b, by rw [check, hmap]; exact hrun, hiff⟩

/-- **The two checkers agree.** On a well-formed history whose responses carry the return values
of their tasks, the loop ends after finitely many iterations, none of which has left the history
or failed an assertion, with the verdict of the recursive checker. -/
theorem check_eq_checkRecursive (h : WellFormed methods history) (ht : TaskObjects history)
    (hpolicy : Respects methods policy.equal) (firstState : S) :
    ∃ fuel b, check methods vectorHash policy firstState history fuel = .finished b ∧
      checkRecursive methods policy firstState history = .ok (some b) := by
  obtain ⟨fuel, b, hcheck, hb⟩ := check_decides vectorHash h ht hpolicy firstState
  obtain ⟨b', hrec, hb'⟩ := h.checkRecursive_decides hpolicy firstState
  obtain rfl : b = b' := Bool.eq_iff_iff.mpr (hb.trans hb'.symm)
  exact ⟨fuel, b, hcheck, hrec⟩

theorem taskObjects_counterHistory : TaskObjects counterHistory where
  distinct i j t u hi hj htu := by
    obtain ⟨rfl, rfl⟩ | ⟨rfl, rfl⟩ := invokesAt_counterHistory hi <;>
      obtain ⟨rfl, rfl⟩ | ⟨rfl, rfl⟩ := invokesAt_counterHistory hj <;>
      simp [counterTask] at htu ⊢
  same i r t u v hi hr htu := by
    obtain ⟨rfl, rfl, rfl⟩ := respondsAt_counterHistory hr
    obtain ⟨rfl, rfl⟩ | ⟨rfl, rfl⟩ := invokesAt_counterHistory hi <;>
      simp [counterTask] at htu ⊢
  returned i r t u v hi hr htu := by
    obtain ⟨rfl, rfl, rfl⟩ := respondsAt_counterHistory hr
    obtain ⟨rfl, rfl⟩ | ⟨rfl, rfl⟩ := invokesAt_counterHistory hi <;>
      simp [counterTask] at htu ⊢

theorem check_eq_checkRecursive_counterHistory :
    ∃ fuel b, check counterMethods (fun l => .ofNat (l.count true)) counterPolicy 0 counterHistory
        fuel = .finished b ∧
      checkRecursive counterMethods counterPolicy 0 counterHistory = .ok (some b) :=
  check_eq_checkRecursive wellFormed_counterHistory taskObjects_counterHistory
    respects_counterPolicy 0

end Agreement

end Wgl

end Lincheck

end LTest
