import LTest.Lib.Matching
import LTest.Lincheck.Linearization
import Mathlib.Data.Int.Notation

/-!
# Histories and linearizability

Histories of `Invoke` and `Response` events, sequential specifications, and what it means for a
history to be linearizable. The last part says how the events of a history, once they are matched
by a key, make an arrangement for the search; it serves ordinary and dual histories.

## Main definitions

* `Task`, `HistoryEvent`, `MethodMap` — the types of the checkers
* `WellFormed` — the histories that are checked
* `Linearizes` — a total order of completed and some pending operations that explains a history

## Main results

* `methodByEvent_eq_ok` — every invoke of a well-formed history has a method
* `ReadsMarks.arranged` — matched events are arranged for the search
-/

namespace LTest

namespace Lincheck

open Matching

/-! ### Histories -/

/-- What the checkers read of a `CoroBase`. -/
structure CoroBase (Args Val : Type) where
  /-- The address of the object. -/
  address : ℕ
  /-- The id. -/
  id : ℤ
  /-- The method. -/
  name : String
  /-- The arguments. -/
  args : Args
  /-- The return value. -/
  retVal : Val

/-- `Task`, a shared pointer to a `CoroBase`. -/
structure Task (Args Val : Type) where
  /-- The address of the pointer. -/
  handle : ℕ
  /-- The object. -/
  coro : CoroBase Args Val

/-- `HistoryEvent`: an `Invoke` or a `Response`. -/
inductive HistoryEvent (Args Val : Type)
  | invoke (task : Task Args Val)
  | response (task : Task Args Val) (result : Val)

/-- `Method`: the result of a call and the state after it. -/
abbrev Method (S Args Val : Type) := S → Args → Val × S

/-- `MethodMap`. -/
abbrev MethodMap (S Args Val : Type) := String → Option (Method S Args Val)

variable {S Args Val : Type}

/-- The event at `i` invokes the task `t`. -/
def InvokesAt (history : List (HistoryEvent Args Val)) (i : ℕ) (t : Task Args Val) : Prop :=
  history[i]? = some (.invoke t)

/-- The event at `r` is the response of the task `t`, with the result `v`. -/
def RespondsAt (history : List (HistoryEvent Args Val)) (r : ℕ) (t : Task Args Val) (v : Val) :
    Prop :=
  history[r]? = some (.response t v)

/-- The event at `r` answers the task invoked at `i`, with the result `v`. -/
def Answers (history : List (HistoryEvent Args Val)) (i r : ℕ) (v : Val) : Prop :=
  ∃ t u, InvokesAt history i t ∧ RespondsAt history r u v ∧ u.coro.address = t.coro.address

/-- A well-formed history. -/
structure WellFormed (methods : MethodMap S Args Val) (history : List (HistoryEvent Args Val)) :
    Prop where
  /-- A task is invoked once. -/
  invoked_once : ∀ i j t u, InvokesAt history i t → InvokesAt history j u →
    t.coro.address = u.coro.address → i = j
  /-- It is answered at most once. -/
  answered_once : ∀ r q t u v w, RespondsAt history r t v → RespondsAt history q u w →
    t.coro.address = u.coro.address → r = q
  /-- It is answered after its invoke. -/
  answered_after : ∀ r u v, RespondsAt history r u v →
    ∃ i < r, ∃ t, InvokesAt history i t ∧ t.coro.address = u.coro.address
  /-- It has a method in the specification. -/
  named : ∀ i t, InvokesAt history i t → methods t.coro.name ≠ none

/-! ### Linearizability -/

section Linearizable

variable [BEq Val]

/-- The operations invoked at the given positions run in this order: every one that is answered
returns its result. -/
def RunsInOrder (methods : MethodMap S Args Val) (history : List (HistoryEvent Args Val)) :
    List ℕ → S → Prop
  | [], _ => True
  | i :: rest, s => ∃ t method, InvokesAt history i t ∧ methods t.coro.name = some method ∧
      (∀ r v, Answers history i r v → ((method s t.coro.args).1 == v) = true) ∧
      RunsInOrder methods history rest (method s t.coro.args).2

/-- A total order of operations, given by the positions of their invokes. -/
structure Linearizes (methods : MethodMap S Args Val) (firstState : S)
    (history : List (HistoryEvent Args Val)) (order : List ℕ) : Prop where
  /-- No operation is there twice. -/
  nodup : order.Nodup
  /-- All completed ones are there. -/
  completed : ∀ i r v, Answers history i r v → i ∈ order
  /-- It extends real-time precedence. -/
  extends_precedence : order.Pairwise fun a b => ¬ ∃ r v, Answers history b r v ∧ r < a
  /-- It runs. -/
  runs : RunsInOrder methods history order firstState

/-- The equality of states is respected by the methods: equal states give results that compare
alike and equal next states. -/
def Respects (methods : MethodMap S Args Val) (equal : S → S → Bool) : Prop :=
  ∀ name method, methods name = some method → ∀ s t, equal s t = true → ∀ args,
    (∀ v, ((method s args).1 == v) = ((method t args).1 == v)) ∧
      equal (method s args).2 (method t args).2 = true

end Linearizable

/-! ### Methods of events -/

section Methods

variable {E M : Type}

/-- The method of every invoke; an invoke whose name has none is an error. -/
def methodByEvent (message : String) (methods : String → Option M) (isInvoke : E → Bool)
    (name : E → String) (events : List E) : Except String (List (Option M)) :=
  events.mapM fun event =>
    if isInvoke event then
      match methods (name event) with
      | none => .error (message ++ name event)
      | some method => .ok (some method)
    else .ok none

theorem methodByEvent_eq_ok (message : String) {methods : String → Option M} {isInvoke : E → Bool}
    {name : E → String} {events : List E}
    (h : ∀ event ∈ events, isInvoke event = true → methods (name event) ≠ none) :
    methodByEvent message methods isInvoke name events =
      .ok (events.map fun event => if isInvoke event then methods (name event) else none) := by
  induction events with
  | nil => rfl
  | cons event events ih =>
    have hrest := ih fun e he => h e (List.mem_cons_of_mem _ he)
    unfold methodByEvent at hrest ⊢
    rw [List.mapM_cons, hrest]
    cases hinv : isInvoke event with
    | false => simp [hinv]; rfl
    | true =>
      obtain ⟨method, hm⟩ := Option.ne_none_iff_exists'.mp (h event List.mem_cons_self hinv)
      simp [hinv, hm]; rfl

end Methods

/-! ### Matched events -/

section Marks

variable {K L : Type} [DecidableEq K] [DecidableEq L] {marks : List (Mark K L)} {A : Adapter S}

/-- The adapter sees the events as they are marked. -/
structure ReadsMarks (A : Adapter S) (marks : List (Mark K L)) : Prop where
  isInvoke : ∀ i < marks.length, A.isInvoke i = true ↔ ∃ k, OpensAt marks k i
  isResponse : ∀ i < marks.length, A.isResponse i = true ↔ ∃ k, ClosesAt marks k i
  responseIndex : ∀ i < marks.length, A.responseIndex i = (closings marks).getD i none

theorem ReadsMarks.arranged (h : ReadsMarks A marks) (hm : WellMatched marks) :
    Arranged A marks.length := by
  have hresp : ∀ i < marks.length, ∀ r, A.responseIndex i = some r ↔
      ∃ k, OpensAt marks k i ∧ ClosesAt marks k r := fun i hi r => by
    rw [h.responseIndex i hi, getD_closings hm]
  refine ⟨fun i hi => ?_, fun i hi _ r hr => ?_, fun i hi j hj _ _ r hir hjr => ?_,
    fun r hr hrr => ?_⟩
  · obtain ⟨k, ho⟩ | ⟨k, hc⟩ := opensAt_or_closesAt hi
    · have hno : A.isResponse i = false := by
        rw [← Bool.not_eq_true, h.isResponse i hi]
        exact fun ⟨_, hc⟩ => ho.not_closesAt hc
      rw [(h.isInvoke i hi).mpr ⟨k, ho⟩, hno]
      rfl
    · have hno : A.isInvoke i = false := by
        rw [← Bool.not_eq_true, h.isInvoke i hi]
        exact fun ⟨_, ho⟩ => ho.not_closesAt hc
      rw [(h.isResponse i hi).mpr ⟨k, hc⟩, hno]
      rfl
  · obtain ⟨k, ho, hc⟩ := (hresp i hi r).mp hr
    obtain ⟨j, hjr, hj⟩ := hm.opened k r hc
    obtain rfl := hm.opened_once k i j ho hj
    exact ⟨hjr, hc.lt, (h.isResponse r hc.lt).mpr ⟨k, hc⟩⟩
  · obtain ⟨k, ho, hc⟩ := (hresp i hi r).mp hir
    obtain ⟨k', ho', hc'⟩ := (hresp j hj r).mp hjr
    obtain rfl := hc.unique hc'
    exact hm.opened_once k i j ho ho'
  · obtain ⟨k, hc⟩ := (h.isResponse r hr).mp hrr
    obtain ⟨i, -, ho⟩ := hm.opened k r hc
    exact ⟨i, ho.lt, (h.isInvoke i ho.lt).mpr ⟨k, ho⟩, (hresp i ho.lt r).mpr ⟨k, ho, hc⟩⟩

end Marks

end Lincheck

end LTest
