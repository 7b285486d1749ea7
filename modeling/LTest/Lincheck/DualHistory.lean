import LTest.Lincheck.History

/-!
# Dual histories

In a dual data structure an operation may have to wait, and it is split into a request and a
follow-up, each with its own invoke and response. A dual history mixes such phases with ordinary
operations. Its specification has three kinds of methods, of which a follow-up is partial: it
returns nothing as long as it cannot be completed.

## Main definitions

* `DualHistoryEvent`, `DualMethod` — the types of the dual checker
* `DualWellFormed` — the histories that are checked
* `DualMethod.Applies` — what a phase of an operation does to the specification
* `DualLinearizes` — a total order of phases that explains a history
-/

namespace LTest

namespace Lincheck

/-! ### Histories -/

/-- `DualHistoryEventKind`. -/
inductive DualHistoryEventKind
  | ordinaryInvoke
  | ordinaryResponse
  | requestInvoke
  | requestResponse
  | followUpInvoke
  | followUpResponse
  deriving DecidableEq

/-- The phases: a request, a follow-up, or the only one of an ordinary operation. -/
inductive Phase
  | ordinary
  | request
  | followUp
  deriving DecidableEq

namespace DualHistoryEventKind

/-- `IsInvoke`. -/
def isInvoke (kind : DualHistoryEventKind) : Bool :=
  kind = ordinaryInvoke || kind = requestInvoke || kind = followUpInvoke

/-- `IsResponse`. -/
def isResponse (kind : DualHistoryEventKind) : Bool :=
  kind = ordinaryResponse || kind = requestResponse || kind = followUpResponse

/-- The phase that an event belongs to. -/
def phase : DualHistoryEventKind → Phase
  | ordinaryInvoke | ordinaryResponse => .ordinary
  | requestInvoke | requestResponse => .request
  | followUpInvoke | followUpResponse => .followUp

theorem isResponse_eq_not_isInvoke (kind : DualHistoryEventKind) :
    kind.isResponse = !kind.isInvoke := by
  cases kind <;> rfl

end DualHistoryEventKind

/-- `DualHistoryEvent`. -/
inductive DualHistoryEvent (Args Val : Type)
  | invoke (task : Task Args Val)
  | response (task : Task Args Val) (result : Val)
  | requestInvoke (task : Task Args Val)
  | requestResponse (task : Task Args Val)
  | followUpInvoke (task : Task Args Val)
  | followUpResponse (task : Task Args Val) (result : Val)

variable {S Args Val : Type}

namespace DualHistoryEvent

/-- The kind that `BuildDualHistoryEventInfo` gives to an event. -/
def kind : DualHistoryEvent Args Val → DualHistoryEventKind
  | .invoke _ => .ordinaryInvoke
  | .response _ _ => .ordinaryResponse
  | .requestInvoke _ => .requestInvoke
  | .requestResponse _ => .requestResponse
  | .followUpInvoke _ => .followUpInvoke
  | .followUpResponse _ _ => .followUpResponse

/-- `GetTaskOfEvent`. -/
def task : DualHistoryEvent Args Val → Task Args Val
  | .invoke task | .response task _ | .requestInvoke task | .requestResponse task
  | .followUpInvoke task | .followUpResponse task _ => task

/-- The result that an event carries. -/
def result : DualHistoryEvent Args Val → Option Val
  | .response _ result | .followUpResponse _ result => some result
  | _ => none

/-- Invoke and response of a phase of a task have the same key. -/
def key (event : DualHistoryEvent Args Val) : Phase × ℕ :=
  (event.kind.phase, event.task.coro.address)

end DualHistoryEvent

/-- The event at `i` is an invoke. -/
def DualInvokesAt (history : List (DualHistoryEvent Args Val)) (i : ℕ)
    (event : DualHistoryEvent Args Val) : Prop :=
  history[i]? = some event ∧ event.kind.isInvoke = true

/-- The event at `r` is a response. -/
def DualRespondsAt (history : List (DualHistoryEvent Args Val)) (r : ℕ)
    (event : DualHistoryEvent Args Val) : Prop :=
  history[r]? = some event ∧ event.kind.isResponse = true

/-- The event at `r` answers the phase invoked at `i`, with a result if it carries one. -/
def DualAnswers (history : List (DualHistoryEvent Args Val)) (i r : ℕ) (result : Option Val) :
    Prop :=
  ∃ e e', DualInvokesAt history i e ∧ DualRespondsAt history r e' ∧ e'.key = e.key ∧
    e'.result = result

/-! ### Specifications -/

/-- `DualMethod`. -/
inductive DualMethod (S Args Val : Type)
  | nonBlocking (f : S → Args → Val × S)
  | predicate (f : S → Args → Option Val → Bool × S)
  | blocking (request : S → Args → ℤ → S) (followup : S → Args → ℤ → Option Val × S)

/-- `DualMethodMap`. -/
abbrev DualMethodMap (S Args Val : Type) := String → Option (DualMethod S Args Val)

/-- A well-formed history of phases. -/
structure DualWellFormed (methods : DualMethodMap S Args Val)
    (history : List (DualHistoryEvent Args Val)) : Prop where
  /-- A phase of a task is invoked once. -/
  invoked_once : ∀ i j e e', DualInvokesAt history i e → DualInvokesAt history j e' →
    e.key = e'.key → i = j
  /-- It is answered at most once. -/
  answered_once : ∀ r q e e', DualRespondsAt history r e → DualRespondsAt history q e' →
    e.key = e'.key → r = q
  /-- It is answered after its invoke. -/
  answered_after : ∀ r e', DualRespondsAt history r e' →
    ∃ i < r, ∃ e, DualInvokesAt history i e ∧ e.key = e'.key
  /-- Its task has a method in the specification. -/
  named : ∀ i e, DualInvokesAt history i e → methods e.task.coro.name ≠ none

/-- A criterion that can be evaluated: invokes have different keys, so have responses, and the key
of a response is that of an invoke before it. -/
theorem DualWellFormed.of_getElem {methods : DualMethodMap S Args Val}
    {history : List (DualHistoryEvent Args Val)}
    (hkeys : ∀ i (hi : i < history.length) j (hj : j < history.length),
      history[i].kind.isInvoke = history[j].kind.isInvoke → history[i].key = history[j].key → i = j)
    (hafter : ∀ r (hr : r < history.length), history[r].kind.isInvoke = true ∨
      ∃ i, ∃ hi : i < r, history[i].kind.isInvoke = true ∧ history[i].key = history[r].key)
    (hnamed : ∀ e ∈ history, (methods e.task.coro.name).isSome = true) :
    DualWellFormed methods history where
  invoked_once i j e e' hi hj := by
    obtain ⟨⟨hlt, rfl⟩, hinv⟩ := hi.imp_left List.getElem?_eq_some_iff.mp
    obtain ⟨⟨hlt', rfl⟩, hinv'⟩ := hj.imp_left List.getElem?_eq_some_iff.mp
    exact hkeys i hlt j hlt' (hinv.trans hinv'.symm)
  answered_once r q e e' hr hq := by
    simp only [DualRespondsAt, DualHistoryEventKind.isResponse_eq_not_isInvoke] at hr hq
    obtain ⟨⟨hlt, rfl⟩, hresp⟩ := hr.imp_left List.getElem?_eq_some_iff.mp
    obtain ⟨⟨hlt', rfl⟩, hresp'⟩ := hq.imp_left List.getElem?_eq_some_iff.mp
    exact hkeys r hlt q hlt' (Bool.not_inj (hresp.trans hresp'.symm))
  answered_after r e' hr := by
    simp only [DualRespondsAt, DualHistoryEventKind.isResponse_eq_not_isInvoke] at hr
    obtain ⟨⟨hlt, rfl⟩, hresp⟩ := hr.imp_left List.getElem?_eq_some_iff.mp
    obtain hinv | ⟨i, hi, hinv, hkey⟩ := hafter r hlt
    · simp [hinv] at hresp
    · exact ⟨i, hi, _, ⟨List.getElem?_eq_getElem (Nat.lt_trans hi hlt), hinv⟩, hkey⟩
  named i e hi := Option.isSome_iff_ne_none.mp (hnamed e (List.mem_of_getElem? hi.1))

section

variable [BEq Val]

/-- The value is the recorded one, if there is one. -/
def Matches (value : Val) (result : Option Val) : Prop :=
  ∀ v, result = some v → (value == v) = true

/-- What a phase of an operation does: the state after it, for the recorded result. -/
inductive DualMethod.Applies (coro : CoroBase Args Val) (result : Option Val) (s : S) :
    DualMethod S Args Val → Phase → S → Prop
  | nonBlocking {f : S → Args → Val × S} : Matches (f s coro.args).1 result →
      Applies coro result s (.nonBlocking f) .ordinary (f s coro.args).2
  | predicate {f : S → Args → Option Val → Bool × S} : (f s coro.args result).1 = true →
      Applies coro result s (.predicate f) .ordinary (f s coro.args result).2
  | request {request : S → Args → ℤ → S} {followup : S → Args → ℤ → Option Val × S} :
      Applies coro result s (.blocking request followup) .request (request s coro.args coro.id)
  | followUp {request : S → Args → ℤ → S} {followup : S → Args → ℤ → Option Val × S} {v : Val} :
      (followup s coro.args coro.id).1 = some v → Matches v result →
      Applies coro result s (.blocking request followup) .followUp
        (followup s coro.args coro.id).2

/-- The result that is recorded for the phase invoked at `i`: `none` if it is pending. -/
def Recorded (history : List (DualHistoryEvent Args Val)) (i : ℕ) (result : Option Val) : Prop :=
  (∃ r, DualAnswers history i r result) ∨ (result = none ∧ ∀ r v, ¬ DualAnswers history i r v)

/-- The phases invoked at the given positions run in this order. -/
def DualRunsInOrder (methods : DualMethodMap S Args Val)
    (history : List (DualHistoryEvent Args Val)) : List ℕ → S → Prop
  | [], _ => True
  | i :: rest, s => ∃ e method result s', DualInvokesAt history i e ∧
      methods e.task.coro.name = some method ∧ Recorded history i result ∧
      DualMethod.Applies e.task.coro result s method e.kind.phase s' ∧
      DualRunsInOrder methods history rest s'

/-- A total order of all phases but some that are dropped. -/
structure DualLinearizes (methods : DualMethodMap S Args Val) (initState : S)
    (history : List (DualHistoryEvent Args Val)) (order dropped : List ℕ) : Prop where
  /-- No phase is there twice. -/
  nodup : (order ++ dropped).Nodup
  /-- All phases are there. -/
  mem : ∀ i, i ∈ order ++ dropped ↔ ∃ e, DualInvokesAt history i e
  /-- Only pending ones are dropped. -/
  pending : ∀ i ∈ dropped, ∀ r v, ¬ DualAnswers history i r v
  /-- It extends real-time precedence. -/
  extends_precedence : order.Pairwise fun a b => ¬ ∃ r v, DualAnswers history b r v ∧ r < a
  /-- It runs. -/
  runs : DualRunsInOrder methods history order initState

/-- The equality of states is respected by a method: equal states give results that compare
alike and equal next states. -/
def DualMethod.Respects (equal : S → S → Bool) (s t : S) : DualMethod S Args Val → Prop
  | .nonBlocking f => ∀ args, (∀ v, ((f s args).1 == v) = ((f t args).1 == v)) ∧
      equal (f s args).2 (f t args).2 = true
  | .predicate f => ∀ args result, (f s args result).1 = (f t args result).1 ∧
      equal (f s args result).2 (f t args result).2 = true
  | .blocking request followup => ∀ args id, equal (request s args id) (request t args id) = true ∧
      Option.Rel (fun v w => ∀ x, (v == x) = (w == x)) (followup s args id).1
        (followup t args id).1 ∧
      equal (followup s args id).2 (followup t args id).2 = true

/-- The equality of states is respected by all methods. -/
def DualRespects (methods : DualMethodMap S Args Val) (equal : S → S → Bool) : Prop :=
  ∀ name method, methods name = some method → ∀ s t, equal s t = true →
    method.Respects equal s t

end

end Lincheck

end LTest
