import LTest.Lincheck.DualHistory
import Mathlib.Data.Finset.Erase
import Mathlib.Data.Finset.Insert
import Mathlib.Data.List.AList

/-!
# The specification of a bounded queue

`FollyCoroBoundedQueue` is the sequential specification of a queue with room for two values. A
value that is enqueued takes one unit of capacity. It goes to the buffer or, when a `dequeue` is
waiting, straight to that operation; only a value that leaves the buffer gives its unit back. So the
balance between the buffer and the capacity is lost at the first direct hand-off, and it is lost for
good: two of them leave an empty queue that takes no value.

## Main definitions

* `FollyCoroBoundedQueue` and its operations — the specification
* `FollyCoroBoundedQueue.Conserves` — the balance, and that nobody waits without need
* `FollyCoroBoundedQueue.HandsOff` — an enqueue that finds capacity and a waiting `dequeue`

## Main results

* `FollyCoroBoundedQueue.conserves_iff` — runs keep the balance exactly when they hand nothing off
* `FollyCoroBoundedQueue.capacity_lost` — two hand-offs use up the capacity
* `FollyCoroBoundedQueue.applies_call` — the phases the checker applies are calls
-/

namespace LTest

namespace Specs

open Lincheck

/-- `WaitingEnqueue`. -/
structure WaitingEnqueue where
  /-- The operation. -/
  opId : ℤ
  /-- The value. -/
  value : ℤ
  deriving DecidableEq

/-- `kCapacity`. -/
def kCapacity : ℕ := 2

/-- `FollyCoroBoundedQueue`. -/
structure FollyCoroBoundedQueue where
  /-- The values. -/
  elems : List ℤ := []
  /-- The enqueues that wait. -/
  waitingEnqueues : List WaitingEnqueue := []
  /-- The dequeues that wait. -/
  waitingDequeues : List ℤ := []
  /-- The enqueues to be followed up. -/
  completedEnqueues : Finset ℤ := ∅
  /-- The values for dequeues to be followed up. -/
  readyDequeues : AList (fun _ : ℤ => ℤ) := ∅
  /-- The capacity that is left. -/
  availableCapacity : ℕ := kCapacity

namespace FollyCoroBoundedQueue

/-- `kEmptyTryDequeue`. -/
def kEmptyTryDequeue : ℤ := 0

/-- The results of the methods: `ValueWrapper` with a Boolean, with a number, or `void_v`. -/
inductive Value
  | bool (b : Bool)
  | int (v : ℤ)
  | void
  deriving DecidableEq

/-- `MakeValueVisible`. -/
def makeValueVisible (value : ℤ) (s : FollyCoroBoundedQueue) : FollyCoroBoundedQueue :=
  match s.waitingDequeues with
  | opId :: rest =>
    { s with waitingDequeues := rest, readyDequeues := s.readyDequeues.insert opId value }
  | [] => { s with elems := s.elems ++ [value] }

/-- The loop of `PromoteWaitingEnqueues` over the enqueues that wait. -/
def promote : List WaitingEnqueue → FollyCoroBoundedQueue → FollyCoroBoundedQueue
  | [], s => s
  | w :: rest, s =>
    if 0 < s.availableCapacity then
      promote rest (makeValueVisible w.value
        { s with
          waitingEnqueues := rest
          availableCapacity := s.availableCapacity - 1
          completedEnqueues := insert w.opId s.completedEnqueues })
    else s

/-- `PromoteWaitingEnqueues`. -/
def promoteWaitingEnqueues (s : FollyCoroBoundedQueue) : FollyCoroBoundedQueue :=
  promote s.waitingEnqueues s

/-- `TryEnqueue`. -/
def tryEnqueue (value : ℤ) (s : FollyCoroBoundedQueue) : Value × FollyCoroBoundedQueue :=
  if s.availableCapacity = 0 then (.bool false, s)
  else
    (.bool true, (makeValueVisible value
      { s with availableCapacity := s.availableCapacity - 1 }).promoteWaitingEnqueues)

/-- `TryDequeue`. -/
def tryDequeue (s : FollyCoroBoundedQueue) : Value × FollyCoroBoundedQueue :=
  match s.elems with
  | [] => (.int kEmptyTryDequeue, s)
  | v :: elems =>
    (.int v, { s with
      elems := elems, availableCapacity := s.availableCapacity + 1 }.promoteWaitingEnqueues)

/-- `RequestEnqueue`. -/
def requestEnqueue (opId value : ℤ) (s : FollyCoroBoundedQueue) : FollyCoroBoundedQueue :=
  if s.availableCapacity = 0 then
    { s with waitingEnqueues := s.waitingEnqueues ++ [⟨opId, value⟩] }
  else
    (makeValueVisible value
      { s with
        availableCapacity := s.availableCapacity - 1
        completedEnqueues := insert opId s.completedEnqueues }).promoteWaitingEnqueues

/-- `FollowUpEnqueue`. -/
def followUpEnqueue (opId : ℤ) (s : FollyCoroBoundedQueue) :
    Option Value × FollyCoroBoundedQueue :=
  if opId ∈ s.completedEnqueues then
    (some .void, { s with completedEnqueues := s.completedEnqueues.erase opId })
  else (none, s)

/-- `RequestDequeue`. -/
def requestDequeue (opId : ℤ) (s : FollyCoroBoundedQueue) : FollyCoroBoundedQueue :=
  match s.elems with
  | v :: elems =>
    { s with
      elems := elems
      readyDequeues := s.readyDequeues.insert opId v
      availableCapacity := s.availableCapacity + 1 }.promoteWaitingEnqueues
  | [] => { s with waitingDequeues := s.waitingDequeues ++ [opId] }

/-- `FollowUpDequeue`. -/
def followUpDequeue (opId : ℤ) (s : FollyCoroBoundedQueue) :
    Option Value × FollyCoroBoundedQueue :=
  match s.readyDequeues.lookup opId with
  | none => (none, s)
  | some v => (some (.int v), { s with readyDequeues := s.readyDequeues.erase opId })

/-- `GetDualMethods`. The argument of a method is the value that it enqueues. -/
def getDualMethods : DualMethodMap FollyCoroBoundedQueue ℤ Value
  | "try_enqueue" => some (.nonBlocking fun s value => s.tryEnqueue value)
  | "try_dequeue" => some (.nonBlocking fun s _ => s.tryDequeue)
  | "enqueue" =>
    some (.blocking (fun s value opId => s.requestEnqueue opId value)
      fun s _ opId => s.followUpEnqueue opId)
  | "dequeue" =>
    some (.blocking (fun s _ opId => s.requestDequeue opId) fun s _ opId => s.followUpDequeue opId)
  | _ => none

/-! ### Runs -/

/-- A call of one of the operations. -/
inductive Call
  | tryEnqueue (value : ℤ)
  | tryDequeue
  | requestEnqueue (opId value : ℤ)
  | followUpEnqueue (opId : ℤ)
  | requestDequeue (opId : ℤ)
  | followUpDequeue (opId : ℤ)
  deriving DecidableEq

/-- The state after a call. -/
def call (s : FollyCoroBoundedQueue) : Call → FollyCoroBoundedQueue
  | .tryEnqueue value => (s.tryEnqueue value).2
  | .tryDequeue => s.tryDequeue.2
  | .requestEnqueue opId value => s.requestEnqueue opId value
  | .followUpEnqueue opId => (s.followUpEnqueue opId).2
  | .requestDequeue opId => s.requestDequeue opId
  | .followUpDequeue opId => (s.followUpDequeue opId).2

/-- The state after a sequence of calls. -/
def after (calls : List Call) : FollyCoroBoundedQueue := calls.foldl call {}

theorem after_append_singleton (calls : List Call) (c : Call) :
    after (calls ++ [c]) = (after calls).call c := by
  rw [after, List.foldl_append]
  rfl

/-- The ids of the requests among the calls. -/
def requestIds (calls : List Call) : List ℤ :=
  calls.filterMap fun
    | .requestEnqueue opId _ | .requestDequeue opId => some opId
    | _ => none

/-- The queue is in balance. -/
structure Conserves (s : FollyCoroBoundedQueue) : Prop where
  /-- The buffer and the capacity add up. -/
  capacity : s.elems.length + s.availableCapacity = kCapacity
  /-- No enqueue waits without need. -/
  waitingEnqueues : 0 < s.availableCapacity → s.waitingEnqueues = []
  /-- No dequeue waits without need. -/
  waitingDequeues : s.elems ≠ [] → s.waitingDequeues = []
  /-- An empty queue where no enqueue waits takes a value. -/
  tryEnqueue : s.elems = [] → s.waitingEnqueues = [] →
    ∀ value, (s.tryEnqueue value).1 = .bool true

/-- The call hands a value directly to a waiting `dequeue`. -/
def HandsOff (s : FollyCoroBoundedQueue) : Call → Prop
  | .tryEnqueue _ | .requestEnqueue _ _ => 0 < s.availableCapacity ∧ s.waitingDequeues ≠ []
  | _ => False

instance (s : FollyCoroBoundedQueue) (c : Call) : Decidable (s.HandsOff c) := by
  cases c <;> unfold HandsOff <;> infer_instance

variable {s : FollyCoroBoundedQueue}

/-- The last part of the balance follows from the others: an empty queue has all its capacity. -/
theorem Conserves.of_balance (hcapacity : s.elems.length + s.availableCapacity = kCapacity)
    (henqueues : 0 < s.availableCapacity → s.waitingEnqueues = [])
    (hdequeues : s.elems ≠ [] → s.waitingDequeues = []) : s.Conserves where
  capacity := hcapacity
  waitingEnqueues := henqueues
  waitingDequeues := hdequeues
  tryEnqueue hempty _ value := by
    rw [hempty, List.length_nil, Nat.zero_add] at hcapacity
    rw [FollyCoroBoundedQueue.tryEnqueue, if_neg (by rw [hcapacity]; decide)]

theorem conserves_init : Conserves {} :=
  .of_balance rfl (fun _ => rfl) fun h => absurd rfl h

/-- When no `dequeue` waits, promoted values go to the buffer, and promotion ends when there is no
capacity or nobody to promote. -/
theorem conserves_promote {waiting : List WaitingEnqueue} (hwaiting : s.waitingEnqueues = waiting)
    (hnone : s.waitingDequeues = [])
    (hcapacity : s.elems.length + s.availableCapacity = kCapacity) :
    (promote waiting s).Conserves := by
  induction waiting generalizing s with
  | nil => exact .of_balance hcapacity (fun _ => hwaiting) fun _ => hnone
  | cons w rest ih =>
    rw [promote]
    split
    · rename_i hpos
      simp only [makeValueVisible, hnone]
      refine ih rfl rfl ?_
      rw [List.length_append, List.length_singleton]
      dsimp only
      omega
    · rename_i hpos
      exact .of_balance hcapacity (fun h => absurd h hpos) fun _ => hnone

theorem conserves_promoteWaitingEnqueues (hnone : s.waitingDequeues = [])
    (hcapacity : s.elems.length + s.availableCapacity = kCapacity) :
    s.promoteWaitingEnqueues.Conserves :=
  conserves_promote rfl hnone hcapacity

theorem Conserves.enqueue (h : s.Conserves) (hnone : s.waitingDequeues = [])
    (hpos : s.availableCapacity ≠ 0) (completed : Finset ℤ) (value : ℤ) :
    (makeValueVisible value
      { s with
        availableCapacity := s.availableCapacity - 1
        completedEnqueues := completed }).promoteWaitingEnqueues.Conserves := by
  simp only [makeValueVisible, hnone]
  refine conserves_promoteWaitingEnqueues rfl ?_
  have hcapacity := h.capacity
  rw [List.length_append, List.length_singleton]
  dsimp only
  omega

/-- A value that leaves the buffer gives its capacity back. -/
theorem Conserves.dequeue (h : s.Conserves) {v : ℤ} {elems : List ℤ} (hv : s.elems = v :: elems)
    (ready : AList fun _ : ℤ => ℤ) :
    { s with
      elems := elems
      readyDequeues := ready
      availableCapacity := s.availableCapacity + 1 }.promoteWaitingEnqueues.Conserves := by
  refine conserves_promoteWaitingEnqueues (h.waitingDequeues (hv ▸ List.cons_ne_nil v elems)) ?_
  have hcapacity := h.capacity
  rw [hv, List.length_cons] at hcapacity
  dsimp only
  omega

/-- A call that hands nothing off keeps the balance. -/
theorem Conserves.call (h : s.Conserves) {c : Call} (hc : ¬ s.HandsOff c) :
    (s.call c).Conserves := by
  have hnone (hpos : s.availableCapacity ≠ 0)
      (hno : ¬ (0 < s.availableCapacity ∧ s.waitingDequeues ≠ [])) : s.waitingDequeues = [] := by
    by_contra hne
    exact hno ⟨Nat.pos_of_ne_zero hpos, hne⟩
  cases c with
  | tryEnqueue value =>
    show (s.tryEnqueue value).2.Conserves
    rw [FollyCoroBoundedQueue.tryEnqueue]
    split
    · exact h
    · rename_i hpos
      exact h.enqueue (hnone hpos hc) hpos s.completedEnqueues value
  | tryDequeue =>
    show s.tryDequeue.2.Conserves
    rw [tryDequeue]
    split
    · exact h
    · rename_i hv
      exact h.dequeue hv s.readyDequeues
  | requestEnqueue opId value =>
    show (s.requestEnqueue opId value).Conserves
    rw [requestEnqueue]
    split
    · rename_i hzero
      refine .of_balance h.capacity (fun hpos => ?_) h.waitingDequeues
      exact absurd hzero (Nat.ne_of_gt hpos)
    · rename_i hpos
      exact h.enqueue (hnone hpos hc) hpos _ value
  | followUpEnqueue opId =>
    show (s.followUpEnqueue opId).2.Conserves
    rw [followUpEnqueue]
    split
    · exact .of_balance h.capacity h.waitingEnqueues h.waitingDequeues
    · exact h
  | requestDequeue opId =>
    show (s.requestDequeue opId).Conserves
    rw [requestDequeue]
    split
    · rename_i hv
      exact h.dequeue hv _
    · rename_i hempty
      exact .of_balance h.capacity h.waitingEnqueues fun hne => absurd hempty hne
  | followUpDequeue opId =>
    show (s.followUpDequeue opId).2.Conserves
    rw [followUpDequeue]
    split
    · exact h
    · exact .of_balance h.capacity h.waitingEnqueues h.waitingDequeues

/-- A value that is handed off takes a unit of capacity with it. -/
theorem capacity_of_handOff (h : s.Conserves) (hpos : 0 < s.availableCapacity)
    (hdequeue : s.waitingDequeues ≠ []) (completed : Finset ℤ) (value : ℤ) :
    ¬ (makeValueVisible value
      { s with
        availableCapacity := s.availableCapacity - 1
        completedEnqueues := completed }).promoteWaitingEnqueues.Conserves := by
  intro hafter
  obtain ⟨opId, rest, hrest⟩ := List.exists_cons_of_ne_nil hdequeue
  have hcapacity := hafter.capacity
  have hbefore := h.capacity
  simp only [makeValueVisible, hrest, promoteWaitingEnqueues, h.waitingEnqueues hpos, promote]
    at hcapacity
  omega

/-- A call that hands a value off loses the balance. -/
theorem Conserves.not_call (h : s.Conserves) {c : Call} (hc : s.HandsOff c) :
    ¬ (s.call c).Conserves := by
  cases c with
  | tryEnqueue value =>
    have hcall : s.call (.tryEnqueue value) = _ :=
      congrArg Prod.snd (if_neg (Nat.ne_of_gt hc.1))
    rw [hcall]
    exact capacity_of_handOff h hc.1 hc.2 s.completedEnqueues value
  | requestEnqueue opId value =>
    have hcall : s.call (.requestEnqueue opId value) = _ := if_neg (Nat.ne_of_gt hc.1)
    rw [hcall]
    exact capacity_of_handOff h hc.1 hc.2 _ value
  | _ => cases hc

/-- **The capacity is conserved exactly in the runs that hand nothing off.** -/
theorem conserves_iff (calls : List Call) :
    (∀ before, before <+: calls → (after before).Conserves) ↔
      ∀ before c, before ++ [c] <+: calls → ¬ (after before).HandsOff c := by
  constructor
  · intro h before c hprefix hc
    have hafter := h _ hprefix
    rw [after_append_singleton] at hafter
    exact (h before ((List.prefix_append before [c]).trans hprefix)).not_call hc hafter
  · intro h before hprefix
    induction before using List.reverseRecOn with
    | nil => exact conserves_init
    | append_singleton before c ih =>
      rw [after_append_singleton]
      exact (ih ((List.prefix_append before [c]).trans hprefix)).call (h before c hprefix)

/-- Two values are handed off. -/
def twoHandOffs : List Call :=
  [.requestDequeue 1, .requestEnqueue 2 7, .requestDequeue 3, .requestEnqueue 4 8]

/-- After two values have been handed off, the queue is empty and no operation waits, but there is
no capacity left: the queue takes no value. -/
theorem capacity_lost :
    (requestIds twoHandOffs).Nodup ∧ (after twoHandOffs).elems = [] ∧
      (after twoHandOffs).waitingEnqueues = [] ∧ (after twoHandOffs).waitingDequeues = [] ∧
      (after twoHandOffs).elems.length + (after twoHandOffs).availableCapacity ≠ kCapacity ∧
      ((after twoHandOffs).tryEnqueue 9).1 = .bool false ∧ ¬ (after twoHandOffs).Conserves := by
  refine ⟨by decide, rfl, rfl, rfl, by decide, rfl, fun h => ?_⟩
  exact absurd h.capacity (by decide)

/-- The phases that the dual checker applies are calls. -/
theorem applies_call {name : String} {method : DualMethod FollyCoroBoundedQueue ℤ Value}
    (hmethod : getDualMethods name = some method) {coro : CoroBase ℤ Value} {result : Option Value}
    {phase : Phase} {s' : FollyCoroBoundedQueue}
    (h : DualMethod.Applies coro result s method phase s') : ∃ c, s' = s.call c := by
  unfold getDualMethods at hmethod
  split at hmethod
  · cases hmethod
    cases h
    exact ⟨.tryEnqueue coro.args, rfl⟩
  · cases hmethod
    cases h
    exact ⟨.tryDequeue, rfl⟩
  · cases hmethod
    cases h
    · exact ⟨.requestEnqueue coro.id coro.args, rfl⟩
    · exact ⟨.followUpEnqueue coro.id, rfl⟩
  · cases hmethod
    cases h
    · exact ⟨.requestDequeue coro.id, rfl⟩
    · exact ⟨.followUpDequeue coro.id, rfl⟩
  · cases hmethod

end FollyCoroBoundedQueue

end Specs

end LTest
