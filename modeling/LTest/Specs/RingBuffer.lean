import LTest.Lincheck.DualHistory
import Mathlib.Algebra.Order.Group.Multiset
import Mathlib.Data.List.AList
import Mathlib.Data.UInt
import Mathlib.Tactic.Abel

/-!
# The specification of a ring buffer

`LibcoroRingBuffer` is the sequential specification of a ring buffer with one slot. Both of its
operations are dual: a `produce` that finds the slot full waits, and so does a `consume` that finds
it empty. Waiting operations are kept on stacks. A `produce` wakes a waiting `consume`, and a
`consume` admits a waiting `produce`, which may again wake a `consume`.

Only one kind of operation can wait at a time. This needs that the waiting ones are served as soon
as they can be, so it is proved together with what the buffer holds; the ids of the operations
matter only for the values, which are kept in a map by id.

## Main definitions

* `LibcoroRingBuffer` and its operations — the specification
* `LibcoroRingBuffer.Run` — a run, with the values that were issued and returned
* `LibcoroRingBuffer.Consistent` — the invariant of runs

## Main results

* `LibcoroRingBuffer.consistent_after` — every run with distinct ids is consistent
* `LibcoroRingBuffer.applies_call` — the phases the checker applies are calls
-/

namespace LTest

namespace Specs

open Lincheck

/-- `LibcoroRingBufferSnapshot`. -/
structure LibcoroRingBufferSnapshot where
  size : ℕ
  empty : Bool
  full : Bool
  deriving DecidableEq

/-- `LibcoroRingBufferInternalSnapshot`. -/
structure LibcoroRingBufferInternalSnapshot where
  front : UInt64
  back : UInt64
  used : ℕ
  slotFull : Bool
  slotValue : ℤ
  deriving DecidableEq

/-- `LibcoroRingBuffer`. -/
structure LibcoroRingBuffer where
  /-- The value in the slot. -/
  elems : List ℤ := []
  /-- The number of values written, of 64 bits. -/
  frontCursor : UInt64 := 0
  /-- The number of values read, of 64 bits. -/
  backCursor : UInt64 := 0
  /-- The producers that wait, with their values; the last is on top. -/
  waitingProducers : List (ℤ × ℤ) := []
  /-- The consumers that wait; the last is on top. -/
  waitingConsumers : List ℤ := []
  /-- The producers to be followed up. -/
  readyProduce : Finset ℤ := ∅
  /-- The values for consumers to be followed up. -/
  readyConsume : AList (fun _ : ℤ => ℤ) := ∅

namespace LibcoroRingBuffer

/-- `kCap`. -/
def kCap : ℕ := 1

/-- The results of the methods, as `ValueWrapper` holds them. -/
inductive Value
  | produced
  | consumed (v : ℤ)
  | size (n : ℕ)
  | bool (b : Bool)
  | snapshot (snap : LibcoroRingBufferSnapshot)
  | internalSnapshot (snap : LibcoroRingBufferInternalSnapshot)
  deriving DecidableEq

/-- `TryWakeConsumerFromBuffer`. -/
def tryWakeConsumerFromBuffer (s : LibcoroRingBuffer) : LibcoroRingBuffer :=
  match s.elems, s.waitingConsumers.getLast? with
  | v :: elems, some cid =>
    { s with
      waitingConsumers := s.waitingConsumers.dropLast
      elems := elems
      backCursor := s.backCursor + 1
      readyConsume := s.readyConsume.insert cid v }
  | _, _ => s

/-- `TryAdmitProducerToBuffer`. -/
def tryAdmitProducerToBuffer (s : LibcoroRingBuffer) : LibcoroRingBuffer :=
  if kCap ≤ s.elems.length then s
  else
    match s.waitingProducers.getLast? with
    | none => s
    | some (pid, v) =>
      { s with
        waitingProducers := s.waitingProducers.dropLast
        elems := s.elems ++ [v]
        frontCursor := s.frontCursor + 1
        readyProduce := insert pid s.readyProduce }.tryWakeConsumerFromBuffer

/-- `RequestProduce`. -/
def requestProduce (v opId : ℤ) (s : LibcoroRingBuffer) : LibcoroRingBuffer :=
  if s.elems.length < kCap then
    { s with
      elems := s.elems ++ [v]
      frontCursor := s.frontCursor + 1
      readyProduce := insert opId s.readyProduce }.tryWakeConsumerFromBuffer
  else { s with waitingProducers := s.waitingProducers ++ [(opId, v)] }

/-- `RequestConsume`. -/
def requestConsume (opId : ℤ) (s : LibcoroRingBuffer) : LibcoroRingBuffer :=
  match s.elems with
  | v :: elems =>
    { s with
      elems := elems
      backCursor := s.backCursor + 1
      readyConsume := s.readyConsume.insert opId v }.tryAdmitProducerToBuffer
  | [] => { s with waitingConsumers := s.waitingConsumers ++ [opId] }

/-- `FollowUpProduce`. -/
def followUpProduce (opId : ℤ) (s : LibcoroRingBuffer) : Option Value × LibcoroRingBuffer :=
  if opId ∈ s.readyProduce then
    (some .produced, { s with readyProduce := s.readyProduce.erase opId })
  else (none, s)

/-- `FollowUpConsume`. -/
def followUpConsume (opId : ℤ) (s : LibcoroRingBuffer) : Option Value × LibcoroRingBuffer :=
  match s.readyConsume.lookup opId with
  | none => (none, s)
  | some v => (some (.consumed v), { s with readyConsume := s.readyConsume.erase opId })

/-- `Snapshot`. -/
def snapshot (s : LibcoroRingBuffer) : LibcoroRingBufferSnapshot where
  size := s.elems.length
  empty := s.elems.isEmpty
  full := s.elems.length = kCap

/-- `InternalSnapshot`. -/
def internalSnapshot (s : LibcoroRingBuffer) : LibcoroRingBufferInternalSnapshot where
  front := s.frontCursor
  back := s.backCursor
  used := s.elems.length
  slotFull := !s.elems.isEmpty
  slotValue := s.elems.headD 0

/-- `GetDualMethods`. The argument of a method is the value that it produces. -/
def getDualMethods : DualMethodMap LibcoroRingBuffer ℤ Value
  | "produce" =>
    some (.blocking (fun s v opId => s.requestProduce v opId)
      fun s _ opId => s.followUpProduce opId)
  | "consume" =>
    some (.blocking (fun s _ opId => s.requestConsume opId) fun s _ opId => s.followUpConsume opId)
  | "size" => some (.nonBlocking fun s _ => (.size s.elems.length, s))
  | "empty" => some (.nonBlocking fun s _ => (.bool s.elems.isEmpty, s))
  | "full" => some (.nonBlocking fun s _ => (.bool (s.elems.length = kCap), s))
  | "snapshot" => some (.nonBlocking fun s _ => (.snapshot s.snapshot, s))
  | "internal_snapshot" => some (.nonBlocking fun s _ => (.internalSnapshot s.internalSnapshot, s))
  | _ => none

/-! ### Runs -/

/-- A call of one of the operations that change the state. -/
inductive Call
  | requestProduce (v opId : ℤ)
  | requestConsume (opId : ℤ)
  | followUpProduce (opId : ℤ)
  | followUpConsume (opId : ℤ)
  deriving DecidableEq

/-- The state after a call. -/
def call (s : LibcoroRingBuffer) : Call → LibcoroRingBuffer
  | .requestProduce v opId => s.requestProduce v opId
  | .requestConsume opId => s.requestConsume opId
  | .followUpProduce opId => (s.followUpProduce opId).2
  | .followUpConsume opId => (s.followUpConsume opId).2

/-- The value that a call returns to a consumer. -/
def returns (s : LibcoroRingBuffer) : Call → List ℤ
  | .followUpConsume opId =>
    match (s.followUpConsume opId).1 with
    | some (.consumed v) => [v]
    | _ => []
  | _ => []

/-- The value that a call issues. -/
def Call.issues : Call → List ℤ
  | .requestProduce v _ => [v]
  | _ => []

/-- The id of a request. -/
def Call.requestId : Call → List ℤ
  | .requestProduce _ opId | .requestConsume opId => [opId]
  | _ => []

/-- A run. -/
structure Run where
  /-- The state. -/
  state : LibcoroRingBuffer := {}
  /-- The values of the produce requests. -/
  issued : List ℤ := []
  /-- The values returned by consume follow-ups. -/
  returned : List ℤ := []
  /-- The ids of the requests. -/
  ids : List ℤ := []

/-- The run after a call. -/
def Run.call (r : Run) (c : Call) : Run where
  state := r.state.call c
  issued := r.issued ++ c.issues
  returned := r.returned ++ r.state.returns c
  ids := r.ids ++ c.requestId

/-- The run that consists of the given calls. -/
def after (calls : List Call) : Run := calls.foldl Run.call {}

theorem after_append_singleton (calls : List Call) (c : Call) :
    after (calls ++ [c]) = (after calls).call c := by
  rw [after, List.foldl_append]
  rfl

/-- The values of a map. -/
def valuesOf (m : AList fun _ : ℤ => ℤ) : Multiset ℤ := (m.entries.map Sigma.snd : List ℤ)

/-- A consistent state of a run. -/
structure Consistent (r : Run) : Prop where
  /-- The slot takes one value. -/
  size_le : r.state.elems.length ≤ kCap
  /-- The cursors count the values in it. -/
  cursors : r.state.frontCursor - r.state.backCursor = UInt64.ofNat r.state.elems.length
  /-- Consumers wait if it is empty and no producer waits. -/
  waitingConsumers : r.state.waitingConsumers ≠ [] →
    r.state.elems = [] ∧ r.state.waitingProducers = []
  /-- Producers wait if it is full. -/
  waitingProducers : r.state.waitingProducers ≠ [] → r.state.elems.length = kCap
  /-- Where the values are. -/
  values : (r.issued : Multiset ℤ) =
    r.state.elems + (r.state.waitingProducers.map Prod.snd : List ℤ) +
      valuesOf r.state.readyConsume + r.returned

/-! ### What the requests do -/

variable {s : LibcoroRingBuffer} {v opId : ℤ}

theorem requestProduce_of_idle (v opId : ℤ) (helems : s.elems = [])
    (hnone : s.waitingConsumers = []) :
    s.requestProduce v opId =
      { s with
        elems := [v]
        frontCursor := s.frontCursor + 1
        readyProduce := insert opId s.readyProduce } := by
  simp [requestProduce, tryWakeConsumerFromBuffer, helems, hnone, kCap]

theorem requestProduce_of_waiting (v opId : ℤ) (helems : s.elems = []) {waiting : List ℤ} {cid : ℤ}
    (hwaiting : s.waitingConsumers = waiting ++ [cid]) :
    s.requestProduce v opId =
      { s with
        frontCursor := s.frontCursor + 1
        backCursor := s.backCursor + 1
        waitingConsumers := waiting
        readyProduce := insert opId s.readyProduce
        readyConsume := s.readyConsume.insert cid v } := by
  simp [requestProduce, tryWakeConsumerFromBuffer, helems, hwaiting, kCap]

theorem requestProduce_of_full (v opId : ℤ) (hfull : s.elems.length = kCap) :
    s.requestProduce v opId = { s with waitingProducers := s.waitingProducers ++ [(opId, v)] } := by
  rw [requestProduce, if_neg (Nat.not_lt.mpr hfull.ge)]

theorem requestConsume_of_empty (opId : ℤ) (helems : s.elems = []) :
    s.requestConsume opId = { s with waitingConsumers := s.waitingConsumers ++ [opId] } := by
  simp [requestConsume, helems]

theorem requestConsume_of_idle (opId : ℤ) (helems : s.elems = [v])
    (hnone : s.waitingProducers = []) :
    s.requestConsume opId =
      { s with
        elems := []
        backCursor := s.backCursor + 1
        readyConsume := s.readyConsume.insert opId v } := by
  simp [requestConsume, tryAdmitProducerToBuffer, helems, hnone, kCap]

/-- The admitted producer would wake a consumer, but none is waiting. -/
theorem requestConsume_of_waiting (opId : ℤ) (helems : s.elems = [v])
    (hnone : s.waitingConsumers = []) {waiting : List (ℤ × ℤ)} {pid w : ℤ}
    (hwaiting : s.waitingProducers = waiting ++ [(pid, w)]) :
    s.requestConsume opId =
      { s with
        elems := [w]
        frontCursor := s.frontCursor + 1
        backCursor := s.backCursor + 1
        waitingProducers := waiting
        readyProduce := insert pid s.readyProduce
        readyConsume := s.readyConsume.insert opId v } := by
  simp [requestConsume, tryAdmitProducerToBuffer, tryWakeConsumerFromBuffer, helems, hnone,
    hwaiting, kCap]

/-! ### Values of a map -/

variable {m : AList fun _ : ℤ => ℤ}

theorem valuesOf_insert (h : opId ∉ m) : valuesOf (m.insert opId v) = v ::ₘ valuesOf m := by
  rw [valuesOf, AList.entries_insert_of_notMem h]
  rfl

theorem valuesOf_erase (h : m.lookup opId = some v) :
    valuesOf m = v ::ₘ valuesOf (m.erase opId) := by
  have hmem := AList.mem_lookup_iff.mp h
  obtain ⟨w, l₁, l₂, -, hl, herase⟩ := List.exists_of_kerase (List.mem_keys_of_mem hmem)
  have hw : w = v := by
    have hw : (⟨opId, w⟩ : Sigma fun _ : ℤ => ℤ) ∈ m.entries := by simp [hl]
    exact m.nodupKeys.eq_of_mk_mem hw hmem
  show _ = v ::ₘ ((m.entries.kerase opId).map Sigma.snd : List ℤ)
  rw [valuesOf, herase, hl, hw]
  exact Multiset.coe_eq_coe.mpr (by simp)

/-! ### The invariant -/

/-- The invariant of runs: a consumer that waits is not ready as well. -/
structure Run.Inv (r : Run) : Prop extends Consistent r where
  /-- No consumer waits twice. -/
  waiting_nodup : r.state.waitingConsumers.Nodup
  /-- One that waits is not ready. -/
  waiting_not_ready : ∀ cid ∈ r.state.waitingConsumers, cid ∉ r.state.readyConsume
  /-- Waiting consumers have made a request. -/
  waiting_ids : ∀ cid ∈ r.state.waitingConsumers, cid ∈ r.ids
  /-- So have ready ones. -/
  ready_ids : ∀ cid ∈ r.state.readyConsume, cid ∈ r.ids

theorem Run.inv_init : ({} : Run).Inv where
  size_le := by decide
  cursors := by decide
  waitingConsumers h := absurd rfl h
  waitingProducers h := absurd rfl h
  values := rfl
  waiting_nodup := List.nodup_nil
  waiting_not_ready := nofun
  waiting_ids := nofun
  ready_ids _ h := absurd h (AList.notMem_empty _)

namespace Run.Inv

variable {r : Run}

theorem elems_cases (h : r.Inv) : r.state.elems = [] ∨ ∃ v, r.state.elems = [v] := by
  have hsize := h.size_le
  match hr : r.state.elems with
  | [] => exact .inl rfl
  | [v] => exact .inr ⟨v, rfl⟩
  | _ :: _ :: _ =>
    rw [hr] at hsize
    exact absurd hsize (by simp [kCap])

theorem waitingProducers_of_empty (h : r.Inv) (helems : r.state.elems = []) :
    r.state.waitingProducers = [] := by
  by_contra hne
  have hfull := h.waitingProducers hne
  rw [helems] at hfull
  cases hfull

theorem waitingConsumers_of_full (h : r.Inv) {v : ℤ} (helems : r.state.elems = [v]) :
    r.state.waitingConsumers = [] := by
  by_contra hne
  have hempty := (h.waitingConsumers hne).1
  rw [helems] at hempty
  cases hempty

theorem requestProduce (h : r.Inv) (v opId : ℤ) : (r.call (.requestProduce v opId)).Inv := by
  have hvalues := h.values
  show Run.Inv ⟨r.state.requestProduce v opId, r.issued ++ [v], r.returned ++ [], r.ids ++ [opId]⟩
  rw [List.append_nil]
  rcases h.elems_cases with helems | ⟨w, helems⟩
  · have hproducers := h.waitingProducers_of_empty helems
    have hcursors : r.state.frontCursor - r.state.backCursor = 0 := by
      rw [h.cursors, helems]
      rfl
    rcases List.eq_nil_or_concat' r.state.waitingConsumers with hnone | ⟨waiting, cid, hwaiting⟩
    · -- the value stays in the slot
      rw [requestProduce_of_idle v opId helems hnone]
      exact { h with
        size_le := Nat.le_refl 1
        cursors := by
          show r.state.frontCursor + 1 - r.state.backCursor = 1
          grind
        waitingConsumers := fun hne => absurd hnone hne
        waitingProducers := fun _ => rfl
        values := by
          rw [helems, Multiset.coe_nil] at hvalues
          rw [← Multiset.coe_add, hvalues, Multiset.coe_singleton]
          abel
        waiting_ids := fun cid hcid => List.mem_append_left _ (h.waiting_ids cid hcid)
        ready_ids := fun cid hcid => List.mem_append_left _ (h.ready_ids cid hcid) }
    · -- the value goes to the consumer on top of the stack
      have hmem : cid ∈ r.state.waitingConsumers := by simp [hwaiting]
      have hsub {k : ℤ} (hk : k ∈ waiting) : k ∈ r.state.waitingConsumers := by simp [hwaiting, hk]
      have hnodup := h.waiting_nodup
      rw [hwaiting, List.nodup_append] at hnodup
      rw [requestProduce_of_waiting v opId helems hwaiting]
      exact {
        size_le := h.size_le
        cursors := by
          dsimp only
          rw [helems]
          show r.state.frontCursor + 1 - (r.state.backCursor + 1) = 0
          grind
        waitingConsumers := fun _ => ⟨helems, hproducers⟩
        waitingProducers := fun hne => absurd hproducers hne
        values := by
          rw [valuesOf_insert (h.waiting_not_ready cid hmem), ← Multiset.coe_add, hvalues,
            Multiset.coe_singleton, ← Multiset.singleton_add]
          abel
        waiting_nodup := hnodup.1
        waiting_not_ready := fun k hk hready => by
          rcases AList.mem_insert _ |>.mp hready with rfl | hready
          · exact hnodup.2.2 k hk k (List.mem_singleton_self k) rfl
          · exact h.waiting_not_ready k (hsub hk) hready
        waiting_ids := fun k hk => List.mem_append_left _ (h.waiting_ids k (hsub hk))
        ready_ids := fun k hk => by
          rcases AList.mem_insert _ |>.mp hk with rfl | hk
          · exact List.mem_append_left _ (h.waiting_ids k hmem)
          · exact List.mem_append_left _ (h.ready_ids k hk) }
  · -- the slot is full, and the producer waits
    have hfull : r.state.elems.length = kCap := by rw [helems]; rfl
    have hnone := h.waitingConsumers_of_full helems
    rw [requestProduce_of_full v opId hfull]
    exact { h with
      waitingConsumers := fun hne => absurd hnone hne
      waitingProducers := fun _ => hfull
      values := by
        rw [List.map_append, ← Multiset.coe_add, ← Multiset.coe_add, hvalues, List.map_singleton,
          Multiset.coe_singleton]
        abel
      waiting_ids := fun k hk => List.mem_append_left _ (h.waiting_ids k hk)
      ready_ids := fun k hk => List.mem_append_left _ (h.ready_ids k hk) }

theorem requestConsume (h : r.Inv) {opId : ℤ} (hnew : opId ∉ r.ids) :
    (r.call (.requestConsume opId)).Inv := by
  have hvalues := h.values
  have hready : opId ∉ r.state.readyConsume := fun hmem => hnew (h.ready_ids opId hmem)
  show Run.Inv ⟨r.state.requestConsume opId, r.issued ++ [], r.returned ++ [], r.ids ++ [opId]⟩
  rw [List.append_nil, List.append_nil]
  have hids {k v : ℤ} (hk : k ∈ r.state.readyConsume.insert opId v) : k ∈ r.ids ++ [opId] := by
    rcases AList.mem_insert _ |>.mp hk with rfl | hk
    · exact List.mem_append_right _ (List.mem_singleton_self k)
    · exact List.mem_append_left _ (h.ready_ids k hk)
  rcases h.elems_cases with helems | ⟨v, helems⟩
  · -- the slot is empty, and the consumer waits
    rw [requestConsume_of_empty opId helems]
    exact { h with
      waitingConsumers := fun _ => ⟨helems, h.waitingProducers_of_empty helems⟩
      values := hvalues
      waiting_nodup := by
        refine List.nodup_append.mpr ⟨h.waiting_nodup, List.nodup_singleton opId, ?_⟩
        rintro k hk l hl rfl
        rw [List.mem_singleton.mp hl] at hk
        exact hnew (h.waiting_ids opId hk)
      waiting_not_ready := fun k hk => by
        rcases List.mem_append.mp hk with hk | hk
        · exact h.waiting_not_ready k hk
        · rw [List.mem_singleton.mp hk]
          exact hready
      waiting_ids := fun k hk => by
        rcases List.mem_append.mp hk with hk | hk
        · exact List.mem_append_left _ (h.waiting_ids k hk)
        · exact List.mem_append_right _ hk
      ready_ids := fun k hk => List.mem_append_left _ (h.ready_ids k hk) }
  · have hnone := h.waitingConsumers_of_full helems
    have hcursors : r.state.frontCursor - r.state.backCursor = 1 := by
      rw [h.cursors, helems]
      rfl
    have hwaiting (k : ℤ) (hk : k ∈ r.state.waitingConsumers) : False := by
      rw [hnone] at hk
      cases hk
    rcases List.eq_nil_or_concat' r.state.waitingProducers with hproducers | ⟨waiting, ⟨pid, w⟩, hp⟩
    · -- the slot is left empty
      rw [requestConsume_of_idle opId helems hproducers]
      exact {
        size_le := Nat.zero_le kCap
        cursors := by
          show r.state.frontCursor - (r.state.backCursor + 1) = 0
          grind
        waitingConsumers := fun hne => absurd hnone hne
        waitingProducers := fun hne => absurd hproducers hne
        values := by
          rw [helems, Multiset.coe_singleton] at hvalues
          rw [valuesOf_insert hready, hvalues, ← Multiset.singleton_add, Multiset.coe_nil]
          abel
        waiting_nodup := h.waiting_nodup
        waiting_not_ready := fun k hk => (hwaiting k hk).elim
        waiting_ids := fun k hk => (hwaiting k hk).elim
        ready_ids := fun _ hk => hids hk }
    · -- the value of the producer on top of the stack takes its place
      rw [requestConsume_of_waiting opId helems hnone hp]
      exact {
        size_le := Nat.le_refl 1
        cursors := by
          show r.state.frontCursor + 1 - (r.state.backCursor + 1) = 1
          grind
        waitingConsumers := fun hne => absurd hnone hne
        waitingProducers := fun _ => rfl
        values := by
          rw [helems, hp, List.map_append, ← Multiset.coe_add, List.map_singleton,
            Multiset.coe_singleton, Multiset.coe_singleton] at hvalues
          rw [valuesOf_insert hready, hvalues, ← Multiset.singleton_add, Multiset.coe_singleton]
          abel
        waiting_nodup := h.waiting_nodup
        waiting_not_ready := fun k hk => (hwaiting k hk).elim
        waiting_ids := fun k hk => (hwaiting k hk).elim
        ready_ids := fun _ hk => hids hk }

theorem followUpProduce (h : r.Inv) (opId : ℤ) : (r.call (.followUpProduce opId)).Inv := by
  show Run.Inv ⟨(r.state.followUpProduce opId).2, r.issued ++ [], r.returned ++ [], r.ids ++ []⟩
  rw [List.append_nil, List.append_nil, List.append_nil, LibcoroRingBuffer.followUpProduce]
  split
  · exact { h with }
  · exact h

theorem followUpConsume (h : r.Inv) (opId : ℤ) : (r.call (.followUpConsume opId)).Inv := by
  have hvalues := h.values
  rw [Run.call, LibcoroRingBuffer.call, returns, LibcoroRingBuffer.followUpConsume]
  simp only [Call.issues, Call.requestId, List.append_nil]
  cases hv : r.state.readyConsume.lookup opId with
  | none =>
    simp only [List.append_nil]
    exact h
  | some v =>
    exact { h with
      values := by
        rw [valuesOf_erase hv, ← Multiset.singleton_add] at hvalues
        rw [hvalues, ← Multiset.coe_add, Multiset.coe_singleton]
        abel
      waiting_not_ready := fun k hk hready =>
        h.waiting_not_ready k hk (AList.mem_erase.mp hready).2
      ready_ids := fun k hk => h.ready_ids k (AList.mem_erase.mp hk).2 }

theorem call (h : r.Inv) {c : Call} (hnew : (r.ids ++ c.requestId).Nodup) : (r.call c).Inv := by
  cases c with
  | requestProduce v opId => exact h.requestProduce v opId
  | requestConsume opId =>
    refine h.requestConsume fun hmem => ?_
    exact (List.nodup_append.mp hnew).2.2 opId hmem opId (List.mem_singleton_self opId) rfl
  | followUpProduce opId => exact h.followUpProduce opId
  | followUpConsume opId => exact h.followUpConsume opId

end Run.Inv

theorem inv_after {calls : List Call} (hids : (after calls).ids.Nodup) : (after calls).Inv := by
  induction calls using List.reverseRecOn with
  | nil => exact Run.inv_init
  | append_singleton calls c ih =>
    rw [after_append_singleton] at hids ⊢
    exact (ih (List.nodup_append.mp hids).1).call hids

/-- **Consistency of the ring buffer**: in every run in which no two requests have the same id, the
slot and the cursors agree, a consumer waits only for an empty slot and then no producer waits, a
producer waits only for a full slot, and every issued value is in the slot, with a waiting producer,
ready for a consumer, or returned. -/
theorem consistent_after (calls : List Call) (hids : (calls.flatMap Call.requestId).Nodup) :
    Consistent (after calls) := by
  have hafter : (after calls).ids = calls.flatMap Call.requestId := by
    induction calls using List.reverseRecOn with
    | nil => rfl
    | append_singleton calls c ih =>
      rw [List.flatMap_append, List.nodup_append] at hids
      rw [after_append_singleton, Run.call, ih hids.1, List.flatMap_append, List.flatMap_singleton]
  exact (inv_after (hafter ▸ hids)).toConsistent

/-- Two producers, of which the second has to wait, and a consumer. -/
theorem consistent_after_three :
    (([.requestProduce 5 1, .requestProduce 6 2, .requestConsume 3] : List Call).flatMap
      Call.requestId).Nodup ∧
    (after [.requestProduce 5 1, .requestProduce 6 2, .requestConsume 3]).state.elems = [6] ∧
    Consistent (after [.requestProduce 5 1, .requestProduce 6 2, .requestConsume 3]) :=
  ⟨by decide, rfl, consistent_after _ (by decide)⟩

/-- The phases that the dual checker applies are calls, or leave the state as it is. -/
theorem applies_call {name : String} {method : DualMethod LibcoroRingBuffer ℤ Value}
    (hmethod : getDualMethods name = some method) {coro : CoroBase ℤ Value} {result : Option Value}
    {phase : Phase} {s' : LibcoroRingBuffer}
    (h : DualMethod.Applies coro result s method phase s') : s' = s ∨ ∃ c, s' = s.call c := by
  unfold getDualMethods at hmethod
  split at hmethod
  · cases hmethod
    cases h
    · exact .inr ⟨.requestProduce coro.args coro.id, rfl⟩
    · exact .inr ⟨.followUpProduce coro.id, rfl⟩
  · cases hmethod
    cases h
    · exact .inr ⟨.requestConsume coro.id, rfl⟩
    · exact .inr ⟨.followUpConsume coro.id, rfl⟩
  · cases hmethod
    cases h
    exact .inl rfl
  · cases hmethod
    cases h
    exact .inl rfl
  · cases hmethod
    cases h
    exact .inl rfl
  · cases hmethod
    cases h
    exact .inl rfl
  · cases hmethod
    cases h
    exact .inl rfl
  · cases hmethod

end LibcoroRingBuffer

end Specs

end LTest
