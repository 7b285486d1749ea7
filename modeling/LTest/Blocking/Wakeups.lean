import LTest.Lib.Transition
import LTest.Scheduler.Task
import Mathlib.Data.Finset.Card

/-!
# Who is woken by `UnblockOn`

The queue of an address holds the tasks in the order in which they blocked on it, and `UnblockOn`
removes entries from its front. An entry is a pointer: it stays when its task is terminated, and a
task that is resumed while it is blocked and blocks again has two entries. Such entries use up a
wakeup that a task which waits should have got.

So `UnblockOn` wakes the tasks that have waited longest as long as no task blocks or is terminated
while it is in a queue.

## Main definitions

* `Waiters` — the queues and the block states of the tasks
* `Waiters.Call`, `Waiters.call` — the operations
* `Waiters.Wakes` — what a call of `UnblockOn` should do
* `Waiters.ahead` — the entries in front of a task

## Main results

* `wakeups_reach_waiters` — it does so in runs without stale and double entries
* `wakeup_absorbed` — and not in others
* `bounded_waiting` — in such runs a task waits only for those in front of it
-/

namespace LTest

namespace Blocking

open Scheduler (BlockManager)

/-- The block state of a task. -/
structure Waiter where
  /-- The address. -/
  fstate : ℕ := 0
  /-- Whether the task has returned. -/
  returned : Bool := false
  /-- Since when it is blocked; nothing reads it. -/
  since : ℕ := 0

/-- The queues and the tasks, which have no wakeup conditions. -/
structure Waiters where
  /-- The queues. -/
  blocks : BlockManager := {}
  /-- The tasks. -/
  tasks : ℕ → Waiter := fun _ => {}
  /-- The time. -/
  time : ℕ := 0

namespace Waiters

/-- `IsBlocked`. -/
def isBlocked (s : Waiters) (id : ℕ) : Bool := s.blocks.isBlocked (s.tasks id).fstate id

/-- The task is blocked on an address. -/
def isBlockedOn (s : Waiters) (addr id : ℕ) : Bool := (s.tasks id).fstate == addr && s.isBlocked id

/-- `SetBlocked`. -/
def setBlocked (id addr : ℕ) (s : Waiters) : Waiters where
  blocks := s.blocks.blockOn addr id
  tasks := Function.update s.tasks id
    { s.tasks id with
      fstate := addr
      since := if s.isBlockedOn addr id then (s.tasks id).since else s.time }
  time := s.time + 1

/-- `UnblockOn`. -/
def unblockOn (addr maxWakes : ℕ) (s : Waiters) : Waiters :=
  { s with blocks := (s.blocks.unblockOn addr maxWakes).2 }

/-- `UnblockAllOn`. -/
def unblockAllOn (addr : ℕ) (s : Waiters) : Waiters :=
  { s with blocks := s.blocks.unblockAllOn addr }

/-- `Terminate`. -/
def terminate (id : ℕ) (s : Waiters) : Waiters :=
  { s with
    tasks := Function.update s.tasks id { s.tasks id with fstate := 0, returned := true } }

/-- The calls. What a coroutine does after `Resume` are the calls that follow. -/
inductive Call
  | setBlocked (id addr : ℕ)
  | unblockOn (addr maxWakes : ℕ)
  | unblockAllOn (addr : ℕ)
  | resume (id : ℕ)
  | terminate (id : ℕ)

/-- One call. -/
def call (s : Waiters) : Call → Waiters
  | .setBlocked id addr => s.setBlocked id addr
  | .unblockOn addr maxWakes => s.unblockOn addr maxWakes
  | .unblockAllOn addr => s.unblockAllOn addr
  | .resume _ => s
  | .terminate id => s.terminate id

/-- The tasks that are blocked on an address. -/
def blockedOn (s : Waiters) (addr : ℕ) : Finset ℕ :=
  (s.blocks.queues addr).toFinset.filter fun id => s.isBlockedOn addr id = true

theorem mem_blockedOn {s : Waiters} {addr id : ℕ} :
    id ∈ s.blockedOn addr ↔ s.isBlockedOn addr id = true := by
  rw [blockedOn, Finset.mem_filter, List.mem_toFinset, and_iff_right_iff_imp]
  intro h
  rw [isBlockedOn, isBlocked, BlockManager.isBlocked, Bool.and_eq_true, Bool.and_eq_true,
    beq_iff_eq, List.contains_iff_mem] at h
  exact h.1 ▸ h.2.2

/-- The tasks that `UnblockOn` turns into unblocked ones. -/
def woken (s : Waiters) (addr maxWakes : ℕ) : Finset ℕ :=
  (s.blockedOn addr).filter fun id => (s.unblockOn addr maxWakes).isBlocked id = false

/-- The tasks that `UnblockOn` wakes. -/
structure Wakes (s : Waiters) (addr maxWakes : ℕ) : Prop where
  /-- They are as many as it may wake. -/
  enough : min maxWakes (s.blockedOn addr).card ≤ (s.woken addr maxWakes).card
  /-- They have been blocked longest. -/
  longest : ∀ x ∈ s.woken addr maxWakes, ∀ y ∈ s.blockedOn addr \ s.woken addr maxWakes,
    (s.tasks x).since < (s.tasks y).since

/-! ### Runs without stale and double entries -/

/-- The task is in no queue. -/
def Unqueued (s : Waiters) (id : ℕ) : Prop := ∀ addr, id ∉ s.blocks.queues addr

/-- A task blocks only when it is in no queue, and only such tasks are terminated. -/
def Condition (s : Waiters) : Call → Prop
  | .setBlocked id _ => s.Unqueued id
  | .terminate id => s.Unqueued id
  | .unblockOn _ _ | .unblockAllOn _ | .resume _ => True

/-- The queues hold the tasks that are blocked, in the order of their times. -/
structure Inv (s : Waiters) : Prop where
  sorted : ∀ addr, (s.blocks.queues addr).Pairwise fun x y => (s.tasks x).since < (s.tasks y).since
  fstate : ∀ addr, ∀ id ∈ s.blocks.queues addr, (s.tasks id).fstate = addr
  past : ∀ addr, ∀ id ∈ s.blocks.queues addr, (s.tasks id).since < s.time

namespace Inv

variable {s s' : Waiters}

/-- Entries leave the queues, and the tasks that are in a queue do not change. -/
theorem of_sublist (h : s.Inv) (hqueues : ∀ addr, List.Sublist (s'.blocks.queues addr)
      (s.blocks.queues addr)) (htasks : ∀ addr, ∀ id ∈ s.blocks.queues addr,
      s'.tasks id = s.tasks id) (htime : s'.time = s.time) : s'.Inv where
  sorted addr := by
    refine List.Pairwise.imp_of_mem ?_ ((h.sorted addr).sublist (hqueues addr))
    intro x y hx hy hxy
    rwa [htasks addr x ((hqueues addr).mem hx), htasks addr y ((hqueues addr).mem hy)]
  fstate addr id hid := by
    rw [htasks addr id ((hqueues addr).mem hid)]
    exact h.fstate addr id ((hqueues addr).mem hid)
  past addr id hid := by
    rw [htasks addr id ((hqueues addr).mem hid), htime]
    exact h.past addr id ((hqueues addr).mem hid)

theorem sublist_update {b : BlockManager} {addr : ℕ} {q : List ℕ}
    (hq : List.Sublist q (b.queues addr)) (a : ℕ) :
    List.Sublist (Function.update b.queues addr q a) (b.queues a) := by
  by_cases ha : a = addr
  · subst ha
    rwa [Function.update_self]
  · rw [Function.update_of_ne ha]

theorem setBlocked (h : s.Inv) {id addr : ℕ} (hid : s.Unqueued id) :
    (s.setBlocked id addr).Inv := by
  have hold : ∀ a, ∀ x ∈ s.blocks.queues a, (s.setBlocked id addr).tasks x = s.tasks x := by
    intro a x hx
    refine Function.update_of_ne ?_ _ _
    rintro rfl
    exact hid a hx
  have hnew : ((s.setBlocked id addr).tasks id).fstate = addr ∧
      ((s.setBlocked id addr).tasks id).since = s.time := by
    have hfree : s.isBlockedOn addr id = false := by
      rw [← Bool.not_eq_true, ← mem_blockedOn]
      intro hmem
      exact hid addr (List.mem_toFinset.1 (Finset.mem_filter.1 hmem).1)
    simp [Waiters.setBlocked, hfree]
  have hqueue : ∀ a, (s.setBlocked id addr).blocks.queues a =
      s.blocks.queues a ++ if a = addr then [id] else [] := by
    intro a
    by_cases ha : a = addr
    · subst ha
      simp [Waiters.setBlocked, BlockManager.blockOn]
    · simp [Waiters.setBlocked, BlockManager.blockOn, ha]
  have hmem : ∀ a, ∀ x ∈ (s.setBlocked id addr).blocks.queues a,
      x ∈ s.blocks.queues a ∨ a = addr ∧ x = id := by
    intro a x hx
    rw [hqueue, List.mem_append] at hx
    obtain hx | hx := hx
    · exact .inl hx
    · split at hx
      · rename_i ha
        exact .inr ⟨ha, List.mem_singleton.1 hx⟩
      · cases hx
  constructor
  case sorted =>
    intro a
    rw [hqueue, List.pairwise_append]
    refine ⟨?_, ?_, ?_⟩
    · refine List.Pairwise.imp_of_mem ?_ (h.sorted a)
      intro x y hx hy hxy
      rwa [hold a x hx, hold a y hy]
    · split
      · exact List.pairwise_singleton _ _
      · exact .nil
    · intro x hx y hy
      split at hy
      · rw [List.mem_singleton.1 hy, hold a x hx, hnew.2]
        exact h.past a x hx
      · cases hy
  case fstate =>
    intro a x hx
    obtain hx | ⟨rfl, rfl⟩ := hmem a x hx
    · rw [hold a x hx]
      exact h.fstate a x hx
    · exact hnew.1
  case past =>
    intro a x hx
    refine Nat.lt_succ_of_le ?_
    obtain hx | ⟨rfl, rfl⟩ := hmem a x hx
    · rw [hold a x hx]
      exact (h.past a x hx).le
    · exact hnew.2.le

theorem call (h : s.Inv) {c : Call} (hc : s.Condition c) : (s.call c).Inv := by
  cases c with
  | setBlocked id addr => exact h.setBlocked hc
  | unblockOn addr maxWakes =>
    exact h.of_sublist (sublist_update (List.drop_sublist _ _)) (fun _ _ _ => rfl) rfl
  | unblockAllOn addr =>
    exact h.of_sublist (sublist_update (List.nil_sublist _)) (fun _ _ _ => rfl) rfl
  | resume id => exact h
  | terminate id =>
    refine h.of_sublist (fun _ => .refl _) (fun addr x hx => ?_) rfl
    refine Function.update_of_ne ?_ _ _
    rintro rfl
    exact hc addr hx

/-- The tasks of a queue are blocked on its address. -/
theorem isBlockedOn_iff (h : s.Inv) {addr id : ℕ} (haddr : addr ≠ 0) :
    s.isBlockedOn addr id = true ↔ id ∈ s.blocks.queues addr := by
  constructor
  · intro hb
    exact List.mem_toFinset.1 (Finset.mem_filter.1 (mem_blockedOn.2 hb)).1
  · intro hmem
    simp [isBlockedOn, isBlocked, BlockManager.isBlocked, h.fstate addr id hmem, haddr, hmem]

/-- What is left in the queue is still blocked. -/
theorem mem_woken (h : s.Inv) {addr maxWakes id : ℕ} (haddr : addr ≠ 0) :
    id ∈ s.woken addr maxWakes ↔
      id ∈ s.blocks.queues addr ∧ id ∉ (s.blocks.queues addr).drop maxWakes := by
  rw [woken, Finset.mem_filter, mem_blockedOn, h.isBlockedOn_iff haddr]
  refine and_congr_right fun hmem => ?_
  simp [isBlocked, BlockManager.isBlocked, unblockOn, BlockManager.unblockOn,
    h.fstate addr id hmem, haddr]

theorem wakes (h : s.Inv) (addr maxWakes : ℕ) : s.Wakes addr maxWakes := by
  by_cases haddr : addr = 0
  · have hnone : s.blockedOn addr = ∅ := by
      refine Finset.eq_empty_of_forall_notMem fun id hid => ?_
      rw [mem_blockedOn] at hid
      simp [isBlockedOn, isBlocked, BlockManager.isBlocked, haddr] at hid
      omega
    refine ⟨by simp [hnone], fun x hx => ?_⟩
    rw [woken, hnone] at hx
    simp at hx
  have hsplit := List.take_append_drop maxWakes (s.blocks.queues addr)
  have hsorted := h.sorted addr
  have hnodup : (s.blocks.queues addr).Nodup := hsorted.imp fun hlt heq => by
    rw [heq] at hlt
    exact lt_irrefl _ hlt
  rw [← hsplit, List.pairwise_append] at hsorted
  have htake : s.woken addr maxWakes = ((s.blocks.queues addr).take maxWakes).toFinset := by
    ext id
    rw [h.mem_woken haddr, List.mem_toFinset]
    rw [← hsplit] at hnodup
    have hdisjoint := (List.nodup_append.1 hnodup).2.2
    constructor
    · rintro ⟨hmem, hnot⟩
      rw [← hsplit, List.mem_append] at hmem
      exact hmem.resolve_right hnot
    · intro hmem
      exact ⟨List.mem_of_mem_take hmem, fun hdrop => hdisjoint id hmem id hdrop rfl⟩
  have hblocked : s.blockedOn addr = (s.blocks.queues addr).toFinset := by
    ext id
    rw [mem_blockedOn, h.isBlockedOn_iff haddr, List.mem_toFinset]
  constructor
  case enough =>
    rw [htake, hblocked, List.toFinset_card_of_nodup hnodup,
      List.toFinset_card_of_nodup (hnodup.sublist (List.take_sublist _ _)), List.length_take]
  case longest =>
    intro x hx y hy
    rw [htake, List.mem_toFinset] at hx
    rw [Finset.mem_sdiff, hblocked, List.mem_toFinset, h.mem_woken haddr] at hy
    exact hsorted.2.2 x hx y (not_not.1 fun hnot => hy.2 ⟨hy.1, hnot⟩)

end Inv

/-- Nobody is blocked. -/
def Initial (s : Waiters) : Prop := ∀ addr, s.blocks.queues addr = []

theorem inv_of_initial {s : Waiters} (h : s.Initial) : s.Inv := by
  constructor
  all_goals
    intro addr
    rw [h addr]
  · exact .nil
  · exact nofun
  · exact nofun

end Waiters

open Waiters

/-- **Wakeups reach those who wait longest** in every run in which no task blocks or is terminated
while it is in a queue. -/
theorem wakeups_reach_waiters {s : Waiters}
    (h : Reached (fun s c s' => s' = s.call c) Condition Initial s) (addr maxWakes : ℕ) :
    s.Wakes addr maxWakes := by
  have hinv : s.Inv :=
    h.invariant (fun _ => inv_of_initial) fun _ _ _ hinv hc hs => hs ▸ hinv.call hc
  exact hinv.wakes addr maxWakes

/-- Tasks `1` and `2` block on the address `7`. -/
def twoWaiters : Waiters := (({} : Waiters).call (.setBlocked 1 7)).call (.setBlocked 2 7)

theorem wakeups_reach_waiters_two : twoWaiters.woken 7 1 = {1} ∧ twoWaiters.Wakes 7 1 := by
  refine ⟨by decide, wakeups_reach_waiters ?_ 7 1⟩
  refine .step (.step (.init fun _ => rfl) (m := .setBlocked 1 7) ?_ rfl) (m := .setBlocked 2 7) ?_
    rfl
  · exact fun _ => List.not_mem_nil
  · intro addr
    by_cases haddr : addr = 7
    · subst haddr
      decide
    · simp [Waiters.call, Waiters.setBlocked, BlockManager.blockOn, haddr]

/-- A replay resumes a task that is blocked, and it blocks again in its loop. -/
def blockedTwice : Waiters :=
  ((({} : Waiters).call (.setBlocked 1 7)).call (.resume 1)).call (.setBlocked 1 7)

/-- A replay terminates a task that is blocked, and another task waits behind it. -/
def terminatedWaiter : Waiters :=
  ((({} : Waiters).call (.setBlocked 1 7)).call (.setBlocked 2 7)).call (.terminate 1)

/-- **A wakeup is absorbed** by a double or by a stale entry: nobody is woken although one task is
blocked. -/
theorem wakeup_absorbed : ¬ blockedTwice.Wakes 7 1 ∧ ¬ terminatedWaiter.Wakes 7 1 :=
  ⟨fun h => absurd h.enough (by decide), fun h => absurd h.enough (by decide)⟩

/-! ### Bounded waiting -/

namespace Waiters

/-- Every call of a sequence meets the condition in the state in which it is made. -/
def Conditions (s : Waiters) : List Call → Prop
  | [] => True
  | c :: calls => s.Condition c ∧ (s.call c).Conditions calls

/-- How many entries a call may remove from the front of a queue. -/
def Call.wakes (addr : ℕ) : Call → ℕ
  | .unblockOn a maxWakes => if a = addr then maxWakes else 0
  | _ => 0

/-- The number of entries in front of a task. -/
def ahead (s : Waiters) (addr id : ℕ) : ℕ := (s.blocks.queues addr).idxOf id

variable {s : Waiters} {addr id : ℕ}

theorem Inv.nodup (h : s.Inv) : (s.blocks.queues addr).Nodup :=
  (h.sorted addr).imp fun hlt heq => by
    rw [heq] at hlt
    exact lt_irrefl _ hlt

theorem idxOf_drop {l : List ℕ} (hl : l.Nodup) {n : ℕ} (hid : id ∈ l.drop n) :
    (l.drop n).idxOf id + n = l.idxOf id := by
  induction n generalizing l with
  | zero => rfl
  | succ n ih =>
    cases l with
    | nil => cases hid
    | cons a l =>
      rw [List.nodup_cons] at hl
      have hne : a ≠ id := fun h => hl.1 (h ▸ List.mem_of_mem_drop hid)
      rw [List.idxOf_cons_ne _ hne, ← ih hl.2 hid]
      rfl

/-- A task that stays in its queue moves forward with every wakeup, and nobody overtakes it. -/
theorem Inv.ahead_call (h : s.Inv) {c : Call} (hid : id ∈ s.blocks.queues addr)
    (hleft : id ∈ (s.call c).blocks.queues addr) :
    (s.call c).ahead addr id + c.wakes addr = s.ahead addr id := by
  cases c with
  | setBlocked x a =>
    by_cases ha : addr = a
    · subst ha
      simp [Waiters.call, Waiters.setBlocked, BlockManager.blockOn, ahead, Call.wakes,
        List.idxOf_append_of_mem hid]
    · simp [Waiters.call, Waiters.setBlocked, BlockManager.blockOn, ahead, Call.wakes, ha]
  | unblockOn a maxWakes =>
    by_cases ha : addr = a
    · subst ha
      simp only [Waiters.call, unblockOn, BlockManager.unblockOn, Function.update_self] at hleft
      simpa [Waiters.call, unblockOn, BlockManager.unblockOn, ahead, Call.wakes] using
        idxOf_drop h.nodup hleft
    · simp [Waiters.call, unblockOn, BlockManager.unblockOn, ahead, Call.wakes, ha, Ne.symm ha]
  | unblockAllOn a =>
    by_cases ha : addr = a
    · subst ha
      simp [Waiters.call, unblockAllOn, BlockManager.unblockAllOn] at hleft
    · simp [Waiters.call, unblockAllOn, BlockManager.unblockAllOn, ahead, Call.wakes, ha]
  | resume x => rfl
  | terminate x => rfl

/-- The calls that meet the condition leave the tasks in the queues alone. -/
theorem tasks_call {c : Call} (hc : s.Condition c) (hid : id ∈ s.blocks.queues addr) :
    (s.call c).tasks id = s.tasks id := by
  cases c with
  | setBlocked x a | terminate x =>
    refine Function.update_of_ne ?_ _ _
    rintro rfl
    exact hc addr hid
  | _ => rfl

end Waiters

/-- **Bounded waiting.** A task in a queue is unblocked as soon as the calls of `UnblockOn` for the
address may wake more tasks than there were in front of it, whoever blocks in the meantime. -/
theorem bounded_waiting {s : Waiters}
    (h : Reached (fun s c s' => s' = s.call c) Condition Initial s) {addr id : ℕ}
    (hid : id ∈ s.blocks.queues addr) {calls : List Call} (hc : s.Conditions calls)
    (hwakes : s.ahead addr id < (calls.map (Call.wakes addr)).sum) :
    ∃ n, ((calls.take n).foldl call s).isBlocked id = false := by
  induction calls generalizing s with
  | nil => exact absurd hwakes (Nat.not_lt_zero _)
  | cons c calls ih =>
    have hinv : s.Inv :=
      h.invariant (fun _ => inv_of_initial) fun _ _ _ hinv hc hs => hs ▸ hinv.call hc
    by_cases hleft : id ∈ (s.call c).blocks.queues addr
    · have hstep := hinv.ahead_call hid hleft
      rw [List.map_cons, List.sum_cons] at hwakes
      obtain ⟨n, hn⟩ := ih (h.step hc.1 rfl) hleft hc.2 (by omega)
      exact ⟨n + 1, hn⟩
    · have hfstate : ((s.call c).tasks id).fstate = addr := by
        rw [tasks_call hc.1 hid, hinv.fstate addr id hid]
      refine ⟨1, ?_⟩
      simp [isBlocked, BlockManager.isBlocked, hfstate, hleft]

/-- Task `2` blocks behind task `1`, which is woken. -/
theorem bounded_waiting_first :
    ∃ n, (([.setBlocked 2 7, .unblockOn 7 1].take n).foldl call
      (({} : Waiters).call (.setBlocked 1 7))).isBlocked 1 = false := by
  have hid : 1 ∈ (({} : Waiters).call (.setBlocked 1 7)).blocks.queues 7 := by decide
  refine bounded_waiting (.step (.init fun _ => rfl) (m := .setBlocked 1 7)
    (fun _ => List.not_mem_nil) rfl) hid ⟨fun addr => ?_, trivial, trivial⟩ (by decide)
  by_cases haddr : addr = 7
  · subst haddr
    decide
  · simp [Waiters.call, Waiters.setBlocked, BlockManager.blockOn, haddr]

end Blocking

end LTest
