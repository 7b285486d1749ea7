import LTest.Scheduler.Deadlock
import LTest.Scheduler.Protocol

/-!
# Owners in a replay

The verifiers of locks take a thread for the owner of a lock when its task has finished. A replay
reports two kinds of tasks as finished: those that return, whose response or follow-up response is
in the history, and those that it terminates by force, which have neither a response nor a return
value. So a thread may own a lock that it never acquired, and the return value of a terminated
`try_lock` cannot be read.

## Main definitions

* `Entry`, `Replay.entries` — what a step of a replay records and reports
* `Held` — a response of a lock that is not followed by a finished unlock
* `Replay.Condition` — no acquisition is terminated, and the tasks of a thread do not overlap
* `Tracks` — what the verifiers of locks have in common

## Main results

* `Owned.move` — what a step keeps
* `owners_recorded` — owners have locked in the replay, if all steps meet the condition
* `owner_without_response` — a lock and a `try_lock` that are terminated
-/

namespace LTest

namespace Scheduler

variable {P : Program} {ν E : Type}

/-! ### What a replay records and reports -/

/-- An event of the history, or a task that is reported to the verifier with its thread. -/
inductive Entry (P : Program) (E : Type)
  | recorded (e : E)
  | finished (t : Task P) (i : ℕ)

namespace Replay

/-- The report on a task that has become `t'`: it had not returned before and has returned now. -/
def report (i : ℕ) (t t' : Task P) : List (Entry P E) :=
  if !t.returned && t'.returned then [.finished t' i] else []

/-- What a step reports. -/
def reported (id : ℕ) (x x' : Replay P ν E) : List (Entry P E) :=
  match x.trace.world.getTask id with
  | some (i, j) =>
    match x.trace.world.task? i j, x'.trace.world.task? i j with
    | some t, some t' => report i t t'
    | _, _ => []
  | none => []

/-- What a step records and reports. -/
def entries (id : ℕ) (x x' : Replay P ν E) : List (Entry P E) :=
  (x'.trace.seq.drop x.trace.seq.length).map .recorded ++ reported id x x'

/-- A replay with what it has recorded and reported. -/
abbrev Logged (P : Program) (ν E : Type) : Type := Replay P ν E × List (Entry P E)

/-- A step of a replay; the move is the id and whether it is the last time that it occurs. -/
def LoggedStep (R : Recorder P E) (V : Verifier P ν) (mode : ReplayMode)
    (s : Logged P ν E) (m : ℕ × Bool) (s' : Logged P ν E) : Prop :=
  s.1.step R V mode m.2 m.1 = some s'.1 ∧ s'.2 = s.2 ++ entries m.1 s.1 s'.1

/-- The loop of `ReplayRound` makes such steps. -/
theorem reached_of_run {R : Recorder P E} {V : Verifier P ν} {mode : ReplayMode}
    {init : Logged P ν E → Prop} {ids : List ℕ} {s : Logged P ν E} {x : Replay P ν E}
    (hs : Reached (LoggedStep R V mode) (fun _ _ => True) init s)
    (hx : run R V mode ids s.1 = some x) :
    ∃ log, Reached (LoggedStep R V mode) (fun _ _ => True) init (x, log) := by
  induction ids generalizing s with
  | nil => exact ⟨s.2, Option.some.inj hx ▸ hs⟩
  | cons id ids ih =>
    obtain ⟨y, hy, hrun⟩ := Option.bind_eq_some_iff.mp hx
    have hstep : LoggedStep R V mode s (id, !ids.contains id) (y, s.2 ++ entries id s.1 y) :=
      ⟨hy, rfl⟩
    exact ih (s := (y, s.2 ++ entries id s.1 y)) (hs.step trivial hstep) hrun

/-! ### Moves -/

/-- What a step does with the task `t` at a position, seen from outside: it appends events, the
task becomes `t'`, and the verifier is in state `v` before it is told of a finished task. -/
structure Moves (V : Verifier P ν) (i j : ℕ) (t t' : Task P) (ext : List E)
    (v : ν) (x x' : Replay P ν E) : Prop where
  seq : x'.trace.seq = x.trace.seq ++ ext
  task : x.trace.world.task? i j = some t
  task' : x'.trace.world.task? i j = some t'
  infos : x'.trace.world.infos = x.trace.world.infos
  newTaskId : x'.trace.world.newTaskId = x.trace.world.newTaskId
  returned : t.returned = true → t'.returned = true
  others : ∀ i' j' u', ¬ (i' = i ∧ j' = j) → x'.trace.world.task? i' j' = some u' →
    ∃ u, x.trace.world.task? i' j' = some u ∧ u'.toTaskInfo = u.toTaskInfo ∧
      u'.returned = u.returned
  verifier : x'.trace.world.verifier =
    if !t.returned && t'.returned then V.onFinished v t' i else v

theorem mem_report {i k : ℕ} {t t' u : Task P} (h : (.finished u k : Entry P E) ∈ report i t t') :
    u = t' ∧ k = i ∧ t.returned = false ∧ t'.returned = true := by
  unfold report at h
  split at h
  · rename_i hfinished
    obtain ⟨hu, hk⟩ := Entry.finished.inj (List.mem_singleton.mp h)
    exact ⟨hu, hk, by simpa using hfinished⟩
  · cases h

namespace Moves

variable {V : Verifier P ν} {i j id : ℕ} {t t' : Task P} {ext : List E} {v : ν}
  {x x' : Replay P ν E}

theorem info (h : Moves V i j t t' ext v x x') : t'.toTaskInfo = t.toTaskInfo := by
  have hget := congrArg (Grid.get? · i j) h.infos
  simp only [World.infos_get?, h.task, h.task', Option.map_some] at hget
  exact Option.some.inj hget

theorem entries (h : Moves V i j t t' ext v x x') (hget : x.trace.world.getTask id = some (i, j)) :
    entries id x x' = ext.map .recorded ++ report i t t' := by
  simp only [Replay.entries, reported, hget, h.task, h.task', h.seq, List.drop_left]

end Moves

section Steps

variable {R : Recorder P E} {V : Verifier P ν} {mode : ReplayMode}
  {isLast : Bool} {i j : ℕ} {t : Task P} {x x' : Replay P ν E}

theorem Moves.of_world (ht : x.trace.world.task? i j = some t) {ext : List E} {v : ν}
    (hseq : x'.trace.seq = x.trace.seq ++ ext)
    (hworld : x'.trace.world = x.trace.world.setVerifier v) : Moves V i j t t ext v x x' where
  seq := hseq
  task := ht
  task' := by rw [hworld, World.task?_setVerifier, ht]
  infos := by rw [hworld, World.infos_setVerifier]
  newTaskId := by rw [hworld]; rfl
  returned h := h
  others i' j' u' _ hu' := by
    rw [hworld, World.task?_setVerifier] at hu'
    exact ⟨u', hu', rfl, rfl⟩
  verifier := by
    rw [hworld]
    cases t.returned <;> rfl

/-- The events of a start. -/
def startEvents (R : Recorder P E) (x : Replay P ν E) (i : ℕ) (t : Task P) : List E :=
  if !x.started.contains t.id then [R.start t.toTaskInfo i] else []

section

variable (ht : x.trace.world.task? i j = some t)
include ht

theorem moves_returned (v : ν) :
    Moves V i j t t.clearWakeupCondition (startEvents R x i t) v x
      ((x.setVerifier v).visited t.id []
        (((x.setVerifier v).admitted i j t).begin R (!x.started.contains t.id) t.toTaskInfo i))
    where
  seq := rfl
  task := ht
  task' := admitted_task? (x := x.setVerifier v) ht
  infos := World.infos_modifyTask fun _ => rfl
  newTaskId := rfl
  returned h := h
  others i' j' u' hij hu' := by
    refine ⟨u', ?_, rfl, rfl⟩
    rwa [← World.task?_modifyTask_of_ne Task.clearWakeupCondition hij]
  verifier := by
    show v = if !t.returned && t.returned then _ else v
    cases t.returned <;> rfl

theorem moves_terminated (hret : t.returned = false) (v : ν) :
    ∃ t' ext, t'.returned = true ∧
      ext = startEvents R x i t ++ R.drainEvents
        (((x.setVerifier v).admitted i j t).world.modifyTask i j Task.terminate).threads ∧
      Moves V i j t t' ext v x ((x.setVerifier v).visited t.id []
        (((x.setVerifier v).admitted i j t).terminate R V i j (!x.started.contains t.id)
          t.toTaskInfo)) := by
  let w := (((x.setVerifier v).admitted i j t).world.modifyTask i j Task.terminate).mapTasks
    R.drainTask
  have htask : w.task? i j = some (R.drainTask t.clearWakeupCondition.terminate) := by
    rw [World.task?_mapTasks, World.task?_modifyTask_self, admitted_task? (x := x.setVerifier v) ht]
    rfl
  have hworld : ((x.setVerifier v).visited t.id []
      (((x.setVerifier v).admitted i j t).terminate R V i j (!x.started.contains t.id)
        t.toTaskInfo)).trace.world = w.reportFinish V i j := rfl
  have hret' : (R.drainTask t.clearWakeupCondition.terminate).returned = true := by
    rw [R.drainTask_returned]
    rfl
  have hinfos : w.infos = x.trace.world.infos := by
    rw [World.infos_mapTasks R.drainTask_toTaskInfo,
      World.infos_modifyTask Task.terminate_toTaskInfo]
    exact World.infos_modifyTask Task.clearWakeupCondition_toTaskInfo
  refine ⟨R.drainTask t.clearWakeupCondition.terminate, _, hret', rfl, ?_⟩
  constructor
  · show ((x.trace.seq ++ _) ++ _) = _
    rw [List.append_assoc]
    rfl
  · exact ht
  · rw [hworld, World.task?_reportFinish, htask]
  · obtain ⟨v', hv'⟩ := World.reportFinish_eq V i j w
    rw [hworld, hv', World.infos_setVerifier, hinfos]
  · obtain ⟨v', hv'⟩ := World.reportFinish_eq V i j w
    rw [hworld, hv']
    rfl
  · exact fun _ => hret'
  · intro i' j' u' hij hu'
    rw [hworld, World.task?_reportFinish, World.task?_mapTasks,
      World.task?_modifyTask_of_ne _ hij, Option.map_eq_some_iff] at hu'
    obtain ⟨u, hu, rfl⟩ := hu'
    refine ⟨u, ?_, R.drainTask_toTaskInfo u, R.drainTask_returned u⟩
    rwa [← World.task?_modifyTask_of_ne Task.clearWakeupCondition hij]
  · rw [hworld, World.reportFinish, htask, hret, hret']
    simp only [hret']
    rfl

theorem moves_resumed (hret : t.returned = false) {v : ν} {tr : Trace P ν E}

    (htr : ((x.setVerifier v).admitted i j t).perform R V i j (!x.started.contains t.id) =
      some tr) :
    ∃ t' ext, t'.returned = (x.trace.world.stepOf i t).1.ret.isSome ∧
      t'.ret = (x.trace.world.stepOf i t).1.ret.or t.ret ∧
      ext = startEvents R x i t ++ R.drainEvents (((x.setVerifier v).admitted i j t).world.stepTask
        i j t.clearWakeupCondition).threads ++
        (if (x.trace.world.stepOf i t).1.ret.isSome then R.response t' i else []) ∧
      Moves V i j t t' ext v x ((x.setVerifier v).visited t.id [t.id] tr) := by
  have hcleared := admitted_task? (x := x.setVerifier v) ht
  obtain ⟨u, hu, huret, rfl⟩ := Trace.perform_cases htr
  obtain rfl : t.clearWakeupCondition = u := Option.some.inj (hcleared.symm.trans hu)
  let t' := R.drainTask (t.clearWakeupCondition.stepped (x.trace.world.stepOf i t).1
    x.trace.world.seqno)
  have hret' : t'.returned = (x.trace.world.stepOf i t).1.ret.isSome := by
    rw [R.drainTask_returned]
    rfl
  refine ⟨t', _, hret', R.drainTask_ret _, rfl, ?_⟩
  constructor
  · refine (Trace.after_seq hu).trans ?_
    rw [List.append_assoc, List.append_assoc, ← List.append_assoc _ (R.drainEvents _)]
    rfl
  · exact ht
  · exact Trace.after_task?_self hu
  · exact Trace.after_infos.trans (World.infos_modifyTask fun _ => rfl)
  · exact Counted.after_newTaskId_removed.1
  · intro h
    cases hret.symm.trans h
  · intro i' j' u' hij hu'
    change (Trace.after R V i j _ _ _).world.task? i' j' = some u' at hu'
    rw [Trace.after_task?_of_ne hij, Option.map_eq_some_iff] at hu'
    obtain ⟨u, hu, rfl⟩ := hu'
    refine ⟨u, ?_, R.drainTask_toTaskInfo u, R.drainTask_returned u⟩
    rwa [← World.task?_modifyTask_of_ne Task.clearWakeupCondition hij]
  · refine (Trace.after_verifier hu).trans ?_
    rw [hret, hret']
    rfl

end

end Steps

end Replay

/-! ### Locks -/

/-- The two ways in which a lock is owned. -/
inductive LockMode
  | exclusive
  | shared

namespace LockMode

/-- The operation that acquires the lock. -/
def lock : LockMode → String
  | exclusive => "lock"
  | shared => "lock_shared"

/-- The operation that tries to. -/
def tryLock : LockMode → String
  | exclusive => "try_lock"
  | shared => "try_lock_shared"

/-- The operation that releases it. -/
def unlock : LockMode → String
  | exclusive => "unlock"
  | shared => "unlock_shared"

/-- The task has acquired the lock. -/
def acquires {T : Type} (R : TaskReader T) : LockMode → T → Bool
  | exclusive => Scheduler.acquires R
  | shared => acquiresShared R

/-- The operations that acquire or try to. -/
def Acquiring (mode : LockMode) (name : String) : Prop := name = mode.lock ∨ name = mode.tryLock

theorem cases_of_acquires {T : Type} {R : TaskReader T} {mode : LockMode} {t : T}
    (h : mode.acquires R t = true) :
    R.name t = mode.lock ∨ R.name t = mode.tryLock ∧ R.retBool t = true := by
  cases mode with
  | exclusive =>
    simp only [acquires, Scheduler.acquires, Bool.or_eq_true, Bool.and_eq_true, beq_iff_eq] at h
    exact h.imp_left And.left
  | shared =>
    simp only [acquires, acquiresShared, Bool.or_eq_true, Bool.and_eq_true, beq_iff_eq] at h
    exact h.imp_left And.left

theorem Acquiring.ne_unlock {mode : LockMode} {name : String} (h : mode.Acquiring name) :
    name ≠ mode.unlock := by
  obtain rfl | rfl := h <;> cases mode <;> decide

end LockMode

/-- What verifiers read of tasks; `asBool` is `GetValue<bool>`, which throws if there is no value or
one of another type. -/
def boolReader (asBool : P.Val → Option Bool) : TaskReader (Task P) where
  name t := t.name
  isReturned t := t.returned
  retBool t := (t.ret.bind asBool).getD false

/-- `OnFinished` throws: it reads the return value of a `try_lock`, and there is no Boolean. -/
def Task.Throws (asBool : P.Val → Option Bool) (t : Task P) : Prop :=
  (∃ mode : LockMode, t.name = mode.tryLock) ∧ t.ret.bind asBool = none

/-- A response: its task, its result and its thread. -/
abbrev Answer (P : Program) : Type := TaskInfo P × Option P.Val × ℕ

/-- The response of a lock of the thread, or of a `try_lock` of it with result `true`. -/
def Acquired (asBool : P.Val → Option Bool) (mode : LockMode) (threadId : ℕ) (a : Answer P) :
    Prop :=
  a.2.2 = threadId ∧
    (a.1.name = mode.lock ∨ a.1.name = mode.tryLock ∧ a.2.1.bind asBool = some true)

variable {mode : LockMode} {asBool : P.Val → Option Bool}

theorem acquired_of_acquires {t : Task P} {info : TaskInfo P} {i : ℕ} (hinfo : t.toTaskInfo = info)
    (h : mode.acquires (boolReader asBool) t = true) : Acquired asBool mode i (info, t.ret, i) := by
  subst hinfo
  refine ⟨rfl, (LockMode.cases_of_acquires h).imp_right fun ⟨hname, hret⟩ => ⟨hname, ?_⟩⟩
  change (t.ret.bind asBool).getD false = true at hret
  cases hbind : t.ret.bind asBool with
  | none =>
    rw [hbind] at hret
    cases hret
  | some b =>
    rw [hbind] at hret
    exact congrArg some hret

section Held

variable (resp : E → Option (Answer P)) (asBool : P.Val → Option Bool)

/-- The history has a response by which the thread has acquired the lock, and the thread has
finished no unlock since. -/
def Held (mode : LockMode) (threadId : ℕ) (log : List (Entry P E)) : Prop :=
  ∃ before e after a, log = before ++ Entry.recorded e :: after ∧ resp e = some a ∧
    Acquired asBool mode threadId a ∧
    ∀ u : Task P, Entry.finished u threadId ∈ after → u.name ≠ mode.unlock

variable {resp asBool}

theorem Held.append {threadId : ℕ} {log ext : List (Entry P E)}
    (h : Held resp asBool mode threadId log)
    (hext : ∀ u : Task P, Entry.finished u threadId ∈ ext → u.name ≠ mode.unlock) :
    Held resp asBool mode threadId (log ++ ext) := by
  obtain ⟨before, e, after, a, rfl, hresp, hacquired, hafter⟩ := h
  refine ⟨before, e, after ++ ext, a, by simp, hresp, hacquired, fun u hu => ?_⟩
  exact (List.mem_append.mp hu).elim (hafter u) (hext u)

end Held

/-! ### What the verifiers have in common -/

/-- The verifier has owners `view`, which only finished tasks change. -/
structure Tracks (V : Verifier P ν) (R : TaskReader (Task P))
    (view : ν → SharedOwners) : Prop where
  asks : ∀ {v v' : ν}, Asks V v v' → view v' = view v
  onTaskStarted : ∀ v name i id, view (V.onTaskStarted v name i id) = view v
  owner : ∀ v t i, (view (V.onFinished v t i)).exclusiveOwner =
    updateOwner R (view v).exclusiveOwner t i
  counts : ∀ v t i k, (view (V.onFinished v t i)).sharedCounts k ≤
    updateCounts R (view v).sharedCounts t i k
  start : ∀ v name i ctx, (V.verifyTaskStart v name i ctx).1 = true →
    LockMode.shared.Acquiring name → (view v).sharedCounts i = 0
  reset : ∀ v n, view (V.onRoundStart (V.reset v) n) = view v

/-- The thread owns the lock. -/
def Owns (view : ν → SharedOwners) (v : ν) : LockMode → ℕ → Prop
  | .exclusive, threadId => (view v).exclusiveOwner = some threadId
  | .shared, threadId => 0 < (view v).sharedCounts threadId

theorem Owns.congr {view : ν → SharedOwners} {v v' : ν} {k : ℕ} (h : Owns view v mode k)
    (hview : view v = view v') : Owns view v' mode k := by
  cases mode with
  | exclusive =>
    show (view v').exclusiveOwner = some k
    rw [← hview]
    exact h
  | shared =>
    show 0 < (view v').sharedCounts k
    rw [← hview]
    exact h

section UpdateCounts

variable {T : Type} {R : TaskReader T} {counts : ℕ → ℕ} {t : T} {i k : ℕ}

/-- A thread with a count has acquired the lock now, or it had a count and this is not its
unlock. -/
theorem pos_of_updateCounts_pos (hsingle : counts k ≤ 1) (h : 0 < updateCounts R counts t i k) :
    (i = k ∧ acquiresShared R t = true) ∨
      0 < counts k ∧ ¬ (i = k ∧ R.name t = "unlock_shared") := by
  by_cases hk : i = k
  · subst hk
    obtain ⟨hacquires, -⟩ | ⟨-, -, heq⟩ | ⟨-, hname, heq⟩ := updateCounts_cases R counts t i
    · exact .inl ⟨rfl, hacquires⟩
    · rw [heq, Function.update_self] at h
      omega
    · rw [heq] at h
      exact .inr ⟨h, fun hunlock => hname hunlock.2⟩
  · rw [updateCounts_of_ne (Ne.symm hk)] at h
    exact .inr ⟨h, fun hunlock => hk hunlock.1⟩

/-- A thread that acquires the lock without a count has one count then. -/
theorem updateCounts_le_one (hsingle : counts k ≤ 1)
    (hacquires : acquiresShared R t = true → counts i = 0) : updateCounts R counts t i k ≤ 1 := by
  by_cases hk : k = i
  · subst hk
    obtain ⟨hshared, -, heq⟩ | ⟨-, -, heq⟩ | ⟨-, -, heq⟩ := updateCounts_cases R counts t k
    · rw [heq, Function.update_self, hacquires hshared]
    · rw [heq, Function.update_self]
      omega
    · rwa [heq]
  · rwa [updateCounts_of_ne hk]

end UpdateCounts

namespace Tracks

variable {V : Verifier P ν} {R : TaskReader (Task P)} {view : ν → SharedOwners}
  {v : ν} {t : Task P} {i k : ℕ}

/-- An owner has acquired the lock with the finished task, or it was one before. -/
theorem owns_onFinished (hV : Tracks V R view) (hsingle : ∀ k, (view v).sharedCounts k ≤ 1)
    (h : Owns view (V.onFinished v t i) mode k) :
    (i = k ∧ mode.acquires R t = true) ∨
      Owns view v mode k ∧ ¬ (i = k ∧ R.name t = mode.unlock) := by
  cases mode with
  | exclusive =>
    have howner : updateOwner R (view v).exclusiveOwner t i = some k :=
      (hV.owner v t i).symm.trans h
    refine (owner_of_updateOwner howner).imp_right fun ⟨hbefore, hunlock⟩ => ⟨hbefore, ?_⟩
    rintro ⟨rfl, hname⟩
    simp [Call.finishes, hname, LockMode.unlock] at hunlock
  | shared =>
    exact pos_of_updateCounts_pos (hsingle k) (Nat.lt_of_lt_of_le h (hV.counts v t i k))

theorem single_onFinished (hV : Tracks V R view) (hsingle : ∀ k, (view v).sharedCounts k ≤ 1)
    (hacquires : acquiresShared R t = true → (view v).sharedCounts i = 0) (k : ℕ) :
    (view (V.onFinished v t i)).sharedCounts k ≤ 1 :=
  Nat.le_trans (hV.counts v t i k) (updateCounts_le_one (hsingle k) hacquires)

theorem counts_onFinished_of_ne (hV : Tracks V R view) (hk : k ≠ i)
    (h : (view v).sharedCounts k = 0) : (view (V.onFinished v t i)).sharedCounts k = 0 := by
  have hle := hV.counts v t i k
  rw [updateCounts_of_ne hk, h] at hle
  exact Nat.le_zero.mp hle

theorem permit (hV : Tracks V R view) {w : World P ν} {started : List ℕ} {b : Bool} {v : ν}
    (h : w.permit V started i t = (b, v)) :
    view v = view w.verifier ∧
      (b = true → started.contains t.id = false → LockMode.shared.Acquiring t.name →
        (view w.verifier).sharedCounts i = 0) := by
  unfold World.permit at h
  split at h
  · rename_i hstarted
    refine ⟨?_, fun _ hnew => absurd hstarted (Bool.eq_false_iff.mp hnew)⟩
    split at h
    · rw [← (Prod.mk.inj h).2]
    · obtain rfl : _ = v := congrArg Prod.snd h
      exact hV.asks (.verifyExisting t i .none)
  · dsimp only at h
    have hasks := hV.asks (Asks.verifyTaskStart (V := V) (v := w.verifier) .none t.name i
      (w.buildReplayStartContext started))
    split at h
    · rename_i hverified
      refine ⟨?_, fun _ _ hname => hV.start _ _ _ _ hverified hname⟩
      rw [← (Prod.mk.inj h).2, hV.onTaskStarted, hasks]
    · rename_i hverified
      refine ⟨?_, fun hb => ?_⟩
      · obtain rfl : _ = v := congrArg Prod.snd h
        exact hasks
      · subst hb
        exact absurd (congrArg Prod.fst h) hverified

end Tracks

/-! ### The invariant -/

/-- **The invariant of a replay.** Owners have locked in this replay; a task that has not returned,
but whose response is in the history, has it there since its thread has last finished a task. -/
structure Owned (view : ν → SharedOwners) (resp : E → Option (Answer P))
    (asBool : P.Val → Option Bool) (s : Replay.Logged P ν E) : Prop where
  serial : s.1.trace.world.Serial
  started : ∀ e ∈ s.1.trace.seq, ∀ a, resp e = some a → a.1.id ∈ s.1.started
  logged : ∀ i j u, s.1.trace.world.task? i j = some u → u.returned = false →
    ∀ e ∈ s.1.trace.seq, ∀ r, resp e = some (u.toTaskInfo, r, i) →
      ∃ before after, s.2 = before ++ Entry.recorded e :: after ∧
        ∀ u : Task P, Entry.finished u i ∉ after
  owns : ∀ mode k, Owns view s.1.trace.world.verifier mode k → Held resp asBool mode k s.2
  single : ∀ k, (view s.1.trace.world.verifier).sharedCounts k ≤ 1
  waiting : ∀ i j u, s.1.trace.world.task? i j = some u → u.id ∈ s.1.started →
    u.returned = false → LockMode.shared.Acquiring u.name →
      (view s.1.trace.world.verifier).sharedCounts i = 0
  reads : ∀ (u : Task P) (i : ℕ), Entry.finished u i ∈ s.2 → ¬ u.Throws asBool

namespace Owned

variable {V : Verifier P ν} {view : ν → SharedOwners}
  {resp : E → Option (Answer P)} {asBool : P.Val → Option Bool} {i j id : ℕ} {t t' : Task P}
  {ext : List E} {v : ν} {x x' : Replay P ν E} {log : List (Entry P E)}

/-- A recorded event of a step, and what is reported after it. -/
theorem exists_recorded {e : E} (he : e ∈ ext) (log tail : List (Entry P E)) :
    ∃ before after, log ++ (ext.map .recorded ++ tail) = before ++ Entry.recorded e :: after ∧
      ∀ (u : Task P) (k : ℕ), Entry.finished u k ∈ after → Entry.finished u k ∈ tail := by
  obtain ⟨ext₁, ext₂, rfl⟩ := List.append_of_mem he
  refine ⟨log ++ ext₁.map .recorded, ext₂.map .recorded ++ tail, by simp, fun u k hu => ?_⟩
  simpa using hu

section Move

variable (hV : Tracks V (boolReader asBool) view) (h : Owned view resp asBool (x, log))
  (hm : Replay.Moves V i j t t' ext v x x') (hview : view v = view x.trace.world.verifier)

include hm

theorem verifier_cases :
    (t.returned = false ∧ t'.returned = true ∧
        x'.trace.world.verifier = V.onFinished v t' i) ∨
      (t.returned = t'.returned ∧ x'.trace.world.verifier = v) := by
  have hverifier := hm.verifier
  cases hret : t.returned with
  | true =>
    rw [hret] at hverifier
    exact .inr ⟨(hm.returned hret).symm, hverifier⟩
  | false =>
    rw [hret] at hverifier
    cases hret' : t'.returned with
    | true =>
      rw [hret'] at hverifier
      exact .inl ⟨rfl, rfl, hverifier⟩
    | false =>
      rw [hret'] at hverifier
      exact .inr ⟨rfl, hverifier⟩

include h

theorem position_eq {i' j' : ℕ} {u : Task P} (hu : x.trace.world.task? i' j' = some u)
    (hid : u.id = t.id) : i' = i ∧ j' = j :=
  h.serial.numbered i' j' i j u t hu hm.task hid

variable
  (hsequential : ∀ j' u, j' ≠ j → x.trace.world.task? i j' = some u → u.id ∈ x.started →
    u.returned = true)
  (hnew : ∀ id ∈ x'.started, id ∈ x.started ∨ id = t.id)
  (hext : ∀ e ∈ ext, ∀ a, resp e = some a → a.1 = t.toTaskInfo ∧ a.2.2 = i ∧ t.id ∈ x'.started)
  (hpermit : t.id ∈ x'.started → t.id ∉ x.started → LockMode.shared.Acquiring t.name →
    (view x.trace.world.verifier).sharedCounts i = 0)

include hsequential hext in
theorem logged_move (i' j' : ℕ) (u' : Task P) (hu' : x'.trace.world.task? i' j' = some u')
    (hret' : u'.returned = false) (e : E) (he : e ∈ x'.trace.seq) (r : Option P.Val)
    (hresp : resp e = some (u'.toTaskInfo, r, i')) :
    ∃ before after, log ++ (ext.map .recorded ++ Replay.report i t t') =
      before ++ Entry.recorded e :: after ∧ ∀ u : Task P, Entry.finished u i' ∉ after := by
  rw [hm.seq, List.mem_append] at he
  by_cases hij : i' = i ∧ j' = j
  · obtain ⟨rfl, rfl⟩ := hij
    obtain rfl : t' = u' := Option.some.inj (hm.task'.symm.trans hu')
    -- The task has not returned, so nothing is reported in this step.
    have hnone (u : Task P) (k : ℕ) : (.finished u k : Entry P E) ∉ Replay.report i' t t' :=
      fun hmem => by cases hret'.symm.trans (Replay.mem_report hmem).2.2.2
    obtain he | he := he
    · have hret : t.returned = false := by
        by_contra hne
        rw [Bool.not_eq_false] at hne
        cases hret'.symm.trans (hm.returned hne)
      obtain ⟨before, after, rfl, hafter⟩ :=
        h.logged i' j' t hm.task hret e he r (hm.info ▸ hresp)
      refine ⟨before, after ++ (ext.map .recorded ++ Replay.report i' t t'), by simp,
        fun u hu => ?_⟩
      simp only [List.mem_append, List.mem_map, reduceCtorEq, and_false, exists_false,
        false_or] at hu
      exact hu.elim (hafter u) (hnone u i')
    · obtain ⟨before, after, heq, hafter⟩ := exists_recorded he log (Replay.report i' t t')
      exact ⟨before, after, heq, fun u hu => hnone u i' (hafter u i' hu)⟩
  · obtain ⟨u, hu, hinfo, hret⟩ := hm.others i' j' u' hij hu'
    rw [hinfo] at hresp
    obtain he | he := he
    · have hstarted := h.started e he _ hresp
      -- The other tasks of this thread have returned, so this is a task of another one.
      have hi : i' ≠ i := by
        rintro rfl
        have hj : j' ≠ j := fun hj => hij ⟨rfl, hj⟩
        cases (hsequential j' u hj hu hstarted).symm.trans (hret.symm.trans hret')
      obtain ⟨before, after, rfl, hafter⟩ :=
        h.logged i' j' u hu (hret.symm.trans hret') e he r hresp
      refine ⟨before, after ++ (ext.map .recorded ++ Replay.report i t t'), by simp, fun w hw => ?_⟩
      simp only [List.mem_append, List.mem_map, reduceCtorEq, and_false, exists_false,
        false_or] at hw
      exact hw.elim (hafter w) fun hw => hi (Replay.mem_report hw).2.1
    · have hid : u.id = t.id := congrArg TaskInfo.id (hext e he _ hresp).1
      exact absurd (h.position_eq hm hu hid) hij

include hV hview hpermit in
theorem single_move (hfinish : t.returned = false → t'.returned = true → t.id ∈ x'.started)
    (k : ℕ) : (view x'.trace.world.verifier).sharedCounts k ≤ 1 := by
  have hsingle (k : ℕ) : (view v).sharedCounts k ≤ 1 := hview ▸ h.single k
  obtain ⟨hret, hret', hverifier⟩ | ⟨-, hverifier⟩ := verifier_cases hm
  · rw [hverifier]
    refine hV.single_onFinished hsingle (fun hacquires => ?_) k
    have hname : LockMode.shared.Acquiring t.name := by
      rw [← hm.info]
      exact (LockMode.cases_of_acquires (R := boolReader asBool) (t := t')
        (show LockMode.shared.acquires _ _ = true from hacquires)).imp_right And.left
    rw [hview]
    by_cases hstarted : t.id ∈ x.started
    · exact h.waiting i j t hm.task hstarted hret hname
    · exact hpermit (hfinish hret hret') hstarted hname
  · rw [hverifier]
    exact hsingle k

include hV hview hsequential hnew hpermit in
theorem waiting_move (i' j' : ℕ) (u' : Task P) (hu' : x'.trace.world.task? i' j' = some u')
    (hstarted : u'.id ∈ x'.started) (hret' : u'.returned = false)
    (hname : LockMode.shared.Acquiring u'.name) :
    (view x'.trace.world.verifier).sharedCounts i' = 0 := by
  by_cases hij : i' = i ∧ j' = j
  · obtain ⟨rfl, rfl⟩ := hij
    obtain rfl : t' = u' := Option.some.inj (hm.task'.symm.trans hu')
    rw [hm.info] at hstarted hname
    obtain ⟨-, hreturned, -⟩ | ⟨hret, hverifier⟩ := verifier_cases hm
    · cases hret'.symm.trans hreturned
    · rw [hverifier, hview]
      by_cases hold : t.id ∈ x.started
      · exact h.waiting i' j' t hm.task hold (hret.trans hret') hname
      · exact hpermit hstarted hold hname
  · obtain ⟨u, hu, hinfo, hret⟩ := hm.others i' j' u' hij hu'
    rw [hinfo] at hstarted hname
    have hold : u.id ∈ x.started := (hnew _ hstarted).resolve_right
      fun hid => hij (h.position_eq hm hu hid)
    have hzero : (view v).sharedCounts i' = 0 :=
      hview ▸ h.waiting i' j' u hu hold (hret.symm.trans hret') hname
    have hi : i' ≠ i := by
      rintro rfl
      have hj : j' ≠ j := fun hj => hij ⟨rfl, hj⟩
      cases (hsequential j' u hj hu hold).symm.trans (hret.symm.trans hret')
    obtain ⟨-, -, hverifier⟩ | ⟨-, hverifier⟩ := verifier_cases hm
    · rw [hverifier]
      exact hV.counts_onFinished_of_ne hi hzero
    · rwa [hverifier]

include hV hview in
theorem owns_move
    (hfinish : t.returned = false → t'.returned = true → ∀ mode : LockMode,
      mode.acquires (boolReader asBool) t' = true →
        ∃ e ∈ x'.trace.seq, resp e = some (t.toTaskInfo, t'.ret, i))
    (mode : LockMode) (k : ℕ) (howns : Owns view x'.trace.world.verifier mode k) :
    Held resp asBool mode k (log ++ (ext.map .recorded ++ Replay.report i t t')) := by
  have hsame (howns : Owns view v mode k) : Held resp asBool mode k log :=
    h.owns mode k (howns.congr hview)
  obtain ⟨hret, hret', hverifier⟩ | ⟨hret, hverifier⟩ := verifier_cases hm
  · rw [hverifier] at howns
    obtain ⟨rfl, hacquires⟩ | ⟨howns, hunlock⟩ :=
      hV.owns_onFinished (fun k => hview ▸ h.single k) howns
    · obtain ⟨e, he, hresp⟩ := hfinish hret hret' mode hacquires
      have hacquired := acquired_of_acquires (i := i) hm.info hacquires
      have hname : t'.name ≠ mode.unlock := by
        refine LockMode.Acquiring.ne_unlock ?_
        exact (LockMode.cases_of_acquires hacquires).imp_right And.left
      rw [hm.seq, List.mem_append] at he
      obtain he | he := he
      · obtain ⟨before, after, rfl, hafter⟩ := h.logged i j t hm.task hret e he _ hresp
        refine ⟨before, e, after ++ (ext.map .recorded ++ Replay.report i t t'), _, by simp,
          hresp, hacquired, fun u hu => ?_⟩
        simp only [List.mem_append, List.mem_map, reduceCtorEq, and_false, exists_false,
          false_or] at hu
        obtain hu | hu := hu
        · exact absurd hu (hafter u)
        · rw [(Replay.mem_report hu).1]
          exact hname
      · obtain ⟨before, after, heq, hafter⟩ := exists_recorded he log (Replay.report i t t')
        refine ⟨before, e, after, _, heq, hresp, hacquired, fun u hu => ?_⟩
        rw [(Replay.mem_report (hafter u i hu)).1]
        exact hname
    · refine (hsame howns).append fun u hu hname => hunlock ?_
      simp only [List.mem_append, List.mem_map, reduceCtorEq, and_false, exists_false,
        false_or] at hu
      obtain ⟨rfl, rfl, -⟩ := Replay.mem_report hu
      exact ⟨rfl, hname⟩
  · rw [hverifier] at howns
    refine (hsame howns).append fun u hu => ?_
    simp only [List.mem_append, List.mem_map, reduceCtorEq, and_false, exists_false,
      false_or] at hu
    have hfinished := (Replay.mem_report hu).2.2
    rw [hfinished.1, hfinished.2] at hret
    cases hret

include hV hview hsequential hnew hext hpermit in
/-- **What a step keeps.** -/
theorem move (hget : x.trace.world.getTask id = some (i, j))
    (hsub : ∀ id ∈ x.started, id ∈ x'.started)
    (hfinish : t.returned = false → t'.returned = true → t.id ∈ x'.started ∧
      ¬ t'.Throws asBool ∧ ∀ mode : LockMode, mode.acquires (boolReader asBool) t' = true →
        ∃ e ∈ x'.trace.seq, resp e = some (t.toTaskInfo, t'.ret, i)) :
    Owned view resp asBool (x', log ++ Replay.entries id x x') := by
  rw [hm.entries hget]
  constructor
  · exact h.serial.congr hm.infos hm.newTaskId
  · intro e he a ha
    change e ∈ x'.trace.seq at he
    rw [hm.seq, List.mem_append] at he
    obtain he | he := he
    · exact hsub _ (h.started e he a ha)
    · obtain ⟨hinfo, -, hstarted⟩ := hext e he a ha
      rw [hinfo]
      exact hstarted
  · exact h.logged_move hm hsequential hext
  · exact h.owns_move hV hm hview fun hret hret' => (hfinish hret hret').2.2
  · exact h.single_move hV hm hview hpermit fun hret hret' => (hfinish hret hret').1
  · exact h.waiting_move hV hm hview hsequential hnew hpermit
  · intro u k hu
    simp only [List.mem_append, List.mem_map, reduceCtorEq, and_false, exists_false,
      false_or] at hu
    obtain hu | hu := hu
    · exact h.reads u k hu
    · obtain ⟨rfl, -, hret, hret'⟩ := Replay.mem_report hu
      exact (hfinish hret hret').2.1

end Move

end Owned

/-! ### Steps that meet the condition -/

/-- What the owners in a replay need. -/
structure Replay.Condition (asBool : P.Val → Option Bool) (mode : ReplayMode)
    (s : Replay.Logged P ν E) (m : ℕ × Bool) : Prop where
  /-- No operation that acquires a lock is terminated by force. -/
  completed : ∀ i j t, s.1.trace.world.getTask m.1 = some (i, j) →
    s.1.trace.world.task? i j = some t → t.returned = false → mode = .completeOnLast →
      m.2 = true → ∀ lock : LockMode, ¬ lock.Acquiring t.name
  /-- A task makes a step when the others of its thread that were started have returned. -/
  sequential : ∀ i j j' u, s.1.trace.world.getTask m.1 = some (i, j) → j' ≠ j →
    s.1.trace.world.task? i j' = some u → u.id ∈ s.1.started → u.returned = true
  /-- A `try_lock` that returns returns a Boolean. -/
  bool : ∀ i j t r, s.1.trace.world.getTask m.1 = some (i, j) →
    s.1.trace.world.task? i j = some t → (s.1.trace.world.stepOf i t).1.ret = some r →
      (∃ lock : LockMode, t.name = lock.tryLock) → asBool r ≠ none

/-- How the events of a recorder tell of responses, in replays with a property that steps keep: what
is drained after a step are responses of the task that made it, and a task that returns has its
response in the history then. -/
structure Recorder.Answers (R : Recorder P E) (V : Verifier P ν)
    (mode : ReplayMode) (resp : E → Option (Answer P)) (G : Replay P ν E → Prop) : Prop where
  step : ∀ {x x' : Replay P ν E} {isLast : Bool} {id : ℕ}, G x →
    x.step R V mode isLast id = some x' → G x'
  start : ∀ t i, resp (R.start t i) = none
  response : ∀ t i, ∀ e ∈ R.response t i, ∀ a, resp e = some a → a.1 = t.toTaskInfo ∧ a.2.2 = i
  terminated : ∀ {x : Replay P ν E} {i j : ℕ} {t : Task P} (v : ν), G x →
    x.trace.world.task? i j = some t → ∀ e ∈ R.drainEvents
      (((x.setVerifier v).admitted i j t).world.modifyTask i j Task.terminate).threads,
        resp e = none
  resumed : ∀ {x : Replay P ν E} {i j : ℕ} {t : Task P} (v : ν), G x →
    x.trace.world.task? i j = some t → t.returned = false → ∀ e ∈ R.drainEvents
      (((x.setVerifier v).admitted i j t).world.stepTask i j t.clearWakeupCondition).threads,
        ∀ a, resp e = some a → a.1 = t.toTaskInfo ∧ a.2.2 = i
  finish : ∀ {x : Replay P ν E} {i j : ℕ} {t t' : Task P} {r : P.Val} (v : ν), G x →
    x.trace.world.task? i j = some t → t.returned = false →
    (x.trace.world.stepOf i t).1.ret = some r → t'.toTaskInfo = t.toTaskInfo → t'.ret = some r →
      ∃ e ∈ x.trace.seq ++ (R.drainEvents (((x.setVerifier v).admitted i j t).world.stepTask i j
        t.clearWakeupCondition).threads ++ R.response t' i), resp e = some (t.toTaskInfo, t'.ret, i)

theorem mem_addStarted {started : List ℕ} {id id' : ℕ} :
    id' ∈ addStarted started id ↔ id' ∈ started ∨ id' = id := by
  unfold addStarted
  split
  · rename_i hmem
    refine ⟨.inl, ?_⟩
    rintro (h | rfl)
    · exact h
    · simpa using hmem
  · simp [or_comm]

namespace Owned

variable {R : Recorder P E} {V : Verifier P ν} {mode : ReplayMode}
  {view : ν → SharedOwners} {resp : E → Option (Answer P)} {asBool : P.Val → Option Bool}
  {G : Replay P ν E → Prop}

section

variable (hV : Tracks V (boolReader asBool) view)
include hV

theorem step (hR : R.Answers V mode resp G) {s s' : Replay.Logged P ν E} {m : ℕ × Bool}
    (h : Owned view resp asBool s) (hG : G s.1) (hC : Replay.Condition asBool mode s m)
    (hs : Replay.LoggedStep R V mode s m s') : Owned view resp asBool s' := by
  obtain ⟨x, log⟩ := s
  obtain ⟨x', log'⟩ := s'
  obtain ⟨id, isLast⟩ := m
  obtain ⟨hstep, hlog⟩ := hs
  obtain rfl : log' = log ++ Replay.entries id x x' := hlog
  obtain ⟨i, j, t, hget, ht, hsteps⟩ := Replay.step_cases hstep
  have hsequential (j' : ℕ) (u : Task P) : j' ≠ j → x.trace.world.task? i j' = some u →
      u.id ∈ x.started → u.returned = true := hC.sequential i j j' u hget
  have hstartEvents (e : E) (he : e ∈ Replay.startEvents R x i t) : resp e = none := by
    unfold Replay.startEvents at he
    split at he
    · rw [List.mem_singleton.mp he, hR.start]
    · cases he
  have hadd (id : ℕ) (hid : id ∈ x.started) : id ∈ addStarted x.started t.id :=
    mem_addStarted.mpr (.inl hid)
  have hself : t.id ∈ addStarted x.started t.id := mem_addStarted.mpr (.inr rfl)
  -- What the verifier was asked about a new task.
  have hpermit {v : ν} (hp : x.trace.world.permit V x.started i t = (true, v)) :
      t.id ∈ addStarted x.started t.id → t.id ∉ x.started → LockMode.shared.Acquiring t.name →
        (view x.trace.world.verifier).sharedCounts i = 0 := fun _ hnot =>
    (hV.permit hp).2 rfl (by simpa using hnot)
  cases hsteps with
  | cut =>
    have hm : Replay.Moves V i j t t [] x.trace.world.verifier x x :=
      .of_world ht (List.append_nil _).symm rfl
    refine h.move hV hm rfl hsequential (fun _ hid => .inl hid) nofun
      (fun hid hnot => absurd hid hnot) hget (fun _ hid => hid) fun hret hret' => ?_
    cases hret.symm.trans hret'
  | @refused v hcut hp =>
    have hm : Replay.Moves V i j t t [] v x
        { x.setVerifier v with threadCutoff := i :: x.threadCutoff } :=
      .of_world ht (List.append_nil _).symm rfl
    refine h.move hV hm (hV.permit hp).1 hsequential (fun _ hid => .inl hid) nofun
      (fun hid hnot => absurd hid hnot) hget (fun _ hid => hid) fun hret hret' => ?_
    cases hret.symm.trans hret'
  | @returned v hcut hp hret =>
    have hm := Replay.moves_returned (R := R) (V := V) ht v
    refine h.move hV hm (hV.permit hp).1 hsequential (fun _ => mem_addStarted.mp) ?_ (hpermit hp)
      hget hadd fun hnot => ?_
    · intro e he a ha
      cases (hstartEvents e he).symm.trans ha
    · cases hnot.symm.trans hret
  | @terminated v hcut hp hret hmode hlast =>
    obtain ⟨t', ext, -, rfl, hm⟩ := Replay.moves_terminated (R := R) (V := V) ht hret v
    have hnot (lock : LockMode) : ¬ lock.Acquiring t'.name := by
      rw [hm.info]
      exact hC.completed i j t hget ht hret hmode hlast lock
    refine h.move hV hm (hV.permit hp).1 hsequential (fun _ => mem_addStarted.mp) ?_ (hpermit hp)
      hget hadd fun _ _ => ⟨hself, ?_, ?_⟩
    · intro e he a ha
      have hnone : resp e = none :=
        (List.mem_append.mp he).elim (hstartEvents e) (hR.terminated v hG ht e)
      cases hnone.symm.trans ha
    · rintro ⟨⟨lock, hname⟩, -⟩
      exact hnot lock (.inr hname)
    · intro lock hacquires
      exact absurd ((LockMode.cases_of_acquires hacquires).imp_right And.left) (hnot lock)
  | @resumed v tr hcut hp hret hmode htr =>
    obtain ⟨t', ext, hret', hval, rfl, hm⟩ := Replay.moves_resumed ht hret htr
    refine h.move hV hm (hV.permit hp).1 hsequential (fun _ => mem_addStarted.mp) ?_ (hpermit hp)
      hget hadd fun _ hreturned => ⟨hself, ?_, ?_⟩
    · intro e he a ha
      rw [List.mem_append, List.mem_append] at he
      obtain (he | he) | he := he
      · cases (hstartEvents e he).symm.trans ha
      · obtain ⟨hinfo, hi⟩ := hR.resumed v hG ht hret e he a ha
        exact ⟨hinfo, hi, hself⟩
      · split at he
        · obtain ⟨hinfo, hi⟩ := hR.response t' i e he a ha
          exact ⟨hinfo.trans hm.info, hi, hself⟩
        · cases he
    · obtain ⟨r, hr⟩ := Option.isSome_iff_exists.mp (hret'.symm.trans hreturned)
      rintro ⟨⟨lock, hname⟩, hnone⟩
      rw [hval, hr] at hnone
      rw [hm.info] at hname
      exact hC.bool i j t r hget ht hr ⟨lock, hname⟩ hnone
    · intro lock _
      obtain ⟨r, hr⟩ := Option.isSome_iff_exists.mp (hret'.symm.trans hreturned)
      have hval' : t'.ret = some r := by rw [hval, hr]; rfl
      obtain ⟨e, he, hresp⟩ := hR.finish v hG ht hret hr hm.info hval'
      have hseq : tr.seq = _ := hm.seq
      refine ⟨e, ?_, hresp⟩
      rw [hseq, hr]
      simp only [List.mem_append, Option.isSome_some, if_true] at he ⊢
      obtain he | he | he := he
      · exact .inl he
      · exact .inr (.inl (.inr he))
      · exact .inr (.inr he)

/-- **What is kept by runs whose steps all meet the condition.** -/
theorem reached (hR : R.Answers V mode resp G) {init : Replay.Logged P ν E → Prop}
    (hinit : ∀ s, init s → Owned view resp asBool s ∧ G s.1) {s : Replay.Logged P ν E}
    (hs : Reached (Replay.LoggedStep R V mode) (Replay.Condition asBool mode) init s) :
    Owned view resp asBool s := by
  have hinv : Owned view resp asBool s ∧ G s.1 := by
    refine hs.invariant hinit fun s m s' h hC hstep => ?_
    exact ⟨h.1.step hV hR h.2 hC hstep, hR.step h.2 hstep.1⟩
  exact hinv.1

/-- Nothing is owned when a replay begins. -/
theorem of_reset {w : World P ν} (hw : w.Serial) (howner : (view w.verifier).exclusiveOwner = none)
    (hcounts : ∀ k, (view w.verifier).sharedCounts k = 0) :
    Owned view resp asBool ({ trace := ⟨w.resetCurrentRound V, [], []⟩ }, []) := by
  have hview : view (w.resetCurrentRound V).verifier = view w.verifier :=
    hV.reset w.verifier w.threadsCount
  refine ⟨hw.congr (World.infos_resetCurrentRound V) rfl, nofun, nofun, fun mode k howns => ?_,
    fun k => ?_, nofun, nofun⟩
  · have howns := howns.congr hview
    cases mode with
    | exclusive => cases howner.symm.trans howns
    | shared => exact absurd (hcounts k) (Nat.ne_of_gt howns)
  · rw [hview, hcounts k]
    exact Nat.zero_le 1

end

end Owned

/-! ### The two schedulers -/

/-- The responses of `StrategyScheduler`. -/
def HistoryEvent.answer : HistoryEvent P → Option (Answer P)
  | invoke _ _ => none
  | response t r i => some (t, r, i)

/-- The responses and follow-up responses of `DualStrategyScheduler`. -/
def DualHistoryEvent.answer : DualHistoryEvent P → Option (Answer P)
  | ordinary e => e.answer
  | followUpResponse t r i => some (t, r, i)
  | _ => none

theorem ordinaryRecorder_answers (V : Verifier P ν) (mode : ReplayMode) :
    ordinaryRecorder.Answers V mode HistoryEvent.answer fun _ => True where
  step _ _ := trivial
  start _ _ := rfl
  response t i e he a ha := by
    rw [List.mem_singleton.mp he] at ha
    obtain rfl := Option.some.inj ha
    exact ⟨rfl, rfl⟩
  terminated _ _ _ := nofun
  resumed _ _ _ _ := nofun
  finish _ _ _ _ _ hinfo _ :=
    ⟨_, List.mem_append_right _ (List.mem_append_right _ (List.mem_singleton_self _)),
      by rw [← hinfo]; rfl⟩

namespace DualMethods

variable {D : DualMethods}

theorem Phased.admitted {start : ℕ} {x : Replay D.program ν (DualHistoryEvent D.program)}
    (h : Phased start x.trace) (i j : ℕ) (t : Task D.program) (v : ν) :
    Phased start ((x.setVerifier v).admitted i j t) := by
  have hcleared : Phased start (x.admitted i j t) := h.clearWakeupCondition i j rfl rfl
  exact hcleared.of_threads rfl rfl rfl rfl rfl

theorem answer_emittedEvent {t : TaskInfo D.program} {i : ℕ}
    {e : DualEventKind × Option D.program.Val} {a : Answer D.program}
    (h : (emittedEvent t i e).answer = some a) : a.1 = t ∧ a.2.2 = i := by
  obtain ⟨kind, r⟩ := e
  cases kind with
  | requestResponse => cases h
  | followUpInvoke => cases h
  | followUpResponse =>
    obtain rfl := Option.some.inj h
    exact ⟨rfl, rfl⟩

theorem dualRecorder_answers (hD : ¬ D.Fails) (V : Verifier D.program ν)
    (mode : ReplayMode) (start : ℕ) :
    dualRecorder.Answers V mode DualHistoryEvent.answer fun x =>
      Phased start x.trace ∧ Marks x.started x.trace.seq where
  step := phased_step
  start t i := by
    cases hdual : t.isDual with
    | true => rw [dualRecorder_start_of_isDual hdual]; rfl
    | false => rw [dualRecorder_start_of_not_isDual hdual]; rfl
  response t i e he a ha := by
    change e ∈ if t.isDual then [] else [.ordinary (.response t.toTaskInfo t.ret i)] at he
    split at he
    · cases he
    · rw [List.mem_singleton.mp he] at ha
      obtain rfl := Option.some.inj ha
      exact ⟨rfl, rfl⟩
  terminated {x i j t} v hG ht e he := by
    rw [dualRecorder_emits.drainEvents_nil _ ((hG.1.admitted i j t v).quiet_terminate i j)] at he
    cases he
  resumed {x i j t} v hG ht hret e he a ha := by
    rw [(hG.1.admitted i j t v).drainEvents (Replay.admitted_task? (x := x.setVerifier v) ht)
      hret] at he
    obtain ⟨b, -, rfl⟩ := List.mem_map.mp he
    exact answer_emittedEvent ha
  finish {x i j t t' r} v hG ht hret hr hinfo hval := by
    have hphased := hG.1.admitted i j t v
    have hadmitted := Replay.admitted_task? (x := x.setVerifier v) ht
    rw [hphased.drainEvents hadmitted hret]
    cases hdual : t.isDual with
    | false =>
      refine ⟨.ordinary (.response t'.toTaskInfo t'.ret i), ?_, by rw [hinfo]; rfl⟩
      have hdual' : t'.isDual = false := (congrArg TaskInfo.isDual hinfo).trans hdual
      refine List.mem_append_right _ (List.mem_append_right _ ?_)
      show _ ∈ if t'.isDual then [] else [_]
      rw [hdual']
      exact List.mem_singleton_self _
    | true =>
      have htask := hG.1.tasks i j t ht
      obtain ⟨l, hl, -, hemitted, -⟩ := htask.events hdual
      have hreaches := resume_reaches t.id i ((htask.isDual hret).trans hdual)
        x.trace.world.target x.trace.world.blocks x.trace.world.env
      rw [← hemitted hret] at hreaches
      have hall : l ++ (x.trace.world.stepOf i t).1.emitted = phases r :=
        (hreaches.returns r hr).resolve_right fun hfails => hD hfails.1
      have hmem : (DualEventKind.followUpResponse, some r) ∈
          l ++ (x.trace.world.stepOf i t).1.emitted := by
        rw [hall]
        exact List.mem_append_right _ (List.mem_cons_of_mem _ (List.mem_singleton_self _))
      refine ⟨.followUpResponse t.toTaskInfo (some r) i, ?_, by rw [hval]; rfl⟩
      rw [List.mem_append] at hmem ⊢
      obtain hmem | hmem := hmem
      · have hevent : DualHistoryEvent.followUpResponse t.toTaskInfo (some r) i ∈
            eventsOf t.id x.trace.seq := by
          rw [hl]
          exact List.mem_append_right _ (List.mem_map.mpr ⟨_, hmem, rfl⟩)
        exact .inl (List.mem_of_mem_filter hevent)
      · exact .inr (List.mem_append_left _ (List.mem_map.mpr ⟨_, hmem, rfl⟩))

end DualMethods

/-! ### The three verifiers -/

/-- The owner that the verifier of a mutex keeps. -/
def mutexView (v : ReserveState (Option ℕ)) : SharedOwners := ⟨v.base, fun _ => 0⟩

/-- The owners that the verifier of a shared mutex keeps. -/
def sharedMutexView (v : ReserveState SharedOwners) : SharedOwners := v.base

theorem tracks_mutex (R : TaskReader (Task P)) (pol : WorkloadPolicy) :
    Tracks (reservePolicyVerifier pol (mutexVerifierBase R)) R mutexView := by
  have hbase {v v' : ReserveState (Option ℕ)} (h : v'.base = v.base) : mutexView v' = mutexView v :=
    congrArg (SharedOwners.mk · fun _ => 0) h
  constructor
  · exact Asks.keeps mutexView (fun _ _ _ _ => rfl) (fun _ _ _ _ => rfl) fun _ _ _ => rfl
  · exact fun v name i id => hbase (mutex_base_call R pol v (.onTaskStarted name i id))
  · exact fun v t i => rfl
  · exact fun v t i k => Nat.zero_le _
  · exact fun v name i ctx _ _ => rfl
  · exact fun v n => rfl

theorem tracks_sharedMutex (R : TaskReader (Task P)) :
    Tracks (follyCoroSharedMutexVerifier R) R sharedMutexView := by
  constructor
  · exact Asks.keeps sharedMutexView (fun _ _ _ _ => rfl) (fun _ _ _ _ => rfl) fun _ _ _ => rfl
  · exact fun v name i id => shared_base_call R sharedMutexPolicy v (.onTaskStarted name i id)
  · exact fun v t i => rfl
  · exact fun v t i k => Nat.le_refl _
  · intro v name i ctx hstart hname
    unfold StrategyTaskVerifier.verifyTaskStart at hstart
    dsimp only at hstart
    split at hstart
    · change (if name = "lock" ∨ name = "try_lock" ∨ name = "lock_shared" ∨
          name = "try_lock_shared" then _ else _) = true at hstart
      rw [if_pos (.inr (.inr hname)), Bool.and_eq_true, beq_iff_eq] at hstart
      exact hstart.2
    · rename_i hnot
      exact absurd hstart hnot
  · exact fun v n => rfl

/-! ### Replays -/

/-- What is to be shown. -/
structure OwnersRecorded (view : ν → SharedOwners) (resp : E → Option (Answer P))
    (asBool : P.Val → Option Bool) (s : Replay.Logged P ν E) : Prop where
  /-- No return value is read that is not there. -/
  reads : ∀ (u : Task P) (i : ℕ), Entry.finished u i ∈ s.2 → ¬ u.Throws asBool
  /-- The owners have locked in this replay. -/
  owns : ∀ mode k, Owns view s.1.trace.world.verifier mode k → Held resp asBool mode k s.2

/-- A replay of a round begins. -/
def Replay.Begins (V : Verifier P ν) (w : World P ν) (s : Replay.Logged P ν E) :
    Prop :=
  s = ({ trace := ⟨w.resetCurrentRound V, [], []⟩ }, [])

/-- The verifier knows no owner. -/
def Unowned (view : ν → SharedOwners) (v : ν) : Prop :=
  (view v).exclusiveOwner = none ∧ ∀ k, (view v).sharedCounts k = 0

section Replays

variable (view : ν → SharedOwners)

/-- The states of replays of `StrategyScheduler` that meet the condition, and begin without an
owner, have only owners that are recorded. -/
def OrdinaryReplaysRecord (asBool : P.Val → Option Bool) (V : Verifier P ν) :
    Prop :=
  ∀ mode c s, LifeCycle.Reachable V false c → Unowned view c.world.verifier →
    Reached (Replay.LoggedStep ordinaryRecorder V mode) (Replay.Condition asBool mode)
      (Replay.Begins V c.world) s → OwnersRecorded view HistoryEvent.answer asBool s

/-- The same for `DualStrategyScheduler`, whose tasks are those of a target with dual methods. -/
def DualReplaysRecord {D : DualMethods} (asBool : D.program.Val → Option Bool)
    (V : Verifier D.program ν) : Prop :=
  ∀ mode c s, LifeCycle.Reachable V true c → DualMethods.BuiltTasks c.world →
    Unowned view c.world.verifier →
    Reached (Replay.LoggedStep dualRecorder V mode) (Replay.Condition asBool mode)
      (Replay.Begins V c.world) s → OwnersRecorded view DualHistoryEvent.answer asBool s

variable {view}

theorem ordinaryReplaysRecord {V : Verifier P ν} (hV : Tracks V (boolReader asBool) view) :
    OrdinaryReplaysRecord view asBool V := by
  intro mode c s hc howner hs
  have hserial := LifeCycle.serial_of_inv (LifeCycle.inv_of_reachable hc)
  have howned : Owned view HistoryEvent.answer asBool s := by
    refine Owned.reached hV (ordinaryRecorder_answers V mode) (fun s hs => ?_) hs
    obtain rfl := hs
    exact ⟨.of_reset hV hserial howner.1 howner.2, trivial⟩
  exact ⟨howned.reads, howned.owns⟩

theorem dualReplaysRecord {D : DualMethods} (hD : ¬ D.Fails)
    {asBool : D.program.Val → Option Bool} {V : Verifier D.program ν}
    (hV : Tracks V (boolReader asBool) view) : DualReplaysRecord view asBool V := by
  intro mode c s hc hbuilt howner hs
  have hserial := LifeCycle.serial_of_inv (LifeCycle.inv_of_reachable hc)
  have howned : Owned view DualHistoryEvent.answer asBool s := by
    refine Owned.reached hV (DualMethods.dualRecorder_answers hD V mode c.world.seqno)
      (fun s hs => ?_) hs
    obtain rfl := hs
    exact ⟨.of_reset hV hserial howner.1 howner.2, .reset hserial hbuilt, .nil⟩
  exact ⟨howned.reads, howned.owns⟩

end Replays

/-- **Owners are recorded, if all steps meet the condition.** In a replay of either scheduler that
begins without an owner, in which no operation that acquires a lock is terminated by force, the
tasks of a thread do not overlap and every `try_lock` that returns gives a Boolean, no verifier of
locks reads a return value that is not there, and a thread is an owner only if the history has the
response of its lock and the thread has finished no unlock since. -/
theorem owners_recorded (asBool : P.Val → Option Bool) {D : DualMethods} (hD : ¬ D.Fails)
    (dualBool : D.program.Val → Option Bool) :
    (OrdinaryReplaysRecord mutexView asBool (libcoroMutexVerifier (boolReader asBool)) ∧
      OrdinaryReplaysRecord mutexView asBool (follyCoroMutexVerifier (boolReader asBool)) ∧
      OrdinaryReplaysRecord sharedMutexView asBool
        (follyCoroSharedMutexVerifier (boolReader asBool))) ∧
    DualReplaysRecord mutexView dualBool (libcoroMutexVerifier (boolReader dualBool)) ∧
      DualReplaysRecord mutexView dualBool (follyCoroMutexVerifier (boolReader dualBool)) ∧
      DualReplaysRecord sharedMutexView dualBool
        (follyCoroSharedMutexVerifier (boolReader dualBool)) :=
  ⟨⟨ordinaryReplaysRecord (tracks_mutex _ mutexPolicy),
      ordinaryReplaysRecord (tracks_mutex _ mutexPolicy),
      ordinaryReplaysRecord (tracks_sharedMutex _)⟩,
    dualReplaysRecord hD (tracks_mutex _ mutexPolicy),
    dualReplaysRecord hD (tracks_mutex _ mutexPolicy),
    dualReplaysRecord hD (tracks_sharedMutex _)⟩

/-! ### A replay of a mutex -/

/-- The values of the mutex are Booleans. -/
def mutexBool (b : mutexProgram.Val) : Option Bool := some b

/-- The verifier of the mutex. -/
abbrev lockVerifier := libcoroMutexVerifier (boolReader mutexBool)

/-- A round in which one thread locks the mutex and the other one tries to. -/
abbrev lockRound : World mutexProgram (ReserveState (Option ℕ)) :=
  (World.new 2 false () { base := none }).setCustomRound lockVerifier
    [mutexBuilders.take 1, (mutexBuilders.drop 1).take 1]

theorem reachable_lockRound : LifeCycle.Reachable lockVerifier false ⟨.round, lockRound⟩ :=
  (Reached.init ⟨2, false, (), { base := none }, rfl⟩).step trivial (.custom _ _ rfl)

/-- The beginning of a replay of this round. -/
abbrev lockReplay :
    Replay.Logged mutexProgram (ReserveState (Option ℕ)) (HistoryEvent mutexProgram) :=
  ({ trace := ⟨lockRound.resetCurrentRound lockVerifier, [], []⟩ }, [])

/-- The replay after its first step, in which a task occurs for the last time. -/
abbrev lockStep (mode : ReplayMode) (id : ℕ) :
    Replay.Logged mutexProgram (ReserveState (Option ℕ)) (HistoryEvent mutexProgram) :=
  let x := (lockReplay.1.step ordinaryRecorder lockVerifier mode true id).getD lockReplay.1
  (x, [] ++ Replay.entries id lockReplay.1 x)

theorem owners_recorded_lockStep :
    Owns mutexView (lockStep .noForceComplete 0).1.trace.world.verifier .exclusive 0 ∧
      Held HistoryEvent.answer mutexBool .exclusive 0 (lockStep .noForceComplete 0).2 := by
  have hD : ¬ DualMethods.readyMethods.Fails := by
    rintro ⟨_, _, _, _, _, _, _, h⟩
    cases h
  have hC : Replay.Condition mutexBool .noForceComplete lockReplay (0, true) := by
    refine ⟨fun _ _ _ _ _ _ hmode => ?_, fun _ _ _ _ _ _ _ hstarted => ?_,
      fun _ _ _ r _ _ _ _ => Option.some_ne_none r⟩
    · cases hmode
    · cases hstarted
  have hstep : Replay.LoggedStep ordinaryRecorder lockVerifier .noForceComplete lockReplay (0, true)
      (lockStep .noForceComplete 0) := ⟨rfl, rfl⟩
  have hs : Reached (Replay.LoggedStep ordinaryRecorder lockVerifier .noForceComplete)
      (Replay.Condition mutexBool .noForceComplete) (Replay.Begins lockVerifier lockRound)
      (lockStep .noForceComplete 0) := .step (.init rfl) hC hstep
  exact ⟨rfl, ((owners_recorded mutexBool hD fun _ => none).1.1 .noForceComplete _ _
    reachable_lockRound
    ⟨rfl, fun _ => rfl⟩ hs).owns .exclusive 0 rfl⟩

/-- **A lock and a `try_lock` that are terminated.** With `CompleteOnLast` the only step of the lock
is its termination; its thread is the owner then, without a response in the history. The return
value of the `try_lock` is read, and there is none. -/
theorem owner_without_response :
    (Replay.LoggedStep ordinaryRecorder lockVerifier .completeOnLast lockReplay (0, true)
        (lockStep .completeOnLast 0) ∧
      Owns mutexView (lockStep .completeOnLast 0).1.trace.world.verifier .exclusive 0 ∧
      ¬ Held HistoryEvent.answer mutexBool .exclusive 0 (lockStep .completeOnLast 0).2) ∧
    Replay.LoggedStep ordinaryRecorder lockVerifier .completeOnLast lockReplay (1, true)
        (lockStep .completeOnLast 1) ∧
      ∃ u, Entry.finished u 1 ∈ (lockStep .completeOnLast 1).2 ∧ u.Throws mutexBool := by
  have hlock : (lockStep .completeOnLast 0).2 =
      [.recorded (.invoke ⟨0, "lock", (), false⟩ 0),
        .finished ⟨⟨0, "lock", (), false⟩, fun _ => .lock, .lock, true, none, none, 0, []⟩ 0] := rfl
  have htry : (lockStep .completeOnLast 1).2 =
      [.recorded (.invoke ⟨1, "try_lock", (), false⟩ 1),
        .finished ⟨⟨1, "try_lock", (), false⟩, fun _ => .tryLock, .tryLock, true, none, none, 0,
          []⟩ 1] := rfl
  refine ⟨⟨⟨rfl, rfl⟩, rfl, ?_⟩, ⟨rfl, rfl⟩, ?_⟩
  · rw [hlock]
    rintro ⟨before, e, after, a, hlog, hresp, -⟩
    have hmem : Entry.recorded e ∈ before ++ Entry.recorded e :: after := by simp
    rw [← hlog, List.mem_cons, List.mem_singleton] at hmem
    obtain hmem | hmem := hmem
    · rw [Entry.recorded.inj hmem] at hresp
      cases hresp
    · cases hmem
  · rw [htry]
    exact ⟨_, List.mem_cons_of_mem _ (List.mem_singleton_self _), ⟨.exclusive, rfl⟩, rfl⟩

end Scheduler

end LTest
