import LTest.Scheduler.LifeCycle

/-!
# Rolling back a deadlock

When a round of `DualStrategyScheduler` ends in a deadlock, `TryRollbackDeadlock` looks for a
blocked task whose method has progress methods, and explores rounds in which a task with one of
these methods stands in for it: the blocked task is marked as removed, and the new one is appended
to the same thread. If nothing is found, the changes are taken back before the next method is tried.

The appended task is known by its id, which is greater than all ids of the round, and explorations
keep ids and removed tasks. So it is still the last task of its thread when it is dropped, and no
other mark is taken away with it. The assertion in the destructor of the task that is dropped
(`LifeCycle.respects_iff`) is left out: the results hold of builds without assertions too.

## Main definitions

* `World.findRollbackCandidate` — `FindRollbackCandidate`
* `tryRollbackDeadlock` — `TryRollbackDeadlock`, with the rounds it explores
* `Alternative` — a round in which a progress task stands in for a blocked one

## Main results

* `exploreRound_kept` — explorations keep ids and removed tasks
* `Restored.tryMethod` — one alternative is explored and taken back
* `tryRollbackDeadlock_restores` — the headline
-/

namespace LTest

namespace Scheduler

variable {P : Program} {ν ρ E : Type}

/-! ### Candidates -/

/-- `RollbackCandidate`. -/
structure RollbackCandidate where
  /-- The task. -/
  taskId : ℕ
  /-- Its thread. -/
  threadId : ℕ
  /-- Its method. -/
  waitMethod : String
  /-- The methods that may end its wait. -/
  progressMethods : List String

/-- `HasTaskBuilder`. -/
def hasTaskBuilder (constructors : List (TaskBuilder P)) (methodName : String) : Bool :=
  constructors.any (·.name == methodName)

namespace World

variable (getDeadlockProgressMethods : ν → String → List String)
  (constructors : List (TaskBuilder P)) (w : World P ν)

/-- The progress methods of a task that have a builder. -/
def progressMethods (t : Task P) : List String :=
  (getDeadlockProgressMethods w.verifier t.name).filter (hasTaskBuilder constructors)

/-- The candidate for a task with the given id: it is not removed, it is blocked, and there are
methods that could unblock it. -/
def rollbackCandidate (id : ℕ) : Option RollbackCandidate :=
  if w.isTaskRemoved id then none
  else
    match w.getTask id with
    | some (i, j) =>
      match w.task? i j with
      | some t =>
        if t.returned || !w.isBlocked t then none
        else
          match w.progressMethods getDeadlockProgressMethods constructors t with
          | [] => none
          | m :: ms => some ⟨id, i, t.name, m :: ms⟩
      | none => none
    | none => none

/-- The loop of `FindRollbackCandidate`; `seen` are the tasks it has looked at. -/
def searchRollbackCandidate (seen : List ℕ) : List ℕ → Option RollbackCandidate
  | [] => none
  | id :: ids =>
    if seen.contains id then searchRollbackCandidate seen ids
    else
      match w.rollbackCandidate getDeadlockProgressMethods constructors id with
      | some c => some c
      | none => searchRollbackCandidate (id :: seen) ids

/-- `FindRollbackCandidate`: the tasks of the full history are visited from the last one on. -/
def findRollbackCandidate (full : List ℕ) : Option RollbackCandidate :=
  w.searchRollbackCandidate getDeadlockProgressMethods constructors [] full.reverse

end World

/-! ### Trying the progress methods -/

/-- A loop that is left with the first result. There is no outcome if the body does not return. -/
def untilResult {α σ : Type} (body : α → σ → Option (Result E) × σ) :
    List α → σ → Option (Result E) × σ
  | [], x => (some none, x)
  | a :: l, x =>
    match body a x with
    | (some none, x) => untilResult body l x
    | r => r

/-- The variables in `TryRollbackDeadlock`. -/
structure Rollback (P : Program) (ν ρ : Type) where
  /-- The round. -/
  world : World P ν
  /-- The variables of the strategy. -/
  strategy : ρ
  /-- The rounds that `ExploreRound` was called with; nothing reads them. -/
  explored : List (World P ν) := []

section TryRollback

variable {V : Verifier P ν} (S : Strategy V ρ)
  (constructors : ρ → List (TaskBuilder P))
  (getDeadlockProgressMethods : ν → String → List String)
  (check : List (DualHistoryEvent P) → Bool) (policy : DeadlockPolicy) (fuel : ℕ)

namespace Rollback

/-- The call of `ExploreRound`. -/
def explore (w : World P ν) (x : Rollback P ν ρ) :
    Option (Result (DualHistoryEvent P)) × Rollback P ν ρ :=
  match DualStrategyScheduler.exploreRound S check policy fuel 1 w x.strategy with
  | some (result, e) => (some result, ⟨e.trace.world, e.strategy, x.explored ++ [w]⟩)
  | none => (none, ⟨w, x.strategy, x.explored ++ [w]⟩)

/-- The round is reset, the appended task is dropped, and the candidate is a task of the round
again. -/
def undo (c : RollbackCandidate) (appended : ℕ) (x : Rollback P ν ρ) : Rollback P ν ρ :=
  let r := DualStrategyScheduler.exploreReset S x.world x.strategy
  { x with
    world := (r.1.removeLastTaskForReplay c.threadId appended).2.setTaskRemoved c.taskId false
    strategy := r.2 }

/-- The body of the loops: a task with a progress method stands in for the candidate. -/
def tryMethod (c : RollbackCandidate) (progressMethod : String) (x : Rollback P ν ρ) :
    Option (Result (DualHistoryEvent P)) × Rollback P ν ρ :=
  let w := x.world.setTaskRemoved c.taskId true
  match w.appendTaskForReplay (constructors x.strategy) progressMethod c.threadId with
  | none => (some none, { x with world := w.setTaskRemoved c.taskId false })
  | some (appended, w) =>
    match x.explore S check policy fuel w with
    | (some none, x) => (some none, x.undo S c appended)
    | r => r

/-- An iteration of the outer loop. -/
def attempt (c : RollbackCandidate) (x : Rollback P ν ρ) :
    Option (Result (DualHistoryEvent P)) × Rollback P ν ρ :=
  untilResult (tryMethod S constructors check policy fuel c) c.progressMethods x

end Rollback

/-- The number of attempts; `exploration_runs` is cast to `int`. -/
def rollbackAttempts (explorationRuns : ℕ) : ℕ :=
  (max 1 (BitVec.ofNat 32 explorationRuns).toInt).toNat

/-- `TryRollbackDeadlock`: its outcome, if it returns, and what it leaves. -/
def tryRollbackDeadlock (explorationRuns : ℕ) (full : List ℕ) (w : World P ν) (s : ρ) :
    Option (Result (DualHistoryEvent P)) × Rollback P ν ρ :=
  match w.findRollbackCandidate getDeadlockProgressMethods (constructors s) full with
  | none => (some none, ⟨w, s, []⟩)
  | some c =>
    untilResult (fun _ => Rollback.attempt S constructors check policy fuel c)
      (List.range (rollbackAttempts explorationRuns)) ⟨w, s, []⟩

end TryRollback

/-! ### What explorations keep -/

section Kept

variable {R : Recorder P E} {V : Verifier P ν} {S : Strategy V ρ}
  {reset : World P ν → ρ → World P ν × ρ} {check : List E → Bool} {policy : DeadlockPolicy}
  {fuel : ℕ}

/-- **Explorations keep** the ids and the removed tasks. -/
theorem exploreRound_kept (hreset : ∀ (w : World P ν) s, w.Kept (reset w s).1) {runs : ℕ}
    {w : World P ν} {s : ρ} {result : Result E} {x : Explore P ν ρ E}
    (h : exploreRound R S reset check policy fuel runs w s = some (result, x)) :
    w.Kept x.trace.world :=
  exploreRound_induction (Q := fun w' => w.Kept w') (fun w' s hw' =>
    (hw'.trans (hreset w' s)).trans (.of_plays (exploreAttempt_plays reset w' s))) (.refl w) h

end Kept

/-! ### The candidate -/

/-- The candidate stands for a task of the round that is blocked and not removed. -/
structure RollbackCandidate.IsOf (getDeadlockProgressMethods : ν → String → List String)
    (w : World P ν) (j : ℕ) (t : Task P) (c : RollbackCandidate) : Prop where
  task : w.task? c.threadId j = some t
  id : t.id = c.taskId
  returned : t.returned = false
  blocked : w.isBlocked t = true
  not_removed : c.taskId ∉ w.removed
  progress : ∀ m ∈ c.progressMethods, m ∈ getDeadlockProgressMethods w.verifier t.name

namespace World

variable {getDeadlockProgressMethods : ν → String → List String}
  {constructors : List (TaskBuilder P)} {w : World P ν} {c : RollbackCandidate}

theorem rollbackCandidate_some {id : ℕ}
    (h : w.rollbackCandidate getDeadlockProgressMethods constructors id = some c) :
    ∃ j t, c.IsOf getDeadlockProgressMethods w j t := by
  unfold rollbackCandidate at h
  split at h
  · cases h
  rename_i hremoved
  split at h
  · rename_i i j hget
    split at h
    · rename_i t ht
      split at h
      · cases h
      rename_i hblocked
      split at h
      · cases h
      · rename_i m ms hmethods
        obtain rfl := Option.some.inj h
        obtain ⟨t', ht', hid⟩ := getTask_eq_some hget
        obtain rfl := Option.some.inj (ht'.symm.trans ht)
        rw [Bool.or_eq_true, not_or] at hblocked
        refine ⟨j, t', ht, hid, by simpa using hblocked.1, by simpa using hblocked.2,
          by simpa [isTaskRemoved] using hremoved, fun m' hm' => ?_⟩
        exact List.mem_of_mem_filter (hmethods.symm ▸ hm')
    · cases h
  · cases h

theorem searchRollbackCandidate_some {seen ids : List ℕ}
    (h : w.searchRollbackCandidate getDeadlockProgressMethods constructors seen ids = some c) :
    ∃ j t, c.IsOf getDeadlockProgressMethods w j t := by
  induction ids generalizing seen with
  | nil => cases h
  | cons id ids ih =>
    rw [searchRollbackCandidate] at h
    split at h
    · exact ih h
    · split at h
      · rename_i c' hcandidate
        exact rollbackCandidate_some (hcandidate.trans h)
      · exact ih h

end World

/-! ### Alternatives -/

/-- The round `w'` is the round `w` with a blocked task of a thread marked as removed, and with a
new task at the end of this thread whose method is a progress method of the blocked one. -/
structure StandsIn (getDeadlockProgressMethods : ν → String → List String) (w w' : World P ν)
    (i j : ℕ) (t : Task P) (new : TaskInfo P) : Prop where
  task : w.task? i j = some t
  returned : t.returned = false
  blocked : w.isBlocked t = true
  not_removed : t.id ∉ w.removed
  progress : new.name ∈ getDeadlockProgressMethods w.verifier t.name
  fresh : ∀ i' j' u, w.task? i' j' = some u → u.id ≠ new.id
  infos : w'.infos = Grid.push w.infos i new
  removed : w'.removed = insert t.id w.removed
  new_not_removed : new.id ∉ w'.removed

/-- A round in which a progress task stands in for a blocked one. -/
def Alternative (getDeadlockProgressMethods : ν → String → List String) (w w' : World P ν) : Prop :=
  ∃ i j t new, StandsIn getDeadlockProgressMethods w w' i j t new

/-- The rounds that were explored are alternatives, and they have been taken back. -/
structure Restored (getDeadlockProgressMethods : ν → String → List String) (w : World P ν)
    (x : Rollback P ν ρ) : Prop where
  infos : x.world.infos = w.infos
  removed : x.world.removed = w.removed
  newTaskId : w.newTaskId ≤ x.world.newTaskId
  explored : ∀ w' ∈ x.explored, Alternative getDeadlockProgressMethods w w'

section Restored

variable {V : Verifier P ν} {S : Strategy V ρ}
  {constructors : ρ → List (TaskBuilder P)}
  {getDeadlockProgressMethods : ν → String → List String}
  {check : List (DualHistoryEvent P) → Bool} {policy : DeadlockPolicy} {fuel : ℕ}
  {w : World P ν} {x : Rollback P ν ρ} {c : RollbackCandidate} {j : ℕ} {t : Task P}

/-- An iteration of a loop whose alternatives are taken back: all that were explored are
alternatives, and they have been taken back if there is no result. -/
def Restores (getDeadlockProgressMethods : ν → String → List String) (w : World P ν)
    (r : Option (Result E) × Rollback P ν ρ) : Prop :=
  (∀ w' ∈ r.2.explored, Alternative getDeadlockProgressMethods w w') ∧
    (r.1 = some none → Restored getDeadlockProgressMethods w r.2)

theorem Restores.untilResult {α : Type}
    {body : α → Rollback P ν ρ → Option (Result E) × Rollback P ν ρ} {l : List α}
    (hbody : ∀ a ∈ l, ∀ x, Restored getDeadlockProgressMethods w x →
      Restores getDeadlockProgressMethods w (body a x))
    (h : Restored getDeadlockProgressMethods w x) :
    Restores getDeadlockProgressMethods w (untilResult body l x) := by
  induction l generalizing x with
  | nil => exact ⟨h.explored, fun _ => h⟩
  | cons a l ih =>
    have hfirst := hbody a List.mem_cons_self x h
    rw [Scheduler.untilResult]
    split
    · rename_i x' heq
      rw [heq] at hfirst
      exact ih (fun a ha => hbody a (List.mem_cons_of_mem _ ha)) (hfirst.2 rfl)
    · exact hfirst

section

variable (h : Restored getDeadlockProgressMethods w x)
include h

/-- The id of an appended task is new. -/
theorem Restored.newTaskId_notMem (hw : w.Serial) (hremoved : ∀ id ∈ w.removed, id < w.newTaskId)
    (hc : c.IsOf getDeadlockProgressMethods w j t) :
    x.world.newTaskId ∉ insert c.taskId w.removed := by
  have hlt : c.taskId < w.newTaskId := hc.id ▸ hw.lt c.threadId j t hc.task
  rw [Finset.mem_insert, not_or]
  exact ⟨Nat.ne_of_gt (hlt.trans_le h.newTaskId),
    fun hmem => Nat.not_lt_of_le h.newTaskId (hremoved _ hmem)⟩

theorem Restored.alternative (hw : w.Serial) (hremoved : ∀ id ∈ w.removed, id < w.newTaskId)
    (hc : c.IsOf getDeadlockProgressMethods w j t) {b : TaskBuilder P}
    (hb : b.name ∈ c.progressMethods) :
    Alternative getDeadlockProgressMethods w
      ((x.world.setTaskRemoved c.taskId true).build c.threadId b) := by
  refine ⟨c.threadId, j, t, ((x.world.setTaskRemoved c.taskId true).built c.threadId b).toTaskInfo,
    hc.task, hc.returned, hc.blocked, hc.id ▸ hc.not_removed, hc.progress _ hb,
    fun i' j' u hu => ?_, ?_, ?_, ?_⟩
  · exact Nat.ne_of_lt ((hw.lt i' j' u hu).trans_le h.newTaskId)
  · exact (World.infos_build b).trans (congrArg (Grid.push · _ _) h.infos)
  · show insert c.taskId x.world.removed = _
    rw [h.removed, hc.id]
  · show x.world.newTaskId ∉ insert c.taskId x.world.removed
    rw [h.removed]
    exact h.newTaskId_notMem hw hremoved hc

/-- The changes are taken back, whatever the exploration did with the round. -/
theorem Restored.undo {b : TaskBuilder P} (hi : c.threadId < x.world.threads.length)
    (hnot : c.taskId ∉ w.removed) (hnew : x.world.newTaskId ∉ insert c.taskId w.removed)
    {x' : Rollback P ν ρ}
    (hkept : ((x.world.setTaskRemoved c.taskId true).build c.threadId b).Kept x'.world)
    (hexplored : ∀ w' ∈ x'.explored, Alternative getDeadlockProgressMethods w w') :
    Restored getDeadlockProgressMethods w (x'.undo S c x.world.newTaskId) := by
  have hreset : ((x.world.setTaskRemoved c.taskId true).build c.threadId b).Kept
      (x'.world.resetExplorationState V) :=
    hkept.trans (World.kept_resetCurrentRound V x'.world)
  generalize hw' : x'.world.resetExplorationState V = w' at hreset
  have hinfos : w'.infos = Grid.push x.world.infos c.threadId
      ((x.world.setTaskRemoved c.taskId true).built c.threadId b).toTaskInfo :=
    hreset.infos.trans (World.infos_build b)
  have hback : (Grid.back? w'.infos c.threadId).map (·.id) = some x.world.newTaskId := by
    rw [hinfos, Grid.back?_push_self (by rwa [World.length_infos])]
    rfl
  have hworld : (x'.undo S c x.world.newTaskId).world =
      (World.setTaskRemoved x.world.newTaskId false
        { w' with threads := Grid.pop w'.threads c.threadId }).setTaskRemoved c.taskId false := by
    show ((x'.world.resetExplorationState V).removeLastTaskForReplay c.threadId
      x.world.newTaskId).2.setTaskRemoved c.taskId false = _
    rw [hw', World.removeLastTaskForReplay_eq hback]
  constructor
  case infos =>
    rw [hworld]
    show (Grid.pop w'.threads c.threadId).map (·.map Task.toTaskInfo) = w.infos
    rw [Grid.map_pop]
    show Grid.pop w'.infos c.threadId = w.infos
    rw [hinfos, Grid.pop_push, h.infos]
  case removed =>
    rw [hworld]
    show (w'.removed.erase x.world.newTaskId).erase c.taskId = w.removed
    have hmarked : w'.removed = insert c.taskId w.removed := by
      rw [hreset.removed, ← h.removed]
      rfl
    rw [hmarked, Finset.erase_eq_of_notMem hnew, Finset.erase_insert hnot]
  case newTaskId =>
    rw [hworld]
    show w.newTaskId ≤ w'.newTaskId
    rw [hreset.newTaskId]
    exact h.newTaskId.trans (Nat.le_succ _)
  case explored => exact hexplored

/-- **One alternative** is explored and taken back. -/
theorem Restored.tryMethod (hw : w.Serial) (hremoved : ∀ id ∈ w.removed, id < w.newTaskId)
    (hc : c.IsOf getDeadlockProgressMethods w j t) {progressMethod : String}
    (hm : progressMethod ∈ c.progressMethods) :
    Restores getDeadlockProgressMethods w
      (x.tryMethod S constructors check policy fuel c progressMethod) := by
  unfold Rollback.tryMethod
  dsimp only
  cases happend : (x.world.setTaskRemoved c.taskId true).appendTaskForReplay
      (constructors x.strategy) progressMethod c.threadId with
  | none =>
    refine ⟨h.explored, fun _ => ⟨h.infos, ?_, h.newTaskId, h.explored⟩⟩
    show (insert c.taskId x.world.removed).erase c.taskId = w.removed
    rw [h.removed, Finset.erase_insert hc.not_removed]
  | some r =>
    obtain ⟨appended, w₁⟩ := r
    obtain ⟨hi, b, rfl, rfl, rfl⟩ := World.appendTaskForReplay_some happend
    have halternative := h.alternative hw hremoved hc hm
    have hexplored : ∀ w' ∈ x.explored ++
        [(x.world.setTaskRemoved c.taskId true).build c.threadId b],
        Alternative getDeadlockProgressMethods w w' := by
      intro w' hw'
      obtain hw' | hw' := List.mem_append.1 hw'
      · exact h.explored w' hw'
      · exact List.mem_singleton.1 hw' ▸ halternative
    have hnew := h.newTaskId_notMem hw hremoved hc
    dsimp only [Rollback.explore]
    cases hexplore : DualStrategyScheduler.exploreRound S check policy fuel 1
        ((x.world.setTaskRemoved c.taskId true).build c.threadId b) x.strategy with
    | none => exact ⟨hexplored, nofun⟩
    | some r =>
      obtain ⟨result, e⟩ := r
      cases result with
      | some history => exact ⟨hexplored, nofun⟩
      | none =>
        have hkept := exploreRound_kept
          (fun w _ => World.kept_resetCurrentRound V w) hexplore
        exact ⟨hexplored, fun _ => h.undo hi hc.not_removed hnew hkept hexplored⟩

end

variable (S constructors getDeadlockProgressMethods check policy fuel) in
/-- The loops, from a round that has not been changed. -/
theorem restores_tryRollbackDeadlock (hw : w.Serial)
    (hremoved : ∀ id ∈ w.removed, id < w.newTaskId) (explorationRuns : ℕ) (full : List ℕ) (s : ρ) :
    Restores getDeadlockProgressMethods w (tryRollbackDeadlock S constructors
      getDeadlockProgressMethods check policy fuel explorationRuns full w s) := by
  have hstart : Restored getDeadlockProgressMethods w (⟨w, s, []⟩ : Rollback P ν ρ) :=
    ⟨rfl, rfl, Nat.le_refl _, nofun⟩
  unfold tryRollbackDeadlock
  split
  · exact ⟨hstart.explored, fun _ => hstart⟩
  · rename_i c hfind
    obtain ⟨j, t, hc⟩ := World.searchRollbackCandidate_some hfind
    refine Restores.untilResult (fun _ _ x hx => ?_) hstart
    exact Restores.untilResult (fun m hm x hx => hx.tryMethod hw hremoved hc hm) hx

end Restored

/-- **An unsuccessful rollback restores the round.** For every strategy, verifier, checker and
policy, every full history and every number of exploration runs: if `TryRollbackDeadlock` returns
nothing, the threads have the tasks they had and the same tasks are removed. In any case the rounds
it explores are the round with a progress task that stands in for a blocked one. Ids come from a
counter, and only tasks of the round are removed. -/
theorem tryRollbackDeadlock_restores {V : Verifier P ν} (S : Strategy V ρ)
    (constructors : ρ → List (TaskBuilder P))
    (getDeadlockProgressMethods : ν → String → List String)
    (check : List (DualHistoryEvent P) → Bool) (policy : DeadlockPolicy)
    (fuel explorationRuns : ℕ) (full : List ℕ) (w : World P ν) (s : ρ) (hw : w.Serial)
    (hremoved : ∀ id ∈ w.removed, id < w.newTaskId) :
    ((tryRollbackDeadlock S constructors getDeadlockProgressMethods check policy fuel
        explorationRuns full w s).1 = some none →
      (tryRollbackDeadlock S constructors getDeadlockProgressMethods check policy fuel
          explorationRuns full w s).2.world.infos = w.infos ∧
        (tryRollbackDeadlock S constructors getDeadlockProgressMethods check policy fuel
          explorationRuns full w s).2.world.removed = w.removed) ∧
      ∀ w' ∈ (tryRollbackDeadlock S constructors getDeadlockProgressMethods check policy fuel
        explorationRuns full w s).2.explored, Alternative getDeadlockProgressMethods w w' := by
  obtain ⟨hexplored, hrestored⟩ := restores_tryRollbackDeadlock S constructors
    getDeadlockProgressMethods check policy fuel hw hremoved explorationRuns full s
  exact ⟨fun hnone => ⟨(hrestored hnone).infos, (hrestored hnone).removed⟩, hexplored⟩

/-! ### A rollback in vain -/

namespace LifeCycle

/-- The rollback of the round in which a task waits, with two exploration runs. A signal could make
progress, and the checker accepts everything. -/
abbrev waitRollback :=
  tryRollbackDeadlock waitStrategy.toStrategy Base.constructors
    (fun _ name => if name = "wait" then ["signal"] else []) (fun _ => true) .rollback 3 2
    waitRound.trace.full waitRound.trace.world waitRound.strategy

/-- Two alternatives are explored, and the round is as before. -/
theorem waitRollback_restores :
    waitRollback.1.map Option.isSome = some false ∧ waitRollback.2.explored.length = 2 ∧
      waitRollback.2.world.infos = waitRound.trace.world.infos ∧
      waitRollback.2.world.removed = waitRound.trace.world.removed := by
  have hinv : Inv ⟨.round, waitRound.trace.world⟩ := inv_of_reachable reachable_waitRound
  have hremoved : ∀ id ∈ waitRound.trace.world.removed, id < waitRound.trace.world.newTaskId :=
    fun id hid => absurd (hinv.2 ▸ hid) (Finset.notMem_empty id)
  have hnone : waitRollback.1 = some none := rfl
  exact ⟨rfl, rfl, (tryRollbackDeadlock_restores _ _ _ _ _ _ _ _ _ _ hinv.1 hremoved).1 hnone⟩

end LifeCycle

end Scheduler

end LTest
