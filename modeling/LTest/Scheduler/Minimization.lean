import LTest.Scheduler.FullHistory
import Mathlib.Data.Finset.Lattice.Lemmas

/-!
# Greedy minimization

When a round was bad, the greedy minimizors try to remove its operations, one by one and then in
pairs. A removal is tried by replaying the interleaving without the tasks, or by exploring the round
with the tasks marked as removed. It is accepted if the result is a bad history that is still
meaningful.

## Main definitions

* `ModelChecker` — a checker of histories
* `Recorder.isMeaningfulBadResult` — `IsMeaningfulBadResult`
* `GreedyRoundMinimizor`, `onTasksRemoved` — the two minimizors and what they try
* `Minimization`, `minimize` — `GreedyRoundMinimizorT::Minimize`
* `Minimized` — what is to be shown of its result

## Main results

* `replayRound_meaningful`, `exploreRound_meaningful` — what is reported is meaningful
* `removes_sameInterleaving`, `removes_strategyExploration` — what the minimizors have in common
* `Minimizing.minimize` — the loops of the minimization
* `greedy_minimization` — the headline
-/

namespace LTest

namespace Scheduler

variable {P : Program} {ν ρ E : Type}

/-! ### Meaningful histories -/

/-- A checker of histories. -/
structure ModelChecker (E : Type) where
  /-- The verdict. -/
  check : List E → Bool
  /-- An empty history has nothing that could be wrong. -/
  check_nil : check [] = true

namespace Recorder

variable (R : Recorder P E)

/-- `IsMeaningfulBadResult`. -/
def isMeaningfulBadResult (history : NonLinearizableHistory E) : Bool :=
  if !R.hasAnyStartedOp history.seq then false
  else if history.reason = .deadlock ∧ (!R.hasPendingVisibleOp history.seq) = true then false
  else true

/-- Nothing was recorded, or some task has started. -/
def Begun (started : List ℕ) (seq : List E) : Prop :=
  started = [] ∧ seq = [] ∨ R.starts seq ≠ []

variable {R} {started : List ℕ} {seq seq' : List E} {id : ℕ}

theorem hasAnyStartedOp_of_starts (h : R.starts seq ≠ []) : R.hasAnyStartedOp seq = true := by
  obtain ⟨id, hid⟩ := List.exists_mem_of_ne_nil _ h
  obtain ⟨e, he, hstart⟩ := List.mem_filterMap.1 hid
  exact List.any_eq_true.2 ⟨e, he, by rw [hstart]; rfl⟩

theorem Begun.visit (h : R.Begun started seq)
    (hstarts : R.starts seq' = R.starts seq ++ if !started.contains id then [id] else []) :
    R.starts seq' ≠ [] := by
  rw [hstarts]
  obtain ⟨rfl, -⟩ | h := h
  · exact List.append_ne_nil_of_right_ne_nil _ (List.cons_ne_nil _ _)
  · exact List.append_ne_nil_of_left_ne_nil h _

variable {full : List ℕ} {checker : ModelChecker E}

theorem meaningful_of_reportable (h : R.isReportableDeadlockHistory seq = true) :
    R.isMeaningfulBadResult ⟨full, seq, .deadlock⟩ = true := by
  rw [isReportableDeadlockHistory, Bool.and_eq_true] at h
  simp [isMeaningfulBadResult, h.1, h.2]

theorem meaningful_of_rejected (hbegun : R.Begun started seq) (h : checker.check seq = false) :
    R.isMeaningfulBadResult ⟨full, seq, .nonLinearizableHistory⟩ = true := by
  obtain ⟨-, rfl⟩ | hstarts := hbegun
  · cases checker.check_nil.symm.trans h
  · simp [isMeaningfulBadResult, hasAnyStartedOp_of_starts hstarts]

theorem meaningful_of_checked {history : NonLinearizableHistory E} (hbegun : R.Begun started seq)
    (h : checked checker.check full seq = some history) :
    R.isMeaningfulBadResult history = true := by
  unfold checked at h
  split at h
  · cases h
  · rename_i hrejected
    exact Option.some.inj h ▸ meaningful_of_rejected hbegun (Bool.eq_false_of_not_eq_true hrejected)

end Recorder

/-! ### Replays -/

section Replay

variable {R : Recorder P E} {V : Verifier P ν} {mode : ReplayMode}
  {isLast : Bool} {x x' : Replay P ν E}

theorem starts_begin (isNew : Bool) (t : TaskInfo P) (i : ℕ) (tr : Trace P ν E) :
    R.starts (tr.begin R isNew t i).seq = R.starts tr.seq ++ if isNew then [t.id] else [] := by
  cases isNew <;> simp [Trace.begin]

theorem removed_reportFinish (i j : ℕ) (w : World P ν) :
    (w.reportFinish V i j).removed = w.removed := by
  obtain ⟨v, hv⟩ := World.reportFinish_eq V i j w
  rw [hv]
  rfl

/-- A step of a replay records nothing, or a visit of the task. -/
theorem Replay.Steps.records {i j : ℕ} {t : Task P}
    (ht : x.trace.world.task? i j = some t) (h : Replay.Steps R V mode isLast i j t x x') :
    x'.trace.world.removed = x.trace.world.removed ∧
      (x'.trace.seq = x.trace.seq ∧ x'.trace.full = x.trace.full ∧ x'.started = x.started ∨
        (R.starts x'.trace.seq =
            R.starts x.trace.seq ++ if !x.started.contains t.id then [t.id] else []) ∧
          x'.trace.full = x.trace.full ++ [t.id]) := by
  cases h with
  | cut => exact ⟨rfl, .inl ⟨rfl, rfl, rfl⟩⟩
  | refused => exact ⟨rfl, .inl ⟨rfl, rfl, rfl⟩⟩
  | returned => exact ⟨rfl, .inr ⟨starts_begin _ t.toTaskInfo i _, rfl⟩⟩
  | @terminated v =>
    refine ⟨removed_reportFinish i j _, .inr ⟨?_, rfl⟩⟩
    show R.starts (Trace.seq _ ++ R.drainEvents _) = _
    rw [R.starts_append, R.starts_drainEvents, List.append_nil]
    exact starts_begin _ t.toTaskInfo i _
  | resumed _ _ _ _ htr =>
    obtain ⟨t', ht', -, rfl⟩ := Trace.perform_cases htr
    obtain rfl := Option.some.inj (ht'.symm.trans (Replay.admitted_task? ht))
    refine ⟨Counted.after_newTaskId_removed.2, .inr ⟨Trace.after_starts ht', rfl⟩⟩

variable (R) in
/-- What a replay keeps: the ordering has all tasks that it visits. -/
structure Replay.Visits (ids : List ℕ) (removed : Finset ℕ) (x : Replay P ν E) : Prop where
  begun : R.Begun x.started x.trace.seq
  full : ∀ id ∈ x.trace.full, id ∈ ids
  starts : ∀ id ∈ R.starts x.trace.seq, id ∈ ids
  removed : x.trace.world.removed = removed

variable {removed : Finset ℕ}

theorem Replay.Visits.step {ids : List ℕ} (h : x.Visits R ids removed) {id : ℕ} (hid : id ∈ ids)
    (hstep : x.step R V mode isLast id = some x') : x'.Visits R ids removed := by
  obtain ⟨i, j, t, hget, ht, hsteps⟩ := Replay.step_cases hstep
  obtain ⟨t', ht', hid'⟩ := World.getTask_eq_some hget
  obtain rfl : t' = t := Option.some.inj (ht'.symm.trans ht)
  obtain ⟨hremoved, ⟨hseq, hfull, hstarted⟩ | ⟨hstarts, hfull⟩⟩ := hsteps.records ht
  · exact ⟨hstarted ▸ hseq ▸ h.begun, hfull ▸ h.full, hseq ▸ h.starts, hremoved.trans h.removed⟩
  · -- both histories get the id of the task at most
    have hmem {l : List ℕ} (hl : ∀ id₁ ∈ l, id₁ ∈ ids) {l' : List ℕ}
        (hl' : l' ⊆ [t'.id]) : ∀ id₁ ∈ l ++ l', id₁ ∈ ids := by
      intro id₁ hid₁
      obtain hid₁ | hid₁ := List.mem_append.1 hid₁
      · exact hl id₁ hid₁
      · rw [List.mem_singleton.1 (hl' hid₁), hid']
        exact hid
    refine ⟨.inr (h.begun.visit hstarts), ?_, ?_, hremoved.trans h.removed⟩
    · exact hfull ▸ hmem h.full (List.Subset.refl _)
    · rw [hstarts]
      refine hmem h.starts ?_
      split
      · exact List.Subset.refl _
      · exact List.nil_subset _

theorem Replay.Visits.run {ids : List ℕ} {later : List ℕ} (hlater : later ⊆ ids)
    {x x' : Replay P ν E} (h : x.Visits R ids removed)
    (hrun : Replay.run R V mode later x = some x') : x'.Visits R ids removed := by
  induction later generalizing x with
  | nil => exact Option.some.inj hrun ▸ h
  | cons id later ih =>
    obtain ⟨x₁, hstep, hrun⟩ := Option.bind_eq_some_iff.1 hrun
    exact ih (fun _ hid => hlater (List.mem_cons_of_mem _ hid))
      (h.step (hlater List.mem_cons_self) hstep) hrun

variable {S : Strategy V ρ} {checker : ModelChecker E} {policy : DeadlockPolicy} {w : World P ν}
  {s s' : ρ} {ids : List ℕ} {r : Result E} {history : NonLinearizableHistory E}

theorem replayRound_visits
    (h : replayRound R S checker.check policy w s ids mode = some (r, x, s')) :
    x.Visits R ids w.removed ∧ x.result R mode checker.check policy ids = r := by
  obtain ⟨x', hrun, heq⟩ := Option.map_eq_some_iff.1 h
  simp only [Prod.mk.injEq] at heq
  obtain ⟨hr, rfl, -⟩ := heq
  refine ⟨Replay.Visits.run (List.Subset.refl _) ?_ hrun, hr⟩
  exact ⟨.inl ⟨rfl, rfl⟩, nofun, nofun, rfl⟩

/-- What a replay reports has its histories and is meaningful. -/
theorem Replay.result_meaningful (hx : x.Visits R ids removed)
    (h : x.result R mode checker.check policy ids = some history) :
    history.IsOf x.trace.full x.trace.seq ∧ R.isMeaningfulBadResult history = true := by
  unfold Replay.result at h
  split at h
  · split at h
    · rename_i hrejected
      rw [Bool.not_eq_true'] at hrejected
      exact Option.some.inj h ▸ ⟨⟨rfl, rfl⟩, Recorder.meaningful_of_rejected hx.begun hrejected⟩
    · split at h
      · split at h
        · rename_i hreportable
          exact Option.some.inj h ▸ ⟨⟨rfl, rfl⟩, Recorder.meaningful_of_reportable hreportable⟩
        · cases h
      · cases h
  · exact ⟨checked_some h, Recorder.meaningful_of_checked hx.begun h⟩

/-- **What `ReplayRound` reports is meaningful.** -/
theorem replayRound_meaningful
    (h : replayRound R S checker.check policy w s ids mode = some (some history, x, s')) :
    R.isMeaningfulBadResult history = true := by
  obtain ⟨hvisits, hresult⟩ := replayRound_visits h
  exact (Replay.result_meaningful hvisits hresult).2

end Replay

/-! ### Explorations -/

section Explore

variable {R : Recorder P E} {V : Verifier P ν} {S : Strategy V ρ}
  {reset : World P ν → ρ → World P ν × ρ} (hreset : ∀ w s, (reset w s).1 = w.resetCurrentRound V)
  {checker : ModelChecker E} {policy : DeadlockPolicy} {fuel runs : ℕ} {w : World P ν} {s : ρ}
  {x : Explore P ν ρ E} {history : NonLinearizableHistory E}

/-- What an exploration keeps: removed tasks have returned, and none of them was started. -/
structure Explore.Visits (R : Recorder P E) (V : Verifier P ν) (w : World P ν)
    (x : Explore P ν ρ E) : Prop where
  begun : R.Begun x.startedIds x.trace.seq
  resets : (w.resetCurrentRound V).Resets x.trace.world
  starts : ∀ id ∈ R.starts x.trace.seq, id ∉ w.removed

theorem Explore.Visits.iterates {x' : Explore P ν ρ E} (h : x.Visits R V w)
    (hx' : Explore.Iterates R V x x') : x'.Visits R V w := by
  refine ⟨?_, Explore.resets_iterates h.resets hx', ?_⟩
  · cases hx' with
    | idle => exact h.begun
    | finished => exact h.begun
    | stopped => exact h.begun
    | performed _ _ ht _ htr =>
      obtain ⟨t', ht', -, rfl⟩ := Trace.perform_cases htr
      obtain rfl := Option.some.inj (ht.symm.trans ht')
      exact .inr (h.begun.visit (Trace.after_starts ht'))
  · intro id hid
    cases hx' with
    | idle => exact h.starts id hid
    | finished => exact h.starts id hid
    | stopped => exact h.starts id hid
    | performed _ _ ht _ htr =>
      obtain ⟨t', ht', hret, rfl⟩ := Trace.perform_cases htr
      change id ∈ R.starts (Trace.after ..).seq at hid
      rw [Trace.after_starts ht'] at hid
      obtain hid | hid := List.mem_append.1 hid
      · exact h.starts id hid
      · obtain rfl : id = t'.id := by
          split at hid
          · exact List.mem_singleton.1 hid
          · cases hid
        intro hmem
        have hreturned := h.resets.returned _ _ t' ht' (h.resets.removed ▸ hmem)
        cases hreturned.symm.trans hret

theorem Explore.result_meaningful {d : Bool} (hx : x.Visits R V w)
    (h : x.result R checker.check policy d = some history) :
    R.isMeaningfulBadResult history = true := by
  unfold Explore.result at h
  split at h
  · split at h
    · rename_i hreportable
      exact Option.some.inj h ▸ Recorder.meaningful_of_reportable hreportable
    · cases h
  · exact Recorder.meaningful_of_checked hx.begun h

include hreset

theorem exploreAttempt_visits (w : World P ν) (s : ρ) :
    (exploreAttempt R S reset fuel w s).Visits R V w := by
  refine exploreAttempt_induction (Q := Explore.Visits R V w) ?_ fun x x' h hx' => h.iterates hx'
  refine ⟨.inl ⟨rfl, rfl⟩, ?_, nofun⟩
  rw [hreset]
  exact World.Resets.reset w

theorem exploreRound_removed {r : Result E}
    (h : exploreRound R S reset checker.check policy fuel runs w s = some (r, x)) :
    x.trace.world.removed = w.removed :=
  exploreRound_induction (Q := fun w' => w'.removed = w.removed)
    (fun w' s' hw' => (exploreAttempt_visits hreset w' s').resets.removed.trans hw') rfl h

/-- **What `ExploreRound` reports is meaningful**, and starts no task that is removed. -/
theorem exploreRound_meaningful
    (h : exploreRound R S reset checker.check policy fuel runs w s = some (some history, x)) :
    R.isMeaningfulBadResult history = true ∧ ∀ id ∈ R.starts history.seq, id ∉ w.removed := by
  obtain ⟨w', s', d, hw', rfl, -, hresult⟩ :=
    exploreRound_some (Q := fun w' => w'.removed = w.removed)
      (fun w' s' hw' => (exploreAttempt_visits hreset w' s').resets.removed.trans hw') rfl h
  have hvisits : (exploreAttempt R S reset fuel w' s').Visits R V w' :=
    exploreAttempt_visits hreset w' s'
  refine ⟨Explore.result_meaningful hvisits hresult, ?_⟩
  rw [(Explore.result_some hresult).2, ← hw']
  exact hvisits.starts

end Explore

/-! ### The minimizors -/

/-- Tasks are marked as removed, or as not removed. -/
def World.mark (isRemoved : Bool) (ids : List ℕ) (w : World P ν) : World P ν :=
  ids.foldl (fun w id => w.setTaskRemoved id isRemoved) w

theorem World.removed_mark_true (ids : List ℕ) (w : World P ν) :
    (w.mark true ids).removed = w.removed ∪ ids.toFinset := by
  induction ids generalizing w with
  | nil => simp [mark]
  | cons id ids ih =>
    rw [mark, List.foldl_cons]
    refine (ih _).trans ?_
    simp [setTaskRemoved]

theorem World.removed_mark_false (ids : List ℕ) (w : World P ν) :
    (w.mark false ids).removed = w.removed \ ids.toFinset := by
  induction ids generalizing w with
  | nil => simp [mark]
  | cons id ids ih =>
    rw [mark, List.foldl_cons]
    refine (ih _).trans ?_
    ext id'
    simp [setTaskRemoved]
    tauto

/-- The two greedy minimizors. -/
inductive GreedyRoundMinimizor
  | sameInterleaving
  | strategyExploration (runs : ℕ)

/-- A call of `OnTasksRemoved`. -/
structure Removal (E : Type) where
  /-- The tasks. -/
  ids : List ℕ
  /-- What was found without them. -/
  result : Result E

/-- The variables of a minimization. -/
structure Minimization (P : Program) (ν ρ E : Type) where
  /-- The round. -/
  world : World P ν
  /-- The variables of the strategy. -/
  strategy : ρ
  /-- The history. -/
  history : NonLinearizableHistory E
  /-- The calls of `OnTasksRemoved`; nothing reads them. -/
  removals : List (Removal E) := []

section Minimize

variable (R : Recorder P E) {V : Verifier P ν} (S : Strategy V ρ)
  (reset : World P ν → ρ → World P ν × ρ) (checker : ModelChecker E) (policy : DeadlockPolicy)
  (fuel : ℕ)

/-- `OnTasksRemoved` of both minimizors. -/
def onTasksRemoved (history : NonLinearizableHistory E) (ids : List ℕ) (w : World P ν) (s : ρ) :
    GreedyRoundMinimizor → Option (Result E × World P ν × ρ)
  | .sameInterleaving =>
    let mode := if history.reason = .deadlock then .noForceComplete else .completeOnLast
    (replayRound R S checker.check policy w s (getTasksOrdering history.full ids) mode).map
      fun r => (r.1, r.2.1.trace.world, r.2.2)
  | .strategyExploration runs =>
    (exploreRound R S reset checker.check policy fuel runs (w.mark true ids) s).map fun r =>
      (r.1, if r.1.isNone then r.2.trace.world.mark false ids else r.2.trace.world, r.2.strategy)

variable (k : GreedyRoundMinimizor)

/-- Tasks are tried to be removed; the answer says whether they are. -/
def tryRemove (ids : List ℕ) (m : Minimization P ν ρ E) :
    Option (Bool × Minimization P ν ρ E) :=
  (onTasksRemoved R S reset checker policy fuel m.history ids m.world m.strategy k).map fun r =>
    let removals := m.removals ++ [⟨ids, r.1⟩]
    match r.1 with
    | some history =>
      if R.isMeaningfulBadResult history then
        (true, ⟨r.2.1.mark true ids, r.2.2, history, removals⟩)
      else (false, ⟨r.2.1, r.2.2, m.history, removals⟩)
    | none => (false, ⟨r.2.1, r.2.2, m.history, removals⟩)

/-- The operations of a history, in the order in which they start. -/
def opIds (seq : List E) : List ℕ :=
  (R.starts seq).foldl (fun ids id => if ids.contains id then ids else ids ++ [id]) []

/-- The loop over single tasks. -/
def removeSingle : List ℕ → Minimization P ν ρ E → Option (Minimization P ν ρ E)
  | [], m => some m
  | id :: ids, m =>
    if m.world.isTaskRemoved id then removeSingle ids m
    else (tryRemove R S reset checker policy fuel k [id] m).bind fun r => removeSingle ids r.2

/-- The inner loop over pairs, which is left after a success. -/
def removeWith (id : ℕ) : List ℕ → Minimization P ν ρ E → Option (Minimization P ν ρ E)
  | [], m => some m
  | id' :: ids, m =>
    if m.world.isTaskRemoved id' then removeWith id ids m
    else (tryRemove R S reset checker policy fuel k [id, id'] m).bind fun r =>
      if r.1 then some r.2 else removeWith id ids r.2

/-- The loop over pairs. -/
def removePairs : List ℕ → Minimization P ν ρ E → Option (Minimization P ν ρ E)
  | [], m => some m
  | id :: ids, m =>
    if m.world.isTaskRemoved id then removePairs ids m
    else (removeWith R S reset checker policy fuel k id ids m).bind (removePairs ids)

/-- The coroutines are put into a returned state. What the replay reports is not used. -/
def cleanUp (m : Minimization P ν ρ E) : Option (Minimization P ν ρ E) :=
  if m.history.reason = .deadlock then
    let w := m.world.resetCurrentRound V
    some { m with world := w, strategy := S.resetCurrentRound w m.strategy }
  else
    (replayRound R S checker.check policy m.world m.strategy (getTasksOrdering m.history.full [])
      .completeOnLast).map fun r => { m with world := r.2.1.trace.world, strategy := r.2.2 }

/-- `GreedyRoundMinimizorT::Minimize`. There is no result if a replay or an exploration has
none. -/
def minimize (w : World P ν) (s : ρ) (history : NonLinearizableHistory E) :
    Option (Minimization P ν ρ E) :=
  let ids := opIds R history.seq
  ((removeSingle R S reset checker policy fuel k ids ⟨w, s, history, []⟩).bind
    (removePairs R S reset checker policy fuel k ids)).bind (cleanUp R S checker policy)

end Minimize

/-! ### What a minimization keeps -/

/-- The bad history, if the removal is accepted. -/
def Removal.accepted (R : Recorder P E) (c : Removal E) : Option (NonLinearizableHistory E) :=
  c.result.filter R.isMeaningfulBadResult

/-- The tasks of the removals that were accepted. -/
def Minimization.acceptedIds (R : Recorder P E) (m : Minimization P ν ρ E) : List ℕ :=
  m.removals.flatMap fun c => if (c.accepted R).isSome then c.ids else []

/-- What is to be shown. -/
structure Minimized (R : Recorder P E) (w : World P ν) (history : NonLinearizableHistory E)
    (m : Minimization P ν ρ E) : Prop where
  /-- The history is the last one that was accepted, or that of the input. -/
  history_eq : m.history = (m.removals.filterMap (Removal.accepted R)).getLastD history
  /-- All results were accepted. -/
  meaningful : ∀ c ∈ m.removals, ∀ h, c.result = some h → R.isMeaningfulBadResult h = true
  /-- Tasks stay removed. -/
  kept : w.removed ⊆ m.world.removed
  /-- Those that are removed since are those of the accepted removals. -/
  removed : m.world.removed \ w.removed = (m.acceptedIds R).toFinset
  /-- None of them starts in the history. -/
  notStarted : ∀ id ∈ m.acceptedIds R, id ∉ R.starts m.history.seq

/-- What the attempts to remove tasks have in common. Tasks that are `out` of a history do not start
in it; the tasks of an accepted removal are, and they stay so. -/
structure Removes (R : Recorder P E) (out : NonLinearizableHistory E → ℕ → Prop)
    (f : NonLinearizableHistory E → List ℕ → World P ν → ρ → Option (Result E × World P ν × ρ)) :
    Prop where
  notStarted : ∀ {history id}, out history id → id ∉ R.starts history.seq
  failed : ∀ {history ids w s w' s'}, f history ids w s = some (none, w', s') →
    (∀ id ∈ ids, id ∉ w.removed) → w'.removed = w.removed
  found : ∀ {history ids w s history' w' s'}, f history ids w s = some (some history', w', s') →
    R.isMeaningfulBadResult history' = true ∧
      w'.removed ∪ ids.toFinset = w.removed ∪ ids.toFinset ∧
      ∀ id, id ∈ ids ∨ id ∈ w.removed ∧ out history id → out history' id

/-- The invariant of the loops. -/
structure Minimizing (R : Recorder P E) (out : NonLinearizableHistory E → ℕ → Prop)
    (w : World P ν) (history : NonLinearizableHistory E) (m : Minimization P ν ρ E) : Prop where
  history_eq : m.history = (m.removals.filterMap (Removal.accepted R)).getLastD history
  meaningful : ∀ c ∈ m.removals, ∀ h, c.result = some h → R.isMeaningfulBadResult h = true
  removed : m.world.removed = w.removed ∪ (m.acceptedIds R).toFinset
  fresh : ∀ id ∈ m.acceptedIds R, id ∉ w.removed
  out : ∀ id ∈ m.acceptedIds R, out m.history id

section Loops

variable {R : Recorder P E} {V : Verifier P ν} {S : Strategy V ρ}
  {reset : World P ν → ρ → World P ν × ρ} {checker : ModelChecker E} {policy : DeadlockPolicy}
  {fuel : ℕ} {k : GreedyRoundMinimizor} {out : NonLinearizableHistory E → ℕ → Prop}
  {w : World P ν} {history : NonLinearizableHistory E} {m m' : Minimization P ν ρ E}

theorem Minimizing.minimized (h : Minimizing R out w history m)
    (hout : ∀ {history id}, out history id → id ∉ R.starts history.seq) :
    Minimized R w history m where
  __ := h
  kept := h.removed ▸ Finset.subset_union_left
  removed := by
    rw [h.removed, Finset.union_sdiff_left, Finset.sdiff_eq_self_iff_disjoint,
      Finset.disjoint_left]
    exact fun id hid => h.fresh id (List.mem_toFinset.1 hid)
  notStarted id hid := hout (h.out id hid)

variable {ids : List ℕ}

theorem Minimizing.rejected (h : Minimizing R out w history m) {w' : World P ν}
    (hremoved : w'.removed = m.world.removed) (s' : ρ) :
    Minimizing R out w history ⟨w', s', m.history, m.removals ++ [⟨ids, none⟩]⟩ := by
  have hids : (⟨w', s', m.history, m.removals ++ [⟨ids, none⟩]⟩ :
      Minimization P ν ρ E).acceptedIds R = m.acceptedIds R := by
    simp [Minimization.acceptedIds, Removal.accepted]
  refine ⟨?_, ?_, ?_, ?_, ?_⟩
  · rw [h.history_eq, List.filterMap_append]
    simp [Removal.accepted]
  · intro c hc
    obtain hc | hc := List.mem_append.1 hc
    · exact h.meaningful c hc
    · rw [List.mem_singleton.1 hc]
      exact fun _ hnone => nomatch hnone
  · rw [hids]
    exact hremoved.trans h.removed
  · rw [hids]
    exact h.fresh
  · rw [hids]
    exact h.out

theorem Minimizing.accepted (h : Minimizing R out w history m) {w' : World P ν}
    {history' : NonLinearizableHistory E} (hmeaningful : R.isMeaningfulBadResult history' = true)
    (hfresh : ∀ id ∈ ids, id ∉ m.world.removed)
    (hremoved : w'.removed = m.world.removed ∪ ids.toFinset)
    (hout : ∀ id, id ∈ ids ∨ id ∈ m.world.removed ∧ out m.history id → out history' id) (s' : ρ) :
    Minimizing R out w history ⟨w', s', history', m.removals ++ [⟨ids, some history'⟩]⟩ := by
  have haccepted : Removal.accepted R ⟨ids, some history'⟩ = some history' := by
    simp [Removal.accepted, hmeaningful]
  have hids : (⟨w', s', history', m.removals ++ [⟨ids, some history'⟩]⟩ :
      Minimization P ν ρ E).acceptedIds R = m.acceptedIds R ++ ids := by
    simp [Minimization.acceptedIds, haccepted]
  refine ⟨?_, ?_, ?_, ?_, ?_⟩
  · rw [List.filterMap_append]
    simp [haccepted]
  · intro c hc
    obtain hc | hc := List.mem_append.1 hc
    · exact h.meaningful c hc
    · rw [List.mem_singleton.1 hc]
      exact fun _ hsome => Option.some.inj hsome ▸ hmeaningful
  · rw [hids, List.toFinset_append, ← Finset.union_assoc, ← h.removed]
    exact hremoved
  · rw [hids]
    intro id hid
    obtain hid | hid := List.mem_append.1 hid
    · exact h.fresh id hid
    · intro hmem
      exact hfresh id hid (h.removed ▸ Finset.mem_union_left _ hmem)
  · rw [hids]
    intro id hid
    obtain hid | hid := List.mem_append.1 hid
    · have hmem : id ∈ m.world.removed := by
        rw [h.removed]
        exact Finset.mem_union_right _ (List.mem_toFinset.2 hid)
      exact hout id (.inr ⟨hmem, h.out id hid⟩)
    · exact hout id (.inl hid)

variable (hremoves : Removes R out fun history ids w s =>
  onTasksRemoved R S reset checker policy fuel history ids w s k)

include hremoves

/-- **A removal is tried.** If it fails, the same tasks are marked as before. -/
theorem Minimizing.tryRemove (h : Minimizing R out w history m)
    (hids : ∀ id ∈ ids, id ∉ m.world.removed) {b : Bool}
    (htry : tryRemove R S reset checker policy fuel k ids m = some (b, m')) :
    Minimizing R out w history m' ∧ (b = false → m'.world.removed = m.world.removed) := by
  obtain ⟨⟨r, w', s'⟩, hr, heq⟩ := Option.map_eq_some_iff.1 htry
  cases r with
  | none =>
    obtain ⟨rfl, rfl⟩ := Prod.mk.inj heq
    have hremoved := hremoves.failed hr hids
    exact ⟨h.rejected hremoved s', fun _ => hremoved⟩
  | some history' =>
    obtain ⟨hmeaningful, hremoved, hout⟩ := hremoves.found hr
    simp only [hmeaningful, if_true, Prod.mk.injEq] at heq
    obtain ⟨rfl, rfl⟩ := heq
    refine ⟨h.accepted hmeaningful hids ?_ hout s', fun hfalse => nomatch hfalse⟩
    rw [World.removed_mark_true, hremoved]

theorem Minimizing.removeSingle (h : Minimizing R out w history m)
    (hm' : removeSingle R S reset checker policy fuel k ids m = some m') :
    Minimizing R out w history m' := by
  induction ids generalizing m with
  | nil => exact Option.some.inj hm' ▸ h
  | cons id ids ih =>
    rw [Scheduler.removeSingle] at hm'
    split at hm'
    · exact ih h hm'
    · rename_i hremoved
      obtain ⟨r, hr, hm'⟩ := Option.bind_eq_some_iff.1 hm'
      have hid : ∀ id' ∈ [id], id' ∉ m.world.removed := by
        simpa [World.isTaskRemoved] using hremoved
      exact ih (h.tryRemove hremoves hid hr).1 hm'

theorem Minimizing.removeWith {id : ℕ} (h : Minimizing R out w history m)
    (hid : id ∉ m.world.removed)
    (hm' : removeWith R S reset checker policy fuel k id ids m = some m') :
    Minimizing R out w history m' := by
  induction ids generalizing m with
  | nil => exact Option.some.inj hm' ▸ h
  | cons id' ids ih =>
    rw [Scheduler.removeWith] at hm'
    split at hm'
    · exact ih h hid hm'
    · rename_i hremoved
      obtain ⟨⟨b, m₁⟩, hr, hm'⟩ := Option.bind_eq_some_iff.1 hm'
      have hids : ∀ id₁ ∈ [id, id'], id₁ ∉ m.world.removed := by
        simpa [World.isTaskRemoved, hid] using hremoved
      obtain ⟨hm₁, hsame⟩ := h.tryRemove hremoves hids hr
      cases b with
      | true => exact Option.some.inj hm' ▸ hm₁
      | false => exact ih hm₁ (hsame rfl ▸ hid) hm'

theorem Minimizing.removePairs (h : Minimizing R out w history m)
    (hm' : removePairs R S reset checker policy fuel k ids m = some m') :
    Minimizing R out w history m' := by
  induction ids generalizing m with
  | nil => exact Option.some.inj hm' ▸ h
  | cons id ids ih =>
    rw [Scheduler.removePairs] at hm'
    split at hm'
    · exact ih h hm'
    · rename_i hremoved
      obtain ⟨m₁, hm₁, hm'⟩ := Option.bind_eq_some_iff.1 hm'
      have hid : id ∉ m.world.removed := by simpa [World.isTaskRemoved] using hremoved
      exact ih (h.removeWith hremoves hid hm₁) hm'

omit hremoves in
theorem Minimizing.cleanUp (h : Minimizing R out w history m)
    (hm' : cleanUp R S checker policy m = some m') : Minimizing R out w history m' := by
  rw [Scheduler.cleanUp] at hm'
  split at hm'
  · exact Option.some.inj hm' ▸ ⟨h.history_eq, h.meaningful, h.removed, h.fresh, h.out⟩
  · obtain ⟨⟨r, x, s'⟩, hr, rfl⟩ := Option.map_eq_some_iff.1 hm'
    have hremoved := (replayRound_visits hr).1.removed
    exact ⟨h.history_eq, h.meaningful, hremoved.trans h.removed, h.fresh, h.out⟩

/-- **The loops of a minimization.** -/
theorem Minimizing.minimize {s : ρ}
    (hm' : minimize R S reset checker policy fuel k w s history = some m') :
    Minimized R w history m' := by
  obtain ⟨m₂, hm₂, hm'⟩ := Option.bind_eq_some_iff.1 hm'
  obtain ⟨m₁, hm₁, hm₂⟩ := Option.bind_eq_some_iff.1 hm₂
  have hinit : Minimizing R out w history (⟨w, s, history, []⟩ : Minimization P ν ρ E) :=
    ⟨rfl, nofun, (Finset.union_empty _).symm, nofun, nofun⟩
  have hpairs := (hinit.removeSingle hremoves hm₁).removePairs hremoves hm₂
  exact (hpairs.cleanUp hm').minimized hremoves.notStarted

end Loops

section Removes

variable {R : Recorder P E} {V : Verifier P ν} {S : Strategy V ρ}
  {reset : World P ν → ρ → World P ν × ρ} {checker : ModelChecker E} {policy : DeadlockPolicy}
  {fuel : ℕ}

/-- A replay without the tasks visits no task that is not in the history. -/
theorem removes_sameInterleaving :
    Removes R (fun history id => id ∉ history.full ∧ id ∉ R.starts history.seq)
      fun history ids w s => onTasksRemoved R S reset checker policy fuel history ids w s
        .sameInterleaving where
  notStarted hout := hout.2
  failed h _ := by
    obtain ⟨⟨r, x, s'⟩, hr, heq⟩ := Option.map_eq_some_iff.1 h
    simp only [Prod.mk.injEq] at heq
    obtain ⟨-, rfl, -⟩ := heq
    exact (replayRound_visits hr).1.removed
  found {history ids w s history' w' s'} h := by
    obtain ⟨⟨r, x, s'⟩, hr, heq⟩ := Option.map_eq_some_iff.1 h
    simp only [Prod.mk.injEq] at heq
    obtain ⟨rfl, rfl, -⟩ := heq
    obtain ⟨hvisits, hresult⟩ := replayRound_visits hr
    obtain ⟨⟨hfull, hseq⟩, hmeaningful⟩ := Replay.result_meaningful hvisits hresult
    refine ⟨hmeaningful, by rw [hvisits.removed], fun id hid => ?_⟩
    have hnot : id ∉ getTasksOrdering history.full ids := by
      intro hmem
      obtain ⟨hmem, hexcluded⟩ := List.mem_filter.1 hmem
      obtain hid | ⟨-, hid, -⟩ := hid
      · simp [hid] at hexcluded
      · exact hid hmem
    rw [hfull, hseq]
    exact ⟨fun hmem => hnot (hvisits.full id hmem), fun hmem => hnot (hvisits.starts id hmem)⟩

theorem removes_strategyExploration (hreset : ∀ w s, (reset w s).1 = w.resetCurrentRound V)
    (runs : ℕ) :
    Removes R (fun history id => id ∉ R.starts history.seq)
      fun history ids w s => onTasksRemoved R S reset checker policy fuel history ids w s
        (.strategyExploration runs) where
  notStarted hout := hout
  failed {history ids w s w' s'} h hfresh := by
    obtain ⟨⟨r, x⟩, hr, heq⟩ := Option.map_eq_some_iff.1 h
    simp only [Prod.mk.injEq] at heq
    obtain ⟨rfl, rfl, -⟩ := heq
    show (x.trace.world.mark false ids).removed = w.removed
    rw [World.removed_mark_false, exploreRound_removed hreset hr, World.removed_mark_true,
      Finset.union_sdiff_right, Finset.sdiff_eq_self_iff_disjoint, Finset.disjoint_right]
    exact fun id hid => hfresh id (List.mem_toFinset.1 hid)
  found {history ids w s history' w' s'} h := by
    obtain ⟨⟨r, x⟩, hr, heq⟩ := Option.map_eq_some_iff.1 h
    simp only [Prod.mk.injEq] at heq
    obtain ⟨rfl, rfl, -⟩ := heq
    obtain ⟨hmeaningful, hstarts⟩ := exploreRound_meaningful hreset hr
    rw [World.removed_mark_true] at hstarts
    refine ⟨hmeaningful, ?_, fun id hid hmem => hstarts id hmem ?_⟩
    · show x.trace.world.removed ∪ _ = _
      rw [exploreRound_removed hreset hr, World.removed_mark_true, Finset.union_assoc,
        Finset.union_self]
    · obtain hid | ⟨hid, -⟩ := hid
      · exact Finset.mem_union_right _ (List.mem_toFinset.2 hid)
      · exact Finset.mem_union_left _ hid

variable (R S reset checker policy fuel) in
/-- A scheduler whose minimizations are to be trusted. -/
structure MinimizesSoundly (k : GreedyRoundMinimizor) : Prop where
  /-- What `ReplayRound` reports is meaningful. -/
  replayRound : ∀ w s ids mode history x s',
    replayRound R S checker.check policy w s ids mode = some (some history, x, s') →
      R.isMeaningfulBadResult history = true
  /-- So is what `ExploreRound` reports. -/
  exploreRound : ∀ w s runs history x,
    exploreRound R S reset checker.check policy fuel runs w s = some (some history, x) →
      R.isMeaningfulBadResult history = true
  /-- A minimization keeps its books. -/
  minimize : ∀ w s history m,
    minimize R S reset checker policy fuel k w s history = some m → Minimized R w history m

theorem minimizesSoundly (hreset : ∀ w s, (reset w s).1 = w.resetCurrentRound V)
    (k : GreedyRoundMinimizor) : MinimizesSoundly R S reset checker policy fuel k where
  replayRound _ _ _ _ _ _ _ := replayRound_meaningful
  exploreRound _ _ _ _ _ h := (exploreRound_meaningful hreset h).1
  minimize w s history m hm := by
    cases k with
    | sameInterleaving => exact Minimizing.minimize removes_sameInterleaving hm
    | strategyExploration runs =>
      exact Minimizing.minimize (removes_strategyExploration hreset runs) hm

end Removes

/-- **Greedy minimization keeps a bug and its books**, with both schedulers and both minimizors. -/
theorem greedy_minimization {V : Verifier P ν} (S : Strategy V ρ)
    (checker : ModelChecker (HistoryEvent P)) (dualChecker : ModelChecker (DualHistoryEvent P))
    (policy : DeadlockPolicy) (fuel : ℕ) (k : GreedyRoundMinimizor) :
    MinimizesSoundly ordinaryRecorder S (StrategyScheduler.exploreReset S) checker policy fuel k ∧
      MinimizesSoundly dualRecorder S (DualStrategyScheduler.exploreReset S) dualChecker policy
        fuel k :=
  ⟨minimizesSoundly (fun _ _ => rfl) k, minimizesSoundly (fun _ _ => rfl) k⟩

/-- The checker that accepts only the empty history. -/
def emptyChecker : ModelChecker (HistoryEvent instantProgram) := ⟨List.isEmpty, rfl⟩

/-- A round of two tasks on two threads. -/
def twoInstants : World instantProgram Unit :=
  ((World.new 2 () () ()).build 0 instantBuilder).build 1 instantBuilder

/-- Its bad history, in which both tasks run. -/
def twoInvokes : NonLinearizableHistory (HistoryEvent instantProgram) where
  full := [0, 1]
  seq := [.invoke ⟨0, "f", (), false⟩ 0, .response ⟨0, "f", (), false⟩ (some ()) 0,
    .invoke ⟨1, "f", (), false⟩ 1, .response ⟨1, "f", (), false⟩ (some ()) 1]
  reason := .nonLinearizableHistory

/-- A minimization of it. -/
def minimizeTwo (k : GreedyRoundMinimizor) :
    Option (Minimization instantProgram Unit (Base instantProgram Unit ℕ)
      (HistoryEvent instantProgram)) :=
  minimize ordinaryRecorder instantStrategy.toStrategy
    (StrategyScheduler.exploreReset instantStrategy.toStrategy) emptyChecker .fail 5 k twoInstants
    ⟨[instantBuilder], (), [none, none], 0⟩ twoInvokes

theorem greedy_minimization_twoInstants :
    ∃ m, minimizeTwo .sameInterleaving = some m ∧ m.history.full = [1] ∧
      m.acceptedIds ordinaryRecorder = [0] ∧
      Minimized ordinaryRecorder twoInstants twoInvokes m := by
  obtain ⟨m, hm, hfull, hids⟩ : ∃ m, minimizeTwo .sameInterleaving = some m ∧
      m.history.full = [1] ∧ m.acceptedIds ordinaryRecorder = [0] := ⟨_, rfl, rfl, rfl⟩
  have hsound := greedy_minimization instantStrategy.toStrategy emptyChecker
    (⟨List.isEmpty, rfl⟩ : ModelChecker (DualHistoryEvent instantProgram)) .fail 5 .sameInterleaving
  exact ⟨m, hm, hfull, hids, hsound.1.minimize _ _ _ _ hm⟩

example : (minimizeTwo (.strategyExploration 1)).map (fun m => (m.history.full, m.world.removed)) =
    some ([1], {0}) := rfl

end Scheduler

end LTest
