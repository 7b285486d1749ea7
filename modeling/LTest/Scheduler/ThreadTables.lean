import LTest.Lib.Transition
import LTest.Scheduler.Operations
import LTest.Scheduler.Strategies
import LTest.Wmm.Reachable

/-!
# Tables with an entry for each thread

A custom round may have another number of threads than the generated ones. Then the tables of the
strategy have to follow. `StartNextRound` resets the execution graph before it restores the threads,
so that the graph keeps the number of threads of the custom round. `RandomStrategy` cuts its weights
to the threads of a custom round and never restores them.

## Main definitions

* `WmmRound`, `WmmRound.Step` — a strategy with weak memory enabled
* `WmmRound.InRange` — the accesses of the round are in range
* `RandomRound`, `RandomRound.Step` — a random strategy
* `RandomRound.Weighted` — all threads have weights, and generated rounds the configured ones

## Main results

* `WmmRound.inRange_of_reached` — the graph knows all threads as long as rounds are started after
  rounds with the configured number of threads
* `RandomRound.weighted_of_reached` — weights are right as long as custom rounds are not smaller
-/

namespace LTest

namespace Scheduler

variable {P : Program} {ν ρ γ α : Type}

/-! ### The execution graph -/

/-- A strategy with weak memory enabled. -/
structure WmmRound (P : Program) (ν α : Type) where
  /-- The round. -/
  world : World P ν
  /-- The execution graph. -/
  graph : Wmm.ExecutionGraph α

/-- The number of threads that an operation gives to `ResetWmmGraph`. `StartNextRound` takes it from
the thread table before it restores the table. -/
def StrategyOp.graphThreads (w : World P ν) : StrategyOp P → ℕ
  | setCustomRound custom => custom.length
  | _ => w.threads.length

/-- A move: an operation of the strategy, a call into the graph, or what the loops of the scheduler
do between operations. -/
inductive WmmRound.Move (P : Program) (α : Type)
  | operation (op : StrategyOp P)
  | access (op : Wmm.Op α)
  | play
  | build

namespace WmmRound

/-- A call into the graph that the target may make while the round is run: its constructor registers
locations, and the threads of the round access them. -/
def Issued (s : WmmRound P ν α) : Wmm.Op α → Prop
  | .reset _ => False
  | .registerLocation _ => 0 < s.world.threads.length
  | .load location threadId _ shuffled =>
    location < s.graph.nextLocationId ∧ threadId < s.world.threads.length ∧
      shuffled.Perm (s.graph.candidates location)
  | .store location threadId _ _ =>
    location < s.graph.nextLocationId ∧ threadId < s.world.threads.length
  | .readModifyWrite location threadId _ _ _ _ shuffled =>
    location < s.graph.nextLocationId ∧ threadId < s.world.threads.length ∧
      shuffled.Perm (s.graph.candidates location)
  | .unconditionalReadModifyWrite location threadId _ _ _ shuffled =>
    location < s.graph.nextLocationId ∧ threadId < s.world.threads.length ∧
      shuffled.Perm (s.graph.candidates location)

/-- The state after an operation. -/
def apply (V : Verifier P ν) (s : WmmRound P ν α) (op : StrategyOp P) :
    WmmRound P ν α :=
  ⟨op.apply V s.world, s.graph.reset (op.graphThreads s.world)⟩

/-- The constructor: the graph is reset for the configured number of threads. -/
def Starts (s : WmmRound P ν α) : Prop :=
  ∃ threadsCount target env verifier,
    s = ⟨World.new threadsCount target env verifier, Wmm.ExecutionGraph.reset {} threadsCount⟩

/-- A round is started only after a round with the configured number of threads. -/
def Restores (s : WmmRound P ν α) (m : Move P α) : Prop :=
  m = .operation .startNextRound → s.world.threads.length = s.world.threadsCount

/-- The graph is large enough for the round. -/
structure InRange (s : WmmRound P ν α) : Prop where
  /-- It has as many threads. -/
  nThreads : s.graph.nThreads = s.world.threads.length
  /-- Each thread of the round has events. -/
  eventsPerThread : ∀ t < s.world.threads.length, s.graph.graph.eventsPerThread t ≠ []
  /-- It has an entry in every vector clock. -/
  clock : ∀ t < s.world.threads.length, ∀ i < s.graph.graph.events.length,
    t < (s.graph.graph.event i).clock.times.length
  /-- All calls are enabled. -/
  enabled : ∀ op, s.Issued op → s.graph.Enabled op

variable {V : Verifier P ν} {s s' : WmmRound P ν α}

/-- What an operation does to the two numbers of threads. -/
theorem nThreads_apply_iff (s : WmmRound P ν α) (op : StrategyOp P) :
    (s.apply V op).graph.nThreads = (s.apply V op).world.threads.length ↔
      s.Restores (.operation op) := by
  have hthreads : (s.apply V op).world.threads.length = op.threads s.world :=
    StrategyOp.length_threads_apply s.world op
  have hgraph : (s.apply V op).graph.nThreads = op.graphThreads s.world := rfl
  rw [hthreads, hgraph]
  cases op with
  | startNextRound => exact ⟨fun h _ => h, fun h => h rfl⟩
  | setCustomRound custom => exact iff_of_true rfl nofun
  | resetCurrentRound => exact iff_of_true rfl nofun
  | resetExplorationState => exact iff_of_true rfl nofun
  | terminateTasks => exact iff_of_true rfl nofun

theorem apply_graph_inv (h : s.graph.Inv) (op : StrategyOp P) : (s.apply V op).graph.Inv :=
  Wmm.ExecutionGraph.inv_reset h.graph.wf.inSnapshotMode h.graph.wf.snapshotEdges _

theorem Issued.enabled {op : Wmm.Op α} (h : s.Issued op)
    (hthreads : s.graph.nThreads = s.world.threads.length) : s.graph.Enabled op := by
  cases op with
  | reset n => exact h.elim
  | registerLocation v =>
    show 0 < s.graph.nThreads
    rw [hthreads]
    exact h
  | store x t o v => exact ⟨h.1, hthreads ▸ h.2⟩
  | _ => exact ⟨⟨h.1, hthreads ▸ h.2.1⟩, h.2.2⟩

/-- The invariant: a graph that is well-formed and has as many threads as the round. -/
structure Known (s : WmmRound P ν α) : Prop where
  graph : s.graph.Inv
  nThreads : s.graph.nThreads = s.world.threads.length

theorem Known.inRange (h : s.Known) : s.InRange where
  nThreads := h.nThreads
  eventsPerThread t ht := by
    refine h.graph.graph.wf.eventsPerThread_ne t ?_
    rw [← h.graph.nThreads, h.nThreads]
    exact ht
  clock t ht i hi := by
    rw [h.graph.graph.clock_length i hi, ← h.graph.nThreads, h.nThreads]
    exact ht
  enabled _ hissued := hissued.enabled h.nThreads

theorem Starts.known (h : s.Starts) : s.Known := by
  obtain ⟨threadsCount, target, env, verifier, rfl⟩ := h
  exact ⟨Wmm.ExecutionGraph.inv_reset rfl rfl threadsCount, List.length_replicate.symm⟩

variable [DecidableEq α] [Inhabited α] [Wmm.AtomicOps α]

/-- The moves. -/
inductive Step (V : Verifier P ν) (s : WmmRound P ν α) :
    Move P α → WmmRound P ν α → Prop
  | operation (op : StrategyOp P) : Step V s (.operation op) (s.apply V op)
  | access {op : Wmm.Op α} {graph : Wmm.ExecutionGraph α} {ret : Wmm.Ret α}
      (hissued : s.Issued op) (hexec : s.graph.exec op = some (graph, ret)) :
      Step V s (.access op) { s with graph := graph }
  | play {w : World P ν} (h : s.world.Plays w) : Step V s .play { s with world := w }
  | build (i : ℕ) (b : TaskBuilder P) : Step V s .build { s with world := s.world.build i b }

/-- A call into the graph keeps its number of threads. -/
theorem Known.access {op : Wmm.Op α} {graph : Wmm.ExecutionGraph α} {ret : Wmm.Ret α}
    (h : s.Known) (hissued : s.Issued op) (hexec : s.graph.exec op = some (graph, ret)) :
    graph.Inv ∧ graph.nThreads = s.graph.nThreads := by
  have henabled := hissued.enabled h.nThreads
  refine ⟨h.graph.exec henabled hexec, ?_⟩
  obtain ⟨n, rfl, -⟩ | ⟨ev, l, -, -, -, hn, -⟩ := h.graph.exec_cases henabled hexec
  · exact hissued.elim
  · exact hn

/-- A move that meets the condition keeps the invariant. -/
theorem Known.step {m : Move P α} (h : s.Known) (hm : s.Restores m) (hs : Step V s m s') :
    s'.Known := by
  cases hs with
  | operation op => exact ⟨apply_graph_inv h.graph op, (nThreads_apply_iff s op).mpr hm⟩
  | access hissued hexec =>
    obtain ⟨hinv, hn⟩ := h.access hissued hexec
    exact ⟨hinv, hn.trans h.nThreads⟩
  | play hplay => exact ⟨h.graph, h.nThreads.trans hplay.kept.length_threads.symm⟩
  | build i b => exact ⟨h.graph, h.nThreads.trans Grid.length_push.symm⟩

/-- **The graph knows every thread.** In every run in which rounds are started only after rounds
with the configured number of threads, the graph has as many threads as the round and all accesses
are in range, in every state. An operation that does not meet the condition leaves the graph with
another number of threads. -/
theorem inRange_of_reached (V : Verifier P ν) :
    (∀ s : WmmRound P ν α, Reached (Step V) Restores Starts s → s.InRange) ∧
      ∀ (s : WmmRound P ν α) (op : StrategyOp P),
        (s.apply V op).graph.nThreads = (s.apply V op).world.threads.length ↔
          s.Restores (.operation op) :=
  ⟨fun _ h => (h.invariant (fun _ => Starts.known)
    fun _ _ _ hknown hm hstep => hknown.step hm hstep).inRange, nThreads_apply_iff⟩

/-- A strategy that was constructed for two threads. -/
abbrev twoThreads : WmmRound instantProgram Unit (BitVec 32) :=
  ⟨World.new 2 () () (), Wmm.ExecutionGraph.reset {} 2⟩

/-- A generated round after a custom round, with default verifier. -/
abbrev afterCustom (custom : CustomRound instantProgram) :
    WmmRound instantProgram Unit (BitVec 32) :=
  (twoThreads.apply defaultStrategyTaskVerifier (.setCustomRound custom)).apply
    defaultStrategyTaskVerifier .startNextRound

/-- After a custom round with two threads the graph has two threads. -/
theorem inRange_afterCustom_two : (afterCustom [[instantBuilder], []]).InRange := by
  refine (inRange_of_reached defaultStrategyTaskVerifier).1 _ ?_
  have hstart : Reached (Step defaultStrategyTaskVerifier) Restores Starts twoThreads :=
    .init ⟨2, (), (), (), rfl⟩
  have hcustom : Reached (Step defaultStrategyTaskVerifier) Restores Starts
      (twoThreads.apply defaultStrategyTaskVerifier (.setCustomRound [[instantBuilder], []])) :=
    hstart.step (m := .operation (.setCustomRound _)) nofun (.operation _)
  exact hcustom.step (fun _ => rfl) (.operation .startNextRound)

/-- After a custom round with one thread, the generated round has two threads, and the graph one:
the second thread has no events in the graph. -/
theorem graph_misses_thread :
    Reached (Step defaultStrategyTaskVerifier) (fun _ _ => True) Starts
        (afterCustom [[instantBuilder]]) ∧
      (afterCustom [[instantBuilder]]).world.threads.length = 2 ∧
      (afterCustom [[instantBuilder]]).graph.nThreads = 1 ∧
      (afterCustom [[instantBuilder]]).graph.graph.eventsPerThread 1 = [] := by
  have hstart : Reached (Step defaultStrategyTaskVerifier) (fun _ _ => True) Starts twoThreads :=
    .init ⟨2, (), (), (), rfl⟩
  exact ⟨(hstart.step trivial (.operation (.setCustomRound _))).step trivial
    (.operation .startNextRound), rfl, rfl, rfl⟩

end WmmRound

/-! ### Weights -/

/-- `std::vector::resize`. -/
def resize {β : Type} (n : ℕ) (a : β) (l : List β) : List β :=
  l.take n ++ List.replicate (n - l.length) a

theorem length_resize {β : Type} (n : ℕ) (a : β) (l : List β) : (resize n a l).length = n := by
  simp [resize]
  omega

theorem take_resize {β : Type} {m n : ℕ} (h : m ≤ n) (a : β) {l : List β} (hl : m ≤ l.length) :
    (resize n a l).take m = l.take m := by
  rw [resize, List.take_append_of_le_length (by simp; omega), List.take_take, Nat.min_eq_left h]

/-- A random strategy. -/
structure RandomRound (P : Program) (ν γ : Type) where
  /-- The round. -/
  world : World P ν
  /-- Its variables. -/
  base : Base P γ (List ℕ)
  /-- Whether the round was generated; not in the source. -/
  generated : Bool := true
  /-- Whether some custom round had fewer threads than generated ones; not in the source. -/
  shrunk : Bool := false

/-- A move: an operation of the strategy, `Pick`, the choice in `NextSchedule`, or what the loops of
the scheduler do between operations. -/
inductive RandomRound.Move (P : Program)
  | operation (op : StrategyOp P)
  | pick
  | schedule
  | play
  | build

namespace RandomRound

section Step

variable (V : Verifier P ν) (G : Rng γ) (onlyOne : Bool)

/-- The variables of `RandomStrategy` after an operation; `w` is the round after it. -/
def applyBase (w : World P ν) (s : Base P γ (List ℕ)) : StrategyOp P → Base P γ (List ℕ)
  | .setCustomRound custom =>
    { s with
      roundSchedule := resize custom.length none s.roundSchedule
      own := resize custom.length 1 s.own }
  | .resetCurrentRound => (randomStrategy V G onlyOne).toStrategy.resetCurrentRound w s
  | .resetExplorationState => (randomStrategy V G onlyOne).toStrategy.resetExplorationState w s
  | .terminateTasks => s
  | .startNextRound => ((randomStrategy V G onlyOne).toStrategy.startNextRound w s).2

/-- The state after an operation. -/
def apply (s : RandomRound P ν γ) (op : StrategyOp P) : RandomRound P ν γ where
  world := op.apply V s.world
  base := applyBase V G onlyOne (op.apply V s.world) s.base op
  generated :=
    match op with
    | .setCustomRound _ => false
    | .startNextRound => true
    | _ => s.generated
  shrunk :=
    match op with
    | .setCustomRound custom => s.shrunk || decide (custom.length < s.world.threadsCount)
    | _ => s.shrunk

/-- The state after a call that answers with a state of the verifier and the variables. -/
def answered {β : Type} (s : RandomRound P ν γ) (r : β × ν × Base P γ (List ℕ)) :
    RandomRound P ν γ :=
  { s with world := s.world.setVerifier r.2.1, base := r.2.2 }

/-- The moves. -/
inductive Step (s : RandomRound P ν γ) : Move P → RandomRound P ν γ → Prop
  | operation (op : StrategyOp P) : Step s (.operation op) (s.apply V G onlyOne op)
  | pick : Step s .pick (s.answered ((randomStrategy V G onlyOne).nextThreadId s.world s.base))
  | schedule :
      Step s .schedule (s.answered ((randomStrategy V G onlyOne).nextSchedule s.world s.base))
  | play {w : World P ν} (h : s.world.Plays w) : Step s .play { s with world := w }
  | build (i : ℕ) (b : TaskBuilder P) : Step s .build { s with world := s.world.build i b }

end Step

/-- The constructor, with one weight for each thread. -/
def Starts (configured : List ℕ) (s : RandomRound P ν γ) : Prop :=
  ∃ target env verifier constructors rng,
    s = { world := World.new configured.length target env verifier
          base := ⟨constructors, rng, List.replicate configured.length none, configured⟩ }

/-- Every thread has its entries. -/
structure Weighted (configured : List ℕ) (s : RandomRound P ν γ) : Prop where
  /-- It has a weight. -/
  weights : s.world.threads.length ≤ s.base.own.length
  /-- It has an entry in `round_schedule`. -/
  roundSchedule : s.world.threads.length ≤ s.base.roundSchedule.length
  /-- The weights of a generated round are the configured ones. -/
  configured : s.generated = true → ∀ i < s.world.threads.length,
    s.base.own[i]? = configured[i]?

/-- The invariant: only a custom round that is smaller cuts off configured weights. -/
structure Tabled (configured : List ℕ) (s : RandomRound P ν γ) : Prop where
  threadsCount : s.world.threadsCount = configured.length
  roundSchedule : s.base.roundSchedule.length = s.world.threads.length
  custom : s.generated = false → s.base.own.length = s.world.threads.length
  generated : s.generated = true → s.world.threads.length = configured.length
  weights : s.shrunk = false → s.base.own.take configured.length = configured

variable {V : Verifier P ν} {G : Rng γ} {onlyOne : Bool}
  {configured : List ℕ} {s s' : RandomRound P ν γ}

theorem Starts.tabled (h : s.Starts configured) : s.Tabled configured := by
  obtain ⟨target, env, verifier, constructors, rng, rfl⟩ := h
  exact ⟨rfl, by simp [World.new], nofun, fun _ => List.length_replicate,
    fun _ => List.take_length⟩

theorem Tabled.weighted (h : s.Tabled configured)
    (hcond : s.generated = true → s.shrunk = false) : s.Weighted configured where
  weights := by
    cases hgenerated : s.generated with
    | false => exact Nat.le_of_eq (h.custom hgenerated).symm
    | true =>
      have hlength := congrArg List.length (h.weights (hcond hgenerated))
      rw [List.length_take] at hlength
      rw [h.generated hgenerated]
      omega
  roundSchedule := Nat.le_of_eq h.roundSchedule.symm
  configured hgenerated i hi := by
    rw [h.generated hgenerated] at hi
    rw [← List.getElem?_take_of_lt hi, h.weights (hcond hgenerated)]

theorem randomPick_tables (G : Rng γ) (test : ν → ℕ → Bool × ν) (threads : ℕ) (v : ν)
    (s : Base P γ (List ℕ)) :
    (randomPick G test threads v s).2.2.own = s.own ∧
      (randomPick G test threads v s).2.2.roundSchedule = s.roundSchedule := by
  dsimp only [randomPick]
  split
  · exact ⟨rfl, rfl⟩
  · exact ⟨rfl, rfl⟩

/-- `NextSchedule` changes an entry of `round_schedule`. -/
theorem nextSchedule_tables (V : Verifier P ν) (G : Rng γ) (onlyOne : Bool)
    (w : World P ν) (s : Base P γ (List ℕ)) :
    ((randomStrategy V G onlyOne).nextSchedule w s).2.2.own = s.own ∧
      ((randomStrategy V G onlyOne).nextSchedule w s).2.2.roundSchedule.length =
        s.roundSchedule.length := by
  obtain ⟨hown, hschedule⟩ := randomPick_tables G (w.eligibleSchedule V s.roundSchedule)
    w.threads.length w.verifier s
  rw [Picker.nextSchedule]
  split
  · exact ⟨hown, congrArg List.length hschedule⟩
  · exact ⟨hown, List.length_set.trans (congrArg List.length hschedule)⟩

/-- What keeps the numbers of threads and the tables keeps the invariant. -/
theorem Tabled.congr {w : World P ν} {base : Base P γ (List ℕ)} (h : s.Tabled configured)
    (hcount : w.threadsCount = s.world.threadsCount)
    (hthreads : w.threads.length = s.world.threads.length) (hown : base.own = s.base.own)
    (hschedule : base.roundSchedule.length = s.base.roundSchedule.length) :
    Tabled configured { s with world := w, base := base } where
  threadsCount := hcount.trans h.threadsCount
  roundSchedule := (hschedule.trans h.roundSchedule).trans hthreads.symm
  custom hcustom := by
    rw [hown, hthreads]
    exact h.custom hcustom
  generated hgenerated := hthreads.trans (h.generated hgenerated)
  weights hshrunk := by
    rw [hown]
    exact h.weights hshrunk

/-- A custom round with enough threads keeps the configured weights. -/
theorem Tabled.setCustomRound (h : s.Tabled configured) (custom : CustomRound P) :
    Tabled configured (s.apply V G onlyOne (.setCustomRound custom)) where
  threadsCount :=
    (StrategyOp.threadsCount_apply s.world (.setCustomRound custom)).trans h.threadsCount
  roundSchedule := by
    show (resize custom.length none s.base.roundSchedule).length = _
    rw [length_resize]
    exact (StrategyOp.length_threads_apply s.world (.setCustomRound custom)).symm
  custom _ := by
    show (resize custom.length 1 s.base.own).length = _
    rw [length_resize]
    exact (StrategyOp.length_threads_apply s.world (.setCustomRound custom)).symm
  generated := nofun
  weights hshrunk := by
    obtain ⟨hbefore, hnot⟩ := Bool.or_eq_false_iff.mp hshrunk
    have hle : configured.length ≤ custom.length := by
      rw [← h.threadsCount]
      exact Nat.le_of_not_lt (of_decide_eq_false hnot)
    have hweights := h.weights hbefore
    have hlength : configured.length ≤ s.base.own.length := by
      have := congrArg List.length hweights
      rw [List.length_take] at this
      omega
    exact (take_resize hle 1 hlength).trans hweights

theorem Tabled.startNextRound (h : s.Tabled configured) :
    Tabled configured (s.apply V G onlyOne .startNextRound) where
  __ := h
  roundSchedule := by
    show (resize _ none s.base.roundSchedule).length = _
    rw [length_resize]
    exact List.length_replicate.symm
  custom := nofun
  generated _ := List.length_replicate.trans h.threadsCount

theorem Tabled.step {m : Move P} (h : s.Tabled configured) (hs : Step V G onlyOne s m s') :
    s'.Tabled configured := by
  cases hs with
  | operation op =>
    have hthreads := StrategyOp.length_threads_apply (V := V) s.world op
    cases op with
    | setCustomRound custom => exact h.setCustomRound custom
    | resetCurrentRound => exact h.congr rfl hthreads rfl (List.length_map _)
    | resetExplorationState => exact h.congr rfl hthreads rfl (List.length_map _)
    | terminateTasks => exact h.congr rfl hthreads rfl rfl
    | startNextRound => exact h.startNextRound
  | pick =>
    obtain ⟨hown, hschedule⟩ := randomPick_tables G (s.world.eligible V onlyOne true)
      s.world.threads.length s.world.verifier s.base
    exact h.congr rfl rfl hown (congrArg List.length hschedule)
  | schedule =>
    obtain ⟨hown, hschedule⟩ := nextSchedule_tables V G onlyOne s.world s.base
    exact h.congr rfl rfl hown hschedule
  | play hplay => exact h.congr hplay.kept.threadsCount hplay.kept.length_threads rfl rfl
  | build i b => exact h.congr rfl Grid.length_push rfl rfl

/-- **Every thread has a weight.** In every state of every run, `Weighted` holds if the round is a
custom one, or if no custom round so far had fewer threads than the generated rounds have. -/
theorem weighted_of_reached (h : Reached (Step V G onlyOne) (fun _ _ => True) (Starts configured) s)
    (hcond : s.generated = true → s.shrunk = false) : s.Weighted configured :=
  (h.invariant (fun _ => Starts.tabled) fun _ _ _ ht _ hs => ht.step hs).weighted hcond

/-- A random strategy for two threads with weights `5` and `7`. -/
abbrev weightedTwo : RandomRound instantProgram Unit Unit where
  world := World.new 2 () () ()
  base := ⟨[instantBuilder], (), [none, none], [5, 7]⟩

/-- A generated round after a custom round, with the default verifier. -/
abbrev afterCustom (custom : CustomRound instantProgram) : RandomRound instantProgram Unit Unit :=
  (weightedTwo.apply defaultStrategyTaskVerifier .first false (.setCustomRound custom)).apply
    defaultStrategyTaskVerifier .first false .startNextRound

theorem reached_afterCustom (custom : CustomRound instantProgram) :
    Reached (Step defaultStrategyTaskVerifier .first false) (fun _ _ => True) (Starts [5, 7])
      (afterCustom custom) := by
  have hstart : Reached (Step defaultStrategyTaskVerifier .first false) (fun _ _ => True)
      (Starts [5, 7]) weightedTwo := .init ⟨(), (), (), [instantBuilder], (), rfl⟩
  exact (hstart.step trivial (.operation (.setCustomRound custom))).step trivial
    (.operation .startNextRound)

/-- After a custom round with three threads the weights are the configured ones. -/
theorem weighted_afterCustom_three : (afterCustom [[instantBuilder], [], []]).Weighted [5, 7] :=
  weighted_of_reached (reached_afterCustom _) fun _ => rfl

/-- After a custom round with one thread, the second thread of a generated round has no weight. -/
theorem weight_missing :
    Reached (Step defaultStrategyTaskVerifier .first false) (fun _ _ => True) (Starts [5, 7])
        (afterCustom [[instantBuilder]]) ∧
      (afterCustom [[instantBuilder]]).generated = true ∧
      (afterCustom [[instantBuilder]]).world.threads.length = 2 ∧
      (afterCustom [[instantBuilder]]).base.own = [5] :=
  ⟨reached_afterCustom _, rfl, rfl, rfl⟩

end RandomRound

end Scheduler

end LTest
