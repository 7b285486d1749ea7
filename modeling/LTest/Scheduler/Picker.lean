import LTest.Scheduler.Round

/-!
# Strategies that pick a thread

Round-robin, random and PCT differ in how they pick a thread. What they do with it is in
`BaseStrategyWithThreads`: if the thread is free, a constructor that the verifier accepts is looked
for and its task is started; otherwise the last task of the thread is resumed.

## Main definitions

* `Rng` — a generator of random numbers
* `World.startContext` — what a verifier is told about the round
* `World.eligible`, `World.eligibleSchedule` — the threads that may be picked
* `nextVerifiedFor` — `NextVerifiedFor`
* `Picker`, `Picker.toStrategy` — the strategy of a way to pick threads

## Main results

* `nextVerifiedFor_start` — when a task is started
* `Picker.next_cases` — what `Next` returns
-/

namespace LTest

namespace Scheduler

variable {P : Program} {ν ρ γ : Type}

/-- A generator of random numbers with state `γ`. -/
structure Rng (γ : Type) where
  /-- Shuffles a list. -/
  shuffle : {α : Type} → γ → List α → List α × γ
  /-- Draws an index by weights. -/
  discrete : γ → List ℕ → ℕ × γ
  /-- Draws a number from an interval. -/
  uniform : γ → ℕ → ℕ → ℕ × γ
  /-- A shuffle is a permutation. -/
  shuffle_perm : ∀ {α : Type} (g : γ) (l : List α), (shuffle g l).1.Perm l
  /-- The index exists. -/
  discrete_lt : ∀ g weights, weights ≠ [] → (discrete g weights).1 < weights.length

/-- The generator that leaves lists as they are and returns the least number. -/
def Rng.first : Rng Unit where
  shuffle _ l := (l, ())
  discrete _ _ := (0, ())
  uniform _ a _ := (a, ())
  shuffle_perm _ l := .refl l
  discrete_lt _ _ h := List.length_pos_of_ne_nil h

/-- The variables of `BaseStrategyWithThreads` that only strategies use. -/
structure Base (P : Program) (γ ρ : Type) where
  /-- The methods. -/
  constructors : List (TaskBuilder P)
  /-- The generator. -/
  rng : γ
  /-- The last task of each thread; `none` is `-1`. -/
  roundSchedule : List (Option ℕ)
  /-- The variables of the derived class. -/
  own : ρ

/-! ### Reading the round -/

namespace World

variable (V : Verifier P ν) (w : World P ν)

/-- The number of threads whose last task has not returned and has a property. -/
def countActive (p : Task P → Bool) : ℕ :=
  (List.range w.threads.length).countP fun i => (w.back? i).any fun t => !t.returned && p t

/-- The context that `NextVerifiedFor` builds. -/
def startContext : StartContext where
  threads := w.threads.length
  freeThreads := (List.range w.threads.length).countP w.isFree
  activeByMethod name := w.countActive fun t => t.name == name
  blockedByMethod name := w.countActive fun t => t.name == name && w.isBlocked t

/-- `NewTaskAreEnabled`; `onlyOne` says that the verifier is `OnlyOneTaskPerThreadVerifier`. -/
def newTaskAreEnabled (onlyOne : Bool) (i : ℕ) : Bool :=
  !(onlyOne && w.isFree i && (w.back? i).isSome)

/-- `CanThreadContinue`. -/
def canThreadContinue (i : ℕ) : Bool := P.canThreadContinue w.env w.target i

/-- Whether a thread may be picked for `Next`; `verifyFirst` says that the verifier is asked before
`CanThreadContinue`. -/
def eligible (onlyOne verifyFirst : Bool) (v : ν) (i : ℕ) : Bool × ν :=
  if !w.allowNewTasks && w.isFree i then (false, v)
  else if (w.back? i).any w.isBlocked || !w.newTaskAreEnabled onlyOne i ||
      !(verifyFirst || w.canThreadContinue i) then (false, v)
  else
    let r := match w.back? i with
      | some t => if t.returned then (true, v) else V.verifyExisting v t i
      | none => (true, v)
    (r.1 && w.canThreadContinue i, r.2)

theorem eligible_fst (onlyOne verifyFirst : Bool) (v : ν) (i : ℕ) :
    (w.eligible V onlyOne verifyFirst v i).1 = (!(!w.allowNewTasks && w.isFree i) &&
      !(w.back? i).any w.isBlocked && w.newTaskAreEnabled onlyOne i && w.canThreadContinue i &&
      (w.back? i).all fun t => t.returned || (V.verifyExisting v t i).1) := by
  rw [eligible]
  generalize (!w.allowNewTasks && w.isFree i) = full
  generalize w.newTaskAreEnabled onlyOne i = enabled
  generalize w.canThreadContinue i = continues
  cases w.back? i with
  | none => cases full <;> cases enabled <;> cases continues <;> cases verifyFirst <;> rfl
  | some t =>
    simp only [Option.any_some, Option.all_some]
    cases full <;> cases enabled <;> cases continues <;> cases verifyFirst <;>
      cases w.isBlocked t <;> cases t.returned <;> simp

/-- `GetNextTaskInThread`. -/
def getNextTaskInThread (roundSchedule : List (Option ℕ)) (i : ℕ) : ℕ :=
  let start := (roundSchedule.getD i none).getD 0
  start + (((w.threads.getD i []).drop start).takeWhile fun t =>
    t.returned || w.isTaskRemoved t.id).length

/-- Whether a thread may be picked for `NextSchedule`. -/
def eligibleSchedule (roundSchedule : List (Option ℕ)) (v : ν) (i : ℕ) : Bool × ν :=
  match w.task? i (w.getNextTaskInThread roundSchedule i) with
  | some t => if w.isBlocked t then (false, v) else V.verifyExisting v t i
  | none => (false, v)

end World

/-! ### The next task -/

section Next

variable (V : Verifier P ν) (G : Rng γ)

/-- The first constructor that the verifier accepts. -/
def findConstructor (ctx : StartContext) (i : ℕ) :
    ν → List (TaskBuilder P) → Option (TaskBuilder P) × ν
  | v, [] => (none, v)
  | v, b :: bs =>
    let r := V.verifyTaskStart v b.name i ctx
    if r.1 then (some b, r.2) else findConstructor ctx i r.2 bs

/-- The strategy after `std::shuffle` of the constructors. -/
def Base.shuffled (s : Base P γ ρ) : Base P γ ρ :=
  { s with
    constructors := (G.shuffle s.rng s.constructors).1
    rng := (G.shuffle s.rng s.constructors).2 }

/-- `NextVerifiedFor`. -/
def nextVerifiedFor (w : World P ν) (s : Base P γ ρ) : Option ℕ → Next P × ν × Base P γ ρ
  | none => (.failure .deadlock, w.verifier, s)
  | some i =>
    if w.isFree i then
      let s := s.shuffled G
      match findConstructor V w.startContext i w.verifier s.constructors with
      | (none, v) => (.failure .deadlock, v, s)
      | (some b, v) => (.start i b, V.onTaskStarted v b.name i w.newTaskId, s)
    else (.resume i (Grid.rowLength w.threads i - 1), w.verifier, s)

end Next

section Start

variable {V : Verifier P ν} {ctx : StartContext} {b : TaskBuilder P} {bs : List (TaskBuilder P)}
  {i : ℕ}

theorem Asks.findConstructor {v₀ v : ν} (h : Asks V v₀ v) (bs : List (TaskBuilder P)) :
    Asks V v₀ (findConstructor V ctx i v bs).2 := by
  induction bs generalizing v with
  | nil => exact h
  | cons b bs ih =>
    rw [Scheduler.findConstructor]
    split
    · exact h.verifyTaskStart b.name i ctx
    · exact ih (h.verifyTaskStart b.name i ctx)

/-- The constructor that is found is accepted, after others were refused. -/
theorem findConstructor_some {v v' : ν} (h : findConstructor V ctx i v bs = (some b, v')) :
    ∃ v₀, Asks V v v₀ ∧ V.verifyTaskStart v₀ b.name i ctx = (true, v') := by
  suffices hasks : ∀ v₁, Asks V v v₁ → findConstructor V ctx i v₁ bs = (some b, v') →
      ∃ v₀, Asks V v v₀ ∧ V.verifyTaskStart v₀ b.name i ctx = (true, v') from hasks v .none h
  clear h
  intro v₁ hv h
  induction bs generalizing v₁ with
  | nil => cases h
  | cons c bs ih =>
    rw [findConstructor] at h
    cases hr : (V.verifyTaskStart v₁ c.name i ctx).1 with
    | true =>
      simp only [hr, if_true, Prod.mk.injEq, Option.some.injEq] at h
      obtain ⟨rfl, rfl⟩ := h
      exact ⟨v₁, hv, Prod.ext hr rfl⟩
    | false =>
      simp only [hr, Bool.false_eq_true, if_false] at h
      exact ih _ (hv.verifyTaskStart c.name i ctx) h

/-- A constructor is found if one is accepted whatever was asked before. -/
theorem findConstructor_ne_none {v₀ v : ν} (hv : Asks V v₀ v) (hmem : b ∈ bs)
    (hb : ∀ v, Asks V v₀ v → (V.verifyTaskStart v b.name i ctx).1 = true) :
    (findConstructor V ctx i v bs).1 ≠ none := by
  induction bs generalizing v with
  | nil => cases hmem
  | cons c bs ih =>
    rw [findConstructor]
    cases hmem with
    | head => simp [hb v hv]
    | tail _ hmem =>
      split
      · exact nofun
      · exact ih (hv.verifyTaskStart c.name i ctx) hmem

/-- **A start**: the thread is free, and the verifier accepts the constructor and is told. -/
theorem nextVerifiedFor_start {G : Rng γ} {w : World P ν} {s s' : Base P γ ρ} {i' : ℕ} {v : ν}
    (h : nextVerifiedFor V G w s (some i) = (.start i' b, v, s')) :
    i' = i ∧ w.isFree i = true ∧ ∃ v₀ v₁, Asks V w.verifier v₀ ∧
      V.verifyTaskStart v₀ b.name i w.startContext = (true, v₁) ∧
      v = V.onTaskStarted v₁ b.name i w.newTaskId := by
  rw [nextVerifiedFor] at h
  split at h
  · rename_i hfree
    dsimp only at h
    split at h
    · cases h
    · rename_i c v₁ hfound
      simp only [Prod.mk.injEq, Next.start.injEq] at h
      obtain ⟨⟨rfl, rfl⟩, rfl, rfl⟩ := h
      obtain ⟨v₀, hasks, hverify⟩ := findConstructor_some hfound
      exact ⟨rfl, hfree, v₀, v₁, hasks, hverify, rfl⟩
  · cases h

end Start

/-! ### Pickers -/

/-- What round-robin, random and PCT define. -/
structure Picker (V : Verifier P ν) (γ ρ : Type) where
  /-- The generator. -/
  rng : Rng γ
  /-- `NextThreadId`. -/
  nextThreadId : World P ν → Base P γ ρ → Option ℕ × ν × Base P γ ρ
  /-- The choice in `NextSchedule`. -/
  pickSchedule : World P ν → Base P γ ρ → Option ℕ × ν × Base P γ ρ
  /-- What else `StartNextRound` does. -/
  startNextRound : World P ν → ρ → ν × ρ
  /-- What else `ResetCurrentRound` does. -/
  resetCurrentRound : World P ν → ρ → ρ
  /-- The thread exists. -/
  nextThreadId_lt : ∀ w s i, (nextThreadId w s).1 = some i → i < w.threads.length
  /-- The choice only asks the verifier for verdicts. -/
  pickSchedule_asks : ∀ w s, Asks V w.verifier (pickSchedule w s).2.1

namespace Picker

variable {V : Verifier P ν} (K : Picker V γ ρ)

/-- `BaseStrategyWithThreads::Next`. -/
def next (w : World P ν) (s : Base P γ ρ) : Next P × ν × Base P γ ρ :=
  let pick := K.nextThreadId w s
  nextVerifiedFor V K.rng (w.setVerifier pick.2.1) pick.2.2 pick.1

/-- `NextSchedule`. -/
def nextSchedule (w : World P ν) (s : Base P γ ρ) :
    Except StrategyNextScheduleFailure (ℕ × ℕ) × ν × Base P γ ρ :=
  let pick := K.pickSchedule w s
  match pick.1 with
  | none => (.error .deadlock, pick.2)
  | some i =>
    let index := w.getNextTaskInThread pick.2.2.roundSchedule i
    (.ok (i, index), pick.2.1,
      { pick.2.2 with roundSchedule := pick.2.2.roundSchedule.set i (some index) })

/-- The strategy of a picker. -/
def toStrategy : Strategy V (Base P γ ρ) where
  next := K.next
  nextSchedule := K.nextSchedule
  asks w s := by
    rw [nextSchedule]
    split
    · exact K.pickSchedule_asks w s
    · exact K.pickSchedule_asks w s
  startNextRound w s :=
    let r := K.startNextRound w s.own
    (r.1, { s with
      roundSchedule := s.roundSchedule.take w.threadsCount ++
        List.replicate (w.threadsCount - s.roundSchedule.length) none
      own := r.2 })
  resetCurrentRound w s :=
    { s with
      roundSchedule := s.roundSchedule.map fun _ => none
      own := K.resetCurrentRound w s.own }
  resetExplorationState _ s := { s with roundSchedule := s.roundSchedule.map fun _ => none }

/-- What the verifier answers when a free thread was picked. -/
def foundConstructor (w : World P ν) (s : Base P γ ρ) (i : ℕ) : Option (TaskBuilder P) :=
  (findConstructor V w.startContext i (K.nextThreadId w s).2.1
    ((K.nextThreadId w s).2.2.shuffled K.rng).constructors).1

variable {K}

/-- **What `Next` returns.** -/
theorem next_cases {w : World P ν} {s s' : Base P γ ρ} {n : Next P} {v : ν}
    (h : K.next w s = (n, v, s')) :
    ((K.nextThreadId w s).1 = none ∧ n = .failure .deadlock) ∨
      ∃ i, (K.nextThreadId w s).1 = some i ∧ i < w.threads.length ∧
        ((w.isFree i = true ∧ K.foundConstructor w s i = none ∧ n = .failure .deadlock) ∨
          (w.isFree i = true ∧ ∃ b, n = .start i b) ∨
          w.isFree i = false ∧ n = .resume i (Grid.rowLength w.threads i - 1)) := by
  rw [next] at h
  cases hpick : (K.nextThreadId w s).1 with
  | none =>
    rw [hpick] at h
    exact .inl ⟨rfl, (Prod.mk.inj h).1.symm⟩
  | some i =>
    refine .inr ⟨i, rfl, K.nextThreadId_lt w s i hpick, ?_⟩
    rw [hpick] at h
    have hfree : (w.setVerifier (K.nextThreadId w s).2.1).isFree i = w.isFree i := rfl
    simp only [nextVerifiedFor, hfree] at h
    split at h
    · rename_i hfree
      split at h
      · rename_i v' hfound
        exact .inl ⟨hfree, congrArg Prod.fst hfound, (Prod.mk.inj h).1.symm⟩
      · rename_i b v' hfound
        exact .inr (.inl ⟨hfree, b, (Prod.mk.inj h).1.symm⟩)
    · rename_i hfree
      exact .inr (.inr ⟨by simpa using hfree, (Prod.mk.inj h).1.symm⟩)

end Picker

end Scheduler

end LTest
