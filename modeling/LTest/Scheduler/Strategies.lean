import LTest.Lib.Scan
import LTest.Scheduler.Picker

/-!
# Round-robin, random and PCT

The three strategies pick a thread among those that are eligible. `NextThreadId` and the choice in
`NextSchedule` are the same loops with another test, so each loop is written once.

## Main definitions

* `roundRobinStrategy` — `RoundRobinStrategy`
* `randomStrategy` — `RandomStrategy`
* `Priorities`, `Pct`, `pctStrategy` — `PctStrategy`

## Main results

* `roundRobin_none`, `random_none`, `Pct.pick_none` — no thread is picked only if none is eligible
-/

namespace LTest

namespace Scheduler

variable {P : Program} {ν ρ γ : Type}

section Asks

variable {V : Verifier P ν} {w : World P ν} {v₀ v : ν} {i : ℕ}

theorem Asks.eligible {onlyOne verifyFirst : Bool} (h : Asks V v₀ v) :
    Asks V v₀ (w.eligible V onlyOne verifyFirst v i).2 := by
  unfold World.eligible
  split
  · exact h
  split
  · exact h
  dsimp only
  split
  · split
    · exact h
    · exact h.verifyExisting _ _
  · exact h

theorem Asks.eligibleSchedule {roundSchedule : List (Option ℕ)} (h : Asks V v₀ v) :
    Asks V v₀ (w.eligibleSchedule V roundSchedule v i).2 := by
  unfold World.eligibleSchedule
  split
  · split
    · exact h
    · exact h.verifyExisting _ _
  · exact h

end Asks

/-! ### Round-robin -/

variable {test : ν → ℕ → Bool × ν} {i threads : ℕ} {p : ℕ → Bool} {Q : ν → Prop} {v : ν}

/-- `RoundRobinStrategy::Pick` and `PickSchedule`; the variable is `next_task`. -/
def roundRobinPick (test : ν → ℕ → Bool × ν) (threads : ℕ) (v : ν) (s : Base P γ ℕ) :
    Option ℕ × ν × Base P γ ℕ :=
  let r := Scan.cyclic test (· % threads) (fun k => (k + 1) % 2 ^ 64) threads v s.own
  (r.1, r.2.1, { s with own := r.2.2 })

theorem roundRobin_some {s : Base P γ ℕ} (hQ : ∀ v i, Q v → Q (test v i).2) (hv : Q v)
    (h : (roundRobinPick test threads v s).1 = some i) :
    i < threads ∧ ∃ v', Q v' ∧ (test v' i).1 = true := by
  obtain ⟨⟨k, rfl⟩, hpass⟩ := Scan.cyclic_some hQ hv h
  refine ⟨?_, hpass⟩
  cases threads with
  | zero => cases h
  | succ n => exact Nat.mod_lt k (Nat.succ_pos n)

/-- The counter as long as it does not overflow. -/
theorem iterate_counter {k a : ℕ} (h : k + a < 2 ^ 64) :
    (fun k => (k + 1) % 2 ^ 64)^[a] k = k + a := by
  induction a with
  | zero => rfl
  | succ a ih =>
    rw [Function.iterate_succ_apply', ih (Nat.lt_of_succ_lt h)]
    exact Nat.mod_eq_of_lt h

/-- As many attempts as there are threads run through all threads. -/
theorem exists_attempt (k : ℕ) (hi : i < threads) : ∃ a < threads, (k + a) % threads = i := by
  have hlt := Nat.mod_lt k (Nat.zero_lt_of_lt hi)
  have hdiv := Nat.div_add_mod k threads
  by_cases hle : k % threads ≤ i
  · refine ⟨i - k % threads, by omega, ?_⟩
    have hsum : k + (i - k % threads) = i + threads * (k / threads) := by omega
    rw [hsum, Nat.add_mul_mod_self_left, Nat.mod_eq_of_lt hi]
  · refine ⟨threads + i - k % threads, by omega, ?_⟩
    have hsum : k + (threads + i - k % threads) = i + threads * (k / threads + 1) := by
      rw [Nat.mul_add, Nat.mul_one]
      omega
    rw [hsum, Nat.add_mul_mod_self_left, Nat.mod_eq_of_lt hi]

/-- No thread is picked only if none is eligible, as long as the counter does not overflow. -/
theorem roundRobin_none {s : Base P γ ℕ} (hQ : ∀ v i, Q v → Q (test v i).2) (hv : Q v)
    (hp : ∀ v i, Q v → (test v i).1 = p i) (hcounter : s.own + threads ≤ 2 ^ 64)
    (h : (roundRobinPick test threads v s).1 = none) (hi : i < threads) : p i = false := by
  obtain ⟨a, ha, rfl⟩ := exists_attempt s.own hi
  have hfail := Scan.cyclic_none hQ hp hv h ha
  rwa [iterate_counter (by omega)] at hfail

/-- `RoundRobinStrategy`. -/
def roundRobinStrategy (V : Verifier P ν) (G : Rng γ) (onlyOne : Bool) :
    Picker V γ ℕ where
  rng := G
  nextThreadId w s := roundRobinPick (w.eligible V onlyOne false) w.threads.length w.verifier s
  pickSchedule w s :=
    roundRobinPick (w.eligibleSchedule V s.roundSchedule) w.threads.length w.verifier s
  startNextRound w s := (w.verifier, s)
  resetCurrentRound _ s := s
  nextThreadId_lt w _ _ h :=
    (roundRobin_some (Q := Asks V w.verifier) (fun _ _ => Asks.eligible) .none h).1
  pickSchedule_asks _ _ := Scan.cyclic_state (fun _ _ => Asks.eligibleSchedule) .none

/-! ### Random -/

variable {s : Base P γ (List ℕ)}

/-- `RandomStrategy::Pick` and `PickSchedule`; the variable is `weights`. -/
def randomPick (G : Rng γ) (test : ν → ℕ → Bool × ν) (threads : ℕ) (v : ν)
    (s : Base P γ (List ℕ)) : Option ℕ × ν × Base P γ (List ℕ) :=
  let pickWeights := Scan.values test (s.own.getD · 0) (List.range threads) v
  if pickWeights.1 = [] then (none, pickWeights.2, s)
  else
    let num := G.discrete s.rng pickWeights.1
    let r := Scan.nth test (List.range threads) pickWeights.2 num.1
    (r.1, r.2, { s with rng := num.2 })

theorem random_some {G : Rng γ} (hQ : ∀ v i, Q v → Q (test v i).2) (hv : Q v)
    (h : (randomPick G test threads v s).1 = some i) :
    i < threads ∧ ∃ v', Q v' ∧ (test v' i).1 = true := by
  dsimp only [randomPick] at h
  split at h
  · cases h
  · exact (Scan.nth_some hQ (Scan.values_state hQ hv) h).imp_left List.mem_range.mp

theorem random_none {G : Rng γ} (hQ : ∀ v i, Q v → Q (test v i).2) (hv : Q v)
    (hp : ∀ v i, Q v → (test v i).1 = p i) (h : (randomPick G test threads v s).1 = none)
    (hi : i < threads) : p i = false := by
  have hlength : (Scan.values test (s.own.getD · 0) (List.range threads) v).1.length =
      (List.range threads).countP p := Scan.values_length hQ hp hv
  dsimp only [randomPick] at h
  split at h
  · rename_i hnil
    rw [hnil] at hlength
    have hcount := List.countP_eq_zero.mp hlength.symm i (List.mem_range.mpr hi)
    simpa using hcount
  · rename_i hne
    have hstate : Q (Scan.values test (s.own.getD · 0) (List.range threads) v).2 :=
      Scan.values_state hQ hv
    have hsome := Scan.nth_isSome hQ hp hstate (hlength ▸ G.discrete_lt s.rng _ hne)
    rw [h] at hsome
    cases hsome

/-- `RandomStrategy`. -/
def randomStrategy (V : Verifier P ν) (G : Rng γ) (onlyOne : Bool) :
    Picker V γ (List ℕ) where
  rng := G
  nextThreadId w s := randomPick G (w.eligible V onlyOne true) w.threads.length w.verifier s
  pickSchedule w s :=
    randomPick G (w.eligibleSchedule V s.roundSchedule) w.threads.length w.verifier s
  startNextRound w s := (w.verifier, s)
  resetCurrentRound _ s := s
  nextThreadId_lt w _ _ h :=
    (random_some (Q := Asks V w.verifier) (fun _ _ => Asks.eligible) .none h).1
  pickSchedule_asks w s := by
    dsimp only [randomPick]
    split
    · exact Scan.values_state (fun _ _ => Asks.eligibleSchedule) .none
    · exact Scan.nth_state (fun _ _ => Asks.eligibleSchedule)
        (Scan.values_state (fun _ _ => Asks.eligibleSchedule) .none)

/-! ### PCT -/

/-- The priorities and the points where one is lowered. -/
structure Priorities where
  /-- The depth. -/
  depth : ℕ
  /-- The priorities. -/
  values : List ℕ
  /-- The points. -/
  changePoints : List ℕ
  /-- There are fewer points than the depth. -/
  changePoints_lt : changePoints.length < depth
  /-- Priorities are positive. -/
  values_pos : ∀ p ∈ values, 0 < p

namespace Priorities

variable {points : List (ℕ × ℕ)}

/-- The priority of a thread. -/
def get (p : Priorities) (i : ℕ) : ℕ := p.values.getD i 0

theorem get_pos (p : Priorities) (hi : i < p.values.length) : 0 < p.get i := by
  rw [get, List.getD_eq_getElem?_getD, List.getElem?_eq_getElem hi, Option.getD_some]
  exact p.values_pos _ (List.getElem_mem hi)

/-- The priorities after the change points that are equal to `length`. -/
def lowered (depth length index : ℕ) (points : List (ℕ × ℕ)) (values : List ℕ) : List ℕ :=
  points.foldl (fun vs pt => if pt.1 = length then vs.set index (depth - pt.2) else vs) values

theorem lowered_pos {depth length index : ℕ} {values : List ℕ}
    (hpoints : ∀ pt ∈ points, pt.2 < depth) (hvalues : ∀ p ∈ values, 0 < p) :
    ∀ p ∈ lowered depth length index points values, 0 < p := by
  induction points generalizing values with
  | nil => exact hvalues
  | cons pt points ih =>
    refine ih (fun pt' hpt' => hpoints pt' (List.mem_cons_of_mem _ hpt')) ?_
    have hlt := hpoints pt List.mem_cons_self
    dsimp only
    split
    · intro p hp
      cases List.mem_or_eq_of_mem_set hp with
      | inl hp => exact hvalues p hp
      | inr hp => omega
    · exact hvalues

theorem lowered_length {depth length index : ℕ} {values : List ℕ} :
    (lowered depth length index points values).length = values.length := by
  induction points generalizing values with
  | nil => rfl
  | cons pt points ih =>
    refine ih.trans ?_
    dsimp only
    split
    · exact List.length_set
    · rfl

/-- The change of priorities in `NextThreadId`. -/
def lower (length index : ℕ) (p : Priorities) : Priorities :=
  { p with
    values := lowered p.depth length index p.changePoints.zipIdx p.values
    values_pos := by
      refine lowered_pos (fun pt hpt => ?_) p.values_pos
      have hlt := List.snd_lt_of_mem_zipIdx hpt
      exact Nat.lt_trans (by simpa using hlt) p.changePoints_lt }

end Priorities

/-- The variables of `PctStrategy`. -/
structure Pct (γ : Type) where
  /-- The priorities. -/
  priorities : Priorities
  /-- The choices of the round. -/
  scheduleLength : ℕ
  /-- How often the last thread was chosen in a row. -/
  countChosenSame : ℕ
  /-- The last thread. -/
  lastChosen : ℕ
  /-- The thread that a fair stage starts with. -/
  fairStart : ℕ
  /-- The fair stages that are left. -/
  fairStage : ℕ
  /-- The lengths of the rounds so far. -/
  kStatistics : List ℕ
  /-- The generator. -/
  rng : γ

namespace Pct

/-- Random change points. -/
def draw (G : Rng γ) (k : ℕ) : ℕ → γ → List ℕ × γ
  | 0, g => ([], g)
  | n + 1, g =>
    let r := G.uniform g 1 k
    let rest := draw G k n r.2
    (r.1 :: rest.1, rest.2)

theorem draw_length (G : Rng γ) (k n : ℕ) (g : γ) : (draw G k n g).1.length = n := by
  induction n generalizing g with
  | zero => rfl
  | succ n ih => exact congrArg Nat.succ (ih _)

/-- `PrepareForDepth`, for a depth `d + 1`. -/
def prepareForDepth (G : Rng γ) (d k threads : ℕ) (s : Pct γ) : Pct γ :=
  let values := G.shuffle s.rng ((List.range threads).map (d + 1 + ·))
  let points := draw G k d values.2
  { s with
    priorities :=
      { depth := d + 1
        values := values.1
        changePoints := points.1
        changePoints_lt := by
          rw [draw_length]
          exact Nat.lt_succ_self d
        values_pos := fun p hp => by
          obtain ⟨i, -, rfl⟩ := List.mem_map.mp ((G.shuffle_perm _ _).mem_iff.mp hp)
          omega }
    rng := points.2 }

/-- `UpdateStatistics`. -/
def updateStatistics (G : Rng γ) (threads : ℕ) (s : Pct γ) : Pct γ :=
  let kStatistics := s.kStatistics ++ [s.scheduleLength]
  prepareForDepth G (min s.priorities.depth 49) (kStatistics.sum / kStatistics.length) threads
    { s with
      scheduleLength := 0
      countChosenSame := 0
      fairStage := 0
      kStatistics := kStatistics }

section Next

variable (test : Bool → ν → ℕ → Bool × ν) (threads : ℕ)

/-- The fair stage of `AvoidLivelock`: the next eligible thread, whatever its priority. The pair is
the priority and the index of the thread. -/
def fairPick (v : ν) (s : Pct γ) (best : ℕ × ℕ) : (ℕ × ℕ) × ν × Pct γ :=
  if s.fairStage = 0 then (best, v, s)
  else
    let r := Scan.cyclic (test true) (fun k => (k + 1) % threads) (· + 1) threads v s.lastChosen
    let best := r.1.elim best fun i => (s.priorities.get i, i)
    (best, r.2.1,
      { s with
        lastChosen := r.2.2
        fairStage := if s.fairStart = best.2 then s.fairStage - 1 else s.fairStage })

/-- The rest of `AvoidLivelock`: counts how often the same thread is chosen. -/
def countSame (index : ℕ) (s : Pct γ) : Pct γ :=
  let s := if s.countChosenSame = 1000 ∧ index = s.lastChosen then
    { s with fairStage := 5, fairStart := index } else s
  { s with countChosenSame := if index = s.lastChosen then s.countChosenSame + 1 else 1 }

/-- The thread is chosen. -/
def chosen (index : ℕ) (s : Pct γ) : Pct γ :=
  { s with
    scheduleLength := s.scheduleLength + 1
    priorities := s.priorities.lower (s.scheduleLength + 1) index
    lastChosen := index }

/-- The eligible thread of the greatest priority. -/
def scanned (v : ν) (s : Pct γ) : (ℕ × ℕ) × ν :=
  Scan.argmax (test false) s.priorities.get (List.range threads) v (0, 0)

/-- The thread after the fair stage. -/
def best (v : ν) (s : Pct γ) : (ℕ × ℕ) × ν × Pct γ :=
  fairPick test threads (scanned test threads v s).2 s (scanned test threads v s).1

/-- `PctStrategy::NextThreadId`, and the choice in `NextSchedule`; the test is told whether it is
made in the fair stage. -/
def pick (v : ν) (s : Pct γ) : Option ℕ × ν × Pct γ :=
  let f := best test threads v s
  let s := countSame f.1.2 f.2.2
  if f.1.1 = 0 then (none, f.2.1, s) else (some f.1.2, f.2.1, chosen f.1.2 s)

end Next

section Picked

variable {test : Bool → ν → ℕ → Bool × ν} {threads : ℕ} {v : ν} {s : Pct γ} {Q : ν → Prop}
  (hQ : ∀ b v i, Q v → Q (test b v i).2) (hv : Q v)

include hQ hv

theorem scanned_state : Q (scanned test threads v s).2 := Scan.argmax_state (hQ false) hv

/-- The fair stage keeps what was found, or finds a thread with its priority. -/
theorem best_cases : (best test threads v s).1 = (scanned test threads v s).1 ∨
    ∃ i < threads, (best test threads v s).1 = (s.priorities.get i, i) ∧
      ∃ v', Q v' ∧ (test true v' i).1 = true := by
  unfold best fairPick
  split
  · exact .inl rfl
  dsimp only
  cases hr : (Scan.cyclic (test true) (fun k => (k + 1) % threads) (· + 1) threads
      (scanned test threads v s).2 s.lastChosen).1 with
  | none => exact .inl rfl
  | some i =>
    obtain ⟨⟨k, rfl⟩, hpass⟩ := Scan.cyclic_some (hQ true) (scanned_state hQ hv) hr
    refine .inr ⟨_, ?_, rfl, hpass⟩
    cases threads with
    | zero => cases hr
    | succ n => exact Nat.mod_lt _ (Nat.succ_pos n)

theorem best_ne_zero (h : (best test threads v s).1.1 ≠ 0) :
    (best test threads v s).1.2 < threads ∧
      ∃ b v', Q v' ∧ (test b v' (best test threads v s).1.2).1 = true := by
  obtain hbest | ⟨i, hi, hbest, hpass⟩ := best_cases hQ hv
  · rw [hbest] at h ⊢
    obtain hscan | ⟨hmem, hpass⟩ := Scan.argmax_mem (hQ false) s.priorities.get
      (List.range threads) hv (0, 0)
    · exact absurd (congrArg Prod.fst hscan) h
    · exact ⟨List.mem_range.mp hmem, false, hpass⟩
  · rw [hbest]
    exact ⟨hi, true, hpass⟩

/-- No priority is found only if no thread is eligible. -/
theorem best_eq_zero (hp : ∀ b v i, Q v → (test b v i).1 = p i)
    (hthreads : threads ≤ s.priorities.values.length) (h : (best test threads v s).1.1 = 0)
    (hi : i < threads) : p i = false := by
  have hpos (i : ℕ) (hi : i < threads) : 0 < s.priorities.get i :=
    s.priorities.get_pos (Nat.lt_of_lt_of_le hi hthreads)
  obtain hbest | ⟨i', hi', hbest, -⟩ := best_cases hQ hv
  · rw [hbest] at h
    have hscan := Scan.argmax_eq_zero (hQ false) (hp false) hv
      (fun i hi => hpos i (List.mem_range.mp hi)) h
    exact hscan.2 i (List.mem_range.mpr hi)
  · rw [hbest] at h
    exact absurd h (Nat.ne_of_gt (hpos i' hi'))

theorem pick_some (h : (pick test threads v s).1 = some i) :
    i < threads ∧ ∃ b v', Q v' ∧ (test b v' i).1 = true := by
  dsimp only [pick] at h
  split at h
  · cases h
  · rename_i hne
    exact Option.some.inj h ▸ best_ne_zero hQ hv hne

theorem pick_none (hp : ∀ b v i, Q v → (test b v i).1 = p i)
    (hthreads : threads ≤ s.priorities.values.length) (h : (pick test threads v s).1 = none)
    (hi : i < threads) : p i = false := by
  dsimp only [pick] at h
  split at h
  · rename_i hzero
    exact best_eq_zero hQ hv hp hthreads hzero hi
  · cases h

omit hQ hv in
theorem pick_length :
    (pick test threads v s).2.2.priorities.values.length = s.priorities.values.length := by
  have hbest : (best test threads v s).2.2.priorities = s.priorities := by
    unfold best fairPick
    split <;> rfl
  have hcount (index : ℕ) (s : Pct γ) : (countSame index s).priorities = s.priorities := by
    dsimp only [countSame]
    split <;> rfl
  dsimp only [pick]
  split
  · rw [hcount, hbest]
  · exact Priorities.lowered_length.trans (by rw [hcount, hbest])

theorem pick_state : Q (pick test threads v s).2.1 := by
  have hbest : Q (best test threads v s).2.1 := by
    unfold best fairPick
    split
    · exact scanned_state hQ hv
    · exact Scan.cyclic_state (hQ true) (scanned_state hQ hv)
  dsimp only [pick]
  split <;> exact hbest

end Picked

end Pct

section

variable (V : Verifier P ν)

/-- `PctStrategy`. -/
def pctStrategy (G : Rng γ) (onlyOne : Bool) :
    Picker V γ (Pct γ) where
  rng := G
  nextThreadId w s :=
    let r := s.own.pick (w.eligible V onlyOne) w.threads.length w.verifier
    (r.1, r.2.1, { s with own := r.2.2 })
  pickSchedule w s :=
    let r := s.own.pick (fun _ => w.eligibleSchedule V s.roundSchedule) w.threads.length w.verifier
    (r.1, r.2.1, { s with own := r.2.2 })
  startNextRound w s :=
    (V.onRoundStart w.verifier w.threadsCount, s.updateStatistics G w.threads.length)
  resetCurrentRound w s := s.updateStatistics G w.threads.length
  nextThreadId_lt w _ _ h :=
    (Pct.pick_some (Q := Asks V w.verifier) (fun _ _ _ => Asks.eligible) .none h).1
  pickSchedule_asks _ _ := Pct.pick_state (fun _ _ _ => Asks.eligibleSchedule) .none

/-! ### Questions -/

/-- The strategy asks the verifier when it picks a thread. -/
def Picker.AsksFirst {V : Verifier P ν} (K : Picker V γ ρ) : Prop :=
  ∀ w s, Asks V w.verifier (K.nextThreadId w s).2.1

theorem roundRobin_asksFirst (G : Rng γ) (onlyOne : Bool) :
    (roundRobinStrategy V G onlyOne).AsksFirst :=
  fun _ _ => Scan.cyclic_state (fun _ _ => Asks.eligible) .none

theorem random_asksFirst (G : Rng γ) (onlyOne : Bool) : (randomStrategy V G onlyOne).AsksFirst := by
  intro w s
  dsimp only [randomStrategy, randomPick]
  split
  · exact Scan.values_state (fun _ _ => Asks.eligible) .none
  · exact Scan.nth_state (fun _ _ => Asks.eligible)
      (Scan.values_state (fun _ _ => Asks.eligible) .none)

theorem pct_asksFirst (G : Rng γ) (onlyOne : Bool) : (pctStrategy V G onlyOne).AsksFirst :=
  fun _ _ => Pct.pick_state (fun _ _ _ => Asks.eligible) .none

end

end Scheduler

end LTest
