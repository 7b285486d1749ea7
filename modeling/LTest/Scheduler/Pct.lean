import LTest.Lib.Transition
import LTest.Scheduler.Fairness
import LTest.Scheduler.Operations
import Mathlib.Data.List.GetD
import Mathlib.Data.Nat.SuccPred

/-!
# The PCT strategy

`PctStrategy` runs the thread of the greatest priority. At random steps of a round, the change
points, the thread that was chosen gets a lower priority; the `i`-th of them assigns `depth - i`.
The priorities of a new round are `depth`, `depth + 1` and so on in random order. So the first
change point assigns the least priority of a new round, which another thread may still have.

How many steps a round will have is estimated by the average of the rounds before. All calls that
start or reset a round record a length, also when no step was made since the last one. If the first
round is a custom one, a length `0` is recorded first, and the change points are drawn from the
numbers between `1` and `0`.

## Main definitions

* `PctCall`, `Pct.Choice` — the calls that choose a thread, and what they do
* `PctRound` — a round with the threads that were lowered in it
* `PctRun` — the calls of all rounds
* `World.Eligible` — the threads that may be chosen

## Main results

* `pct_priorities` — the priorities are a strict order if the first change point does not repeat one
* `pct_estimate` — when the estimate is positive
* `pct_choice` — which thread is chosen
* `pct_choice_blocked_return` — a free thread that is not chosen
-/

namespace LTest

namespace Scheduler

variable {P : Program} {ν γ : Type}

/-! ### Lowering a priority -/

namespace Priorities

variable {p : Priorities}

/-- The last change point at a step decides. -/
theorem lowered_cases (depth length index : ℕ) (points : List (ℕ × ℕ)) (values : List ℕ) :
    ((∀ pt ∈ points, pt.1 ≠ length) ∧ lowered depth length index points values = values) ∨
      ∃ before pt after, points = before ++ pt :: after ∧ pt.1 = length ∧
        (∀ pt ∈ after, pt.1 ≠ length) ∧
        lowered depth length index points values = values.set index (depth - pt.2) := by
  induction points using List.reverseRecOn with
  | nil => exact .inl ⟨nofun, rfl⟩
  | append_singleton points pt ih =>
    have hlast : lowered depth length index (points ++ [pt]) values =
        if pt.1 = length then
          (lowered depth length index points values).set index (depth - pt.2)
        else lowered depth length index points values := by
      rw [lowered, List.foldl_append]
      rfl
    rw [hlast]
    split
    · rename_i hpt
      refine .inr ⟨points, pt, [], rfl, hpt, nofun, ?_⟩
      obtain ⟨-, hvalues⟩ | ⟨_, _, _, -, -, -, hvalues⟩ := ih
      · rw [hvalues]
      · rw [hvalues, List.set_set]
    · rename_i hpt
      obtain ⟨hnone, hvalues⟩ | ⟨before, pt', after, rfl, hpt', hafter, hvalues⟩ := ih
      · refine .inl ⟨fun q hq => ?_, hvalues⟩
        obtain hq | hq := List.mem_append.1 hq
        · exact hnone q hq
        · exact List.mem_singleton.1 hq ▸ hpt
      · refine .inr ⟨before, pt', after ++ [pt], by simp, hpt', fun q hq => ?_, hvalues⟩
        obtain hq | hq := List.mem_append.1 hq
        · exact hafter q hq
        · exact List.mem_singleton.1 hq ▸ hpt

/-- A priority changes if some change point is at the step, and the last one decides. -/
theorem lower_cases (p : Priorities) (length index : ℕ) :
    (length ∉ p.changePoints ∧ (p.lower length index).values = p.values) ∨
      ∃ m, p.changePoints[m]? = some length ∧
        (∀ m' > m, p.changePoints[m']? ≠ some length) ∧
        (p.lower length index).values = p.values.set index (p.depth - m) := by
  obtain ⟨hnone, hvalues⟩ | ⟨before, pt, after, hpoints, hpt, hafter, hvalues⟩ :=
    lowered_cases p.depth length index p.changePoints.zipIdx p.values
  · refine .inl ⟨fun hmem => ?_, hvalues⟩
    obtain ⟨m, hm⟩ := List.mem_iff_getElem?.1 hmem
    refine hnone (length, m) (List.mem_iff_getElem?.2 ⟨m, ?_⟩) rfl
    simp [List.getElem?_zipIdx, hm]
  · have hget (k : ℕ) : p.changePoints.zipIdx[k]? = (p.changePoints[k]?).map (·, k) := by
      simp [List.getElem?_zipIdx]
    have hat : p.changePoints.zipIdx[before.length]? = some pt := by
      rw [hpoints]
      simp
    rw [hget] at hat
    obtain ⟨c, hc, rfl⟩ := Option.map_eq_some_iff.1 hat
    refine .inr ⟨before.length, hpt ▸ hc, fun m hm hlater => ?_, hvalues⟩
    have hmem : p.changePoints.zipIdx[m]? = some (length, m) := by
      rw [hget, hlater]
      rfl
    rw [hpoints, List.getElem?_append_right hm.le] at hmem
    obtain ⟨d, hd⟩ := Nat.exists_eq_add_of_lt hm
    rw [hd, Nat.add_assoc, Nat.add_sub_cancel_left, List.getElem?_cons_succ] at hmem
    exact hafter _ (List.mem_of_getElem? hmem) rfl

theorem get_mem {i : ℕ} (hi : i < p.values.length) : p.get i ∈ p.values := by
  rw [get, List.getD_eq_getElem _ _ hi]
  exact List.getElem_mem hi

theorem get_inj (hnodup : p.values.Nodup) {i j : ℕ} (hi : i < p.values.length)
    (hj : j < p.values.length) (h : p.get i = p.get j) : i = j := by
  rw [get, get, List.getD_eq_getElem _ _ hi, List.getD_eq_getElem _ _ hj] at h
  exact (hnodup.getElem_inj_iff).1 h

theorem get_set_self {p' : Priorities} {i v : ℕ} (hi : i < p.values.length)
    (h : p'.values = p.values.set i v) : p'.get i = v := by
  rw [get, h, List.getD_eq_getElem?_getD, List.getElem?_set_self hi, Option.getD_some]

theorem get_set_of_ne {p' : Priorities} {i j v : ℕ} (hij : j ≠ i)
    (h : p'.values = p.values.set i v) : p'.get j = p.get j := by
  rw [get, h, List.getD_eq_getElem?_getD, List.getElem?_set_ne hij.symm,
    ← List.getD_eq_getElem?_getD]
  rfl

end Priorities

/-! ### Choosing a thread -/

namespace Pct

/-- What a choice does to the variables that later calls of the round read: nothing, or a thread is
chosen and perhaps lowered. -/
inductive Choice (threads : ℕ) (s : Pct γ) : Option ℕ → Pct γ → Prop
  | none {s' : Pct γ} (hpriorities : s'.priorities = s.priorities)
      (hlength : s'.scheduleLength = s.scheduleLength)
      (hstatistics : s'.kStatistics = s.kStatistics) : Choice threads s none s'
  | some {s' : Pct γ} {i : ℕ} (hi : i < threads)
      (hpriorities : s'.priorities = s.priorities.lower (s.scheduleLength + 1) i)
      (hlength : s'.scheduleLength = s.scheduleLength + 1)
      (hstatistics : s'.kStatistics = s.kStatistics) : Choice threads s (some i) s'

theorem pick_choice (test : Bool → ν → ℕ → Bool × ν) (threads : ℕ) (v : ν) (s : Pct γ) :
    Choice threads s (pick test threads v s).1 (pick test threads v s).2.2 := by
  have hbest : (best test threads v s).2.2.priorities = s.priorities ∧
      (best test threads v s).2.2.scheduleLength = s.scheduleLength ∧
      (best test threads v s).2.2.kStatistics = s.kStatistics := by
    unfold best fairPick
    split <;> exact ⟨rfl, rfl, rfl⟩
  have hcount (index : ℕ) (s : Pct γ) : (countSame index s).priorities = s.priorities ∧
      (countSame index s).scheduleLength = s.scheduleLength ∧
      (countSame index s).kStatistics = s.kStatistics := by
    dsimp only [countSame]
    split <;> exact ⟨rfl, rfl, rfl⟩
  obtain ⟨hpriorities, hlength, hstatistics⟩ := hcount (best test threads v s).1.2
    (best test threads v s).2.2
  rw [hbest.1] at hpriorities
  rw [hbest.2.1] at hlength
  rw [hbest.2.2] at hstatistics
  dsimp only [pick]
  split
  · exact .none hpriorities hlength hstatistics
  · rename_i hne
    have hlt := (best_ne_zero (Q := fun _ => True) (fun _ _ _ _ => trivial) trivial hne).1
    refine .some hlt ?_ ?_ hstatistics
    · rw [← hpriorities, ← hlength]
      rfl
    · rw [← hlength]
      rfl

end Pct

/-- `NextThreadId` or `NextSchedule`, with the round and the variables of the base class. -/
inductive PctCall (P : Program) (ν γ : Type)
  | nextThreadId (w : World P ν) (s : Base P γ (Pct γ))
  | nextSchedule (w : World P ν) (s : Base P γ (Pct γ))

namespace PctCall

/-- The round. -/
def world : PctCall P ν γ → World P ν
  | nextThreadId w _ => w
  | nextSchedule w _ => w

section Calls

variable (V : Verifier P ν) (G : Rng γ) (onlyOne : Bool)

/-- The thread that is chosen. -/
def chosen (own : Pct γ) : PctCall P ν γ → Option ℕ
  | nextThreadId w s => ((pctStrategy V G onlyOne).nextThreadId w { s with own := own }).1
  | nextSchedule w s => ((pctStrategy V G onlyOne).pickSchedule w { s with own := own }).1

/-- The variables of `PctStrategy` after the call. -/
def after (own : Pct γ) : PctCall P ν γ → Pct γ
  | nextThreadId w s => ((pctStrategy V G onlyOne).nextThreadId w { s with own := own }).2.2.own
  | nextSchedule w s => ((pctStrategy V G onlyOne).nextSchedule w { s with own := own }).2.2.own

theorem choice (own : Pct γ) (c : PctCall P ν γ) :
    own.Choice c.world.threads.length (c.chosen V G onlyOne own) (c.after V G onlyOne own) := by
  cases c with
  | nextThreadId w s => exact Pct.pick_choice _ _ _ _
  | nextSchedule w s =>
    have hafter : after V G onlyOne own (nextSchedule w s) =
        (own.pick (fun _ => w.eligibleSchedule V s.roundSchedule) w.threads.length
          w.verifier).2.2 := by
      show ((pctStrategy V G onlyOne).nextSchedule w { s with own := own }).2.2.own = _
      rw [Picker.nextSchedule]
      split <;> rfl
    rw [hafter]
    exact Pct.pick_choice _ _ _ _

end Calls

end PctCall

/-! ### The priorities of a round -/

/-- A round. -/
structure PctRound (γ : Type) where
  /-- The strategy. -/
  own : Pct γ
  /-- The threads whose priority was lowered in it. -/
  lowered : Finset ℕ := ∅

namespace PctRound

/-- The round is prepared, with any depth, any estimate and any random numbers. -/
def Prepared (G : Rng γ) (threads : ℕ) (r : PctRound γ) : Prop :=
  ∃ (d k : ℕ) (s : Pct γ), s.scheduleLength = 0 ∧
    r = ⟨s.prepareForDepth G d k threads, ∅⟩

/-- The threads that are lowered after a call. -/
def lower (i : Option ℕ) (r : PctRound γ) : Finset ℕ :=
  match i with
  | some i =>
    if r.own.scheduleLength + 1 ∈ r.own.priorities.changePoints then insert i r.lowered
    else r.lowered
  | none => r.lowered

section Calls

variable (V : Verifier P ν) (G : Rng γ) (onlyOne : Bool)

/-- The round after a call. -/
def call (r : PctRound γ) (c : PctCall P ν γ) : PctRound γ where
  own := c.after V G onlyOne r.own
  lowered := r.lower (c.chosen V G onlyOne r.own)

/-- When the first change point is the last one at the step, it assigns `depth`. Then no other
thread has this priority. -/
def Condition (threads : ℕ) (r : PctRound γ) (c : PctCall P ν γ) : Prop :=
  c.world.threads.length = threads ∧
    ∀ i, c.chosen V G onlyOne r.own = some i →
      r.own.priorities.changePoints[0]? = some (r.own.scheduleLength + 1) →
      (∀ m > 0, r.own.priorities.changePoints[m]? ≠ some (r.own.scheduleLength + 1)) →
      ∀ j < threads, j ≠ i → r.own.priorities.get j ≠ r.own.priorities.depth

end Calls

/-- The priorities of a round. -/
structure Ranked (threads : ℕ) (r : PctRound γ) : Prop where
  /-- Every thread has one. -/
  length : r.own.priorities.values.length = threads
  /-- Those that were not lowered are at least the depth. -/
  high : ∀ i < threads, i ∉ r.lowered → r.own.priorities.depth ≤ r.own.priorities.get i
  /-- Those that were lowered come from change points. -/
  low : ∀ i ∈ r.lowered, ∃ m c, r.own.priorities.changePoints[m]? = some c ∧
    c ≤ r.own.scheduleLength ∧ r.own.priorities.get i = r.own.priorities.depth - m
  /-- They are below the others. -/
  order : ∀ i ∈ r.lowered, ∀ j < threads, j ∉ r.lowered →
    r.own.priorities.get i < r.own.priorities.get j
  /-- All are different. -/
  distinct : ∀ i < threads, ∀ j < threads, i ≠ j →
    r.own.priorities.get i ≠ r.own.priorities.get j

namespace Ranked

variable {V : Verifier P ν} {G : Rng γ} {onlyOne : Bool} {threads : ℕ}
  {r : PctRound γ}

theorem of_prepared (h : r.Prepared G threads) : r.Ranked threads := by
  obtain ⟨d, k, s, -, rfl⟩ := h
  have hperm := G.shuffle_perm s.rng ((List.range threads).map (d + 1 + ·))
  have hlength : (s.prepareForDepth G d k threads).priorities.values.length = threads := by
    refine hperm.length_eq.trans ?_
    simp
  have hnodup : (s.prepareForDepth G d k threads).priorities.values.Nodup := by
    refine hperm.nodup_iff.2 (List.nodup_range.map fun a b hab => ?_)
    exact Nat.add_left_cancel hab
  constructor
  case length => exact hlength
  case high =>
    intro i hi _
    obtain ⟨j, -, hj⟩ := List.mem_map.1 (hperm.mem_iff.1
      (Priorities.get_mem (hi.trans_eq hlength.symm)))
    exact Nat.le_trans (Nat.le_add_right _ j) hj.le
  case low => exact fun i hi => absurd hi (Finset.notMem_empty i)
  case order => exact fun i hi => absurd hi (Finset.notMem_empty i)
  case distinct =>
    intro i hi j hj hij heq
    exact hij (Priorities.get_inj hnodup (hi.trans_eq hlength.symm) (hj.trans_eq hlength.symm) heq)

theorem of_unchanged (h : r.Ranked threads) {r' : PctRound γ}
    (hvalues : r'.own.priorities.values = r.own.priorities.values)
    (hdepth : r'.own.priorities.depth = r.own.priorities.depth)
    (hpoints : r'.own.priorities.changePoints = r.own.priorities.changePoints)
    (hlength : r.own.scheduleLength ≤ r'.own.scheduleLength) (hlowered : r'.lowered = r.lowered) :
    r'.Ranked threads := by
  have hget : r'.own.priorities.get = r.own.priorities.get := by
    funext i
    rw [Priorities.get, hvalues]
    rfl
  constructor
  case length => rw [hvalues, h.length]
  case high =>
    rw [hlowered, hget, hdepth]
    exact h.high
  case low =>
    rw [hlowered, hget, hdepth, hpoints]
    intro i hi
    obtain ⟨m, c, hm, hc, hi⟩ := h.low i hi
    exact ⟨m, c, hm, hc.trans hlength, hi⟩
  case order =>
    rw [hlowered, hget]
    exact h.order
  case distinct =>
    rw [hget]
    exact h.distinct

theorem of_lowered (h : r.Ranked threads) {r' : PctRound γ} {i m : ℕ} (hi : i < threads)
    (hm : r.own.priorities.changePoints[m]? = some (r.own.scheduleLength + 1))
    (hfirst : m = 0 → ∀ j < threads, j ≠ i → r.own.priorities.get j ≠ r.own.priorities.depth)
    (hvalues : r'.own.priorities.values =
      r.own.priorities.values.set i (r.own.priorities.depth - m))
    (hdepth : r'.own.priorities.depth = r.own.priorities.depth)
    (hpoints : r'.own.priorities.changePoints = r.own.priorities.changePoints)
    (hlength : r'.own.scheduleLength = r.own.scheduleLength + 1)
    (hlowered : r'.lowered = insert i r.lowered) : r'.Ranked threads := by
  have hself : r'.own.priorities.get i = r.own.priorities.depth - m :=
    Priorities.get_set_self (h.length ▸ hi) hvalues
  have hother (j : ℕ) (hj : j ≠ i) : r'.own.priorities.get j = r.own.priorities.get j :=
    Priorities.get_set_of_ne hj hvalues
  have hlt (m' c : ℕ) (hm' : r.own.priorities.changePoints[m']? = some c) :
      m' < r.own.priorities.depth :=
    (List.getElem?_eq_some_iff.1 hm').1.trans r.own.priorities.changePoints_lt
  have hmlt := hlt m _ hm
  -- the new priority is below all that were not lowered
  have hbelow (j : ℕ) (hj : j < threads) (hji : j ≠ i) (hnot : j ∉ r.lowered) :
      r.own.priorities.depth - m < r.own.priorities.get j := by
    have hhigh := h.high j hj hnot
    by_cases hzero : m = 0
    · have hne := hfirst hzero j hj hji
      omega
    · omega
  -- and different from those that were lowered at an earlier step
  have hdiffers (j : ℕ) (hji : j ≠ i) (hj : j ∈ r.lowered) :
      r.own.priorities.get j ≠ r.own.priorities.depth - m := by
    obtain ⟨m', c, hm', hc, hget⟩ := h.low j hj
    have hne : m' ≠ m := by
      rintro rfl
      rw [hm] at hm'
      have := Option.some.inj hm'
      omega
    have := hlt m' c hm'
    omega
  have hne (j : ℕ) (hj : j < threads) (hji : j ≠ i) :
      r.own.priorities.get j ≠ r.own.priorities.depth - m := by
    by_cases hmem : j ∈ r.lowered
    · exact hdiffers j hji hmem
    · exact (hbelow j hj hji hmem).ne'
  constructor
  case length => rw [hvalues, List.length_set, h.length]
  case high =>
    intro j hj hnot
    rw [hlowered, Finset.mem_insert, not_or] at hnot
    rw [hother j hnot.1, hdepth]
    exact h.high j hj hnot.2
  case low =>
    intro j hj
    rw [hlowered] at hj
    rw [hpoints, hlength, hdepth]
    by_cases hji : j = i
    · subst hji
      exact ⟨m, _, hm, Nat.le_refl _, hself⟩
    · obtain ⟨m', c, hm', hc, hget⟩ := h.low j (Finset.mem_of_mem_insert_of_ne hj hji)
      exact ⟨m', c, hm', Nat.le_succ_of_le hc, (hother j hji).trans hget⟩
  case order =>
    intro j hj j' hj' hnot
    rw [hlowered] at hj
    rw [hlowered, Finset.mem_insert, not_or] at hnot
    rw [hother j' hnot.1]
    by_cases hji : j = i
    · rw [hji, hself]
      exact hbelow j' hj' hnot.1 hnot.2
    · rw [hother j hji]
      exact h.order j (Finset.mem_of_mem_insert_of_ne hj hji) j' hj' hnot.2
  case distinct =>
    intro j hj j' hj' hjj
    by_cases hji : j = i
    · subst hji
      rw [hself, hother j' hjj.symm]
      exact (hne j' hj' hjj.symm).symm
    · rw [hother j hji]
      by_cases hji' : j' = i
      · rw [hji', hself]
        exact hne j hj hji
      · rw [hother j' hji']
        exact h.distinct j hj j' hj' hjj

/-- **A call keeps the order.** -/
theorem call (h : r.Ranked threads) {c : PctCall P ν γ}
    (hc : r.Condition V G onlyOne threads c) : (r.call V G onlyOne c).Ranked threads := by
  obtain ⟨hthreads, hfirst⟩ := hc
  have hchoice := c.choice V G onlyOne r.own
  generalize hi : c.chosen V G onlyOne r.own = i at hchoice
  have hlowered : (r.call V G onlyOne c).lowered = r.lower i := by rw [PctRound.call, hi]
  have hown : (r.call V G onlyOne c).own = c.after V G onlyOne r.own := rfl
  rw [← hown] at hchoice
  cases hchoice with
  | none hpriorities hlength _ =>
    refine h.of_unchanged ?_ ?_ ?_ hlength.ge hlowered
    all_goals rw [hpriorities]
  | @some _ i hlt hpriorities hlength _ =>
    rw [hthreads] at hlt
    obtain ⟨hnone, hvalues⟩ | ⟨m, hm, hlast, hvalues⟩ :=
      r.own.priorities.lower_cases (r.own.scheduleLength + 1) i
    · refine h.of_unchanged ?_ ?_ ?_ (by omega) ?_
      · rw [hpriorities, hvalues]
      · rw [hpriorities]
        rfl
      · rw [hpriorities]
        rfl
      · rw [hlowered, PctRound.lower, if_neg hnone]
    · refine h.of_lowered hlt hm ?_ ?_ ?_ ?_ hlength ?_
      · rintro rfl
        exact hfirst i hi hm hlast
      · rw [hpriorities, hvalues]
      · rw [hpriorities]
        rfl
      · rw [hpriorities]
        rfl
      · rw [hlowered, PctRound.lower, if_pos (List.mem_of_getElem? hm)]

end Ranked

/-- The priorities of a round. -/
structure StrictPriorities (threads : ℕ) (r : PctRound γ) : Prop where
  /-- They are a strict order. -/
  distinct : ∀ i < threads, ∀ j < threads, i ≠ j →
    r.own.priorities.get i ≠ r.own.priorities.get j
  /-- It respects the change points. -/
  lowered_lt : ∀ i ∈ r.lowered, ∀ j < threads, j ∉ r.lowered →
    r.own.priorities.get i < r.own.priorities.get j

end PctRound

open PctRound

/-- **The priorities are a strict order** in every round in which the first change point, when it
decides, does not assign a priority that another thread has. -/
theorem pct_priorities {V : Verifier P ν} {G : Rng γ} {onlyOne : Bool}
    {threads : ℕ} {r : PctRound γ}
    (h : Reached (fun r c r' => r' = r.call V G onlyOne c) (Condition V G onlyOne threads)
      (Prepared G threads) r) : r.StrictPriorities threads := by
  have hranked : r.Ranked threads :=
    h.invariant (fun _ => Ranked.of_prepared) fun _ _ _ hr hc hs => hs ▸ hr.call hc
  exact ⟨hranked.distinct, hranked.order⟩

/-- Two threads without tasks. -/
def idleWorld : World instantProgram Unit := World.new 2 () () ()

/-- A call of `NextThreadId` on them. -/
def idleCall : PctCall instantProgram Unit Unit :=
  .nextThreadId idleWorld ⟨[instantBuilder], (), [none, none],
    ⟨⟨1, [], [], Nat.one_pos, nofun⟩, 0, 0, 0, 0, 0, [], ()⟩⟩

/-- Two threads are prepared for a depth `d + 1`, and a thread is chosen. -/
def firstChoice (d : ℕ) : PctRound Unit :=
  call permissive Rng.first false
    ⟨Pct.prepareForDepth Rng.first d 1 2
      ⟨⟨1, [], [], Nat.one_pos, nofun⟩, 0, 0, 0, 0, 0, [], ()⟩, ∅⟩
    idleCall

theorem pct_priorities_firstChoice :
    (firstChoice 2).own.priorities.values = [3, 2] ∧ (firstChoice 2).lowered = {1} ∧
      (firstChoice 2).StrictPriorities 2 := by
  have h : Reached (fun r c r' => r' = r.call permissive Rng.first false c)
      (Condition permissive Rng.first false 2) (Prepared Rng.first 2) (firstChoice 2) :=
    -- both change points are at the first step
    .step (.init ⟨2, 1, _, rfl, rfl⟩)
      ⟨rfl, fun _ _ _ hlast => absurd rfl (hlast 1 Nat.one_pos)⟩ rfl
  exact ⟨rfl, rfl, pct_priorities h⟩

/-- **The first change point repeats a priority**: of two threads with the priorities `2` and `3`
the second one is chosen at the first step, and its priority becomes `2`. -/
theorem first_change_point_ties :
    Reached (fun r c r' => r' = r.call permissive Rng.first false c)
        (fun _ c => c.world.threads.length = 2) (Prepared Rng.first 2) (firstChoice 1) ∧
      (firstChoice 1).own.priorities.values = [2, 2] ∧
      ¬ (firstChoice 1).StrictPriorities 2 := by
  refine ⟨?_, rfl, fun h => h.distinct 0 (by decide) 1 (by decide) (by decide) rfl⟩
  exact .step (.init ⟨1, 1, _, rfl, rfl⟩) rfl rfl

/-! ### The estimate -/

namespace Pct

/-- The constructor of `PctStrategy`. -/
def new (G : Rng γ) (threads : ℕ) (g : γ) : Pct γ :=
  prepareForDepth G 0 1 threads
    { priorities := ⟨1, [], [], Nat.one_pos, nofun⟩
      scheduleLength := 0
      countChosenSame := 0
      lastChosen := 0
      fairStart := 0
      fairStage := 0
      kStatistics := []
      rng := g }

/-- The estimate of `UpdateStatistics`: the average length of the rounds. -/
def estimate (s : Pct γ) : ℕ :=
  (s.kStatistics ++ [s.scheduleLength]).sum / (s.kStatistics ++ [s.scheduleLength]).length

/-- The length of the round is recorded. -/
def recorded (s : Pct γ) : Pct γ :=
  { s with
    scheduleLength := 0
    countChosenSame := 0
    fairStage := 0
    kStatistics := s.kStatistics ++ [s.scheduleLength] }

theorem prepareForDepth_length (G : Rng γ) (d k threads : ℕ) (s : Pct γ) :
    (s.prepareForDepth G d k threads).priorities.values.length = threads := by
  refine (G.shuffle_perm s.rng _).length_eq.trans ?_
  simp

end Pct

/-- The calls that start or reset a round, with the round after the call of the base class, and the
calls that choose a thread. -/
inductive PctMove (P : Program) (ν γ : Type)
  | startNextRound (w : World P ν)
  | resetCurrentRound (w : World P ν)
  | setCustomRound (w : World P ν)
  | choose (c : PctCall P ν γ)

/-- `PctStrategy` in a run. -/
structure PctRun (γ : Type) where
  /-- The number of threads. -/
  threads : ℕ
  /-- The strategy. -/
  own : Pct γ
  /-- How many threads were chosen so far; nothing reads it. -/
  choices : ℕ := 0
  /-- How many calls started or reset a round; nothing reads it. -/
  resets : ℕ := 0

namespace PctRun

/-- The strategy is new. -/
def Initial (G : Rng γ) (r : PctRun γ) : Prop :=
  ∃ threads g, r = ⟨threads, Pct.new G threads g, 0, 0⟩

section Moves

variable (V : Verifier P ν) (G : Rng γ) (onlyOne : Bool)

/-- The strategy after a call that started or reset a round. -/
def reset (r : PctRun γ) (w : World P ν) (own : Pct γ) : PctRun γ where
  threads := w.threads.length
  own := own
  choices := r.choices
  resets := r.resets + 1

/-- The strategy after a call. -/
def move (r : PctRun γ) : PctMove P ν γ → PctRun γ
  | .startNextRound w => r.reset w ((pctStrategy V G onlyOne).startNextRound w r.own).2
  | .resetCurrentRound w => r.reset w ((pctStrategy V G onlyOne).resetCurrentRound w r.own)
  | .setCustomRound w => r.reset w (r.own.updateStatistics G w.threads.length)
  | .choose c =>
    { r with
      own := c.after V G onlyOne r.own
      choices := r.choices + (c.chosen V G onlyOne r.own).toList.length }

/-- Threads are chosen among those of the round. -/
def Permits (r : PctRun γ) : PctMove P ν γ → Prop
  | .choose c => c.world.threads.length = r.threads
  | _ => True

/-- The states that are reached by the calls. -/
def Reachable : PctRun γ → Prop :=
  Reached (fun r m r' => r' = r.move V G onlyOne m) Permits (Initial G)

end Moves

/-- What the statistics record. -/
structure Inv (r : PctRun γ) : Prop where
  priorities : r.own.priorities.values.length = r.threads
  choices : r.own.kStatistics.sum + r.own.scheduleLength = r.choices
  resets : r.own.kStatistics.length = r.resets

variable {V : Verifier P ν} {G : Rng γ} {onlyOne : Bool} {r : PctRun γ}

theorem Inv.reset (h : r.Inv) (w : World P ν) :
    (r.reset w (r.own.updateStatistics G w.threads.length)).Inv := by
  constructor
  case priorities => exact Pct.prepareForDepth_length G _ _ _ _
  case choices =>
    show (r.own.kStatistics ++ [r.own.scheduleLength]).sum + 0 = r.choices
    rw [List.sum_append, List.sum_singleton, Nat.add_zero, h.choices]
  case resets =>
    show (r.own.kStatistics ++ [r.own.scheduleLength]).length = r.resets + 1
    rw [List.length_append, h.resets, List.length_singleton]

theorem Inv.choose (h : r.Inv) (c : PctCall P ν γ) : (r.move V G onlyOne (.choose c)).Inv := by
  have hchoice := c.choice V G onlyOne r.own
  have hmove : r.move V G onlyOne (.choose c) =
      { r with
        own := c.after V G onlyOne r.own
        choices := r.choices + (c.chosen V G onlyOne r.own).toList.length } := rfl
  rw [hmove]
  generalize c.after V G onlyOne r.own = own' at hchoice
  generalize c.chosen V G onlyOne r.own = i at hchoice
  cases hchoice with
  | none hpriorities hlength hstatistics =>
    constructor
    case priorities => exact (congrArg (·.values.length) hpriorities).trans h.priorities
    case choices =>
      rw [hlength, hstatistics]
      exact h.choices
    case resets => exact (congrArg List.length hstatistics).trans h.resets
  | some hi hpriorities hlength hstatistics =>
    constructor
    case priorities =>
      rw [hpriorities]
      exact Priorities.lowered_length.trans h.priorities
    case choices =>
      rw [hlength, hstatistics]
      exact congrArg (· + 1) h.choices
    case resets => exact (congrArg List.length hstatistics).trans h.resets

theorem Reachable.inv (h : r.Reachable V G onlyOne) : r.Inv := by
  refine Reached.invariant ?_ ?_ h
  · rintro _ ⟨threads, g, rfl⟩
    exact ⟨Pct.prepareForDepth_length G _ _ _ _, rfl, rfl⟩
  · rintro r m _ hr - rfl
    cases m with
    | startNextRound w => exact hr.reset w
    | resetCurrentRound w => exact hr.reset w
    | setCustomRound w => exact hr.reset w
    | choose c => exact hr.choose c

/-- The average is positive if more threads were chosen than rounds were started or reset. -/
theorem Inv.estimate_pos (h : r.Inv) : 1 ≤ r.own.estimate ↔ r.resets + 1 ≤ r.choices := by
  rw [Pct.estimate, Nat.le_div_iff_mul_le (by simp), List.sum_append, List.length_append,
    List.sum_singleton, List.length_singleton, h.choices, h.resets, Nat.one_mul]

end PctRun

/-- **When the estimate is positive**: a new strategy is prepared with the estimate `1`, and a call
that starts or resets a round prepares it with a positive estimate if and only if more threads were
chosen so far than such calls were made. -/
theorem pct_estimate {V : Verifier P ν} {G : Rng γ} {onlyOne : Bool}
    {r : PctRun γ} (h : r.Reachable V G onlyOne) (w : World P ν) :
    (∀ m ∈ [PctMove.startNextRound w, .resetCurrentRound w, .setCustomRound w],
      (r.move V G onlyOne m).own = r.own.recorded.prepareForDepth G (min r.own.priorities.depth 49)
        r.own.estimate w.threads.length) ∧
    (1 ≤ r.own.estimate ↔ r.resets + 1 ≤ r.choices) := by
  refine ⟨?_, h.inv.estimate_pos⟩
  simp only [List.mem_cons, List.not_mem_nil, or_false, forall_eq_or_imp, forall_eq]
  exact ⟨rfl, rfl, rfl⟩

/-- A strategy for two threads that is new. -/
def newRun : PctRun Unit := ⟨2, Pct.new Rng.first 2 (), 0, 0⟩

theorem newRun_reachable : newRun.Reachable permissive Rng.first false := .init ⟨2, (), rfl⟩

/-- It chooses a thread. -/
def chosenRun : PctRun Unit := newRun.move permissive Rng.first false (.choose idleCall)

theorem pct_estimate_chosenRun : chosenRun.resets + 1 ≤ chosenRun.choices ∧
    1 ≤ chosenRun.own.estimate := by
  have h : chosenRun.Reachable permissive Rng.first false :=
    newRun_reachable.step (m := .choose idleCall) rfl rfl
  exact ⟨Nat.le_refl 1, (pct_estimate h idleWorld).2.2 (Nat.le_refl 1)⟩

/-- **The first estimate is zero** if `Run` begins with a custom round: no round has a length
yet. -/
theorem custom_round_estimate :
    let w := idleWorld.setCustomRound permissive [[instantBuilder], [instantBuilder]]
    newRun.Reachable permissive Rng.first false ∧ newRun.own.estimate = 0 ∧
      (newRun.move permissive Rng.first false (.setCustomRound w)).own =
        newRun.own.recorded.prepareForDepth Rng.first 1 0 2 :=
  ⟨newRun_reachable, rfl, rfl⟩

/-! ### The choice -/

namespace Pct

/-- The first thread after the last one chosen that passes the test, in cyclic order. -/
def FirstAfter (passes : ℕ → Prop) (threads last i : ℕ) : Prop :=
  ∃ a < threads, i = (last + 1 + a) % threads ∧ ∀ b < a, ¬ passes ((last + 1 + b) % threads)

/-- The search of `AvoidLivelock`. -/
theorem cyclic_firstAfter {test : ν → ℕ → Bool × ν} {v : ν} {p : ℕ → Bool}
    (hp : ∀ i, test v i = (p i, v)) (threads last : ℕ) :
    ((Scan.cyclic test (fun k => (k + 1) % threads) (· + 1) threads v last).1 = none ∧
        ∀ i < threads, p i = false) ∨
      ∃ i < threads,
        (Scan.cyclic test (fun k => (k + 1) % threads) (· + 1) threads v last).1 = some i ∧
        p i = true ∧ FirstAfter (fun j => p j = true) threads last i := by
  have hstate (i : ℕ) : (test v i).2 = v := congrArg Prod.snd (hp i)
  have hpass (i : ℕ) : (test v i).1 = p i := congrArg Prod.fst (hp i)
  have hindex (a : ℕ) : ((· + 1)^[a] last + 1) % threads = (last + 1 + a) % threads := by
    rw [Nat.add_right_comm]
    exact congrArg (fun k => (k + 1) % threads) (Nat.succ_iterate last a)
  have hcases := Scan.cyclic_cases hstate (fun k => (k + 1) % threads) (· + 1) threads last
  simp only [hpass] at hcases
  obtain ⟨a, ha, hscan, -, hpass, hfail⟩ | ⟨hscan, -, hfail⟩ := hcases
  · refine .inr ⟨_, Nat.mod_lt _ (Nat.zero_lt_of_lt ha), by rw [hscan], hpass, a, ha, hindex a, ?_⟩
    intro b hb
    dsimp only
    rw [← hindex, hfail b hb]
    exact Bool.false_ne_true
  · refine .inl ⟨by rw [hscan], fun i hi => ?_⟩
    obtain ⟨a, ha, rfl⟩ := exists_attempt (last + 1) hi
    rw [← hindex]
    exact hfail a ha

/-- **What is picked**: nothing if no thread passes the test. Otherwise a thread that passes, the
one with the greatest priority outside of the fair stage and the next one in it. -/
theorem pick_cases {test : Bool → ν → ℕ → Bool × ν} {threads : ℕ} {v : ν} {s : Pct γ} {p : ℕ → Bool}
    (hp : ∀ b i, test b v i = (p i, v)) (hlength : s.priorities.values.length = threads) :
    ((pick test threads v s).1 = none ∧ ∀ i < threads, p i = false) ∨
      ∃ i < threads, (pick test threads v s).1 = some i ∧ p i = true ∧
        (s.fairStage = 0 → ∀ j < threads, p j = true →
          s.priorities.get j ≤ s.priorities.get i) ∧
        (0 < s.fairStage → FirstAfter (fun j => p j = true) threads s.lastChosen i) := by
  have hpos (i : ℕ) (hi : i < threads) : 0 < s.priorities.get i :=
    s.priorities.get_pos (hi.trans_eq hlength.symm)
  have hpick (i : ℕ) (hi : i < threads)
      (hbest : (best test threads v s).1 = (s.priorities.get i, i)) :
      (pick test threads v s).1 = some i := by
    dsimp only [pick]
    rw [hbest, if_neg (hpos i hi).ne']
  have hpick_none (hbest : (best test threads v s).1 = (0, 0)) :
      (pick test threads v s).1 = none := by
    dsimp only [pick]
    rw [hbest, if_pos rfl]
  have hkeeps (i : ℕ) : (test false v i).2 = v := congrArg Prod.snd (hp false i)
  obtain ⟨hstate, -, hmax, hfound⟩ :=
    Scan.argmax_cases hkeeps s.priorities.get (List.range threads) (0, 0)
  simp only [hp] at hmax hfound
  change (scanned test threads v s).2 = v at hstate
  change ∀ i ∈ _, _ → _ ≤ (scanned test threads v s).1.1 at hmax
  change (scanned test threads v s).1 = _ ∨ ∃ i ∈ _, _ ∧ (scanned test threads v s).1 = _ at hfound
  by_cases hstage : s.fairStage = 0
  · have hbest : (best test threads v s).1 = (scanned test threads v s).1 := by
      unfold best fairPick
      rw [if_pos hstage]
    obtain hscan | ⟨i, hi, hpass, hscan⟩ := hfound
    · refine .inl ⟨hpick_none (hbest.trans hscan), fun i hi => ?_⟩
      by_contra hpass
      have hle := hmax i (List.mem_range.2 hi) (Bool.eq_true_of_not_eq_false hpass)
      rw [hscan] at hle
      exact (hpos i hi).not_ge hle
    · rw [List.mem_range] at hi
      refine .inr ⟨i, hi, hpick i hi (hbest.trans hscan), hpass, fun _ j hj hj' => ?_,
        fun h => absurd hstage h.ne'⟩
      have hle := hmax j (List.mem_range.2 hj) hj'
      rwa [hscan] at hle
  · have hbest (o : Option ℕ) (ho : (Scan.cyclic (test true) (fun k => (k + 1) % threads) (· + 1)
        threads v s.lastChosen).1 = o) : (best test threads v s).1 =
          o.elim (scanned test threads v s).1 fun i => (s.priorities.get i, i) := by
      unfold best fairPick
      rw [if_neg hstage, hstate]
      dsimp only
      rw [ho]
    obtain ⟨hnone, hfail⟩ | ⟨i, hi, hsome, hpass, hfirst⟩ :=
      cyclic_firstAfter (hp true) threads s.lastChosen
    · obtain hscan | ⟨i, hi, hpass, -⟩ := hfound
      · exact .inl ⟨hpick_none ((hbest _ hnone).trans hscan), hfail⟩
      · exact absurd hpass (ne_true_of_eq_false (hfail i (List.mem_range.1 hi)))
    · exact .inr ⟨i, hi, hpick i hi (hbest _ hsome), hpass, fun h => absurd h hstage,
        fun _ => hfirst⟩

end Pct

/-- A thread may be chosen: it is free while new tasks are allowed and enabled for it, or the
verifier accepts its current task; and its last task is not blocked, even if it has returned. -/
def World.Eligible (V : Verifier P ν) (onlyOne : Bool) (w : World P ν) (i : ℕ) :
    Prop :=
  (w.isFree i = true ∧ w.allowNewTasks = true ∧ w.newTaskAreEnabled onlyOne i = true ∨
      ∃ t, w.back? i = some t ∧ t.returned = false ∧
        (V.verifyExisting w.verifier t i).1 = true) ∧
    ∀ t, w.back? i = some t → w.isBlocked t = false

theorem World.eligible_iff {V : Verifier P ν} {w : World P ν} {i : ℕ}
    (onlyOne verifyFirst : Bool) (hos : w.canThreadContinue i = true) :
    (w.eligible V onlyOne verifyFirst w.verifier i).1 = true ↔ w.Eligible V onlyOne i := by
  rw [World.eligible_fst, hos]
  unfold World.Eligible World.newTaskAreEnabled World.isFree
  cases hback : w.back? i with
  | none => simp
  | some t =>
    cases hreturned : t.returned <;> simp [hreturned, and_comm, and_assoc]

/-- **The choice of PCT** is complete and respects the priorities, if the check of existing tasks
does not change the state of the verifier and no thread waits for an OS thread. -/
theorem pct_choice {V : Verifier P ν} {G : Rng γ} {onlyOne : Bool} {r : PctRun γ}
    (h : r.Reachable V G onlyOne) (hV : V.Pure)
    (hos : ∀ env target i, P.canThreadContinue env target i = true) (w : World P ν)
    (hw : w.threads.length = r.threads) (s : Base P γ (Pct γ)) (hs : s.own = r.own) :
    (((pctStrategy V G onlyOne).nextThreadId w s).1 = none ↔
      ∀ i < r.threads, ¬ w.Eligible V onlyOne i) ∧
    (∀ i, ((pctStrategy V G onlyOne).nextThreadId w s).1 = some i →
      i < r.threads ∧ w.Eligible V onlyOne i ∧
      (r.own.fairStage = 0 → ∀ j < r.threads, w.Eligible V onlyOne j →
        r.own.priorities.get j ≤ r.own.priorities.get i) ∧
      (0 < r.own.fairStage → Pct.FirstAfter (w.Eligible V onlyOne) r.threads r.own.lastChosen i)) ∧
    r.own.priorities.values.length = r.threads ∧ ∀ p ∈ r.own.priorities.values, 0 < p := by
  have hlength := h.inv.priorities
  have hpick : ((pctStrategy V G onlyOne).nextThreadId w s).1 =
      (r.own.pick (w.eligible V onlyOne) r.threads w.verifier).1 := by
    rw [← hs, ← hw]
    rfl
  have hiff (b : Bool) (i : ℕ) : (w.eligible V onlyOne b w.verifier i).1 = true ↔
      w.Eligible V onlyOne i := World.eligible_iff onlyOne b (hos _ _ i)
  have hp (b : Bool) (i : ℕ) : w.eligible V onlyOne b w.verifier i =
      ((w.eligible V onlyOne false w.verifier i).1, w.verifier) :=
    Prod.ext (Bool.eq_iff_iff.mpr ((hiff b i).trans (hiff false i).symm)) (hV.eligible w _ _ _ i)
  have hcases := Pct.pick_cases hp hlength
  simp only [← Bool.not_eq_true, hiff] at hcases
  rw [hpick]
  obtain ⟨hnone, hfail⟩ | ⟨i, hi, hsome, hpass, hmax, hfirst⟩ := hcases
  · refine ⟨iff_of_true hnone hfail, fun i hi => ?_, hlength, r.own.priorities.values_pos⟩
    rw [hnone] at hi
    cases hi
  · refine ⟨iff_of_false ?_ fun hall => hall i hi hpass, fun j hj => ?_, hlength,
      r.own.priorities.values_pos⟩
    · rw [hsome]
      nofun
    · obtain rfl := Option.some.inj (hsome.symm.trans hj)
      exact ⟨hi, hpass, hmax, hfirst⟩

theorem pct_choice_newRun :
    ((pctStrategy permissive Rng.first false).nextThreadId idleWorld
        ⟨[instantBuilder], (), [none, none], newRun.own⟩).1 = some 1 ∧
      idleWorld.Eligible permissive false 1 := by
  have hchoice := pct_choice newRun_reachable (fun _ _ _ => rfl) (fun _ _ _ => rfl) idleWorld rfl
    ⟨[instantBuilder], (), [none, none], newRun.own⟩ rfl
  exact ⟨rfl, (hchoice.2.1 1 rfl).2.1⟩

/-! ### A method that blocks and returns -/

/-- A target whose method enters a block queue and returns without a yield. -/
def parkingProgram : Program where
  Target := Unit
  Env := Unit
  Fiber := Unit
  Args := Unit
  Val := Unit
  targetFactory _ := ((), ())
  resume id _ _ _ m _ := (⟨(), (), m.blockOn 1 id, some 1, none, [], some ()⟩, ())

/-- The verifier that accepts everything. -/
abbrev parkingVerifier : Verifier parkingProgram Unit :=
  defaultStrategyTaskVerifier

/-- PCT for one thread, before its first call. -/
def parkingBase : Base parkingProgram Unit (Pct Unit) :=
  ⟨[⟨"f", fun _ _ => ((), ()), fun _ => (), false⟩], (), [none], Pct.new Rng.first 1 ()⟩

/-- The round after its first iteration. -/
abbrev parkingRound :=
  StrategyScheduler.run (pctStrategy parkingVerifier Rng.first false).toStrategy 2
    (World.new 1 () () ()) parkingBase 1

/-- **A free thread that is not chosen.** The first task has returned and is still in a block queue,
so its thread is passed over although it is free and new tasks are allowed. -/
theorem pct_choice_blocked_return :
    let w := parkingRound.trace.world
    let s := parkingRound.strategy
    parkingRound.status = .running ∧
      (∃ r : PctRun Unit, r.Reachable parkingVerifier Rng.first false ∧
        w.threads.length = r.threads ∧ s.own = r.own) ∧
      ¬ (((pctStrategy parkingVerifier Rng.first false).nextThreadId w s).1 = none ↔
        ∀ i < w.threads.length, ¬ (w.isFree i = true ∧ w.allowNewTasks = true ∨
          ∃ t, w.back? i = some t ∧ t.returned = false ∧ w.isBlocked t = false ∧
            (parkingVerifier.verifyExisting w.verifier t i).1 = true)) := by
  refine ⟨rfl, ⟨_, .step (m := .choose (.nextThreadId (World.new 1 () () ()) parkingBase))
    (.init ⟨1, (), rfl⟩) rfl rfl, rfl, rfl⟩, fun h => ?_⟩
  exact h.1 (by decide) 0 Nat.one_pos (.inl ⟨by decide, by decide⟩)

end Scheduler

end LTest
