import LTest.Tla.Repeats
import LTest.Tla.Skips
import Mathlib.Data.List.Nodup
import Mathlib.Data.List.Range

/-!
# When the schedules are enumerated

The strategy enumerates the schedules only in degenerate cases: there are no threads, a round has
a single task that returns at once, or there is a single schedule.

## Main results

* `Walk.single_after` — rounds of one task are enumerated in order
* `Walk.Winding.exists_done` — the end of a run that has a single schedule
* `enumeratesOnce_iff` — exactly when each complete schedule is executed once
-/

namespace LTest

namespace Tla

variable {resumes : List ℕ} {n k m : ℕ}

/-! ### Exhaustion -/

namespace Walk

variable {w : Walk}

/-- Nothing is left to be tried. -/
structure Done (n : ℕ) (w : Walk) : Prop where
  frames : w.frames = []
  frameCounter : w.frameCounter = 0
  startedTasks : w.startedTasks = 0
  start : n ≤ w.start.1
  isExhausted : w.isExhausted = true

theorem target_of_le (h : n ≤ w.start.1) : w.target n k = w.start := by
  rw [target, if_neg fun hlt => Nat.not_lt_of_le h hlt.1]

theorem Done.step (h : Done n w) (hm : 1 ≤ m) : w.step n k m = w := by
  obtain ⟨hframes, hcounter, hstarted, hstart, hexhausted⟩ := h
  rw [Walk.step, target_of_le hstart, if_neg (by omega), if_neg (by simp [hframes]),
    if_neg (Nat.not_lt_of_le hstart), fail, if_pos hframes]
  cases w
  simp only at hframes hcounter hstarted hexhausted
  subst hframes hcounter hstarted hexhausted
  rfl

theorem done_fail (hframes : w.frames = []) {p : ℕ × ℕ} (hp : n ≤ p.1) :
    Done n (w.fail k p) ∧ (w.fail k p).executed = w.executed := by
  rw [fail, if_pos hframes, startNextRound, hframes]
  exact ⟨⟨rfl, rfl, rfl, hp, rfl⟩, rfl⟩

end Walk

/-- An exhausted run in which each schedule was executed once. -/
theorem enumeratesOnce_of_done (hone : ∀ r ∈ resumes, r = 1) (hpos : 0 < resumes.length)
    (hm : 1 ≤ m) (steps : ℕ) (hdone : Walk.Done n (Walk.after n resumes.length m steps))
    (hcount : ∀ pairs, Bounded n resumes.length pairs → pairs.length = m →
      (Walk.after n resumes.length m steps).executed.count pairs = 1) :
    EnumeratesOnce n resumes m := by
  rw [enumeratesOnce_iff_walk hone hpos]
  refine ⟨steps, fun later hle => ?_⟩
  have hsame : Walk.after n resumes.length m later = Walk.after n resumes.length m steps := by
    obtain ⟨j, rfl⟩ := Nat.exists_eq_add_of_le' hle
    rw [Walk.after, Function.iterate_add_apply]
    exact Function.iterate_fixed (hdone.step hm) j
  rw [hsame]
  exact ⟨hdone.isExhausted, hcount⟩

/-! ### No threads -/

theorem runSchedule_zero (resumes : List ℕ) {schedule : List Choice} (hne : schedule ≠ [])
    (left : ℕ → ℕ) : runSchedule 0 resumes schedule left = none := by
  cases schedule with
  | nil => exact absurd rfl hne
  | cons choice rest =>
    obtain ⟨i, c⟩ := choice
    cases c <;> simp [runSchedule]

/-- Without threads the strategy is exhausted at once, and there is no complete schedule. -/
theorem enumeratesOnce_zero (hm : 1 ≤ m) : EnumeratesOnce 0 resumes m := by
  have hstep : ∀ b, Run.step 0 resumes m { strategy := { isExhausted := b } } =
      { strategy := { isExhausted := true } } := by
    intro b
    rw [Run.step, if_neg (Nat.not_le_of_lt hm)]
    rfl
  refine ⟨1, fun later hle => ?_⟩
  obtain ⟨j, rfl⟩ := Nat.exists_eq_add_of_le' hle
  have hafter : Run.after 0 resumes m (j + 1) = { strategy := { isExhausted := true } } := by
    rw [Run.after, Function.iterate_succ_apply, hstep]
    exact Function.iterate_fixed (hstep true) j
  rw [hafter]
  refine ⟨rfl, ?_⟩
  rintro schedule ⟨⟨left, hrun, -⟩, hcount⟩
  have hne : schedule ≠ [] := by
    rintro rfl
    exact Nat.ne_of_lt hm hcount
  rw [runSchedule_zero resumes hne] at hrun
  cases hrun

/-! ### Rounds of one task -/

namespace Walk

variable {w : Walk} {v : ℕ}

/-- The pairs in the order of the search. -/
def nthPair (k i : ℕ) : ℕ × ℕ := (i / k, i % k)

/-- The first rounds of one task have been executed, and the next round is about to start. -/
structure Single (n k v : ℕ) (w : Walk) : Prop where
  frames : w.frames = []
  frameCounter : w.frameCounter = 0
  startedTasks : w.startedTasks = 0
  target : w.target n k = nthPair k v
  executed : w.executed = (List.range v).map fun i => [nthPair k i]

theorem nthPair_succ (hk : 0 < k) (v : ℕ) :
    nthPair k (v + 1) = if v % k + 1 = k then (v / k + 1, 0) else (v / k, v % k + 1) := by
  have hdiv := Nat.div_add_mod v k
  have hmod := Nat.mod_lt v hk
  split
  · rename_i h
    have hv : v + 1 = k * (v / k + 1) := by
      rw [Nat.mul_add, Nat.mul_one]
      omega
    rw [nthPair, hv, Nat.mul_div_cancel_left _ hk, Nat.mul_mod_right]
  · rename_i h
    have hv : v + 1 = (v % k + 1) + k * (v / k) := by omega
    have hlt : v % k + 1 < k := by omega
    rw [nthPair, hv, Nat.add_mul_div_left _ _ hk, Nat.add_mul_mod_self_left,
      Nat.div_eq_of_lt hlt, Nat.mod_eq_of_lt hlt, Nat.zero_add]

theorem target_next (hk : 0 < k) (hv : v < n * k) {w : Walk}
    (hstart : w.start = if 0 + 1 = k then (v / k + 1, 0) else (v / k, v % k + 1)) :
    w.target n k = nthPair k (v + 1) := by
  have hthread : v / k < n := Nat.div_lt_of_lt_mul (by rwa [Nat.mul_comm])
  have hmod := Nat.mod_lt v hk
  rw [target, nthPair_succ hk, hstart]
  by_cases hk1 : 0 + 1 = k
  · subst hk1
    simp [Nat.mod_one]
  · simp only [if_neg hk1, hthread, true_and]
    by_cases hlast : v % k + 1 = k
    · rw [if_pos (Nat.le_of_eq hlast.symm), if_pos hlast]
    · rw [if_neg (by omega), if_neg hlast]

theorem Single.step (h : Single n k v w) (hk : 0 < k) (hv : v < n * k) :
    Single n k (v + 1) ((w.step n k 1).step n k 1) := by
  have hthread : (w.target n k).1 < n := by
    rw [h.target]
    exact Nat.div_lt_of_lt_mul (by rwa [Nat.mul_comm])
  have hfirst : w.step n k 1 = w.push (w.target n k) := by
    rw [Walk.step, if_neg (by simp [h.startedTasks]), if_neg (by simp [h.frames]), if_pos hthread]
  have hsecond : (w.push (w.target n k)).step n k 1 = (w.push (w.target n k)).finishRound k := by
    rw [Walk.step]
    exact if_pos (Nat.le_add_left _ _)
  have hframes : (w.push (w.target n k)).frames = [nthPair k v] := by
    simp [push, h.frames, h.target]
  have htake : (w.push (w.target n k)).frames.take (w.push (w.target n k)).frameCounter =
      [nthPair k v] := by
    rw [hframes]
    exact List.take_of_length_le (Nat.le_add_left _ _)
  rw [hfirst, hsecond, finishRound, htake, startNextRound, hframes]
  refine ⟨rfl, rfl, rfl, target_next hk hv rfl, ?_⟩
  show w.executed ++ [[nthPair k v]] = _
  rw [h.executed, List.range_succ, List.map_append]
  rfl

/-- **Rounds of one task are enumerated in order.** -/
theorem single_after (hk : 0 < k) (hv : v ≤ n * k) : Single n k v (after n k 1 (2 * v)) := by
  induction v with
  | zero =>
    refine ⟨rfl, rfl, rfl, ?_, rfl⟩
    rw [target_of_fresh hk rfl, nthPair, Nat.zero_div, Nat.zero_mod]
  | succ v ih =>
    have := (ih (Nat.le_of_lt hv)).step hk hv
    rwa [← after_succ, ← after_succ] at this

theorem nthPair_injective (k : ℕ) : Function.Injective (nthPair k) := by
  intro i j h
  simp only [nthPair, Prod.mk.injEq] at h
  rw [← Nat.div_add_mod i k, ← Nat.div_add_mod j k, h.1, h.2]

end Walk

/-- Rounds of a single task that returns at once are enumerated. -/
theorem enumeratesOnce_one (hone : ∀ r ∈ resumes, r = 1) (hpos : 0 < resumes.length) :
    EnumeratesOnce n resumes 1 := by
  set k := resumes.length with hk
  have hsingle := Walk.single_after (n := n) (k := k) hpos (Nat.le_refl _)
  have htarget : (Walk.after n k 1 (2 * (n * k))).target n k = (n, 0) := by
    rw [hsingle.target, Walk.nthPair, Nat.mul_div_cancel _ hpos, Nat.mul_mod_left]
  have hstep : Walk.after n k 1 (2 * (n * k) + 1) =
      (Walk.after n k 1 (2 * (n * k))).fail k (n, 0) := by
    rw [Walk.after_succ, Walk.step, if_neg (by simp [hsingle.startedTasks]),
      if_neg (by simp [hsingle.frames]), htarget, if_neg (Nat.lt_irrefl _)]
  obtain ⟨hdone, hexecuted⟩ := Walk.done_fail (n := n) (k := k) (p := (n, 0)) hsingle.frames
    (Nat.le_refl _)
  rw [← hstep] at hdone hexecuted
  refine enumeratesOnce_of_done hone hpos (Nat.le_refl _) _ hdone fun pairs hbounded hlength => ?_
  obtain ⟨⟨t, c⟩, rfl⟩ := List.length_eq_one_iff.mp hlength
  obtain ⟨ht, hc⟩ := hbounded _ (List.mem_singleton_self _)
  rw [hexecuted, hsingle.executed]
  refine List.count_eq_one_of_mem (List.Nodup.map ?_ List.nodup_range) ?_
  · intro i j h
    exact Walk.nthPair_injective k (List.singleton_inj.mp h)
  · -- the pair has number `k * t + c`
    refine List.mem_map.mpr ⟨c + k * t, List.mem_range.mpr ?_, ?_⟩
    · calc c + k * t < k + k * t := Nat.add_lt_add_right hc _
        _ = (t + 1) * k := by rw [Nat.add_mul, Nat.one_mul, Nat.mul_comm, Nat.add_comm]
        _ ≤ n * k := Nat.mul_le_mul_right k ht
    · rw [Walk.nthPair, Nat.add_mul_div_left _ _ hpos, Nat.add_mul_mod_self_left,
        Nat.div_eq_of_lt hc, Nat.mod_eq_of_lt hc, Nat.zero_add]

/-! ### A single schedule -/

namespace Walk

variable {w : Walk}

theorem after_first_round {j : ℕ} (hj : j ≤ m) : after 1 1 m j =
    { frames := List.replicate j (0, 0), frameCounter := j, startedTasks := j } := by
  induction j with
  | zero => rfl
  | succ j ih =>
    rw [after_succ, ih (Nat.le_of_succ_le hj), step, if_neg (Nat.not_le_of_lt hj),
      if_neg (by simp), target_of_fresh Nat.one_pos rfl, if_pos Nat.one_pos, push, replay,
      List.replicate_succ']

/-- The only schedule was executed once, and the frames that are left are too few to execute it
again. -/
structure Winding (m : ℕ) (w : Walk) : Prop where
  frames : w.frames = List.replicate w.frames.length (0, 0)
  length : w.frames.length < m
  counter : w.frameCounter ≤ w.frames.length
  start : w.start = (1, 0)
  count : w.executed.count (List.replicate m (0, 0)) = 1

/-- What is left to be replayed. -/
def leftover (m : ℕ) (w : Walk) : ℕ :=
  w.frames.length * (m + 1) + (w.frames.length - w.frameCounter)

theorem Winding.startNextRound (h : Winding m w) :
    (w.frames = [] ∧ w.startNextRound 1 = { w with frameCounter := 0, isExhausted := true }) ∨
    Winding m (w.startNextRound 1) ∧ (w.startNextRound 1).leftover m < w.leftover m := by
  cases hlen : w.frames.length with
  | zero =>
    have hnil := List.length_eq_zero_iff.mp hlen
    refine .inl ⟨hnil, ?_⟩
    rw [Walk.startNextRound, hnil]
    rfl
  | succ j =>
    have hframes := h.frames
    rw [hlen, List.replicate_succ'] at hframes
    have hnext : w.startNextRound 1 =
        { w with frames := List.replicate j (0, 0), frameCounter := 0, start := (1, 0) } := by
      simp [Walk.startNextRound, hframes, h.start]
    have hlt := h.length
    rw [hlen] at hlt
    rw [hnext]
    refine .inr ⟨⟨by simp, ?_, Nat.zero_le _, rfl, h.count⟩, ?_⟩
    · show (List.replicate j ((0, 0) : ℕ × ℕ)).length < m
      rw [List.length_replicate]
      exact Nat.lt_of_succ_lt hlt
    · show (List.replicate j ((0, 0) : ℕ × ℕ)).length * (m + 1) +
        ((List.replicate j ((0, 0) : ℕ × ℕ)).length - 0) < w.leftover m
      rw [List.length_replicate, leftover, hlen, Nat.succ_mul]
      omega

/-- A step ends the run or leaves less to be replayed. -/
theorem Winding.step (h : Winding m w) :
    (Done 1 (w.step 1 1 m) ∧
      (w.step 1 1 m).executed.count (List.replicate m (0, 0)) = 1) ∨
    Winding m (w.step 1 1 m) ∧ (w.step 1 1 m).leftover m < w.leftover m := by
  have hstart : 1 ≤ w.start.1 := by rw [h.start]
  rw [Walk.step, target_of_le hstart]
  split
  · -- the round that ends has executed too few tasks
    have hne : w.frames.take w.frameCounter ≠ List.replicate m (0, 0) := by
      intro heq
      have := congrArg List.length heq
      rw [List.length_take, List.length_replicate] at this
      have := h.length
      omega
    have hwinding : Winding m { w with
        executed := w.executed ++ [w.frames.take w.frameCounter], startedTasks := 0 } := by
      refine ⟨h.frames, h.length, h.counter, h.start, ?_⟩
      show (w.executed ++ [w.frames.take w.frameCounter]).count _ = 1
      rw [List.count_append, h.count, List.count_singleton, beq_false_of_ne hne]
      rfl
    rw [finishRound]
    obtain ⟨hnil, hnext⟩ | hnext := hwinding.startNextRound
    · rw [hnext]
      exact .inl ⟨⟨hnil, rfl, rfl, hstart, rfl⟩, hwinding.count⟩
    · exact .inr hnext
  split
  · rename_i hcounter
    refine .inr ⟨⟨h.frames, h.length, hcounter, h.start, h.count⟩, ?_⟩
    show w.frames.length * (m + 1) + (w.frames.length - (w.frameCounter + 1)) < w.leftover m
    rw [leftover]
    omega
  rw [if_neg (Nat.not_lt_of_le hstart)]
  by_cases hnil : w.frames = []
  · obtain ⟨hdone, hexecuted⟩ := done_fail (k := 1) hnil hstart
    rw [hexecuted]
    exact .inl ⟨hdone, h.count⟩
  · rw [fail, if_neg hnil]
    obtain ⟨hnil', -⟩ | hnext := h.startNextRound
    · exact absurd hnil' hnil
    · exact .inr hnext

theorem Winding.exists_done (h : Winding m w) : ∃ steps,
    Done 1 ((Walk.step 1 1 m)^[steps] w) ∧
      ((Walk.step 1 1 m)^[steps] w).executed.count (List.replicate m (0, 0)) = 1 := by
  induction hleft : w.leftover m using Nat.strongRecOn generalizing w with
  | ind left ih =>
    subst hleft
    obtain hdone | ⟨hwinding, hlt⟩ := h.step
    · exact ⟨1, hdone⟩
    · obtain ⟨steps, hsteps⟩ := ih _ hlt hwinding rfl
      exact ⟨steps + 1, hsteps⟩

/-- The first round executes the only schedule. -/
theorem winding_after (hm : 1 ≤ m) : Winding m (after 1 1 m (m + 1)) := by
  obtain ⟨j, rfl⟩ : ∃ j, m = j + 1 := ⟨m - 1, by omega⟩
  have hstep : after 1 1 (j + 1) (j + 1 + 1) =
      { frames := List.replicate j (0, 0), start := (1, 0),
        executed := [List.replicate (j + 1) (0, 0)] } := by
    rw [after_succ, after_first_round (Nat.le_refl _), step, if_pos (Nat.le_refl _), finishRound,
      startNextRound]
    simp [List.replicate_succ', List.take_of_length_le]
  rw [hstep]
  exact ⟨by simp, by simp, Nat.zero_le _, rfl, by simp⟩

end Walk

/-- On one thread with one constructor there is one schedule, and it is executed once. -/
theorem enumeratesOnce_of_length_eq_one (hone : ∀ r ∈ resumes, r = 1) (hlen : resumes.length = 1)
    (hm : 1 ≤ m) : EnumeratesOnce 1 resumes m := by
  obtain ⟨steps, hdone, hcount⟩ := (Walk.winding_after hm).exists_done
  rw [Walk.after, ← Function.iterate_add_apply] at hdone hcount
  refine enumeratesOnce_of_done hone (by omega) hm (steps + (m + 1)) (by rwa [hlen]) ?_
  intro pairs hbounded hlength
  rw [hlen] at hbounded ⊢
  have hpairs : pairs = List.replicate m (0, 0) := by
    refine List.eq_replicate_iff.mpr ⟨hlength, fun p hp => ?_⟩
    obtain ⟨h₁, h₂⟩ := hbounded p hp
    exact Prod.ext (Nat.lt_one_iff.mp h₁) (Nat.lt_one_iff.mp h₂)
  rw [hpairs]
  exact hcount

/-! ### The enumeration -/

/-- **Exactly when each complete schedule is executed once**: there are no threads, or all tasks
return at once and either a round has a single task or there is a single way to start one. -/
theorem enumeratesOnce_iff (n m : ℕ) (resumes : List ℕ) (hne : resumes ≠ [])
    (hresumes : ∀ r ∈ resumes, 1 ≤ r) (hm : 1 ≤ m) :
    EnumeratesOnce n resumes m ↔
      n = 0 ∨ (∀ r ∈ resumes, r = 1) ∧ (m = 1 ∨ n = 1 ∧ resumes.length = 1) := by
  have hpos : 0 < resumes.length := List.length_pos_iff.mpr hne
  constructor
  · intro henum
    by_cases hn : n = 0
    · exact .inl hn
    have hone : ∀ r ∈ resumes, r = 1 := by
      intro r hr
      by_contra hne1
      obtain ⟨c, hc, hget⟩ := List.mem_iff_getElem.mp hr
      refine not_enumeratesOnce_of_two_le hn hm hc ?_ henum
      have := hresumes r hr
      rw [List.getD_eq_getElem?_getD, List.getElem?_eq_getElem hc, hget]
      exact (by omega : 2 ≤ r)
    refine .inr ⟨hone, ?_⟩
    by_contra hcon
    rw [not_or, not_and_or] at hcon
    have hmul : 2 ≤ n * resumes.length := by
      obtain ⟨-, hn1 | hlen⟩ := hcon
      · exact Nat.mul_le_mul (by omega : 2 ≤ n) hpos
      · exact Nat.mul_le_mul (by omega : 1 ≤ n) (by omega : 2 ≤ resumes.length)
    exact not_enumeratesOnce_of_two_le_mul hone hpos (Nat.pos_of_ne_zero hn) hmul (by omega) henum
  · rintro (rfl | ⟨hone, rfl | ⟨rfl, hlen⟩⟩)
    · exact enumeratesOnce_zero hm
    · exact enumeratesOnce_one hone hpos
    · exact enumeratesOnce_of_length_eq_one hone hlen hm

theorem enumeratesOnce_one_thread : EnumeratesOnce 1 [1] 3 :=
  (enumeratesOnce_iff 1 3 [1] (by decide) (by decide) (by decide)).mpr
    (.inr ⟨by decide, .inr ⟨rfl, rfl⟩⟩)

/-- One task that is resumed twice: the strategy executes its only schedule again and again. -/
theorem not_enumeratesOnce_two_resumes : ¬ EnumeratesOnce 1 [2] 1 :=
  not_enumeratesOnce_of_two_le (by decide) (by decide) (show 0 < [2].length by decide) (by decide)

end Tla

end LTest
