import LTest.Tla.Walk

/-!
# Schedules that are skipped

`RunRound` does not reset `started_tasks` when the strategy asks for a replay. So the round after
it ends too early, and `StartNextRound` removes a frame whose later alternatives were never tried.
With two tasks or more and at least two ways to start a task, the schedule that first starts the
second of them as its last task but one is never executed.

## Main definitions

* `Past` — the search has left a schedule behind
* `Walk.Skip` — the states of a run that does not execute a schedule

## Main results

* `Walk.Skip.step` — an iteration stays in these states
* `not_enumeratesOnce_of_two_le_mul` — the schedules are not enumerated
-/

namespace LTest

namespace Tla

/-! ### Schedules that are left behind -/

/-- The order in which the search tries the pairs. -/
def Before (p q : ℕ × ℕ) : Prop := p.1 < q.1 ∨ p.1 = q.1 ∧ p.2 < q.2

theorem Before.trans {p q r : ℕ × ℕ} (h : Before p q) (h' : Before q r) : Before p r := by
  simp only [Before] at *
  omega

theorem Before.of_le {p q r : ℕ × ℕ} (h : Before p q) (h' : q = r ∨ Before q r) : Before p r := by
  cases h' with
  | inl heq => exact heq ▸ h
  | inr hlt => exact h.trans hlt

theorem Before.irrefl (p : ℕ × ℕ) : ¬ Before p p := by
  simp [Before]

/-- Where the schedule and the frames differ first, the schedule has the earlier pair. -/
def Past (schedule frames : List (ℕ × ℕ)) : Prop :=
  ∃ before p q, (before ++ [p]) <+: schedule ∧ (before ++ [q]) <+: frames ∧ Before p q

section Past

variable {schedule frames : List (ℕ × ℕ)} {p q : ℕ × ℕ}

theorem Past.not_isPrefix (h : Past schedule frames) : ¬ schedule <+: frames := by
  obtain ⟨before, p, q, hp, hq, hlt⟩ := h
  intro hpre
  have heq := List.prefix_of_prefix_length_le (hp.trans hpre) hq (by simp)
  have : p = q := by simpa using heq.eq_of_length (by simp)
  exact Before.irrefl q (this ▸ hlt)

theorem Past.of_isPrefix {frames' : List (ℕ × ℕ)} (h : Past schedule frames)
    (hpre : frames <+: frames') : Past schedule frames' := by
  obtain ⟨before, p, q, hp, hq, hlt⟩ := h
  exact ⟨before, p, q, hp, hq.trans hpre, hlt⟩

theorem Past.later (h : Past schedule (frames ++ [p])) (hle : p = q ∨ Before p q) :
    Past schedule (frames ++ [q]) := by
  obtain ⟨before, x, y, hx, hy, hlt⟩ := h
  obtain heq | hpre := List.prefix_concat_iff.mp hy
  · obtain ⟨rfl, hyp⟩ := List.append_inj' heq rfl
    obtain rfl := List.singleton_inj.mp hyp
    exact ⟨before, x, q, hx, List.prefix_rfl, hlt.of_le hle⟩
  · exact ⟨before, x, y, hx, hpre.trans (List.prefix_append _ _), hlt⟩

theorem Past.pop {r : ℕ × ℕ} (h : Past schedule (frames ++ [p] ++ [q])) (hlt : Before p r) :
    Past schedule (frames ++ [r]) := by
  obtain ⟨before, x, y, hx, hy, hxy⟩ := h
  obtain heq | hpre := List.prefix_concat_iff.mp hy
  · obtain ⟨rfl, -⟩ := List.append_inj' heq rfl
    exact ⟨frames, p, r, (List.prefix_append _ _).trans hx, List.prefix_rfl, hlt⟩
  · exact Past.later ⟨before, x, y, hx, hpre, hxy⟩ (.inr hlt)

end Past

/-! ### Skipping a schedule -/

namespace Walk

variable {n k : ℕ} {w : Walk} {schedule : List (ℕ × ℕ)} {frames : List (ℕ × ℕ)}

theorem start_le_target (n k : ℕ) (w : Walk) :
    w.start = w.target n k ∨ Before w.start (w.target n k) := by
  rw [target]
  split
  · exact .inr (.inl (Nat.lt_succ_self _))
  · exact .inl rfl

/-- The next round starts behind the frame that it removes. -/
theorem startNextRound_concat {p : ℕ × ℕ} (hw : w.frames = frames ++ [p]) :
    ∃ q, Before p q ∧ w.startNextRound k =
      { w with frames := frames, frameCounter := 0, start := q } := by
  obtain ⟨t, c⟩ := p
  refine ⟨if w.start.2 + 1 = k then (t + 1, 0) else (t, c + 1), ?_, ?_⟩
  · split <;> simp [Before]
  · simp [startNextRound, hw]

theorem past_startNextRound (h : Past schedule (w.frames ++ [w.start])) :
    Past schedule ((w.startNextRound k).frames ++ [(w.startNextRound k).start]) := by
  obtain hnil | ⟨frames, p, hw⟩ := List.eq_nil_or_concat' w.frames
  · have hnext : w.startNextRound k = { w with frameCounter := 0, isExhausted := true } := by
      rw [startNextRound, hnil]
      rfl
    rwa [hnext]
  · obtain ⟨q, hlt, hnext⟩ := startNextRound_concat (k := k) hw
    rw [hw] at h
    rw [hnext]
    exact h.pop hlt

@[simp] theorem startNextRound_executed (k : ℕ) (w : Walk) :
    (w.startNextRound k).executed = w.executed := by
  rw [startNextRound]
  split <;> rfl

theorem past_step {m : ℕ} (h : Past schedule (w.frames ++ [w.start]))
    (hexecuted : schedule ∉ w.executed) :
    Past schedule ((w.step n k m).frames ++ [(w.step n k m).start]) ∧
      schedule ∉ (w.step n k m).executed := by
  rw [step]
  split
  · refine ⟨past_startNextRound h, ?_⟩
    rw [finishRound, startNextRound_executed, List.mem_append, List.mem_singleton]
    rintro (hmem | heq)
    · exact hexecuted hmem
    · exact h.not_isPrefix (heq ▸ (List.take_prefix _ _).trans (List.prefix_append _ _))
  split
  · exact ⟨h, hexecuted⟩
  have hlater := h.later (start_le_target n k w)
  split
  · exact ⟨hlater.of_isPrefix (List.prefix_append _ _), hexecuted⟩
  · rw [fail]
    split
    · exact ⟨past_startNextRound hlater, by rwa [startNextRound_executed]⟩
    · exact ⟨past_startNextRound hlater, by rwa [startNextRound_executed]⟩

/-- The schedule that is skipped: its last task but one is the second one that the search tries. -/
def skipped (q : ℕ) (a : ℕ × ℕ) : List (ℕ × ℕ) := List.replicate q (0, 0) ++ [a, (0, 0)]

/-- How a run gets past the skipped schedule: it tries all last tasks; it is to replay frames, with
all tasks but one counted as started; it has started one task and takes the round for finished; it
is past the schedule. -/
inductive Position (q : ℕ) (a : ℕ × ℕ) (w : Walk) : Prop
  | trying (started : w.startedTasks = w.frameCounter)
      (counter : w.frameCounter ≤ w.frames.length) (length : w.frames.length ≤ q + 2)
      (zeros : ∀ p ∈ w.frames.take (q + 1), p = (0, 0))
      (fresh : w.frames.length < q + 1 → w.frameCounter = w.frames.length ∧ w.start = (0, 0))
  | replaying (started : w.startedTasks = q + 1) (counter : w.frameCounter = 0)
      (zeros : w.frames = List.replicate q (0, 0)) (later : Before (0, 0) w.start)
  | ending (started : q + 2 ≤ w.startedTasks) (counter : w.frameCounter = 1)
      (past : ∃ frames p, w.frames = frames ++ [p] ∧
        ∀ r, Before p r → Past (skipped q a) (frames ++ [r]))
  | past (past : Past (skipped q a) (w.frames ++ [w.start]))

/-- The states of a run that does not execute the schedule. -/
structure Skip (q : ℕ) (a : ℕ × ℕ) (w : Walk) : Prop where
  position : Position q a w
  executed : skipped q a ∉ w.executed

/-- The second pair that the search tries. -/
structure IsSecond (n k : ℕ) (a : ℕ × ℕ) : Prop where
  thread : a.1 < n
  constr : a.2 < k
  later : Before (0, 0) a
  first : ∀ p, Before (0, 0) p → p.2 < k → a = p ∨ Before a p

variable {q : ℕ} {a : ℕ × ℕ}

theorem skip_init : Skip q a {} where
  position := .trying rfl (Nat.le_refl _) (Nat.zero_le _) (by simp) fun _ => ⟨rfl, rfl⟩
  executed := by simp

/-- Frames that start with the first pair everywhere else are not the schedule. -/
theorem ne_skipped (hne : a ≠ (0, 0)) (hzeros : ∀ p ∈ frames.take (q + 1), p = (0, 0)) :
    frames ≠ skipped q a := by
  rintro rfl
  refine hne (hzeros a ?_)
  rw [skipped, List.take_append, List.length_replicate]
  simp

/-- All tasks were started while the last ones are tried. -/
theorem Skip.finishRound (h : Skip q a w) (hne : a ≠ (0, 0))
    (hover : q + 2 ≤ w.startedTasks) : Skip q a (w.finishRound k) := by
  cases h.position with
  | trying hstarted hcounter hlength hzeros _ =>
    have hfull : w.frames.length = q + 2 := by omega
    obtain ⟨frames, p, hw⟩ := (List.eq_nil_or_concat' w.frames).resolve_left (by
      rintro hnil
      simp [hnil] at hfull)
    have hlen : frames.length = q + 1 := by
      rw [hw, List.length_append] at hfull
      exact Nat.succ.inj hfull
    obtain ⟨r, -, hnext⟩ := startNextRound_concat (k := k) (w := { w with
      executed := w.executed ++ [w.frames.take w.frameCounter], startedTasks := 0 }) hw
    rw [Walk.finishRound, hnext]
    refine ⟨.trying rfl (Nat.zero_le _) (by simp [hlen]) ?_ ?_, ?_⟩
    · rw [hw, List.take_append_of_le_length (Nat.le_of_eq hlen.symm)] at hzeros
      exact hzeros
    · intro hlt
      exact absurd hlen (Nat.ne_of_lt hlt)
    · rw [List.take_of_length_le (by omega)]
      simpa [h.executed] using (ne_skipped hne hzeros).symm
  | replaying hstarted => omega
  | ending hstarted hcounter hpast =>
    obtain ⟨frames, p, hw, hpast⟩ := hpast
    obtain ⟨r, hlt, hnext⟩ := startNextRound_concat (k := k) (w := { w with
      executed := w.executed ++ [w.frames.take w.frameCounter], startedTasks := 0 }) hw
    rw [Walk.finishRound, hnext]
    refine ⟨.past (hpast r hlt), ?_⟩
    -- the round executed one task only
    have hne : skipped q a ≠ w.frames.take w.frameCounter := by
      intro heq
      have := congrArg List.length heq
      simp [skipped, hcounter] at this
      omega
    simp [h.executed, hne]
  | past hpast =>
    obtain ⟨hpast, hexecuted⟩ := past_step (n := 0) (k := k) hpast h.executed
    rw [step, if_pos hover] at hpast hexecuted
    exact ⟨.past hpast, hexecuted⟩

theorem Skip.replay (h : Skip q a w) (hlt : w.startedTasks < q + 2)
    (hcounter : w.frameCounter < w.frames.length) : Skip q a w.replay := by
  refine ⟨?_, h.executed⟩
  cases h.position with
  | trying hstarted _ hlength hzeros hfresh =>
    refine .trying (congrArg (· + 1) hstarted) hcounter hlength hzeros fun hshort => ?_
    exact absurd (hfresh hshort).1 (Nat.ne_of_lt hcounter)
  | replaying hstarted hzero hzeros =>
    -- the counter reaches the number of tasks at the first frame
    rw [hzero, hzeros, List.length_replicate] at hcounter
    obtain ⟨q, rfl⟩ := Nat.exists_eq_succ_of_ne_zero (Nat.ne_of_gt hcounter)
    refine .ending (Nat.le_of_eq (congrArg (· + 1) hstarted).symm) (congrArg (· + 1) hzero)
      ⟨List.replicate q (0, 0), (0, 0), hzeros.trans List.replicate_succ', fun r hr => ?_⟩
    refine ⟨List.replicate q (0, 0), (0, 0), r, ?_, List.prefix_rfl, hr⟩
    rw [skipped, List.replicate_succ']
    exact List.prefix_append _ _
  | ending hstarted => omega
  | past hpast => exact .past hpast

/-- The search of the first rounds starts at the first pair. -/
theorem target_of_fresh (hk : 0 < k) (hstart : w.start = (0, 0)) : w.target n k = (0, 0) := by
  rw [target, hstart, if_neg (by simp; omega)]

/-- The target of the search for the second pair. -/
theorem IsSecond.le_target (ha : IsSecond n k a) (hlater : Before (0, 0) w.start)
    (htarget : (w.target n k).1 < n) : a = w.target n k ∨ Before a (w.target n k) :=
  ha.first _ (hlater.of_le (start_le_target n k w))
    (w.target_snd_lt (Nat.lt_of_le_of_lt (Nat.zero_le _) ha.constr) htarget)

theorem Skip.push (h : Skip q a w) (ha : IsSecond n k a) (hlt : w.startedTasks < q + 2)
    (hcounter : ¬ w.frameCounter < w.frames.length) (htarget : (w.target n k).1 < n) :
    Skip q a (w.push (w.target n k)) := by
  refine ⟨?_, h.executed⟩
  cases h.position with
  | trying hstarted hle hlength hzeros hfresh =>
    have hlen : w.frameCounter = w.frames.length := by omega
    refine .trying (congrArg (· + 1) hstarted) ?_ ?_ ?_ ?_
    · show w.frameCounter + 1 ≤ (w.frames ++ [w.target n k]).length
      rw [List.length_append, hlen]
      exact Nat.le_refl _
    · show (w.frames ++ [w.target n k]).length ≤ q + 2
      rw [List.length_append]
      exact (by omega : w.frames.length + 1 ≤ q + 2)
    · show ∀ p ∈ (w.frames ++ [w.target n k]).take (q + 1), p = (0, 0)
      by_cases hshort : w.frames.length < q + 1
      · have hzero : w.target n k = (0, 0) :=
          target_of_fresh (Nat.lt_of_le_of_lt (Nat.zero_le _) ha.constr) (hfresh hshort).2
        rw [List.take_of_length_le (Nat.le_of_lt hshort)] at hzeros
        rw [hzero, List.take_of_length_le (by rw [List.length_append]; exact hshort)]
        intro p hp
        cases List.mem_append.mp hp with
        | inl hp => exact hzeros p hp
        | inr hp => exact List.mem_singleton.mp hp
      · rwa [List.take_append_of_le_length (Nat.le_of_not_lt hshort)]
    · intro _
      refine ⟨?_, rfl⟩
      show w.frameCounter + 1 = (w.frames ++ [w.target n k]).length
      rw [List.length_append, hlen]
      rfl
  | replaying hstarted hzero hzeros hlater =>
    -- there is no frame to replay
    have hq : q = 0 := by
      rw [hzero, hzeros, List.length_replicate] at hcounter
      omega
    subst hq
    refine .ending (Nat.le_of_eq (congrArg (· + 1) hstarted).symm) (congrArg (· + 1) hzero)
      ⟨[], w.target n k, congrArg (· ++ [w.target n k]) hzeros, fun r hr => ?_⟩
    refine ⟨[], a, r, ?_, List.prefix_rfl, ?_⟩
    · exact List.prefix_append [a] [(0, 0)]
    · cases ha.le_target hlater htarget with
      | inl heq => exact heq ▸ hr
      | inr hbefore => exact hbefore.trans hr
  | ending hstarted => omega
  | past hpast =>
    exact .past ((hpast.later (start_le_target n k w)).of_isPrefix (List.prefix_append _ _))

theorem Skip.fail (h : Skip q a w) (ha : IsSecond n k a) (hlt : w.startedTasks < q + 2)
    (hcounter : ¬ w.frameCounter < w.frames.length) (htarget : ¬ (w.target n k).1 < n) :
    Skip q a (w.fail k (w.target n k)) := by
  have hn : 0 < n := Nat.lt_of_le_of_lt (Nat.zero_le _) ha.thread
  have hk : 0 < k := Nat.lt_of_le_of_lt (Nat.zero_le _) ha.constr
  refine ⟨?_, by rw [Walk.fail]; split <;> simpa using h.executed⟩
  cases h.position with
  | trying hstarted hle hlength hzeros hfresh =>
    have hlen : w.frames.length = q + 1 := by
      refine Nat.le_antisymm (by omega) (Nat.le_of_not_lt fun hshort => htarget ?_)
      rwa [target_of_fresh hk (hfresh hshort).2]
    have hreplicate : w.frames = List.replicate q (0, 0) ++ [(0, 0)] := by
      rw [List.take_of_length_le (Nat.le_of_eq hlen)] at hzeros
      rw [List.eq_replicate_of_mem hzeros, hlen, List.replicate_succ']
    obtain ⟨r, hr, hnext⟩ := startNextRound_concat (k := k)
      (w := { w with start := w.target n k }) hreplicate
    rw [Walk.fail, if_neg (by simp [hreplicate]), hnext]
    refine .replaying ?_ rfl rfl hr
    show w.startedTasks = q + 1
    omega
  | replaying hstarted hzero hzeros hlater =>
    have hq : q = 0 := by
      rw [hzero, hzeros, List.length_replicate] at hcounter
      omega
    subst hq
    have hnil : w.frames = [] := hzeros
    rw [Walk.fail, if_pos hnil]
    refine .past (past_startNextRound ?_)
    show Past (skipped 0 a) (w.frames ++ [w.target n k])
    rw [hnil]
    refine ⟨[], a, w.target n k, List.prefix_append [a] [(0, 0)], List.prefix_rfl, .inl ?_⟩
    exact Nat.lt_of_lt_of_le ha.thread (Nat.le_of_not_lt htarget)
  | ending hstarted => omega
  | past hpast =>
    rw [Walk.fail]
    split
    · exact .past (past_startNextRound (hpast.later (start_le_target n k w)))
    · exact .past (past_startNextRound (hpast.later (start_le_target n k w)))

/-- **An iteration stays in these states.** -/
theorem Skip.step (h : Skip q a w) (ha : IsSecond n k a) : Skip q a (w.step n k (q + 2)) := by
  have hne : a ≠ (0, 0) := by
    rintro rfl
    exact Before.irrefl _ ha.later
  rw [Walk.step]
  split
  · rename_i hover
    exact h.finishRound hne hover
  rename_i hover
  have hlt := Nat.lt_of_not_le hover
  split
  · rename_i hcounter
    exact h.replay hlt hcounter
  rename_i hcounter
  split
  · rename_i htarget
    exact h.push ha hlt hcounter htarget
  · rename_i htarget
    exact h.fail ha hlt hcounter htarget

theorem skip_after (ha : IsSecond n k a) (steps : ℕ) : Skip q a (after n k (q + 2) steps) := by
  induction steps with
  | zero => exact skip_init
  | succ steps ih =>
    rw [after_succ]
    exact ih.step ha

theorem exists_isSecond (hn : 0 < n) (hk : 0 < k) (htwo : 2 ≤ n * k) : ∃ a, IsSecond n k a := by
  by_cases hk2 : 2 ≤ k
  · refine ⟨(0, 1), hn, hk2, .inr ⟨rfl, Nat.one_pos⟩, ?_⟩
    rintro ⟨t, c⟩ hlater -
    simp only [Before, Prod.mk.injEq] at hlater ⊢
    omega
  · obtain rfl : k = 1 := by omega
    refine ⟨(1, 0), by rwa [Nat.mul_one] at htwo, hk, .inl Nat.one_pos, ?_⟩
    rintro ⟨t, c⟩ hlater hc
    simp only [Before, Prod.mk.injEq] at hlater hc ⊢
    omega

end Walk

variable {resumes : List ℕ} {n m : ℕ}

/-- **Some schedule is skipped** when tasks return at once, at least two of them are started, and
there is more than one way to start a task. -/
theorem not_enumeratesOnce_of_two_le_mul (hone : ∀ r ∈ resumes, r = 1) (hpos : 0 < resumes.length)
    (hn : 0 < n) (htwo : 2 ≤ n * resumes.length) (hm : 2 ≤ m) : ¬ EnumeratesOnce n resumes m := by
  obtain ⟨q, rfl⟩ : ∃ q, m = q + 2 := ⟨m - 2, by omega⟩
  obtain ⟨a, ha⟩ := Walk.exists_isSecond hn hpos htwo
  rw [enumeratesOnce_iff_walk hone hpos]
  rintro ⟨steps, h⟩
  have hbounded : Bounded n resumes.length (Walk.skipped q a) := by
    intro p hp
    simp only [Walk.skipped, List.mem_append, List.mem_replicate, List.mem_cons,
      List.not_mem_nil, or_false] at hp
    obtain ⟨-, rfl⟩ | rfl | rfl := hp
    · exact ⟨hn, hpos⟩
    · exact ⟨ha.thread, ha.constr⟩
    · exact ⟨hn, hpos⟩
  have hcount := (h steps (Nat.le_refl _)).2 _ hbounded (by simp [Walk.skipped])
  rw [List.count_eq_zero_of_not_mem (Walk.skip_after ha steps).executed] at hcount
  cases hcount

end Tla

end LTest
