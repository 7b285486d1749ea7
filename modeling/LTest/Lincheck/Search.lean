import Mathlib.Tactic.Common

/-!
# The recursive linearization search

`RunRecursiveLinearizationSearchImpl` walks over the history, tries every invoke before the first
response that is not linearized yet, and undoes what it marked when the rest fails. The bitmap of
linearized events and the cache of failed configurations are shared by all levels of the
recursion, so they are passed along as a state here.

## Main definitions

* `Adapter` — the contract between the search and a checker
* `CachePolicy` — the hash and the equality of specification states
* `search` — the search, with fuel
* `Succeeds` — what the search looks for: a configuration from which everything can be linearized

## Main results

* `loop_of_stops`, `loop_of_tries`, `loop_of_passes` — what the loop of a level does with an event
* `succeeds_congr` — success does not depend on the representative of a state
* `step_decides` — one level decides success and restores the bitmap when it fails
* `search_decides` — the search returns, and it returns whether the empty configuration succeeds
-/

namespace LTest

namespace Lincheck

/-! ### The search -/

/-- The adapter contract. -/
structure Adapter (S : Type) where
  /-- Whether the event is an invoke. -/
  isInvoke : ℕ → Bool
  /-- Whether the event is a response. -/
  isResponse : ℕ → Bool
  /-- The response of an invoke; `none` is `kNoResponseIndex`. -/
  responseIndex : ℕ → Option ℕ
  /-- `CanDropPendingInvoke`; an adapter without it drops nothing. -/
  canDropPendingInvoke : ℕ → Bool := fun _ => false
  /-- The next state, if the invoke can be applied. -/
  tryApply : ℕ → S → Option S

/-- The template arguments `Hash` and `Equal` of the search, and whether they are fit for the
specification state (`SearchCacheableState`). -/
structure CachePolicy (S : Type) where
  /-- `SearchCacheableState`. -/
  cacheable : Bool := true
  /-- `Hash`. -/
  hash : S → UInt64
  /-- `Equal`. -/
  equal : S → S → Bool

/-- `SearchCacheKey`. -/
structure SearchCacheKey (S : Type) where
  linearized : List Bool
  state : S

namespace SearchCacheKey

variable {S : Type}

/-- `SearchCacheKeyHash`. -/
def hash (policy : CachePolicy S) (key : SearchCacheKey S) : UInt64 :=
  let h : UInt64 := key.linearized.foldl (fun h v => (h ^^^ v.toUInt64) * 1099511628211)
    1469598103934665603
  let mixed : UInt64 :=
    policy.hash key.state + (0x9e3779b97f4a7c15 : UInt64) + (h <<< 6) + (h >>> 2)
  h ^^^ mixed

/-- `SearchCacheKeyEqual`. -/
def equal (policy : CachePolicy S) (lhs rhs : SearchCacheKey S) : Bool :=
  lhs.linearized == rhs.linearized && policy.equal lhs.state rhs.state

end SearchCacheKey

/-- The keys of `SearchFailureCache`. -/
abbrev FailureCache (S : Type) := List (SearchCacheKey S)

namespace FailureCache

variable {S : Type}

/-- `Contains`: the lookup of a hash set compares hashes first. -/
def contains (policy : CachePolicy S) (failed : FailureCache S) (linearized : List Bool)
    (state : S) : Bool :=
  let key : SearchCacheKey S := ⟨linearized, state⟩
  policy.cacheable && failed.any fun k =>
    k.hash policy == key.hash policy && key.equal policy k

/-- `Insert`. -/
def insert (policy : CachePolicy S) (failed : FailureCache S) (linearized : List Bool)
    (state : S) : FailureCache S :=
  if !policy.cacheable || failed.contains policy linearized state then failed
  else ⟨linearized, state⟩ :: failed

end FailureCache

/-- The variables that all levels of the recursion share. -/
structure SearchState (S : Type) where
  /-- The events that are linearized. -/
  linearized : List Bool
  /-- The failed states. -/
  failed : FailureCache S := []

variable {S : Type}

/-- Set the entries of an invoke and of its response, if it has one. -/
def mark (linearized : List Bool) (i : ℕ) (response : Option ℕ) (value : Bool) : List Bool :=
  match response with
  | none => linearized.set i value
  | some r => (linearized.set i value).set r value

/-- A call of `step`, which returns a verdict and the shared variables; `none` when the fuel has
run out. -/
abbrev Level (S : Type) := S → ℕ → SearchState S → Option (Bool × SearchState S)

/-- Go on after a failed alternative. -/
def orElse (r : Option (Bool × SearchState S))
    (next : SearchState S → Option (Bool × SearchState S)) : Option (Bool × SearchState S) :=
  match r with
  | some (false, st) => next st
  | r => r

/-- Mark an invoke and its response, go one level deeper, and undo the marks on failure. -/
def descend (step : Level S) (state : S) (count i : ℕ) (response : Option ℕ)
    (st : SearchState S) : Option (Bool × SearchState S) :=
  orElse (step state count { st with linearized := mark st.linearized i response true })
    fun st' => some (false, { st' with linearized := mark st'.linearized i response false })

/-- Linearize a pending invoke without applying it. -/
def dropInvoke (A : Adapter S) (step : Level S) (state : S) (count i : ℕ) (st : SearchState S) :
    Option (Bool × SearchState S) :=
  if A.responseIndex i = none ∧ A.canDropPendingInvoke i = true then
    descend step state (count + 1) i none st
  else some (false, st)

/-- Linearize an invoke by applying it. -/
def applyInvoke (A : Adapter S) (step : Level S) (state : S) (count i : ℕ)
    (st : SearchState S) : Option (Bool × SearchState S) :=
  match A.tryApply i state with
  | none => some (false, st)
  | some next =>
    match A.responseIndex i with
    | none => descend step next (count + 1) i none st
    | some r => descend step next (count + 2) i (some r) st

/-- The entry of an event. -/
def isLinearized (linearized : List Bool) (i : ℕ) : Bool := linearized.getD i false

/-- The loop of a level over the indices that are left. -/
def loop (A : Adapter S) (step : Level S) (state : S) (count : ℕ) :
    List ℕ → SearchState S → Option (Bool × SearchState S)
  | [], st => some (false, st)
  | i :: rest, st =>
    if isLinearized st.linearized i then loop A step state count rest st
    -- a response that is not linearized closes the minimal concurrent section
    else if A.isResponse i then some (false, st)
    else if !A.isInvoke i then loop A step state count rest st
    else if (A.responseIndex i).any (isLinearized st.linearized) then
      loop A step state count rest st
    else
      orElse (dropInvoke A step state count i st) fun st =>
        orElse (applyInvoke A step state count i st) fun st =>
          loop A step state count rest st

/-- One level of the recursion. -/
def step (policy : CachePolicy S) (A : Adapter S) (onComplete : S → Bool) (historySize : ℕ) :
    ℕ → Level S
  | 0, _, _, _ => none
  | fuel + 1, state, count, st =>
    if count = historySize then some (onComplete state, st)
    else if st.failed.contains policy st.linearized state then some (false, st)
    else
      orElse (loop A (step policy A onComplete historySize fuel) state count
        (List.range historySize) st) fun st =>
          some (false, { st with failed := st.failed.insert policy st.linearized state })

/-- `RunRecursiveLinearizationSearchImpl`. A level linearizes at least one event, so that
`historySize + 1` levels are enough. -/
def search (policy : CachePolicy S) (historySize : ℕ) (initialState : S) (A : Adapter S)
    (onComplete : S → Bool) : Option Bool :=
  if historySize = 0 then some true
  else (step policy A onComplete historySize (historySize + 1) initialState 0
    ⟨List.replicate historySize false, []⟩).map Prod.fst

/-! ### Configurations that succeed -/

variable {l : List Bool} {i : ℕ} {A : Adapter S}

/-- The invoke `i` can be linearized next. -/
structure Enabled (A : Adapter S) (linearized : List Bool) (i : ℕ) : Prop where
  /-- It is an invoke. -/
  invoke : A.isInvoke i = true
  /-- It is no response. -/
  response : A.isResponse i = false
  /-- It is not linearized. -/
  fresh : isLinearized linearized i = false
  /-- Neither is its response. -/
  unanswered : ∀ r, A.responseIndex i = some r → isLinearized linearized r = false
  /-- All responses before it are. -/
  minimal : ∀ r < i, A.isResponse r = true → isLinearized linearized r = true

/-- The loop of a level tries the invoke `i` if it comes to it. -/
structure Tries (A : Adapter S) (linearized : List Bool) (i : ℕ) : Prop where
  invoke : A.isInvoke i = true
  response : A.isResponse i = false
  fresh : isLinearized linearized i = false
  unanswered : ∀ r, A.responseIndex i = some r → isLinearized linearized r = false

/-- The loop of a level stops at the response `i` if it comes to it. -/
structure Stops (A : Adapter S) (linearized : List Bool) (i : ℕ) : Prop where
  response : A.isResponse i = true
  fresh : isLinearized linearized i = false

theorem Enabled.tries (h : Enabled A l i) : Tries A l i :=
  ⟨h.invoke, h.response, h.fresh, h.unanswered⟩

/-- What the loop tries is enabled, since it has passed all responses before. -/
theorem Tries.enabled (h : Tries A l i)
    (hmin : ∀ r < i, A.isResponse r = true → isLinearized l r = true) : Enabled A l i :=
  ⟨h.invoke, h.response, h.fresh, h.unanswered, hmin⟩

section Loop

variable {A : Adapter S} {rec : Level S} {state : S} {count i : ℕ} {rest : List ℕ}
  {st : SearchState S}

theorem loop_of_stops (h : Stops A st.linearized i) :
    loop A rec state count (i :: rest) st = some (false, st) := by
  rw [loop, h.fresh, h.response]
  rfl

theorem loop_of_tries (h : Tries A st.linearized i) :
    loop A rec state count (i :: rest) st =
      orElse (dropInvoke A rec state count i st) fun st =>
        orElse (applyInvoke A rec state count i st) fun st =>
          loop A rec state count rest st := by
  have hans : (A.responseIndex i).any (isLinearized st.linearized) = false := by
    cases hr : A.responseIndex i with
    | none => rfl
    | some r => simpa using h.unanswered r hr
  rw [loop, h.fresh, h.response, h.invoke, hans]
  rfl

theorem loop_of_passes (hstops : ¬ Stops A st.linearized i) (htries : ¬ Tries A st.linearized i) :
    loop A rec state count (i :: rest) st = loop A rec state count rest st := by
  rw [loop]
  by_cases hlin : isLinearized st.linearized i = true
  · rw [if_pos hlin]
  have hfresh : isLinearized st.linearized i = false := by simpa using hlin
  have hresp : ¬ A.isResponse i = true := fun h => hstops ⟨h, hfresh⟩
  rw [if_neg hlin, if_neg hresp]
  by_cases hinv : (!A.isInvoke i) = true
  · rw [if_pos hinv]
  by_cases hans : (A.responseIndex i).any (isLinearized st.linearized) = true
  · rw [if_neg hinv, if_pos hans]
  refine absurd ⟨by simpa using hinv, by simpa using hresp, hfresh, fun r hr => ?_⟩ htries
  rw [hr] at hans
  simpa using hans

end Loop

/-- From this configuration everything can be linearized. -/
inductive Succeeds (A : Adapter S) (onComplete : S → Bool) (n : ℕ) : List Bool → S → Prop
  | done {l : List Bool} {s : S} : l.count true = n → onComplete s = true →
      Succeeds A onComplete n l s
  | drop {l : List Bool} {s : S} {i : ℕ} : i < n → Enabled A l i → A.responseIndex i = none →
      A.canDropPendingInvoke i = true → Succeeds A onComplete n (mark l i none true) s →
      Succeeds A onComplete n l s
  | apply {l : List Bool} {s s' : S} {i : ℕ} : i < n → Enabled A l i →
      A.tryApply i s = some s' →
      Succeeds A onComplete n (mark l i (A.responseIndex i) true) s' →
      Succeeds A onComplete n l s

/-- The equality of states is respected. -/
structure Congruent (policy : CachePolicy S) (A : Adapter S) (onComplete : S → Bool) : Prop where
  /-- By the adapter. -/
  tryApply : ∀ s t, policy.equal s t = true → ∀ i,
    Option.Rel (fun s' t' => policy.equal s' t' = true) (A.tryApply i s) (A.tryApply i t)
  /-- By the final test. -/
  onComplete : ∀ s t, policy.equal s t = true → onComplete s = onComplete t

/-! ### The bitmap -/

/-- What is asked of the response indices: they lie in the history, and no invoke is its own
response. -/
def Indexed (A : Adapter S) (n : ℕ) : Prop :=
  ∀ i < n, A.isInvoke i = true → ∀ r, A.responseIndex i = some r → r < n ∧ r ≠ i

/-- The same of the invokes that a level can try, which are no responses. -/
def TriedIndexed (A : Adapter S) (n : ℕ) : Prop :=
  ∀ i < n, A.isInvoke i = true → A.isResponse i = false →
    ∀ r, A.responseIndex i = some r → r < n ∧ r ≠ i

theorem Indexed.tried {n : ℕ} (hA : Indexed A n) : TriedIndexed A n :=
  fun i hi hinv _ => hA i hi hinv

@[simp] theorem length_mark (l : List Bool) (i : ℕ) (o : Option ℕ) (b : Bool) :
    (mark l i o b).length = l.length := by
  cases o <;> simp [mark]

theorem isLinearized_set {j : ℕ} (hi : i < l.length) (b : Bool) :
    isLinearized (l.set i b) j = if j = i then b else isLinearized l j := by
  by_cases hj : j = i
  · subst hj
    simp [isLinearized, hi]
  · simp [isLinearized, hj, Ne.symm hj]

theorem set_isLinearized {b : Bool} (h : isLinearized l i = b) : l.set i b = l := by
  subst h
  refine List.ext_getElem (by simp) fun j hj _ => ?_
  have hj : j < l.length := by simpa using hj
  by_cases hij : i = j
  · subst hij
    simp [isLinearized, hj]
  · simp [hij]

/-- Undoing the marks of an invoke and its response, none of which was linearized. -/
theorem mark_mark {o : Option ℕ} (hi : isLinearized l i = false)
    (ho : ∀ r, o = some r → isLinearized l r = false) : mark (mark l i o true) i o false = l := by
  cases o with
  | none => simpa [mark] using set_isLinearized hi
  | some r =>
    by_cases hri : r = i
    · rw [hri]
      simpa [mark] using set_isLinearized hi
    · have hswap : ((l.set i true).set r true).set i false = (l.set i false).set r true := by
        rw [List.set_comm _ _ hri, List.set_set]
      simp only [mark, hswap, List.set_set]
      rw [set_isLinearized hi, set_isLinearized (ho r rfl)]

theorem isLinearized_of_count (h : l.count true = l.length) (hi : i < l.length) :
    isLinearized l i = true := by
  have := List.count_eq_length.mp h l[i] (List.getElem_mem hi)
  simp [isLinearized, hi, ← this]

theorem count_set_true (hi : i < l.length) (h : isLinearized l i = false) :
    (l.set i true).count true = l.count true + 1 := by
  have h' : l[i] = false := by simpa [isLinearized, hi] using h
  rw [List.count_set hi, h']
  simp

/-- How many events the marks of an enabled invoke add. -/
theorem count_mark (h : Enabled A l i) (hi : i < l.length) {o : Option ℕ}
    (ho : ∀ r, o = some r → r < l.length ∧ r ≠ i ∧ isLinearized l r = false) :
    (mark l i o true).count true = l.count true + 1 + o.toList.length := by
  have hcount := count_set_true hi h.fresh
  cases o with
  | none => simpa [mark] using hcount
  | some r =>
    obtain ⟨hlt, hne, hr⟩ := ho r rfl
    rw [mark, count_set_true (by simpa using hlt), hcount]
    · rfl
    · rw [isLinearized_set hi, if_neg hne, hr]

/-! ### Success and the cache -/

section Search

variable {policy : CachePolicy S} {A : Adapter S} {onComplete : S → Bool} {n : ℕ}
  {r : Option (Bool × SearchState S)} {failed : FailureCache S} {s : S} {st : SearchState S}

/-- Success is kept by a simulation of states. -/
theorem Succeeds.of_simulation {R : S → S → Prop}
    (hdone : ∀ s t, R s t → onComplete s = true → onComplete t = true)
    (happly : ∀ s t, R s t → ∀ i s', A.tryApply i s = some s' →
      ∃ t', A.tryApply i t = some t' ∧ R s' t') {t : S} (h : Succeeds A onComplete n l s)
    (hst : R s t) : Succeeds A onComplete n l t := by
  induction h generalizing t with
  | done hl hs => exact .done hl (hdone _ _ hst hs)
  | drop hi hen hr hd _ ih => exact .drop hi hen hr hd (ih hst)
  | apply hi hen happ _ ih =>
    obtain ⟨t', happ', hst'⟩ := happly _ _ hst _ _ happ
    exact .apply hi hen happ' (ih hst')

/-- Success does not depend on the representative of a state. -/
theorem succeeds_congr (hc : Congruent policy A onComplete) {t : S}
    (hst : policy.equal s t = true) :
    Succeeds A onComplete n l s ↔ Succeeds A onComplete n l t := by
  constructor
  · intro h
    refine h.of_simulation (R := fun s t => policy.equal s t = true)
      (fun s t hst hs => hc.onComplete s t hst ▸ hs) (fun s t hst i s' happ => ?_) hst
    have hrel := hc.tryApply s t hst i
    rw [happ] at hrel
    generalize A.tryApply i t = o at hrel
    cases hrel with
    | some hst' => exact ⟨_, rfl, hst'⟩
  · intro h
    refine h.of_simulation (R := fun t s => policy.equal s t = true)
      (fun t s hst ht => hc.onComplete s t hst ▸ ht) (fun t s hst i t' happ => ?_) hst
    have hrel := hc.tryApply s t hst i
    rw [happ] at hrel
    generalize A.tryApply i s = o at hrel
    cases hrel with
    | some hst' => exact ⟨_, rfl, hst'⟩

/-- Every configuration in the cache has failed. -/
def CacheSound (A : Adapter S) (onComplete : S → Bool) (n : ℕ) (failed : FailureCache S) : Prop :=
  ∀ k ∈ failed, ¬ Succeeds A onComplete n k.linearized k.state

theorem CacheSound.of_contains (hc : Congruent policy A onComplete)
    (h : CacheSound A onComplete n failed) (hhit : failed.contains policy l s = true) :
    ¬ Succeeds A onComplete n l s := by
  simp only [FailureCache.contains, Bool.and_eq_true, List.any_eq_true, SearchCacheKey.equal,
    beq_iff_eq] at hhit
  obtain ⟨-, k, hk, -, hl, heq⟩ := hhit
  subst hl
  rw [succeeds_congr hc heq]
  exact h k hk

theorem CacheSound.insert (h : CacheSound A onComplete n failed)
    (hfail : ¬ Succeeds A onComplete n l s) :
    CacheSound A onComplete n (failed.insert policy l s) := by
  intro k hk
  unfold FailureCache.insert at hk
  split at hk
  · exact h k hk
  · obtain rfl | hk := List.mem_cons.mp hk
    · exact hfail
    · exact h k hk

/-- A computation of the search that decides `P`: it returns, and when it returns `false` the
bitmap is the one it started with and the cache is sound. -/
def Decides (A : Adapter S) (onComplete : S → Bool) (n : ℕ) (l : List Bool) (P : Prop)
    (r : Option (Bool × SearchState S)) : Prop :=
  ∃ b st, r = some (b, st) ∧ (b = true ↔ P) ∧
    (b = false → st.linearized = l ∧ CacheSound A onComplete n st.failed)

/-- A level that decides success, for every configuration with fewer than `m` events left. -/
def LevelDecides (A : Adapter S) (onComplete : S → Bool) (n m : ℕ) (rec : Level S) : Prop :=
  ∀ s st, st.linearized.length = n → n - st.linearized.count true < m →
    CacheSound A onComplete n st.failed →
    Decides A onComplete n st.linearized (Succeeds A onComplete n st.linearized s)
      (rec s (st.linearized.count true) st)

theorem Decides.fail {P : Prop} (hP : ¬ P) (hst : CacheSound A onComplete n st.failed) :
    Decides A onComplete n st.linearized P (some (false, st)) :=
  ⟨false, st, rfl, by simp [hP], fun _ => ⟨rfl, hst⟩⟩

theorem Decides.orElse {P Q : Prop} {next : SearchState S → Option (Bool × SearchState S)}
    (h : Decides A onComplete n l P r)
    (hnext : ∀ st, st.linearized = l → CacheSound A onComplete n st.failed → ¬ P →
      Decides A onComplete n l Q (next st)) : Decides A onComplete n l (P ∨ Q) (orElse r next) := by
  obtain ⟨b, st, rfl, hb, hst⟩ := h
  cases b with
  | true => exact ⟨true, st, rfl, by simp [hb.mp rfl], by simp⟩
  | false =>
    obtain ⟨hl, hcache⟩ := hst rfl
    have hP : ¬ P := fun hp => Bool.noConfusion (hb.mpr hp)
    obtain ⟨b, st', hr, hb', hst'⟩ := hnext st hl hcache hP
    exact ⟨b, st', hr, by simp [hb', hP], hst'⟩

/-- One level deeper and back. -/
theorem descend_decides {m : ℕ} {rec : Level S} (hrec : LevelDecides A onComplete n m rec)
    (hlen : st.linearized.length = n) (hm : n - st.linearized.count true ≤ m)
    (hcache : CacheSound A onComplete n st.failed) (hi : i < n) (hen : Enabled A st.linearized i)
    (o : Option ℕ) (ho : ∀ r, o = some r → r < n ∧ r ≠ i ∧ isLinearized st.linearized r = false)
    (s : S) :
    Decides A onComplete n st.linearized
      (Succeeds A onComplete n (mark st.linearized i o true) s)
      (descend rec s (st.linearized.count true + 1 + o.toList.length) i o st) := by
  have hcount := count_mark hen (by omega) (hlen.symm ▸ ho)
  have hle : (mark st.linearized i o true).count true ≤ n := by
    have := List.count_le_length (a := true) (l := mark st.linearized i o true)
    simpa [hlen] using this
  have hdec := hrec s { st with linearized := mark st.linearized i o true } (by simpa using hlen)
    (by simp only; omega) hcache
  obtain ⟨b, st', hr, hb, hst'⟩ := hdec
  rw [descend, ← hcount, hr]
  cases b with
  | true => exact ⟨true, st', rfl, hb, by simp⟩
  | false =>
    obtain ⟨hl, hcache'⟩ := hst' rfl
    refine ⟨false, _, rfl, hb, fun _ => ⟨?_, hcache'⟩⟩
    simp only [hl]
    exact mark_mark hen.fresh fun r hr => (ho r hr).2.2

/-- The invoke `i` leads to success if it is linearized next. -/
def Promising (A : Adapter S) (onComplete : S → Bool) (n : ℕ) (l : List Bool) (s : S) (i : ℕ) :
    Prop :=
  (A.responseIndex i = none ∧ A.canDropPendingInvoke i = true ∧
    Succeeds A onComplete n (mark l i none true) s) ∨
  ∃ s', A.tryApply i s = some s' ∧ Succeeds A onComplete n (mark l i (A.responseIndex i) true) s'

/-- An incomplete configuration succeeds if one of its enabled invokes leads to success. -/
theorem succeeds_iff_exists_promising (hl : l.count true ≠ n) :
    Succeeds A onComplete n l s ↔ ∃ i < n, Enabled A l i ∧ Promising A onComplete n l s i := by
  constructor
  · intro h
    cases h with
    | done hl' _ => exact absurd hl' hl
    | drop hi hen hr hd h => exact ⟨_, hi, hen, .inl ⟨hr, hd, h⟩⟩
    | apply hi hen happ h => exact ⟨_, hi, hen, .inr ⟨_, happ, h⟩⟩
  · rintro ⟨i, hi, hen, ⟨hr, hd, h⟩ | ⟨s', happ, h⟩⟩
    · exact .drop hi hen hr hd h
    · exact .apply hi hen happ h

theorem Decides.congr {P Q : Prop} (h : Decides A onComplete n l P r) (hPQ : P ↔ Q) :
    Decides A onComplete n l Q r :=
  (propext hPQ : P = Q) ▸ h

variable {m : ℕ} {rec : Level S} {st : SearchState S} {i : ℕ}

theorem dropInvoke_decides (hrec : LevelDecides A onComplete n m rec)
    (hlen : st.linearized.length = n) (hm : n - st.linearized.count true ≤ m)
    (hcache : CacheSound A onComplete n st.failed) (hi : i < n)
    (hen : Enabled A st.linearized i) (s : S) :
    Decides A onComplete n st.linearized
      (A.responseIndex i = none ∧ A.canDropPendingInvoke i = true ∧
        Succeeds A onComplete n (mark st.linearized i none true) s)
      (dropInvoke A rec s (st.linearized.count true) i st) := by
  unfold dropInvoke
  split
  · rename_i h
    refine (descend_decides hrec hlen hm hcache hi hen none (by simp) s).congr ?_
    simp [h]
  · rename_i h
    exact .fail (fun hP => h ⟨hP.1, hP.2.1⟩) hcache

theorem applyInvoke_decides (hA : TriedIndexed A n) (hrec : LevelDecides A onComplete n m rec)
    (hlen : st.linearized.length = n) (hm : n - st.linearized.count true ≤ m)
    (hcache : CacheSound A onComplete n st.failed) (hi : i < n)
    (hen : Enabled A st.linearized i) (s : S) :
    Decides A onComplete n st.linearized
      (∃ s', A.tryApply i s = some s' ∧
        Succeeds A onComplete n (mark st.linearized i (A.responseIndex i) true) s')
      (applyInvoke A rec s (st.linearized.count true) i st) := by
  unfold applyInvoke
  cases happ : A.tryApply i s with
  | none => exact .fail (by simp) hcache
  | some s' =>
    have ho : ∀ r, A.responseIndex i = some r →
        r < n ∧ r ≠ i ∧ isLinearized st.linearized r = false := fun r hr =>
      have ⟨hlt, hne⟩ := hA i hi hen.invoke hen.response r hr
      ⟨hlt, hne, hen.unanswered r hr⟩
    have hdec := descend_decides hrec hlen hm hcache hi hen _ ho s'
    cases hr : A.responseIndex i with
    | none =>
      rw [hr] at hdec
      exact hdec.congr (by simp)
    | some r =>
      rw [hr] at hdec
      exact hdec.congr (by simp)

/-- **The loop of a level.** All responses before the index `k` it has come to are linearized. -/
theorem loop_decides (hA : TriedIndexed A n) (hrec : LevelDecides A onComplete n m rec)
    (hlen : l.length = n) (hm : n - l.count true ≤ m) (s : S) :
    ∀ (d k : ℕ) (st : SearchState S), k + d = n → st.linearized = l →
      CacheSound A onComplete n st.failed →
      (∀ r < k, A.isResponse r = true → isLinearized l r = true) →
      Decides A onComplete n l
        (∃ i, k ≤ i ∧ i < n ∧ Enabled A l i ∧ Promising A onComplete n l s i)
        (loop A rec s (l.count true) (List.range' k d) st) := by
  intro d
  induction d with
  | zero =>
    rintro k st hk rfl hcache -
    refine .fail ?_ hcache
    rintro ⟨i, hki, hi, -⟩
    omega
  | succ d ih =>
    rintro k st hk rfl hcache hmin
    rw [List.range'_succ]
    by_cases hstops : Stops A st.linearized k
    · -- nothing at or after an open response is enabled
      rw [loop_of_stops hstops]
      refine .fail ?_ hcache
      rintro ⟨i, hki, -, hen, -⟩
      obtain rfl | hlt := Nat.eq_or_lt_of_le hki
      · exact absurd hstops.response (by simp [hen.response])
      · exact absurd (hen.minimal k hlt hstops.response) (by simp [hstops.fresh])
    -- what the loop says after it has passed `k`
    have hrest : ∀ st' : SearchState S, st'.linearized = st.linearized →
        CacheSound A onComplete n st'.failed → Decides A onComplete n st.linearized
          (∃ i, k + 1 ≤ i ∧ i < n ∧ Enabled A st.linearized i ∧
            Promising A onComplete n st.linearized s i)
          (loop A rec s (st.linearized.count true) (List.range' (k + 1) d) st') := by
      intro st' hst' hcache'
      refine ih (k + 1) st' (by omega) hst' hcache' fun r hr hresp => ?_
      obtain hr | rfl := Nat.lt_succ_iff_lt_or_eq.mp hr
      · exact hmin r hr hresp
      · by_contra hlin
        exact hstops ⟨hresp, by simpa using hlin⟩
    by_cases htries : Tries A st.linearized k
    · have hen := htries.enabled hmin
      rw [loop_of_tries htries]
      have hdrop := dropInvoke_decides hrec hlen hm hcache (by omega) hen s
      have happly : ∀ st₁ : SearchState S, st₁.linearized = st.linearized →
          CacheSound A onComplete n st₁.failed → Decides A onComplete n st.linearized
            (∃ s', A.tryApply k s = some s' ∧ Succeeds A onComplete n
              (mark st.linearized k (A.responseIndex k) true) s')
            (applyInvoke A rec s (st.linearized.count true) k st₁) := by
        intro st₁ hst₁ hcache₁
        rw [← hst₁] at hlen hm hen ⊢
        exact applyInvoke_decides hA hrec hlen hm hcache₁ (by omega) hen s
      refine (hdrop.orElse fun st₁ hst₁ hcache₁ _ => (happly st₁ hst₁ hcache₁).orElse
        fun st₂ hst₂ hcache₂ _ => hrest st₂ hst₂ hcache₂).congr ?_
      constructor
      · rintro (hD | hA | ⟨i, hki, h⟩)
        · exact ⟨k, Nat.le_refl k, by omega, hen, .inl hD⟩
        · exact ⟨k, Nat.le_refl k, by omega, hen, .inr hA⟩
        · exact ⟨i, by omega, h⟩
      · rintro ⟨i, hki, hi, hen', hprom⟩
        obtain rfl | hlt := Nat.eq_or_lt_of_le hki
        · exact hprom.imp_right .inl
        · exact .inr (.inr ⟨i, hlt, hi, hen', hprom⟩)
    · rw [loop_of_passes hstops htries]
      refine (hrest st rfl hcache).congr ?_
      constructor
      · rintro ⟨i, hki, h⟩
        exact ⟨i, by omega, h⟩
      · rintro ⟨i, hki, hi, hen, h⟩
        obtain rfl | hlt := Nat.eq_or_lt_of_le hki
        · exact absurd hen.tries htries
        · exact ⟨i, hlt, hi, hen, h⟩

/-- **One level** decides success. -/
theorem step_decides (hA : TriedIndexed A n) (hc : Congruent policy A onComplete) (fuel : ℕ) :
    LevelDecides A onComplete n fuel (step policy A onComplete n fuel) := by
  induction fuel with
  | zero => exact fun s st _ hfuel => absurd hfuel (Nat.not_lt_zero _)
  | succ fuel ih =>
    intro s st hlen hfuel hcache
    rw [step]
    by_cases hcount : st.linearized.count true = n
    · rw [if_pos hcount]
      by_cases hs : onComplete s = true
      · exact ⟨true, st, by rw [hs], by simp [Succeeds.done hcount hs], by simp⟩
      · -- nothing is left to be linearized
        have hfull : ∀ i < n, ¬ Enabled A st.linearized i := fun i hi hen => by
          have := isLinearized_of_count (hcount.trans hlen.symm) (hlen.symm ▸ hi)
          simp [hen.fresh] at this
        have hfail : ¬ Succeeds A onComplete n st.linearized s := by
          intro h
          cases h with
          | done _ hs' => exact hs hs'
          | drop hi hen => exact hfull _ hi hen
          | apply hi hen => exact hfull _ hi hen
        rw [Bool.not_eq_true] at hs
        rw [hs]
        exact .fail hfail hcache
    · rw [if_neg hcount]
      by_cases hhit : st.failed.contains policy st.linearized s = true
      · rw [if_pos hhit]
        exact .fail (hcache.of_contains hc hhit) hcache
      · rw [if_neg hhit, List.range_eq_range']
        have hloop := loop_decides hA ih hlen (by omega) s n 0 st (by omega) rfl hcache (by simp)
        have hiff : (∃ i, 0 ≤ i ∧ i < n ∧ Enabled A st.linearized i ∧
            Promising A onComplete n st.linearized s i) ↔
            Succeeds A onComplete n st.linearized s := by
          simp [succeeds_iff_exists_promising hcount]
        refine ((hloop.congr hiff).orElse (Q := False) fun st' hst' hcache' hfail => ?_).congr
          (by simp)
        refine ⟨false, _, rfl, by simp, fun _ => ⟨hst', ?_⟩⟩
        rw [← hst'] at hfail
        exact hcache'.insert hfail

/-- **The search decides** whether everything can be linearized from the start; it never runs out
of fuel. -/
theorem search_decides (hA : TriedIndexed A n) (hc : Congruent policy A onComplete) (hn : n ≠ 0)
    (s : S) :
    ∃ b, search policy n s A onComplete = some b ∧
      (b = true ↔ Succeeds A onComplete n (List.replicate n false) s) := by
  have hdec := step_decides hA hc (n + 1) s ⟨List.replicate n false, []⟩ (by simp) (by omega)
    (by simp [CacheSound])
  obtain ⟨b, st, hr, hb, -⟩ := hdec
  refine ⟨b, ?_, hb⟩
  have hzero : (List.replicate n false).count true = 0 := by simp [List.count_replicate]
  simp only [hzero] at hr
  rw [search, if_neg hn, hr]
  rfl

end Search

end Lincheck

end LTest
