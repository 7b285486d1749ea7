import Mathlib.Tactic.Common

/-!
# Matching closings with openings

One pass over a list of opening and closing marks that records, at the position of an opening, the
position of its closing. A closing is matched with the last opening of its key; if there is none,
with the last opening of its name.

## Main definitions

* `closings` — the pass
* `WellMatched` — every key is opened once, closed at most once, and after it was opened

## Main results

* `getD_closings` — in a well-matched list the pass finds the closing of every opening
-/

namespace LTest

namespace Matching

variable {K L : Type}

/-- A mark: the opening or the closing of a key, which also has a name. -/
inductive Mark (K L : Type)
  | opening (key : K) (name : L)
  | closing (key : K) (name : L)

/-- The mark opens the key. -/
def Mark.Opens (k : K) : Mark K L → Prop
  | .opening key _ => key = k
  | .closing _ _ => False

/-- The mark closes the key. -/
def Mark.Closes (k : K) : Mark K L → Prop
  | .opening _ _ => False
  | .closing key _ => key = k

/-- The mark at a position opens a key. -/
def OpensAt (marks : List (Mark K L)) (k : K) (i : ℕ) : Prop := ∃ m, marks[i]? = some m ∧ m.Opens k

/-- The mark at a position closes a key. -/
def ClosesAt (marks : List (Mark K L)) (k : K) (i : ℕ) : Prop :=
  ∃ m, marks[i]? = some m ∧ m.Closes k

section

variable {marks : List (Mark K L)} {k k' : K} {i : ℕ}

theorem OpensAt.lt (h : OpensAt marks k i) : i < marks.length := by
  obtain ⟨m, hm, -⟩ := h
  exact (List.getElem?_eq_some_iff.mp hm).1

theorem ClosesAt.lt (h : ClosesAt marks k i) : i < marks.length := by
  obtain ⟨m, hm, -⟩ := h
  exact (List.getElem?_eq_some_iff.mp hm).1

theorem OpensAt.unique (h : OpensAt marks k i) (h' : OpensAt marks k' i) : k = k' := by
  obtain ⟨m, hm, ho⟩ := h
  obtain ⟨m', hm', ho'⟩ := h'
  obtain rfl := Option.some.inj (hm.symm.trans hm')
  cases m with
  | opening key _ => exact ho.symm.trans ho'
  | closing _ _ => exact ho.elim

theorem ClosesAt.unique (h : ClosesAt marks k i) (h' : ClosesAt marks k' i) : k = k' := by
  obtain ⟨m, hm, hc⟩ := h
  obtain ⟨m', hm', hc'⟩ := h'
  obtain rfl := Option.some.inj (hm.symm.trans hm')
  cases m with
  | opening _ _ => exact hc.elim
  | closing key _ => exact hc.symm.trans hc'

theorem OpensAt.not_closesAt (h : OpensAt marks k i) : ¬ ClosesAt marks k' i := by
  rintro ⟨m', hm', hc⟩
  obtain ⟨m, hm, ho⟩ := h
  obtain rfl := Option.some.inj (hm.symm.trans hm')
  cases m with
  | opening _ _ => exact hc
  | closing _ _ => exact ho

theorem opensAt_map {E : Type} {events : List E} {mark : E → Mark K L} :
    OpensAt (events.map mark) k i ↔ ∃ e, events[i]? = some e ∧ (mark e).Opens k := by
  simp [OpensAt, List.getElem?_map, Option.map_eq_some_iff]

theorem closesAt_map {E : Type} {events : List E} {mark : E → Mark K L} :
    ClosesAt (events.map mark) k i ↔ ∃ e, events[i]? = some e ∧ (mark e).Closes k := by
  simp [ClosesAt, List.getElem?_map, Option.map_eq_some_iff]

theorem opensAt_or_closesAt (hi : i < marks.length) :
    (∃ k, OpensAt marks k i) ∨ ∃ k, ClosesAt marks k i := by
  have hm : marks[i]? = some marks[i] := List.getElem?_eq_getElem hi
  cases h : marks[i] with
  | opening key _ => exact .inl ⟨key, _, hm.trans (congrArg some h), rfl⟩
  | closing key _ => exact .inr ⟨key, _, hm.trans (congrArg some h), rfl⟩

end

variable [DecidableEq K] [DecidableEq L] {marks : List (Mark K L)}

/-- The variables of the pass. -/
structure State (K L : Type) where
  /-- The result. -/
  closings : List (Option ℕ)
  /-- The last opening of every key. -/
  byKey : K → Option ℕ := fun _ => none
  /-- The last opening of every name. -/
  byName : L → Option ℕ := fun _ => none

/-- The mark at position `i`. -/
def step (i : ℕ) (st : State K L) : Mark K L → State K L
  | .opening key name =>
    { st with
      byKey := Function.update st.byKey key (some i)
      byName := Function.update st.byName name (some i) }
  | .closing key name =>
    match st.byKey key with
    | some j => { st with closings := st.closings.set j (some i) }
    | none =>
      match st.byName name with
      | some j => { st with closings := st.closings.set j (some i) }
      | none => st

/-- The rest of the pass, from position `i` on. -/
def pass : ℕ → List (Mark K L) → State K L → State K L
  | _, [], st => st
  | i, m :: rest, st => pass (i + 1) rest (step i st m)

/-- For every position, the position of the closing that was matched with it. -/
def closings (marks : List (Mark K L)) : List (Option ℕ) :=
  (pass 0 marks ⟨List.replicate marks.length none, fun _ => none, fun _ => none⟩).closings

@[simp] theorem length_step (i : ℕ) (st : State K L) (m : Mark K L) :
    (step i st m).closings.length = st.closings.length := by
  cases m with
  | opening key name => rfl
  | closing key name =>
    rw [step]
    split
    · simp
    · split <;> simp

@[simp] theorem length_closings (marks : List (Mark K L)) :
    (closings marks).length = marks.length := by
  have hpass : ∀ (rest : List (Mark K L)) (i : ℕ) (st : State K L),
      (pass i rest st).closings.length = st.closings.length := by
    intro rest
    induction rest with
    | nil => exact fun i st => rfl
    | cons m rest ih => exact fun i st => (ih (i + 1) _).trans (length_step i st m)
  rw [closings, hpass, List.length_replicate]

theorem getElem?_zipWith_closings {E F : Type} (f : E → Option ℕ → F) (events : List E)
    (mark : E → Mark K L) (i : ℕ) :
    (List.zipWith f events (closings (events.map mark)))[i]? =
      events[i]?.map fun e => f e ((closings (events.map mark)).getD i none) := by
  rw [List.getElem?_zipWith]
  cases hi : events[i]? with
  | none => rfl
  | some e =>
    have hlt := (List.getElem?_eq_some_iff.mp hi).1
    have hlt' : i < (closings (events.map mark)).length := by simpa using hlt
    simp [List.getElem?_eq_getElem hlt']

/-- Openings and closings match. -/
structure WellMatched (marks : List (Mark K L)) : Prop where
  /-- A key is opened at most once. -/
  opened_once : ∀ k i j, OpensAt marks k i → OpensAt marks k j → i = j
  /-- It is closed at most once. -/
  closed_once : ∀ k i j, ClosesAt marks k i → ClosesAt marks k j → i = j
  /-- What is closed was opened. -/
  opened : ∀ k r, ClosesAt marks k r → ∃ i < r, OpensAt marks k i

/-- What the pass knows when it has come to position `p`. -/
structure Inv (marks : List (Mark K L)) (p : ℕ) (st : State K L) : Prop where
  /-- Every mark has an entry. -/
  length : st.closings.length = marks.length
  /-- The keys opened before `p`. -/
  byKey : ∀ k i, st.byKey k = some i ↔ i < p ∧ OpensAt marks k i
  /-- The closings before `p`. -/
  closings : ∀ i r, st.closings.getD i none = some r ↔
    r < p ∧ ∃ k, OpensAt marks k i ∧ ClosesAt marks k r

theorem Inv.step (h : WellMatched marks) {p : ℕ} {st : State K L} (hst : Inv marks p st)
    {m : Mark K L} (hm : marks[p]? = some m) : Inv marks (p + 1) (step p st m) := by
  cases m with
  | opening key name =>
    have hopen : OpensAt marks key p := ⟨_, hm, rfl⟩
    refine ⟨hst.length, fun k i => ?_, fun i r => ?_⟩
    · by_cases hk : k = key
      · subst hk
        simp only [Matching.step, Function.update_self, Option.some.injEq]
        constructor
        · rintro rfl
          exact ⟨Nat.lt_succ_self p, hopen⟩
        · rintro ⟨-, hi⟩
          exact h.opened_once k p i hopen hi
      · simp only [Matching.step, Function.update_of_ne hk, hst.byKey]
        refine ⟨fun ⟨hi, ho⟩ => ⟨by omega, ho⟩, fun ⟨hi, ho⟩ => ⟨?_, ho⟩⟩
        obtain hi | rfl := Nat.lt_succ_iff_lt_or_eq.mp hi
        · exact hi
        · exact absurd (ho.unique hopen) hk
    · rw [Matching.step, hst.closings]
      refine ⟨fun ⟨hr, hk⟩ => ⟨by omega, hk⟩, fun ⟨hr, hk⟩ => ⟨?_, hk⟩⟩
      obtain hr | rfl := Nat.lt_succ_iff_lt_or_eq.mp hr
      · exact hr
      · obtain ⟨k, -, hc⟩ := hk
        exact absurd hc hopen.not_closesAt
  | closing key name =>
    have hclose : ClosesAt marks key p := ⟨_, hm, rfl⟩
    obtain ⟨j, hjp, hj⟩ := h.opened key p hclose
    have hfind : st.byKey key = some j := (hst.byKey key j).mpr ⟨hjp, hj⟩
    have hjlen : j < st.closings.length := hst.length ▸ hj.lt
    have hstep : Matching.step p st (.closing key name) =
        { st with closings := st.closings.set j (some p) } := by
      simp [Matching.step, hfind]
    rw [hstep]
    refine ⟨by simpa using hst.length, fun k i => ?_, fun i r => ?_⟩
    · rw [hst.byKey]
      refine ⟨fun ⟨hi, ho⟩ => ⟨by omega, ho⟩, fun ⟨hi, ho⟩ => ⟨?_, ho⟩⟩
      obtain hi | rfl := Nat.lt_succ_iff_lt_or_eq.mp hi
      · exact hi
      · exact absurd hclose ho.not_closesAt
    · by_cases hij : i = j
      · subst hij
        have hget : (st.closings.set i (some p)).getD i none = some p := by simp [hjlen]
        rw [hget, Option.some.injEq]
        constructor
        · rintro rfl
          exact ⟨Nat.lt_succ_self p, key, hj, hclose⟩
        · rintro ⟨-, k, ho, hc⟩
          obtain rfl := ho.unique hj
          exact h.closed_once k p r hclose hc
      · have hget : (st.closings.set j (some p)).getD i none = st.closings.getD i none := by
          simp [Ne.symm hij]
        rw [hget, hst.closings]
        refine ⟨fun ⟨hr, hk⟩ => ⟨by omega, hk⟩, fun ⟨hr, k, ho, hc⟩ => ⟨?_, k, ho, hc⟩⟩
        obtain hr | rfl := Nat.lt_succ_iff_lt_or_eq.mp hr
        · exact hr
        · obtain rfl := hc.unique hclose
          exact absurd (h.opened_once k i j ho hj) hij

theorem Inv.pass (h : WellMatched marks) (rest : List (Mark K L)) {p : ℕ} {st : State K L}
    (hst : Inv marks p st) (hrest : marks.drop p = rest) :
    Inv marks (p + rest.length) (pass p rest st) := by
  induction rest generalizing p st with
  | nil => exact hst
  | cons m rest ih =>
    have hm : marks[p]? = some m := by
      have := congrArg List.head? hrest
      simpa using this
    have hdrop : marks.drop (p + 1) = rest := by
      rw [← List.drop_drop, hrest]
      rfl
    have := ih (hst.step h hm) hdrop
    rwa [List.length_cons, Nat.add_comm rest.length, ← Nat.add_assoc]

/-- **The pass finds the closing of every opening.** -/
theorem getD_closings (h : WellMatched marks) (i r : ℕ) :
    (closings marks).getD i none = some r ↔ ∃ k, OpensAt marks k i ∧ ClosesAt marks k r := by
  have hnone : ∀ i, (List.replicate marks.length (none : Option ℕ)).getD i none = none := by
    intro i
    simp only [List.getD_eq_getElem?_getD, List.getElem?_replicate]
    split <;> rfl
  have hinit : Inv marks 0 (⟨List.replicate marks.length none, fun _ => none, fun _ => none⟩ :
      State K L) :=
    ⟨by simp, fun k i => by simp, fun i r => by rw [hnone]; simp⟩
  have hend := hinit.pass h marks rfl
  rw [closings, hend.closings]
  refine ⟨And.right, fun hk => ⟨?_, hk⟩⟩
  obtain ⟨k, -, hc⟩ := hk
  have := hc.lt
  omega

end Matching

end LTest
