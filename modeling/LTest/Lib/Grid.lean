import Mathlib.Algebra.GroupWithZero.Nat

/-!
# Lists of lists

A list of rows, read and written by position. Rows grow at their end.

## Main definitions

* `Grid.get?`, `Grid.back?` — the entry at a position, and the last one of a row
* `Grid.modify`, `Grid.push` — a changed entry, and a new one at the end of a row
* `Grid.pop` — a row without its last entry
* `Grid.size`, `Grid.count` — the number of entries, and of those with a property
-/

namespace LTest

namespace Grid

variable {α β : Type}

/-- The entry at a position. -/
def get? (g : List (List α)) (i j : ℕ) : Option α := g[i]?.bind (·[j]?)

/-- The last entry of a row. -/
def back? (g : List (List α)) (i : ℕ) : Option α := g[i]?.bind List.getLast?

/-- The grid with the entry at a position changed. -/
def modify (g : List (List α)) (i j : ℕ) (f : α → α) : List (List α) := g.modify i (·.modify j f)

/-- The grid with a new entry at the end of a row. -/
def push (g : List (List α)) (i : ℕ) (a : α) : List (List α) := g.modify i (· ++ [a])

/-- The grid without the last entry of a row. -/
def pop (g : List (List α)) (i : ℕ) : List (List α) := g.modify i List.dropLast

/-- The number of entries. -/
def size (g : List (List α)) : ℕ := (g.map List.length).sum

/-- The number of entries with a property. -/
def count (p : α → Bool) (g : List (List α)) : ℕ := (g.map (·.countP p)).sum

/-- The number of entries of a row. -/
def rowLength (g : List (List α)) (i : ℕ) : ℕ := (g.getD i []).length

variable {g : List (List α)} {i j : ℕ} {a : α}

/-! ### Reading -/

variable {p : α → Bool}

theorem get?_lt (h : get? g i j = some a) : i < g.length := by
  rw [get?, Option.bind_eq_some_iff] at h
  obtain ⟨row, hrow, -⟩ := h
  exact (List.getElem?_eq_some_iff.mp hrow).1

theorem get?_eq_of_row {row : List α} (hrow : g[i]? = some row) : get? g i j = row[j]? := by
  rw [get?, hrow, Option.bind_some]

theorem rowLength_of_row {row : List α} (hrow : g[i]? = some row) : rowLength g i = row.length := by
  rw [rowLength, List.getD_eq_getElem?_getD, hrow, Option.getD_some]

theorem get?_lt_rowLength (h : get? g i j = some a) : j < rowLength g i := by
  obtain ⟨row, hrow, hj⟩ := Option.bind_eq_some_iff.mp h
  rw [rowLength_of_row hrow]
  exact (List.getElem?_eq_some_iff.mp hj).1

theorem back?_eq_get? : back? g i = get? g i (rowLength g i - 1) := by
  cases hrow : g[i]? with
  | none => simp [back?, get?, hrow]
  | some row =>
    rw [get?_eq_of_row hrow, rowLength_of_row hrow, back?, hrow, Option.bind_some,
      List.getLast?_eq_getElem?]

/-- An entry is in the grid if and only if it is at some position. -/
theorem any_any_iff :
    (g.any fun row => row.any p) = true ↔ ∃ i j a, get? g i j = some a ∧ p a = true := by
  constructor
  · intro h
    obtain ⟨row, hrow, h⟩ := List.any_eq_true.mp h
    obtain ⟨a, ha, hp⟩ := List.any_eq_true.mp h
    obtain ⟨i, hi⟩ := List.mem_iff_getElem?.mp hrow
    obtain ⟨j, hj⟩ := List.mem_iff_getElem?.mp ha
    exact ⟨i, j, a, (get?_eq_of_row hi).trans hj, hp⟩
  · rintro ⟨i, j, a, h, hp⟩
    obtain ⟨row, hrow, ha⟩ := Option.bind_eq_some_iff.mp h
    exact List.any_eq_true.mpr ⟨row, List.mem_of_getElem? hrow,
      List.any_eq_true.mpr ⟨a, List.mem_of_getElem? ha, hp⟩⟩

theorem get?_of_forall_nil (h : ∀ row ∈ g, row = []) : get? g i j = none := by
  cases hrow : g[i]? with
  | none => simp [get?, hrow]
  | some row => simp [get?, hrow, h row (List.mem_of_getElem? hrow)]

theorem size_of_forall_nil (h : ∀ row ∈ g, row = []) : size g = 0 := by
  induction g with
  | nil => rfl
  | cons row g ih =>
    have ih := ih fun row' hrow' => h row' (List.mem_cons_of_mem _ hrow')
    simp [size, h row List.mem_cons_self] at ih ⊢
    exact ih

/-! ### Maps -/

variable {h : α → β}

@[simp] theorem get?_map (f : α → β) : get? (g.map (·.map f)) i j = (get? g i j).map f := by
  cases hrow : g[i]? with
  | none => simp [get?, hrow]
  | some row => simp [get?, hrow]

theorem map_map {δ : Type} (f : α → β) (h : β → δ) :
    (g.map (·.map f)).map (·.map h) = g.map (·.map fun a => h (f a)) := by
  simp only [List.map_map, Function.comp_def]

theorem map_congr {f : α → β} (hf : ∀ a, f a = h a) : g.map (·.map f) = g.map (·.map h) := by
  rw [funext hf]

theorem rowLength_map (f : α → β) : rowLength (g.map (·.map f)) i = rowLength g i := by
  cases hrow : g[i]? with
  | none => simp [rowLength, hrow]
  | some row => simp [rowLength, hrow]

theorem size_map (f : α → β) : size (g.map (·.map f)) = size g := by
  simp [size, Function.comp_def]

/-! ### Changed entries -/

variable {f : α → α} {i' : ℕ} {j' : ℕ}

@[simp] theorem length_modify (f : α → α) : (modify g i j f).length = g.length := by
  simp [modify]

@[simp] theorem get?_modify_self (f : α → α) : get? (modify g i j f) i j = (get? g i j).map f := by
  cases hrow : g[i]? with
  | none => simp [get?, modify, hrow]
  | some row => simp [get?, modify, hrow]

theorem get?_modify_of_ne (f : α → α) (h : ¬ (i' = i ∧ j' = j)) :
    get? (modify g i j f) i' j' = get? g i' j' := by
  by_cases hi : i' = i
  · subst hi
    have hj : j ≠ j' := fun hj => h ⟨rfl, hj.symm⟩
    cases hrow : g[i']? with
    | none => simp [get?, modify, hrow]
    | some row => simp [get?, modify, hrow, List.getElem?_modify_ne _ _ hj]
  · have hi' : i ≠ i' := fun h => hi h.symm
    simp [get?, modify, List.getElem?_modify_ne _ _ hi']

/-- The entries after a change: the changed one and the old ones. -/
theorem get?_modify_cases (h : get? (modify g i j f) i' j' = some a) :
    (i' = i ∧ j' = j ∧ ∃ b, get? g i j = some b ∧ f b = a) ∨
      ¬ (i' = i ∧ j' = j) ∧ get? g i' j' = some a := by
  by_cases hij : i' = i ∧ j' = j
  · obtain ⟨rfl, rfl⟩ := hij
    rw [get?_modify_self, Option.map_eq_some_iff] at h
    exact .inl ⟨rfl, rfl, h⟩
  · exact .inr ⟨hij, get?_modify_of_ne f hij ▸ h⟩

@[simp] theorem rowLength_modify (f : α → α) : rowLength (modify g i j f) i' = rowLength g i' := by
  by_cases hi : i = i'
  · subst hi
    cases hrow : g[i]? with
    | none => simp [rowLength, modify, hrow]
    | some row => simp [rowLength, modify, hrow]
  · simp [rowLength, modify, List.getElem?_modify_ne _ _ hi]

theorem map_modify_of_get? (hf : ∀ a, get? g i j = some a → h (f a) = h a) :
    (modify g i j f).map (·.map h) = g.map (·.map h) := by
  have hrow (row : List α) (hf : ∀ a, row[j]? = some a → h (f a) = h a) :
      (row.modify j f).map h = row.map h := by
    refine List.ext_getElem? fun j' => ?_
    by_cases hj : j = j'
    · subst hj
      cases hcell : row[j]? with
      | none => simp [hcell]
      | some a => simp [hcell, hf a hcell]
    · simp [List.getElem?_modify_ne _ _ hj]
  refine List.ext_getElem? fun i' => ?_
  by_cases hi : i = i'
  · subst hi
    cases hcell : g[i]? with
    | none => simp [modify, hcell]
    | some row =>
      have hrow := hrow row fun a ha => hf a ((get?_eq_of_row hcell).trans ha)
      simp [modify, hcell, hrow]
  · simp [modify, List.getElem?_modify_ne _ _ hi]

theorem map_modify (hf : ∀ a, h (f a) = h a) : (modify g i j f).map (·.map h) = g.map (·.map h) :=
  map_modify_of_get? fun a _ => hf a

/-- A change that, seen through a map, depends only on what the map sees. -/
theorem map_listModify_congr {γ δ : Type*} {row row' : List γ} {f f' : γ → γ} {h : γ → δ} (j : ℕ)
    (hrow : row.map h = row'.map h) (hf : ∀ a a', h a = h a' → h (f a) = h (f' a')) :
    (row.modify j f).map h = (row'.modify j f').map h := by
  induction row generalizing row' j with
  | nil =>
    cases row' with
    | nil => cases j <;> rfl
    | cons b row' => cases hrow
  | cons a row ih =>
    cases row' with
    | nil => cases hrow
    | cons b row' =>
      obtain ⟨hab, hrest⟩ := List.cons.inj hrow
      cases j with
      | zero => exact List.cons_eq_cons.mpr ⟨hf a b hab, hrest⟩
      | succ j => exact List.cons_eq_cons.mpr ⟨hab, ih j hrest⟩

theorem map_modify_congr {g' : List (List α)} {f' : α → α} (hg : g.map (·.map h) = g'.map (·.map h))
    (hf : ∀ a a', h a = h a' → h (f a) = h (f' a')) :
    (modify g i j f).map (·.map h) = (modify g' i j f').map (·.map h) :=
  map_listModify_congr i hg fun _ _ hrow => map_listModify_congr j hrow hf

theorem count_modify (h : get? g i j = some a) :
    count p (modify g i j f) + (if p a then 1 else 0) = count p g + if p (f a) then 1 else 0 := by
  have hrow (row : List α) (j : ℕ) (h : row[j]? = some a) :
      (row.modify j f).countP p + (if p a then 1 else 0) =
        row.countP p + if p (f a) then 1 else 0 := by
    induction row generalizing j with
    | nil => cases h
    | cons b row ih =>
      cases j with
      | zero =>
        obtain rfl : b = a := by simpa using h
        simp only [List.modify_zero_cons, List.countP_cons]
        omega
      | succ j =>
        have ih := ih j (by simpa using h)
        simp only [List.modify_succ_cons, List.countP_cons]
        omega
  induction g generalizing i with
  | nil => simp [get?] at h
  | cons row g ih =>
    cases i with
    | zero =>
      have hrow := hrow row j (by simpa [get?] using h)
      simp only [count, modify, List.modify_zero_cons, List.map_cons, List.sum_cons]
      omega
    | succ i =>
      have ih := ih (i := i) (by simpa [get?] using h)
      simp only [count, modify, List.modify_succ_cons, List.map_cons, List.sum_cons] at ih ⊢
      omega

theorem count_map {p : β → Bool} (f : α → β) :
    count p (g.map (·.map f)) = count (fun a => p (f a)) g := by
  simp [count, List.countP_map, Function.comp_def]

theorem count_congr {q : α → Bool} (h : ∀ i j a, get? g i j = some a → p a = q a) :
    count p g = count q g := by
  refine congrArg List.sum (List.map_congr_left fun row hrow => ?_)
  obtain ⟨i, hi⟩ := List.mem_iff_getElem?.mp hrow
  refine List.countP_congr fun a ha => ?_
  obtain ⟨j, hj⟩ := List.mem_iff_getElem?.mp ha
  rw [h i j a ((get?_eq_of_row hi).trans hj)]

theorem count_eq_zero (hzero : count p g = 0) (h : get? g i j = some a) : p a = false := by
  obtain ⟨row, hrow, hj⟩ := Option.bind_eq_some_iff.mp h
  have hmem : row.countP p ∈ g.map (·.countP p) :=
    List.mem_map_of_mem (List.mem_of_getElem? hrow)
  have hcount : row.countP p = 0 := List.sum_eq_zero_iff_forall_eq_nat.mp hzero _ hmem
  simpa using List.countP_eq_zero.mp hcount a (List.mem_of_getElem? hj)

/-- If every entry with `p` stands where an entry with `q` stands, there are no more of them. -/
theorem count_le_of_get? {g' : List (List β)} {p : β → Bool} {q : α → Bool}
    (h : ∀ i j b, get? g' i j = some b → p b = true → ∃ a, get? g i j = some a ∧ q a = true) :
    count p g' ≤ count q g := by
  have hrow (row' : List β) (row : List α)
      (h : ∀ (j : ℕ) b, row'[j]? = some b → p b = true → ∃ a, row[j]? = some a ∧ q a = true) :
      row'.countP p ≤ row.countP q := by
    induction row' generalizing row with
    | nil => exact Nat.zero_le _
    | cons b row' ih =>
      cases row with
      | nil =>
        refine Nat.le_of_eq (List.countP_eq_zero.2 fun b' hb' hp => ?_)
        obtain ⟨j, hj⟩ := List.mem_iff_getElem?.1 hb'
        obtain ⟨a, ha, -⟩ := h j b' hj hp
        cases ha
      | cons a row =>
        have ih := ih row fun j => h (j + 1)
        rw [List.countP_cons, List.countP_cons]
        refine Nat.add_le_add ih ?_
        by_cases hp : p b = true
        · obtain ⟨a', ha', hq⟩ := h 0 b rfl hp
          have hqa : q a = true := Option.some.inj ha' ▸ hq
          exact Nat.le_of_eq ((if_pos hp).trans (if_pos hqa).symm)
        · rw [if_neg hp]
          exact Nat.zero_le _
  induction g' generalizing g with
  | nil => exact Nat.zero_le _
  | cons row' g' ih =>
    have hfirst := hrow row' (g.headD []) fun j b hb hp => by
      obtain ⟨a, ha, hq⟩ := h 0 j b hb hp
      cases g with
      | nil => cases ha
      | cons row g => exact ⟨a, ha, hq⟩
    have hrest := ih (g := g.tail) fun i j b hb hp => by
      obtain ⟨a, ha, hq⟩ := h (i + 1) j b hb hp
      cases g with
      | nil => cases ha
      | cons row g => exact ⟨a, ha, hq⟩
    cases g with
    | nil => exact Nat.add_le_add hfirst hrest
    | cons row g => exact Nat.add_le_add hfirst hrest

/-- If only last entries have a property, the rows are counted by their last entries. -/
theorem count_eq_countP_back?
    (h : ∀ i j a, get? g i j = some a → p a = true → j + 1 = rowLength g i) :
    count p g = (List.range g.length).countP fun i => (back? g i).any p := by
  have hrow (row : List α) (h : ∀ (j : ℕ) a, row[j]? = some a → p a = true → j + 1 = row.length) :
      row.countP p = if row.getLast?.any p then 1 else 0 := by
    induction row with
    | nil => rfl
    | cons a row ih =>
      rw [List.countP_cons, ih fun j a ha hp => Nat.succ.inj (h (j + 1) a ha hp)]
      cases row with
      | nil => cases hp : p a <;> simp [hp]
      | cons b row =>
        have hfirst : ¬ p a = true := fun hp => by simpa using h 0 a rfl hp
        rw [if_neg hfirst, List.getLast?_cons_cons, Nat.add_zero]
  induction g with
  | nil => rfl
  | cons row g ih =>
    have hfirst := hrow row fun j a ha hp => h 0 j a ha hp
    have hrest := ih fun i j a ha hp => h (i + 1) j a ha hp
    rw [List.length_cons, List.range_succ_eq_map, List.countP_cons, List.countP_map]
    show row.countP p + count p g = _
    rw [hfirst, hrest, Nat.add_comm]
    rfl

/-! ### New entries -/

@[simp] theorem length_push : (push g i a).length = g.length := by simp [push]

theorem get?_push_self (hi : i < g.length) : get? (push g i a) i (rowLength g i) = some a := by
  have hrow : g[i]? = some g[i] := List.getElem?_eq_getElem hi
  rw [rowLength_of_row hrow]
  simp [get?, push, hrow]

/-- The entries after a new one: the new one and the old ones. -/
theorem get?_push_cases {b : α} (h : get? (push g i a) i' j' = some b) :
    (i' = i ∧ j' = rowLength g i ∧ b = a) ∨ get? g i' j' = some b := by
  by_cases hi : i = i'
  · subst hi
    cases hrow : g[i]? with
    | none =>
      simp [get?, push, hrow] at h
    | some row =>
      have hpush : (row ++ [a])[j']? = some b := by simpa [get?, push, hrow] using h
      rw [rowLength_of_row hrow, get?_eq_of_row hrow]
      by_cases hj : j' < row.length
      · rw [List.getElem?_append_left hj] at hpush
        exact .inr hpush
      · rw [List.getElem?_append_right (Nat.le_of_not_lt hj)] at hpush
        have hlt := (List.getElem?_eq_some_iff.mp hpush).1
        have hj0 : j' - row.length = 0 := by simpa using hlt
        rw [hj0] at hpush
        exact .inl ⟨rfl, by omega, (Option.some.inj hpush).symm⟩
  · refine .inr ?_
    simpa [get?, push, List.getElem?_modify_ne _ _ hi] using h

theorem get?_push_of_get? {b : α} (h : get? g i' j' = some b) :
    get? (push g i a) i' j' = some b := by
  by_cases hi : i = i'
  · subst hi
    obtain ⟨row, hrow, hj⟩ := Option.bind_eq_some_iff.mp h
    have hlt := (List.getElem?_eq_some_iff.mp hj).1
    simpa [get?, push, hrow, List.getElem?_append_left hlt] using hj
  · simpa [get?, push, List.getElem?_modify_ne _ _ hi] using h

theorem rowLength_push_self (hi : i < g.length) : rowLength (push g i a) i = rowLength g i + 1 := by
  have hrow : g[i]? = some g[i] := List.getElem?_eq_getElem hi
  simp [rowLength, push, hrow]

theorem rowLength_push_of_ne (h : i ≠ i') : rowLength (push g i a) i' = rowLength g i' := by
  simp [rowLength, push, List.getElem?_modify_ne _ _ h]

theorem map_push (h : α → β) : (push g i a).map (·.map h) = push (g.map (·.map h)) i (h a) := by
  refine List.ext_getElem? fun i' => ?_
  by_cases hi : i = i'
  · subst hi
    cases hrow : g[i]? <;> simp [push, hrow]
  · simp [push, List.getElem?_modify_ne _ _ hi]

theorem back?_push_self (hi : i < g.length) : back? (push g i a) i = some a := by
  rw [back?_eq_get?, rowLength_push_self hi, Nat.add_sub_cancel, get?_push_self hi]

@[simp] theorem back?_map (f : α → β) : back? (g.map (·.map f)) i = (back? g i).map f := by
  rw [back?_eq_get?, back?_eq_get?, rowLength_map, get?_map]

theorem get?_of_get?_pop {b : α} (h : get? (pop g i) i' j' = some b) : get? g i' j' = some b := by
  by_cases hi : i = i'
  · subst hi
    cases hrow : g[i]? with
    | none => simp [get?, pop, hrow] at h
    | some row =>
      have h : row.dropLast[j']? = some b := by simpa [get?, pop, hrow] using h
      rw [List.getElem?_dropLast] at h
      split at h
      · rw [get?_eq_of_row hrow, h]
      · cases h
  · rwa [get?, pop, List.getElem?_modify_ne _ _ hi] at h

theorem map_pop (h : α → β) : (pop g i).map (·.map h) = pop (g.map (·.map h)) i := by
  refine List.ext_getElem? fun i' => ?_
  by_cases hi : i = i'
  · subst hi
    cases hrow : g[i]? <;> simp [pop, hrow]
  · simp [pop, List.getElem?_modify_ne _ _ hi]

theorem pop_push : pop (push g i a) i = g := by
  refine List.ext_getElem? fun i' => ?_
  by_cases hi : i = i'
  · subst hi
    cases hrow : g[i]? <;> simp [pop, push, hrow]
  · simp [pop, push, List.getElem?_modify_ne _ _ hi]

theorem count_push (hi : i < g.length) :
    count p (push g i a) = count p g + if p a then 1 else 0 := by
  induction g generalizing i with
  | nil => cases hi
  | cons row g ih =>
    cases i with
    | zero =>
      simp only [count, push, List.modify_zero_cons, List.map_cons, List.sum_cons,
        List.countP_append, List.countP_singleton]
      omega
    | succ i =>
      have ih := ih (Nat.lt_of_succ_lt_succ hi)
      simp only [count, push, List.modify_succ_cons, List.map_cons, List.sum_cons] at ih ⊢
      omega

theorem size_push (hi : i < g.length) : size (push g i a) = size g + 1 := by
  induction g generalizing i with
  | nil => cases hi
  | cons row g ih =>
    cases i with
    | zero => simp [size, push]; omega
    | succ i =>
      have ih := ih (Nat.lt_of_succ_lt_succ hi)
      simp only [size, push, List.modify_succ_cons, List.map_cons, List.sum_cons] at ih ⊢
      omega

end Grid

end LTest
