import Mathlib.Data.Finset.Card

/-!
# Recursive marking

A recursive search over a graph of adjacency lists that marks a node before it visits its
successors. Nodes that are marked, and nodes of a set that is to be skipped, are not visited. The
recursion has fuel; what is needed is the number of nodes that are not marked.

## Main definitions

* `mark`, `markAll` — the search from one node, and from all nodes of a list
* `ClosedBut` — a property that passes to successors that are not skipped

## Main results

* `forall_mem_markAll` — what is marked has every property of the roots that is closed
* `adds_markAll`, `closedBut_markAll` — what is marked has the roots and is closed
-/

namespace LTest

namespace Marking

variable {α : Type*}

/-- The search from a node. -/
def mark [DecidableEq α] (succ : α → List α) (skip : Finset α) : ℕ → Finset α → α → Finset α
  | 0, marked, _ => marked
  | fuel + 1, marked, a =>
    if a ∈ marked ∨ a ∈ skip then marked
    else (succ a).foldl (mark succ skip fuel) (insert a marked)

/-- The search from the nodes of a list. -/
def markAll [DecidableEq α] (succ : α → List α) (skip : Finset α) (fuel : ℕ) (roots : List α)
    (marked : Finset α) : Finset α :=
  roots.foldl (mark succ skip fuel) marked

/-- The successors of what has the property have it, or are skipped. -/
def ClosedBut (succ : α → List α) (skip : Finset α) (p : α → Prop) : Prop :=
  ∀ a, p a → ∀ b ∈ succ a, p b ∨ b ∈ skip

variable {succ : α → List α} {skip : Finset α} {p : α → Prop}

/-! ### Nothing else is marked -/

variable {marked : Finset α} {roots : List α} {f : Finset α → α → Finset α} {a : α}

theorem forall_mem_foldl
    (hf : ∀ marked a, (∀ b ∈ marked, p b) → p a ∨ a ∈ skip → ∀ b ∈ f marked a, p b)
    (hmarked : ∀ a ∈ marked, p a) (hroots : ∀ a ∈ roots, p a ∨ a ∈ skip) :
    ∀ a ∈ roots.foldl f marked, p a := by
  induction roots generalizing marked with
  | nil => exact hmarked
  | cons a roots ih =>
    refine ih (hf marked a hmarked (hroots a List.mem_cons_self)) fun b hb => ?_
    exact hroots b (List.mem_cons_of_mem a hb)

theorem forall_mem_mark [DecidableEq α] (hp : ClosedBut succ skip p) (fuel : ℕ)
    (hmarked : ∀ b ∈ marked, p b) (ha : p a ∨ a ∈ skip) :
    ∀ b ∈ mark succ skip fuel marked a, p b := by
  induction fuel generalizing marked a with
  | zero => exact hmarked
  | succ fuel ih =>
    rw [mark]
    split
    · exact hmarked
    · rename_i hnew
      have ha : p a := ha.resolve_right fun hskip => hnew (.inr hskip)
      refine forall_mem_foldl (fun marked b => ih) (fun b hb => ?_) (hp a ha)
      rcases Finset.mem_insert.mp hb with rfl | hb
      · exact ha
      · exact hmarked b hb

theorem forall_mem_markAll [DecidableEq α] (hp : ClosedBut succ skip p) (fuel : ℕ)
    (hroots : ∀ a ∈ roots, p a ∨ a ∈ skip) : ∀ a ∈ markAll succ skip fuel roots ∅, p a :=
  forall_mem_foldl (fun _ _ => forall_mem_mark hp fuel)
    (fun a ha => absurd ha (Finset.notMem_empty a)) hroots

/-! ### Everything that is needed is marked -/

/-- What a search adds to the marks. -/
structure Adds (succ : α → List α) (skip : Finset α) (roots : List α)
    (marked marked' : Finset α) : Prop where
  /-- Marks stay. -/
  subset : marked ⊆ marked'
  /-- The roots are marked. -/
  roots : ∀ a ∈ roots, a ∈ marked' ∨ a ∈ skip
  /-- So are the successors of all nodes that were not marked before. -/
  closed : ∀ a ∈ marked', a ∉ marked → ∀ b ∈ succ a, b ∈ marked' ∨ b ∈ skip
  /-- Nodes to be skipped are not. -/
  avoids : ∀ a ∈ marked', a ∉ marked → a ∉ skip

theorem Adds.nil (marked : Finset α) : Adds succ skip [] marked marked where
  subset := Finset.Subset.refl _
  roots := nofun
  closed _ ha hnew := absurd ha hnew
  avoids _ ha hnew := absurd ha hnew

theorem Adds.of_mem (h : a ∈ marked ∨ a ∈ skip) : Adds succ skip [a] marked marked :=
  { Adds.nil marked with
    roots := fun b hb => by
      rw [List.mem_singleton.mp hb]
      exact h }

theorem Adds.append {roots' : List α} {marked' marked'' : Finset α}
    (h : Adds succ skip roots marked marked') (h' : Adds succ skip roots' marked' marked'') :
    Adds succ skip (roots ++ roots') marked marked'' where
  subset := h.subset.trans h'.subset
  roots a ha := by
    rcases List.mem_append.mp ha with ha | ha
    · exact (h.roots a ha).imp_left fun hmem => h'.subset hmem
    · exact h'.roots a ha
  closed a ha hnew b hb := by
    by_cases ha' : a ∈ marked'
    · exact (h.closed a ha' hnew b hb).imp_left fun hmem => h'.subset hmem
    · exact h'.closed a ha ha' b hb
  avoids a ha hnew := by
    by_cases ha' : a ∈ marked'
    · exact h.avoids a ha' hnew
    · exact h'.avoids a ha ha'

variable [DecidableEq α] {nodes : Finset α} {fuel : ℕ}

theorem Adds.foldl
    (hf : ∀ marked a, a ∈ nodes → (nodes \ marked).card ≤ fuel →
      Adds succ skip [a] marked (f marked a)) (hroots : ∀ a ∈ roots, a ∈ nodes)
    (hfuel : (nodes \ marked).card ≤ fuel) :
    Adds succ skip roots marked (roots.foldl f marked) := by
  induction roots generalizing marked with
  | nil => exact .nil marked
  | cons a roots ih =>
    have hadds := hf marked a (hroots a List.mem_cons_self) hfuel
    refine hadds.append (ih (fun b hb => hroots b (List.mem_cons_of_mem a hb)) ?_)
    exact (Finset.card_le_card (Finset.sdiff_subset_sdiff (Finset.Subset.refl _)
      hadds.subset)).trans hfuel

theorem Adds.cons {marked' : Finset α} (ha : a ∉ skip)
    (h : Adds succ skip (succ a) (insert a marked) marked') :
    Adds succ skip [a] marked marked' where
  subset := (Finset.subset_insert a marked).trans h.subset
  roots b hb := by
    rw [List.mem_singleton.mp hb]
    exact .inl (h.subset (Finset.mem_insert_self a marked))
  closed b hb hnew := by
    by_cases hba : b = a
    · exact hba ▸ h.roots
    · exact h.closed b hb fun hmem => hnew ((Finset.mem_insert.mp hmem).resolve_left hba)
  avoids b hb hnew := by
    by_cases hba : b = a
    · exact hba ▸ ha
    · exact h.avoids b hb fun hmem => hnew ((Finset.mem_insert.mp hmem).resolve_left hba)

/-- With enough fuel the search is complete. -/
theorem adds_mark (hnodes : ∀ a ∈ nodes, ∀ b ∈ succ a, b ∈ nodes) (ha : a ∈ nodes)
    (hfuel : (nodes \ marked).card ≤ fuel) :
    Adds succ skip [a] marked (mark succ skip fuel marked a) := by
  induction fuel generalizing marked a with
  | zero =>
    -- all nodes are marked
    have hempty := Finset.card_eq_zero.mp (Nat.le_zero.mp hfuel)
    exact .of_mem (.inl (Finset.sdiff_eq_empty_iff_subset.mp hempty ha))
  | succ fuel ih =>
    rw [mark]
    split
    · rename_i h
      exact .of_mem h
    · rename_i hnew
      rw [not_or] at hnew
      have hlt : (nodes \ insert a marked).card < (nodes \ marked).card := by
        refine Finset.card_lt_card ((Finset.ssubset_iff_of_subset ?_).mpr ⟨a, ?_, ?_⟩)
        · exact Finset.sdiff_subset_sdiff (Finset.Subset.refl _) (Finset.subset_insert a marked)
        · exact Finset.mem_sdiff.mpr ⟨ha, hnew.1⟩
        · exact fun hmem => (Finset.mem_sdiff.mp hmem).2 (Finset.mem_insert_self a marked)
      refine .cons hnew.2 (Adds.foldl (fun marked b hb hle => ih hb hle) (hnodes a ha) ?_)
      omega

theorem adds_markAll (nodes : Finset α) (hnodes : ∀ a ∈ nodes, ∀ b ∈ succ a, b ∈ nodes)
    (hroots : ∀ a ∈ roots, a ∈ nodes) (hfuel : nodes.card ≤ fuel) :
    Adds succ skip roots ∅ (markAll succ skip fuel roots ∅) := by
  refine Adds.foldl (fun marked a ha hle => adds_mark hnodes ha hle) hroots ?_
  rwa [Finset.sdiff_empty]

theorem closedBut_markAll (nodes : Finset α) (hnodes : ∀ a ∈ nodes, ∀ b ∈ succ a, b ∈ nodes)
    (hroots : ∀ a ∈ roots, a ∈ nodes) (hfuel : nodes.card ≤ fuel) :
    ClosedBut succ skip (· ∈ markAll succ skip fuel roots ∅) := fun a ha =>
  (adds_markAll nodes hnodes hroots hfuel).closed a ha (Finset.notMem_empty a)

end Marking

end LTest
