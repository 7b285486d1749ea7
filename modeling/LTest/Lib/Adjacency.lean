import LTest.Lib.DepthFirst

/-!
# Adjacency lists without duplicates

Edges are drawn one after another; an edge that is already there is not drawn again, and a new
one goes to the end of its source's list. `insertEdges` draws a list of edges in order. The
membership lemma is all that reachability arguments need; the order inside the lists matters to
`DepthFirst`, and `insertEdges_eq_insertSink` and `insertEdges_two` describe it for edges into
one or two sinks.
-/

namespace LTest

namespace Adjacency

open DepthFirst

variable {α : Type*} [DecidableEq α] {succ : α → List α} {l : List (α × α)}

section

variable (succ)

/-- Draw the edge `a → b` unless it exists. -/
def insertEdge (a b : α) : α → List α :=
  if b ∈ succ a then succ else Function.update succ a (succ a ++ [b])

/-- Draw a list of edges, in order. -/
def insertEdges (l : List (α × α)) : α → List α :=
  l.foldl (fun s p => insertEdge s p.1 p.2) succ

@[simp] theorem insertEdges_nil : insertEdges succ [] = succ := rfl

theorem insertEdges_append (l l' : List (α × α)) :
    insertEdges succ (l ++ l') = insertEdges (insertEdges succ l) l' :=
  List.foldl_append

theorem insertEdges_concat (l : List (α × α)) (p : α × α) :
    insertEdges succ (l ++ [p]) = insertEdge (insertEdges succ l) p.1 p.2 := by
  rw [insertEdges_append]
  rfl

end

theorem mem_insertEdge {a b x y : α} :
    y ∈ insertEdge succ a b x ↔ y ∈ succ x ∨ (x = a ∧ y = b) := by
  unfold insertEdge
  split
  · refine ⟨.inl, fun h => ?_⟩
    rcases h with h | ⟨rfl, rfl⟩ <;> assumption
  · by_cases hx : x = a
    · subst hx; simp
    · simp [hx]

theorem mem_insertEdges {x y : α} : y ∈ insertEdges succ l x ↔ y ∈ succ x ∨ (x, y) ∈ l := by
  induction l using List.reverseRecOn with
  | nil => simp
  | append_singleton l p ih =>
    rw [insertEdges_concat, mem_insertEdge, ih]
    simp [or_assoc, Prod.ext_iff]

/-! ### Edges into one or two sinks -/

/-- Drawing edges into one node appends that node to the lists of the sources. -/
theorem insertEdges_eq_insertSink (succ : α → List α) (S : List α) (τ : α) :
    insertEdges succ (S.map (·, τ)) = insertSink succ S τ := by
  induction S using List.reverseRecOn with
  | nil => funext v; simp [insertSink]
  | append_singleton S x ih =>
    funext v
    rw [List.map_append, List.map_singleton, insertEdges_concat, ih, insertEdge]
    by_cases hvx : v = x
    · subst hvx
      by_cases hτ : τ ∈ succ v <;> by_cases hS : v ∈ S <;> simp [insertSink, hτ, hS]
    · split <;> simp [insertSink, hvx]

/-- The sources of the edges into `t`. -/
theorem mem_sources {v t : α} : v ∈ (l.filter fun p => p.2 = t).map Prod.fst ↔ (v, t) ∈ l := by
  rw [List.mem_map]
  constructor
  · rintro ⟨⟨a, b⟩, hp, rfl⟩
    obtain ⟨hmem, hb⟩ := List.mem_filter.mp hp
    obtain rfl : b = t := of_decide_eq_true hb
    exact hmem
  · intro hmem
    exact ⟨(v, t), List.mem_filter.mpr ⟨hmem, decide_eq_true rfl⟩, rfl⟩

/-- The list of a node after edges into `τ` and then edges into a new node `n`. -/
theorem insertSink_insertSink {τ n v : α} (hne : τ ≠ n) (hn : n ∉ succ v) (A B : List α) :
    insertSink (insertSink succ A τ) B n v =
      succ v ++ (if v ∈ A ∧ τ ∉ succ v then [τ] else []) ++ if v ∈ B then [n] else [] := by
  have hfirst : insertSink succ A τ v =
      succ v ++ if v ∈ A ∧ τ ∉ succ v then [τ] else [] := by
    rw [insertSink]
    split
    · rfl
    · exact (List.append_nil _).symm
  have hnew : n ∉ insertSink succ A τ v := by
    rw [hfirst, List.mem_append, not_or]
    refine ⟨hn, ?_⟩
    split
    · exact fun h => hne (List.mem_singleton.mp h).symm
    · exact List.not_mem_nil
  rw [insertSink]
  by_cases hB : v ∈ B
  · rw [if_pos ⟨hB, hnew⟩, if_pos hB, hfirst]
  · rw [if_neg (hB ·.1), if_neg hB, hfirst, List.append_nil]

/-- Drawing edges into `τ` and into a new node `n` comes to drawing the former first, provided no
source gets its edge to `τ` after its edge to `n`. -/
theorem insertEdges_two {τ n : α} (hne : τ ≠ n) (hn : ∀ x, n ∉ succ x)
    (htgt : ∀ p ∈ l, p.2 = τ ∨ p.2 = n)
    (hord : ∀ x l₁ l₂, l = l₁ ++ (x, n) :: l₂ → (x, τ) ∈ l₂ → (x, τ) ∈ l₁ ∨ τ ∈ succ x) :
    insertEdges succ l = insertSink
      (insertSink succ ((l.filter fun p => p.2 = τ).map Prod.fst) τ)
      ((l.filter fun p => p.2 = n).map Prod.fst) n := by
  funext v
  rw [insertSink_insertSink hne (hn v)]
  simp only [mem_sources]
  induction l using List.reverseRecOn with
  | nil => simp
  | append_singleton l p ih =>
    obtain ⟨x, b⟩ := p
    have hih := ih (fun p hp => htgt p (List.mem_append_left _ hp)) fun y l₁ l₂ hl hy =>
      hord y l₁ (l₂ ++ [(x, b)]) (by simp [hl]) (List.mem_append_left _ hy)
    have hmem (t : α) : t ∈ insertEdges succ l v ↔ t ∈ succ v ∨ (v, t) ∈ l := mem_insertEdges
    rw [insertEdges_concat, insertEdge]
    simp only [List.mem_append, List.mem_singleton, Prod.mk.injEq]
    by_cases hvx : v = x
    · subst hvx
      rcases htgt (v, b) (by simp) with rfl | rfl
      · by_cases hold : b ∈ succ v ∨ (v, b) ∈ l
        · -- the edge is there already, and so is its source
          rw [if_pos ((hmem b).mpr hold), hih]
          rcases hold with hold | hold <;> simp [hold, hne.symm]
        · rw [not_or] at hold
          have hnl : (v, n) ∉ l := fun h => by
            obtain ⟨l₁, l₂, hl⟩ := List.append_of_mem h
            rcases hord v l₁ (l₂ ++ [(v, b)]) (by simp [hl]) (by simp) with h' | h'
            · exact hold.2 (by simp [hl, h'])
            · exact hold.1 h'
          rw [if_neg (mt (hmem b).mp (not_or.mpr hold)), Function.update_self, hih]
          simp [hold, hnl, hne.symm]
      · by_cases hold : (v, b) ∈ l
        · rw [if_pos ((hmem b).mpr (.inr hold)), hih]
          simp [hold, hne]
        · rw [if_neg (mt (hmem b).mp (not_or.mpr ⟨hn v, hold⟩)), Function.update_self, hih]
          simp [hold, hne]
    · -- the list of another node stays as it is
      have hsame : (if b ∈ insertEdges succ l x then insertEdges succ l
          else Function.update (insertEdges succ l) x (insertEdges succ l x ++ [b])) v =
          insertEdges succ l v := by
        split
        · rfl
        · exact Function.update_of_ne hvx _ _
      rw [hsame, hih]
      simp [hvx]

end Adjacency

end LTest
