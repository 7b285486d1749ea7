import LTest.Lib.DepthFirst
import Mathlib.Data.List.Perm.Subperm

/-!
# In which graphs the order of the adjacency lists does not matter

The scan of `Lib.DepthFirst` greys a node when it is pushed, so whether it accepts an acyclic
graph may depend on the order of the adjacency lists. This file says exactly when it does not.

Two edges that leave one node, to `a` and to `b`, are *nested* when `b` is reached from `a`. If
`b` waits on the stack while `a` is explored, the scan reports a cycle. The one thing that can
prevent it is that `b` is finished before the node is expanded, and that is so in every order
precisely when an earlier root reaches `b`.

## Main definitions

* `Before` — an earlier root reaches a node
* `NestedBefore` — every nested pair of edges has its farther end reached by an earlier root

## Main results

* `accepts_of_nestedBefore` — an acyclic graph in which `NestedBefore` holds is accepted
* `not_accepts_orderTowards` — a graph in which it fails is rejected in some order
* `forall_perm_accepts_iff` — the two together
-/

namespace LTest

namespace DepthFirst

open Relation

variable {α : Type*} [DecidableEq α]

/-- A node is reached from one of the first roots, none of which reaches `v`. -/
def Before (succ : α → List α) (roots : List α) (b v : α) : Prop :=
  ∃ A, A <+: roots ∧ (∃ r ∈ A, ReflTransGen (Edge succ) r b) ∧
    ∀ r ∈ A, ¬ ReflTransGen (Edge succ) r v

/-- Of two edges that leave one node, if the end of the first reaches the end of the second, then
an earlier root does too. -/
def NestedBefore (succ : α → List α) (roots : List α) : Prop :=
  ∀ v a b, [a, b].Subperm (succ v) → ReflTransGen (Edge succ) a b → Before succ roots b v

/-! ### Rejections -/

variable {succ : α → List α} {st : State α} {stack : List (α × Bool)} {colors : α → Color}

/-- The loop over the successors gives up on a grey successor, or on one that stands twice in the
list. -/
theorem pushAll_eq_none {succs : List α} (h : pushAll succs colors stack = none) :
    ∃ s ∈ succs, colors s = .inStack ∨ (colors s = .notVisited ∧ [s, s].Sublist succs) := by
  induction succs generalizing colors stack with
  | nil => simp [pushAll] at h
  | cons y succs ih =>
    rw [pushAll] at h
    cases hy : colors y with
    | inStack => exact ⟨y, List.mem_cons_self, .inl hy⟩
    | visited =>
      simp only [hy] at h
      obtain ⟨s, hs, hcol | ⟨hcol, htwice⟩⟩ := ih h
      · exact ⟨s, List.mem_cons_of_mem y hs, .inl hcol⟩
      · exact ⟨s, List.mem_cons_of_mem y hs, .inr ⟨hcol, htwice.cons y⟩⟩
    | notVisited =>
      simp only [hy] at h
      obtain ⟨s, hs, hcol⟩ := ih h
      by_cases hsy : s = y
      · subst hsy
        exact ⟨s, List.mem_cons_self, .inr ⟨hy, (List.singleton_sublist.mpr hs).cons_cons s⟩⟩
      · rw [Function.update_of_ne hsy] at hcol
        obtain hcol | ⟨hcol, htwice⟩ := hcol
        · exact ⟨s, List.mem_cons_of_mem y hs, .inl hcol⟩
        · exact ⟨s, List.mem_cons_of_mem y hs, .inr ⟨hcol, htwice.cons y⟩⟩

/-- Only the expansion of a node reports a cycle. -/
theorem step_eq_none (h : step succ st = none) :
    ∃ v rest, st.stack = (v, false) :: rest ∧
      pushAll (succ v) st.colors ((v, true) :: rest) = none := by
  obtain ⟨colors, stack, roots⟩ := st
  match stack, roots with
  | [], [] => simp [step] at h
  | [], x :: rest =>
    simp only [step] at h
    split at h <;> simp at h
  | (v, true) :: rest, _ => simp [step] at h
  | (v, false) :: rest, _ => exact ⟨v, rest, rfl, Option.map_eq_none_iff.mp h⟩

/-! ### The shape of the stack -/

variable {roots : List α}

/-- `p` lies above `q` on a stack grown from the root `r`: a considered node reaches everything
above it, and above a node that still waits there are only nodes reached from one of the nodes
it was pushed with. -/
def Above (succ : α → List α) (r : α) (p q : α × Bool) : Prop :=
  (q.2 = true → TransGen (Edge succ) q.1 p.1) ∧
    (q.2 = false → ∃ u a, ReflTransGen (Edge succ) r u ∧ [a, q.1].Subperm (succ u) ∧
      ReflTransGen (Edge succ) a p.1)

omit [DecidableEq α] in
theorem Above.tail {r v s : α} {q : α × Bool} {b : Bool} (b' : Bool) (h : Above succ r (v, b) q)
    (hs : s ∈ succ v) : Above succ r (s, b') q := by
  refine ⟨fun hq => (h.1 hq).tail hs, fun hq => ?_⟩
  obtain ⟨u, a, hru, hau, hav⟩ := h.2 hq
  exact ⟨u, a, hru, hau, hav.tail hs⟩

/-- What holds in a state of the scan of the roots `roots`, besides `Inv`: the roots tried before
the current one are finished, and the stack has grown from the current one. -/
inductive Phase (succ : α → List α) (roots : List α) (st : State α) : Prop
  | between (tried : List α) (hroots : roots = tried ++ st.roots)
      (hvisited : ∀ r ∈ tried, st.colors r = .visited) (hstack : st.stack = [])
  | within (tried : List α) (r : α) (hroots : roots = tried ++ r :: st.roots)
      (hvisited : ∀ x ∈ tried, st.colors x = .visited)
      (hreach : ∀ p ∈ st.stack, ReflTransGen (Edge succ) r p.1)
      (habove : st.stack.Pairwise (Above succ r))
      (hroot : st.colors r = .visited ∨ r ∈ st.stack.map Prod.fst)

omit [DecidableEq α] in
/-- The new entries an expansion pushes stand in the right relation to each other and to the
entries below. -/
theorem pairwise_above_pushed {r v : α} {P : List α} {rest : List (α × Bool)}
    (hv : ReflTransGen (Edge succ) r v) (hP : P.reverse.Sublist (succ v))
    (h : ((v, false) :: rest).Pairwise (Above succ r)) :
    (P.map (·, false) ++ (v, true) :: rest).Pairwise (Above succ r) := by
  have hsub : P.Subperm (succ v) := (List.reverse_perm P).symm.subperm.trans hP.subperm
  have hmem : ∀ x ∈ P, x ∈ succ v := fun x hx => hP.subset (List.mem_reverse.mpr hx)
  obtain ⟨hvrest, hrest⟩ := List.pairwise_cons.mp h
  refine List.pairwise_append.mpr ⟨?_, List.pairwise_cons.mpr ⟨fun q hq => ?_, hrest⟩, ?_⟩
  · -- two nodes pushed together
    refine List.pairwise_map.mpr (List.pairwise_of_forall_sublist fun {x y} hxy => ?_)
    refine ⟨by simp, fun _ => ⟨v, x, hv, ?_, .refl⟩⟩
    exact hxy.subperm.trans hsub
  · exact ⟨fun hq2 => (hvrest q hq).1 hq2, fun hq2 => (hvrest q hq).2 hq2⟩
  · intro p hp q hq
    obtain ⟨x, hx, rfl⟩ := List.mem_map.mp hp
    rcases List.mem_cons.mp hq with rfl | hq
    · exact ⟨fun _ => .single (hmem x hx), by simp⟩
    · exact (hvrest q hq).tail false (hmem x hx)

omit [DecidableEq α] in
/-- With an empty stack all the roots tried so far are finished. -/
theorem Phase.tried_of_nil (h : Phase succ roots st) (hst : st.stack = []) :
    ∃ tried, roots = tried ++ st.roots ∧ ∀ r ∈ tried, st.colors r = .visited := by
  cases h with
  | between tried hroots hvisited => exact ⟨tried, hroots, hvisited⟩
  | within tried r hroots hvisited _ _ hroot =>
    have hr : st.colors r = .visited := by simpa [hst] using hroot
    refine ⟨tried ++ [r], by simpa using hroots, fun x hx => ?_⟩
    rcases List.mem_append.mp hx with hx | hx
    · exact hvisited x hx
    · obtain rfl := List.mem_singleton.mp hx
      exact hr

omit [DecidableEq α] in
theorem phase_init (succ : α → List α) (roots : List α) : Phase succ roots (init roots) :=
  .between [] rfl (by simp) rfl

theorem Phase.step {st' : State α} (h : Phase succ roots st) (hs : step succ st = some st') :
    Phase succ roots st' := by
  have hkeep : ∀ v, st.colors v = .visited → st'.colors v = .visited := fun v =>
    visited_of_reaches (.single hs)
  obtain ⟨-, rfl⟩ | ⟨x, rest, hst, hx, hxv, rfl⟩ | ⟨x, rest, hst, hx, -, rfl⟩ |
    ⟨v, rest, hst, rfl⟩ | ⟨v, rest, c, s, hst, hp, rfl⟩ := step_cases hs
  · exact h
  · obtain ⟨tried, hroots, hvisited⟩ := h.tried_of_nil hst
    refine .between (tried ++ [x]) (by simpa [hx] using hroots) (fun r hr => ?_) hst
    rcases List.mem_append.mp hr with hr | hr
    · exact hvisited r hr
    · obtain rfl := List.mem_singleton.mp hr
      exact hxv
  · obtain ⟨tried, hroots, hvisited⟩ := h.tried_of_nil hst
    exact .within tried x (by simpa [hx] using hroots) hvisited (by simp [ReflTransGen.refl])
      (List.pairwise_singleton ..) (by simp)
  · cases h with
    | between _ _ _ hnil => simp [hst] at hnil
    | within tried r hroots hvisited hreach habove hroot =>
      rw [hst] at hreach habove hroot
      refine .within tried r hroots (fun x hx => hkeep x (hvisited x hx))
        (fun p hp => hreach p (List.mem_cons_of_mem _ hp)) (List.pairwise_cons.mp habove).2 ?_
      rcases hroot with hr | hr
      · exact .inl (hkeep r hr)
      · rcases List.mem_cons.mp hr with rfl | hr
        · exact .inl (by simp)
        · exact .inr hr
  · cases h with
    | between _ _ _ hnil => simp [hst] at hnil
    | within tried r hroots hvisited hreach habove hroot =>
      rw [hst] at hreach habove hroot
      obtain ⟨P, rfl, hP, -, hmem, -⟩ := pushAll_spec hp
      have hv : ReflTransGen (Edge succ) r v := hreach (v, false) List.mem_cons_self
      refine .within tried r hroots (fun x hx => hkeep x (hvisited x hx)) (fun p hp => ?_)
        (pairwise_above_pushed hv hP habove) ?_
      · rcases List.mem_append.mp hp with hp | hp
        · obtain ⟨x, hx, rfl⟩ := List.mem_map.mp hp
          exact hv.tail (hmem x hx).1
        · rcases List.mem_cons.mp hp with rfl | hp
          · exact hv
          · exact hreach p (List.mem_cons_of_mem _ hp)
      · rcases hroot with hr | hr
        · exact .inl (hkeep r hr)
        · refine .inr ?_
          simp only [List.map_append, List.map_cons, List.mem_append]
          exact .inr hr

theorem phase_of_reaches (h : Reaches succ (init roots) st) : Phase succ roots st := by
  induction h with
  | refl => exact phase_init succ roots
  | tail _ hs ih => exact ih.step hs

/-! ### Acceptance in every order -/

/-- A state that reports a cycle has found one, or a nested pair of edges whose farther end is
not finished, below a node that the current root reaches. -/
theorem exists_nested_of_step_eq_none (hinv : Inv succ st) {r : α}
    (hreach : ∀ p ∈ st.stack, ReflTransGen (Edge succ) r p.1)
    (habove : st.stack.Pairwise (Above succ r)) (hs : step succ st = none) :
    (∃ v, TransGen (Edge succ) v v) ∨ ∃ u a b, ReflTransGen (Edge succ) r u ∧
      [a, b].Subperm (succ u) ∧ ReflTransGen (Edge succ) a b ∧ st.colors b ≠ .visited := by
  obtain ⟨v, rest, hst, hpush⟩ := step_eq_none hs
  rw [hst] at hreach habove
  have hv : ReflTransGen (Edge succ) r v := hreach (v, false) List.mem_cons_self
  obtain ⟨s, hsv, hcol | ⟨hcol, htwice⟩⟩ := pushAll_eq_none hpush
  · have hmem := hinv.inStack s hcol
    rw [hst] at hmem
    rcases List.mem_cons.mp hmem with rfl | hmem
    · exact .inl ⟨s, .single hsv⟩
    · obtain ⟨⟨x, b⟩, hx, rfl⟩ := List.mem_map.mp hmem
      have hab := (List.pairwise_cons.mp habove).1 (x, b) hx
      cases b with
      | true => exact .inl ⟨x, (hab.1 rfl).tail hsv⟩
      | false =>
        obtain ⟨u, a, hru, hsub, hav⟩ := hab.2 rfl
        exact .inr ⟨u, a, x, hru, hsub, hav.tail hsv, by simp [hcol]⟩
  · exact .inr ⟨v, s, s, hv, htwice.subperm, .refl, by simp [hcol]⟩

/-- **An acyclic graph whose nested pairs of edges all end in nodes reached earlier is
accepted.** -/
theorem accepts_of_nestedBefore (hsub : ∀ v, ∀ s ∈ succ v, s ∈ roots)
    (hacyc : ∀ v, ¬ TransGen (Edge succ) v v) (h : NestedBefore succ roots) :
    Accepts succ (init roots) := by
  refine accepts_of_forall_step hsub fun st hr hs => ?_
  have hinv := (inv_init succ roots).reaches hr
  cases phase_of_reaches hr with
  | between _ _ _ hst =>
    obtain ⟨v, rest, hst', -⟩ := step_eq_none hs
    simp [hst] at hst'
  | within tried r hroots hvisited hreach habove hroot =>
    obtain ⟨v, hv⟩ | ⟨u, a, b, hru, hsubp, hab, hb⟩ :=
      exists_nested_of_step_eq_none hinv hreach habove hs
    · exact hacyc v hv
    · -- the early root is one of those tried before, so the farther end is finished
      obtain ⟨A, hA, ⟨x, hxA, hxb⟩, hnot⟩ := h u a b hsubp hab
      have hrA : r ∉ A := fun hrA => hnot r hrA hru
      have hAtried : A <+: tried := by
        rcases List.prefix_or_prefix_of_prefix hA (hroots ▸ List.prefix_append tried _) with h | h
        · exact h
        · obtain ⟨B, rfl⟩ := h
          cases B with
          | nil => simp
          | cons y B =>
            obtain ⟨C, hC⟩ := hA
            obtain ⟨rfl, -⟩ : y = r ∧ _ := by simpa [hroots] using hC
            simp at hrA
      exact hb (hinv.visited_of_reach (hvisited x (hAtried.subset hxA)) hxb)

/-! ### Rejection in some order -/

variable {l : List α}

/-- Move one occurrence of `x` to the end of a list. -/
def moveToEnd (l : List α) (x : α) : List α := l.erase x ++ [x]

theorem moveToEnd_perm {x : α} (h : x ∈ l) : (moveToEnd l x).Perm l :=
  (List.perm_append_singleton x _).trans (List.perm_cons_erase h).symm

open Classical in
/-- The order that leads the scan straight to `v`, and there to `a`: the last entry of a list is
the first to be explored. -/
noncomputable def orderTowards (succ : α → List α) (v a u : α) : List α :=
  if u = v then moveToEnd (succ v) a
  else if h : ∃ s ∈ succ u, ReflTransGen (Edge succ) s v then moveToEnd (succ u) h.choose
  else succ u

theorem orderTowards_perm {v a : α} (ha : a ∈ succ v) (u : α) :
    (orderTowards succ v a u).Perm (succ u) := by
  unfold orderTowards
  split
  · rename_i hu
    subst hu
    exact moveToEnd_perm ha
  · split
    · rename_i h
      exact moveToEnd_perm h.choose_spec.1
    · exact .refl _

omit [DecidableEq α] in
theorem edge_congr {succ' : α → List α} (h : ∀ v, (succ' v).Perm (succ v)) :
    Edge succ' = Edge succ := by
  funext a b
  exact propext (h a).mem_iff

/-- The last successor is pushed on top, unless it is finished. -/
theorem pushAll_concat {x : α} {c : α → Color} {s : List (α × Bool)}
    (h : pushAll (l ++ [x]) colors stack = some (c, s)) (hx : colors x ≠ .visited) :
    ∃ c' s', pushAll l colors stack = some (c', s') ∧ c' x = .notVisited ∧
      c = Function.update c' x .inStack ∧ s = (x, false) :: s' := by
  rw [pushAll_append] at h
  obtain ⟨⟨c', s'⟩, hl, h⟩ := Option.bind_eq_some_iff.mp h
  obtain ⟨P, -, -, hc, -, -⟩ := pushAll_spec hl
  have hx' : c' x ≠ .visited := by
    rw [hc]
    split
    · simp
    · exact hx
  cases hcol : c' x with
  | notVisited =>
    simp only [pushAll, hcol, Option.some.injEq, Prod.mk.injEq] at h
    exact ⟨c', s', hl, hcol, h.1.symm, h.2.symm⟩
  | inStack => simp [pushAll, hcol] at h
  | visited => exact absurd hcol hx'

theorem not_visited_of_pushAll {c : α → Color} {s : List (α × Bool)}
    (h : pushAll l colors stack = some (c, s)) {x : α} (hx : colors x ≠ .visited) :
    c x ≠ .visited := by
  obtain ⟨P, -, -, hc, -, -⟩ := pushAll_spec h
  rw [hc]
  split
  · simp
  · exact hx

section Towards

variable {succ : α → List α} {v a b : α}

/-- Once the scan has a node on top that reaches `v`, it goes down to `v` and reports a cycle
between `a` and `b` there. -/
theorem not_accepts_of_top (hsub : [a, b].Subperm (succ v)) (hab : ReflTransGen (Edge succ) a b)
    (h : Accepts (orderTowards succ v a) st) (hinv : Inv (orderTowards succ v a) st)
    (hb : st.colors b ≠ .visited) {x : α} {rest : List (α × Bool)}
    (hst : st.stack = (x, false) :: rest) (hxv : ReflTransGen (Edge succ) x v) : False := by
  have ha : a ∈ succ v := hsub.subset (by simp)
  have hedge : Edge (orderTowards succ v a) = Edge succ := edge_congr (orderTowards_perm ha)
  have hvb : ReflTransGen (Edge succ) v b := .single (hsub.subset (by simp) : b ∈ succ v)
  revert hinv hb x rest
  refine Accepts.induction (motive := fun st => Inv (orderTowards succ v a) st →
    st.colors b ≠ .visited → ∀ {x : α} {rest : List (α × Bool)}, st.stack = (x, false) :: rest →
    ReflTransGen (Edge succ) x v → False) ?_ ?_ h
  · intro st hd _ _ x rest hst
    simp [hd.1] at hst
  intro st st' _ hs hacc ih hinv hb x rest hst hxv
  have hinv' := hinv.step hs
  -- nothing that reaches `b` is finished
  have hreach : ∀ y, ReflTransGen (Edge succ) y b → st.colors y ≠ .visited := fun y hy hcol =>
    hb (hinv.visited_of_reach hcol (hedge ▸ hy))
  have hs' := hs
  rw [step, hst] at hs'
  obtain ⟨⟨c, s⟩, hp, rfl⟩ := Option.map_eq_some_iff.mp hs'
  have hcb : c b ≠ .visited := not_visited_of_pushAll hp hb
  by_cases hx : x = v
  · subst hx
    rw [orderTowards, if_pos rfl, moveToEnd] at hp
    obtain ⟨c', s', hl, hca, rfl, rfl⟩ := pushAll_concat hp (hreach a hab)
    obtain ⟨P, rfl, -, hc', -, hsucc⟩ := pushAll_spec hl
    have hbl : b ∈ (succ x).erase a := (hsub.erase a).subset (by simp)
    have hbP : b ∈ P := (hsucc b hbl).resolve_right hb
    have hne : a ≠ b := by
      rintro rfl
      simp [hc', hbP] at hca
    refine not_transGen_top hacc hinv' rfl hne ?_ ?_
    · simp [Function.update_of_ne hne.symm, hc', hbP]
    · rw [hedge]
      exact (reflTransGen_iff_eq_or_transGen.mp hab).resolve_left hne.symm
  · obtain ⟨y, hxy, hyv⟩ := (ReflTransGen.cases_head hxv).resolve_left hx
    have hex : ∃ y ∈ succ x, ReflTransGen (Edge succ) y v := ⟨y, hxy, hyv⟩
    rw [orderTowards, if_neg hx, dif_pos hex, moveToEnd] at hp
    have hchoose := hex.choose_spec.2
    obtain ⟨c', s', -, -, rfl, rfl⟩ := pushAll_concat hp (hreach _ (hchoose.trans hvb))
    exact ih hinv' hcb rfl hchoose

/-- From a state whose stack does not reach `b`, the scan comes to the first root that reaches
`v` without having finished `b`. -/
theorem not_accepts_of_roots (hsub : [a, b].Subperm (succ v)) (hab : ReflTransGen (Edge succ) a b)
    (h : Accepts (orderTowards succ v a) st) (hinv : Inv (orderTowards succ v a) st)
    (hb : st.colors b ≠ .visited) (hstack : ∀ p ∈ st.stack, ¬ ReflTransGen (Edge succ) p.1 b)
    {A B : List α} {r : α} (hroots : st.roots = A ++ r :: B)
    (hA : ∀ x ∈ A, ¬ ReflTransGen (Edge succ) x b) (hrv : ReflTransGen (Edge succ) r v) :
    False := by
  have ha : a ∈ succ v := hsub.subset (by simp)
  have hedge : Edge (orderTowards succ v a) = Edge succ := edge_congr (orderTowards_perm ha)
  have hvb : ReflTransGen (Edge succ) v b := .single (hsub.subset (by simp) : b ∈ succ v)
  revert hinv hb hstack A
  refine Accepts.induction (motive := fun st => Inv (orderTowards succ v a) st →
    st.colors b ≠ .visited → (∀ p ∈ st.stack, ¬ ReflTransGen (Edge succ) p.1 b) →
    ∀ {A : List α}, st.roots = A ++ r :: B → (∀ x ∈ A, ¬ ReflTransGen (Edge succ) x b) →
    False) ?_ ?_ h
  · intro st hd _ _ _ A hroots
    simp [hd.2] at hroots
  intro st st' hd hs hacc ih hinv hb hstack A hroots hA
  have hinv' := hinv.step hs
  obtain ⟨hd', -⟩ | ⟨x, rest, hst, hx, hxv, rfl⟩ | ⟨x, rest, hst, hx, -, rfl⟩ |
    ⟨w, rest, hst, rfl⟩ | ⟨w, rest, c, s, hst, hp, rfl⟩ := step_cases hs
  · exact hd hd'
  · cases A with
    | nil =>
      obtain ⟨rfl, -⟩ : x = r ∧ rest = B := by simpa [hx] using hroots
      exact hb (hinv.visited_of_reach hxv (hedge ▸ hrv.trans hvb))
    | cons y A =>
      obtain ⟨-, hrest⟩ : x = y ∧ rest = A ++ r :: B := by simpa [hx] using hroots
      exact ih hinv' hb hstack hrest fun z hz => hA z (List.mem_cons_of_mem y hz)
  · cases A with
    | nil =>
      obtain ⟨rfl, -⟩ : x = r ∧ rest = B := by simpa [hx] using hroots
      exact not_accepts_of_top hsub hab hacc hinv' hb rfl hrv
    | cons y A =>
      obtain ⟨rfl, hrest⟩ : x = y ∧ rest = A ++ r :: B := by simpa [hx] using hroots
      refine ih hinv' hb (fun p hp => ?_) hrest fun z hz => hA z (List.mem_cons_of_mem x hz)
      obtain rfl := List.mem_singleton.mp hp
      exact hA x List.mem_cons_self
  · rw [hst] at hstack
    have hbw : b ≠ w := by
      rintro rfl
      exact hstack (b, true) List.mem_cons_self .refl
    exact ih hinv' (by simpa [hbw] using hb) (fun p hp => hstack p (List.mem_cons_of_mem _ hp))
      hroots hA
  · rw [hst] at hstack
    have hw : ¬ ReflTransGen (Edge succ) w b := hstack (w, false) List.mem_cons_self
    obtain ⟨P, rfl, -, -, hP, -⟩ := pushAll_spec hp
    refine ih hinv' (not_visited_of_pushAll hp hb) (fun p hp => ?_) hroots hA
    rcases List.mem_append.mp hp with hp | hp
    · obtain ⟨x, hx, rfl⟩ := List.mem_map.mp hp
      intro hxb
      exact hw (.head ((orderTowards_perm ha w).subset (hP x hx).1) hxb)
    · rcases List.mem_cons.mp hp with rfl | hp
      · exact hw
      · exact hstack p (List.mem_cons_of_mem _ hp)

/-- **A nested pair of edges whose farther end no earlier root reaches makes the scan reject in
some order.** -/
theorem not_accepts_orderTowards (hsub : [a, b].Subperm (succ v))
    (hab : ReflTransGen (Edge succ) a b) (hv : v ∈ roots) (hbefore : ¬ Before succ roots b v) :
    ¬ Accepts (orderTowards succ v a) (init roots) := by
  intro h
  -- split the roots at the first one that reaches `v`
  obtain ⟨A, r, B, hroots, hr, hA⟩ : ∃ A r B, roots = A ++ r :: B ∧
      ReflTransGen (Edge succ) r v ∧ ∀ x ∈ A, ¬ ReflTransGen (Edge succ) x v := by
    classical
    have hsome : (roots.find? fun x => ReflTransGen (Edge succ) x v).isSome :=
      List.find?_isSome.mpr ⟨v, hv, by simp [ReflTransGen.refl]⟩
    obtain ⟨r, hr⟩ := Option.isSome_iff_exists.mp hsome
    obtain ⟨hrv, A, B, hroots, hA⟩ := List.find?_eq_some_iff_append.mp hr
    exact ⟨A, r, B, hroots, by simpa using hrv, fun x hx => by simpa using hA x hx⟩
  refine not_accepts_of_roots hsub hab h (inv_init _ roots) (by simp [init]) (by simp [init])
    (A := A) (B := B) (r := r) hroots (fun x hx hxb => hbefore ?_) hr
  exact ⟨A, hroots ▸ List.prefix_append A _, ⟨x, hx, hxb⟩, hA⟩

end Towards

/-- **When the order does not matter.** An acyclic graph is accepted in every order of its
adjacency lists exactly when the farther ends of its nested pairs of edges are all reached by
earlier roots. -/
theorem forall_perm_accepts_iff (hsub : ∀ v, ∀ s ∈ succ v, s ∈ roots)
    (hnodes : ∀ v, succ v ≠ [] → v ∈ roots) (hacyc : ∀ v, ¬ TransGen (Edge succ) v v) :
    (∀ succ' : α → List α, (∀ v, (succ' v).Perm (succ v)) → Accepts succ' (init roots)) ↔
      NestedBefore succ roots := by
  constructor
  · intro h v a b hab hreach
    have ha : a ∈ succ v := hab.subset (by simp)
    by_contra hbefore
    exact not_accepts_orderTowards hab hreach (hnodes v (List.ne_nil_of_mem ha)) hbefore
      (h _ (orderTowards_perm ha))
  · intro h succ' hperm
    have hedge : Edge succ' = Edge succ := edge_congr hperm
    refine accepts_of_nestedBefore (fun v s hs => hsub v s ((hperm v).subset hs))
      (by rwa [hedge]) fun v a b hab hreach => ?_
    rw [hedge] at hreach
    have := h v a b (hab.trans (hperm v).subperm) hreach
    rwa [Before, hedge]

end DepthFirst

end LTest
