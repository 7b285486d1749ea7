import Mathlib.Algebra.GroupWithZero.Nat
import Mathlib.Logic.Relation
import Mathlib.Data.List.Induction

/-!
# A depth-first scan that greys nodes when they are pushed

An iterative depth-first scan over a directed graph given by adjacency lists. A node is coloured
`inStack` at the moment it is *pushed*, not at the moment it is entered, and the scan reports a
cycle as soon as an edge leads to an `inStack` node. A root is pushed without being coloured.

Colouring on push makes the scan stricter than a cycle test: two siblings are both `inStack`
while the first of them is explored, so an edge between them is reported although nothing is
cyclic. What the scan accepts is acyclic (`acyclic_of_accepts`); the converse fails, and the
acceptance result below says what survives instead.

## Main definitions

* `State`, `step`, `run` — the scan as a machine, with fuel
* `Accepts` — the scan started in a state ends without reporting a cycle

## Main results

* `exists_run_init` — with the fuel `scanFuel` the scan always returns a verdict
* `acyclic_of_accepts` — an accepted graph has no cycle
* `accepts_insertSink` — drawing edges into a sink at the end of adjacency lists keeps the scan
  accepting, as long as the sink is never `inStack` when one of the new sources is expanded
* `exists_sink` — every successor-closed set has a sink for which that side condition holds
-/

namespace LTest

namespace DepthFirst

open Relation

variable {α : Type*} [DecidableEq α]

/-- The three colours of a node. -/
inductive Color
  | notVisited
  | inStack
  | visited
  deriving DecidableEq, Repr

/-- The scan's variables. -/
structure State (α : Type*) where
  /-- The colours. -/
  colors : α → Color
  /-- The stack, top first; the flag says whether the node's edges were already considered. -/
  stack : List (α × Bool)
  /-- The roots still to be tried. -/
  roots : List α

/-- The loop over the successors of a node: push the ones not seen yet, skip the finished ones,
and give up on one that is in the stack. -/
def pushAll : List α → (α → Color) → List (α × Bool) → Option ((α → Color) × List (α × Bool))
  | [], colors, stack => some (colors, stack)
  | s :: rest, colors, stack =>
    match colors s with
    | .notVisited => pushAll rest (Function.update colors s .inStack) ((s, false) :: stack)
    | .inStack => none
    | .visited => pushAll rest colors stack

/-- One iteration of the scan; `none` when it reports a cycle. With an empty stack the next root
is tried, and a state with neither stack nor roots stays as it is. -/
def step (succ : α → List α) (st : State α) : Option (State α) :=
  match st.stack with
  | [] =>
    match st.roots with
    | [] => some st
    | r :: rest =>
      if st.colors r = .visited then some { st with roots := rest }
      else some { st with stack := [(r, false)], roots := rest }
  | (v, true) :: rest =>
    some { st with colors := Function.update st.colors v .visited, stack := rest }
  | (v, false) :: rest =>
    (pushAll (succ v) st.colors ((v, true) :: rest)).map fun p =>
      { st with colors := p.1, stack := p.2 }

/-- The scan is over. -/
def State.Done (st : State α) : Prop := st.stack = [] ∧ st.roots = []

instance (st : State α) : Decidable st.Done :=
  decidable_of_iff (st.stack.isEmpty ∧ st.roots.isEmpty) (by simp [State.Done])

/-- Run the scan: `some true` when it ends, `some false` when it reports a cycle, `none` when the
fuel runs out. -/
def run (succ : α → List α) : ℕ → State α → Option Bool
  | 0, _ => none
  | n + 1, st =>
    if st.Done then some true
    else
      match step succ st with
      | none => some false
      | some st' => run succ n st'

/-- The state the scan starts in. -/
def init (roots : List α) : State α := ⟨fun _ => .notVisited, [], roots⟩

/-- Fuel that is always enough, see `exists_run_init`. -/
def scanFuel (roots : List α) : ℕ := 5 * roots.length + 1

/-- The scan from `st` ends without reporting a cycle. -/
def Accepts (succ : α → List α) (st : State α) : Prop := ∃ n, run succ n st = some true

/-! ### One step at a time -/

variable {succ : α → List α} {st st' : State α} {c colors : α → Color} {s stack : List (α × Bool)}

theorem run_done (h : st.Done) (n : ℕ) : run succ (n + 1) st = some true := by
  simp [run, h]

theorem run_step (h : ¬ st.Done) (hs : step succ st = some st') (n : ℕ) :
    run succ (n + 1) st = run succ n st' := by
  simp [run, h, hs]

theorem Accepts.of_done (h : st.Done) : Accepts succ st :=
  ⟨1, run_done h 0⟩

theorem Accepts.of_step (hs : step succ st = some st') (h : Accepts succ st') :
    Accepts succ st := by
  by_cases hd : st.Done
  · exact .of_done hd
  · obtain ⟨n, hn⟩ := h
    exact ⟨n + 1, by rw [run_step hd hs, hn]⟩

theorem Accepts.induction {motive : State α → Prop} (done : ∀ st, st.Done → motive st)
    (next : ∀ st st', ¬ st.Done → step succ st = some st' → Accepts succ st' → motive st' →
      motive st) (h : Accepts succ st) : motive st := by
  obtain ⟨n, hn⟩ := h
  induction n generalizing st with
  | zero => simp [run] at hn
  | succ n ih =>
    by_cases hd : st.Done
    · exact done st hd
    · cases hs : step succ st with
      | none => simp [run, hd, hs] at hn
      | some st' =>
        rw [run_step hd hs] at hn
        exact next st st' hd hs ⟨n, hn⟩ (ih hn)

/-- An accepting scan never reports a cycle, and goes on accepting. -/
theorem Accepts.step (h : Accepts succ st) : ∃ st', step succ st = some st' ∧ Accepts succ st' := by
  refine Accepts.induction (motive := fun st => ∃ st', DepthFirst.step succ st = some st' ∧
    Accepts succ st') (fun st hd => ?_) (fun st st' _ hs ha _ => ⟨st', hs, ha⟩) h
  refine ⟨st, ?_, .of_done hd⟩
  rw [DepthFirst.step, hd.1, hd.2]

/-- The states a scan goes through. -/
def Reaches (succ : α → List α) : State α → State α → Prop :=
  ReflTransGen fun st st' => step succ st = some st'

theorem Accepts.reaches (h : Accepts succ st) (hr : Reaches succ st st') : Accepts succ st' := by
  induction hr with
  | refl => exact h
  | tail _ hs ih =>
    obtain ⟨st₂, hs₂, ha⟩ := ih.step
    rw [hs] at hs₂
    cases hs₂
    exact ha

/-- From an accepting state the scan reaches its end. -/
theorem Accepts.exists_done (h : Accepts succ st) : ∃ st', Reaches succ st st' ∧ st'.Done := by
  refine Accepts.induction (motive := fun st => ∃ st', Reaches succ st st' ∧ st'.Done)
    (fun st hd => ⟨st, .refl, hd⟩) (fun st st' _ hs _ ih => ?_) h
  obtain ⟨st₂, hr, hd⟩ := ih
  exact ⟨st₂, .head hs hr, hd⟩

/-- Everything one iteration can do. -/
theorem step_cases (h : step succ st = some st') :
    (st.Done ∧ st' = st) ∨
    (∃ r rest, st.stack = [] ∧ st.roots = r :: rest ∧ st.colors r = .visited ∧
      st' = { st with roots := rest }) ∨
    (∃ r rest, st.stack = [] ∧ st.roots = r :: rest ∧ st.colors r ≠ .visited ∧
      st' = { st with stack := [(r, false)], roots := rest }) ∨
    (∃ v rest, st.stack = (v, true) :: rest ∧
      st' = { st with colors := Function.update st.colors v .visited, stack := rest }) ∨
    (∃ v rest c s, st.stack = (v, false) :: rest ∧
      pushAll (succ v) st.colors ((v, true) :: rest) = some (c, s) ∧
      st' = { st with colors := c, stack := s }) := by
  obtain ⟨colors, stack, roots⟩ := st
  match stack, roots with
  | [], [] => exact .inl ⟨⟨rfl, rfl⟩, by simpa [step] using h.symm⟩
  | [], r :: rest =>
    by_cases hr : colors r = .visited
    · exact .inr (.inl ⟨r, rest, rfl, rfl, hr, by simpa [step, hr] using h.symm⟩)
    · exact .inr (.inr (.inl ⟨r, rest, rfl, rfl, hr, by simpa [step, hr] using h.symm⟩))
  | (v, true) :: rest, roots =>
    exact .inr (.inr (.inr (.inl ⟨v, rest, rfl, by simpa [step] using h.symm⟩)))
  | (v, false) :: rest, roots =>
    obtain ⟨⟨c, s⟩, hp, hst⟩ := Option.map_eq_some_iff.mp h
    exact .inr (.inr (.inr (.inr ⟨v, rest, c, s, rfl, hp, hst.symm⟩)))

/-- The loop over the successors pushes a list `P` of nodes not seen before, and finds every
other successor finished. -/
theorem pushAll_spec {succs : List α} (h : pushAll succs colors stack = some (c, s)) :
    ∃ P : List α, s = P.map (·, false) ++ stack ∧ P.reverse.Sublist succs ∧
      (∀ x, c x = if x ∈ P then .inStack else colors x) ∧
      (∀ x ∈ P, x ∈ succs ∧ colors x = .notVisited) ∧
      ∀ x ∈ succs, x ∈ P ∨ colors x = .visited := by
  induction succs generalizing colors stack with
  | nil =>
    cases h
    exact ⟨[], by simp⟩
  | cons y succs ih =>
    rw [pushAll] at h
    cases hy : colors y with
    | notVisited =>
      simp only [hy] at h
      obtain ⟨P, hs, hsub, hc, hP, hsucc⟩ := ih h
      have hne : ∀ x ∈ P, x ≠ y := by
        rintro x hx rfl
        simpa using (hP x hx).2
      refine ⟨P ++ [y], by simp [hs], by simpa using hsub, fun x => ?_, fun x hx => ?_,
        fun x hx => ?_⟩
      · rw [hc]
        by_cases hxP : x ∈ P
        · simp [hxP]
        · by_cases hxy : x = y
          · subst hxy; simp
          · simp [hxP, hxy]
      · rcases List.mem_append.mp hx with hx | hx
        · have := (hP x hx).2
          rw [Function.update_of_ne (hne x hx)] at this
          exact ⟨List.mem_cons_of_mem _ (hP x hx).1, this⟩
        · obtain rfl := List.mem_singleton.mp hx
          exact ⟨List.mem_cons_self, hy⟩
      · rcases List.mem_cons.mp hx with rfl | hx
        · exact .inl (by simp)
        · rcases hsucc x hx with hxP | hv
          · exact .inl (List.mem_append_left _ hxP)
          · by_cases hxy : x = y
            · exact .inl (by simp [hxy])
            · rw [Function.update_of_ne hxy] at hv
              exact .inr hv
    | inStack => simp [hy] at h
    | visited =>
      simp only [hy] at h
      obtain ⟨P, hs, hsub, hc, hP, hsucc⟩ := ih h
      refine ⟨P, hs, hsub.cons _, hc, fun x hx => ⟨List.mem_cons_of_mem _ (hP x hx).1, (hP x hx).2⟩,
        fun x hx => ?_⟩
      rcases List.mem_cons.mp hx with rfl | hx
      · exact .inr hy
      · exact hsucc x hx

/-! ### The invariant of a scan -/

variable {v : α}

/-- The edge relation of the adjacency lists. -/
def Edge (succ : α → List α) (a b : α) : Prop := b ∈ succ a

/-- Every successor of a node on the stack whose edges were considered is finished or lies above
it; `above` collects the nodes passed on the way down. -/
def PendingOk (succ : α → List α) (colors : α → Color) : List α → List (α × Bool) → Prop
  | _, [] => True
  | above, (v, b) :: rest =>
    (b = true → ∀ s ∈ succ v, colors s = .visited ∨ s ∈ above) ∧
      PendingOk succ colors (v :: above) rest

omit [DecidableEq α] in
theorem PendingOk.mono {colors' : α → Color} {above above' : List α}
    (h : ∀ s, colors s = .visited ∨ s ∈ above → colors' s = .visited ∨ s ∈ above')
    (hp : PendingOk succ colors above stack) : PendingOk succ colors' above' stack := by
  induction stack generalizing above above' with
  | nil => trivial
  | cons p stack ih =>
    obtain ⟨v, b⟩ := p
    refine ⟨fun hb s hs => h s (hp.1 hb s hs), ih (fun s hs => ?_) hp.2⟩
    rcases hs with hs | hs
    · rcases h s (.inl hs) with h | h
      · exact .inl h
      · exact .inr (List.mem_cons_of_mem _ h)
    · rcases List.mem_cons.mp hs with rfl | hs
      · exact .inr List.mem_cons_self
      · rcases h s (.inr hs) with h | h
        · exact .inl h
        · exact .inr (List.mem_cons_of_mem _ h)

omit [DecidableEq α] in
theorem pendingOk_append {above : List α} {P : List α}
    (h : PendingOk succ colors (P ++ above) stack) :
    PendingOk succ colors above (P.map (·, false) ++ stack) := by
  induction P generalizing above with
  | nil => exact h
  | cons x P ih =>
    refine ⟨by simp, ih (h.mono fun s hs => hs.imp_right fun hs => ?_)⟩
    simp only [List.cons_append, List.mem_cons, List.mem_append] at hs ⊢
    tauto

/-- What holds in every state of a scan. -/
structure Inv (succ : α → List α) (st : State α) : Prop where
  /-- Finished nodes have only finished successors. -/
  closed : ∀ v, st.colors v = .visited → ∀ s ∈ succ v, st.colors s = .visited
  /-- No cycle goes through a finished node. -/
  acyclic : ∀ v, st.colors v = .visited → ¬ TransGen (Edge succ) v v
  /-- Considered nodes wait for nodes above them only. -/
  pending : PendingOk succ st.colors [] st.stack
  /-- Grey nodes are on the stack. -/
  inStack : ∀ v, st.colors v = .inStack → v ∈ st.stack.map Prod.fst

omit [DecidableEq α] in
theorem inv_init (succ : α → List α) (roots : List α) : Inv succ (init roots) :=
  ⟨by simp [init], by simp [init], trivial, by simp [init]⟩

omit [DecidableEq α] in
/-- From a finished node only finished nodes are reached. -/
theorem Inv.visited_of_reach (h : Inv succ st) {a b : α} (ha : st.colors a = .visited)
    (hab : ReflTransGen (Edge succ) a b) : st.colors b = .visited := by
  induction hab with
  | refl => exact ha
  | tail _ hbc ih => exact h.closed _ ih _ hbc

/-- The node on top is finished: nothing lies above it, so all its successors are finished
already. -/
theorem Inv.finish (h : Inv succ st) {rest : List (α × Bool)} (hst : st.stack = (v, true) :: rest) :
    Inv succ { st with colors := Function.update st.colors v .visited, stack := rest } := by
  have hpend := h.pending
  rw [hst] at hpend
  have hsucc : ∀ s ∈ succ v, st.colors s = .visited := fun s hs => by
    simpa using hpend.1 rfl s hs
  have hstays : ∀ s, st.colors s = .visited →
      Function.update st.colors v .visited s = .visited := by
    intro s hs
    by_cases hsv : s = v
    · rw [hsv, Function.update_self]
    · rw [Function.update_of_ne hsv, hs]
  refine ⟨fun w hw s hs => hstays s ?_, fun w hw => ?_, ?_, fun w hw => ?_⟩
  · by_cases hwv : w = v
    · exact hsucc s (hwv ▸ hs)
    · exact h.closed w (by simpa [hwv] using hw) s hs
  · by_cases hwv : w = v
    · subst hwv
      intro hcyc
      obtain ⟨s, hs, hsw⟩ := TransGen.head'_iff.mp hcyc
      exact h.acyclic w (h.visited_of_reach (hsucc s hs) hsw) hcyc
    · exact h.acyclic w (by simpa [hwv] using hw)
  · refine hpend.2.mono fun s hs => .inl ?_
    by_cases hsv : s = v
    · simp [hsv]
    · exact hstays s (by simpa [hsv] using hs)
  · have hwv : w ≠ v := by
      rintro rfl
      simp at hw
    have := h.inStack w (by simpa [hwv] using hw)
    simpa [hst, hwv] using this

theorem Inv.expand (h : Inv succ st) {rest : List (α × Bool)} (hst : st.stack = (v, false) :: rest)
    (hp : pushAll (succ v) st.colors ((v, true) :: rest) = some (c, s)) :
    Inv succ { st with colors := c, stack := s } := by
  obtain ⟨P, rfl, -, hc, hP, hsucc⟩ := pushAll_spec hp
  have hvis : ∀ x, c x = .visited ↔ st.colors x = .visited := by
    intro x
    rw [hc]
    by_cases hx : x ∈ P
    · simp [hx, (hP x hx).2]
    · simp [hx]
  have hpend := h.pending
  rw [hst] at hpend
  refine ⟨fun w hw s hs => (hvis s).mpr (h.closed w ((hvis w).mp hw) s hs),
    fun w hw => h.acyclic w ((hvis w).mp hw), pendingOk_append ⟨fun _ s hs => ?_, ?_⟩,
    fun w hw => ?_⟩
  · rcases hsucc s hs with hs | hs
    · exact .inr (by simp [hs])
    · exact .inl ((hvis s).mpr hs)
  · refine hpend.2.mono fun s hs => ?_
    rcases hs with hs | hs
    · exact .inl ((hvis s).mpr hs)
    · obtain rfl : s = v := by simpa using hs
      exact .inr List.mem_cons_self
  · have hw : c w = .inStack := hw
    rw [hc] at hw
    by_cases hwP : w ∈ P
    · simp [hwP]
    · have := h.inStack w (by simpa [hwP] using hw)
      simp only [hst, List.map_cons, List.map_append, List.mem_append] at this ⊢
      exact .inr this

theorem Inv.step (h : Inv succ st) (hs : step succ st = some st') : Inv succ st' := by
  obtain ⟨-, rfl⟩ | ⟨r, rest, hst, -, -, rfl⟩ | ⟨r, rest, hst, -, -, rfl⟩ | ⟨v, rest, hst, rfl⟩ |
    ⟨v, rest, c, s, hst, hp, rfl⟩ := step_cases hs
  · exact h
  · exact ⟨h.closed, h.acyclic, h.pending, h.inStack⟩
  · refine ⟨h.closed, h.acyclic, ⟨by simp, trivial⟩, fun v hv => ?_⟩
    have := h.inStack v hv
    simp [hst] at this
  · exact h.finish hst
  · exact h.expand hst hp

theorem Inv.reaches (h : Inv succ st) (hr : Reaches succ st st') : Inv succ st' := by
  induction hr with
  | refl => exact h
  | tail _ hs ih => exact ih.step hs

/-! ### What is accepted is acyclic -/

variable {roots : List α}

/-- Every root is still to be tried, on the stack, or finished. -/
theorem roots_of_reaches (h : Reaches succ (init roots) st) :
    ∀ r ∈ roots, r ∈ st.roots ∨ st.colors r = .visited ∨ r ∈ st.stack.map Prod.fst := by
  induction h with
  | refl => exact fun r hr => .inl hr
  | tail _ hs ih =>
    intro r hr
    obtain ⟨-, rfl⟩ | ⟨x, rest, hst, hroots, hx, rfl⟩ | ⟨x, rest, hst, hroots, -, rfl⟩ |
      ⟨v, rest, hst, rfl⟩ | ⟨v, rest, c, s, hst, hp, rfl⟩ := step_cases hs
    · exact ih r hr
    · rcases ih r hr with h | h | h
      · rw [hroots] at h
        rcases List.mem_cons.mp h with rfl | h
        · exact .inr (.inl hx)
        · exact .inl h
      · exact .inr (.inl h)
      · exact .inr (.inr h)
    · rcases ih r hr with h | h | h
      · rw [hroots] at h
        rcases List.mem_cons.mp h with rfl | h
        · exact .inr (.inr (by simp))
        · exact .inl h
      · exact .inr (.inl h)
      · simp [hst] at h
    · by_cases hrv : r = v
      · exact .inr (.inl (by simp [hrv]))
      · rcases ih r hr with h | h | h
        · exact .inl h
        · exact .inr (.inl (by simpa [hrv] using h))
        · exact .inr (.inr (by simpa [hst, hrv] using h))
    · obtain ⟨P, rfl, -, hc, hP, -⟩ := pushAll_spec hp
      rcases ih r hr with h | h | h
      · exact .inl h
      · have hrP : r ∉ P := fun hrP => by simp [(hP r hrP).2] at h
        exact .inr (.inl (by simpa [hc, hrP] using h))
      · simp only [hst, List.map_cons, List.map_append, List.mem_append] at h ⊢
        exact .inr (.inr (.inr h))

/-- **An accepted graph has no cycle.** -/
theorem acyclic_of_accepts (h : Accepts succ (init roots)) (hv : v ∈ roots) :
    ¬ TransGen (Edge succ) v v := by
  obtain ⟨st, hr, hd⟩ := h.exists_done
  refine ((inv_init succ roots).reaches hr).acyclic v ?_
  rcases roots_of_reaches hr v hv with h | h | h
  · simp [hd.2] at h
  · exact h
  · simp [hd.1] at h

/-! ### The fuel is enough -/

variable {nodes : List α}

/-- The weight of a stack entry: the number of iterations it will be on top. -/
def entryWeight (p : α × Bool) : ℕ := if p.2 then 1 else 2

/-- The number of nodes of `nodes` not seen yet. -/
def unseen (nodes : List α) (colors : α → Color) : ℕ :=
  nodes.countP fun v => colors v = .notVisited

/-- A bound on the number of iterations left. -/
def budget (nodes : List α) (st : State α) : ℕ :=
  3 * st.roots.length + (st.stack.map entryWeight).sum + 2 * unseen nodes st.colors

theorem unseen_update_le (nodes : List α) (colors : α → Color) (v : α) {col : Color}
    (hcol : col ≠ .notVisited) :
    unseen nodes (Function.update colors v col) ≤ unseen nodes colors := by
  refine List.countP_mono_left fun x _ hx => ?_
  by_cases hxv : x = v
  · simp [hxv, hcol] at hx
  · simpa [hxv] using hx

theorem unseen_update_lt (hv : v ∈ nodes) (hc : colors v = .notVisited) :
    unseen nodes (Function.update colors v .inStack) < unseen nodes colors := by
  induction nodes with
  | nil => simp at hv
  | cons x nodes ih =>
    have hle := unseen_update_le nodes colors v (show Color.inStack ≠ .notVisited by simp)
    simp only [unseen, List.countP_cons] at ih hle ⊢
    by_cases hxv : x = v
    · subst hxv
      simp only [Function.update_self, hc]
      simp
      omega
    · have := ih ((List.mem_cons.mp hv).resolve_left fun h => hxv h.symm)
      simp only [Function.update_of_ne hxv]
      omega

theorem budget_pushAll {succs : List α} (hsub : ∀ s ∈ succs, s ∈ nodes)
    (h : pushAll succs colors stack = some (c, s)) :
    (s.map entryWeight).sum + 2 * unseen nodes c
      ≤ (stack.map entryWeight).sum + 2 * unseen nodes colors := by
  induction succs generalizing colors stack with
  | nil => cases h; exact Nat.le_refl _
  | cons x succs ih =>
    have hsub' : ∀ s ∈ succs, s ∈ nodes := fun s hs => hsub s (List.mem_cons_of_mem _ hs)
    rw [pushAll] at h
    cases hx : colors x with
    | notVisited =>
      simp only [hx] at h
      have hlt := unseen_update_lt (hsub x List.mem_cons_self) hx
      have := ih hsub' h
      simp only [List.map_cons, List.sum_cons, entryWeight] at this ⊢
      simp at this ⊢
      omega
    | inStack => simp [hx] at h
    | visited =>
      simp only [hx] at h
      exact ih hsub' h

/-- Every iteration uses up budget, so the scan ends. -/
theorem budget_step (hsub : ∀ v, ∀ s ∈ succ v, s ∈ nodes) (hd : ¬ st.Done)
    (hs : step succ st = some st') : budget nodes st' < budget nodes st := by
  obtain ⟨h, -⟩ | ⟨r, rest, hst, hr, -, rfl⟩ | ⟨r, rest, hst, hr, -, rfl⟩ | ⟨v, rest, hst, rfl⟩ |
    ⟨v, rest, c, s, hst, hp, rfl⟩ := step_cases hs
  · exact absurd h hd
  · simp [budget, hr]
  · simp [budget, hst, hr, entryWeight]
    omega
  · have := unseen_update_le nodes st.colors v (show Color.visited ≠ .notVisited by simp)
    simp [budget, hst, entryWeight]
    omega
  · have := budget_pushAll (hsub v) hp
    simp [budget, hst, entryWeight] at this ⊢
    omega

theorem exists_run_of_budget_lt (hsub : ∀ v, ∀ s ∈ succ v, s ∈ nodes) {n : ℕ}
    (h : budget nodes st < n) : ∃ b, run succ n st = some b := by
  induction n generalizing st with
  | zero => omega
  | succ n ih =>
    by_cases hd : st.Done
    · exact ⟨true, run_done hd n⟩
    · cases hs : step succ st with
      | none => exact ⟨false, by simp [run, hd, hs]⟩
      | some st' =>
        rw [run_step hd hs]
        exact ih (by have := budget_step hsub hd hs; omega)

/-- **The scan always returns a verdict**, on a graph whose edges end in its nodes. -/
theorem exists_run_init (hsub : ∀ v, ∀ s ∈ succ v, s ∈ roots) :
    ∃ b, run succ (scanFuel roots) (init roots) = some b := by
  refine exists_run_of_budget_lt hsub ?_
  have : unseen roots (init roots).colors ≤ roots.length := List.countP_le_length
  simp only [budget, scanFuel, init, List.map_nil, List.sum_nil] at this ⊢
  omega

/-- Fuel only decides whether there is a verdict, not which. -/
theorem run_eq_of_run {m n : ℕ} {b b' : Bool} (h : run succ m st = some b)
    (h' : run succ n st = some b') : b = b' := by
  induction m generalizing n st with
  | zero => simp [run] at h
  | succ m ih =>
    cases n with
    | zero => simp [run] at h'
    | succ n =>
      by_cases hd : st.Done
      · rw [run_done hd] at h h'
        simpa using h.symm.trans h'
      · cases hs : step succ st with
        | none => simp_all [run]
        | some st' =>
          rw [run_step hd hs] at h h'
          exact ih h h'

theorem run_init_iff (hsub : ∀ v, ∀ s ∈ succ v, s ∈ roots) :
    run succ (scanFuel roots) (init roots) = some true ↔ Accepts succ (init roots) := by
  refine ⟨fun h => ⟨_, h⟩, fun ⟨n, hn⟩ => ?_⟩
  obtain ⟨b, hb⟩ := exists_run_init hsub
  rw [hb, run_eq_of_run hb hn]

/-- A further root without successors changes nothing. -/
theorem accepts_concat {n : α} (hn : succ n = []) (h : Accepts succ (init roots)) :
    Accepts succ (init (roots ++ [n])) := by
  refine Accepts.induction (motive := fun st => Accepts succ { st with roots := st.roots ++ [n] })
    (fun st hd => ?_) (fun st st' hd hs _ ih => ?_) h
  · obtain ⟨colors, stack, roots⟩ := st
    obtain ⟨rfl, rfl⟩ : stack = [] ∧ roots = [] := hd
    by_cases hv : colors n = .visited
    · exact .of_step (show step succ _ = some ⟨colors, [], []⟩ by simp [step, hv])
        (.of_done ⟨rfl, rfl⟩)
    · refine .of_step (show step succ _ = some ⟨colors, [(n, false)], []⟩ by simp [step, hv]) ?_
      refine .of_step
        (show step succ _ = some ⟨colors, [(n, true)], []⟩ by simp [step, hn, pushAll]) ?_
      exact .of_step (by rw [step]) (.of_done ⟨rfl, rfl⟩)
  · refine ih.of_step ?_
    obtain ⟨h, -⟩ | ⟨r, rest, hst, hroots, hr, rfl⟩ | ⟨r, rest, hst, hroots, hr, rfl⟩ |
      ⟨v, rest, hst, rfl⟩ | ⟨v, rest, c, s, hst, hp, rfl⟩ := step_cases hs
    · exact absurd h hd
    · simp [step, hst, hroots, hr]
    · simp [step, hst, hroots, hr]
    · simp [step, hst]
    · simp [step, hst, hp]

/-- A graph without edges. -/
theorem accepts_of_forall_nil (h : ∀ v, succ v = []) (roots : List α) :
    Accepts succ (init roots) := by
  induction roots using List.reverseRecOn with
  | nil => exact .of_done ⟨rfl, rfl⟩
  | append_singleton roots r ih => exact accepts_concat (h r) ih

/-- A reported cycle is reported in a state of the scan. -/
theorem exists_step_eq_none {n : ℕ} (h : run succ n st = some false) :
    ∃ st', Reaches succ st st' ∧ step succ st' = none := by
  induction n generalizing st with
  | zero => simp [run] at h
  | succ n ih =>
    by_cases hd : st.Done
    · simp [run_done hd] at h
    · cases hs : step succ st with
      | none => exact ⟨st, .refl, hs⟩
      | some st' =>
        rw [run_step hd hs] at h
        obtain ⟨st₂, hr, h₂⟩ := ih h
        exact ⟨st₂, .head hs hr, h₂⟩

/-- A scan of a finite graph accepts if none of its states reports a cycle. -/
theorem accepts_of_forall_step (hsub : ∀ v, ∀ s ∈ succ v, s ∈ roots)
    (h : ∀ st, Reaches succ (init roots) st → step succ st ≠ none) : Accepts succ (init roots) := by
  obtain ⟨b, hb⟩ := exists_run_init hsub
  cases b with
  | true => exact ⟨_, hb⟩
  | false =>
    obtain ⟨st, hr, hs⟩ := exists_step_eq_none hb
    exact absurd hs (h st hr)

/-! ### Sinks

The rest of this file is about drawing edges into a sink. The danger is a sink that is on the
stack, grey and not yet entered, while one of the new sources is expanded. -/

/-- Nothing above a grey node on the stack reaches it: the scan would have to report a cycle
before the grey node comes to the top. -/
theorem not_reach_of_inStack (h : Accepts succ st) (hinv : Inv succ st) {A B : List (α × Bool)}
    {t x : α} {b : Bool} (hst : st.stack = A ++ (t, b) :: B) (htA : t ∉ A.map Prod.fst)
    (ht : st.colors t = .inStack) (hx : (x, false) ∈ A) : ¬ TransGen (Edge succ) x t := by
  revert hinv A x ht
  refine Accepts.induction (motive := fun st => Inv succ st → ∀ {A : List (α × Bool)} {x : α},
    st.stack = A ++ (t, b) :: B → t ∉ A.map Prod.fst → st.colors t = .inStack →
    (x, false) ∈ A → ¬ TransGen (Edge succ) x t) ?_ ?_ h
  · intro st hd _ A x hst
    simp [hd.1] at hst
  · intro st st' _ hs _ ih hinv A x hst htA ht hx
    obtain ⟨p, A, rfl⟩ : ∃ p A', A = p :: A' := by
      cases A with
      | nil => simp at hx
      | cons p A' => exact ⟨p, A', rfl⟩
    have hinv' := hinv.step hs
    simp only [List.map_cons, List.mem_cons, not_or] at htA
    obtain ⟨hd, -⟩ | ⟨r, rest, hst', -, -, -⟩ | ⟨r, rest, hst', -, -, -⟩ | ⟨v, rest, hst', rfl⟩ |
      ⟨v, rest, c, s, hst', hp, rfl⟩ := step_cases hs
    · simp [hd.1] at hst
    · simp [hst'] at hst
    · simp [hst'] at hst
    · rw [hst'] at hst
      obtain ⟨rfl, rfl⟩ := List.cons.inj hst
      refine ih hinv' rfl htA.2 (by simpa [htA.1] using ht) ?_
      simpa using hx
    · rw [hst'] at hst
      obtain ⟨rfl, rfl⟩ := List.cons.inj hst
      obtain ⟨P, rfl, -, hc, hP, hsucc⟩ := pushAll_spec hp
      have htP : t ∉ P := fun htP => by simp [(hP t htP).2] at ht
      have hct : c t = .inStack := by rw [hc, if_neg htP, ht]
      have hrest : ∀ y, (y, false) ∈ P.map (·, false) ++ (v, true) :: A →
          ¬ TransGen (Edge succ) y t := fun y hy => by
        refine ih hinv' (A := P.map (·, false) ++ (v, true) :: A) (by simp) ?_ hct hy
        simpa [htP, htA.1] using htA.2
      rcases List.mem_cons.mp hx with hx | hx
      · -- the node on top: look at the first edge of a path to `t`
        obtain rfl : x = v := by simpa using hx
        intro hpath
        obtain ⟨y, hxy, hyt⟩ := TransGen.head'_iff.mp hpath
        rcases hsucc y hxy with hyP | hyv
        · rcases reflTransGen_iff_eq_or_transGen.mp hyt with rfl | hyt
          · exact htP hyP
          · exact hrest y (by simp [hyP]) hyt
        · have := hinv.visited_of_reach hyv hyt
          simp [ht] at this
      · exact hrest x (by simp [hx])

/-- The node on top, about to be expanded, reaches no grey node but itself. -/
theorem not_transGen_top (h : Accepts succ st) (hinv : Inv succ st) {x t : α}
    {rest : List (α × Bool)} (hst : st.stack = (x, false) :: rest) (hne : x ≠ t)
    (ht : st.colors t = .inStack) : ¬ TransGen (Edge succ) x t := by
  have hmem : t ∈ rest.map Prod.fst := by
    have := hinv.inStack t ht
    rw [hst] at this
    exact (List.mem_cons.mp this).resolve_left hne.symm
  obtain ⟨A, B, hsplit, hA⟩ := List.eq_append_cons_of_mem hmem
  obtain ⟨A', B', rfl, rfl, hB⟩ := List.map_eq_append_iff.mp hsplit
  obtain ⟨⟨t, b⟩, B'', rfl, rfl, rfl⟩ := List.map_eq_cons_iff.mp hB
  exact not_reach_of_inStack h hinv (A := (x, false) :: A') (B := B'') (b := b) hst
    (by simpa [hne.symm] using hA) ht List.mem_cons_self

theorem visited_of_reaches (h : Reaches succ st st') (hv : st.colors v = .visited) :
    st'.colors v = .visited := by
  induction h with
  | refl => exact hv
  | tail _ hs ih =>
    obtain ⟨-, rfl⟩ | ⟨r, rest, -, -, -, rfl⟩ | ⟨r, rest, -, -, -, rfl⟩ | ⟨w, rest, -, rfl⟩ |
      ⟨w, rest, c, s, -, hp, rfl⟩ := step_cases hs
    · exact ih
    · exact ih
    · exact ih
    · by_cases hvw : v = w
      · simp [hvw]
      · simpa [hvw] using ih
    · obtain ⟨P, -, -, hc, hP, -⟩ := pushAll_spec hp
      have hvP : v ∉ P := fun hvP => by simp [(hP v hvP).2] at ih
      simpa [hc, hvP] using ih

/-- Along the scan from `st`, the node `τ` is never grey when a node satisfying `S` comes to the
top of the stack to be expanded. -/
def Avoids (succ : α → List α) (S : α → Prop) (τ : α) (st : State α) : Prop :=
  ∀ st', Reaches succ st st' → ∀ x rest, st'.stack = (x, false) :: rest → S x →
    st'.colors τ ≠ .inStack

theorem Avoids.of_step {S : α → Prop} {τ : α} (hs : step succ st = some st')
    (h : Avoids succ S τ st')
    (htop : ∀ x rest, st.stack = (x, false) :: rest → S x → st.colors τ ≠ .inStack) :
    Avoids succ S τ st := by
  intro st₁ hr
  rcases ReflTransGen.cases_head hr with rfl | ⟨st₂, hs₂, hr₂⟩
  · exact htop
  · rw [hs] at hs₂
    cases hs₂
    exact h st₁ hr₂

/-- From a state about to expand a node of the closed set `U`, none of which is finished: the
scan runs down a chain of successors to a sink, and that sink is not grey at any expansion of
another node of `U`. -/
theorem exists_sink_of_top {U : α → Prop} (hU : ∀ u, U u → ∀ s ∈ succ u, U s) (h : Accepts succ st)
    (hvis : ∀ u, U u → st.colors u ≠ .visited) {x : α} {rest : List (α × Bool)}
    (hst : st.stack = (x, false) :: rest) (hx : U x) :
    ∃ τ, U τ ∧ succ τ = [] ∧ (τ = x ∨ st.colors τ = .notVisited) ∧
      Avoids succ (fun y => U y ∧ y ≠ τ) τ st := by
  revert hvis x rest
  refine Accepts.induction (motive := fun st => (∀ u, U u → st.colors u ≠ .visited) →
    ∀ {x : α} {rest : List (α × Bool)}, st.stack = (x, false) :: rest → U x →
    ∃ τ, U τ ∧ succ τ = [] ∧ (τ = x ∨ st.colors τ = .notVisited) ∧
      Avoids succ (fun y => U y ∧ y ≠ τ) τ st) ?_ ?_ h
  · intro st hd _ x rest hst
    simp [hd.1] at hst
  · intro st st' _ hs _ ih hvis x rest hst hx
    have hs' := hs
    rw [step, hst] at hs'
    obtain ⟨⟨c, s⟩, hp, rfl⟩ := Option.map_eq_some_iff.mp hs'
    obtain ⟨P, rfl, -, hc, hP, hsucc⟩ := pushAll_spec hp
    have hall : ∀ y ∈ succ x, y ∈ P := fun y hy =>
      (hsucc y hy).resolve_right (hvis y (hU x hx y hy))
    cases P with
    | nil =>
      -- `x` is itself the sink: two steps later it is finished for good
      have hnil : succ x = [] := List.eq_nil_iff_forall_not_mem.mpr fun y hy => by
        simpa using hall y hy
      refine ⟨x, hx, hnil, .inl rfl, Avoids.of_step hs ?_ fun y rest' hy hS => ?_⟩
      · refine Avoids.of_step (by rw [step]; rfl) ?_ fun y rest' hy => by simp at hy
        intro st₁ hr y rest' _ _
        rw [visited_of_reaches hr (v := x) (by simp)]
        simp
      · rw [hst] at hy
        exact absurd (by simpa using hy.symm : y = x ∧ rest' = rest).1 hS.2
    | cons y P =>
      have hcvis : ∀ u, U u → c u ≠ .visited := fun u hu => by
        rw [hc]
        split
        · simp
        · exact hvis u hu
      obtain ⟨τ, hτ, hsink, hcol, havoid⟩ := ih hcvis (x := y) rfl
        (hU x hx y (hP y List.mem_cons_self).1)
      have hτcol : st.colors τ = .notVisited := by
        rcases hcol with rfl | hcol
        · exact (hP _ List.mem_cons_self).2
        · have hcol : c τ = .notVisited := hcol
          rw [hc] at hcol
          split at hcol
          · simp at hcol
          · exact hcol
      exact ⟨τ, hτ, hsink, .inr hτcol, Avoids.of_step hs havoid fun _ _ _ _ => by simp [hτcol]⟩

/-- **Every successor-closed set that the scan has yet to enter has a sink that is never in the
way**: it is not grey at any expansion of another node of the set. -/
theorem exists_sink {U : α → Prop} (hU : ∀ u, U u → ∀ s ∈ succ u, U s)
    (h : Accepts succ (init roots)) (hroot : ∃ u ∈ roots, U u) :
    ∃ τ, U τ ∧ succ τ = [] ∧ Avoids succ (fun y => U y ∧ y ≠ τ) τ (init roots) := by
  have key : ∀ st, Accepts succ st → (∀ u, U u → st.colors u ≠ .visited) →
      (∀ u, U u → (u, true) ∉ st.stack) → (∃ u, U u ∧ (u ∈ st.roots ∨ (u, false) ∈ st.stack)) →
      ∃ τ, U τ ∧ succ τ = [] ∧ Avoids succ (fun y => U y ∧ y ≠ τ) τ st := by
    intro st h
    refine Accepts.induction (motive := fun st => (∀ u, U u → st.colors u ≠ .visited) →
      (∀ u, U u → (u, true) ∉ st.stack) → (∃ u, U u ∧ (u ∈ st.roots ∨ (u, false) ∈ st.stack)) →
      ∃ τ, U τ ∧ succ τ = [] ∧ Avoids succ (fun y => U y ∧ y ≠ τ) τ st) ?_ ?_ h
    · rintro st ⟨hst, hroots⟩ - - ⟨u, -, hu⟩
      simp [hst, hroots] at hu
    · rintro st st' hd hs ha ih hvis hcons ⟨u, hu, hmem⟩
      obtain ⟨h, -⟩ | ⟨r, rest, hst, hroots, hr, rfl⟩ | ⟨r, rest, hst, hroots, hr, rfl⟩ |
        ⟨v, rest, hst, rfl⟩ | ⟨v, rest, c, s, hst, hp, rfl⟩ := step_cases hs
      · exact absurd h hd
      · have hur : u ≠ r := by rintro rfl; exact hvis u hu hr
        obtain ⟨τ, hτ, hsink, havoid⟩ := ih hvis hcons
          ⟨u, hu, by simpa [hst, hroots, hur] using hmem⟩
        exact ⟨τ, hτ, hsink, Avoids.of_step hs havoid (by simp [hst])⟩
      · obtain ⟨τ, hτ, hsink, havoid⟩ := ih hvis (by simp)
          ⟨u, hu, by simpa [hst, hroots, or_comm] using hmem⟩
        exact ⟨τ, hτ, hsink, Avoids.of_step hs havoid (by simp [hst])⟩
      · have hvU : ¬ U v := fun hv => hcons v hv (by simp [hst])
        obtain ⟨τ, hτ, hsink, havoid⟩ := ih
          (fun w hw => by
            have hwv : w ≠ v := by rintro rfl; exact hvU hw
            simpa [hwv] using hvis w hw)
          (fun w hw hmem => hcons w hw (by rw [hst]; exact List.mem_cons_of_mem _ hmem))
          ⟨u, hu, by simpa [hst] using hmem⟩
        exact ⟨τ, hτ, hsink, Avoids.of_step hs havoid (by simp [hst])⟩
      · by_cases hvU : U v
        · obtain ⟨τ, hτ, hsink, -, havoid⟩ :=
            exists_sink_of_top hU (ha.of_step hs) hvis hst hvU
          exact ⟨τ, hτ, hsink, havoid⟩
        · obtain ⟨P, rfl, -, hc, -, -⟩ := pushAll_spec hp
          have huv : u ≠ v := by rintro rfl; exact hvU hu
          obtain ⟨τ, hτ, hsink, havoid⟩ := ih
            (fun w hw => by
              change c w ≠ .visited
              rw [hc]
              split
              · simp
              · exact hvis w hw)
            (fun w hw hmem => by
              have hwv : w ≠ v := by rintro rfl; exact hvU hw
              exact hcons w hw (by rw [hst]; simpa [hwv] using hmem))
            ⟨u, hu, by
              rw [hst] at hmem
              rcases hmem with hmem | hmem
              · exact .inl hmem
              · have hrest : (u, false) ∈ rest := by simpa [huv] using hmem
                exact .inr (by simp [hrest])⟩
          refine ⟨τ, hτ, hsink, Avoids.of_step hs havoid fun x rest' hx hS => ?_⟩
          rw [hst] at hx
          obtain ⟨hxv, -⟩ : v = x ∧ rest = rest' := by simpa using hx
          exact absurd (hxv ▸ hS.1) hvU
  obtain ⟨u, hu, hUu⟩ := hroot
  exact key _ h (by simp [init]) (by simp [init]) ⟨u, hUu, .inl hu⟩

/-! ### Drawing edges into a sink -/

/-- Append `τ` to the adjacency lists of the nodes in `S` that do not have it yet. -/
def insertSink (succ : α → List α) (S : List α) (τ v : α) : List α :=
  if v ∈ S ∧ τ ∉ succ v then succ v ++ [τ] else succ v

/-- `s'` is `s` with some entries of `τ` left out. -/
inductive Drops (τ : α) : List (α × Bool) → List (α × Bool) → Prop
  | nil : Drops τ [] []
  | keep (p : α × Bool) {s s' : List (α × Bool)} : Drops τ s s' → Drops τ (p :: s) (p :: s')
  | drop (b : Bool) {s s' : List (α × Bool)} : Drops τ s s' → Drops τ ((τ, b) :: s) s'

omit [DecidableEq α] in
theorem Drops.refl (τ : α) (s : List (α × Bool)) : Drops τ s s := by
  induction s with
  | nil => exact .nil
  | cons p s ih => exact .keep p ih

/-- The scan of the larger graph, on the right, has already finished the sink `τ`. -/
structure Early (τ : α) (st st' : State α) : Prop where
  colors : ∀ x, x ≠ τ → st'.colors x = st.colors x
  finished : st'.colors τ = .visited
  stack : Drops τ st.stack st'.stack
  roots : st'.roots = st.roots

/-- How a state of the larger graph's scan (right) relates to one of the smaller graph's scan:
the two are equal, or the larger one is busy with `τ` on top of an equal stack, or it has
finished `τ` early. -/
inductive Sim (τ : α) : State α → State α → Prop
  | same (st : State α) : Sim τ st st
  | pushed (st : State α) (b : Bool) (h : st.colors τ = .notVisited) : Sim τ st
      { st with colors := Function.update st.colors τ .inStack, stack := (τ, b) :: st.stack }
  | early {st st' : State α} (h : Early τ st st') : Sim τ st st'

theorem pushAll_append (l l' : List α) (c : α → Color) (s : List (α × Bool)) :
    pushAll (l ++ l') c s = (pushAll l c s).bind fun p => pushAll l' p.1 p.2 := by
  induction l generalizing c s with
  | nil => rfl
  | cons x l ih =>
    rw [List.cons_append, pushAll, pushAll]
    cases c x with
    | notVisited => exact ih _ _
    | inStack => rfl
    | visited => exact ih _ _

theorem pushAll_early {τ : α} {l : List α} {c' c₂ : α → Color} {s' s₂ : List (α × Bool)}
    (h : pushAll l c s = some (c₂, s₂)) (hc : ∀ x, x ≠ τ → c' x = c x) (hτ : c' τ = .visited)
    (hs : Drops τ s s') :
    ∃ c₂' s₂', pushAll l c' s' = some (c₂', s₂') ∧ (∀ x, x ≠ τ → c₂' x = c₂ x) ∧
      c₂' τ = .visited ∧ Drops τ s₂ s₂' := by
  induction l generalizing c c' s s' with
  | nil =>
    cases h
    exact ⟨c', s', rfl, hc, hτ, hs⟩
  | cons x l ih =>
    rw [pushAll] at h ⊢
    by_cases hxτ : x = τ
    · subst hxτ
      simp only [hτ]
      cases hx : c x with
      | notVisited =>
        simp only [hx] at h
        exact ih h (fun y hy => by simp [hy, hc y hy]) hτ (.drop false hs)
      | inStack => simp [hx] at h
      | visited =>
        simp only [hx] at h
        exact ih h hc hτ hs
    · rw [hc x hxτ]
      cases hx : c x with
      | notVisited =>
        simp only [hx] at h ⊢
        refine ih h (fun y hy => ?_) (by simp [Ne.symm hxτ, hτ]) (.keep _ hs)
        by_cases hyx : y = x
        · simp [hyx]
        · simp [hyx, hc y hy]
      | inStack => simp [hx] at h
      | visited =>
        simp only [hx] at h ⊢
        exact ih h hc hτ hs

section Simulation

variable {succ : α → List α} {S : List α} {τ : α}

theorem mem_insertSink {s : α} : s ∈ insertSink succ S τ v ↔ s ∈ succ v ∨ (v ∈ S ∧ s = τ) := by
  unfold insertSink
  split
  · rename_i h
    simp [h.1]
  · rename_i h
    refine ⟨.inl, fun hs => hs.elim (fun hs => hs) ?_⟩
    rintro ⟨hv, rfl⟩
    exact not_not.mp fun hs => h ⟨hv, hs⟩

theorem insertSink_self (hsink : succ τ = []) (hτS : τ ∉ S) : insertSink succ S τ τ = [] := by
  simp [insertSink, hsink, hτS]

/-- Entries of the sink on top of the smaller graph's stack take it two steps to clear. -/
theorem exists_catchUp (hsink : succ τ = []) (h : Early τ st st') :
    ∃ st₂, Reaches succ st st₂ ∧ Early τ st₂ st' ∧
      (st₂.stack = [] ∧ st'.stack = [] ∨
        ∃ p s s', st₂.stack = p :: s ∧ st'.stack = p :: s' ∧ Drops τ s s') := by
  obtain ⟨colors, stack, roots⟩ := st
  obtain ⟨hc, hτ, hdrops, hroots⟩ := h
  generalize hs' : st'.stack = s' at hdrops
  change Drops τ stack s' at hdrops
  induction hdrops generalizing colors with
  | nil => exact ⟨_, .refl, ⟨hc, hτ, by rw [hs']; exact .nil, hroots⟩, .inl ⟨rfl, rfl⟩⟩
  | keep p hd =>
    exact ⟨_, .refl, ⟨hc, hτ, by rw [hs']; exact .keep p hd, hroots⟩,
      .inr ⟨p, _, _, rfl, rfl, hd⟩⟩
  | @drop b s s' _ ih =>
    have hfin : step succ ⟨colors, (τ, true) :: s, roots⟩
        = some ⟨Function.update colors τ .visited, s, roots⟩ := rfl
    obtain ⟨st₂, hr, he, hst₂⟩ := ih (Function.update colors τ .visited)
      (fun x hx => by simpa [hx] using hc x hx) hroots hs'
    refine ⟨st₂, ?_, he, hst₂⟩
    cases b with
    | true => exact .head hfin hr
    | false =>
      refine .head (b := ⟨colors, (τ, true) :: s, roots⟩) ?_ (.head hfin hr)
      simp [step, hsink, pushAll]

theorem Early.exists_step (hsink : succ τ = []) (hτS : τ ∉ S) (h : Early τ st st')
    (ha : Accepts succ st) :
    ∃ st₂', step (insertSink succ S τ) st' = some st₂' ∧
      ∃ st₂, Reaches succ st st₂ ∧ Early τ st₂ st₂' := by
  obtain ⟨st₁, hr, he, htop⟩ := exists_catchUp hsink h
  obtain ⟨st₂, hs₂, -⟩ := (ha.reaches hr).step
  obtain ⟨hc, hτ, hdrops, hroots⟩ := he
  obtain ⟨c₁, s₁, r₁⟩ := st₁
  obtain ⟨c', s', r'⟩ := st'
  obtain rfl : r' = r₁ := hroots
  rcases htop with ⟨rfl, rfl⟩ | ⟨⟨v, b⟩, s, s'', rfl, rfl, hd⟩
  · cases r' with
    | nil => exact ⟨_, rfl, _, hr, hc, hτ, .nil, rfl⟩
    | cons r rest =>
      by_cases hrτ : r = τ
      · -- the sink is the next root: the smaller scan may still have to push it
        subst hrτ
        refine ⟨⟨c', [], rest⟩, by simp [step, show c' r = .visited from hτ], ?_⟩
        by_cases hcr : c₁ r = .visited
        · exact ⟨⟨c₁, [], rest⟩, hr.tail (by simp [step, hcr]), hc, hτ, .nil, rfl⟩
        · exact ⟨⟨c₁, [(r, false)], rest⟩, hr.tail (by simp [step, hcr]), hc, hτ,
            .drop false .nil, rfl⟩
      · have hcr : c' r = c₁ r := hc r hrτ
        by_cases hv : c₁ r = .visited
        · exact ⟨⟨c', [], rest⟩, by simp [step, hcr, hv], ⟨c₁, [], rest⟩,
            hr.tail (by simp [step, hv]), hc, hτ, .nil, rfl⟩
        · exact ⟨⟨c', [(r, false)], rest⟩, by simp [step, hcr, hv], ⟨c₁, [(r, false)], rest⟩,
            hr.tail (by simp [step, hv]), hc, hτ, .keep _ .nil, rfl⟩
  · cases b with
    | true =>
      refine ⟨_, rfl, ⟨Function.update c₁ v .visited, s, r'⟩, hr.tail rfl, fun x hx => ?_, ?_,
        hd, rfl⟩
      · by_cases hxv : x = v
        · simp [hxv]
        · simpa [hxv] using hc x hx
      · by_cases hvτ : τ = v
        · simp [hvτ]
        · simpa [hvτ] using hτ
    | false =>
      obtain ⟨⟨c₂, s₂⟩, hp, rfl⟩ := Option.map_eq_some_iff.mp hs₂
      obtain ⟨c₂', s₂', hp', hc₂, hτ₂, hd₂⟩ := pushAll_early hp hc hτ (.keep _ hd)
      have hpush : pushAll (insertSink succ S τ v) c' ((v, true) :: s'') = some (c₂', s₂') := by
        unfold insertSink
        split
        · rw [pushAll_append, hp']
          simp [pushAll, hτ₂]
        · exact hp'
      exact ⟨⟨c₂', s₂', r'⟩, by simp [step, hpush], ⟨c₂, s₂, r'⟩, hr.tail hs₂, hc₂, hτ₂, hd₂, rfl⟩

theorem Sim.exists_step (hsink : succ τ = []) (hτS : τ ∉ S) (h : Sim τ st st')
    (ha : Accepts succ st) (hav : Avoids succ (fun x => x ∈ S ∧ τ ∉ succ x) τ st) :
    ∃ st₂', step (insertSink succ S τ) st' = some st₂' ∧
      ∃ st₂, Reaches succ st st₂ ∧ Sim τ st₂ st₂' := by
  cases h with
  | same =>
    obtain ⟨st₂, hs₂, -⟩ := ha.step
    have hsame : step (insertSink succ S τ) st = step succ st →
        ∃ st₂', step (insertSink succ S τ) st = some st₂' ∧
          ∃ st₂, Reaches succ st st₂ ∧ Sim τ st₂ st₂' := fun he =>
      ⟨st₂, he.trans hs₂, st₂, .single hs₂, .same st₂⟩
    obtain ⟨hd, -⟩ | ⟨r, rest, hst, -, -, -⟩ | ⟨r, rest, hst, -, -, -⟩ | ⟨v, rest, hst, -⟩ |
      ⟨v, rest, c, s, hst, hp, rfl⟩ := step_cases hs₂
    · exact hsame (by simp [step, hd.1, hd.2])
    · exact hsame (by simp [step, hst])
    · exact hsame (by simp [step, hst])
    · exact hsame (by simp [step, hst])
    · by_cases hv : v ∈ S ∧ τ ∉ succ v
      · -- the only place where the two scans part: `τ` comes after the successors of `v`
        obtain ⟨P, rfl, -, hc, hP, -⟩ := pushAll_spec hp
        have hτP : τ ∉ P := fun h => hv.2 (hP τ h).1
        have hcτ : c τ = st.colors τ := by rw [hc, if_neg hτP]
        have hpush : pushAll (insertSink succ S τ v) st.colors ((v, true) :: rest)
            = pushAll [τ] c (P.map (·, false) ++ (v, true) :: rest) := by
          rw [insertSink, if_pos hv, pushAll_append, hp]
          rfl
        cases hcol : st.colors τ with
        | notVisited =>
          refine ⟨_, ?_, _, .single hs₂, .pushed _ false (hcτ.trans hcol)⟩
          simp [step, hst, hpush, pushAll, hcτ, hcol]
        | inStack => exact absurd hcol (hav st .refl v rest hst hv)
        | visited =>
          refine ⟨_, ?_, _, .single hs₂, .same _⟩
          simp [step, hst, hpush, pushAll, hcτ, hcol]
      · exact hsame (by simp [step, hst, insertSink, hv])
  | pushed b hcol =>
    cases b with
    | false =>
      refine ⟨_, ?_, st, .refl, .pushed st true hcol⟩
      simp [step, insertSink_self hsink hτS, pushAll]
    | true =>
      refine ⟨_, rfl, st, .refl, .early ⟨fun x hx => ?_, ?_, Drops.refl τ _, rfl⟩⟩
      · simp [hx]
      · simp
  | early he =>
    obtain ⟨st₂', hs₂', st₂, hr, he₂⟩ := he.exists_step hsink hτS ha
    exact ⟨st₂', hs₂', st₂, hr, .early he₂⟩

/-- **Edges into a sink.** Appending the sink `τ` to the adjacency lists of the nodes in `S`
keeps the scan accepting, provided `τ` is never grey when a node of `S` is expanded. -/
theorem accepts_insertSink (hsub : ∀ v, ∀ s ∈ succ v, s ∈ roots) (hτ : τ ∈ roots)
    (hsink : succ τ = []) (hτS : τ ∉ S) (ha : Accepts succ (init roots))
    (hav : Avoids succ (fun x => x ∈ S ∧ τ ∉ succ x) τ (init roots)) :
    Accepts (insertSink succ S τ) (init roots) := by
  refine accepts_of_forall_step (fun v s hs => ?_) fun st' hr' => ?_
  · obtain hs | ⟨-, rfl⟩ := mem_insertSink.mp hs
    · exact hsub v s hs
    · exact hτ
  · have hsim : ∃ st, Reaches succ (init roots) st ∧ Sim τ st st' := by
      induction hr' with
      | refl => exact ⟨_, .refl, .same _⟩
      | tail _ hs ih =>
        obtain ⟨st, hr, hsim⟩ := ih
        obtain ⟨st₂', hs₂', st₂, hr₂, hsim₂⟩ :=
          hsim.exists_step hsink hτS (ha.reaches hr) fun st₁ hr₁ => hav st₁ (hr.trans hr₁)
        rw [hs] at hs₂'
        cases hs₂'
        exact ⟨st₂, hr.trans hr₂, hsim₂⟩
    obtain ⟨st, hr, hsim⟩ := hsim
    obtain ⟨st₂', hs₂', -⟩ :=
      hsim.exists_step hsink hτS (ha.reaches hr) fun st₁ hr₁ => hav st₁ (hr.trans hr₁)
    simp [hs₂']

end Simulation

theorem avoids_of_forall_not_mem {τ : α} (hτ : ∀ v, τ ∉ succ v) (S : α → Prop) (roots : List α) :
    Avoids succ S τ (init roots) := by
  intro st hr
  have hcol : st.colors τ ≠ .inStack := by
    induction hr with
    | refl => simp [init]
    | tail _ hs ih =>
      obtain ⟨-, rfl⟩ | ⟨r, rest, -, -, -, rfl⟩ | ⟨r, rest, -, -, -, rfl⟩ | ⟨v, rest, -, rfl⟩ |
        ⟨v, rest, c, s, -, hp, rfl⟩ := step_cases hs
      · exact ih
      · exact ih
      · exact ih
      · by_cases hv : τ = v
        · simp [hv]
        · simpa [hv] using ih
      · obtain ⟨P, -, -, hc, hP, -⟩ := pushAll_spec hp
        have hτP : τ ∉ P := fun h => hτ v (hP τ h).1
        simpa [hc, hτP] using ih
  exact fun _ _ _ _ => hcol

/-- A node that reaches `τ` is never expanded while `τ` is grey. -/
theorem avoids_of_transGen (h : Accepts succ (init roots)) (τ : α) :
    Avoids succ (fun x => x ≠ τ ∧ TransGen (Edge succ) x τ) τ (init roots) := by
  rintro st hr x rest hst ⟨hne, hpath⟩ hcol
  exact not_transGen_top (h.reaches hr) ((inv_init succ roots).reaches hr) hst hne hcol hpath

end DepthFirst

end LTest
