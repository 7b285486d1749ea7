import LTest.Storage.StableVector
import Mathlib.Algebra.Order.Group.Multiset
import Mathlib.Data.List.Induction
import Mathlib.Tactic.Abel

/-!
# Moving stable vectors

Any number of vectors are created, changed, moved and destroyed. A move exchanges the blocks of two
vectors, but not their sizes: the move constructor leaves the size where it was, in a vector that
has no blocks any more, and the move assignment sets it to zero in a vector that has been given the
old elements of the other. So a move keeps sizes and elements together only where there is nothing
to be left behind: a constructor that moves from an empty vector, an assignment to an empty one.

The other condition is the length of `entities`. `pop_back` looks at the block after the last one,
which does not exist when the last one is block `30`.

## Main definitions

* `World`, `World.act` — vectors, and what is done with them
* `World.Valid` — sizes count the elements, and at the end all of them have been destroyed once
* `World.Safe` — the condition on one action

## Main results

* `World.valid_iff_safe` — all states are valid exactly in the runs whose actions are safe
* `World.moved_from` — a run with a vector of size one and no element, and one with a leak
-/

namespace LTest

namespace Storage

variable {α : Type}

namespace StableVector

/-- The move constructor: the new vector, and what `rhs` becomes. -/
def moveConstruct (rhs : StableVector α) : StableVector α × StableVector α :=
  let v : StableVector α := { ({} : StableVector α) with totalSize := rhs.totalSize }
  ({ v with entities := rhs.entities }, { rhs with entities := v.entities })

/-- The move assignment between two vectors. -/
def moveAssign (v rhs : StableVector α) : StableVector α × StableVector α :=
  let v := { v with totalSize := rhs.totalSize }
  let rhs := { rhs with totalSize := 0 }
  ({ v with entities := rhs.entities }, { rhs with entities := v.entities })

/-- The move assignment of a vector to itself. -/
def moveAssignSelf (v : StableVector α) : StableVector α := { v with totalSize := 0 }

/-- The elements constructed in a block, if there is one. -/
def elementsOf : Option (Block α) → List (Element α)
  | none => []
  | some b => b.slots.filterMap id

/-- The elements constructed in the blocks of the vector. -/
def elements (v : StableVector α) : List (Element α) := v.entities.toList.flatMap elementsOf

end StableVector

open StableVector

/-! ### The elements in the blocks -/

section Blocks

variable {l : List (Element α)} {a i j : ℕ} {es : List (Option (Block α))} {v : StableVector α}

/-- The blocks from block `i` on show their parts of the list, and there are `a` of them. -/
def Layout (l : List (Element α)) (a i : ℕ) (es : List (Option (Block α))) : Prop :=
  ∀ k e, es[k]? = some e → if i + k < a then ∃ b, e = some b ∧ Shows l (i + k) b else e = none

theorem Layout.tail {e : Option (Block α)} (h : Layout l a i (e :: es)) :
    Layout l a (i + 1) es := by
  intro k e' he'
  rw [Nat.add_assoc, Nat.add_comm 1 k]
  exact h (k + 1) e' he'

theorem StableVector.Holds.layout (h : v.Holds l a) : Layout l a 0 v.entities.toList := by
  intro k e he
  rw [Vector.getElem?_toList] at he
  rw [Nat.zero_add]
  split
  · rename_i hk
    obtain ⟨b, hb, hshows⟩ := h.block k hk
    exact ⟨b, Option.some.inj (he.symm.trans hb), hshows⟩
  · rename_i hk
    have hlt : k < 31 := (Vector.getElem?_eq_some_iff.mp he).1
    exact Option.some.inj (he.symm.trans (h.null k (by omega) hlt))

theorem drop_two_pow_succ (l : List (Element α)) (i : ℕ) :
    l.drop (2 ^ (i + 1) - 1) = (l.drop (2 ^ i - 1)).drop (2 ^ i) := by
  have hpos := Nat.two_pow_pos i
  rw [List.drop_drop, Nat.pow_succ]
  congr 1
  omega

theorem filterMap_range_getElem? (l : List (Element α)) (n : ℕ) :
    (List.range n).filterMap (fun j => l[j]?) = l.take n := by
  induction n with
  | zero => rfl
  | succ n ih =>
    rw [List.range_succ, List.filterMap_append, ih, List.take_add_one]
    cases h : l[n]? with
    | none => simp [h]
    | some e => simp [h]

/-- The elements in a block are those of its part of the list. -/
theorem StableVector.Shows.filterMap {b : Block α} (h : Shows l i b) :
    b.slots.filterMap id = (l.drop (2 ^ i - 1)).take (2 ^ i) := by
  have hslots : b.slots = (List.range (2 ^ i)).map fun j => (l.drop (2 ^ i - 1))[j]? := by
    have hpos := Nat.two_pow_pos i
    refine List.ext_getElem? fun j => ?_
    rw [h, List.getElem?_map]
    split
    · rename_i hj
      rw [List.getElem?_range hj, Option.map_some, List.getElem?_drop,
        show 2 ^ i - 1 + j = 2 ^ i + j - 1 by omega]
    · rename_i hj
      rw [List.getElem?_eq_none (by rw [List.length_range]; omega), Option.map_none]
  rw [hslots, List.filterMap_map]
  exact filterMap_range_getElem? _ _

theorem Layout.elements (h : Layout l a i es) (ha : a ≤ i + es.length) (hl : l.length < 2 ^ a) :
    es.flatMap elementsOf = l.drop (2 ^ i - 1) := by
  induction es generalizing i with
  | nil =>
    have hle : 2 ^ a ≤ 2 ^ i := Nat.pow_le_pow_right (by decide) ha
    rw [List.drop_of_length_le (by omega)]
    rfl
  | cons e es ih =>
    have htail := ih h.tail (by rw [List.length_cons] at ha; omega)
    rw [drop_two_pow_succ] at htail
    rw [List.flatMap_cons, htail]
    have hhead := h 0 e rfl
    split at hhead
    · obtain ⟨b, rfl, hshows⟩ := hhead
      rw [elementsOf, hshows.filterMap, Nat.add_zero, List.take_append_drop]
    · rename_i hi
      have hle : 2 ^ a ≤ 2 ^ i := Nat.pow_le_pow_right (by decide) (by omega)
      rw [hhead, elementsOf, List.drop_of_length_le (i := 2 ^ i - 1) (by omega), List.drop_nil,
        List.append_nil]

/-- The elements that a vector holds are those in its blocks. -/
theorem StableVector.Elements.elements_eq (h : v.Elements l) : v.elements = l := by
  obtain ⟨a, h⟩ := h
  refine (h.layout.elements ?_ h.reserve.1).trans List.drop_zero
  rw [Vector.length_toList, Nat.zero_add]
  exact h.bound

/-- The inner loop of the destructor destroys the elements of a block. -/
theorem destructSlots_eq {b : Block α} {left : ℕ} (heap : Heap) (hleft : j + left = 2 ^ i)
    (h : ∀ k, j ≤ k → b.slots[k]? = if k < 2 ^ i then some (l[2 ^ i + k - 1]?) else none) :
    ∃ b', destructSlots l.length i left j b heap = some (b', { heap with
      destroyed := heap.destroyed ++ ((l.drop (2 ^ i + j - 1)).take left).map Element.id }) := by
  have hpos := Nat.two_pow_pos i
  induction left generalizing j b heap with
  | zero =>
    rw [List.take_zero, List.map_nil, List.append_nil]
    exact ⟨b, rfl⟩
  | succ left ih =>
    rw [destructSlots]
    split
    · rename_i hj
      have hlt : 2 ^ i + j - 1 < l.length := by omega
      have hslot := h j (Nat.le_refl j)
      rw [if_pos (by omega), List.getElem?_eq_getElem hlt] at hslot
      have hdestruct : b.destruct j heap = some ({ b with slots := b.slots.set j none },
          { heap with destroyed := heap.destroyed ++ [(l.get ⟨_, hlt⟩).id] }) := by
        rw [Block.destruct, hslot]
        rfl
      obtain ⟨b', hrest⟩ := ih (b := { b with slots := b.slots.set j none }) (j := j + 1)
        { heap with destroyed := heap.destroyed ++ [(l.get ⟨_, hlt⟩).id] } (by omega)
        fun k hk => by
          rw [List.getElem?_set_ne (by omega)]
          exact h k (by omega)
      refine ⟨b', ?_⟩
      rw [hdestruct]
      show destructSlots l.length i left (j + 1) _ _ = _
      rw [hrest, List.drop_eq_getElem_cons hlt, List.take_succ_cons, List.map_cons,
        show 2 ^ i + (j + 1) - 1 = 2 ^ i + j - 1 + 1 by omega]
      simp
    · rename_i hj
      refine ⟨b, ?_⟩
      rw [List.drop_of_length_le (by omega), List.take_nil, List.map_nil, List.append_nil]

/-- The outer loop of the destructor destroys the elements of all blocks. -/
theorem Layout.destructBlocks (h : Layout l a i es) (ha : a ≤ i + es.length)
    (hl : l.length < 2 ^ a) (heap : Heap) :
    destructBlocks l.length i es heap = some { heap with
      destroyed := heap.destroyed ++ (l.drop (2 ^ i - 1)).map Element.id } := by
  induction es generalizing i heap with
  | nil =>
    have hle : 2 ^ a ≤ 2 ^ i := Nat.pow_le_pow_right (by decide) ha
    rw [List.drop_of_length_le (by omega), List.map_nil, List.append_nil]
    rfl
  | cons e es ih =>
    have hhead := h 0 e rfl
    split at hhead
    · obtain ⟨b, rfl, hshows⟩ := hhead
      obtain ⟨b', hslots⟩ := destructSlots_eq (j := 0) heap (Nat.zero_add (2 ^ i))
        fun k _ => hshows k
      rw [StableVector.destructBlocks, hslots]
      show StableVector.destructBlocks l.length (i + 1) es _ = _
      rw [ih h.tail (by rw [List.length_cons] at ha; omega), drop_two_pow_succ, Nat.add_zero,
        List.append_assoc, ← List.map_append, List.take_append_drop]
    · have hle : 2 ^ a ≤ 2 ^ i := Nat.pow_le_pow_right (by decide) (by omega)
      rw [hhead, List.drop_of_length_le (by omega), List.map_nil, List.append_nil]
      rfl

theorem StableVector.Elements.destructor (h : v.Elements l) (heap : Heap) :
    v.destructor heap = some { heap with destroyed := heap.destroyed ++ l.map Element.id } := by
  obtain ⟨a, h⟩ := h
  rw [StableVector.destructor, h.size, h.layout.destructBlocks ?_ h.reserve.1, Nat.pow_zero,
    Nat.sub_self, List.drop_zero]
  rw [Vector.length_toList, Nat.zero_add]
  exact h.bound

end Blocks

/-! ### Worlds of vectors -/

/-- The vectors and the heap. -/
structure World (α : Type) where
  /-- The vectors in the order of their creation; a destroyed one is `none`. -/
  vectors : List (Option (StableVector α)) := []
  /-- The heap. -/
  heap : Heap := {}
  deriving DecidableEq

/-- What can be done with vectors. The vectors are named by the order of their creation. -/
inductive Action (α : Type)
  | create
  | apply (i : ℕ) (op : Op α)
  | moveConstruct (i : ℕ)
  | moveAssign (i j : ℕ)
  | destroy (i : ℕ)
  deriving DecidableEq

namespace World

/-- The living vector of that name. -/
def living (w : World α) (i : ℕ) : Option (StableVector α) := (w.vectors[i]?).join

/-- The world with another vector of that name. -/
def set (w : World α) (i : ℕ) (v : Option (StableVector α)) : World α :=
  { w with vectors := w.vectors.set i v }

/-- The world with a new vector. -/
def add (w : World α) (v : StableVector α) : World α :=
  { w with vectors := w.vectors ++ [some v] }

/-- The world after an action. -/
def act [Inhabited α] (w : World α) : Action α → Option (World α)
  | .create => some (w.add {})
  | .apply i op => do
    let v ← w.living i
    let (v, heap) ← v.apply w.heap op
    return { w.set i (some v) with heap }
  | .moveConstruct i => do
    let rhs ← w.living i
    let (v, rhs) := rhs.moveConstruct
    return (w.set i (some rhs)).add v
  | .moveAssign i j => do
    let v ← w.living i
    let rhs ← w.living j
    if i = j then return w.set i (some v.moveAssignSelf)
    let (v, rhs) := v.moveAssign rhs
    return (w.set i (some v)).set j (some rhs)
  | .destroy i => do
    let v ← w.living i
    let heap ← v.destructor w.heap
    return { w.set i none with heap }

/-- The world after a sequence of actions. -/
def after [Inhabited α] (actions : List (Action α)) : Option (World α) :=
  actions.foldlM World.act {}

/-- What a user relies on. -/
structure Valid (w : World α) : Prop where
  /-- The size of each living vector is the number of elements in its blocks. -/
  size : ∀ i v, w.living i = some v → v.size = v.elements.length
  /-- When no vector is left, each element was destroyed once. -/
  destroyed : (∀ i, w.living i = none) → w.heap.destroyed.Perm (List.range w.heap.constructed)

/-- The action is on living vectors and stays inside `entities`; a move construction is from an
empty vector, and a move assignment is to an empty one. -/
def Safe (w : World α) : Action α → Prop
  | .create => True
  | .apply i op => ∃ v, w.living i = some v ∧ op.Fits v.size
  | .moveConstruct i => ∃ rhs, w.living i = some rhs ∧ rhs.size = 0
  | .moveAssign i j => ∃ v rhs, w.living i = some v ∧ w.living j = some rhs ∧ v.size = 0
  | .destroy i => ∃ v, w.living i = some v

variable {w w' : World α} {i j : ℕ}

/-! ### Living vectors -/

variable {v : StableVector α} {v' : StableVector α}

theorem vectors_of_living (h : w.living i = some v) : w.vectors[i]? = some (some v) :=
  Option.join_eq_some_iff.mp h

theorem living_set_self (h : w.living i = some v) (v' : Option (StableVector α)) :
    (w.set i v').living i = v' := by
  have hlt := (List.getElem?_eq_some_iff.mp (vectors_of_living h)).1
  rw [living, set, List.getElem?_set_self hlt]
  rfl

theorem living_set_ne (hij : i ≠ j) (v : Option (StableVector α)) :
    (w.set i v).living j = w.living j := by
  rw [living, set, List.getElem?_set_ne hij]
  rfl

theorem living_set_cases {u : StableVector α} {v' : Option (StableVector α)} {k : ℕ}
    (hv : w.living i = some v) (hu : (w.set i v').living k = some u) :
    v' = some u ∨ w.living k = some u := by
  by_cases hk : i = k
  · subst hk
    rw [living_set_self hv] at hu
    exact .inl hu
  · rw [living_set_ne hk] at hu
    exact .inr hu

theorem living_add (h : (w.add v).living i = some v') : v' = v ∨ w.living i = some v' := by
  have hmem := vectors_of_living h
  rw [add, List.getElem?_append] at hmem
  split at hmem
  · exact .inr (Option.join_eq_some_iff.mpr hmem)
  · rw [List.getElem?_singleton] at hmem
    split at hmem
    · cases hmem
      exact .inl rfl
    · cases hmem

theorem living_add_of_living (h : w.living i = some v') : (w.add v).living i = some v' := by
  have hmem := vectors_of_living h
  have hlt := (List.getElem?_eq_some_iff.mp hmem).1
  rw [living, add, List.getElem?_append_left hlt, hmem]
  rfl

/-! ### The elements of a world -/

/-- The elements of a vector that may have been destroyed. -/
def contents : Option (StableVector α) → List (Element α)
  | none => []
  | some v => v.elements

/-- The ids of the elements in all vectors. -/
def ids (w : World α) : Multiset ℕ := ((w.vectors.flatMap contents).map Element.id : List ℕ)

theorem flatMap_set {β γ : Type} {f : β → List γ} {xs : List β} {x y : β} (h : xs[i]? = some x) :
    (((xs.set i y).flatMap f : List γ) + (f x : List γ) : Multiset γ) =
      (xs.flatMap f : List γ) + (f y : List γ) := by
  induction xs generalizing i with
  | nil => cases h
  | cons x' xs ih =>
    cases i with
    | zero =>
      cases h
      rw [List.set_cons_zero, List.flatMap_cons, List.flatMap_cons, ← Multiset.coe_add,
        ← Multiset.coe_add]
      abel
    | succ i =>
      rw [List.set_cons_succ, List.flatMap_cons, List.flatMap_cons, ← Multiset.coe_add,
        ← Multiset.coe_add, add_assoc, add_assoc, ih h]

theorem ids_set (h : w.living i = some v) (v' : Option (StableVector α)) :
    (w.set i v').ids + (v.elements.map Element.id : List ℕ) =
      w.ids + ((contents v').map Element.id : List ℕ) := by
  have hset := congrArg (Multiset.map Element.id)
    (flatMap_set (f := contents) (y := v') (vectors_of_living h))
  rwa [Multiset.map_add, Multiset.map_add] at hset

theorem ids_add (w : World α) (v : StableVector α) :
    (w.add v).ids = w.ids + (v.elements.map Element.id : List ℕ) := by
  rw [ids, ids, add, List.flatMap_append, List.map_append, ← Multiset.coe_add,
    List.flatMap_singleton]
  rfl

/-- The invariant. -/
structure Inv (w : World α) : Prop where
  /-- The blocks of each vector hold its elements. -/
  elements : ∀ i v, w.living i = some v → v.Elements v.elements
  /-- Each element that was constructed is in a vector or has been destroyed. -/
  balance : (w.heap.destroyed : Multiset ℕ) + w.ids = (List.range w.heap.constructed : Multiset ℕ)

theorem Inv.init : Inv ({} : World α) where
  elements := nofun
  balance := rfl

theorem Inv.valid (h : w.Inv) : w.Valid where
  size i v hv := (h.elements i v hv).size
  destroyed hnone := by
    have hids : w.ids = 0 := by
      rw [ids, List.flatMap_eq_nil_iff.mpr]
      · rfl
      · intro v hv
        obtain ⟨i, hi⟩ := List.mem_iff_getElem?.mp hv
        cases v with
        | none => rfl
        | some v =>
          have hliving := hnone i
          rw [living, hi] at hliving
          cases hliving
    have hbalance := h.balance
    rw [hids, add_zero] at hbalance
    exact Multiset.coe_eq_coe.mp hbalance

/-! ### Safe actions -/

theorem Inv.set (h : w.Inv) (hv : w.living i = some v) (hv' : v'.Elements v'.elements) {heap : Heap}
    (hbalance : (heap.destroyed : Multiset ℕ) + (w.set i (some v')).ids =
      (List.range heap.constructed : Multiset ℕ)) : Inv { w.set i (some v') with heap } where
  elements k u hu := by
    rcases living_set_cases (w := w) hv hu with hu | hu
    · exact Option.some.inj hu ▸ hv'
    · exact h.elements k u hu
  balance := hbalance

/-- A vector without elements is put in the place of another one. -/
theorem Inv.set_nil (h : w.Inv) (hv : w.living i = some v) (hnil : v.Elements [])
    (hnil' : v'.Elements []) : (w.set i (some v')).Inv := by
  have hids := ids_set hv (some v')
  rw [contents, hnil.elements_eq, hnil'.elements_eq, List.map_nil, Multiset.coe_nil, add_zero,
    add_zero] at hids
  refine h.set hv ?_ ?_
  · rwa [hnil'.elements_eq]
  · rw [hids]
    exact h.balance

theorem Inv.add (h : w.Inv) (hv : v.Elements []) : (w.add v).Inv where
  elements k u hu := by
    rcases living_add hu with rfl | hu
    · rwa [hv.elements_eq]
    · exact h.elements k u hu
  balance := by
    rw [ids_add, hv.elements_eq, List.map_nil, Multiset.coe_nil, add_zero]
    exact h.balance

theorem Inv.elements_nil (h : w.Inv) (hv : w.living i = some v) (hsize : v.size = 0) :
    v.Elements [] := by
  have helements := h.elements i v hv
  rwa [List.eq_nil_of_length_eq_zero (helements.size.symm.trans hsize)] at helements

theorem elements_init : ({} : StableVector α).Elements [] := ⟨0, .init⟩

variable [Inhabited α] {rhs : StableVector α}

theorem Inv.apply (h : w.Inv) (hv : w.living i = some v) {op : Op α} (hfits : op.Fits v.size) :
    ∃ w', w.act (.apply i op) = some w' ∧ w'.Inv := by
  have helements := h.elements i v hv
  rw [StableVector.size, helements.size] at hfits
  obtain ⟨v', heap', l', happly, helements', hsteps, -⟩ := helements.apply hfits w.heap
  obtain rfl := helements'.elements_eq
  refine ⟨{ w.set i (some v') with heap := heap' }, ?_, h.set hv helements' ?_⟩
  · rw [World.act, hv]
    simp [happly]
  · have hset := ids_set hv (some v')
    have hsteps' := Multiset.coe_eq_coe.mpr hsteps.balance
    simp only [← Multiset.coe_add] at hsteps'
    refine add_right_cancel (b := (v.elements.map Element.id : Multiset ℕ)) ?_
    calc (heap'.destroyed : Multiset ℕ) + (w.set i (some v')).ids + (v.elements.map Element.id)
        = heap'.destroyed + (v'.elements.map Element.id) + w.ids := by
          rw [add_assoc, hset, contents]
          abel
      _ = w.heap.destroyed + w.ids +
            (List.range' w.heap.constructed (heap'.constructed - w.heap.constructed)) +
            (v.elements.map Element.id) := by
          rw [hsteps']
          abel
      _ = (List.range heap'.constructed) + (v.elements.map Element.id) := by
          rw [h.balance, Multiset.coe_add, range_append_range' hsteps.constructed]

theorem Inv.moveConstruct (h : w.Inv) (hrhs : w.living i = some rhs) (hsize : rhs.size = 0) :
    ∃ w', w.act (.moveConstruct i) = some w' ∧ w'.Inv := by
  have hnil := h.elements_nil hrhs hsize
  have hleft : ({ rhs with entities := ({} : StableVector α).entities } : StableVector α) = {} := by
    rw [show rhs.totalSize = 0 from hsize]
  refine ⟨(w.set i (some {})).add rhs, ?_, (h.set_nil hrhs hnil elements_init).add hnil⟩
  rw [World.act, hrhs]
  show some ((w.set i (some { rhs with entities := ({} : StableVector α).entities })).add rhs) = _
  rw [hleft]

theorem Inv.moveAssign (h : w.Inv) (hv : w.living i = some v) (hrhs : w.living j = some rhs)
    (hsize : v.size = 0) : ∃ w', w.act (.moveAssign i j) = some w' ∧ w'.Inv := by
  have hnil := h.elements_nil hv hsize
  have hsame : ({ v with totalSize := 0 } : StableVector α) = v := by
    rw [← show v.totalSize = 0 from hsize]
  by_cases hij : i = j
  · subst hij
    refine ⟨w.set i (some v), ?_, h.set_nil hv hnil hnil⟩
    rw [World.act, hv]
    simp [moveAssignSelf, hsame]
  · refine ⟨(w.set i (some rhs)).set j (some v), ?_, ⟨fun k u hu => ?_, ?_⟩⟩
    · rw [World.act, hv, hrhs]
      simp [hij, StableVector.moveAssign, hsame]
    · have hrhs' : (w.set i (some rhs)).living j = some rhs := by rw [living_set_ne hij, hrhs]
      rcases living_set_cases hrhs' hu with hu | hu
      · exact Option.some.inj hu ▸ h.elements i v hv
      · rcases living_set_cases hv hu with hu | hu
        · exact Option.some.inj hu ▸ h.elements j rhs hrhs
        · exact h.elements k u hu
    · have hids := ids_set hv (some rhs)
      have hids' := ids_set (i := j) (w := w.set i (some rhs)) ((living_set_ne hij _).trans hrhs)
        (some v)
      rw [contents, hnil.elements_eq, List.map_nil, Multiset.coe_nil, add_zero] at hids hids'
      rw [hids] at hids'
      rw [add_right_cancel hids']
      exact h.balance

theorem Inv.destroy (h : w.Inv) (hv : w.living i = some v) :
    ∃ w', w.act (.destroy i) = some w' ∧ w'.Inv := by
  refine ⟨{ w.set i none with heap := { w.heap with
    destroyed := w.heap.destroyed ++ v.elements.map Element.id } }, ?_, ⟨fun k u hu => ?_, ?_⟩⟩
  · rw [World.act, hv]
    simp [(h.elements i v hv).destructor w.heap]
  · rcases living_set_cases (w := w) hv hu with hu | hu
    · cases hu
    · exact h.elements k u hu
  · have hids := ids_set hv none
    rw [contents, List.map_nil, Multiset.coe_nil, add_zero] at hids
    rw [← Multiset.coe_add]
    show w.heap.destroyed + _ + (w.set i none).ids = _
    rw [add_assoc, add_comm _ (w.set i none).ids, hids]
    exact h.balance

theorem Inv.act (h : w.Inv) {c : Action α} (hc : w.Safe c) : ∃ w', w.act c = some w' ∧ w'.Inv := by
  cases c with
  | create => exact ⟨_, rfl, h.add elements_init⟩
  | apply i op =>
    obtain ⟨v, hv, hfits⟩ := hc
    exact h.apply hv hfits
  | moveConstruct i =>
    obtain ⟨rhs, hrhs, hsize⟩ := hc
    exact h.moveConstruct hrhs hsize
  | moveAssign i j =>
    obtain ⟨v, rhs, hv, hrhs, hsize⟩ := hc
    exact h.moveAssign hv hrhs hsize
  | destroy i =>
    obtain ⟨v, hv⟩ := hc
    exact h.destroy hv

/-! ### Actions that are not safe -/

/-- An action from a valid world to a valid world is safe. -/
theorem Valid.safe (h : w.Valid) {c : Action α} (hact : w.act c = some w') (h' : w'.Valid) :
    w.Safe c := by
  cases c with
  | create => trivial
  | apply i op =>
    obtain ⟨v, hv, hact⟩ := Option.bind_eq_some_iff.mp hact
    obtain ⟨⟨v', heap'⟩, happly, -⟩ := Option.bind_eq_some_iff.mp hact
    exact ⟨v, hv, fits_of_apply happly⟩
  | moveConstruct i =>
    obtain ⟨rhs, hrhs, hact⟩ := Option.bind_eq_some_iff.mp hact
    cases hact
    refine ⟨rhs, hrhs, ?_⟩
    exact h'.size i _ (living_add_of_living (living_set_self hrhs _))
  | moveAssign i j =>
    obtain ⟨v, hv, hact⟩ := Option.bind_eq_some_iff.mp hact
    obtain ⟨rhs, hrhs, hact⟩ := Option.bind_eq_some_iff.mp hact
    refine ⟨v, rhs, hv, hrhs, (h.size i v hv).trans ?_⟩
    -- afterwards the old elements are in a vector of size zero
    dsimp only at hact
    split at hact
    · cases hact
      exact (h'.size i _ (living_set_self hv _)).symm
    · rename_i hij
      cases hact
      exact (h'.size j _ (living_set_self ((living_set_ne hij _).trans hrhs) _)).symm
  | destroy i =>
    obtain ⟨v, hv, -⟩ := Option.bind_eq_some_iff.mp hact
    exact ⟨v, hv⟩

theorem after_append_singleton (actions : List (Action α)) (c : Action α) :
    after (actions ++ [c]) = (after actions).bind (·.act c) := by
  rw [after, List.foldlM_append]
  refine congrArg _ (funext fun w => ?_)
  exact bind_pure (w.act c)

/-- **Vectors are valid exactly in the runs that leave nothing behind.** All states of a run exist
and are valid if and only if all its actions are safe. -/
theorem valid_iff_safe (actions : List (Action α)) :
    (∀ before, before <+: actions → ∃ w, after before = some w ∧ w.Valid) ↔
      ∀ before c, before ++ [c] <+: actions → ∀ w, after before = some w → w.Safe c := by
  constructor
  · intro h before c hbefore w hw
    obtain ⟨w', hw', hvalid'⟩ := h _ hbefore
    obtain ⟨w₀, hw₀, hvalid⟩ := h before ((List.prefix_append before [c]).trans hbefore)
    obtain rfl : w₀ = w := Option.some.inj (hw₀.symm.trans hw)
    rw [after_append_singleton, hw] at hw'
    exact hvalid.safe hw' hvalid'
  · intro h before hbefore
    have hinv : ∃ w, after before = some w ∧ w.Inv := by
      induction before using List.reverseRecOn with
      | nil => exact ⟨{}, rfl, .init⟩
      | append_singleton before c ih =>
        obtain ⟨w, hw, hinv⟩ := ih ((List.prefix_append before [c]).trans hbefore)
        rw [after_append_singleton, hw]
        exact hinv.act (h before c hbefore w hw)
    obtain ⟨w, hw, hinv⟩ := hinv
    exact ⟨w, hw, hinv.valid⟩

/-- A vector with one element is moved from, and still has size one. A vector with one element is
assigned to; after both vectors are destroyed, its old element is not. -/
theorem moved_from :
    (∃ w, after ([.create, .apply 0 (.emplaceBack 5), .moveConstruct 0] : List (Action ℕ)) =
        some w ∧
      ((w.living 0).map fun v => (v.size, v.elements)) = some (1, []) ∧ ¬ w.Valid) ∧
    ∃ w, after ([.create, .create, .apply 0 (.emplaceBack 5), .apply 1 (.emplaceBack 6),
        .moveAssign 0 1, .destroy 0, .destroy 1] : List (Action ℕ)) = some w ∧
      w.vectors = [none, none] ∧ w.heap.constructed = 2 ∧ w.heap.destroyed = [1] ∧ ¬ w.Valid := by
  refine ⟨⟨_, rfl, by decide, fun h => ?_⟩, ⟨_, rfl, by decide, by decide, by decide, fun h => ?_⟩⟩
  · exact absurd (h.size 0 _ rfl) (by decide)
  · refine absurd (h.destroyed fun i => ?_) (by decide)
    match i with
    | 0 => rfl
    | 1 => rfl
    | i + 2 => rfl

end World

end Storage

end LTest
