import LTest.Lib.Doubling
import Mathlib.Data.List.Basic

/-!
# A vector whose elements do not move

`StableVector` keeps its elements in blocks of doubling length, so that a growing vector allocates a
new block and leaves the others where they are. `pop_back` frees a block when the first element of
the block before it goes, one block late, and so a size that moves back and forth over a power of
two does not allocate each time.

A block is here part of the vector that points to it: pointers to blocks are never copied, they are
made by an allocation, exchanged between two vectors, or deleted. A block keeps its address, and an
element the number of its construction, by which a slot and an element are told apart from others of
the same content. Where the behaviour of the source is undefined — an index outside `entities`, a
null block, an element destroyed in a slot that holds none — an operation has no result.

## Main definitions

* `StableVector`, `StableVector.emplaceBack`, `popBack`, `resize`, `get`, `back` — the vector
* `StableVector.destructor` — the destructor, with its break at the first null block
* `StableVector.Holds` — the elements of a vector, and the blocks it keeps for them
-/

namespace LTest

namespace Storage

variable {α : Type}

/-- An object of the element type. -/
structure Element (α : Type) where
  /-- The number of its construction. -/
  id : ℕ
  /-- The value. -/
  value : α
  deriving DecidableEq

/-- A block of storage. -/
structure Block (α : Type) where
  /-- The address. -/
  addr : ℕ
  /-- The slots, with the elements constructed in them. -/
  slots : List (Option (Element α))
  deriving DecidableEq

/-- What happened so far. -/
structure Heap where
  /-- The number of allocations. -/
  allocated : ℕ := 0
  /-- The number of constructions. -/
  constructed : ℕ := 0
  /-- The ids of destroyed elements. -/
  destroyed : List ℕ := []
  deriving DecidableEq

/-- The storage that `operator new[]` returns. -/
def Heap.newBlock (heap : Heap) (length : ℕ) : Block α :=
  ⟨heap.allocated, List.replicate length none⟩

/-- Placement new in a slot of a block. -/
def Block.construct (b : Block α) (j : ℕ) (e : Element α) : Option (Block α) :=
  if j < b.slots.length then some { b with slots := b.slots.set j (some e) } else none

/-- The destructor of the element in a slot of a block. -/
def Block.destruct (b : Block α) (j : ℕ) (heap : Heap) : Option (Block α × Heap) :=
  match b.slots[j]? with
  | some (some e) =>
    some ({ b with slots := b.slots.set j none },
      { heap with destroyed := heap.destroyed ++ [e.id] })
  | _ => none

/-- `StableVector`. A null pointer is `none`. -/
structure StableVector (α : Type) where
  /-- The blocks; a null pointer is `none`. -/
  entities : Vector (Option (Block α)) 31 := Vector.replicate 31 none
  /-- The number of elements. -/
  totalSize : ℕ := 0
  deriving DecidableEq

namespace StableVector

/-- `emplace_back`. `63 - __builtin_clzll` is the position of the highest bit. -/
def emplaceBack (v : StableVector α) (x : α) (heap : Heap) : Option (StableVector α × Heap) := do
  let index := (v.totalSize + 1).log2
  let entity ← v.entities[index]?
  let fresh := decide ((v.totalSize + 1) &&& v.totalSize = 0) && entity.isNone
  let block ← if fresh then some (heap.newBlock (2 ^ index)) else entity
  let internalIndex := (v.totalSize + 1) ^^^ 2 ^ index
  let block ← block.construct internalIndex ⟨heap.constructed, x⟩
  return (
    { entities := v.entities.setIfInBounds index (some block)
      totalSize := v.totalSize + 1 },
    { heap with
      allocated := if fresh then heap.allocated + 1 else heap.allocated
      constructed := heap.constructed + 1 })

/-- The block after the last one that `pop_back` deletes, before it destroys the first element of
the last one. -/
def freeNext (v : StableVector α) : Option (Vector (Option (Block α)) 31) :=
  let index := v.totalSize.log2
  if (v.totalSize - 1) &&& v.totalSize = 0 then
    match v.entities[index + 1]? with
    | some (some _) => some (v.entities.setIfInBounds (index + 1) none)
    | some none => some v.entities
    | none => none
  else some v.entities

/-- `pop_back`. `__builtin_clzll` is undefined at zero. -/
def popBack (v : StableVector α) (heap : Heap) : Option (StableVector α × Heap) := do
  guard (v.totalSize ≠ 0)
  let index := v.totalSize.log2
  let entities ← v.freeNext
  let internalIndex := v.totalSize ^^^ 2 ^ index
  let entity ← entities[index]?
  let block ← entity
  let (block, heap) ← block.destruct internalIndex heap
  return (
    { entities := entities.setIfInBounds index (some block)
      totalSize := v.totalSize - 1 },
    heap)

/-- `operator[]`. -/
def get (v : StableVector α) (i : ℕ) : Option α := do
  let i := i + 1
  let index := i.log2
  let internalIndex := i ^^^ 2 ^ index
  let entity ← v.entities[index]?
  let block ← entity
  let slot ← block.slots[internalIndex]?
  slot.map Element.value

/-- `back`. -/
def back (v : StableVector α) : Option α := v.get (v.totalSize - 1)

/-- `size`. -/
def size (v : StableVector α) : ℕ := v.totalSize

/-- The first loop of `resize`, which runs once for each missing element. -/
def grow [Inhabited α] : ℕ → StableVector α → Heap → Option (StableVector α × Heap)
  | 0, v, heap => some (v, heap)
  | missing + 1, v, heap => do
    let (v, heap) ← v.emplaceBack default heap
    grow missing v heap

/-- The second loop of `resize`, which runs once for each element too many. -/
def shrink : ℕ → StableVector α → Heap → Option (StableVector α × Heap)
  | 0, v, heap => some (v, heap)
  | surplus + 1, v, heap => do
    let (v, heap) ← v.popBack heap
    shrink surplus v heap

/-- `resize`. -/
def resize [Inhabited α] (v : StableVector α) (newSize : ℕ) (heap : Heap) :
    Option (StableVector α × Heap) := do
  let (v, heap) ← grow (newSize - v.totalSize) v heap
  shrink (v.totalSize - newSize) v heap

/-- The inner loop of the destructor, from slot `j` of block `i` on. -/
def destructSlots (size i : ℕ) : ℕ → ℕ → Block α → Heap → Option (Block α × Heap)
  | 0, _, b, heap => some (b, heap)
  | left + 1, j, b, heap =>
    if j + 2 ^ i < size + 1 then do
      let (b, heap) ← b.destruct j heap
      destructSlots size i left (j + 1) b heap
    else some (b, heap)

/-- The outer loop of the destructor, from block `i` on. A block is deleted after its elements. -/
def destructBlocks (size : ℕ) : ℕ → List (Option (Block α)) → Heap → Option Heap
  | _, [], heap => some heap
  | _, none :: _, heap => some heap
  | i, some b :: rest, heap => do
    let (_, heap) ← destructSlots size i (2 ^ i) 0 b heap
    destructBlocks size (i + 1) rest heap

/-- `~StableVector`. -/
def destructor (v : StableVector α) (heap : Heap) : Option Heap :=
  destructBlocks v.totalSize 0 v.entities.toList heap

/-! ### Operations -/

/-- The operations that change the elements of a vector. -/
inductive Op (α : Type)
  | emplaceBack (x : α)
  | popBack
  | resize (newSize : ℕ)
  deriving DecidableEq

/-- What an operation does to a vector. -/
def apply [Inhabited α] (v : StableVector α) (heap : Heap) :
    Op α → Option (StableVector α × Heap)
  | .emplaceBack x => v.emplaceBack x heap
  | .popBack => v.popBack heap
  | .resize newSize => v.resize newSize heap

/-! ### The elements of a vector -/

/-- The block shows its part of the list: slot `j` of block `i` is for the element at position
`2 ^ i + j - 1`, and it is empty where the list has ended. -/
def Shows (l : List (Element α)) (i : ℕ) (b : Block α) : Prop :=
  ∀ j, b.slots[j]? = if j < 2 ^ i then some (l[2 ^ i + j - 1]?) else none

/-- The vector holds the elements of the list, in the first `a` of its blocks. -/
structure Holds (v : StableVector α) (l : List (Element α)) (a : ℕ) : Prop where
  size : v.totalSize = l.length
  reserve : Doubling.Reserve l.length a
  bound : a ≤ 31
  block : ∀ i < a, ∃ b, v.entities[i]? = some (some b) ∧ Shows l i b
  null : ∀ i, a ≤ i → i < 31 → v.entities[i]? = some none

/-! ### Blocks and the end of the list -/

section Blocks

variable {l : List (Element α)} {e : Element α} {b : Block α} {i : ℕ}

/-- An element at the end of the list is outside of all blocks but its own. -/
theorem shows_concat_iff (hi : (l.length + 1).log2 ≠ i) : Shows (l ++ [e]) i b ↔ Shows l i b := by
  refine forall_congr' fun j => ?_
  split
  · rename_i hj
    have hne : 2 ^ i + j - 1 ≠ l.length := by
      intro heq
      apply hi
      rw [← heq, show 2 ^ i + j - 1 + 1 = 2 ^ i + j by have := Nat.two_pow_pos i; omega]
      exact Doubling.log2_two_pow_add hj
    rw [show (l ++ [e])[2 ^ i + j - 1]? = l[2 ^ i + j - 1]? by grind]
  · exact Iff.rfl

theorem Shows.length_slots (h : Shows l i b) : b.slots.length = 2 ^ i := by
  refine Nat.le_antisymm ?_ ?_
  · rw [← List.getElem?_eq_none_iff, h, if_neg (Nat.lt_irrefl _)]
  · by_contra hlt
    have hslot := h b.slots.length
    rw [List.getElem?_eq_none (Nat.le_refl _), if_pos (by omega)] at hslot
    cases hslot

/-- Construction of the element at the end of the list. -/
theorem Shows.construct (h : Shows l i b) (hi : (l.length + 1).log2 = i) :
    b.construct ((l.length + 1) ^^^ 2 ^ i) e =
      some { b with slots := b.slots.set ((l.length + 1) ^^^ 2 ^ i) (some e) } ∧
    Shows (l ++ [e]) i { b with slots := b.slots.set ((l.length + 1) ^^^ 2 ^ i) (some e) } := by
  subst hi
  have hlt := Doubling.xor_two_pow_log2_lt (m := l.length + 1) (Nat.succ_ne_zero _)
  have hpos := Doubling.two_pow_log2_add_xor (m := l.length + 1) (Nat.succ_ne_zero _)
  have hlength := h.length_slots
  refine ⟨if_pos (by omega), fun j => ?_⟩
  have hj := h j
  grind

/-- Destruction of the element at the end of the list. -/
theorem Shows.destruct (h : Shows (l ++ [e]) i b) (hi : (l.length + 1).log2 = i) (heap : Heap) :
    b.destruct ((l.length + 1) ^^^ 2 ^ i) heap =
      some ({ b with slots := b.slots.set ((l.length + 1) ^^^ 2 ^ i) none },
        { heap with destroyed := heap.destroyed ++ [e.id] }) ∧
    Shows l i { b with slots := b.slots.set ((l.length + 1) ^^^ 2 ^ i) none } := by
  subst hi
  have hlt := Doubling.xor_two_pow_log2_lt (m := l.length + 1) (Nat.succ_ne_zero _)
  have hpos := Doubling.two_pow_log2_add_xor (m := l.length + 1) (Nat.succ_ne_zero _)
  have hlength := h.length_slots
  constructor
  · have hslot := h ((l.length + 1) ^^^ 2 ^ (l.length + 1).log2)
    rw [if_pos hlt, hpos, Nat.add_sub_cancel, List.getElem?_concat_length] at hslot
    rw [Block.destruct, hslot]
  · intro j
    have hj := h j
    grind

/-- A new block is for positions after the end of the list. -/
theorem shows_newBlock (heap : Heap) (h : l.length + 1 = 2 ^ i) :
    Shows l i (heap.newBlock (2 ^ i)) := by
  intro j
  show (List.replicate (2 ^ i) none)[j]? = _
  rw [List.getElem?_replicate, List.getElem?_eq_none (by omega)]

end Blocks

/-! ### One operation -/

section Step

variable {v : StableVector α} {l : List (Element α)} {a : ℕ}

theorem Holds.init : Holds ({} : StableVector α) [] 0 where
  size := rfl
  reserve := .zero
  bound := Nat.zero_le 31
  block := nofun
  null i _ hi := by
    rw [Vector.getElem?_replicate, if_pos hi]

/-- The blocks that both vectors use are at the same addresses. -/
def SameBlocks (v v' : StableVector α) (a : ℕ) : Prop :=
  ∀ i < a, (v.entities[i]?).map (Option.map Block.addr) =
    (v'.entities[i]?).map (Option.map Block.addr)

theorem emplaceBack_eq {x : α} {heap : Heap} {entity : Option (Block α)} {b b' : Block α}
    {fresh : Bool} (hentity : v.entities[(v.totalSize + 1).log2]? = some entity)
    (hfresh : (decide ((v.totalSize + 1) &&& v.totalSize = 0) && entity.isNone) = fresh)
    (hb : (if fresh then some (heap.newBlock (2 ^ (v.totalSize + 1).log2)) else entity) = some b)
    (hb' : b.construct ((v.totalSize + 1) ^^^ 2 ^ (v.totalSize + 1).log2) ⟨heap.constructed, x⟩ =
      some b') :
    v.emplaceBack x heap = some (
      { entities := v.entities.setIfInBounds (v.totalSize + 1).log2 (some b')
        totalSize := v.totalSize + 1 },
      { heap with
        allocated := if fresh then heap.allocated + 1 else heap.allocated
        constructed := heap.constructed + 1 }) := by
  simp only [emplaceBack, hentity, hfresh, Option.bind_eq_bind, Option.bind_some, Option.pure_def]
  cases fresh with
  | false =>
    rw [if_neg Bool.false_ne_true] at hb
    simp [hb, hb']
  | true =>
    rw [if_pos rfl, Option.some.injEq] at hb
    simp [hb, hb']

/-- The element at the end of the list is in a block that was there, or in the next one. -/
theorem Holds.concat (h : v.Holds l a) {a' : ℕ} {e : Element α} {b : Block α}
    (hb : Shows (l ++ [e]) (l.length + 1).log2 b) (hreserve : Doubling.Reserve (l.length + 1) a')
    (hbound : a' ≤ 31) (ha : a ≤ a') (hindex : (l.length + 1).log2 < a')
    (hblocks : ∀ i < a', i < a ∨ i = (l.length + 1).log2) :
    Holds
      { entities := v.entities.setIfInBounds (l.length + 1).log2 (some b)
        totalSize := l.length + 1 } (l ++ [e]) a' where
  size := by rw [List.length_append, List.length_singleton]
  reserve := by rwa [List.length_append]
  bound := hbound
  block i hi := by
    rw [Vector.getElem?_setIfInBounds]
    by_cases heq : (l.length + 1).log2 = i
    · subst heq
      rw [if_pos rfl, if_pos (by omega)]
      exact ⟨b, rfl, hb⟩
    · rw [if_neg heq]
      obtain ⟨b', hb', hshows⟩ := h.block i ((hblocks i hi).resolve_right fun hi => heq hi.symm)
      exact ⟨b', hb', (shows_concat_iff heq).mpr hshows⟩
  null i hi hi' := by
    rw [Vector.getElem?_setIfInBounds, if_neg (by omega)]
    exact h.null i (by omega) hi'

theorem sameBlocks_set {index totalSize : ℕ} {b b' : Block α}
    (hb : index < a → v.entities[index]? = some (some b)) (haddr : b'.addr = b.addr) (ha : a ≤ 31) :
    SameBlocks v { entities := v.entities.setIfInBounds index (some b'), totalSize } a := by
  intro i hi
  dsimp only
  rw [Vector.getElem?_setIfInBounds]
  split
  · rename_i heq
    subst heq
    rw [hb hi, if_pos (by omega), Option.map_some, Option.map_some, Option.map_some,
      Option.map_some, haddr]
  · rfl

theorem Holds.emplaceBack (h : v.Holds l a) (hsize : l.length + 1 < 2 ^ 31) (x : α) (heap : Heap) :
    ∃ v' heap' a', v.emplaceBack x heap = some (v', heap') ∧
      v'.Holds (l ++ [⟨heap.constructed, x⟩]) a' ∧ SameBlocks v v' a ∧
      heap'.constructed = heap.constructed + 1 ∧ heap'.destroyed = heap.destroyed := by
  have hne : l.length + 1 ≠ 0 := Nat.succ_ne_zero _
  have hindex : (l.length + 1).log2 < 31 := (Nat.log2_lt hne).mpr hsize
  rcases h.reserve.next with hblock | ⟨hblock, hfirst⟩
  · obtain ⟨b, hb, hshows⟩ := h.block _ hblock
    obtain ⟨hconstruct, hshows⟩ := hshows.construct (e := ⟨heap.constructed, x⟩) rfl
    rw [← h.size] at hb hconstruct
    refine ⟨_, _, a, emplaceBack_eq hb (Bool.and_false _) rfl hconstruct, ?_, ?_, rfl, rfl⟩
    · rw [h.size] at hconstruct ⊢
      exact h.concat hshows (h.reserve.push hblock) h.bound (Nat.le_refl a) hblock
        fun i hi => .inl hi
    · exact sameBlocks_set (fun _ => hb) rfl h.bound
  · have hnull := h.null _ (Nat.le_of_eq hblock.symm) hindex
    have hfresh : (decide ((l.length + 1) &&& l.length = 0) &&
        (none : Option (Block α)).isNone) = true := by
      rw [Option.isNone_none, Bool.and_true, decide_eq_true_iff]
      exact (Doubling.and_pred_eq_zero_iff hne).mpr (by rw [hblock, hfirst])
    have hshows := shows_newBlock heap (hblock.symm ▸ hfirst)
    obtain ⟨hconstruct, hshows⟩ := hshows.construct (e := ⟨heap.constructed, x⟩) rfl
    rw [← h.size] at hnull hconstruct hfresh
    refine ⟨_, _, a + 1, emplaceBack_eq hnull hfresh rfl hconstruct, ?_, ?_, rfl, rfl⟩
    · rw [h.size] at hconstruct ⊢
      refine h.concat hshows (.alloc hfirst) (by omega) (Nat.le_succ a) (by omega) fun i hi => ?_
      omega
    · exact sameBlocks_set (fun hlt => absurd hlt (by rw [h.size]; omega)) rfl h.bound

theorem popBack_eq {heap heap' : Heap} {entities : Vector (Option (Block α)) 31} {b b' : Block α}
    (hsize : v.totalSize ≠ 0) (hentities : v.freeNext = some entities)
    (hb : entities[v.totalSize.log2]? = some (some b))
    (hb' : b.destruct (v.totalSize ^^^ 2 ^ v.totalSize.log2) heap = some (b', heap')) :
    v.popBack heap = some (
      { entities := entities.setIfInBounds v.totalSize.log2 (some b')
        totalSize := v.totalSize - 1 },
      heap') := by
  simp [popBack, guard, hsize, hentities, hb, hb']

/-- What is kept when the last of the elements goes. -/
theorem Holds.freeNext {e : Element α} (h : v.Holds (l ++ [e]) a) (hsize : l.length + 1 ≠ 2 ^ 30) :
    ∃ entities a', v.freeNext = some entities ∧ a' ≤ a ∧ Doubling.Reserve l.length a' ∧
      (l.length + 1).log2 < a' ∧ (∀ i < a', entities[i]? = v.entities[i]?) ∧
      ∀ i, a' ≤ i → i < 31 → entities[i]? = some none := by
  have hne : l.length + 1 ≠ 0 := Nat.succ_ne_zero _
  have hlength : v.totalSize = l.length + 1 := by rw [h.size, List.length_append,
    List.length_singleton]
  have hreserve := h.reserve
  rw [List.length_append, List.length_singleton] at hreserve
  have hbound := h.bound
  have hindex : (l.length + 1).log2 < a := (Nat.log2_lt hne).mpr hreserve.1
  have hand : (l.length + 1) &&& l.length = 0 ↔ l.length + 1 = 2 ^ (l.length + 1).log2 :=
    Doubling.and_pred_eq_zero_iff hne
  rw [StableVector.freeNext, hlength, Nat.add_sub_cancel, Nat.and_comm]
  by_cases hfirst : l.length + 1 = 2 ^ (l.length + 1).log2
  · rw [if_pos (hand.mpr hfirst)]
    obtain ⟨ha, hreserve'⟩ := hreserve.pop_first hfirst
    generalize (l.length + 1).log2 = k at *
    have hk : k ≠ 30 := by
      rintro rfl
      exact hsize hfirst
    rcases ha with rfl | rfl
    · rw [h.null (k + 1) (Nat.le_refl _) (by omega)]
      exact ⟨_, k + 1, rfl, Nat.le_refl _, hreserve', hindex, fun i _ => rfl, h.null⟩
    · obtain ⟨b, hb, -⟩ := h.block (k + 1) (Nat.lt_succ_self _)
      rw [hb]
      refine ⟨_, k + 1, rfl, Nat.le_succ _, hreserve', Nat.lt_succ_self k, fun i hi => ?_,
        fun i hi hi' => ?_⟩
      · rw [Vector.getElem?_setIfInBounds, if_neg (by omega)]
      · rw [Vector.getElem?_setIfInBounds]
        split
        · rw [if_pos (by omega)]
        · exact h.null i (by omega) hi'
  · rw [if_neg (mt hand.mp hfirst)]
    exact ⟨_, a, rfl, Nat.le_refl a, hreserve.pop hfirst, hindex, fun i _ => rfl, h.null⟩

theorem Holds.popBack {e : Element α} (h : v.Holds (l ++ [e]) a) (hsize : l.length + 1 ≠ 2 ^ 30)
    (heap : Heap) :
    ∃ v' a', v.popBack heap =
        some (v', { heap with destroyed := heap.destroyed ++ [e.id] }) ∧
      v'.Holds l a' ∧ SameBlocks v v' a' := by
  obtain ⟨entities, a', hentities, ha, hreserve, hindex, hsame, hnull⟩ := h.freeNext hsize
  have hlength : v.totalSize = l.length + 1 := by rw [h.size, List.length_append,
    List.length_singleton]
  have hbound := h.bound
  obtain ⟨b, hb, hshows⟩ := h.block _ (Nat.lt_of_lt_of_le hindex ha)
  obtain ⟨hdestruct, hshows'⟩ := hshows.destruct rfl heap
  rw [← hsame _ hindex] at hb
  refine ⟨_, a', popBack_eq (hlength ▸ Nat.succ_ne_zero _) hentities (hlength.symm ▸ hb)
    (hlength.symm ▸ hdestruct), ?_, ?_⟩
  · rw [hlength, Nat.add_sub_cancel]
    exact {
      size := rfl
      reserve := hreserve
      bound := Nat.le_trans ha hbound
      block := fun i hi => by
        rw [Vector.getElem?_setIfInBounds]
        by_cases heq : (l.length + 1).log2 = i
        · subst heq
          rw [if_pos rfl, if_pos (by omega)]
          exact ⟨_, rfl, hshows'⟩
        · rw [if_neg heq, hsame i hi]
          obtain ⟨b', hb', hshows⟩ := h.block i (Nat.lt_of_lt_of_le hi ha)
          exact ⟨b', hb', (shows_concat_iff heq).mp hshows⟩
      null := fun i hi hi' => by
        rw [Vector.getElem?_setIfInBounds, if_neg (by omega)]
        exact hnull i hi hi' }
  · intro i hi
    dsimp only
    rw [hlength, Vector.getElem?_setIfInBounds]
    split
    · rename_i heq
      subst heq
      rw [← hsame _ hi, hb, if_pos (by omega)]
      rfl
    · rw [hsame i hi]

end Step

/-! ### Elements and their slots -/

section Slots

variable {v v' v'' : StableVector α} {heap heap' heap'' : Heap} {l l' l'' : List (Element α)}
  {a : ℕ}

/-- The elements of the vector are those of the list. -/
def Elements (v : StableVector α) (l : List (Element α)) : Prop := ∃ a, v.Holds l a

theorem Elements.size (h : v.Elements l) : v.totalSize = l.length := by
  obtain ⟨a, h⟩ := h
  exact h.size

theorem Elements.length_lt (h : v.Elements l) : l.length < 2 ^ 31 := by
  obtain ⟨a, h⟩ := h
  exact Nat.lt_of_lt_of_le h.reserve.1 (Nat.pow_le_pow_right (by decide) h.bound)

/-- The slot of a position: the address of its block, and the offset. -/
def slotOf (v : StableVector α) (i : ℕ) : Option (ℕ × ℕ) :=
  ((v.entities[(i + 1).log2]?).map (Option.map Block.addr)).bind fun addr =>
    addr.map fun addr => (addr, (i + 1) ^^^ 2 ^ (i + 1).log2)

theorem SameBlocks.slotOf (h : SameBlocks v v' a) {i n : ℕ} (hn : Doubling.Reserve n a)
    (hi : i < n) : v'.slotOf i = v.slotOf i := by
  have hlt : i + 1 < 2 ^ a := Nat.lt_of_le_of_lt hi hn.1
  rw [StableVector.slotOf, StableVector.slotOf, h _ ((Nat.log2_lt (Nat.succ_ne_zero i)).mpr hlt)]

/-- What operations do to elements. -/
structure Steps (v : StableVector α) (heap : Heap) (l : List (Element α)) (v' : StableVector α)
    (heap' : Heap) (l' : List (Element α)) : Prop where
  /-- Elements are constructed. -/
  constructed : heap.constructed ≤ heap'.constructed
  /-- Those that were there and still are have not moved. -/
  old : ∀ k e, l'[k]? = some e → e.id < heap.constructed → l[k]? = some e ∧ v'.slotOf k = v.slotOf k
  /-- Each one that was constructed is in the vector or has been destroyed. -/
  balance : (heap'.destroyed ++ l'.map Element.id).Perm
    (heap.destroyed ++ l.map Element.id ++
      List.range' heap.constructed (heap'.constructed - heap.constructed))

theorem Steps.refl (v : StableVector α) (heap : Heap) (l : List (Element α)) :
    Steps v heap l v heap l where
  constructed := Nat.le_refl _
  old _ _ he _ := ⟨he, rfl⟩
  balance := by
    rw [Nat.sub_self, List.range'_zero, List.append_nil]

theorem Steps.trans (h : Steps v heap l v' heap' l') (h' : Steps v' heap' l' v'' heap'' l'') :
    Steps v heap l v'' heap'' l'' where
  constructed := Nat.le_trans h.constructed h'.constructed
  old k e he hid := by
    obtain ⟨he', hslot'⟩ := h'.old k e he (Nat.lt_of_lt_of_le hid h.constructed)
    obtain ⟨he, hslot⟩ := h.old k e he' hid
    exact ⟨he, hslot'.trans hslot⟩
  balance := by
    refine h'.balance.trans ((h.balance.append_right _).trans (List.Perm.of_eq ?_))
    have hle := h.constructed
    have hle' := h'.constructed
    rw [List.append_assoc, show heap''.constructed - heap.constructed =
      heap'.constructed - heap.constructed + (heap''.constructed - heap'.constructed) by omega,
      ← List.range'_append_1, Nat.add_sub_of_le hle]

/-- The elements constructed before and those constructed since. -/
theorem range_append_range' {m n : ℕ} (h : m ≤ n) :
    List.range m ++ List.range' m (n - m) = List.range n := by
  have hrange := List.range'_append_1 (s := 0) (m := m) (n := n - m)
  rwa [Nat.zero_add, Nat.add_sub_of_le h, ← List.range_eq_range', ← List.range_eq_range'] at hrange

theorem Elements.emplaceBack (h : v.Elements l) (hsize : l.length + 1 < 2 ^ 31) (x : α)
    (heap : Heap) :
    ∃ v' heap', v.emplaceBack x heap = some (v', heap') ∧
      v'.Elements (l ++ [⟨heap.constructed, x⟩]) ∧
      Steps v heap l v' heap' (l ++ [⟨heap.constructed, x⟩]) := by
  obtain ⟨a, h⟩ := h
  obtain ⟨v', heap', a', hemplace, h', hsame, hconstructed, hdestroyed⟩ :=
    h.emplaceBack hsize x heap
  refine ⟨v', heap', hemplace, ⟨a', h'⟩, ⟨by omega, fun k e he hid => ?_, ?_⟩⟩
  · rcases Nat.lt_or_ge k l.length with hk | hk
    · rw [List.getElem?_append_left hk] at he
      exact ⟨he, hsame.slotOf h.reserve hk⟩
    · rw [List.getElem?_append_right hk, List.getElem?_singleton] at he
      split at he
      · cases he
        exact absurd hid (Nat.lt_irrefl _)
      · cases he
  · rw [hdestroyed, hconstructed, Nat.add_sub_cancel_left, List.map_append, List.append_assoc]
    exact List.Perm.refl _

theorem Elements.popBack {e : Element α} (h : v.Elements (l ++ [e])) (hsize : l.length + 1 ≠ 2 ^ 30)
    (heap : Heap) :
    ∃ v' heap', v.popBack heap = some (v', heap') ∧ v'.Elements l ∧
      Steps v heap (l ++ [e]) v' heap' l := by
  obtain ⟨a, h⟩ := h
  obtain ⟨v', a', hpop, h', hsame⟩ := h.popBack hsize heap
  refine ⟨v', _, hpop, ⟨a', h'⟩, ⟨Nat.le_refl _, fun k e he hid => ?_, ?_⟩⟩
  · have hk := (List.getElem?_eq_some_iff.mp he).1
    refine ⟨?_, hsame.slotOf h'.reserve hk⟩
    rw [List.getElem?_append_left hk, he]
  · rw [Nat.sub_self, List.range'_zero, List.append_nil, List.map_append, List.append_assoc]
    exact (List.perm_append_comm).append_left _

end Slots

/-! ### All operations -/

section Ops

variable {v : StableVector α} {l : List (Element α)}

/-- An operation that stays inside `entities` at this size: no construction in block `31`, and no
look at block `31` from the first element of block `30`. -/
def Op.Fits (n : ℕ) : Op α → Prop
  | .emplaceBack _ => n + 1 < 2 ^ 31
  | .popBack => n ≠ 0 ∧ n ≠ 2 ^ 30
  | .resize newSize => (n < newSize → newSize < 2 ^ 31) ∧ ¬ (newSize < 2 ^ 30 ∧ 2 ^ 30 ≤ n)

instance (n : ℕ) (op : Op α) : Decidable (op.Fits n) :=
  match op with
  | .emplaceBack _ => inferInstanceAs (Decidable (n + 1 < 2 ^ 31))
  | .popBack => inferInstanceAs (Decidable (n ≠ 0 ∧ n ≠ 2 ^ 30))
  | .resize newSize =>
    inferInstanceAs
      (Decidable ((n < newSize → newSize < 2 ^ 31) ∧ ¬ (newSize < 2 ^ 30 ∧ 2 ^ 30 ≤ n)))

/-- The same operation on a list. -/
def Op.onList [Inhabited α] (l : List α) : Op α → List α
  | .emplaceBack x => l ++ [x]
  | .popBack => l.dropLast
  | .resize newSize => l.take newSize ++ List.replicate (newSize - l.length) default

theorem Elements.grow [Inhabited α] (h : v.Elements l) (missing : ℕ)
    (hsize : l.length + missing < 2 ^ 31) (heap : Heap) :
    ∃ v' heap' l', StableVector.grow missing v heap = some (v', heap') ∧ v'.Elements l' ∧
      Steps v heap l v' heap' l' ∧
      l'.map Element.value = l.map Element.value ++ List.replicate missing default := by
  induction missing generalizing v l heap with
  | zero => exact ⟨v, heap, l, rfl, h, .refl v heap l, (List.append_nil _).symm⟩
  | succ missing ih =>
    obtain ⟨v₁, heap₁, hemplace, h₁, hsteps₁⟩ := h.emplaceBack (by omega) default heap
    obtain ⟨v₂, heap₂, l₂, hgrow, h₂, hsteps₂, hvalues⟩ := ih h₁
      (by rw [List.length_append, List.length_singleton]; omega) heap₁
    refine ⟨v₂, heap₂, l₂, ?_, h₂, hsteps₁.trans hsteps₂, ?_⟩
    · rw [StableVector.grow, hemplace]
      exact hgrow
    · rw [hvalues, List.map_append, List.append_assoc, List.replicate_succ]
      rfl

theorem Elements.shrink (h : v.Elements l) (surplus : ℕ) (hle : surplus ≤ l.length)
    (hsize : ¬ (l.length - surplus < 2 ^ 30 ∧ 2 ^ 30 ≤ l.length)) (heap : Heap) :
    ∃ v' heap', StableVector.shrink surplus v heap = some (v', heap') ∧
      v'.Elements (l.take (l.length - surplus)) ∧
      Steps v heap l v' heap' (l.take (l.length - surplus)) := by
  induction surplus generalizing v l heap with
  | zero =>
    rw [Nat.sub_zero, List.take_length]
    exact ⟨v, heap, rfl, h, .refl v heap l⟩
  | succ surplus ih =>
    obtain ⟨l, e, rfl⟩ : ∃ l₀ e, l = l₀ ++ [e] :=
      ⟨_, _, (List.dropLast_append_getLast (List.ne_nil_of_length_pos (by omega))).symm⟩
    rw [List.length_append, List.length_singleton] at hle hsize ⊢
    obtain ⟨v₁, heap₁, hpop, h₁, hsteps₁⟩ := h.popBack (by omega) heap
    obtain ⟨v₂, heap₂, hshrink, h₂, hsteps₂⟩ := ih h₁ (by omega) (by omega) heap₁
    rw [show l.length + 1 - (surplus + 1) = l.length - surplus by omega,
      List.take_append_of_le_length (by omega)]
    refine ⟨v₂, heap₂, ?_, h₂, hsteps₁.trans hsteps₂⟩
    rw [StableVector.shrink, hpop]
    exact hshrink

/-- An operation inside `entities` does what it does on a list. -/
theorem Elements.apply [Inhabited α] (h : v.Elements l) {op : Op α} (hop : op.Fits l.length)
    (heap : Heap) :
    ∃ v' heap' l', v.apply heap op = some (v', heap') ∧ v'.Elements l' ∧
      Steps v heap l v' heap' l' ∧
      l'.map Element.value = op.onList (l.map Element.value) := by
  cases op with
  | emplaceBack x =>
    obtain ⟨v', heap', hemplace, h', hsteps⟩ := h.emplaceBack hop x heap
    exact ⟨v', heap', _, hemplace, h', hsteps, List.map_append⟩
  | popBack =>
    obtain ⟨l, e, rfl⟩ : ∃ l₀ e, l = l₀ ++ [e] :=
      ⟨_, _, (List.dropLast_append_getLast (List.ne_nil_of_length_pos
        (Nat.pos_of_ne_zero hop.1))).symm⟩
    have hlength := hop.2
    rw [List.length_append, List.length_singleton] at hlength
    obtain ⟨v', heap', hpop, h', hsteps⟩ := h.popBack hlength heap
    refine ⟨v', heap', l, hpop, h', hsteps, ?_⟩
    rw [Op.onList, List.map_append, List.map_singleton, List.dropLast_concat]
  | resize newSize =>
    rcases Nat.le_total l.length newSize with hle | hle
    · have hlt : l.length + (newSize - l.length) < 2 ^ 31 := by
        rw [Nat.add_sub_of_le hle]
        rcases Nat.lt_or_eq_of_le hle with hlt | heq
        · exact hop.1 hlt
        · exact heq ▸ h.length_lt
      obtain ⟨v', heap', l', hgrow, h', hsteps, hvalues⟩ := h.grow (newSize - l.length) hlt heap
      have hlength : v'.totalSize = newSize := by
        rw [h'.size, ← List.length_map Element.value, hvalues, List.length_append,
          List.length_map, List.length_replicate]
        omega
      refine ⟨v', heap', l', ?_, h', hsteps, ?_⟩
      · show v.resize newSize heap = _
        rw [StableVector.resize, h.size, hgrow]
        show StableVector.shrink (v'.totalSize - newSize) v' heap' = _
        rw [hlength, Nat.sub_self, StableVector.shrink]
      · rw [hvalues, Op.onList, List.length_map, List.take_of_length_le]
        rwa [List.length_map]
    · have hsub : l.length - (l.length - newSize) = newSize := by omega
      obtain ⟨v', heap', hshrink, h', hsteps⟩ :=
        h.shrink (l.length - newSize) (by omega) (by rw [hsub]; exact hop.2) heap
      rw [hsub] at h' hsteps
      refine ⟨v', heap', _, ?_, h', hsteps, ?_⟩
      · show v.resize newSize heap = _
        rw [StableVector.resize, h.size, Nat.sub_eq_zero_of_le hle]
        show StableVector.shrink (v.totalSize - newSize) v heap = _
        rw [h.size, hshrink]
      · rw [Op.onList, List.length_map, Nat.sub_eq_zero_of_le hle, List.map_take]
        exact (List.append_nil _).symm

/-! ### Operations that have a result -/

variable {v' : StableVector α} {heap heap' : Heap}

theorem emplaceBack_some {x : α} (h : v.emplaceBack x heap = some (v', heap')) :
    v.totalSize + 1 < 2 ^ 31 ∧ v'.totalSize = v.totalSize + 1 := by
  rw [emplaceBack] at h
  obtain ⟨entity, hentity, h⟩ := Option.bind_eq_some_iff.mp h
  have hindex : (v.totalSize + 1).log2 < 31 := (Vector.getElem?_eq_some_iff.mp hentity).1
  refine ⟨(Nat.log2_lt (Nat.succ_ne_zero _)).mp hindex, ?_⟩
  dsimp only at h
  split at h
  · obtain ⟨b, -, h⟩ := Option.bind_eq_some_iff.mp h
    obtain ⟨b', -, h⟩ := Option.bind_eq_some_iff.mp h
    cases h
    rfl
  · obtain ⟨b, -, h⟩ := Option.bind_eq_some_iff.mp h
    obtain ⟨b', -, h⟩ := Option.bind_eq_some_iff.mp h
    cases h
    rfl

theorem popBack_some (h : v.popBack heap = some (v', heap')) :
    v.totalSize ≠ 0 ∧ v.totalSize ≠ 2 ^ 30 ∧ v'.totalSize = v.totalSize - 1 := by
  rw [popBack] at h
  obtain ⟨_, hsize, h⟩ := Option.bind_eq_some_iff.mp h
  obtain ⟨entities, hentities, h⟩ := Option.bind_eq_some_iff.mp h
  obtain ⟨entity, -, h⟩ := Option.bind_eq_some_iff.mp h
  obtain ⟨b, -, h⟩ := Option.bind_eq_some_iff.mp h
  obtain ⟨⟨b', heap''⟩, -, h⟩ := Option.bind_eq_some_iff.mp h
  cases h
  refine ⟨?_, fun hbig => ?_, rfl⟩
  · intro hzero
    simp [guard, hzero] at hsize
  · -- there is no block 31
    have hnone : v.entities[(2 ^ 30).log2 + 1]? = none := by
      rw [Nat.log2_two_pow]
      exact Vector.getElem?_eq_none (Nat.le_refl 31)
    rw [freeNext, hbig, hnone, if_pos (by decide)] at hentities
    cases hentities

theorem grow_some [Inhabited α] {missing : ℕ} (h : grow missing v heap = some (v', heap')) :
    (0 < missing → v.totalSize + missing < 2 ^ 31) ∧ v'.totalSize = v.totalSize + missing := by
  induction missing generalizing v heap with
  | zero =>
    cases h
    exact ⟨nofun, rfl⟩
  | succ missing ih =>
    obtain ⟨⟨v₁, heap₁⟩, hemplace, h⟩ := Option.bind_eq_some_iff.mp h
    obtain ⟨hlt, hsize⟩ := emplaceBack_some hemplace
    obtain ⟨hlt', hsize'⟩ := ih h
    refine ⟨fun _ => ?_, by omega⟩
    rcases Nat.eq_zero_or_pos missing with rfl | hpos
    · exact hlt
    · have := hlt' hpos
      omega

theorem shrink_some {surplus : ℕ} (h : shrink surplus v heap = some (v', heap')) :
    ¬ (v.totalSize - surplus < 2 ^ 30 ∧ 2 ^ 30 ≤ v.totalSize) := by
  induction surplus generalizing v heap with
  | zero => omega
  | succ surplus ih =>
    obtain ⟨⟨v₁, heap₁⟩, hpop, h⟩ := Option.bind_eq_some_iff.mp h
    obtain ⟨hpos, hne, hsize⟩ := popBack_some hpop
    have := ih h
    omega

theorem fits_of_apply [Inhabited α] {op : Op α} (h : v.apply heap op = some (v', heap')) :
    op.Fits v.size := by
  cases op with
  | emplaceBack x => exact (emplaceBack_some h).1
  | popBack => exact ⟨(popBack_some h).1, (popBack_some h).2.1⟩
  | resize newSize =>
    obtain ⟨⟨v₁, heap₁⟩, hgrow, hshrink⟩ := Option.bind_eq_some_iff.mp h
    obtain ⟨hlt, hsize⟩ := grow_some hgrow
    have hpops := shrink_some hshrink
    rw [hsize] at hpops
    show (v.totalSize < newSize → newSize < 2 ^ 31) ∧
      ¬ (newSize < 2 ^ 30 ∧ 2 ^ 30 ≤ v.totalSize)
    refine ⟨fun hless => ?_, ?_⟩
    · have := hlt (by omega)
      omega
    · omega

end Ops

end StableVector

end Storage

end LTest
