import LTest.Storage.StableVector
import Mathlib.Data.List.Induction

/-!
# A stable vector is a list

A new vector after a sequence of `emplace_back`, `pop_back` and `resize`, compared with a list after
the same operations. The sizes are bounded by `2 ^ 30`, where `pop_back` would look beyond the end
of `entities`; below that all operations have a result, whatever the sizes were before.

An element stays in its slot, although the block behind it may come and go: the block that holds an
element is freed only after the element has been destroyed.

## Main definitions

* `StableVector.after`, `StableVector.listAfter` — the vector and the list after a sequence
* `StableVector.Valid` — `pop_back` is called on non-empty vectors, and the sizes are bounded
* `StableVector.Lives` — an element lives in a slot

## Main results

* `StableVector.refines_list` — the vector shows the list, and elements do not move
-/

namespace LTest

namespace Storage

namespace StableVector

variable {α : Type}

/-! ### Reading -/

/-- The element lives in the slot at an address and an offset. -/
def Lives (v : StableVector α) (e : Element α) (slot : ℕ × ℕ) : Prop :=
  ∃ (i : ℕ) (b : Block α), v.entities[i]? = some (some b) ∧ b.addr = slot.1 ∧
    b.slots[slot.2]? = some (some e)

variable {v : StableVector α} {l : List (Element α)} {a : ℕ} {heap : Heap}

/-- A position of the list has its slot in a block. -/
theorem Holds.slot (h : v.Holds l a) {i : ℕ} (hi : i < l.length) :
    ∃ b, v.entities[(i + 1).log2]? = some (some b) ∧
      (i + 1) ^^^ 2 ^ (i + 1).log2 < b.slots.length ∧
      b.slots[(i + 1) ^^^ 2 ^ (i + 1).log2]? = some (l[i]?) := by
  have hne : i + 1 ≠ 0 := Nat.succ_ne_zero i
  have hlt : i + 1 < 2 ^ a := Nat.lt_of_le_of_lt hi h.reserve.1
  obtain ⟨b, hb, hshows⟩ := h.block _ ((Nat.log2_lt hne).mpr hlt)
  have hoffset := Doubling.xor_two_pow_log2_lt hne
  refine ⟨b, hb, hshows.length_slots ▸ hoffset, ?_⟩
  rw [hshows, if_pos hoffset, Doubling.two_pow_log2_add_xor hne, Nat.add_sub_cancel]

theorem Holds.get (h : v.Holds l a) {i : ℕ} (hi : i < l.length) :
    v.get i = (l.map Element.value)[i]? := by
  obtain ⟨b, hb, -, hslot⟩ := h.slot hi
  rw [List.getElem?_map]
  simp only [StableVector.get, hb, hslot, Option.bind_eq_bind, Option.bind_some]

/-- The elements that live in a vector are those of its list, each in the slot of its position. -/
theorem Holds.lives (h : v.Holds l a) {e : Element α} {slot : ℕ × ℕ} (hlives : v.Lives e slot) :
    ∃ k, l[k]? = some e ∧ v.slotOf k = some slot := by
  obtain ⟨i, b, hb, haddr, hslot⟩ := hlives
  have hi : i < a := by
    by_contra hi
    have hi' : i < 31 := (Vector.getElem?_eq_some_iff.mp hb).1
    rw [h.null i (by omega) hi'] at hb
    cases hb
  obtain ⟨b', hb', hshows⟩ := h.block i hi
  obtain rfl : b' = b := Option.some.inj (Option.some.inj (hb'.symm.trans hb))
  rw [hshows] at hslot
  split at hslot
  · rename_i hj
    have hpos := Nat.two_pow_pos i
    have hsucc : 2 ^ i + slot.2 - 1 + 1 = 2 ^ i + slot.2 := by omega
    have hlog : (2 ^ i + slot.2).log2 = i := Doubling.log2_two_pow_add hj
    have hoffset : (2 ^ i + slot.2) ^^^ 2 ^ i = slot.2 := by
      have hxor := Doubling.two_pow_log2_add_xor (m := 2 ^ i + slot.2) (by omega)
      rw [hlog] at hxor
      omega
    refine ⟨2 ^ i + slot.2 - 1, Option.some.inj hslot, ?_⟩
    rw [slotOf, hsucc, hlog, hoffset, hb, Option.map_some, Option.map_some, haddr]
    rfl
  · cases hslot

/-- An element that is still in the vector is still in its slot. -/
theorem Steps.slot_eq {heap' : Heap} {v' : StableVector α} {l' : List (Element α)}
    (hsteps : Steps v heap l v' heap' l') (helements : v.Elements l) (helements' : v'.Elements l')
    (hbalance : (heap.destroyed ++ l.map Element.id).Perm (List.range heap.constructed))
    {e : Element α} {slot slot' : ℕ × ℕ} (hlives : v.Lives e slot) (hlives' : v'.Lives e slot') :
    slot = slot' := by
  obtain ⟨a, helements⟩ := helements
  obtain ⟨a', helements'⟩ := helements'
  obtain ⟨k, hk, hslot⟩ := helements.lives hlives
  obtain ⟨k', hk', hslot'⟩ := helements'.lives hlives'
  have hmem : e.id ∈ heap.destroyed ++ l.map Element.id :=
    List.mem_append_right _ (List.mem_map_of_mem (List.mem_of_getElem? hk))
  obtain ⟨hold, hsame⟩ := hsteps.old k' e hk' (List.mem_range.mp (hbalance.mem_iff.mp hmem))
  -- the element is at one position of the old list only
  have hnodup : (l.map Element.id).Nodup :=
    (List.nodup_append.mp (hbalance.nodup_iff.mpr List.nodup_range)).2.1
  have heq : k = k' := by
    have hlt : k < (l.map Element.id).length := by
      rw [List.length_map]
      exact (List.getElem?_eq_some_iff.mp hk).1
    refine (List.getElem?_inj hlt hnodup).mp ?_
    rw [List.getElem?_map, List.getElem?_map, hk, hold]
  rw [heq, ← hsame, hslot'] at hslot
  exact (Option.some.inj hslot).symm

/-! ### Runs -/

variable [Inhabited α] {ops : List (Op α)}

/-- A new vector after a sequence of operations. -/
def after (ops : List (Op α)) : Option (StableVector α × Heap) :=
  ops.foldlM (fun (s : StableVector α × Heap) op => s.1.apply s.2 op) ({}, {})

/-- An empty list after a sequence of operations. -/
def listAfter (ops : List (Op α)) : List α := ops.foldl Op.onList []

/-- The operation is not a `pop_back` on an empty list, and leaves less than `2 ^ 30` elements. -/
def Op.Permitted (l : List α) (op : Op α) : Prop :=
  (op.onList l).length < 2 ^ 30 ∧
    match op with
    | .popBack => l ≠ []
    | _ => True

instance (l : List α) (op : Op α) : Decidable (op.Permitted l) :=
  match op with
  | .popBack => inferInstanceAs (Decidable (_ ∧ l ≠ []))
  | .emplaceBack _ => inferInstanceAs (Decidable (_ ∧ True))
  | .resize _ => inferInstanceAs (Decidable (_ ∧ True))

/-- All operations of a sequence are permitted. -/
def Valid (l : List α) : List (Op α) → Prop
  | [] => True
  | op :: ops => op.Permitted l ∧ Valid (op.onList l) ops

instance decidableValid : (l : List α) → (ops : List (Op α)) → Decidable (Valid l ops)
  | _, [] => .isTrue trivial
  | l, op :: ops =>
    have := decidableValid (op.onList l) ops
    inferInstanceAs (Decidable (op.Permitted l ∧ Valid (op.onList l) ops))

theorem valid_append {l : List α} {ops' : List (Op α)} :
    Valid l (ops ++ ops') ↔ Valid l ops ∧ Valid (ops.foldl Op.onList l) ops' := by
  induction ops generalizing l with
  | nil => exact (iff_of_eq (true_and _)).symm
  | cons op ops ih =>
    show op.Permitted l ∧ Valid (op.onList l) (ops ++ ops') ↔ _
    rw [ih, ← and_assoc]
    rfl

/-- The state after a sequence. -/
structure Reached (ops : List (Op α)) (v : StableVector α) (heap : Heap)
    (l : List (Element α)) : Prop where
  /-- The sequence leads to it. -/
  after : after ops = some (v, heap)
  /-- It has the elements. -/
  elements : v.Elements l
  /-- Their values are the list. -/
  values : l.map Element.value = listAfter ops
  /-- Each constructed element is there or was destroyed. -/
  balance : (heap.destroyed ++ l.map Element.id).Perm (List.range heap.constructed)

theorem after_append (ops ops' : List (Op α)) : after (ops ++ ops') =
    (after ops).bind (ops'.foldlM fun (s : StableVector α × Heap) op => s.1.apply s.2 op) :=
  List.foldlM_append

theorem Op.Permitted.fits {op : Op α} {l : List α} (h : op.Permitted l) (hl : l.length < 2 ^ 30) :
    op.Fits l.length := by
  cases op with
  | emplaceBack x =>
    show l.length + 1 < 2 ^ 31
    omega
  | popBack => exact ⟨fun hnil => h.2 (List.length_eq_zero_iff.mp hnil), by omega⟩
  | resize newSize =>
    have hlength := h.1
    rw [Op.onList, List.length_append, List.length_take, List.length_replicate] at hlength
    refine ⟨?_, ?_⟩ <;> omega

theorem Valid.length_lt (h : Valid [] ops) : (listAfter ops).length < 2 ^ 30 := by
  obtain rfl | ⟨ops, op, rfl⟩ := ops.eq_nil_or_concat'
  · exact Nat.two_pow_pos 30
  · rw [listAfter, List.foldl_append]
    exact (valid_append.mp h).2.1.1

theorem Reached.init : Reached ([] : List (Op α)) {} {} [] where
  after := rfl
  elements := ⟨0, .init⟩
  values := rfl
  balance := List.Perm.refl _

theorem Reached.step (h : Reached ops v heap l) {op : Op α} (hvalid : Valid [] ops)
    (hop : op.Permitted (listAfter ops)) :
    ∃ v' heap' l', Reached (ops ++ [op]) v' heap' l' ∧ Steps v heap l v' heap' l' := by
  have hlength : l.length = (listAfter ops).length := by rw [← h.values, List.length_map]
  have hfits : op.Fits l.length := hlength ▸ hop.fits hvalid.length_lt
  obtain ⟨v', heap', l', happly, helements, hsteps, hvalues⟩ := h.elements.apply hfits heap
  refine ⟨v', heap', l', ⟨?_, helements, ?_, ?_⟩, hsteps⟩
  · rw [after_append, h.after]
    show (v.apply heap op).bind some = some (v', heap')
    rw [happly, Option.bind_some]
  · rw [hvalues, h.values, listAfter, listAfter, List.foldl_append]
    rfl
  · refine hsteps.balance.trans ((h.balance.append_right _).trans (List.Perm.of_eq ?_))
    exact range_append_range' hsteps.constructed

theorem Reached.append {before : List (Op α)} (h : Reached before v heap l) (rest : List (Op α))
    (hvalid : Valid [] (before ++ rest)) :
    ∃ v' heap' l', Reached (before ++ rest) v' heap' l' ∧ Steps v heap l v' heap' l' := by
  induction rest using List.reverseRecOn with
  | nil =>
    rw [List.append_nil]
    exact ⟨v, heap, l, h, .refl v heap l⟩
  | append_singleton rest op ih =>
    rw [← List.append_assoc] at hvalid ⊢
    obtain ⟨hvalid, hop, -⟩ := valid_append.mp hvalid
    obtain ⟨v₁, heap₁, l₁, h₁, hsteps₁⟩ := ih hvalid
    obtain ⟨v₂, heap₂, l₂, h₂, hsteps₂⟩ := h₁.step hvalid hop
    exact ⟨v₂, heap₂, l₂, h₂, hsteps₁.trans hsteps₂⟩

/-- **A stable vector is a list.** After every prefix of a permitted sequence of operations the
vector has a state, its size and its elements are those of a list after the same operations, and the
slot of each position is inside an allocated block. An element that is in the vector after two
prefixes is in the same slot. -/
theorem refines_list (ops : List (Op α)) (hvalid : Valid [] ops) :
    ∀ before, before <+: ops → ∃ v heap, after before = some (v, heap) ∧
      v.size = (listAfter before).length ∧
      (∀ i < v.size, v.get i = (listAfter before)[i]?) ∧
      (listAfter before ≠ [] → v.back = (listAfter before).getLast?) ∧
      (∀ i < v.size, ∃ b, v.entities[(i + 1).log2]? = some (some b) ∧
        (i + 1) ^^^ 2 ^ (i + 1).log2 < b.slots.length) ∧
      ∀ rest v' heap', before ++ rest <+: ops → after (before ++ rest) = some (v', heap') →
        ∀ e slot slot', v.Lives e slot → v'.Lives e slot' → slot = slot' := by
  intro before hbefore
  have hvalids {before : List (Op α)} (hbefore : before <+: ops) : Valid [] before := by
    obtain ⟨rest, rfl⟩ := hbefore
    exact (valid_append.mp hvalid).1
  obtain ⟨v, heap, l, h, -⟩ := Reached.init.append before (hvalids hbefore)
  rw [List.nil_append] at h
  have ⟨a, hholds⟩ := h.elements
  have hsize : v.size = l.length := hholds.size
  have hlength : l.length = (listAfter before).length := by rw [← h.values, List.length_map]
  refine ⟨v, heap, h.after, hsize.trans hlength, fun i hi => ?_, fun hne => ?_, fun i hi => ?_,
    fun rest v' heap' hrest hafter e slot slot' hlives hlives' => ?_⟩
  · rw [← h.values]
    exact hholds.get (hsize ▸ hi)
  · have hpos : 0 < l.length := hlength ▸ List.length_pos_iff.mpr hne
    rw [back, hholds.size, hholds.get (by omega), List.getLast?_eq_getElem?, h.values, hlength]
  · obtain ⟨b, hb, hlt, -⟩ := hholds.slot (hsize ▸ hi)
    exact ⟨b, hb, hlt⟩
  · obtain ⟨v₁, heap₁, l₁, h₁, hsteps⟩ := h.append rest (hvalids hrest)
    obtain ⟨rfl, rfl⟩ := Prod.mk.inj (Option.some.inj (h₁.after.symm.trans hafter))
    exact hsteps.slot_eq h.elements h₁.elements h.balance hlives hlives'

/-- Four elements, of which the second is destroyed and constructed anew: the size moves over two
powers of two and back, and the block of the second element stays for its successor. -/
theorem refines_list_four :
    Valid [] ([.emplaceBack 5, .emplaceBack 6, .popBack, .resize 4, .resize 1] : List (Op ℕ)) ∧
    ∃ v heap, after ([.emplaceBack 5, .emplaceBack 6, .popBack, .resize 4] : List (Op ℕ)) =
        some (v, heap) ∧ v.size = 4 ∧ v.get 0 = some 5 ∧ v.back = some 0 := by
  refine ⟨by decide, ?_⟩
  obtain ⟨v, heap, hafter, hsize, hget, hback, -⟩ :=
    refines_list [.emplaceBack 5, .emplaceBack 6, .popBack, .resize 4, .resize 1] (by decide)
      [.emplaceBack 5, .emplaceBack 6, .popBack, .resize 4] ⟨[.resize 1], rfl⟩
  exact ⟨v, heap, hafter, hsize, hget 0 (hsize ▸ by decide), hback (by decide)⟩

end StableVector

end Storage

end LTest
