import CodeAtlas.Stream.CircularBuffer

/-!
# Circular buffers as lists

Each operation on a circular buffer, seen through `toList`: the items from front to back.  An operation that
can fail has two statements, what it does to the view when it succeeds and exactly when it fails.
-/

namespace CodeAtlas.CircularBuffer

variable {α : Type}

/-! ## Places -/

/-- Places up to the capacity wrap around at most once. -/
theorem slot_eq (b : CircularBuffer α) {i : Nat} (hi : i ≤ b.slots.size) :
    b.slot i = if b.head + i < b.slots.size then b.head + i else b.head + i - b.slots.size := by
  have hh := b.head_lt
  by_cases h : b.head + i < b.slots.size
  · rw [if_pos h, slot, Nat.mod_eq_of_lt h]
  · rw [if_neg h, slot, Nat.mod_eq_sub_mod (by omega), Nat.mod_eq_of_lt (by omega)]

/-- Different places below the capacity are different slots. -/
theorem slot_ne (b : CircularBuffer α) {i j : Nat} (hij : i < j) (hj : j < b.slots.size) :
    b.slot i ≠ b.slot j := by
  have hh := b.head_lt
  rw [b.slot_eq (i := i) (by omega), b.slot_eq (i := j) (by omega)]
  split <;> split <;> omega

/-- What lies at a place, by the number of its slot. -/
theorem slots_getElem? (b : CircularBuffer α) (i : Nat) : b.slots[b.slot i]? = some (b.item i) := by
  rw [item, Array.getElem?_eq_getElem (b.slot_lt i)]

/-- Two buffers hold the same at places whose slots hold the same. -/
theorem item_eq_of_slots {b c : CircularBuffer α} {i j : Nat}
    (h : c.slots[c.slot i]? = b.slots[b.slot j]?) : c.item i = b.item j := by
  rw [slots_getElem?, slots_getElem?] at h
  exact Option.some.inj h

/-! ## The view -/

/-- An item of the view. -/
theorem getElem?_toList (b : CircularBuffer α) (i : Nat) :
    b.toList[i]? = if i < b.size then some (b.item i) else none := by
  by_cases h : i < b.size
  · simp [toList, h]
  · simp [toList, h]

/-- The view of a fresh buffer is empty. -/
@[simp] theorem toList_withCapacity [Inhabited α] (n : Nat) :
    (withCapacity n : CircularBuffer α).toList = [] := rfl

/-- The view of a cleared buffer is empty. -/
@[simp] theorem toList_clear (b : CircularBuffer α) : b.clear.toList = [] := rfl

/-- A fresh buffer has the slots asked for, and at least one. -/
@[simp] theorem capacity_withCapacity [Inhabited α] (n : Nat) :
    (withCapacity n : CircularBuffer α).capacity = max n 1 := by
  simp [withCapacity, capacity]

/-- Clearing keeps the slots. -/
@[simp] theorem capacity_clear (b : CircularBuffer α) : b.clear.capacity = b.capacity := rfl

/-! ## Adding items -/

/-- A buffer refuses an item at the back exactly when it is full. -/
theorem pushBack_eq_error_iff {b : CircularBuffer α} {a : α} {f : StreamFault} :
    b.pushBack a = .error f ↔ b.toList.length = b.capacity ∧ f = .full b.capacity := by
  have hs := b.size_le
  unfold pushBack
  split
  · simp only [length_toList, capacity, reduceCtorEq, false_iff, not_and]
    omega
  · simp only [length_toList, capacity, Except.error.injEq]
    constructor
    · intro h
      exact ⟨by omega, h.symm⟩
    · intro h
      exact h.2.symm

/-- An item added at the back is the last of the view. -/
theorem toList_of_pushBack {b c : CircularBuffer α} {a : α} (h : b.pushBack a = .ok c) :
    c.toList = b.toList ++ [a] ∧ c.capacity = b.capacity := by
  unfold pushBack at h
  split at h
  case isFalse => cases h
  case isTrue hlt =>
    cases h
    refine ⟨?_, by simp [capacity]⟩
    simp only [toList, List.range_succ, List.map_append, List.map_cons, List.map_nil]
    congr 1
    · apply List.map_congr_left
      intro i hi
      have hi' : i < b.size := List.mem_range.1 hi
      apply item_eq_of_slots
      have hne := b.slot_ne hi' hlt
      simp only [slot, Array.size_set] at hne ⊢
      rw [Array.getElem?_set_ne _ (fun e => hne e.symm)]
    · simp only [item, slot, Array.size_set, Array.getElem_set_self]

/-- A buffer refuses an item at the front exactly when it is full. -/
theorem pushFront_eq_error_iff {b : CircularBuffer α} {a : α} {f : StreamFault} :
    b.pushFront a = .error f ↔ b.toList.length = b.capacity ∧ f = .full b.capacity := by
  have hs := b.size_le
  unfold pushFront
  split
  · simp only [length_toList, capacity, reduceCtorEq, false_iff, not_and]
    omega
  · simp only [length_toList, capacity, Except.error.injEq]
    constructor
    · intro h
      exact ⟨by omega, h.symm⟩
    · intro h
      exact h.2.symm

/-- An item added at the front is the first of the view. -/
theorem toList_of_pushFront {b c : CircularBuffer α} {a : α} (h : b.pushFront a = .ok c) :
    c.toList = a :: b.toList ∧ c.capacity = b.capacity := by
  unfold pushFront at h
  split at h
  case isFalse => cases h
  case isTrue hlt =>
    have hh := b.head_lt
    have hback : b.slot (b.slots.size - 1) = if b.head = 0 then b.slots.size - 1 else b.head - 1 := by
      rw [b.slot_eq (by omega)]
      split <;> split <;> omega
    cases h
    refine ⟨?_, by simp [capacity]⟩
    simp only [toList, List.range_succ_eq_map, List.map_cons, List.map_map]
    congr 1
    · have hmod := Nat.mod_eq_of_lt (b.slot_lt (b.slots.size - 1))
      simp only [item, slot, Array.size_set, Nat.add_zero] at hmod ⊢
      simp only [hmod, Array.getElem_set_self]
    · apply List.map_congr_left
      intro i hi
      have hi' : i < b.size := List.mem_range.1 hi
      have hnext : (b.slot (b.slots.size - 1) + (i + 1)) % b.slots.size = b.slot i := by
        rw [slot, Nat.mod_add_mod, slot]
        have : b.head + (b.slots.size - 1) + (i + 1) = b.head + i + b.slots.size := by omega
        rw [this, Nat.add_mod_right]
      have hne : b.slot (b.slots.size - 1) ≠ b.slot i := by
        rw [hback, b.slot_eq (i := i) (by omega)]
        split <;> split <;> omega
      apply item_eq_of_slots
      simp only [slot, Array.size_set, Nat.succ_eq_add_one] at hnext hne ⊢
      rw [hnext, Array.getElem?_set_ne _ hne]

/-- Adding items one after the other puts them all at the back of the view. -/
theorem toList_of_pushAll {as : List α} : ∀ {b c : CircularBuffer α}, b.pushAll as = .ok c →
    c.toList = b.toList ++ as ∧ c.capacity = b.capacity := by
  induction as with
  | nil =>
    intro b c h
    cases h
    exact ⟨(List.append_nil _).symm, rfl⟩
  | cons a rest ih =>
    intro b c h
    unfold pushAll at h
    split at h
    case h_2 => cases h
    case h_1 b' hb =>
      obtain ⟨hv, hc⟩ := toList_of_pushBack hb
      obtain ⟨hv', hc'⟩ := ih h
      exact ⟨by rw [hv', hv, List.append_assoc, List.singleton_append], hc'.trans hc⟩

/-- Items that fit are all added. -/
theorem pushAll_isOk {as : List α} : ∀ {b : CircularBuffer α}, b.size + as.length ≤ b.capacity →
    ∃ c, b.pushAll as = .ok c := by
  induction as with
  | nil => exact fun {b} _ => ⟨b, rfl⟩
  | cons a rest ih =>
    intro b h
    rw [List.length_cons] at h
    unfold pushAll
    split
    case h_1 b' hb =>
      obtain ⟨hv, hc⟩ := toList_of_pushBack hb
      have hsize := congrArg List.length hv
      simp only [length_toList, List.length_append, List.length_singleton] at hsize
      exact ih (by omega)
    case h_2 f hb =>
      have hfull := (pushBack_eq_error_iff.1 hb).1
      rw [length_toList] at hfull
      omega

/-! ## Taking items -/

/-- The view is the front item and what is left without it. -/
theorem popFront?_eq (b : CircularBuffer α) :
    b.popFront?.map (fun r => (r.1, r.2.toList)) = b.toList.head?.map fun a => (a, b.toList.tail) := by
  unfold popFront?
  by_cases h : b.size = 0
  · simp [h, toList]
  · obtain ⟨n, hn⟩ := Nat.exists_eq_succ_of_ne_zero h
    rw [if_neg h]
    simp only [Option.map_some, toList, hn, Nat.succ_eq_add_one, Nat.add_sub_cancel,
      List.range_succ_eq_map, List.map_cons, List.head?_cons, List.tail_cons, List.map_map,
      Option.some.injEq, Prod.mk.injEq, true_and]
    apply List.map_congr_left
    intro i _
    apply item_eq_of_slots
    simp only [slot, Nat.mod_add_mod]
    congr 2
    omega

/-- The view is what is left without the back item, and that item. -/
theorem popBack?_eq (b : CircularBuffer α) :
    b.popBack?.map (fun r => (r.1, r.2.toList)) =
      b.toList.getLast?.map fun a => (a, b.toList.dropLast) := by
  unfold popBack?
  by_cases h : b.size = 0
  · simp [h, toList]
  · obtain ⟨n, hn⟩ := Nat.exists_eq_succ_of_ne_zero h
    rw [if_neg h]
    simp only [Option.map_some, toList, hn, Nat.succ_eq_add_one, Nat.add_sub_cancel,
      List.range_succ, List.map_append, List.map_cons, List.map_nil, List.getLast?_append,
      List.getLast?_singleton, Option.some_or, List.dropLast_concat]
    rfl

/-- Dropping items fails exactly when there are too few. -/
theorem discardFront_eq_error_iff {b : CircularBuffer α} {n : Nat} {f : StreamFault} :
    b.discardFront n = .error f ↔ b.toList.length < n ∧ f = .outOfBounds := by
  unfold discardFront
  split
  · simp only [length_toList, reduceCtorEq, false_iff, not_and]
    omega
  · simp only [length_toList, Except.error.injEq]
    constructor
    · intro h
      exact ⟨by omega, h.symm⟩
    · intro h
      exact h.2.symm

/-- Only as many items are dropped as there are. -/
theorem le_of_discardFront {b c : CircularBuffer α} {n : Nat} (h : b.discardFront n = .ok c) :
    n ≤ b.toList.length := by
  refine Nat.le_of_not_lt fun hshort => ?_
  have hfault := discardFront_eq_error_iff.2 ⟨hshort, rfl⟩
  rw [h] at hfault
  cases hfault

/-- Dropping items drops them from the front of the view. -/
theorem toList_of_discardFront {b c : CircularBuffer α} {n : Nat} (h : b.discardFront n = .ok c) :
    c.toList = b.toList.drop n ∧ c.capacity = b.capacity := by
  unfold discardFront at h
  split at h
  case isFalse => cases h
  case isTrue hle =>
    cases h
    refine ⟨?_, rfl⟩
    apply List.ext_getElem?
    intro i
    rw [getElem?_toList, List.getElem?_drop, getElem?_toList]
    by_cases hi : i < b.size - n
    · have hn : n ≠ b.size := by omega
      have hni : n + i < b.size := by omega
      rw [if_pos hi, if_pos hni]
      congr 1
      apply item_eq_of_slots
      simp only [slot, hn, if_false, Nat.mod_add_mod, Nat.add_assoc]
    · have hni : ¬n + i < b.size := by omega
      rw [if_neg hi, if_neg hni]

/-! ## Looking -/

/-- An item is found by its place in the view. -/
theorem get_eq (b : CircularBuffer α) (i : Nat) :
    b.get i = (match b.toList[i]? with
      | some a => .ok a
      | none => .error .outOfBounds) := by
  rw [getElem?_toList, get]
  split <;> rfl

/-- A slice is a stretch of the view. -/
theorem slice_eq (b : CircularBuffer α) (start stop : Nat) :
    b.slice start stop =
      if start ≤ stop ∧ stop ≤ b.toList.length then .ok ((b.toList.take stop).drop start)
      else .error .outOfBounds := by
  rw [slice, length_toList]
  by_cases h : start ≤ stop ∧ stop ≤ b.size
  · rw [if_pos h, if_pos h]
    congr 1
    apply List.ext_getElem?
    intro i
    rw [List.getElem?_drop, List.getElem?_take, getElem?_toList]
    by_cases hi : i < stop - start
    · rw [if_pos (by omega), if_pos (by omega)]
      simp [hi]
    · rw [if_neg (by omega)]
      simp [hi]
  · rw [if_neg h, if_neg h]

/-! ## Growing -/

/-- Growing keeps the view. -/
@[simp] theorem toList_grow [Inhabited α] (b : CircularBuffer α) (n : Nat) :
    (b.grow n).toList = b.toList := by
  unfold grow
  split
  case isFalse => rfl
  case isTrue h =>
    apply List.ext_getElem?
    intro i
    rw [getElem?_toList, getElem?_toList]
    by_cases hi : i < b.size
    · rw [if_pos hi, if_pos hi]
      have hs := b.size_le
      have hview : i < b.toList.length := by
        rw [length_toList]
        exact hi
      have hitem := b.getElem?_toList i
      rw [if_pos hi] at hitem
      rw [← hitem, ← slots_getElem?]
      simp only [slot, b.size_grownSlots h, Nat.zero_add]
      rw [Nat.mod_eq_of_lt (by omega), grownSlots, Array.getElem?_append_left (by simpa using hview),
        List.getElem?_toArray]
    · rw [if_neg hi, if_neg hi]

/-- Growing gives the capacity asked for, and never takes any away. -/
@[simp] theorem capacity_grow [Inhabited α] (b : CircularBuffer α) (n : Nat) :
    (b.grow n).capacity = max n b.capacity := by
  unfold grow
  split
  case isTrue h =>
    simp only [capacity, b.size_grownSlots h]
    omega
  case isFalse h =>
    simp only [capacity] at h ⊢
    omega

end CodeAtlas.CircularBuffer
