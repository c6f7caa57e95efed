import CodeAtlas.Stream.Fault

/-!
# Circular buffers

A circular buffer keeps up to `capacity` items in a fixed row of slots.  The items occupy consecutive slots
from `head` on, where the first slot follows the last.  Items are added and taken at both ends; a full
buffer refuses new items until it is made to grow.

`CircularBuffer.toList` is the view through which the operations are understood: the items from front to
back.
-/

namespace CodeAtlas

/-- A row of slots with `size` items in it, the first at `head`.  There is at least one slot. -/
structure CircularBuffer (α : Type) where
  slots : Array α
  head : Nat
  size : Nat
  head_lt : head < slots.size
  size_le : size ≤ slots.size

namespace CircularBuffer

variable {α : Type}

/-- The most items the buffer can hold. -/
def capacity (b : CircularBuffer α) : Nat :=
  b.slots.size

/-- Number of free slots. -/
def free (b : CircularBuffer α) : Nat :=
  b.capacity - b.size

/-- Whether there are no items. -/
def isEmpty (b : CircularBuffer α) : Bool :=
  b.size == 0

/-- Whether there are no free slots. -/
def isFull (b : CircularBuffer α) : Bool :=
  b.size == b.capacity

/-- There is at least one slot. -/
theorem capacity_pos (b : CircularBuffer α) : 0 < b.capacity :=
  Nat.lt_of_le_of_lt (Nat.zero_le _) b.head_lt

/-- The slot that lies `i` places after the head. -/
def slot (b : CircularBuffer α) (i : Nat) : Nat :=
  (b.head + i) % b.slots.size

/-- Every place is a slot of the row. -/
theorem slot_lt (b : CircularBuffer α) (i : Nat) : b.slot i < b.slots.size :=
  Nat.mod_lt _ b.capacity_pos

/-- What lies `i` places after the head. -/
def item (b : CircularBuffer α) (i : Nat) : α :=
  have : b.slot i < b.slots.size := b.slot_lt i
  b.slots[b.slot i]

/-- The items from front to back. -/
def toList (b : CircularBuffer α) : List α :=
  (List.range b.size).map b.item

/-- A buffer without items that can hold `capacity` of them, or one if `capacity` is zero. -/
def withCapacity [Inhabited α] (capacity : Nat) : CircularBuffer α where
  slots := Array.replicate (max capacity 1) default
  head := 0
  size := 0
  head_lt := by rw [Array.size_replicate]; exact Nat.lt_of_lt_of_le Nat.one_pos (Nat.le_max_right _ _)
  size_le := Nat.zero_le _

/-- Adds an item at the back. -/
def pushBack (b : CircularBuffer α) (a : α) : Except StreamFault (CircularBuffer α) :=
  if h : b.size < b.slots.size then
    .ok
      { slots := b.slots.set (b.slot b.size) a (b.slot_lt b.size)
        head := b.head
        size := b.size + 1
        head_lt := by rw [Array.size_set]; exact b.head_lt
        size_le := by rw [Array.size_set]; exact h }
  else .error (.full b.capacity)

/-- Adds an item at the front. -/
def pushFront (b : CircularBuffer α) (a : α) : Except StreamFault (CircularBuffer α) :=
  if h : b.size < b.slots.size then
    let head := b.slot (b.slots.size - 1)
    .ok
      { slots := b.slots.set head a (b.slot_lt _)
        head := head
        size := b.size + 1
        head_lt := by rw [Array.size_set]; exact b.slot_lt _
        size_le := by rw [Array.size_set]; exact h }
  else .error (.full b.capacity)

/-- Adds items at the back, one after the other. -/
def pushAll (b : CircularBuffer α) : List α → Except StreamFault (CircularBuffer α)
  | [] => .ok b
  | a :: rest =>
    match b.pushBack a with
    | .ok b' => b'.pushAll rest
    | .error f => .error f

/-- Takes the item at the front. -/
def popFront? (b : CircularBuffer α) : Option (α × CircularBuffer α) :=
  if b.size = 0 then none
  else
    some (b.item 0,
      { slots := b.slots
        head := b.slot 1
        size := b.size - 1
        head_lt := b.slot_lt 1
        size_le := Nat.le_trans (Nat.sub_le _ _) b.size_le })

/-- Takes the item at the back. -/
def popBack? (b : CircularBuffer α) : Option (α × CircularBuffer α) :=
  if b.size = 0 then none
  else
    some (b.item (b.size - 1),
      { b with
        size := b.size - 1
        size_le := Nat.le_trans (Nat.sub_le _ _) b.size_le })

/-- The item `i` places from the front. -/
def get (b : CircularBuffer α) (i : Nat) : Except StreamFault α :=
  if i < b.size then .ok (b.item i) else .error .outOfBounds

/-- Drops the first `n` items. -/
def discardFront (b : CircularBuffer α) (n : Nat) : Except StreamFault (CircularBuffer α) :=
  if n ≤ b.size then
    .ok
      { slots := b.slots
        head := if n = b.size then 0 else b.slot n
        size := b.size - n
        head_lt := by
          split
          · exact b.capacity_pos
          · exact b.slot_lt n
        size_le := Nat.le_trans (Nat.sub_le _ _) b.size_le }
  else .error .outOfBounds

/-- Drops all items. -/
def clear (b : CircularBuffer α) : CircularBuffer α where
  slots := b.slots
  head := 0
  size := 0
  head_lt := b.capacity_pos
  size_le := Nat.zero_le _

/-- The row of slots of a grown buffer: the items from front to back, then unused slots. -/
def grownSlots [Inhabited α] (b : CircularBuffer α) (capacity : Nat) : Array α :=
  b.toList.toArray ++ Array.replicate (capacity - b.size) default

/-- A grown buffer has the slots asked for. -/
theorem size_grownSlots [Inhabited α] (b : CircularBuffer α) {capacity : Nat}
    (h : b.slots.size < capacity) : (b.grownSlots capacity).size = capacity := by
  have hs := b.size_le
  simp only [grownSlots, toList, Array.size_append, List.size_toArray, List.length_map,
    List.length_range, Array.size_replicate]
  omega

/-- Makes room for `capacity` items; the buffer is left alone if it has that much already. -/
def grow [Inhabited α] (b : CircularBuffer α) (capacity : Nat) : CircularBuffer α :=
  if h : b.slots.size < capacity then
    { slots := b.grownSlots capacity
      head := 0
      size := b.size
      head_lt := by rw [b.size_grownSlots h]; exact Nat.lt_of_le_of_lt (Nat.zero_le _) h
      size_le := by
        rw [b.size_grownSlots h]
        exact Nat.le_trans b.size_le (Nat.le_of_lt h) }
  else b

/-- The items from place `start` up to, and without, place `stop`. -/
def slice (b : CircularBuffer α) (start stop : Nat) : Except StreamFault (List α) :=
  if start ≤ stop ∧ stop ≤ b.size then
    .ok ((List.range (stop - start)).map fun i => b.item (start + i))
  else .error .outOfBounds

/-- The view has as many items as the buffer. -/
@[simp] theorem length_toList (b : CircularBuffer α) : b.toList.length = b.size := by
  simp [toList]

end CircularBuffer

end CodeAtlas
