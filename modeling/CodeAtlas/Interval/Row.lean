/-!
# Sorted rows

Sets and maps keep their intervals in ascending order in an array.  A place in the row is found by
bisection (`Row.partitionPoint`), and a change replaces a stretch of the row by new items (`Row.Edit`).
-/

namespace CodeAtlas.Row

universe u

variable {α : Type u}

/-- Halves the stretch from `lo` up to `hi` until it is empty, keeping a place where `p` turns false: places
with `p` true are left behind, others cut off. -/
def bisect (p : Nat → Bool) (lo hi : Nat) : Nat :=
  if lo < hi then
    let mid := lo + (hi - lo) / 2
    if p mid then bisect p (mid + 1) hi else bisect p lo mid
  else lo
termination_by hi - lo

/-- The first place of a row whose item does not satisfy `p`, if all items that satisfy `p` stand before all
that do not. -/
def partitionPoint (row : Array α) (p : α → Bool) : Nat :=
  bisect (fun i => row[i]?.any p) 0 row.size

/-- A change of a row: the items from place `start` up to, and without, place `stop` give way to others. -/
structure Edit (α : Type u) where
  start : Nat
  stop : Nat
  items : List α

/-- How many items give way. -/
def Edit.width (e : Edit α) : Nat :=
  e.stop - e.start

/-- Makes the change. -/
def Edit.apply (e : Edit α) (row : Array α) : Array α :=
  row.extract 0 e.start ++ e.items.toArray ++ row.extract e.stop row.size

/-- A changed row, as a list. -/
theorem Edit.toList_apply (e : Edit α) (row : Array α) :
    (e.apply row).toList = row.toList.take e.start ++ e.items ++ row.toList.drop e.stop := by
  simp only [apply, Array.toList_append, Array.toList_extract, List.extract_eq_take_drop, Nat.sub_zero,
    List.drop_zero]
  congr 1
  apply List.take_of_length_le
  simp only [List.length_drop, Array.length_toList]
  omega

end CodeAtlas.Row
