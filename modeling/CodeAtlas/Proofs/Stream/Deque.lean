import CodeAtlas.Stream.CircularBuffer.View

/-!
# A circular buffer is a list with a capacity

Whoever uses a circular buffer sees a plain list: items are added and taken at both ends as long as the capacity
allows it.  Where the items lie in the row of slots, where the head stands and when it goes back to the first slot
does not show.

* `BoundedDeque`, `BoundedDeque.perform` — the list with a capacity, and what each call does to it;
* `CircularBuffer.perform`, `CircularBuffer.perform_refines` — a call does the same to a buffer, seen through its
  view;
* `transcript`, `transcript_refines` — what holds of one call carries over to runs of calls;
* `CircularBuffer.usedSlots`, `CircularBuffer.usesOnly_usedSlots` — the slots that a call uses: no other slot is
  changed, and the answer does not depend on any other;
* `CircularBuffer.refines_bounded_deque` — every run on a buffer is one on a list.
-/

namespace CodeAtlas

variable {α : Type}

/-! ## Calls and answers -/

/-- What a buffer can be asked for. -/
inductive BufferCall (α : Type) where
  | pushBack (a : α)
  | pushFront (a : α)
  | popFront
  | popBack
  | get (place : Nat)
  | discardFront (count : Nat)
  | clear
  | grow (capacity : Nat)
  | items
  | slice (start stop : Nat)

/-- What it answers. -/
inductive BufferAnswer (α : Type) where
  | done
  /-- The item that was taken out, if there was one. -/
  | taken (a : Option α)
  | item (a : α)
  | items (as : List α)
  | refused (f : StreamFault)
deriving DecidableEq

/-- Calls one after the other, with the answers and the state in the end. -/
def transcript {σ : Type} (step : σ → BufferCall α → BufferAnswer α × σ) (s : σ) :
    List (BufferCall α) → List (BufferAnswer α) × σ
  | [] => ([], s)
  | c :: cs =>
    let (answer, next) := step s c
    let (answers, last) := transcript step next cs
    (answer :: answers, last)

/-- If every call does the same to a state and to its view, then so does every run. -/
theorem transcript_refines {σ τ : Type} {step : σ → BufferCall α → BufferAnswer α × σ}
    {step' : τ → BufferCall α → BufferAnswer α × τ} {view : σ → τ}
    (h : ∀ s c, step' (view s) c = ((step s c).1, view (step s c).2)) (cs : List (BufferCall α)) :
    ∀ s, transcript step' (view s) cs = ((transcript step s cs).1, view (transcript step s cs).2) := by
  induction cs with
  | nil =>
    intro s
    rfl
  | cons c cs ih =>
    intro s
    simp only [transcript, h, ih]

/-! ## The list with a capacity -/

/-- A list, and how many items it may have. -/
structure BoundedDeque (α : Type) where
  items : List α
  capacity : Nat

namespace BoundedDeque

/-- The list without items. -/
def withCapacity (capacity : Nat) : BoundedDeque α :=
  ⟨[], max capacity 1⟩

/-- What a call does to the list. -/
def perform (d : BoundedDeque α) : BufferCall α → BufferAnswer α × BoundedDeque α
  | .pushBack a =>
    if d.items.length = d.capacity then (.refused (.full d.capacity), d)
    else (.done, { d with items := d.items ++ [a] })
  | .pushFront a =>
    if d.items.length = d.capacity then (.refused (.full d.capacity), d)
    else (.done, { d with items := a :: d.items })
  | .popFront => (.taken d.items.head?, { d with items := d.items.tail })
  | .popBack => (.taken d.items.getLast?, { d with items := d.items.dropLast })
  | .get place =>
    if h : place < d.items.length then (.item d.items[place], d) else (.refused .outOfBounds, d)
  | .discardFront count =>
    if d.items.length < count then (.refused .outOfBounds, d)
    else (.done, { d with items := d.items.drop count })
  | .clear => (.done, { d with items := [] })
  | .grow capacity => (.done, { d with capacity := max capacity d.capacity })
  | .items => (.items d.items, d)
  | .slice start stop =>
    if stop < start ∨ d.items.length < stop then (.refused .outOfBounds, d)
    else (.items ((d.items.take stop).drop start), d)

end BoundedDeque

/-! ## The buffer -/

namespace CircularBuffer

/-- The state after a call that can be refused: the one before if it is. -/
def settle (b : CircularBuffer α) : Except StreamFault (CircularBuffer α) → BufferAnswer α × CircularBuffer α
  | .ok b' => (.done, b')
  | .error f => (.refused f, b)

/-- The state after an item was taken out, if there was one. -/
def takeOut (b : CircularBuffer α) : Option (α × CircularBuffer α) → BufferAnswer α × CircularBuffer α
  | some (a, b') => (.taken (some a), b')
  | none => (.taken none, b)

/-- What a call does to the buffer. -/
def perform [Inhabited α] (b : CircularBuffer α) : BufferCall α → BufferAnswer α × CircularBuffer α
  | .pushBack a => b.settle (b.pushBack a)
  | .pushFront a => b.settle (b.pushFront a)
  | .popFront => b.takeOut b.popFront?
  | .popBack => b.takeOut b.popBack?
  | .get place =>
    match b.get place with
    | .ok a => (.item a, b)
    | .error f => (.refused f, b)
  | .discardFront count => b.settle (b.discardFront count)
  | .clear => (.done, b.clear)
  | .grow capacity => (.done, b.grow capacity)
  | .items => (.items b.toList, b)
  | .slice start stop =>
    match b.slice start stop with
    | .ok as => (.items as, b)
    | .error f => (.refused f, b)

/-- The list that the buffer stands for. -/
def deque (b : CircularBuffer α) : BoundedDeque α :=
  ⟨b.toList, b.capacity⟩

theorem deque_eq {b : CircularBuffer α} {items : List α} {n : Nat} (hitems : b.toList = items)
    (hcapacity : b.capacity = n) : b.deque = ⟨items, n⟩ := by
  rw [deque, hitems, hcapacity]

theorem length_toList_le (b : CircularBuffer α) : b.toList.length ≤ b.capacity := by
  rw [length_toList]
  exact b.size_le

/-! ### Refinement of one call -/

/-- Adding an item, at whichever end. -/
theorem settle_push {b : CircularBuffer α} {result : Except StreamFault (CircularBuffer α)} {added : List α}
    (herror : ∀ f, result = .error f ↔ b.toList.length = b.capacity ∧ f = .full b.capacity)
    (hok : ∀ b', result = .ok b' → b'.toList = added ∧ b'.capacity = b.capacity) :
    (if b.toList.length = b.capacity then (.refused (.full b.capacity), b.deque)
      else (.done, ⟨added, b.capacity⟩) : BufferAnswer α × BoundedDeque α) =
      ((b.settle result).1, (b.settle result).2.deque) := by
  cases result with
  | ok b' =>
    obtain ⟨hitems, hcapacity⟩ := hok b' rfl
    have hroom : b.toList.length ≠ b.capacity := by
      intro hfull
      cases (herror (.full b.capacity)).2 ⟨hfull, rfl⟩
    rw [if_neg hroom]
    simp only [settle, deque_eq hitems hcapacity]
  | error f =>
    obtain ⟨hfull, rfl⟩ := (herror f).1 rfl
    rw [if_pos hfull]
    rfl

/-- Taking an item out, at whichever end. -/
theorem takeOut_pop {b : CircularBuffer α} {result : Option (α × CircularBuffer α)} {a : Option α} {rest : List α}
    (hview : result.map (fun r => (r.1, r.2.toList)) = a.map fun a => (a, rest))
    (hnone : a = none → rest = b.toList) (hcapacity : ∀ r ∈ result, r.2.capacity = b.capacity) :
    ((.taken a, ⟨rest, b.capacity⟩) : BufferAnswer α × BoundedDeque α) =
      ((b.takeOut result).1, (b.takeOut result).2.deque) := by
  cases result with
  | none =>
    cases a with
    | some a => cases hview
    | none =>
      rw [hnone rfl]
      rfl
  | some r =>
    cases a with
    | none => cases hview
    | some a =>
      simp only [Option.map_some, Option.some.injEq, Prod.mk.injEq] at hview
      simp only [takeOut, hview.1, deque_eq hview.2 (hcapacity r rfl)]

theorem capacity_of_popFront? {b : CircularBuffer α} {r : α × CircularBuffer α} (h : r ∈ b.popFront?) :
    r.2.capacity = b.capacity := by
  unfold popFront? at h
  split at h
  · cases h
  · cases h
    rfl

theorem capacity_of_popBack? {b : CircularBuffer α} {r : α × CircularBuffer α} (h : r ∈ b.popBack?) :
    r.2.capacity = b.capacity := by
  unfold popBack? at h
  split at h
  · cases h
  · cases h
    rfl

/-- **A call does to the buffer what it does to the list.** -/
theorem perform_refines [Inhabited α] (b : CircularBuffer α) (c : BufferCall α) :
    b.deque.perform c = ((b.perform c).1, (b.perform c).2.deque) := by
  cases c with
  | pushBack a => exact settle_push (fun _ => pushBack_eq_error_iff) fun _ => toList_of_pushBack
  | pushFront a => exact settle_push (fun _ => pushFront_eq_error_iff) fun _ => toList_of_pushFront
  | popFront =>
    refine takeOut_pop b.popFront?_eq ?_ fun _ => capacity_of_popFront?
    intro hnone
    have hnil : b.toList = [] := List.head?_eq_none_iff.1 hnone
    exact (congrArg List.tail hnil).trans hnil.symm
  | popBack =>
    refine takeOut_pop b.popBack?_eq ?_ fun _ => capacity_of_popBack?
    intro hnone
    have hnil : b.toList = [] := List.getLast?_eq_none_iff.1 hnone
    exact (congrArg List.dropLast hnil).trans hnil.symm
  | get place =>
    by_cases h : place < b.toList.length
    · simp only [perform, get_eq, List.getElem?_eq_getElem h]
      exact dif_pos h
    · simp only [perform, get_eq, List.getElem?_eq_none (Nat.le_of_not_lt h)]
      exact dif_neg h
  | discardFront count =>
    cases hresult : b.discardFront count with
    | ok b' =>
      obtain ⟨hitems, hcapacity⟩ := toList_of_discardFront hresult
      have hle : ¬b.toList.length < count := Nat.not_lt.2 (le_of_discardFront hresult)
      simp only [BoundedDeque.perform, perform, hresult, settle, deque_eq hitems hcapacity]
      exact if_neg hle
    | error f =>
      obtain ⟨hshort, rfl⟩ := discardFront_eq_error_iff.1 hresult
      simp only [BoundedDeque.perform, perform, hresult, settle]
      exact if_pos hshort
  | clear => rfl
  | grow capacity => exact congrArg (Prod.mk _) (deque_eq (b.toList_grow capacity) (b.capacity_grow capacity)).symm
  | items => rfl
  | slice start stop =>
    by_cases h : start ≤ stop ∧ stop ≤ b.toList.length
    · have hgood : ¬(stop < start ∨ b.toList.length < stop) := by omega
      simp only [BoundedDeque.perform, perform, slice_eq, if_pos h]
      exact if_neg hgood
    · have hbad : stop < start ∨ b.toList.length < stop := by omega
      simp only [BoundedDeque.perform, perform, slice_eq, if_neg h]
      exact if_pos hbad

/-- Looking at an item leaves the buffer as it is. -/
@[simp] theorem perform_get [Inhabited α] (b : CircularBuffer α) (place : Nat) :
    (b.perform (.get place)).2 = b := by
  simp only [perform]
  split <;> rfl

/-- Copying a stretch of items leaves the buffer as it is. -/
@[simp] theorem perform_slice [Inhabited α] (b : CircularBuffer α) (start stop : Nat) :
    (b.perform (.slice start stop)).2 = b := by
  simp only [perform]
  split <;> rfl

/-- A call that is refused leaves the buffer as it is. -/
theorem perform_of_refused [Inhabited α] {b : CircularBuffer α} {c : BufferCall α} {f : StreamFault}
    (h : (b.perform c).1 = .refused f) : (b.perform c).2 = b := by
  have hsettle : ∀ result, (b.settle result).1 = .refused f → (b.settle result).2 = b := by
    intro result hrefused
    cases result with
    | ok b' => cases hrefused
    | error f => rfl
  have htakeOut : ∀ result, (b.takeOut result).1 ≠ .refused f := by
    intro result hrefused
    cases result <;> cases hrefused
  cases c with
  | pushBack a => exact hsettle _ h
  | pushFront a => exact hsettle _ h
  | popFront => exact absurd h (htakeOut _)
  | popBack => exact absurd h (htakeOut _)
  | get place => exact b.perform_get place
  | discardFront count => exact hsettle _ h
  | clear => cases h
  | grow capacity => cases h
  | items => rfl
  | slice start stop => exact b.perform_slice start stop

/-! ### The slots that a call uses -/

/-- The places that a call looks at or fills. -/
def usedPlaces (b : CircularBuffer α) : BufferCall α → List Nat
  | .pushBack _ => if b.size < b.slots.size then [b.size] else []
  | .pushFront _ => if b.size < b.slots.size then [b.slots.size - 1] else []
  | .popFront => if b.size = 0 then [] else [0]
  | .popBack => if b.size = 0 then [] else [b.size - 1]
  | .get place => if place < b.size then [place] else []
  | .discardFront _ => []
  | .clear => []
  | .grow capacity => if b.slots.size < capacity then List.range b.size else []
  | .items => List.range b.size
  | .slice start stop =>
    if start ≤ stop ∧ stop ≤ b.size then (List.range (stop - start)).map (start + ·) else []

/-- The slots that these places are. -/
def usedSlots (b : CircularBuffer α) (c : BufferCall α) : List Nat :=
  (b.usedPlaces c).map b.slot

theorem usedSlots_lt {b : CircularBuffer α} {c : BufferCall α} {k : Nat} (h : k ∈ b.usedSlots c) :
    k < b.slots.size := by
  obtain ⟨i, -, rfl⟩ := List.mem_map.1 h
  exact b.slot_lt i

/-- What a call does to the row of slots: nothing, an item in a slot that it uses, or a new row. -/
theorem slots_perform [Inhabited α] (b : CircularBuffer α) (c : BufferCall α) :
    (b.perform c).2.slots = b.slots ∨
    (∃ a, ∃ k ∈ b.usedSlots c, ∃ hk, (b.perform c).2.slots = b.slots.set k a hk) ∨
    ∃ n, c = .grow n ∧ b.slots.size < n ∧ (b.perform c).2.slots = b.grownSlots n := by
  cases c with
  | pushBack a =>
    by_cases h : b.size < b.slots.size
    · refine .inr (.inl ⟨a, b.slot b.size, ?_, b.slot_lt b.size, ?_⟩)
      · simp [usedSlots, usedPlaces, h]
      · simp [perform, pushBack, settle, h]
    · exact .inl (by simp [perform, pushBack, settle, h])
  | pushFront a =>
    by_cases h : b.size < b.slots.size
    · refine .inr (.inl ⟨a, b.slot (b.slots.size - 1), ?_, b.slot_lt _, ?_⟩)
      · simp [usedSlots, usedPlaces, h]
      · simp [perform, pushFront, settle, h]
    · exact .inl (by simp [perform, pushFront, settle, h])
  | popFront =>
    refine .inl ?_
    by_cases h : b.size = 0
    · simp [perform, popFront?, takeOut, h]
    · simp [perform, popFront?, takeOut, h]
  | popBack =>
    refine .inl ?_
    by_cases h : b.size = 0
    · simp [perform, popBack?, takeOut, h]
    · simp [perform, popBack?, takeOut, h]
  | get place => exact .inl (by rw [perform_get])
  | discardFront count =>
    refine .inl ?_
    by_cases h : count ≤ b.size
    · simp [perform, discardFront, settle, h]
    · simp [perform, discardFront, settle, h]
  | clear => exact .inl rfl
  | grow n =>
    by_cases h : b.slots.size < n
    · exact .inr (.inr ⟨n, rfl, h, by simp [perform, grow, h]⟩)
    · exact .inl (by simp [perform, grow, h])
  | items => exact .inl rfl
  | slice start stop => exact .inl (by rw [perform_slice])

/-- A call uses no slot but those in `used`: unless there is a new row, every other slot keeps what it holds, and
whatever the others hold, the answer is the same, and so is the new row if there is one. -/
structure UsesOnly [Inhabited α] (b : CircularBuffer α) (c : BufferCall α) (used : List Nat) : Prop where
  unchanged : (b.perform c).2.slots.size = b.slots.size →
    ∀ k, k ∉ used → (b.perform c).2.slots[k]? = b.slots[k]?
  unread : ∀ b' : CircularBuffer α, b'.head = b.head → b'.size = b.size → b'.slots.size = b.slots.size →
    (∀ k ∈ used, b'.slots[k]? = b.slots[k]?) →
    (b'.perform c).1 = (b.perform c).1 ∧
    (b.slots.size < (b.perform c).2.slots.size → (b'.perform c).2.slots = (b.perform c).2.slots)

/-- Buffers with the same items in as many places have the same view. -/
theorem toList_congr {b b' : CircularBuffer α} (hsize : b'.size = b.size)
    (hitem : ∀ i ∈ List.range b.size, b'.item i = b.item i) : b'.toList = b.toList := by
  rw [toList, toList, hsize]
  exact List.map_congr_left hitem

/-- The answer depends on the items in the used places only. -/
theorem answer_congr [Inhabited α] {b b' : CircularBuffer α} {c : BufferCall α} (hsize : b'.size = b.size)
    (hslots : b'.slots.size = b.slots.size) (hitem : ∀ i ∈ b.usedPlaces c, b'.item i = b.item i) :
    (b'.perform c).1 = (b.perform c).1 := by
  cases c with
  | pushBack a =>
    by_cases h : b.size < b.slots.size
    · simp [perform, pushBack, settle, hsize, hslots, h]
    · simp [perform, pushBack, settle, capacity, hsize, hslots, h]
  | pushFront a =>
    by_cases h : b.size < b.slots.size
    · simp [perform, pushFront, settle, hsize, hslots, h]
    · simp [perform, pushFront, settle, capacity, hsize, hslots, h]
  | popFront =>
    by_cases h : b.size = 0
    · simp [perform, popFront?, takeOut, hsize, h]
    · have hfront := hitem 0 (by simp [usedPlaces, h])
      simp [perform, popFront?, takeOut, hsize, h, hfront]
  | popBack =>
    by_cases h : b.size = 0
    · simp [perform, popBack?, takeOut, hsize, h]
    · have hback := hitem (b.size - 1) (by simp [usedPlaces, h])
      simp [perform, popBack?, takeOut, hsize, h, hback]
  | get place =>
    by_cases h : place < b.size
    · have hplace := hitem place (by simp [usedPlaces, h])
      simp [perform, get, hsize, h, hplace]
    · simp [perform, get, hsize, h]
  | discardFront count =>
    by_cases h : count ≤ b.size
    · simp [perform, discardFront, settle, hsize, h]
    · simp [perform, discardFront, settle, hsize, h]
  | clear => rfl
  | grow n => rfl
  | items => simp only [perform, toList_congr hsize hitem]
  | slice start stop =>
    by_cases h : start ≤ stop ∧ stop ≤ b.size
    · have hstretch : (List.range (stop - start)).map (fun i => b'.item (start + i)) =
          (List.range (stop - start)).map fun i => b.item (start + i) := by
        refine List.map_congr_left fun i hi => hitem _ ?_
        rw [usedPlaces, if_pos h]
        exact List.mem_map_of_mem hi
      simp only [perform, slice, hsize, if_pos h, hstretch]
    · simp only [perform, slice, hsize, if_neg h]

/-- **A call uses no slot but those of its places.** -/
theorem usesOnly_usedSlots [Inhabited α] (b : CircularBuffer α) (c : BufferCall α) :
    b.UsesOnly c (b.usedSlots c) where
  unchanged := by
    intro hsame k hk
    obtain heq | ⟨a, k', hk', hlt, heq⟩ | ⟨n, -, hn, heq⟩ := b.slots_perform c
    · rw [heq]
    · have hne : k' ≠ k := by
        rintro rfl
        exact hk hk'
      rw [heq, Array.getElem?_set_ne hlt hne]
    · rw [heq, b.size_grownSlots hn] at hsame
      omega
  unread := by
    intro b' hhead hsize hslots hused
    have hitem : ∀ i ∈ b.usedPlaces c, b'.item i = b.item i := by
      intro i hi
      have hslot : b'.slot i = b.slot i := by rw [slot, slot, hhead, hslots]
      apply item_eq_of_slots
      rw [hslot]
      exact hused _ (List.mem_map_of_mem hi)
    refine ⟨answer_congr hsize hslots hitem, ?_⟩
    intro hlonger
    obtain heq | ⟨a, k, -, hlt, heq⟩ | ⟨n, rfl, hn, heq⟩ := b.slots_perform c
    · rw [heq] at hlonger
      exact absurd hlonger (Nat.lt_irrefl _)
    · rw [heq, Array.size_set] at hlonger
      exact absurd hlonger (Nat.lt_irrefl _)
    · rw [usedPlaces, if_pos hn] at hitem
      have hn' : b'.slots.size < n := hslots ▸ hn
      simp only [perform, grow, dif_pos hn, dif_pos hn', grownSlots, toList_congr hsize hitem, hsize]

/-! ### Runs -/

/-- A fresh buffer stands for the list without items. -/
theorem deque_withCapacity [Inhabited α] (n : Nat) :
    (withCapacity n : CircularBuffer α).deque = .withCapacity n :=
  deque_eq (toList_withCapacity n) (capacity_withCapacity n)

/-- **A circular buffer is a list with a capacity.**  Whatever calls are made on a fresh buffer, the answers are
those of the list, and the buffer in the end stands for the list in the end, with the same capacity, which is at
least one and never exceeded.  A call that is refused there leaves the buffer as it is, and a call uses no slots but
those of its places, all of which are in the row. -/
theorem refines_bounded_deque [Inhabited α] (n : Nat) (cs : List (BufferCall α)) :
    let (answers, b) := transcript perform (withCapacity n : CircularBuffer α) cs
    let (expected, d) := transcript BoundedDeque.perform (.withCapacity n) cs
    answers = expected ∧ b.toList = d.items ∧ b.capacity = d.capacity ∧
    1 ≤ b.capacity ∧ b.toList.length ≤ b.capacity ∧
    ∀ c, (∀ f, (b.perform c).1 = .refused f → (b.perform c).2 = b) ∧
      b.UsesOnly c (b.usedSlots c) ∧ ∀ k ∈ b.usedSlots c, k < b.slots.size := by
  have hrun := transcript_refines perform_refines cs (withCapacity n)
  rw [deque_withCapacity] at hrun
  simp only [hrun]
  refine ⟨trivial, rfl, rfl, capacity_pos _, length_toList_le _, fun c => ⟨?_, usesOnly_usedSlots _ c, ?_⟩⟩
  · intro f
    exact perform_of_refused
  · intro k
    exact usedSlots_lt

/-- Two slots, an item in each, with the first item in the second slot: there is no room for a third, and looking
at the second item uses the first slot. -/
theorem refines_bounded_deque_wrapped :
    let cs : List (BufferCall Nat) := [.pushBack 5, .pushBack 6, .popFront, .pushBack 7, .pushFront 8, .items]
    let (answers, b) := transcript CircularBuffer.perform (withCapacity 2) cs
    answers = [.done, .done, .taken (some 5), .done, .refused (.full 2), .items [6, 7]] ∧ b.head = 1 ∧
      (b.perform (.pushBack 9)).1 = .refused (.full 2) ∧ (b.perform (.pushBack 9)).2 = b ∧
      b.usedSlots (.get 1) = [0] ∧ (b.perform (.get 1)).1 = .item 7 := by
  intro cs
  obtain ⟨hanswers, -, -, -, -, hcall⟩ := refines_bounded_deque 2 cs
  have hfull : ((transcript perform (withCapacity 2) cs).2.perform (.pushBack 9)).1 = .refused (.full 2) := by
    decide
  exact ⟨hanswers.trans (by decide), by decide, hfull, (hcall _).1 _ hfull, by decide, by decide⟩

end CircularBuffer

end CodeAtlas
