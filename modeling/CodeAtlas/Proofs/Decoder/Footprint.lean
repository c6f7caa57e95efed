import CodeAtlas.Proofs.Decoder.Demand
import CodeAtlas.Proofs.Decoder.Length

/-!
# The memory that reading ahead takes

The buffer of a decoder doubles when it has to and never shrinks, yet it does not grow with the stream.  No
instruction asks for a sixteenth byte, so a read is made only while fewer than fifteen bytes are buffered, and it
brings one chunk at most.  And the buffer is made to grow only before such a read, where it has no room for a chunk.

The bounds hold at every point of a run and not only between its steps.  The points are the states that the
operations pass through, one after the other, listed clause by clause:

* `Lookahead.fillPoints`, `Lookahead.followPoints` — the states on the way through a fill and through a grammar;
* `Decoder.decodePoints`, `Decoder.runPoints` — those of a step and of a run;
* `Encoding.instruction_asksAtMost` — no sixteenth byte;
* `Lookahead.Bounded` — the bounds, which every point of a fill, of a step and of a run keeps;
* `Decoder.lookahead_is_bounded` — every run.
-/

namespace CodeAtlas

open Grammar

/-! ## Points on the way -/

/-- The buffers on the way while items are added one after the other. -/
def CircularBuffer.pushPoints {α : Type} (b : CircularBuffer α) : List α → List (CircularBuffer α)
  | [] => [b]
  | a :: rest =>
    b :: match b.pushBack a with
      | .ok b' => b'.pushPoints rest
      | .error _ => []

namespace Lookahead

/-- The states on the way through a fill: before each read, after it, and after each byte that goes to the buffer. -/
def fillPoints (needed : Nat) (r : Lookahead) : List Lookahead :=
  r :: if r.buffered < needed ∧ r.exhausted = false then
    match _hread : r.source.read r.chunk with
    | (.bytes [], source) => [r.afterRead source, (r.afterRead source).atEnd]
    | (.bytes (b :: bs), source) =>
      ((r.afterRead source).buffer.pushPoints (b :: bs)).map
          (fun buffer => { r.afterRead source with buffer := buffer }) ++
        match (r.afterRead source).buffer.pushAll (b :: bs) with
        | .ok buffer => fillPoints needed { r.afterRead source with buffer := buffer }
        | .error _ => []
    | (.failed f, source) =>
      r.afterRead source ::
        if f.kind = .interrupted then fillPoints needed (r.afterRead source) else []
  else []
termination_by r.source.weight
decreasing_by
  all_goals
    have h := r.source.weight_read_lt r.chunk_pos (by rw [_hread]; simp)
    rw [_hread] at h
    exact h

/-- The states on the way while a grammar is followed. -/
def followPoints {α : Type} : Grammar α → Lookahead → List Lookahead
  | .accept _, r => [r]
  | .reject, r => [r]
  | .byte next, r =>
    r.fillPoints (r.cursor + 1) ++
      match nextByte r with
      | .ok (some b) r' => followPoints (next b) r'
      | .ok none r' => [r']
      | .error _ r' => [r']

end Lookahead

namespace Decoder

open Lookahead

/-- The states on the way through an attempt. -/
def attemptPoints (r : Lookahead) : List Lookahead :=
  followPoints Encoding.instruction r ++ [final (attempt r)]

/-- The states of the input on the way through a step. -/
def decodePoints (d : Decoder) : List Lookahead :=
  d.input.fillPoints (d.input.cursor + 1) ++
    match hasData d.input with
    | .ok true r => attemptPoints r
    | _ => []

/-- The states of the input on the way through a call. -/
def callPoints (d : Decoder) : Call → List Lookahead
  | .decodeNext => d.decodePoints
  | .next => if d.finished then [d.input] else d.decodePoints

/-- The states of the input on the way through a run, from the first to the last. -/
def runPoints (d : Decoder) : List Call → List Lookahead
  | [] => [d.input]
  | c :: calls => d.callPoints c ++ (d.perform c).runPoints calls

end Decoder

/-! ## Results are among the points -/

/-- Adding items ends at one of its points. -/
theorem CircularBuffer.mem_pushPoints {α : Type} {as : List α} :
    ∀ {b c : CircularBuffer α}, b.pushAll as = .ok c → c ∈ b.pushPoints as := by
  induction as with
  | nil =>
    intro b c h
    cases h
    exact List.mem_cons_self
  | cons a rest ih =>
    intro b c h
    rw [pushAll] at h
    rw [pushPoints]
    apply List.mem_cons_of_mem
    cases hpush : b.pushBack a with
    | error f =>
      rw [hpush] at h
      cases h
    | ok b' =>
      rw [hpush] at h
      exact ih h

namespace Lookahead

section

variable {needed : Nat} {r : Lookahead} {source : Source}

theorem fillPoints_of_ready (h : ¬(r.buffered < needed ∧ r.exhausted = false)) : r.fillPoints needed = [r] := by
  rw [fillPoints, if_neg h]

theorem fillPoints_of_nothing (h : r.buffered < needed ∧ r.exhausted = false)
    (hread : r.source.read r.chunk = (.bytes [], source)) :
    r.fillPoints needed = [r, r.afterRead source, (r.afterRead source).atEnd] := by
  rw [fillPoints, if_pos h]
  split
  · next heq =>
    cases hread.symm.trans heq
    rfl
  · next heq => cases hread.symm.trans heq
  · next heq => cases hread.symm.trans heq

theorem fillPoints_of_bytes {b : UInt8} {bs : List UInt8} {buffer : CircularBuffer UInt8}
    (h : r.buffered < needed ∧ r.exhausted = false)
    (hread : r.source.read r.chunk = (.bytes (b :: bs), source))
    (hpush : (r.afterRead source).buffer.pushAll (b :: bs) = .ok buffer) :
    r.fillPoints needed =
      r :: (((r.afterRead source).buffer.pushPoints (b :: bs)).map
          (fun buffer => { r.afterRead source with buffer := buffer }) ++
        fillPoints needed { r.afterRead source with buffer := buffer }) := by
  rw [fillPoints, if_pos h]
  split
  · next heq => cases hread.symm.trans heq
  · next heq =>
    cases hread.symm.trans heq
    rw [hpush]
  · next heq => cases hread.symm.trans heq

theorem fillPoints_of_failed {f : Failure} (h : r.buffered < needed ∧ r.exhausted = false)
    (hread : r.source.read r.chunk = (.failed f, source)) :
    r.fillPoints needed =
      r :: r.afterRead source ::
        if f.kind = .interrupted then fillPoints needed (r.afterRead source) else [] := by
  rw [fillPoints, if_pos h]
  split
  · next heq => cases hread.symm.trans heq
  · next heq => cases hread.symm.trans heq
  · next heq =>
    cases hread.symm.trans heq
    rfl

end

/-- A fill ends at one of its points. -/
theorem final_fill_mem (needed : Nat) (r : Lookahead) : final (r.fill needed) ∈ r.fillPoints needed := by
  fun_induction fill needed r with
  | case1 r hneed source hread =>
    rw [fillPoints_of_nothing hneed hread]
    simp [final]
  | case2 r hneed b bs source hread buffer hpush ih =>
    rw [fillPoints_of_bytes hneed hread hpush]
    exact List.mem_cons_of_mem _ (List.mem_append_right _ ih)
  | case3 r hneed b bs source hread f hpush =>
    obtain ⟨buffer, hok⟩ := pushAll_of_read hread
    cases hpush.symm.trans hok
  | case4 r hneed f source hread hkind ih =>
    rw [fillPoints_of_failed hneed hread, if_pos hkind]
    exact List.mem_cons_of_mem _ (List.mem_cons_of_mem _ ih)
  | case5 r hneed f source hread hkind =>
    rw [fillPoints_of_failed hneed hread]
    exact List.mem_cons_of_mem _ List.mem_cons_self
  | case6 r hneed =>
    rw [fillPoints_of_ready hneed]
    exact List.mem_cons_self

/-- Following a grammar ends at one of its points. -/
theorem final_follow_mem {α : Type} (g : Grammar α) : ∀ r : Lookahead, final (follow g r) ∈ followPoints g r := by
  induction g with
  | accept a => exact fun r => List.mem_cons_self
  | reject => exact fun r => List.mem_cons_self
  | byte next ih =>
    intro r
    rw [followPoints, follow]
    apply List.mem_append_right
    beta_reduce
    cases nextByte r with
    | error f r' => exact List.mem_cons_self
    | ok b r' =>
      cases b with
      | none => exact List.mem_cons_self
      | some b => exact ih b r'

end Lookahead

/-! ## No sixteenth byte -/

/-- The grammar asks for `n` bytes at most, whatever they are. -/
def Grammar.AsksAtMost {α : Type} (n : Nat) (g : Grammar α) : Prop :=
  ∀ bs, g.run bs = .incomplete → bs.length < n

theorem Grammar.AsksAtMost.pos {α : Type} {n : Nat} {next : UInt8 → Grammar α} (h : AsksAtMost n (.byte next)) :
    0 < n :=
  h [] rfl

theorem Grammar.AsksAtMost.next {α : Type} {n : Nat} {next : UInt8 → Grammar α}
    (h : AsksAtMost (n + 1) (.byte next)) (b : UInt8) : AsksAtMost n (next b) := by
  intro bs hbs
  have hlen := h (b :: bs) hbs
  rw [List.length_cons] at hlen
  omega

/-- **No instruction asks for a sixteenth byte.**  What is incomplete can be completed, and a complete instruction
has fifteen bytes at most. -/
theorem Encoding.instruction_asksAtMost : instruction.AsksAtMost 15 := by
  intro bs hbs
  obtain ⟨more, i, hrun⟩ := instruction_prompt bs hbs
  have hmore : more ≠ [] := by
    intro hnil
    rw [hnil, List.append_nil, hbs] at hrun
    cases hrun
  have hlen := (length_eq_tableLength (decodeSingle_of_run hrun 0)).2.2
  have hpos := List.length_pos_of_ne_nil hmore
  simp only [List.length_append, List.length_nil] at hlen
  omega

/-! ## The bounds -/

/-- Adding items keeps the slots, and on the way there are never more items than in the end. -/
theorem CircularBuffer.of_mem_pushPoints {α : Type} {as : List α} :
    ∀ {b c : CircularBuffer α}, c ∈ b.pushPoints as → c.capacity = b.capacity ∧ c.size ≤ b.size + as.length := by
  induction as with
  | nil =>
    intro b c h
    obtain rfl := List.mem_singleton.1 h
    exact ⟨rfl, Nat.le_refl _⟩
  | cons a rest ih =>
    intro b c h
    rw [pushPoints] at h
    rcases List.mem_cons.1 h with rfl | h
    · exact ⟨rfl, Nat.le_add_right _ _⟩
    · cases hpush : b.pushBack a with
      | error f =>
        rw [hpush] at h
        cases h
      | ok b' =>
        rw [hpush] at h
        obtain ⟨hview, hcapacity⟩ := toList_of_pushBack hpush
        obtain ⟨hslots, hsize⟩ := ih h
        have hlen := congrArg List.length hview
        simp only [length_toList, List.length_append, List.length_cons, List.length_nil] at hlen hsize ⊢
        omega

namespace Lookahead

/-- With chunks of `c` bytes, at most `c + 14` bytes are buffered, in at most `2 * (c + 13)` slots. -/
structure Bounded (c : Nat) (r : Lookahead) : Prop where
  chunk : r.chunk = c
  buffered_le : r.buffered ≤ c + 14
  capacity_le : r.buffer.capacity ≤ 2 * (c + 13)

theorem bounded_start (source : Source) (chunk : Nat) (position : UInt64) :
    Bounded (max chunk 1) (start source chunk position) where
  chunk := rfl
  buffered_le := Nat.zero_le _
  capacity_le := by
    show (CircularBuffer.withCapacity (2 * max chunk 1)).capacity ≤ _
    rw [CircularBuffer.capacity_withCapacity]
    omega

variable {c : Nat} {r : Lookahead}

/-- Fewer bytes in the same slots. -/
theorem Bounded.of_le {s : Lookahead} (h : Bounded c r) (hchunk : s.chunk = r.chunk)
    (hsize : s.buffered ≤ r.buffered) (hslots : s.buffer.capacity = r.buffer.capacity) : Bounded c s where
  chunk := hchunk.trans h.chunk
  buffered_le := Nat.le_trans hsize h.buffered_le
  capacity_le := hslots ▸ h.capacity_le

/-- **A read.**  The buffer grows only if there is no room for a chunk, and then to twice its slots or to just what
is wanted; both are few while few bytes are buffered. -/
theorem Bounded.afterRead (h : Bounded c r) (hshort : r.buffered < 15) (source : Source) :
    Bounded c (r.afterRead source) where
  chunk := (r.chunk_afterRead source).trans h.chunk
  buffered_le := by
    rw [buffered_afterRead]
    omega
  capacity_le := by
    have hslots := h.capacity_le
    have hchunk := h.chunk
    unfold Lookahead.afterRead makeRoom
    by_cases hfree : r.buffer.free < r.chunk
    · rw [if_pos hfree]
      show (r.buffer.grow _).capacity ≤ _
      rw [CircularBuffer.capacity_grow]
      unfold CircularBuffer.free at hfree
      unfold buffered at hshort
      omega
    · rw [if_neg hfree]
      exact hslots

/-- The bytes that a read brings, on their way into the buffer. -/
theorem Bounded.push (h : Bounded c r) (hshort : r.buffered < 15) {source : Source} {bs : List UInt8}
    (hlen : bs.length ≤ r.chunk) {buffer : CircularBuffer UInt8}
    (hmem : buffer ∈ (r.afterRead source).buffer.pushPoints bs) :
    Bounded c { r.afterRead source with buffer := buffer } := by
  obtain ⟨hslots, hsize⟩ := CircularBuffer.of_mem_pushPoints hmem
  have hroom := h.afterRead hshort source
  have hbefore : (r.afterRead source).buffer.size = r.buffered := r.buffered_afterRead source
  have hchunk := h.chunk
  refine ⟨hroom.chunk, ?_, ?_⟩
  · show buffer.size ≤ c + 14
    omega
  · show buffer.capacity ≤ 2 * (c + 13)
    rw [hslots]
    exact hroom.capacity_le

/-- **A fill** up to fifteen bytes keeps the bounds at every point. -/
theorem Bounded.fillPoints {needed : Nat} (h : Bounded c r) (hneeded : needed ≤ 15) :
    ∀ s ∈ r.fillPoints needed, Bounded c s := by
  fun_induction fill needed r with
  | case1 r hneed source hread =>
    have hshort : r.buffered < 15 := Nat.lt_of_lt_of_le hneed.1 hneeded
    have hroom := h.afterRead hshort source
    rw [fillPoints_of_nothing hneed hread]
    simp only [List.mem_cons, List.not_mem_nil, or_false, forall_eq_or_imp, forall_eq]
    exact ⟨h, hroom, hroom.of_le rfl (Nat.le_refl _) rfl⟩
  | case2 r hneed b bs source hread buffer hpush ih =>
    have hshort : r.buffered < 15 := Nat.lt_of_lt_of_le hneed.1 hneeded
    have hlen := (Source.of_read_bytes hread).2.2
    rw [fillPoints_of_bytes hneed hread hpush]
    simp only [List.mem_cons, List.mem_append, List.mem_map]
    rintro s (rfl | ⟨buffer', hmem, rfl⟩ | hs)
    · exact h
    · exact h.push hshort hlen hmem
    · exact ih (h.push hshort hlen (CircularBuffer.mem_pushPoints hpush)) s hs
  | case3 r hneed b bs source hread f hpush =>
    obtain ⟨buffer, hok⟩ := pushAll_of_read hread
    cases hpush.symm.trans hok
  | case4 r hneed f source hread hkind ih =>
    have hroom := h.afterRead (Nat.lt_of_lt_of_le hneed.1 hneeded) source
    rw [fillPoints_of_failed hneed hread, if_pos hkind]
    simp only [List.mem_cons, forall_eq_or_imp]
    exact ⟨h, hroom, ih hroom⟩
  | case5 r hneed f source hread hkind =>
    have hroom := h.afterRead (Nat.lt_of_lt_of_le hneed.1 hneeded) source
    rw [fillPoints_of_failed hneed hread, if_neg hkind]
    simp only [List.mem_cons, List.not_mem_nil, or_false, forall_eq_or_imp, forall_eq]
    exact ⟨h, hroom⟩
  | case6 r hneed =>
    rw [fillPoints_of_ready hneed]
    simp only [List.mem_singleton, forall_eq]
    exact h

theorem Bounded.fill {needed : Nat} (h : Bounded c r) (hneeded : needed ≤ 15) :
    Bounded c (final (r.fill needed)) :=
  h.fillPoints hneeded _ (final_fill_mem needed r)

/-- Taking a byte is filling the buffer and moving the cursor. -/
theorem final_nextByte (r : Lookahead) :
    ∃ place, final (nextByte r) = (final (r.fill (r.cursor + 1))).moveTo place ∧
      ∀ b r', nextByte r = .ok (some b) r' → place = r.cursor + 1 := by
  have hfill : final (peek r) = final (r.fill (r.cursor + 1)) := final_peekByte 0 r
  have hcursor := (r.fetches_fill (r.cursor + 1)).cursor
  rw [← hfill] at hcursor ⊢
  unfold nextByte
  generalize peek r = result at hcursor ⊢
  cases result with
  | error f s => exact ⟨s.cursor, rfl, fun b r' h => by cases h⟩
  | ok b s =>
    cases b with
    | none => exact ⟨s.cursor, rfl, fun b r' h => by cases h⟩
    | some b => exact ⟨s.cursor + 1, rfl, fun _ _ _ => congrArg (· + 1) hcursor⟩

/-- **Following a grammar** that stays within the first fifteen bytes keeps the bounds at every point. -/
theorem Bounded.followPoints {α : Type} (g : Grammar α) :
    ∀ {n : Nat} {r : Lookahead}, g.AsksAtMost n → r.cursor + n ≤ 15 → Bounded c r →
      ∀ s ∈ followPoints g r, Bounded c s := by
  induction g with
  | accept a =>
    intro n r _ _ h s hs
    obtain rfl := List.mem_singleton.1 hs
    exact h
  | reject =>
    intro n r _ _ h s hs
    obtain rfl := List.mem_singleton.1 hs
    exact h
  | byte next ih =>
    intro n r hask hplace h s hs
    have hpos := hask.pos
    obtain ⟨m, rfl⟩ := Nat.exists_eq_succ_of_ne_zero (Nat.ne_of_gt hpos)
    have hneeded : r.cursor + 1 ≤ 15 := by omega
    obtain ⟨place, hfinal, hmoved⟩ := r.final_nextByte
    have hafter : Bounded c (final (nextByte r)) := by
      rw [hfinal]
      exact (h.fill hneeded).of_le rfl (Nat.le_refl _) rfl
    rw [Lookahead.followPoints] at hs
    rcases List.mem_append.1 hs with hs | hs
    · exact h.fillPoints hneeded s hs
    · cases hnext : nextByte r with
      | error f r' =>
        rw [hnext] at hs hafter
        obtain rfl := List.mem_singleton.1 hs
        exact hafter
      | ok b r' =>
        rw [hnext] at hs hafter hfinal
        cases b with
        | none =>
          obtain rfl := List.mem_singleton.1 hs
          exact hafter
        | some b =>
          have hcursor : r'.cursor = r.cursor + 1 := by
            rw [← hmoved b r' hnext]
            exact congrArg Lookahead.cursor hfinal
          have hrest : r'.cursor + m ≤ 15 := by omega
          exact ih b (hask.next b) hrest hafter s hs

end Lookahead

namespace Decoder

open Lookahead

variable {c : Nat}

/-- Committing gives up bytes and keeps the slots. -/
theorem bounded_accept {r : Lookahead} (h : Bounded c r) (offset : UInt64) (p : Prefixes) (i : Instruction) :
    Bounded c (final (accept offset p i r)) := by
  unfold accept commit
  cases hdrop : r.buffer.discardFront r.cursor with
  | error f => exact h
  | ok buffer =>
    obtain ⟨hview, hslots⟩ := CircularBuffer.toList_of_discardFront hdrop
    have hlen := congrArg List.length hview
    rw [List.length_drop, CircularBuffer.length_toList, CircularBuffer.length_toList] at hlen
    have hle : buffer.size ≤ r.buffer.size := by omega
    exact h.of_le rfl hle hslots

/-- Putting the cursor back leaves the buffer alone. -/
theorem bounded_giveUp {r : Lookahead} (h : Bounded c r) (offset : UInt64) (back : Checkpoint) (halt : Halt) :
    Bounded c (final (giveUp offset back halt r)) := by
  obtain ⟨journal, hnotes⟩ := foldl_note (notesOf offset (faultOf offset r halt)) r
  have hnoted : Bounded c { r with journal := journal } := h.of_le rfl (Nat.le_refl _) rfl
  simp only [giveUp, hnotes, restore]
  split
  · next heq =>
    split at heq
    · cases heq
      exact hnoted.of_le rfl (Nat.le_refl _) rfl
    · cases heq
  · next heq =>
    split at heq
    · cases heq
    · cases heq
      exact hnoted

/-- **An attempt** from the front keeps the bounds at every point. -/
theorem bounded_attemptPoints {r : Lookahead} (hc : r.cursor = 0) (h : Bounded c r) :
    ∀ s ∈ attemptPoints r, Bounded c s := by
  have hpoints : ∀ s ∈ followPoints Encoding.instruction r, Bounded c s :=
    Bounded.followPoints _ Encoding.instruction_asksAtMost (by omega) h
  have hend := hpoints _ (final_follow_mem Encoding.instruction r)
  intro s hs
  rcases List.mem_append.1 hs with hs | hs
  · exact hpoints s hs
  · obtain rfl := List.mem_singleton.1 hs
    unfold attempt
    cases hfollow : follow Encoding.instruction r with
    | ok a r' =>
      rw [hfollow] at hend
      exact bounded_accept hend r.position a.1 a.2
    | error halt r' =>
      rw [hfollow] at hend
      exact bounded_giveUp hend r.position r.checkpoint halt

/-- Whether there is a byte is found out by filling the buffer. -/
theorem final_hasData (r : Lookahead) : final (hasData r) = final (r.fill (r.cursor + 1)) := by
  have hfill : final (peek r) = final (r.fill (r.cursor + 1)) := final_peekByte 0 r
  rw [← hfill]
  unfold hasData
  cases peek r <;> rfl

/-- **A step** from the front keeps the bounds at every point. -/
theorem bounded_decodePoints {d : Decoder} (hc : d.input.cursor = 0) (h : Bounded c d.input) :
    ∀ s ∈ d.decodePoints, Bounded c s := by
  have hneeded : d.input.cursor + 1 ≤ 15 := by omega
  have hfill := h.fill hneeded
  rw [← final_hasData] at hfill
  intro s hs
  unfold decodePoints at hs
  rcases List.mem_append.1 hs with hs | hs
  · exact h.fillPoints hneeded s hs
  · split at hs
    · next r hdata =>
      rw [hdata] at hfill
      exact bounded_attemptPoints ((cursor_of_hasData hdata).trans hc) hfill s hs
    · cases hs

/-- A step ends at one of its points. -/
theorem decodeNext_mem (d : Decoder) : d.decodeNext.2.input ∈ d.decodePoints := by
  have hfill := final_fill_mem (d.input.cursor + 1) d.input
  rw [← final_hasData] at hfill
  unfold decodePoints
  cases hdata : hasData d.input with
  | error f r =>
    rw [hdata] at hfill
    rw [decodeNext, hdata]
    exact List.mem_append_left _ hfill
  | ok b r =>
    cases b with
    | false =>
      rw [hdata] at hfill
      rw [decodeNext, hdata]
      exact List.mem_append_left _ hfill
    | true =>
      rw [decodeNext_of_hasData hdata]
      exact List.mem_append_right _ (List.mem_append_right _ List.mem_cons_self)

/-! ## Runs -/

theorem cursor_decodeNext {d : Decoder} (hc : d.input.cursor = 0) : d.decodeNext.2.input.cursor = 0 := by
  have hstep := decodeNext_stepped hc
  generalize d.decodeNext = step at hstep ⊢
  cases hstep with
  | answered _ htakes _ => exact htakes.cursor
  | failed htakes _ => exact htakes.cursor

theorem bounded_callPoints {d : Decoder} (hc : d.input.cursor = 0) (h : Bounded c d.input) (call : Call) :
    ∀ s ∈ d.callPoints call, Bounded c s := by
  have hstep := bounded_decodePoints hc h
  cases call with
  | decodeNext => exact hstep
  | next =>
    intro s hs
    rw [callPoints] at hs
    split at hs
    · obtain rfl := List.mem_singleton.1 hs
      exact h
    · exact hstep s hs

/-- **A run** from the front keeps the bounds at every point. -/
theorem bounded_runPoints (calls : List Call) :
    ∀ {d : Decoder}, d.input.cursor = 0 → Bounded c d.input → ∀ s ∈ d.runPoints calls, Bounded c s := by
  induction calls with
  | nil =>
    intro d _ h s hs
    obtain rfl := List.mem_singleton.1 hs
    exact h
  | cons call calls ih =>
    intro d hc h s hs
    rcases List.mem_append.1 hs with hs | hs
    · exact bounded_callPoints hc h call s hs
    · rcases d.input_perform call with hinput | hinput
      · exact ih (hinput ▸ hc) (hinput ▸ h) s hs
      · have hnext := bounded_decodePoints hc h _ d.decodeNext_mem
        exact ih (hinput ▸ cursor_decodeNext hc) (hinput ▸ hnext) s hs

theorem input_mem_callPoints (d : Decoder) (call : Call) : d.input ∈ d.callPoints call := by
  have hstart : d.input ∈ d.decodePoints := by
    unfold decodePoints fillPoints
    exact List.mem_append_left _ List.mem_cons_self
  cases call with
  | decodeNext => exact hstart
  | next =>
    rw [callPoints]
    split
    · exact List.mem_cons_self
    · exact hstart

/-- The states between the calls are points of the run. -/
theorem performAll_mem (calls : List Call) :
    ∀ (d : Decoder) (n : Nat), (d.performAll (calls.take n)).input ∈ d.runPoints calls := by
  induction calls with
  | nil =>
    intro d n
    rw [List.take_nil]
    exact List.mem_cons_self
  | cons call calls ih =>
    intro d n
    cases n with
    | zero => exact List.mem_append_left _ (d.input_mem_callPoints call)
    | succ n => exact List.mem_append_right _ (ih (d.perform call) n)

/-- **Reading ahead takes bounded memory.**  Take a decoder over any source, with any chunk size and base address,
and any steps.  At every point of the run, between the steps and inside them, the lookahead holds at most fourteen
bytes more than a chunk, and its buffer has at most twice as many slots as a chunk and thirteen bytes. -/
theorem lookahead_is_bounded (source : Source) (c : DecoderConfig) (calls : List Call) :
    let d := start source c
    let chunk := max c.chunkSize 1
    (∀ n, (d.performAll (calls.take n)).input ∈ d.runPoints calls) ∧
    ∀ r ∈ d.runPoints calls, r.buffered ≤ chunk + 14 ∧ r.buffer.capacity ≤ 2 * (chunk + 13) := by
  intro d chunk
  refine ⟨performAll_mem calls d, ?_⟩
  intro r hr
  have hstart : Bounded chunk d.input := bounded_start source c.chunkSize c.baseAddress
  have hbounded := bounded_runPoints calls rfl hstart r hr
  exact ⟨hbounded.buffered_le, hbounded.capacity_le⟩

/-- A source that delivers the longest encoding in a piece of thirteen bytes and a piece of one byte, and then
thirteen bytes at once. -/
def lumpySource : Source :=
  ⟨[.piece (longestEncoding.take 13), .piece [0], .piece (List.replicate 13 0)]⟩

/-- The law at work: the last of three reads is made with fourteen bytes buffered, and both bounds are met. -/
theorem lookahead_is_bounded_lumpySource :
    ∃ r ∈ (start lumpySource ⟨13, 0⟩).runPoints [.decodeNext],
      r.buffered = 13 + 14 ∧ r.buffer.capacity = 2 * (13 + 13) ∧
        r.buffered ≤ 13 + 14 ∧ r.buffer.capacity ≤ 2 * (13 + 13) := by
  have hfind : ((start lumpySource ⟨13, 0⟩).runPoints [.decodeNext]).any
      (fun r => r.buffered == 13 + 14 && r.buffer.capacity == 2 * (13 + 13)) = true := by
    decide +kernel
  obtain ⟨r, hr, hmet⟩ := List.any_eq_true.1 hfind
  simp only [Bool.and_eq_true, beq_iff_eq] at hmet
  exact ⟨r, hr, hmet.1, hmet.2, (lookahead_is_bounded lumpySource ⟨13, 0⟩ [.decodeNext]).2 r hr⟩

end Decoder

end CodeAtlas
