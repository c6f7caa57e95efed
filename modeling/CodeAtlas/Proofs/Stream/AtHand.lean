import CodeAtlas.Decoder.Basic
import CodeAtlas.Proofs.Grammar.Viability
import CodeAtlas.Proofs.Stream.Delivery

/-!
# Reading what is at hand

Bytes that are buffered are read without a look at the source, and once the source has ended it is not looked
at again.  A grammar that the buffered bytes settle, or any grammar after the end of the source, is therefore
followed without any change but that of the cursor.

* `Lookahead.held` — the buffered bytes from the cursor on;
* `Lookahead.follow_eq_atHand` — following a grammar with nothing but these;
* `Lookahead.exhausted_of_follow_ended` — a grammar runs out of bytes only after the source has ended.
-/

namespace CodeAtlas.Lookahead

open Grammar

theorem length_buffer (r : Lookahead) : r.buffer.toList.length = r.buffered :=
  CircularBuffer.length_toList r.buffer

/-! ## Single bytes -/

/-- Where enough is buffered or the source has ended, filling does nothing. -/
theorem fill_of_ready {needed : Nat} {r : Lookahead} (h : needed ≤ r.buffered ∨ r.exhausted = true) :
    r.fill needed = .ok () r := by
  rw [fill, if_neg]
  rintro ⟨hshort, hopen⟩
  rcases h with h | h
  · omega
  · rw [hopen] at h
    cases h

theorem peek_of_ready {r : Lookahead} (h : r.cursor < r.buffered ∨ r.exhausted = true) :
    peek r = .ok r.buffer.toList[r.cursor]? r := by
  rw [peek, peekByte, fill_of_ready h]
  show (if r.cursor < r.buffered then _ else _) = _
  split
  · next hlt =>
    have hlen : r.cursor < r.buffer.toList.length := by
      rw [length_buffer]
      exact hlt
    rw [Nat.add_zero, CircularBuffer.get_eq, List.getElem?_eq_getElem hlen]
  · next hge =>
    rw [List.getElem?_eq_none]
    rw [length_buffer]
    exact Nat.le_of_not_lt hge

/-- A byte is missing only after the source has ended. -/
theorem exhausted_of_peekByte {offset : Nat} {r r' : Lookahead} (h : peekByte offset r = .ok none r') :
    r'.exhausted = true := by
  have hfill := fill_filled (r.cursor + offset + 1) r
  rw [peekByte] at h
  split at h
  · cases h
  · next s heq =>
    rw [heq] at hfill
    cases hfill with
    | done hfetch hfail henough =>
      split at h
      · split at h <;> cases h
      · next hge =>
        cases h
        have hcursor := hfetch.cursor
        rcases henough with h | h
        · omega
        · exact h

/-! ## Grammars -/

/-- The buffered bytes from the cursor on. -/
def held (r : Lookahead) : List UInt8 :=
  r.buffer.toList.drop r.cursor

theorem length_held (r : Lookahead) : r.held.length = r.buffered - r.cursor := by
  rw [held, List.length_drop, length_buffer]

/-- What following a grammar comes to if it uses nothing but the bytes at hand. -/
def atHand {α : Type} (r : Lookahead) : Verdict α → EStateM.Result Halt Lookahead α
  | .accepted a rest => .ok a (r.moveTo (r.buffered - rest.length))
  | .rejected rest => .error .rejected (r.moveTo (r.buffered - rest.length))
  | .incomplete => .error .ended (r.moveTo r.buffered)

/-- From the cursor on, as many bytes are left as the grammar has not used. -/
theorem moveTo_held {r : Lookahead} (h : r.cursor ≤ r.buffered) :
    r.moveTo (r.buffered - r.held.length) = r := by
  have hplace : r.buffered - r.held.length = r.cursor := by
    rw [length_held]
    omega
  rw [hplace]
  rfl

/-- **Following with the bytes at hand.**  A grammar that these settle, or any grammar after the end of the
source, is followed without a read. -/
theorem follow_eq_atHand {α : Type} (g : Grammar α) :
    ∀ {r : Lookahead}, r.cursor ≤ r.buffered → g.run r.held ≠ .incomplete ∨ r.exhausted = true →
      follow g r = r.atHand (g.run r.held) := by
  induction g with
  | accept a =>
    intro r hc _
    rw [run_accept, atHand, moveTo_held hc]
    rfl
  | reject =>
    intro r hc _
    rw [run_reject, atHand, moveTo_held hc]
    rfl
  | byte next ih =>
    intro r hc hready
    cases hheld : r.held with
    | nil =>
      have hend : r.cursor = r.buffered := by
        have hlen := r.length_held
        rw [hheld, List.length_nil] at hlen
        omega
      have hdone : r.exhausted = true := hready.resolve_left fun hne => hne (by rw [hheld]; rfl)
      have hnone : r.buffer.toList[r.cursor]? = none := by
        rw [List.getElem?_eq_none_iff]
        exact List.drop_eq_nil_iff.1 hheld
      unfold follow nextByte
      rw [peek_of_ready (Or.inr hdone), hnone, run_byte_nil, atHand, ← hend]
      rfl
    | cons b tail =>
      have hlt : r.cursor < r.buffered := by
        have hlen := r.length_held
        rw [hheld, List.length_cons] at hlen
        omega
      have hsome : r.buffer.toList[r.cursor]? = some b := by
        have hhead := congrArg List.head? hheld
        rwa [held, List.head?_drop] at hhead
      have htail : (r.moveTo (r.cursor + 1)).held = tail := by
        have hdrop := congrArg List.tail hheld
        rwa [held, List.tail_drop] at hdrop
      rw [hheld, run_byte_cons] at hready
      have hnext := ih b (r := r.moveTo (r.cursor + 1)) hlt (by rw [htail]; exact hready)
      rw [htail] at hnext
      unfold follow nextByte
      rw [peek_of_ready (Or.inl hlt), hsome, run_byte_cons]
      show follow (next b) (r.moveTo (r.cursor + 1)) = _
      rw [hnext]
      -- where the cursor stood on the way does not show in the end
      cases (next b).run tail <;> rfl

/-- A grammar runs out of bytes only after the source has ended. -/
theorem exhausted_of_follow_ended {α : Type} (g : Grammar α) :
    ∀ {r r' : Lookahead}, follow g r = .error .ended r' → r'.exhausted = true := by
  induction g with
  | accept a =>
    intro r r' h
    cases h
  | reject =>
    intro r r' h
    cases h
  | byte next ih =>
    intro r r' h
    unfold follow nextByte at h
    cases hpeek : peek r with
    | error f s =>
      rw [hpeek] at h
      cases h
    | ok b s =>
      rw [hpeek] at h
      cases b with
      | none =>
        cases h
        exact exhausted_of_peekByte hpeek
      | some b => exact ih b h

end CodeAtlas.Lookahead
