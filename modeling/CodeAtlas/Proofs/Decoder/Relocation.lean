import CodeAtlas.Proofs.Decoder.Failure
import CodeAtlas.Proofs.Decoder.Sweep
import Mathlib.Data.Int.ModEq

/-!
# Code decodes the same wherever it stands

The same bytes at another base address give the same instructions, or the same fault, at offsets that are moved by
the distance of the two addresses.  The targets of direct branches move along, within the address space of 32
bits.

* `Decoded.branchTarget?_of_relative` — where a branch goes, in whole numbers;
* `Decoder.Alike.decodeNext` — one step of two decoders at the front of the same bytes: the answers differ in
  nothing but the offset;
* `Decoder.InRange` — no step carries the position past the last address;
* `Decoder.Alike.collect` — whole iterations of the two decoders side by side;
* `decodeAll_relocated` — the same bytes at two base addresses.
-/

namespace CodeAtlas

/-! ## Targets -/

/-- An offset and a length add up as whole numbers, up to multiples of the number of offsets. -/
theorem toNat_add_ofNat (offset : UInt64) (n : Nat) :
    (offset + UInt64.ofNat n).toNat = (offset.toNat + n) % 2 ^ 64 := by
  rw [UInt64.toNat_add, UInt64.toNat_ofNat', Nat.add_mod_mod]

/-- **Where a branch goes**: the offset, the length and the displacement, added as whole numbers, up to multiples
of the size of the address space. -/
theorem Decoded.branchTarget?_of_relative {d : Decoded} {displacement : Int}
    (h : d.instruction.relativeTarget? = some displacement) :
    ∃ t, d.branchTarget? = some t ∧ (t.toNat : Int) = (d.offset.toNat + d.length + displacement) % 2 ^ 32 := by
  rw [branchTarget?, h, Option.map_some]
  refine ⟨_, rfl, ?_⟩
  have hend : d.endOffset.toNat = (d.offset.toNat + d.length) % 2 ^ 64 := toNat_add_ofNat _ _
  have hspace : Int.ofNat Width.dword.contents = 2 ^ 32 := rfl
  rw [hspace, hend, UInt64.toNat_ofNat', Int.ofNat_eq_natCast]
  -- the offset of the end is taken modulo a multiple of the size of the address space
  omega

/-- The targets of two instructions that stand `δ` apart: none on both sides, where neither has a displacement, or
two places in the address space that are `δ` apart in it, where both have the same. -/
inductive Aimed (δ : Int) (d e : Decoded) : Prop
  | nowhere : d.instruction.relativeTarget? = none → e.instruction.relativeTarget? = none →
      d.branchTarget? = none → e.branchTarget? = none → Aimed δ d e
  | places {displacement : Int} {t t' : UInt64} :
      d.instruction.relativeTarget? = some displacement → e.instruction.relativeTarget? = some displacement →
      d.branchTarget? = some t → e.branchTarget? = some t' →
      (t.toNat : Int) = (d.offset.toNat + d.length + displacement) % 2 ^ 32 →
      (t'.toNat : Int) = (e.offset.toNat + e.length + displacement) % 2 ^ 32 →
      t.toNat < 2 ^ 32 → t'.toNat < 2 ^ 32 → (t'.toNat : Int) ≡ t.toNat + δ [ZMOD 2 ^ 32] → Aimed δ d e

/-- The same instruction, moved by `δ`. -/
structure Shifted (δ : Int) (d e : Decoded) : Prop where
  offset : (e.offset.toNat : Int) - d.offset.toNat = δ
  length : e.length = d.length
  prefixes : e.prefixes = d.prefixes
  instruction : e.instruction = d.instruction
  aimed : Aimed δ d e

/-- The target of an instruction moves along with it. -/
theorem aimed_of_offset {δ : Int} {o o' : UInt64} {n : Nat} {p : Prefixes} {i : Instruction}
    (h : (o'.toNat : Int) - o.toNat = δ) : Aimed δ ⟨o, n, p, i⟩ ⟨o', n, p, i⟩ := by
  cases hrel : i.relativeTarget? with
  | none =>
    refine .nowhere hrel hrel ?_ ?_
    · rw [Decoded.branchTarget?, hrel, Option.map_none]
    · rw [Decoded.branchTarget?, hrel, Option.map_none]
  | some displacement =>
    obtain ⟨t, ht, hsum⟩ := Decoded.branchTarget?_of_relative (d := ⟨o, n, p, i⟩) hrel
    obtain ⟨t', ht', hsum'⟩ := Decoded.branchTarget?_of_relative (d := ⟨o', n, p, i⟩) hrel
    refine .places hrel hrel ht ht' hsum hsum' ?_ ?_ ?_
    · omega
    · omega
    · rw [hsum, hsum', Int.ModEq, Int.emod_emod, Int.emod_add_emod]
      congr 1
      dsimp only
      omega

theorem shifted_of_offset {δ : Int} {o o' : UInt64} (n : Nat) (p : Prefixes) (i : Instruction)
    (h : (o'.toNat : Int) - o.toNat = δ) : Shifted δ ⟨o, n, p, i⟩ ⟨o', n, p, i⟩ :=
  ⟨h, rfl, rfl, rfl, aimed_of_offset h⟩

/-- The same outcome, moved by `δ`: as many instructions, pair by pair the same, or a fault of the same kind over
the same bytes. -/
inductive Relocated (δ : Int) :
    Except DecodeFault (List Decoded) → Except DecodeFault (List Decoded) → Prop
  | ok {v w : List Decoded} : List.Forall₂ (Shifted δ) v w → Relocated δ (.ok v) (.ok w)
  | truncated {o o' : UInt64} {bs : List UInt8} : (o'.toNat : Int) - o.toNat = δ →
      Relocated δ (.error (.truncated o bs)) (.error (.truncated o' bs))
  | unrecognized {o o' : UInt64} {bs : List UInt8} : (o'.toNat : Int) - o.toNat = δ →
      Relocated δ (.error (.unrecognized o bs)) (.error (.unrecognized o' bs))

/-- Outcomes that correspond still do with an instruction in front. -/
theorem Relocated.cons {δ : Int} {d e : Decoded} {x y : Except DecodeFault (List Decoded)}
    (hd : Shifted δ d e) (h : Relocated δ x y) : Relocated δ (x.map (d :: ·)) (y.map (e :: ·)) := by
  cases h with
  | ok hvw => exact .ok (.cons hd hvw)
  | truncated ho => exact .truncated ho
  | unrecognized ho => exact .unrecognized ho

namespace Decoder

/-! ## One step -/

/-- The answers of the same bytes at two offsets. -/
inductive Twin (o o' : UInt64) :
    Except DecodeFault (Option Decoded) → Except DecodeFault (Option Decoded) → Prop
  | ended : Twin o o' (.ok none) (.ok none)
  | decoded (n : Nat) (p : Prefixes) (i : Instruction) :
      Twin o o' (.ok (some ⟨o, n, p, i⟩)) (.ok (some ⟨o', n, p, i⟩))
  | truncated (bs : List UInt8) : Twin o o' (.error (.truncated o bs)) (.error (.truncated o' bs))
  | unrecognized (bs : List UInt8) : Twin o o' (.error (.unrecognized o bs)) (.error (.unrecognized o' bs))

/-- The grammar does not see the offset. -/
theorem answer_twin (o o' : UInt64) (bs : List UInt8) : Twin o o' (answer o bs) (answer o' bs) := by
  unfold answer verdict
  split
  · exact .ended
  · cases Encoding.instruction.run bs with
    | accepted a rest => exact .decoded _ _ _
    | incomplete => exact .truncated _
    | rejected rest => exact .unrecognized _

theorem Twin.consumed_eq {o o' : UInt64} {x y : Except DecodeFault (Option Decoded)} (h : Twin o o' x y) :
    consumed y = consumed x := by
  cases h <;> rfl

/-- Two decoders in the midst of an iteration, at the front of the same bytes, whose sources will not fail. -/
structure Alike (d e : Decoder) : Prop where
  stream : e.input.stream = d.input.stream
  cursor_left : d.input.cursor = 0
  cursor_right : e.input.cursor = 0
  steady_left : d.input.source.failures = []
  steady_right : e.input.source.failures = []
  open_left : d.finished = false
  open_right : e.finished = false

/-- **One step**: the answers of two decoders that are alike differ in nothing but the offset, and the decoders
are alike afterwards. -/
theorem Alike.decodeNext {d e : Decoder} (h : Alike d e) :
    Twin d.position e.position d.decodeNext.1 e.decodeNext.1 ∧ Alike d.decodeNext.2 e.decodeNext.2 := by
  obtain ⟨hd, htd, hfd⟩ := decodeNext_of_steady h.cursor_left h.steady_left
  obtain ⟨he, hte, hfe⟩ := decodeNext_of_steady h.cursor_right h.steady_right
  have htwin : Twin d.position e.position d.decodeNext.1 e.decodeNext.1 := by
    rw [hd, he, h.stream]
    exact answer_twin _ _ _
  refine ⟨htwin, ?_, htd.cursor, hte.cursor, hfd, hfe, ?_, ?_⟩
  · rw [hte.stream, htd.stream, ← he, ← hd, htwin.consumed_eq, h.stream]
  · exact d.finished_decodeNext.trans h.open_left
  · exact e.finished_decodeNext.trans h.open_right

/-! ## Positions in range -/

/-- No step carries the position past the last address. -/
def InRange (d : Decoder) : Prop :=
  ∀ n, (d.after n).position.toNat + consumed (d.after n).decodeNext.1 < 2 ^ 64

theorem InRange.decodeNext {d : Decoder} (h : d.InRange) : d.decodeNext.2.InRange :=
  fun n => h (n + 1)

/-- In range, the position moves by what a step takes, in whole numbers. -/
theorem toNat_position_decodeNext {d : Decoder} (hc : d.input.cursor = 0) (hf : d.input.source.failures = [])
    (h : d.position.toNat + consumed d.decodeNext.1 < 2 ^ 64) :
    d.decodeNext.2.position.toNat = d.position.toNat + consumed d.decodeNext.1 := by
  obtain ⟨hanswer, htakes, -⟩ := decodeNext_of_steady hc hf
  rw [← hanswer] at htakes
  rw [position, htakes.position, toNat_add_ofNat]
  exact Nat.mod_eq_of_lt h

/-- An answer takes no more than there is. -/
theorem consumed_answer_le (offset : UInt64) (bs : List UInt8) : consumed (answer offset bs) ≤ bs.length := by
  match h : answer offset bs with
  | .ok none => exact Nat.zero_le _
  | .ok (some d) => exact (of_verdict_ok (verdict_of_answer h)).2.2
  | .error fault => exact Nat.zero_le _

/-- A decoder at the front of a stream that ends before the last address. -/
structure Fits (d : Decoder) : Prop where
  cursor : d.input.cursor = 0
  steady : d.input.source.failures = []
  room : d.position.toNat + d.input.stream.length < 2 ^ 64

/-- **One step** stays in range and leaves a stream that ends where the stream ended before. -/
theorem Fits.decodeNext {d : Decoder} (h : d.Fits) :
    d.position.toNat + consumed d.decodeNext.1 < 2 ^ 64 ∧ d.decodeNext.2.Fits := by
  obtain ⟨hanswer, htakes, hfail⟩ := decodeNext_of_steady h.cursor h.steady
  rw [← hanswer] at htakes
  have hle : consumed d.decodeNext.1 ≤ d.input.stream.length := by
    rw [hanswer]
    exact consumed_answer_le _ _
  have hroom := h.room
  have hstep : d.position.toNat + consumed d.decodeNext.1 < 2 ^ 64 := by omega
  refine ⟨hstep, htakes.cursor, hfail, ?_⟩
  rw [toNat_position_decodeNext h.cursor h.steady hstep, htakes.stream, List.length_drop]
  omega

/-- **Whole runs** over a stream that ends before the last address stay in range. -/
theorem Fits.inRange {d : Decoder} (h : d.Fits) : d.InRange := by
  intro n
  induction n generalizing d with
  | zero => exact h.decodeNext.1
  | succ n ih => exact ih h.decodeNext.2

/-- It is enough that the bytes end before the last address. -/
theorem inRange_overBytes {bs : List UInt8} {a : UInt64} (h : a.toNat + bs.length < 2 ^ 64) :
    (overBytes bs a).InRange := by
  have hfits : (overBytes bs a).Fits := by
    refine ⟨rfl, rfl, ?_⟩
    rw [stream_overBytes]
    exact h
  exact hfits.inRange

/-! ## Whole iterations -/

/-- **Whole iterations** of decoders that are alike bring the same, moved by the distance of their positions. -/
theorem Alike.collect {δ : Int} (steps : Nat) :
    ∀ {d e : Decoder}, Alike d e → d.InRange → e.InRange → (e.position.toNat : Int) - d.position.toNat = δ →
      Relocated δ (d.collect steps) (e.collect steps) := by
  induction steps with
  | zero => exact fun _ _ _ _ => .ok .nil
  | succ steps ih =>
    intro d e h hd he hδ
    obtain ⟨htwin, halike⟩ := h.decodeNext
    -- the two decoders take as many bytes, so their distance stays as it is
    have hdistance : (e.decodeNext.2.position.toNat : Int) - d.decodeNext.2.position.toNat = δ := by
      rw [toNat_position_decodeNext h.cursor_left h.steady_left (hd 0),
        toNat_position_decodeNext h.cursor_right h.steady_right (he 0), htwin.consumed_eq]
      omega
    have hrest := ih halike hd.decodeNext he.decodeNext hdistance
    rw [collect_succ h.open_left, collect_succ h.open_right]
    generalize d.decodeNext.1 = x at htwin ⊢
    generalize e.decodeNext.1 = y at htwin ⊢
    cases htwin with
    | ended => exact .ok .nil
    | decoded n p i => exact .cons (shifted_of_offset n p i hδ) hrest
    | truncated bs => exact .truncated hδ
    | unrecognized bs => exact .unrecognized hδ

theorem alike_overBytes (bs : List UInt8) (a b : UInt64) : Alike (overBytes bs a) (overBytes bs b) where
  stream := by rw [stream_overBytes, stream_overBytes]
  cursor_left := rfl
  cursor_right := rfl
  steady_left := rfl
  steady_right := rfl
  open_left := rfl
  open_right := rfl

end Decoder

/-! ## The same bytes at two addresses -/

/-- **Relocation.**  Take the same bytes at two base addresses, neither of which makes a position overflow.  Both are
decoded without fault into as many instructions, which pair by pair have equal length, prefixes and instruction,
offsets that differ by the distance of the addresses, and targets that differ by it in the address space of 32 bits,
or no targets where the instruction is no direct branch; or both stop at a fault of the same kind, over the same bytes, at offsets that differ by that
distance. -/
theorem decodeAll_relocated {bs : List UInt8} {a b : UInt64} (ha : (Decoder.overBytes bs a).InRange)
    (hb : (Decoder.overBytes bs b).InRange) :
    Relocated ((b.toNat : Int) - a.toNat) (decodeAll bs a) (decodeAll bs b) :=
  (Decoder.alike_overBytes bs a b).collect (bs.length + 1) ha hb rfl

/-- The law at work on a no-operation and a jump to itself, from an address beyond those of 32 bits down to one
within. -/
theorem decodeAll_relocated_selfJump :
    (Decoder.overBytes [0x90, 0xEB, 0xFE] 0x1000000000).InRange ∧
      (Decoder.overBytes [0x90, 0xEB, 0xFE] 0x1000).InRange ∧
      Relocated (-0xFFFFFF000) (decodeAll [0x90, 0xEB, 0xFE] 0x1000000000)
        (decodeAll [0x90, 0xEB, 0xFE] 0x1000) := by
  have hhigh : (Decoder.overBytes [0x90, 0xEB, 0xFE] 0x1000000000).InRange :=
    Decoder.inRange_overBytes (by decide)
  have hlow : (Decoder.overBytes [0x90, 0xEB, 0xFE] 0x1000).InRange := Decoder.inRange_overBytes (by decide)
  exact ⟨hhigh, hlow, decodeAll_relocated hhigh hlow⟩

end CodeAtlas
