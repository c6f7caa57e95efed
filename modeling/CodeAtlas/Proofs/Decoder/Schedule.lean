import CodeAtlas.Proofs.Decoder.Step

/-!
# Decoding does not depend on how the bytes arrive

Two decoders whose streams hold the same bytes at the same offset answer alike and stay so, whatever their
chunk sizes, the pieces of their sources and the interruptions in between.

* `Source.Delivers` — a source that delivers given bytes in pieces, with interruptions anywhere;
* `Decoder.Agree` — the relation between two decoders that one step preserves (`Agree.decodeNext`);
* `Decoder.outcomes_eq_of_delivers` — the answers and positions of any number of steps over such a source
  are those over the bytes themselves.
-/

namespace CodeAtlas

/-! ## Sources that deliver given bytes -/

/-- The source delivers the bytes in non-empty pieces, with interruptions anywhere, and then reports its
end.  A read brings the first piece or as much of it as was asked for, so the pieces stand for what the reads
happen to bring. -/
inductive Source.Delivers : Source → List UInt8 → Prop
  | ended : Delivers ⟨[]⟩ []
  /-- An empty piece as the last event is the end. -/
  | closed : Delivers ⟨[.piece []]⟩ []
  | interrupted {f : Failure} {events : List SourceEvent} {bs : List UInt8} :
      f.kind = .interrupted → Delivers ⟨events⟩ bs → Delivers ⟨.failure f :: events⟩ bs
  | piece {front : List UInt8} {events : List SourceEvent} {bs : List UInt8} :
      front ≠ [] → Delivers ⟨events⟩ bs → Delivers ⟨.piece front :: events⟩ (front ++ bs)

theorem Source.Delivers.remaining {s : Source} {bs : List UInt8} (h : s.Delivers bs) :
    s.remaining = bs := by
  induction h with
  | ended => rfl
  | closed => rfl
  | interrupted _ _ ih => exact ih
  | @piece front events bs hne _ ih =>
    obtain ⟨b, front, rfl⟩ := List.exists_cons_of_ne_nil hne
    show b :: front ++ Source.remaining ⟨events⟩ = _
    rw [ih]

theorem Source.Delivers.failures {s : Source} {bs : List UInt8} (h : s.Delivers bs) :
    s.failures = [] := by
  induction h with
  | ended => rfl
  | closed => rfl
  | interrupted hkind _ ih =>
    rw [Source.failures, List.filterMap_cons, failure?, if_pos hkind]
    exact ih
  | piece _ _ ih => exact ih

theorem Source.delivers_ofBytes (bs : List UInt8) : (ofBytes bs).Delivers bs := by
  cases bs with
  | nil => exact .closed
  | cons b bs =>
    have h := Delivers.piece (List.cons_ne_nil b bs) .ended
    rwa [List.append_nil] at h

/-! ## Runs -/

namespace Decoder

/-- The answers of `n` steps, each with the position after it. -/
def outcomes : (n : Nat) → Decoder → List (Except DecodeFault (Option Decoded) × UInt64)
  | 0, _ => []
  | n + 1, d => (d.decodeNext.1, d.decodeNext.2.position) :: outcomes n d.decodeNext.2

/-- Two decoders at the front of the same bytes at the same offset, whose sources will not fail. -/
structure Agree (d e : Decoder) : Prop where
  stream : d.input.stream = e.input.stream
  position : d.position = e.position
  cursor_left : d.input.cursor = 0
  cursor_right : e.input.cursor = 0
  steady_left : d.input.source.failures = []
  steady_right : e.input.source.failures = []

/-- A step over a source that will not fail gives the answer of the stream. -/
theorem decodeNext_of_steady {d : Decoder} (hc : d.input.cursor = 0)
    (hf : d.input.source.failures = []) :
    d.decodeNext.1 = answer d.position d.input.stream ∧
      Takes (consumed (answer d.position d.input.stream)) d.input d.decodeNext.2.input ∧
      d.decodeNext.2.input.source.failures = [] := by
  have hstep := decodeNext_stepped hc
  generalize d.decodeNext = step at hstep ⊢
  cases hstep with
  | answered hanswer htakes hfail =>
    subst hanswer
    exact ⟨rfl, htakes, hfail.trans hf⟩
  | failed htakes hfail =>
    rw [hf] at hfail
    cases hfail

/-- **One step.**  Decoders that agree give the same answer and agree afterwards. -/
theorem Agree.decodeNext {d e : Decoder} (h : Agree d e) :
    d.decodeNext.1 = e.decodeNext.1 ∧ Agree d.decodeNext.2 e.decodeNext.2 := by
  obtain ⟨hd, htd, hfd⟩ := decodeNext_of_steady h.cursor_left h.steady_left
  obtain ⟨he, hte, hfe⟩ := decodeNext_of_steady h.cursor_right h.steady_right
  rw [← h.stream, ← h.position] at he hte
  refine ⟨hd.trans he.symm, ?_, ?_, htd.cursor, hte.cursor, hfd, hfe⟩
  · rw [htd.stream, hte.stream, h.stream]
  · show d.decodeNext.2.input.position = e.decodeNext.2.input.position
    rw [htd.position, hte.position]
    exact congrArg (· + _) h.position

/-- **Whole runs.**  Decoders that agree give the same answers at the same positions. -/
theorem Agree.outcomes (n : Nat) : ∀ {d e : Decoder}, Agree d e → d.outcomes n = e.outcomes n := by
  induction n with
  | zero => exact fun _ => rfl
  | succ n ih =>
    intro d e h
    obtain ⟨hanswer, hnext⟩ := h.decodeNext
    show (d.decodeNext.1, d.decodeNext.2.position) :: d.decodeNext.2.outcomes n =
      (e.decodeNext.1, e.decodeNext.2.position) :: e.decodeNext.2.outcomes n
    rw [hanswer, hnext.position, ih hnext]

/-- Fresh decoders over sources that deliver the same bytes agree. -/
theorem agree_start {s t : Source} {bs : List UInt8} (hs : s.Delivers bs) (ht : t.Delivers bs)
    (c e : Nat) (base : UInt64) : Agree (start s ⟨c, base⟩) (start t ⟨e, base⟩) where
  stream := hs.remaining.trans ht.remaining.symm
  position := rfl
  cursor_left := rfl
  cursor_right := rfl
  steady_left := hs.failures
  steady_right := ht.failures

/-- **Schedules do not matter.**  Over a source that delivers `bs`, in whatever pieces and with whatever
interruptions, and with whatever chunk size, any number of steps gives the answers and the positions that it
gives over `bs` in memory. -/
theorem outcomes_eq_of_delivers {source : Source} {bs : List UInt8} (h : source.Delivers bs)
    (chunk : Nat) (base : UInt64) (n : Nat) :
    (start source ⟨chunk, base⟩).outcomes n = (overBytes bs base).outcomes n :=
  (agree_start h (Source.delivers_ofBytes bs) chunk Lookahead.defaultChunk base).outcomes n

/-- A source that delivers five bytes in three pieces and is interrupted before and inside an instruction. -/
def choppedSource : Source :=
  ⟨[.failure ⟨.interrupted, "signal"⟩, .piece [0x66], .piece [0xB8, 0x34],
    .failure ⟨.interrupted, "signal"⟩, .piece [0x12, 0x0F]]⟩

/-- The law at work on a source that cuts an instruction into three pieces, read byte by byte. -/
theorem outcomes_choppedSource :
    choppedSource.Delivers [0x66, 0xB8, 0x34, 0x12, 0x0F] ∧
      (start choppedSource ⟨0, 0x1000⟩).outcomes 3 =
        (overBytes [0x66, 0xB8, 0x34, 0x12, 0x0F] 0x1000).outcomes 3 := by
  have h : choppedSource.Delivers [0x66, 0xB8, 0x34, 0x12, 0x0F] :=
    .interrupted rfl (.piece (List.cons_ne_nil _ _) (.piece (List.cons_ne_nil _ _)
      (.interrupted rfl (.piece (List.cons_ne_nil _ _) .ended))))
  exact ⟨h, outcomes_eq_of_delivers h 0 0x1000 3⟩

end Decoder

end CodeAtlas
