import CodeAtlas.Proofs.Decoder.Schedule
import CodeAtlas.Proofs.Decoder.ViablePrefix
import Mathlib.Algebra.GroupWithZero.Nat
import Mathlib.Data.List.Chain

/-!
# Decoding a stretch of code instruction by instruction

All instructions of some bytes are found by one decoder that lives from the first to the last of them and
refills its buffer on the way.  The same instructions come out if each is decoded afresh from the bytes that
are left: the decoder's buffer, cursor and position carry nothing over that could be seen.

* `Decoder.sweep` — the instructions that a row of bytes holds, in terms of the bytes alone;
* `Decoder.collect_eq_sweep` — a long-lived decoder finds these;
* `decodeAll_of_ne_nil` — the first instruction, and then those of the rest;
* `decodeAll_iterates` — that equation, the tiling of the bytes by the instructions, and how a stretch of
  code is decoded in two parts.
-/

namespace CodeAtlas

theorem exists_of_map_ok {ε α β : Type} {x : Except ε α} {f : α → β} {b : β} (h : x.map f = .ok b) :
    ∃ a, x = .ok a ∧ f a = b := by
  cases x with
  | error e => cases h
  | ok a =>
    cases h
    exact ⟨a, rfl, rfl⟩

namespace Decoder

/-! ## Single instructions -/

/-- A decoded instruction starts at the offset in question and takes some of the bytes at hand. -/
theorem of_verdict_ok {offset : UInt64} {bs : List UInt8} {d : Decoded} (h : verdict offset bs = .ok d) :
    d.offset = offset ∧ 0 < d.length ∧ d.length ≤ bs.length := by
  unfold verdict at h
  split at h
  · next p i rest hrun =>
    cases h
    obtain ⟨e, rfl, he⟩ := Grammar.exists_of_run_accepted hrun
    have hpos : 0 < e.length := by
      -- the grammar asks for a byte before it accepts anything
      apply List.length_pos_of_ne_nil
      rintro rfl
      cases he
    simp only [List.length_append, Nat.add_sub_cancel, true_and]
    omega
  · cases h
  · cases h

/-- Bytes after a decoded instruction do not matter. -/
theorem verdict_append {offset : UInt64} {bs : List UInt8} {d : Decoded} (h : verdict offset bs = .ok d)
    (more : List UInt8) : verdict offset (bs ++ more) = .ok d := by
  unfold verdict at h
  split at h
  · next p i rest hrun =>
    cases h
    rw [verdict, Grammar.run_append_of_accepted hrun more]
    simp only [List.length_append, Nat.add_sub_add_right]
  · cases h
  · cases h

theorem verdict_of_answer {offset : UInt64} {bs : List UInt8} {d : Decoded}
    (h : answer offset bs = .ok (some d)) : verdict offset bs = .ok d := by
  unfold answer at h
  split at h
  · cases h
  · obtain ⟨e, he, hsome⟩ := exists_of_map_ok h
    cases hsome
    exact he

/-! ## Sweeps -/

/-- The instructions of the bytes at `offset`, at most `steps` of them, or the first fault. -/
def sweep : (steps : Nat) → (offset : UInt64) → List UInt8 → Except DecodeFault (List Decoded)
  | 0, _, _ => .ok []
  | steps + 1, offset, bs =>
    match answer offset bs with
    | .ok none => .ok []
    | .error fault => .error fault
    | .ok (some d) => (sweep steps (offset + UInt64.ofNat d.length) (bs.drop d.length)).map (d :: ·)

/-- A step does not end an iteration; only the iteration itself does. -/
theorem finished_decodeNext (d : Decoder) : d.decodeNext.2.finished = d.finished := by
  unfold decodeNext
  split
  · rfl
  · rfl
  · split <;> rfl

/-- An iteration that is not over yet goes by the answer of a step. -/
theorem collect_succ {d : Decoder} (hopen : d.finished = false) (steps : Nat) :
    d.collect (steps + 1) =
      match d.decodeNext.1 with
      | .ok none => .ok []
      | .error fault => .error fault
      | .ok (some i) => (d.decodeNext.2.collect steps).map (i :: ·) := by
  rw [collect, next, hopen, if_neg Bool.false_ne_true]
  generalize d.decodeNext = step
  match step with
  | (.ok none, _) => rfl
  | (.error _, _) => rfl
  | (.ok (some _), _) => rfl

/-- A decoder over a source that will not fail finds the instructions of its stream. -/
theorem collect_eq_sweep (steps : Nat) :
    ∀ {d : Decoder}, d.finished = false → d.input.cursor = 0 → d.input.source.failures = [] →
      d.collect steps = sweep steps d.position d.input.stream := by
  induction steps with
  | zero => exact fun _ _ _ => rfl
  | succ steps ih =>
    intro d hopen hc hf
    obtain ⟨hanswer, htakes, hfail⟩ := decodeNext_of_steady hc hf
    have hrest := ih (d.finished_decodeNext.trans hopen) htakes.cursor hfail
    rw [position, htakes.stream, htakes.position] at hrest
    rw [collect_succ hopen, hrest, hanswer, sweep]
    match answer d.position d.input.stream with
    | .ok none => rfl
    | .error fault => rfl
    | .ok (some i) => rfl

/-- Enough steps are as good as any. -/
theorem sweep_eq_of_lt {m : Nat} :
    ∀ {n : Nat} {offset : UInt64} {bs : List UInt8}, bs.length < m → bs.length < n →
      sweep m offset bs = sweep n offset bs := by
  induction m with
  | zero => exact fun h => absurd h (Nat.not_lt_zero _)
  | succ m ih =>
    intro n offset bs hm hn
    obtain ⟨n, rfl⟩ := Nat.exists_eq_succ_of_ne_zero (Nat.ne_zero_of_lt hn)
    unfold sweep
    split
    · rfl
    · rfl
    · next d hd =>
      obtain ⟨-, hpos, hle⟩ := of_verdict_ok (verdict_of_answer hd)
      rw [ih]
      · rw [List.length_drop]
        omega
      · rw [List.length_drop]
        omega

end Decoder

/-! ## All instructions -/

theorem decodeAll_eq_sweep {n : Nat} {bs : List UInt8} (h : bs.length < n) (a : UInt64) :
    decodeAll bs a = Decoder.sweep n a bs := by
  have hcollect := Decoder.collect_eq_sweep (bs.length + 1) (d := Decoder.overBytes bs a) rfl rfl rfl
  rw [Decoder.stream_overBytes] at hcollect
  exact hcollect.trans (Decoder.sweep_eq_of_lt (Nat.lt_succ_self _) h)

theorem decodeAll_nil (a : UInt64) : decodeAll [] a = .ok [] := by
  have hshort : ([] : List UInt8).length < 1 := Nat.zero_lt_one
  exact decodeAll_eq_sweep hshort a

/-- **The first instruction, and then those of the rest.** -/
theorem decodeAll_of_ne_nil {bs : List UInt8} (hne : bs ≠ []) (a : UInt64) :
    decodeAll bs a =
      match decodeSingle bs a with
      | .error fault => .error fault
      | .ok d => (decodeAll (bs.drop d.length) (a + UInt64.ofNat d.length)).map (d :: ·) := by
  rw [decodeAll_eq_sweep (Nat.lt_succ_self _), Decoder.sweep, Decoder.answer, if_neg hne,
    decodeSingle_eq_verdict]
  cases hv : Decoder.verdict a bs with
  | error fault => rfl
  | ok d =>
    obtain ⟨-, hpos, hle⟩ := Decoder.of_verdict_ok hv
    have hshort : (bs.drop d.length).length < bs.length := by
      rw [List.length_drop]
      omega
    show (Decoder.sweep bs.length _ _).map _ = _
    rw [← decodeAll_eq_sweep hshort]

/-- The listing of some bytes: nothing, or a first instruction and the listing of what it leaves. -/
inductive Listing : UInt64 → List UInt8 → List Decoded → Prop
  | nil {a : UInt64} : Listing a [] []
  | cons {a : UInt64} {bs : List UInt8} {d : Decoded} {v : List Decoded} : bs ≠ [] →
      decodeSingle bs a = .ok d → Listing (a + UInt64.ofNat d.length) (bs.drop d.length) v →
      Listing a bs (d :: v)

/-- What is decoded without fault is the listing of the bytes. -/
theorem listing_of_decodeAll {v : List Decoded} :
    ∀ {bs : List UInt8} {a : UInt64}, decodeAll bs a = .ok v → Listing a bs v := by
  induction v with
  | nil =>
    intro bs a h
    by_cases hne : bs = []
    · subst hne
      exact .nil
    · rw [decodeAll_of_ne_nil hne] at h
      split at h
      · cases h
      · obtain ⟨w, -, hw⟩ := exists_of_map_ok h
        cases hw
  | cons d v ih =>
    intro bs a h
    by_cases hne : bs = []
    · subst hne
      cases (decodeAll_nil a).symm.trans h
    · rw [decodeAll_of_ne_nil hne] at h
      split at h
      · cases h
      · next hd =>
        obtain ⟨w, hw, heq⟩ := exists_of_map_ok h
        cases heq
        exact .cons hne hd (ih hw)

/-- The instructions of a listing lie one after the other and take all the bytes. -/
theorem Listing.tiles {a : UInt64} {bs : List UInt8} {v : List Decoded} (h : Listing a bs v) :
    (∀ d ∈ v.head?, d.offset = a) ∧ (v.IsChain fun d e => e.offset = d.endOffset) ∧
      (v.map Decoded.length).sum = bs.length := by
  induction h with
  | nil => exact ⟨by simp, .nil, rfl⟩
  | @cons a bs d v hne hd hrest ih =>
    obtain ⟨hhead, hchain, hsum⟩ := ih
    obtain ⟨hoffset, -, hle⟩ := Decoder.of_verdict_ok (decodeSingle_eq_verdict bs a ▸ hd)
    refine ⟨?_, ?_, ?_⟩
    · intro e he
      cases he
      exact hoffset
    · refine hchain.cons ?_
      intro e he
      rw [hhead e he, Decoded.endOffset, hoffset]
    · rw [List.map_cons, List.sum_cons, hsum, List.length_drop]
      omega

/-- Bytes after those of a listing are decoded from where it ends. -/
theorem Listing.decodeAll_append {a : UInt64} {xs : List UInt8} {v : List Decoded} (h : Listing a xs v)
    (ys : List UInt8) :
    decodeAll (xs ++ ys) a = (decodeAll ys (a + UInt64.ofNat xs.length)).map (v ++ ·) := by
  induction h with
  | @nil a =>
    have hid : (([] : List Decoded) ++ ·) = id := rfl
    show decodeAll ys a = (decodeAll ys (a + 0)).map _
    rw [UInt64.add_zero, hid, Except.map_id]
    rfl
  | @cons a xs d v hne hd hrest ih =>
    rw [decodeSingle_eq_verdict] at hd
    obtain ⟨-, -, hle⟩ := Decoder.of_verdict_ok hd
    have hfirst : decodeSingle (xs ++ ys) a = .ok d := by
      rw [decodeSingle_eq_verdict]
      exact Decoder.verdict_append hd ys
    have hplace : a + UInt64.ofNat d.length + UInt64.ofNat (xs.drop d.length).length =
        a + UInt64.ofNat xs.length := by
      rw [UInt64.add_assoc, ← UInt64.ofNat_add, List.length_drop, Nat.add_sub_cancel' hle]
    rw [decodeAll_of_ne_nil (by simp [hne]), hfirst]
    show (decodeAll ((xs ++ ys).drop d.length) _).map _ = _
    rw [List.drop_append_of_le_length hle, ih, hplace]
    cases decodeAll ys (a + UInt64.ofNat xs.length) with
    | error fault => rfl
    | ok w => rfl

/-- **All instructions are found one by one.**  No bytes hold no instructions.  Other bytes hold what is
decoded first, if anything is, and then what the bytes after it hold.  Instructions found without fault
start at the first offset, follow each other without gap and take all the bytes; and bytes that follow are
decoded from where these end. -/
theorem decodeAll_iterates (a : UInt64) :
    decodeAll [] a = .ok [] ∧
    (∀ bs, bs ≠ [] →
      decodeAll bs a =
        match decodeSingle bs a with
        | .error fault => .error fault
        | .ok d => (decodeAll (bs.drop d.length) (a + UInt64.ofNat d.length)).map (d :: ·)) ∧
    (∀ bs v, decodeAll bs a = .ok v →
      (∀ d ∈ v.head?, d.offset = a) ∧ (v.IsChain fun d e => e.offset = d.endOffset) ∧
        (v.map Decoded.length).sum = bs.length) ∧
    ∀ xs v, decodeAll xs a = .ok v → ∀ ys,
      decodeAll (xs ++ ys) a = (decodeAll ys (a + UInt64.ofNat xs.length)).map (v ++ ·) := by
  refine ⟨decodeAll_nil a, ?_, ?_, ?_⟩
  · intro bs hne
    exact decodeAll_of_ne_nil hne a
  · intro bs v h
    exact (listing_of_decodeAll h).tiles
  · intro xs v h ys
    exact (listing_of_decodeAll h).decodeAll_append ys

/-- A no-operation and an addition to `ax`. -/
def shortListing : List Decoded :=
  [⟨0x1000, 1, .empty, .plain .nop⟩,
    ⟨0x1001, 4, ⟨[.operandSize], by decide⟩,
      .binary .add (.register ⟨.word, Register.accumulatorNumber⟩) (.constant ⟨0x1234, .word, .signed⟩)⟩]

/-- The law at work on two instructions, whatever follows them. -/
theorem decodeAll_shortListing :
    decodeAll [0x90, 0x66, 0x05, 0x34, 0x12] 0x1000 = .ok shortListing ∧
      (shortListing.map Decoded.length).sum = 5 ∧
      ∀ ys, decodeAll ([0x90, 0x66, 0x05, 0x34, 0x12] ++ ys) 0x1000 =
        (decodeAll ys 0x1005).map (shortListing ++ ·) := by
  have h : decodeAll [0x90, 0x66, 0x05, 0x34, 0x12] 0x1000 = .ok shortListing := by decide +kernel
  obtain ⟨-, -, htiles, happend⟩ := decodeAll_iterates 0x1000
  exact ⟨h, (htiles _ _ h).2.2, happend _ _ h⟩

end CodeAtlas
