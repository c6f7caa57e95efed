/-!
# Byte grammars

A grammar describes which byte sequences are encodings of values, as a tree of decisions: it accepts with a
value, it rejects, or it asks for one more byte and goes on according to it.  A grammar asks for a byte
only when its answer depends on one, so it never looks past the end of what it accepts.

* `Grammar.run` reads a grammar against a list of bytes, and `run_andThen` says that a sequence of grammars
  is read one after the other;
* the same grammar drives the streaming decoder, which has to fetch the bytes.
-/

namespace CodeAtlas

/-- A decision tree over bytes. -/
inductive Grammar (α : Type) where
  | accept (a : α)
  | reject
  | byte (next : UInt8 → Grammar α)

namespace Grammar

variable {α β : Type}

/-- Goes on with a second grammar where the first accepts. -/
def andThen : Grammar α → (α → Grammar β) → Grammar β
  | accept a, f => f a
  | reject, _ => reject
  | byte next, f => byte fun b => (next b).andThen f

instance : Monad Grammar where
  pure := accept
  bind := andThen

/-- Any one byte. -/
def anyByte : Grammar UInt8 :=
  byte accept

/-- Any `n` bytes, in order. -/
def bytes : Nat → Grammar (List UInt8)
  | 0 => accept []
  | n + 1 => byte fun b => (bytes n).andThen fun bs => accept (b :: bs)

/-- What a grammar makes of a list of bytes. -/
inductive Verdict (α : Type) where
  /-- The bytes before `rest` encode `a`. -/
  | accepted (a : α) (rest : List UInt8)
  /-- Another byte was asked for after the last one. -/
  | incomplete
  /-- The bytes before `rest` begin no encoding. -/
  | rejected (rest : List UInt8)

/-- Reads a grammar against a list of bytes. -/
def run : Grammar α → List UInt8 → Verdict α
  | accept a, bs => .accepted a bs
  | reject, bs => .rejected bs
  | byte _, [] => .incomplete
  | byte next, b :: bs => (next b).run bs

/-- Passes on what was accepted, with the bytes that are left. -/
def Verdict.bind : Verdict α → (α → List UInt8 → Verdict β) → Verdict β
  | accepted a rest, f => f a rest
  | incomplete, _ => incomplete
  | rejected rest, _ => rejected rest

/-! ## Laws of reading -/

@[simp] theorem run_accept (a : α) (bs : List UInt8) : (accept a).run bs = .accepted a bs := by
  cases bs <;> rfl

@[simp] theorem run_reject (bs : List UInt8) : (reject : Grammar α).run bs = .rejected bs := by
  cases bs <;> rfl

@[simp] theorem run_byte_nil (next : UInt8 → Grammar α) : (byte next).run [] = .incomplete := rfl

@[simp] theorem run_byte_cons (next : UInt8 → Grammar α) (b : UInt8) (bs : List UInt8) :
    (byte next).run (b :: bs) = (next b).run bs := rfl

/-- A grammar that goes on with another reads what the first leaves. -/
theorem run_andThen (g : Grammar α) (f : α → Grammar β) (bs : List UInt8) :
    (g.andThen f).run bs = (g.run bs).bind fun a rest => (f a).run rest := by
  induction g generalizing bs with
  | accept a => rw [run_accept]; rfl
  | reject =>
    rw [run_reject]
    exact run_reject bs
  | byte next ih =>
    cases bs with
    | nil => rfl
    | cons b bs => exact ih b bs

/-- Any `n` bytes are the first `n` of those at hand. -/
theorem run_bytes (n : Nat) (bs : List UInt8) :
    (bytes n).run bs = if n ≤ bs.length then .accepted (bs.take n) (bs.drop n) else .incomplete := by
  induction n generalizing bs with
  | zero => simp [bytes]
  | succ n ih =>
    cases bs with
    | nil => simp [bytes]
    | cons b bs =>
      rw [bytes, run_byte_cons, run_andThen, ih]
      by_cases h : n ≤ bs.length
      · simp [h, Verdict.bind]
      · simp [h, Verdict.bind]

end Grammar

end CodeAtlas
