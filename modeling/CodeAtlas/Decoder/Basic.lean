import CodeAtlas.Encoding.Instruction
import CodeAtlas.Stream.Lookahead

/-!
# The streaming decoder

A decoder reads one instruction after the other from a source.  It follows the grammar of instructions with
the bytes of a lookahead: an accepted instruction is committed, anything else puts the cursor back, so a
failed attempt takes nothing from the stream.

* `Decoder.decodeNext` — the next instruction, none at the end of the source, or a fault;
* `Decoder.next` — the same as an iteration that is over after its first fault or its end.
-/

namespace CodeAtlas

/-- The settings of a decoder. -/
structure DecoderConfig where
  /-- How many bytes a read asks for. -/
  chunkSize : Nat
  /-- The stream offset of the first byte. -/
  baseAddress : UInt64
deriving DecidableEq

namespace DecoderConfig

/-- Chunks of sixteen bytes, offsets from zero. -/
def standard : DecoderConfig :=
  ⟨Lookahead.defaultChunk, 0⟩

/-- Sets the chunk size, which is at least one. -/
def withChunkSize (c : DecoderConfig) (n : Nat) : DecoderConfig :=
  { c with chunkSize := max n 1 }

/-- Sets the stream offset of the first byte. -/
def withBaseAddress (c : DecoderConfig) (address : UInt64) : DecoderConfig :=
  { c with baseAddress := address }

end DecoderConfig

/-- Why a grammar was not followed to an accepting end. -/
inductive Halt where
  /-- The source ended. -/
  | ended
  /-- The grammar rejected the bytes. -/
  | rejected
  /-- The next byte could not be had. -/
  | stream (f : StreamFault)
deriving DecidableEq

namespace Lookahead

/-- Follows a grammar with the bytes from the cursor on. -/
def follow {α : Type} : Grammar α → EStateM Halt Lookahead α
  | .accept a => fun r => .ok a r
  | .reject => fun r => .error .rejected r
  | .byte next => fun r =>
    match nextByte r with
    | .ok (some b) r' => follow (next b) r'
    | .ok none r' => .error .ended r'
    | .error f r' => .error (.stream f) r'

end Lookahead

/-- A decoder over a source. -/
structure Decoder where
  input : Lookahead
  /-- Whether the iteration is over. -/
  finished : Bool

namespace Decoder

/-- A fresh decoder. -/
def start (source : Source) (c : DecoderConfig) : Decoder where
  input := .start source c.chunkSize c.baseAddress
  finished := false

/-- Stream offset of the next instruction. -/
def position (d : Decoder) : UInt64 :=
  d.input.position

/-- The bytes that an attempt has read so far. -/
def bytesRead (r : Lookahead) : List UInt8 :=
  match r.pending with
  | .ok bs => bs
  | .error _ => []

/-- The fault of an attempt at `offset` that stopped in the given state. -/
def faultOf (offset : UInt64) (r : Lookahead) : Halt → DecodeFault
  | .ended => .truncated offset (bytesRead r)
  | .rejected => .unrecognized offset (bytesRead r)
  | .stream f => .stream f

/-- The notes about a fault, in order. -/
def notesOf (offset : UInt64) (fault : DecodeFault) : List Note :=
  match fault with
  | .truncated o bs => [.truncated o bs, .failed offset fault]
  | .unrecognized o bs => [.unrecognized o bs, .failed offset fault]
  | .stream _ => [.failed offset fault]

/-- Commits the bytes of an accepted instruction that started at `offset`. -/
def accept (offset : UInt64) (p : Prefixes) (i : Instruction) (r : Lookahead) :
    EStateM.Result DecodeFault Lookahead Decoded :=
  match Lookahead.commit r.cursor r with
  | .ok () r' =>
    .ok ⟨offset, r.cursor, p, i⟩ (r'.note (.decoded i.mnemonic offset r.cursor))
  | .error f r' => .error (.stream f) r'

/-- Puts the cursor back after an attempt that failed. -/
def giveUp (offset : UInt64) (back : Lookahead.Checkpoint) (halt : Halt) (r : Lookahead) :
    EStateM.Result DecodeFault Lookahead Decoded :=
  let fault := faultOf offset r halt
  let noted := (notesOf offset fault).foldl (fun s n => s.note n) r
  match Lookahead.restore back noted with
  | .ok () r' => .error fault r'
  | .error f r' => .error (.stream f) r'

/-- One attempt to decode an instruction at the cursor. -/
def attempt (r : Lookahead) : EStateM.Result DecodeFault Lookahead Decoded :=
  match Lookahead.follow Encoding.instruction r with
  | .ok (p, i) r' => accept r.position p i r'
  | .error halt r' => giveUp r.position r.checkpoint halt r'

/-- The next instruction, none if the source ends before it, or the fault that prevents it.  A fault leaves
the position where it was. -/
def decodeNext (d : Decoder) : Except DecodeFault (Option Decoded) × Decoder :=
  match Lookahead.hasData d.input with
  | .error f r => (.error (.stream f), { d with input := r })
  | .ok false r => (.ok none, { d with input := r })
  | .ok true r =>
    match attempt r with
    | .ok i r' => (.ok (some i), { d with input := r' })
    | .error fault r' => (.error fault, { d with input := r' })

/-- One step of the iteration over all instructions.  It is over after its first fault and at the end of
the source, and then no step touches the source. -/
def next (d : Decoder) : Option (Except DecodeFault Decoded) × Decoder :=
  if d.finished then (none, d)
  else
    match d.decodeNext with
    | (.ok (some i), d') => (some (.ok i), d')
    | (.ok none, d') => (none, { d' with finished := true })
    | (.error fault, d') => (some (.error fault), { d' with finished := true })

end Decoder

end CodeAtlas
