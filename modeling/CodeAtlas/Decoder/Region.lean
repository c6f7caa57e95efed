import CodeAtlas.Decoder.Basic

/-!
# Decoding bytes in memory

Bytes that are all at hand are decoded through the same decoder, over a source that delivers them in one
piece.
-/

namespace CodeAtlas

namespace Decoder

/-- A decoder over bytes at hand, the first of them at `address`. -/
def overBytes (bs : List UInt8) (address : UInt64) : Decoder :=
  start (.ofBytes bs) (DecoderConfig.standard.withBaseAddress address)

/-- The instructions that the iteration brings in at most `steps` steps, or the first fault. -/
def collect : (steps : Nat) → Decoder → Except DecodeFault (List Decoded)
  | 0, _ => .ok []
  | steps + 1, d =>
    match d.next with
    | (none, _) => .ok []
    | (some (.error fault), _) => .error fault
    | (some (.ok i), d') => (collect steps d').map (i :: ·)

end Decoder

/-- The first instruction of the bytes at `address`; no bytes at all are a truncated instruction. -/
def decodeSingle (bs : List UInt8) (address : UInt64) : Except DecodeFault Decoded :=
  match (Decoder.overBytes bs address).decodeNext.1 with
  | .ok (some d) => .ok d
  | .ok none => .error (.truncated address [])
  | .error fault => .error fault

/-- All instructions of the bytes at `address`, or the first fault.  Every instruction takes at least one
byte, so there are at most as many as bytes. -/
def decodeAll (bs : List UInt8) (address : UInt64) : Except DecodeFault (List Decoded) :=
  (Decoder.overBytes bs address).collect (bs.length + 1)

/-- A stretch of code: its first address and its bytes. -/
structure Region where
  address : UInt64
  bytes : List UInt8
deriving DecidableEq

/-- Decodes regions independently of one another, in order. -/
def decodeRegions (regions : List Region) : List (Except DecodeFault (List Decoded)) :=
  regions.map fun r => decodeAll r.bytes r.address

end CodeAtlas
