import LinkCommittee.Digest.Keccak
import LinkCommittee.Text.Basic

/-!
# A duplex over Keccak-f[1600]

STROBE at the 128-bit level, as far as transcripts need it: a state of 200 bytes
of which 166 are read and written, and operations that begin by recording where
the operation before them began.  Data may be added to the state (`ad`,
`metaAd`), written over it (`key`) or squeezed out of it (`prf`).
-/

namespace LinkCommittee

/-- The state of the duplex: its bytes, the next position, and where the current operation began. -/
structure Strobe where
  bytes : Array UInt8
  position : Nat
  begun : Nat

namespace Strobe

/-- The number of bytes used between two permutations. -/
def rate : Nat := 166

/-- The operation moves data towards the application. -/
def inbound : UInt8 := 1

/-- The application takes part in the operation. -/
def application : UInt8 := 2

/-- The operation depends on the secrecy of the state. -/
def cipher : UInt8 := 4

/-- The data describes the operation that follows. -/
def framing : UInt8 := 16

/-- Adds a byte to the state at a position. -/
def addAt (bytes : Array UInt8) (position : Nat) (byte : UInt8) : Array UInt8 :=
  bytes.modify position (· ^^^ byte)

/-- Closes the block with the position at which the operation began, and permutes. -/
def turn (s : Strobe) : Strobe :=
  let bytes := addAt s.bytes s.position (UInt8.ofNat s.begun)
  let bytes := addAt bytes (s.position + 1) 0x04
  let bytes := addAt bytes (rate + 1) 0x80
  let lanes := Keccak.permute (Keccak.lanesOfBytes bytes.toList)
  ⟨(Keccak.bytesOfLanes lanes).toArray, 0, 0⟩

/-- Moves one position on, and turns when the block is full. -/
def advance (s : Strobe) : Strobe :=
  let s := { s with position := s.position + 1 }
  if s.position = rate then s.turn else s

/-- Adds data to the state. -/
def absorb (s : Strobe) (data : List UInt8) : Strobe :=
  data.foldl (fun s byte => advance { s with bytes := addAt s.bytes s.position byte }) s

/-- Writes data over the state. -/
def overwrite (s : Strobe) (data : List UInt8) : Strobe :=
  data.foldl (fun s byte => advance { s with bytes := s.bytes.setIfInBounds s.position byte }) s

/-- Takes `count` bytes out of the state and leaves zeros in their place. -/
def squeeze : (count : Nat) → Strobe → List UInt8 × Strobe
  | 0, s => ([], s)
  | count + 1, s =>
    let byte := s.bytes.getD s.position 0
    let (bytes, rest) :=
      squeeze count (advance { s with bytes := s.bytes.setIfInBounds s.position 0 })
    (byte :: bytes, rest)

/-- Begins an operation.  One that involves the cipher starts on a fresh block. -/
def begin (s : Strobe) (flags : UInt8) : Strobe :=
  let opened := { s with begun := s.position + 1 }.absorb [UInt8.ofNat s.begun, flags]
  if flags &&& cipher ≠ 0 ∧ opened.position ≠ 0 then opened.turn else opened

/-- Adds data that describes the next operation. -/
def metaAd (s : Strobe) (data : List UInt8) : Strobe :=
  (s.begin (framing ||| application)).absorb data

/-- Adds associated data. -/
def ad (s : Strobe) (data : List UInt8) : Strobe := (s.begin application).absorb data

/-- Draws `count` pseudorandom bytes. -/
def prf (s : Strobe) (count : Nat) : List UInt8 × Strobe :=
  squeeze count (s.begin (inbound ||| application ||| cipher))

/-- Replaces part of the state by secret data. -/
def key (s : Strobe) (data : List UInt8) : Strobe :=
  (s.begin (application ||| cipher)).overwrite data

/-- A fresh state for a protocol: the header names the rate and the version. -/
def new (label : List UInt8) : Strobe :=
  let header : List UInt8 := [1, 168, 1, 0, 1, 96] ++ utf8 "STROBEv1.0.2".toList
  let start := header ++ List.replicate (200 - header.length) 0
  let lanes := Keccak.permute (Keccak.lanesOfBytes start)
  metaAd ⟨(Keccak.bytesOfLanes lanes).toArray, 0, 0⟩ label

end Strobe

end LinkCommittee
