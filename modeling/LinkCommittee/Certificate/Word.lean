import LinkCommittee.Bytes
import LinkCommittee.Text.Hex

/-!
# Storage words

The storage of a contract maps words to words.  A word is 32 bytes, read as a number
with the most significant byte first; arithmetic on it wraps modulo `2 ^ 256`.
-/

namespace LinkCommittee

/-- A word of contract storage, a slot or what it holds. -/
structure Word where
  bytes : Octets 32
deriving DecidableEq

namespace Word

/-- What a slot holds that was never written. -/
def zero : Word := ⟨Octets.ofNat 32 0⟩

/-- The number that a word spells. -/
def toNat (w : Word) : Nat := w.bytes.toNat

/-- The word that spells a 64-bit number. -/
def ofUInt64 (number : UInt64) : Word := ⟨Octets.ofNat 32 number.toNat⟩

/-- The word `n` places after another, around the end of the storage. -/
def advance (w : Word) (n : UInt64) : Word := ⟨Octets.ofNat 32 (w.toNat + n.toNat)⟩

/-- The count that a word holds, provided its first 24 bytes are zero. -/
def toUInt64? (w : Word) : Option UInt64 :=
  if (w.bytes.toList.take 24).all (· == 0) then
    some (UInt64.ofNat (natOfBigEndian (w.bytes.toList.drop 24)))
  else none

/-- Moves all bytes one place towards the end, dropping the last. -/
def shiftRight (w : Word) : Word where
  bytes := {
    toList := 0 :: w.bytes.toList.take 31
    length_toList := by simp [w.bytes.length_toList] }

/-- The text of a word: a mark and 64 digits. -/
def toChars (w : Word) : List Char := '0' :: 'x' :: Hex.encode w.bytes.toList

end Word

end LinkCommittee
