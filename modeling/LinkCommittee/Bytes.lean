/-!
# Byte strings and the numbers they spell

A byte string is a list of bytes.  Two numerals in base 256 are used: least
significant byte first (`littleEndian`) and most significant byte first
(`bigEndian`).  `Octets n` holds the byte strings of length `n`; keys, digests
and storage words are all of this kind.
-/

namespace LinkCommittee

/-- The number spelled by `bytes`, least significant byte first. -/
def natOfLittleEndian : List UInt8 → Nat
  | [] => 0
  | byte :: bytes => byte.toNat + 256 * natOfLittleEndian bytes

/-- The `width` lowest base-256 digits of a number, least significant first. -/
def littleEndian : (width : Nat) → (number : Nat) → List UInt8
  | 0, _ => []
  | width + 1, number => UInt8.ofNat (number % 256) :: littleEndian width (number / 256)

/-- The number spelled by `bytes`, most significant byte first. -/
def natOfBigEndian (bytes : List UInt8) : Nat := natOfLittleEndian bytes.reverse

/-- The `width` lowest base-256 digits of `number`, most significant first. -/
def bigEndian (width number : Nat) : List UInt8 := (littleEndian width number).reverse

@[simp] theorem length_littleEndian (width number : Nat) :
    (littleEndian width number).length = width := by
  induction width generalizing number with
  | zero => rfl
  | succ width ih => simp [littleEndian, ih]

@[simp] theorem length_bigEndian (width number : Nat) :
    (bigEndian width number).length = width := by
  simp [bigEndian]

/-- The pieces of `items` of length `width`, in order; the last may be shorter. -/
def chunks {α : Type} (width : Nat) (pos : 0 < width) (items : List α) : List (List α) :=
  if items.isEmpty then [] else items.take width :: chunks width pos (items.drop width)
termination_by items.length
decreasing_by
  cases items with
  | nil => simp_all
  | cons => simp; omega

/-- The byte strings of length `n`. -/
structure Octets (n : Nat) where
  toList : List UInt8
  length_toList : toList.length = n
deriving DecidableEq

namespace Octets

/-- Takes a list for a byte string of length `n` if it has that length. -/
def ofList? (n : Nat) (bytes : List UInt8) : Option (Octets n) :=
  if h : bytes.length = n then some ⟨bytes, h⟩ else none

/-- The number that a byte string spells, most significant byte first. -/
def toNat {n : Nat} (bytes : Octets n) : Nat := natOfBigEndian bytes.toList

/-- The byte string of length `n` that spells `number` modulo `256 ^ n`. -/
def ofNat (n number : Nat) : Octets n := ⟨bigEndian n number, length_bigEndian n number⟩

/-- Changes the byte in one place. -/
def modify {n : Nat} (bytes : Octets n) (place : Nat) (change : UInt8 → UInt8) : Octets n :=
  ⟨bytes.toList.modify place change, by rw [List.length_modify, bytes.length_toList]⟩

/-- One byte string after another. -/
def append {m n : Nat} (first : Octets m) (second : Octets n) : Octets (m + n) :=
  ⟨first.toList ++ second.toList, by simp [first.length_toList, second.length_toList]⟩

end Octets

end LinkCommittee
