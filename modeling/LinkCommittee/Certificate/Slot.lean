import LinkCommittee.Certificate.Word
import LinkCommittee.Digest.Keccak

/-!
# Slots

A contract keeps each of its fields at a base slot.  The elements of an array follow
the digest of its base slot; the members of an entry of a mapping follow the digest
of the entry's key and the base slot.  The data of a text follows the digest of the
slot of the text.
-/

namespace LinkCommittee

/-- The slot of an element of the array at `base`, or of a member of the entry `key` of the
mapping at `base`. -/
def positionalSlot (base : UInt64) (key : Option Word) (index : UInt64) : Word :=
  let front := match key with
    | none => []
    | some key => key.bytes.toList
  Word.advance ⟨Keccak.digest (front ++ (Word.ofUInt64 base).bytes.toList)⟩ index

/-- The slot derived from another slot and a salt. -/
def derivedSlot (base : Word) (salt : List UInt8) : Word :=
  ⟨Keccak.digest (base.bytes.toList ++ salt)⟩

/-- The slot where the data of the text at `field` begins. -/
def textSlot (field : Word) : Word := derivedSlot field []

end LinkCommittee
