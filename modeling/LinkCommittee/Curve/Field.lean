import LinkCommittee.Bytes
import LinkCommittee.Curve.Residue

/-!
# The two fields of secp256k1

Coordinates are residues modulo the prime `p`; scalars are residues modulo the
prime `q`, the number of points of the curve.  Both travel as 32 bytes, most
significant first, and only least representatives are accepted.
-/

namespace LinkCommittee

/-- The field prime of secp256k1. -/
def fieldPrime : Nat := 0xFFFFFFFFFFFFFFFFFFFFFFFFFFFFFFFFFFFFFFFFFFFFFFFFFFFFFFFEFFFFFC2F

/-- The number of points of secp256k1. -/
def groupOrder : Nat := 0xFFFFFFFFFFFFFFFFFFFFFFFFFFFFFFFEBAAEDCE6AF48A03BBFD25E8CD0364141

theorem fieldPrime_pos : 0 < fieldPrime := by decide

theorem groupOrder_pos : 0 < groupOrder := by decide

/-- A coordinate of a point. -/
abbrev Coordinate := Residue fieldPrime

/-- A scalar: a multiplier of points. -/
abbrev Scalar := Residue groupOrder

namespace Coordinate

/-- The coordinate congruent to a number. -/
def ofNat (number : Nat) : Coordinate := Residue.reduce fieldPrime_pos number

/-- Reads 32 bytes that spell a number below the field prime. -/
def ofBytes? (bytes : List UInt8) : Option Coordinate := Residue.ofNat? (natOfBigEndian bytes)

/-- The 32 bytes of a coordinate. -/
def toBytes (a : Coordinate) : Octets 32 := Octets.ofNat 32 a.val

/-- The power of `a` that is a square root of `a` if there is one, as `p` leaves 3 modulo 4. -/
def rootCandidate (a : Coordinate) : Coordinate := a.power ((fieldPrime + 1) / 4)

/-- A square root of `a`, if there is one. -/
def squareRoot? (a : Coordinate) : Option Coordinate :=
  if a.rootCandidate.square = a then some a.rootCandidate else none

end Coordinate

namespace Scalar

/-- The scalar congruent to a number. -/
def ofNat (number : Nat) : Scalar := Residue.reduce groupOrder_pos number

/-- The scalar zero. -/
def zero : Scalar := ofNat 0

/-- Reads 32 bytes that spell a number below the group order. -/
def ofBytes? (bytes : List UInt8) : Option Scalar := Residue.ofNat? (natOfBigEndian bytes)

/-- The scalar congruent to the number that the bytes spell. -/
def reduceBytes (bytes : List UInt8) : Scalar := ofNat (natOfBigEndian bytes)

/-- The 32 bytes of a scalar. -/
def toBytes (a : Scalar) : Octets 32 := Octets.ofNat 32 a.val

end Scalar

end LinkCommittee
