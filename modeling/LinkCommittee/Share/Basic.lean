import LinkCommittee.Curve.Encoding
import LinkCommittee.Message.ShareEntry
import LinkCommittee.Share.Error
import LinkCommittee.Text.Base64

/-!
# Public shares

A public share is a point together with the scalar that names its owner.  As a
share entry its owner and its coordinates are 32 bytes each, in URL-safe base64.
-/

namespace LinkCommittee

/-- The field of a 32-byte value. -/
def encodeCoordinate (bytes : Octets 32) : List Char := Base64.encode bytes.toList

/-- Reads the field of a 32-byte value. -/
def decodeCoordinate (text : List Char) : Except SharingError (Octets 32) :=
  if byteLength text ≠ fieldWidth then .error (.invalidShare .coordinateWidth)
  else match (Base64.decode text).bind (Octets.ofList? 32) with
    | some bytes => .ok bytes
    | none => .error (.invalidShare .coordinateText)

/-- The field of an owner. -/
def encodeOwner (owner : NonzeroScalar) : List Char := encodeCoordinate owner.scalar.toBytes

/-- Reads the field of an owner: a scalar other than zero. -/
def decodeOwner (text : List Char) : Except SharingError NonzeroScalar := do
  let bytes ← decodeCoordinate text
  match Scalar.ofBytes? bytes.toList with
  | none => .error (.invalidShare .ownerRange)
  | some owner => match NonzeroScalar.ofScalar? owner with
    | none => .error (.invalidShare .ownerZero)
    | some owner => .ok owner

/-- A point and the owner of the secret that it was multiplied by. -/
structure Share where
  owner : NonzeroScalar
  point : PublicKey
deriving DecidableEq

namespace Share

/-- Reads a share entry. -/
def ofEntry (entry : ShareEntry) : Except SharingError Share := do
  let owner ← decodeOwner entry.owner
  let x ← decodeCoordinate entry.x
  let y ← decodeCoordinate entry.y
  match PublicKey.ofCoordinateBytes? (x.toList ++ y.toList) with
  | none => .error (.invalidShare .offCurve)
  | some point => .ok ⟨owner, point⟩

/-- The entry of a share. -/
def toEntry (share : Share) : Except MessageError ShareEntry :=
  ShareEntry.ofFields (encodeOwner share.owner) (encodeCoordinate share.point.x.toBytes)
    (encodeCoordinate share.point.y.toBytes)

end Share

end LinkCommittee
