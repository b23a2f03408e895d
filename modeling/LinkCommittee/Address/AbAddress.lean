import LinkCommittee.Address.Error
import LinkCommittee.Curve.Encoding
import LinkCommittee.Text.Hex

/-!
# AB addresses

An AB address is two compressed keys one after the other: the key of an owner and
the key of the system.  A request for verification has the same shape, with an
identity point and an auxiliary point in the two places.  The bytes of an address
need not be keys; `decompress` says whether they are.
-/

namespace LinkCommittee

/-- The system key, the second half of every owner's address. -/
def systemKey : PublicKey where
  x := Coordinate.ofNat 0xE524EC8293017832C2D1E29DE5D4B857D15087646B88846FB92F749551E19FA1
  y := Coordinate.ofNat 0xDA92BCB54407CF6AAC98670DC2BBB4B4043641A421D74A2D7E5535CD6D539F75
  onCurve := by decide

/-- Two compressed keys, as 66 bytes. -/
structure AbAddress where
  bytes : Octets 66
deriving DecidableEq

/-- Reads a public key, or refuses. -/
def PublicKey.parse (bytes : List UInt8) : Except AddressError PublicKey :=
  match PublicKey.decode? bytes with
  | some key => .ok key
  | none => .error .invalidKey

namespace AbAddress

/-- The address made of two keys. -/
def ofKeys (first second : PublicKey) : AbAddress := ⟨first.compress.append second.compress⟩

/-- The address of an owner. -/
def ofOwner (owner : PublicKey) : AbAddress := ofKeys owner systemKey

/-- The address of the owner whose key is encoded by `bytes`. -/
def derive (bytes : List UInt8) : Except AddressError AbAddress :=
  (PublicKey.parse bytes).map ofOwner

/-- Takes 66 bytes. -/
def ofBytes (bytes : List UInt8) : Except AddressError AbAddress :=
  match Octets.ofList? 66 bytes with
  | some bytes => .ok ⟨bytes⟩
  | none => .error (.invalidEncoding .bytes)

/-- Reads 132 hexadecimal digits after an optional mark. -/
def ofChars (text : List Char) : Except AddressError AbAddress :=
  match (Hex.decode (Hex.dropMark text)).bind (Octets.ofList? 66) with
  | some bytes => .ok ⟨bytes⟩
  | none => .error (.invalidEncoding .hexText)

/-- Reads the text of an address. -/
def ofText (text : String) : Except AddressError AbAddress := ofChars text.toList

/-- The first 33 bytes: the place of the owner's key or the identity point. -/
def first (address : AbAddress) : List UInt8 := address.bytes.toList.take 33

/-- The last 33 bytes: the place of the system key or the auxiliary point. -/
def second (address : AbAddress) : List UInt8 := address.bytes.toList.drop 33

/-- The two keys that an address denotes, if both halves are keys. -/
def decompress (address : AbAddress) : Except AddressError (PublicKey × PublicKey) := do
  let first ← PublicKey.parse address.first
  let second ← PublicKey.parse address.second
  return (first, second)

/-- The 132 lowercase digits of an address. -/
def toChars (address : AbAddress) : List Char := Hex.encode address.bytes.toList

/-- The text of an address. -/
def toText (address : AbAddress) : String := String.ofList address.toChars

end AbAddress

end LinkCommittee
