import LinkCommittee.Curve.Multiplication

/-!
# Encodings of points

A public key is written as a tag and its coordinates: `02` or `03` for an even or
odd ordinate before the abscissa alone, `04` before both coordinates.  Reading
also takes `05` before the abscissa of the key with even ordinate.  The identity
has no encoding as a public key; where a point is hashed it is the single byte
`00`.
-/

namespace LinkCommittee

namespace PublicKey

/-- The tag and the abscissa. -/
def compress (key : PublicKey) : Octets 33 :=
  Octets.append ⟨[if key.y.isOdd then 0x03 else 0x02], rfl⟩ key.x.toBytes

/-- The tag and both coordinates. -/
def uncompressed (key : PublicKey) : Octets 65 :=
  Octets.append ⟨[0x04], rfl⟩ (Octets.append key.x.toBytes key.y.toBytes)

/-- The public key with the given abscissa and parity of the ordinate. -/
def ofAbscissa? (x : Coordinate) (odd : Bool) : Option PublicKey := do
  let root ← Coordinate.squareRoot? (x.square * x + Coordinate.ofNat 7)
  ofCoordinates? x (if root.isOdd = odd then root else -root)

/-- Reads an abscissa, for an ordinate of the given parity. -/
def ofAbscissaBytes? (bytes : List UInt8) (odd : Bool) : Option PublicKey := do
  guard (bytes.length = 32)
  let x ← Coordinate.ofBytes? bytes
  ofAbscissa? x odd

/-- Reads both coordinates. -/
def ofCoordinateBytes? (bytes : List UInt8) : Option PublicKey := do
  guard (bytes.length = 64)
  let x ← Coordinate.ofBytes? (bytes.take 32)
  let y ← Coordinate.ofBytes? (bytes.drop 32)
  ofCoordinates? x y

/-- Reads an encoded public key. -/
def decode? : List UInt8 → Option PublicKey
  | [] => none
  | tag :: bytes =>
    if tag = 0x02 ∨ tag = 0x05 then ofAbscissaBytes? bytes false
    else if tag = 0x03 then ofAbscissaBytes? bytes true
    else if tag = 0x04 then ofCoordinateBytes? bytes
    else none

end PublicKey

/-- The bytes of a point where it is hashed. -/
def Point.toBytes : Point → List UInt8
  | .identity => [0x00]
  | .finite key => key.compress.toList

end LinkCommittee
