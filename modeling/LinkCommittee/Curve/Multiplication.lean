import LinkCommittee.Curve.Point

/-!
# Multiplication of points

A multiple of a point is computed by doubling and adding, most significant bit
first.  To divide only once, the running point is kept as a triple `(x, y, z)`
that stands for `(x / z ^ 2, y / z ^ 3)`, and for the identity where `z` is zero.
-/

namespace LinkCommittee

/-- A point by weighted coordinates. -/
structure WeightedPoint where
  x : Coordinate
  y : Coordinate
  z : Coordinate

namespace WeightedPoint

/-- The identity. -/
def identity : WeightedPoint := ⟨Coordinate.ofNat 1, Coordinate.ofNat 1, Coordinate.ofNat 0⟩

/-- The weighted coordinates of a public key. -/
def ofKey (key : PublicKey) : WeightedPoint := ⟨key.x, key.y, Coordinate.ofNat 1⟩

/-- Twice a point. -/
def double (a : WeightedPoint) : WeightedPoint :=
  let yy := a.y.square
  let s := Coordinate.ofNat 4 * a.x * yy
  let m := Coordinate.ofNat 3 * a.x.square
  let x := m.square - (s + s)
  ⟨x, m * (s - x) - Coordinate.ofNat 8 * yy.square, (a.y + a.y) * a.z⟩

/-- The sum of a point and a public key. -/
def addKey (a : WeightedPoint) (key : PublicKey) : WeightedPoint :=
  if a.z = Coordinate.ofNat 0 then ofKey key
  else
    let zz := a.z.square
    let h := key.x * zz - a.x
    let r := key.y * (zz * a.z) - a.y
    if h = Coordinate.ofNat 0 then
      if r = Coordinate.ofNat 0 then a.double else identity
    else
      let hh := h.square
      let hhh := hh * h
      let v := a.x * hh
      let x := r.square - hhh - (v + v)
      ⟨x, r * (v - x) - a.y * hhh, a.z * h⟩

/-- The point that the weighted coordinates stand for. -/
def toPoint (a : WeightedPoint) : Point :=
  if a.z = Coordinate.ofNat 0 then .identity
  else
    let w := a.z.inverse
    .ofKey? (PublicKey.ofCoordinates? (a.x * w.square) (a.y * (w.square * w)))

/-- The multiple of a public key by the `width` lowest bits of a number. -/
def multiple (key : PublicKey) : (width : Nat) → (number : Nat) → WeightedPoint
  | 0, _ => identity
  | width + 1, number =>
    let half := (multiple key width (number / 2)).double
    if number % 2 = 1 then half.addKey key else half

end WeightedPoint

namespace Point

/-- The multiple of a point by a scalar. -/
def scale (k : Scalar) : Point → Point
  | identity => identity
  | finite key => (WeightedPoint.multiple key 256 k.val).toPoint

/-- The generator of the group. -/
def generator : Point :=
  .finite {
    x := Coordinate.ofNat 0x79BE667EF9DCBBAC55A06295CE870B07029BFCDB2DCE28D959F2815B16F81798
    y := Coordinate.ofNat 0x483ADA7726A3C4655DA4FBFC0E1108A8FD17B448A68554199C47D08FFB10D4B8
    onCurve := by decide }

/-- The multiple of the generator by a scalar. -/
def ofScalar (k : Scalar) : Point := scale k generator

end Point

/-- A scalar other than zero: a signing key, a share owner or a secret. -/
structure NonzeroScalar where
  scalar : Scalar
  ne_zero : scalar ≠ Scalar.zero
deriving DecidableEq

namespace NonzeroScalar

/-- Takes a scalar other than zero. -/
def ofScalar? (scalar : Scalar) : Option NonzeroScalar :=
  if h : scalar ≠ Scalar.zero then some ⟨scalar, h⟩ else none

/-- Reads 32 bytes that spell a scalar other than zero. -/
def ofBytes? (bytes : List UInt8) : Option NonzeroScalar :=
  (Scalar.ofBytes? bytes).bind ofScalar?

/-- The public point of a signing key. -/
def publicPoint (secret : NonzeroScalar) : Point := Point.ofScalar secret.scalar

end NonzeroScalar

end LinkCommittee
