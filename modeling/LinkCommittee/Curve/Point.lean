import LinkCommittee.Curve.Field

/-!
# Points of secp256k1

The curve is `y ^ 2 = x ^ 3 + 7`.  A public key is a pair of coordinates on the
curve; the points are the public keys and the identity.  Points are added by the
chord and tangent rule.  The rule yields coordinates that satisfy the equation
again; they are checked once more to make a point of them.
-/

namespace LinkCommittee

/-- The equation of the curve. -/
def OnCurve (x y : Coordinate) : Prop := y.square = x.square * x + Coordinate.ofNat 7

instance (x y : Coordinate) : Decidable (OnCurve x y) :=
  inferInstanceAs (Decidable (_ = _))

/-- A public key: a point of the curve other than the identity. -/
structure PublicKey where
  x : Coordinate
  y : Coordinate
  onCurve : OnCurve x y
deriving DecidableEq

/-- A point of the curve. -/
inductive Point where
  | identity
  | finite (key : PublicKey)
deriving DecidableEq

namespace PublicKey

/-- Takes a pair of coordinates that lie on the curve. -/
def ofCoordinates? (x y : Coordinate) : Option PublicKey :=
  if h : OnCurve x y then some ⟨x, y, h⟩ else none

/-- The third point on the line of slope `slope` through a key and a second abscissa, reflected. -/
def reflectedThird (a : PublicKey) (slope x : Coordinate) : Option PublicKey :=
  let x' := slope.square - a.x - x
  ofCoordinates? x' (slope * (a.x - x') - a.y)

end PublicKey

namespace Point

/-- The public key that a point is, unless it is the identity. -/
def key? : Point → Option PublicKey
  | identity => none
  | finite key => some key

/-- A point from a key that may be missing. -/
def ofKey? : Option PublicKey → Point
  | none => identity
  | some key => finite key

/-- The sum of two points. -/
def add : Point → Point → Point
  | identity, b => b
  | a, identity => a
  | finite a, finite b =>
    if a.x = b.x then
      if a.y = b.y then
        let slope := Coordinate.ofNat 3 * a.x.square * (a.y + a.y).inverse
        ofKey? (a.reflectedThird slope a.x)
      else identity
    else
      let slope := (b.y - a.y) * (b.x - a.x).inverse
      ofKey? (a.reflectedThird slope b.x)

instance : Add Point := ⟨add⟩

end Point

end LinkCommittee
