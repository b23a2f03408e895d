import LinkCommittee.Address.AbAddress
import LinkCommittee.Curve.Hashing
import LinkCommittee.Share.Key

/-!
# Combining shares

Two shares of different owners lie on a line; its value at zero is a multiple of
the owner's key by the system secret.  From such a shared key and the auxiliary
point of a request follows the identity point that the request has to show.
-/

namespace LinkCommittee

/-- The text under which shared keys are hashed. -/
def scanDerivationUse : String := "AB committee scan derivation"

/-- A way to combine two share entries into a key, and to derive an identity point from it. -/
structure Combiner where
  combine : ShareEntry → ShareEntry → Except SharingError PublicKey
  derive : PublicKey → PublicKey → Except SharingError PublicKey

/-- The key that a point is, which the identity is not. -/
def Point.toKey (point : Point) : Except SharingError PublicKey :=
  match point.key? with
  | some key => .ok key
  | none => .error .identityPoint

/-- The inverse of a scalar, which zero does not have. -/
def Scalar.inverse? (a : Scalar) : Option Scalar := if a = Scalar.zero then none else some a.inverse

namespace Share

/-- The value at zero of the line through two shares of different owners.  If the difference of the
owners had no inverse, the answer would be `failure`. -/
def interpolateOr (failure : SharingError) (a b : Share) : Except SharingError PublicKey :=
  let x := a.owner.scalar
  let y := b.owner.scalar
  if x = y then .error .duplicateOwner
  else match (y - x).inverse? with
    | none => .error failure
    | some inverse =>
      ((Point.finite a.point).scale (y * inverse) +
        (Point.finite b.point).scale (-(x * inverse))).toKey

/-- Interpolation of which a missing inverse would mean that the owners are the same. -/
def interpolate (a b : Share) : Except SharingError PublicKey := interpolateOr .duplicateOwner a b

/-- Combines two share entries by such an interpolation. -/
def combineOr (failure : SharingError) (a b : ShareEntry) : Except SharingError PublicKey := do
  let a ← ofEntry a
  let b ← ofEntry b
  interpolateOr failure a b

/-- Combines two share entries. -/
def combine (a b : ShareEntry) : Except SharingError PublicKey := combineOr .duplicateOwner a b

end Share

/-- The identity point for a shared key and an auxiliary point. -/
def deriveIdentity (shared auxiliary : PublicKey) : Except SharingError PublicKey :=
  let h := (Point.finite shared).hashToScalar scanDerivationUse
  (Point.ofScalar h + Point.finite auxiliary).toKey

/-- The combiner of the committee: interpolation at zero on secp256k1. -/
def Combiner.lagrange : Combiner := ⟨Share.combine, deriveIdentity⟩

/-- The address that a request by an owner carries, made with an auxiliary secret. -/
def deriveRequest (owner : NonzeroScalar) (system : PublicKey) (auxiliary : NonzeroScalar) :
    Except SharingError AbAddress := do
  let shared ← ((Point.finite system).scale owner.scalar).toKey
  let point ← auxiliary.publicPoint.toKey
  let identity ← deriveIdentity shared point
  return AbAddress.ofKeys identity point

end LinkCommittee
