import LinkCommittee.Ring.AnonymitySet

/-!
# Signing witnesses

A witness is what a signer knows: a signing key and the place of its public key in
an anonymity set.  The key image that belongs to it depends on the signing key
alone, so two signatures with one signing key show the same image.
-/

namespace LinkCommittee

/-- A signing key, its place in an anonymity set and its key image. -/
structure Witness where
  index : Nat
  secret : NonzeroScalar
  image : PublicKey
deriving DecidableEq

namespace Witness

/-- The witness of a signing key over a set that holds its public key. -/
def new (set : AnonymitySet) (secret : NonzeroScalar) : Except RingError Witness :=
  let place := secret.publicPoint.key?.bind set.position?
  match place, place.bind (set.members[·]?) with
  | some index, some member =>
    match ((Point.finite member.base).scale secret.scalar).key? with
    | some image => .ok ⟨index, secret, image⟩
    | none => .error (.invalidParameter .identityImage)
  | _, _ => .error .signerNotInRing

end Witness

end LinkCommittee
