import LinkCommittee.Ring.Challenge

/-!
# Linkable ring signatures

A signature holds a challenge and a response for every member of its anonymity set.
From the challenge at a position and the response there follow two commitments, and
from these the challenge at the next position.  A signature is accepted when the
walk once around the ring leads back to the challenge it started from.

Whoever knows the signing key at one position can close the ring: the commitments
there are made from a nonce before the challenge is known, the walk goes from the
next position around to the signer (`SignerWalk`), and the last response is chosen so
that the challenge met there gives the commitments already made.
-/

namespace LinkCommittee

/-- A member of the ring with the response given for it. -/
abbrev RingPosition := RingMember × Scalar

namespace RingPosition

/-- The two commitments that a challenge and a response give at a position. -/
def commitments (image : PublicKey) (challenge : Scalar) (position : RingPosition) :
    Point × Point :=
  (Point.ofScalar position.2 + (Point.finite position.1.key).scale challenge,
    (Point.finite position.1.base).scale position.2 + (Point.finite image).scale challenge)

/-- The challenge at the next position. -/
def next (hash : Point → Point → Scalar) (image : PublicKey) (challenge : Scalar)
    (position : RingPosition) : Scalar :=
  let (left, right) := commitments image challenge position
  hash left right

/-- The challenge after a run of positions. -/
def walk (hash : Point → Point → Scalar) (image : PublicKey) (challenge : Scalar)
    (positions : List RingPosition) : Scalar :=
  positions.foldl (next hash image) challenge

end RingPosition

/-- A linkable ring signature. -/
structure RingSignature where
  set : AnonymitySet
  image : PublicKey
  challenge : Scalar
  responses : List Scalar
  length_responses : responses.length = set.size
deriving DecidableEq

namespace RingSignature

/-- The transcript of a signature of a message. -/
def transcript (signature : RingSignature) (message : List UInt8) : Transcript :=
  signatureTranscript signature.set.digest signature.image message

/-- The members of the ring with their responses. -/
def positions (signature : RingSignature) : List RingPosition :=
  signature.set.members.zip signature.responses

/-- Accepts a signature whose challenges lead back to where they started. -/
def verify (signature : RingSignature) (message : List UInt8) : Except RingError Unit :=
  let hash := (signature.transcript message).challengeAfter
  if RingPosition.walk hash signature.image signature.challenge signature.positions
      = signature.challenge then .ok ()
  else .error .failedVerification

end RingSignature

/-- What a signer has written while it walks the ring: a challenge and a response for each place, zero
where none is known yet, and the source of the responses to come. -/
structure SignerWalk (size : Nat) where
  challenges : Vector Scalar size
  responses : Vector Scalar size
  source : NonceSource

namespace SignerWalk

variable (hash : Point → Point → Scalar) (image : PublicKey) (set : AnonymitySet)

/-- The commitments of a nonce give the challenge of the place behind the signer. -/
def start (own : Fin set.size) (nonce : Scalar) (source : NonceSource) : SignerWalk set.size where
  challenges := (Vector.replicate set.size Scalar.zero).set (set.place (own + 1))
    (hash (Point.ofScalar nonce) ((Point.finite (set.member own).base).scale nonce)) (Fin.isLt _)
  responses := Vector.replicate set.size Scalar.zero
  source

/-- Visits a place: draws the response there and writes the challenge of the place behind it. -/
def visit (walk : SignerWalk set.size) (place : Fin set.size) : SignerWalk set.size :=
  let (response, source) := walk.source.scalar
  { challenges := walk.challenges.set (set.place (place + 1))
      (RingPosition.next hash image (walk.challenges.get place) (set.member place, response))
      (Fin.isLt _)
    responses := walk.responses.set place response place.isLt
    source }

/-- Visits the other places, from the one behind the signer around to the one before it. -/
def around (walk : SignerWalk set.size) (own : Fin set.size) : SignerWalk set.size :=
  (List.range' 1 (set.size - 1)).foldl
    (fun walk offset => visit hash image set walk (set.place (own + offset))) walk

end SignerWalk

namespace RingSignature

/-- Signs a message over a set in which the key at the place of the witness belongs to it. -/
def sign (witness : Witness) (set : AnonymitySet) (message : List UInt8) (entropy : Octets 32) :
    Except RingError RingSignature :=
  match set.members[witness.index]? with
  | none => .error .signerNotInRing
  | some signer =>
    if Point.finite signer.key = witness.secret.publicPoint then
      let t := signatureTranscript set.digest witness.image message
      let hash := t.challengeAfter
      let own := set.place witness.index
      let (nonce, source) := (NonceSource.ofWitness t witness entropy).scalar
      let begun := SignerWalk.start hash set own nonce source
      let walk := begun.around hash witness.image set own
      let response := nonce - walk.challenges.get own * witness.secret.scalar
      .ok {
        set
        image := witness.image
        challenge := walk.challenges.get (set.place 0)
        responses := (walk.responses.set own response own.isLt).toList
        length_responses := Vector.length_toList }
    else .error .signerNotInRing

end RingSignature

end LinkCommittee
