import LinkCommittee.Ring.Encoding

/-!
# Ring signature schemes

A scheme makes, checks and opens ring signatures as text.  What refers to a scheme
works with any; `RingScheme.linkable` is the one of the committee.  A signature
that cannot be read counts as one that is not accepted.
-/

namespace LinkCommittee

/-- A signature and its key image as text. -/
structure SignatureText where
  signature : List Char
  image : List Char
deriving DecidableEq

/-- A way to make, check and open ring signatures; `ε` says why making one fails. -/
structure RingScheme (ε : Type) where
  sign : List UInt8 → NonzeroScalar → List PublicKey → Octets 32 → Except ε SignatureText
  verify : List UInt8 → List Char → Bool
  ring? : List Char → Option (List PublicKey)

namespace RingSignature

/-- The text of a signature of a message and of its key image. -/
def signText (message : List UInt8) (secret : NonzeroScalar) (keys : List PublicKey)
    (entropy : Octets 32) : Except RingError SignatureText := do
  let set ← AnonymitySet.ofKeys keys
  let witness ← Witness.new set secret
  let signature ← sign witness set message entropy
  return ⟨signature.toChars, Hex.encode signature.image.compress.toList⟩

/-- Whether a text is an accepted signature of a message. -/
def verifyText (message : List UInt8) (text : List Char) : Bool :=
  match ofChars text with
  | .error _ => false
  | .ok signature => (signature.verify message).isOk

/-- The keys of the ring of a signature. -/
def ringOfText? (text : List Char) : Option (List PublicKey) :=
  (ofChars text).toOption.map fun signature => signature.set.keys

end RingSignature

/-- Linkable ring signatures in hexadecimal text. -/
def RingScheme.linkable : RingScheme RingError :=
  ⟨RingSignature.signText, RingSignature.verifyText, RingSignature.ringOfText?⟩

end LinkCommittee
