import LinkCommittee.Ring.Witness
import LinkCommittee.Transcript.Basic

/-!
# Challenges and nonces of ring signatures

The transcript of a signature absorbs the anonymity set, the key image and the
message.  From it come the challenge that follows a pair of commitments and the
nonces of the signer.  `challengeAfter` is all that verification needs to know of
the transcript.
-/

namespace LinkCommittee

/-- The transcript that the challenges of a signature depend on. -/
def signatureTranscript (digest : Octets 32) (image : PublicKey) (message : List UInt8) :
    Transcript :=
  (((Transcript.new "AB committee ring signature").appendNat "version" 0
    |>.append "input_set" digest.toList)
    |>.append "key_image" image.compress.toList)
    |>.append "message" message

/-- The challenge that follows the two commitments of a position. -/
def Transcript.challengeAfter (t : Transcript) (left right : Point) : Scalar :=
  Scalar.reduceBytes (((t.append "L" left.toBytes).append "R" right.toBytes).challenge "c" 32)

namespace NonceSource

/-- A nonce source that depends on the transcript, the witness and outside entropy. -/
def ofWitness (t : Transcript) (witness : Witness) (entropy : Octets 32) : NonceSource :=
  fork t [("l", littleEndian 4 witness.index), ("x", witness.secret.scalar.toBytes.toList)]
    entropy.toList

/-- Draws until the bytes spell a scalar, at most `attempts` times; then reduces the last draw.
A draw misses with a probability below `2 ^ -127`, so the bound is never met. -/
def scalarWithin : (attempts : Nat) → NonceSource → Scalar × NonceSource
  | 0, source =>
    let (bytes, source) := source.draw 32
    (Scalar.reduceBytes bytes, source)
  | attempts + 1, source =>
    let (bytes, next) := source.draw 32
    match Scalar.ofBytes? bytes with
    | some scalar => (scalar, next)
    | none => scalarWithin attempts next

/-- Draws a scalar. -/
def scalar (source : NonceSource) : Scalar × NonceSource := scalarWithin 256 source

/-- Draws `count` scalars. -/
def scalars : (count : Nat) → NonceSource → List Scalar × NonceSource
  | 0, source => ([], source)
  | count + 1, source =>
    let (first, source) := source.scalar
    let (rest, source) := scalars count source
    (first :: rest, source)

@[simp] theorem length_scalars (count : Nat) (source : NonceSource) :
    (scalars count source).1.length = count := by
  induction count generalizing source with
  | zero => rfl
  | succ count ih => simp [scalars, ih]

end NonceSource

end LinkCommittee
