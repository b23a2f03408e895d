import LinkCommittee.Ring.Signature
import LinkCommittee.Text.Hex

/-!
# Encodings of ring signatures

A signature is written as the size of its ring in four bytes, least significant
first, the compressed keys, the compressed key image, the challenge and the
responses.  Reading accepts exactly what writing produces.  As text a signature is
the hexadecimal form of these bytes; a frame is their number in four bytes before
them.
-/

namespace LinkCommittee

namespace RingSignature

/-- The length of the encoding of a signature over a ring of `size` keys. -/
def encodedLength (size : Nat) : Nat := 4 + 33 * size + 33 + 32 + 32 * size

/-- The bytes of a signature. -/
def toBytes (signature : RingSignature) : List UInt8 :=
  littleEndian 4 signature.set.size
    ++ signature.set.keys.flatMap (fun key => key.compress.toList)
    ++ signature.image.compress.toList
    ++ signature.challenge.toBytes.toList
    ++ signature.responses.flatMap (fun response => response.toBytes.toList)

/-- Takes `width` bytes off the front. -/
def readBytes (width : Nat) (bytes : List UInt8) : Except RingError (List UInt8 × List UInt8) :=
  if bytes.length < width then .error (.invalidEncoding .truncated)
  else .ok (bytes.take width, bytes.drop width)

/-- Takes a compressed key off the front; no other form of a key is accepted. -/
def readKey (bytes : List UInt8) : Except RingError (PublicKey × List UInt8) := do
  let (code, rest) ← readBytes 33 bytes
  if code.head? = some 0x02 ∨ code.head? = some 0x03 then
    match PublicKey.decode? code with
    | some key => .ok (key, rest)
    | none => .error (.invalidEncoding .point)
  else .error (.invalidEncoding .notCompressed)

/-- Takes a scalar off the front. -/
def readScalar (bytes : List UInt8) : Except RingError (Scalar × List UInt8) := do
  let (code, rest) ← readBytes 32 bytes
  match Scalar.ofBytes? code with
  | some scalar => .ok (scalar, rest)
  | none => .error (.invalidEncoding .scalar)

/-- Takes `count` items off the front, one after the other. -/
def readMany {α : Type} (read : List UInt8 → Except RingError (α × List UInt8)) :
    (count : Nat) → (bytes : List UInt8) →
      Except RingError ({ items : List α // items.length = count } × List UInt8)
  | 0, bytes => .ok (⟨[], rfl⟩, bytes)
  | count + 1, bytes => do
    let (first, rest) ← read bytes
    let (others, rest) ← readMany read count rest
    return (⟨first :: others.1, by simp [others.2]⟩, rest)

/-- Takes what follows the keys off the front and puts the signature together. -/
def readOver (set : AnonymitySet) (bytes : List UInt8) : Except RingError RingSignature := do
  let (image, rest) ← readKey bytes
  let (challenge, rest) ← readScalar rest
  let (responses, _) ← readMany readScalar set.size rest
  return ⟨set, image, challenge, responses.1, responses.2⟩

/-- Reads the bytes of a signature. -/
def ofBytes (bytes : List UInt8) : Except RingError RingSignature := do
  let (code, rest) ← readBytes 4 bytes
  let size := natOfLittleEndian code
  if size = 0 ∨ maxRingSize < size then .error (.invalidEncoding .ringSize)
  else if bytes.length ≠ encodedLength size then .error (.invalidEncoding .length)
  else
    let (keys, rest) ← readMany readKey size rest
    match AnonymitySet.ofKeys keys.1 with
    | .error _ => .error (.invalidEncoding .anonymitySet)
    | .ok set => readOver set rest

/-- The lowercase hexadecimal text of a signature. -/
def toChars (signature : RingSignature) : List Char := Hex.encode signature.toBytes

/-- Reads the hexadecimal text of a signature. -/
def ofChars (text : List Char) : Except RingError RingSignature :=
  match Hex.decode text with
  | none => .error (.invalidEncoding .notHex)
  | some bytes => ofBytes bytes

/-- The number of bytes of a signature, then the bytes. -/
def toFrame (signature : RingSignature) : List UInt8 :=
  littleEndian 4 signature.toBytes.length ++ signature.toBytes

/-- Reads a frame that holds a signature and nothing after it. -/
def ofFrame? (frame : List UInt8) : Option RingSignature :=
  if frame.length < 4 then none
  else if natOfLittleEndian (frame.take 4) ≠ (frame.drop 4).length then none
  else (ofBytes (frame.drop 4)).toOption

end RingSignature

end LinkCommittee
