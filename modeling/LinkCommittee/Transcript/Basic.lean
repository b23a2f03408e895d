import LinkCommittee.Transcript.Strobe

/-!
# Transcripts

A transcript absorbs labelled messages in order and yields challenges that depend
on all of them.  A nonce source forked from a transcript is keyed with a witness
and with outside entropy, so that what it yields depends on the statement, on the
secret and on the entropy.
-/

namespace LinkCommittee

/-- The messages absorbed so far. -/
structure Transcript where
  strobe : Strobe

/-- A source of nonces. -/
structure NonceSource where
  strobe : Strobe

namespace Strobe

/-- Describes the next operation by a label and the length of its data.  The length is written in
four bytes, so this is a description of data of fewer than `2 ^ 32` bytes, as all messages and
challenges are to be: a greater length would be written modulo `2 ^ 32`. -/
def frame (s : Strobe) (label : String) (length : Nat) : Strobe :=
  (s.metaAd (utf8 label.toList)).absorb (littleEndian 4 length)

end Strobe

namespace Transcript

/-- Adds a labelled message, of fewer than `2 ^ 32` bytes. -/
def append (t : Transcript) (label : String) (message : List UInt8) : Transcript :=
  ⟨(t.strobe.frame label message.length).ad message⟩

/-- A transcript with a label of its own. -/
def new (label : String) : Transcript :=
  append ⟨Strobe.new (utf8 "Merlin v1.0".toList)⟩ "dom-sep" (utf8 label.toList)

/-- Adds a labelled 64-bit number. -/
def appendNat (t : Transcript) (label : String) (number : Nat) : Transcript :=
  t.append label (littleEndian 8 number)

/-- A challenge of `length` bytes, fewer than `2 ^ 32`. -/
def challenge (t : Transcript) (label : String) (length : Nat) : List UInt8 :=
  ((t.strobe.frame label length).prf length).1

end Transcript

namespace NonceSource

/-- Forks a transcript, keys it with labelled witness data and then with entropy. -/
def fork (t : Transcript) (witness : List (String × List UInt8)) (entropy : List UInt8) :
    NonceSource :=
  let keyed := witness.foldl (fun s (label, bytes) => (s.frame label bytes.length).key bytes)
    t.strobe
  ⟨(keyed.metaAd (utf8 "rng".toList)).key entropy⟩

/-- Draws `length` bytes. -/
def draw (source : NonceSource) (length : Nat) : List UInt8 × NonceSource :=
  let (bytes, strobe) := (source.strobe.metaAd (littleEndian 4 length)).prf length
  (bytes, ⟨strobe⟩)

end NonceSource

end LinkCommittee
