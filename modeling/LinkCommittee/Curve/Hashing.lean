import LinkCommittee.Curve.Encoding
import LinkCommittee.Digest.Blake3
import LinkCommittee.Text.Basic

/-!
# Hashing points

Each use of a hash has a text of its own in front of the data.  A point is hashed
to a scalar by reducing its digest; a public key is hashed to a public key whose
discrete logarithm nobody knows, by trying the digests for the counters from 0 as
abscissas.
-/

namespace LinkCommittee

/-- The digest of data under a text that names its use. -/
def digestFor (use : String) (bytes : List UInt8) : Octets 32 :=
  Blake3.digest (utf8 use.toList ++ bytes)

/-- Hashes a point to a scalar. -/
def Point.hashToScalar (use : String) (point : Point) : Scalar :=
  Scalar.reduceBytes (digestFor use point.toBytes).toList

namespace PublicKey

/-- The number of counters that hashing to the curve tries. -/
def hashAttempts : Nat := 256

/-- The key whose abscissa is the digest for a counter, with even ordinate. -/
def hashAttempt? (use : String) (key : PublicKey) (counter : Nat) : Option PublicKey :=
  decode? (0x02 :: (digestFor use (key.compress.toList ++ littleEndian 4 counter)).toList)

/-- Hashes a key to the curve, by the first counter whose digest is an abscissa. -/
def hashToCurve? (use : String) (key : PublicKey) : Option PublicKey :=
  (List.range hashAttempts).findSome? (hashAttempt? use key)

end PublicKey

end LinkCommittee
