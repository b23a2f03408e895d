/-!
# Failures of ring signatures

Why an anonymity set is refused, why a signature cannot be made, read or accepted.
-/

namespace LinkCommittee

/-- What is wrong with an anonymity set or a witness. -/
inductive RingDefect where
  | empty
  | tooLarge
  | duplicate
  | noBase
  | identityImage
deriving DecidableEq

/-- The text of a defect. -/
def RingDefect.reason : RingDefect → String
  | empty => "anonymity set must be nonempty"
  | tooLarge => "anonymity set is too large"
  | duplicate => "anonymity set contains a duplicate key"
  | noBase => "could not hash a key to the curve"
  | identityImage => "key image is the identity"

/-- What is wrong with an encoded signature. -/
inductive SignatureDefect where
  | truncated
  | ringSize
  | length
  | point
  | notCompressed
  | anonymitySet
  | scalar
  | notHex
deriving DecidableEq

/-- The text of a defect. -/
def SignatureDefect.reason : SignatureDefect → String
  | truncated => "truncated signature"
  | ringSize => "ring size out of range"
  | length => "unexpected signature length"
  | point => "invalid point"
  | notCompressed => "point is not compressed"
  | anonymitySet => "invalid anonymity set"
  | scalar => "scalar is not canonical"
  | notHex => "signature is not valid hex"

/-- Why an operation on ring signatures fails. -/
inductive RingError where
  | invalidParameter (defect : RingDefect)
  | signerNotInRing
  | failedVerification
  | invalidEncoding (defect : SignatureDefect)
deriving DecidableEq

/-- The text of a failure. -/
def RingError.message : RingError → String
  | invalidParameter defect => "An invalid parameter was provided: " ++ defect.reason
  | signerNotInRing => "The signing key is not in the anonymity set"
  | failedVerification => "Ring signature failed to verify"
  | invalidEncoding defect => "Ring signature could not be decoded: " ++ defect.reason

end LinkCommittee
