/-!
# Refused shares

Why a share or a share key cannot be decoded, and why two shares cannot be
combined.
-/

namespace LinkCommittee

/-- What is wrong with a share or a share key. -/
inductive ShareDefect where
  | coordinateWidth
  | coordinateText
  | ownerRange
  | ownerZero
  | offCurve
  | keyZero
  | keyWidth
  | secretRange
deriving DecidableEq

/-- The text of a defect. -/
def ShareDefect.reason : ShareDefect → String
  | coordinateWidth => "coordinate must be 44 characters"
  | coordinateText => "coordinate is not base64 for 32 bytes"
  | ownerRange => "owner ID is not a canonical scalar"
  | ownerZero => "owner ID is zero"
  | offCurve => "share is not a valid curve point"
  | keyZero => "share ID and secret must be nonzero"
  | keyWidth => "share key must be 88 characters"
  | secretRange => "share secret is not a canonical nonzero scalar"

/-- Why an operation on shares fails. -/
inductive SharingError where
  | invalidShare (defect : ShareDefect)
  | duplicateOwner
  | identityPoint
deriving DecidableEq

/-- The text of a failure. -/
def SharingError.message : SharingError → String
  | invalidShare defect => "Invalid share: " ++ defect.reason
  | duplicateOwner => "Shares have the same owner"
  | identityPoint => "Computation produced the identity point"

end LinkCommittee
