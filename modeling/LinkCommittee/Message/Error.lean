import LinkCommittee.Text.Decimal

/-!
# Refused messages

Why a message, a part of a message or share data is refused.
-/

namespace LinkCommittee

/-- Ways in which a message or a part of it cannot be one. -/
inductive Malformation where
  | notAscii
  | tooShort
  | tokenShape
  | fieldWidth
  | nothingToSend
  | nothingReceived
deriving DecidableEq

/-- The text of a malformation. -/
def Malformation.reason : Malformation → String
  | notAscii => "message is not ASCII"
  | tooShort => "message is shorter than a header and one share entry"
  | tokenShape => "scan token must be 132 ASCII characters"
  | fieldWidth => "share entry fields must be 44 characters"
  | nothingToSend => "a message needs at least one share entry"
  | nothingReceived => "message carries no share entries"

/-- The numeric fields of a message. -/
inductive NumericField where
  | certificate
  | sender
  | shareCount
deriving DecidableEq

/-- The name of a numeric field. -/
def NumericField.name : NumericField → String
  | certificate => "certificate ID"
  | sender => "sender ID"
  | shareCount => "share count"

/-- Why a message is refused. -/
inductive MessageError where
  | malformed (cause : Malformation)
  | unreadable (field : NumericField)
  | truncated (declared : UInt64) (actual : Nat)
  | trailing (declared : UInt64) (actual : Nat)
  | misaligned (length : Nat)
  | tooManyShares (count limit : Nat)
deriving DecidableEq

/-- The text of a refusal. -/
def MessageError.message : MessageError → String
  | malformed cause => "Malformed public-share message: " ++ cause.reason
  | unreadable field => "Could not parse the " ++ field.name ++ " field"
  | truncated declared actual =>
    "Message declares " ++ Decimal.text declared.toNat ++ " shares but is only " ++
      Decimal.text actual ++ " bytes long"
  | trailing declared actual =>
    "Message declares " ++ Decimal.text declared.toNat ++ " shares but is " ++
      Decimal.text actual ++ " bytes long"
  | misaligned length =>
    "Share data of length " ++ Decimal.text length ++ " is not a multiple of the entry width"
  | tooManyShares count limit =>
    "Message carries " ++ Decimal.text count ++ " shares, more than the limit of " ++
      Decimal.text limit

end LinkCommittee
