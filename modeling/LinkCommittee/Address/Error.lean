/-!
# Refused addresses

An address is refused for a key that is no public key, or for a text or byte
string that does not have the form of an address.
-/

namespace LinkCommittee

/-- The forms in which addresses arrive. -/
inductive AddressForm where
  | bytes
  | hexText
  | accountText
deriving DecidableEq

/-- What an address of this form has to be. -/
def AddressForm.requirement : AddressForm → String
  | bytes => "address must be 66 bytes"
  | hexText => "address must be 132 hex characters"
  | accountText => "ledger address must be 40 hex characters"

/-- Why an address is refused. -/
inductive AddressError where
  | invalidKey
  | invalidEncoding (form : AddressForm)
deriving DecidableEq

/-- The text of a refusal. -/
def AddressError.message : AddressError → String
  | invalidKey => "Invalid key: not a valid secp256k1 point"
  | invalidEncoding form => "Invalid address encoding: " ++ form.requirement

end LinkCommittee
