import LinkCommittee.Address.Account

/-!
# Settings of the ledger

The settings name the account that shares are published to, the contract that keeps
the certificates, the base slots of the contract's fields, and how many words a text
of a certificate may span.
-/

namespace LinkCommittee

/-- The base slots of the fields of the contract. -/
structure StorageLayout where
  unconfirmed : UInt64
  accounts : UInt64
  certificates : UInt64
deriving DecidableEq

namespace StorageLayout

/-- The base slots of the contract in use. -/
def standard : StorageLayout := ⟨2, 3, 4⟩

/-- Two fields have one base slot. -/
def Overlaps (layout : StorageLayout) : Prop :=
  layout.unconfirmed = layout.accounts ∨ layout.unconfirmed = layout.certificates ∨
    layout.accounts = layout.certificates

instance (layout : StorageLayout) : Decidable layout.Overlaps :=
  inferInstanceAs (Decidable (_ ∨ _ ∨ _))

end StorageLayout

/-- What is wrong with settings. -/
inductive SettingsDefect where
  | sameAccount
  | overlap
  | noWords
deriving DecidableEq

/-- The text of a refusal. -/
def SettingsDefect.message (defect : SettingsDefect) : String :=
  "An invalid parameter was provided: " ++ match defect with
    | sameAccount => "verifier and authentication contract addresses must differ"
    | overlap => "storage layout slots must be distinct"
    | noWords => "`max_field_slots` must be nonzero"

/-- Where messages go and how the contract keeps certificates. -/
structure LedgerSettings where
  verifier : Account
  contract : Account
  layout : StorageLayout
  maxFieldWords : UInt64
deriving DecidableEq

namespace LedgerSettings

/-- The number of words that a text may span if nothing else is set. -/
def standardFieldWords : UInt64 := 1024

/-- Settings with two accounts, distinct base slots and room for at least one word. -/
def new (verifier contract : Account) (layout : StorageLayout) (maxFieldWords : UInt64) :
    Except SettingsDefect LedgerSettings :=
  if verifier = contract then .error .sameAccount
  else if layout.Overlaps then .error .overlap
  else if maxFieldWords = 0 then .error .noWords
  else .ok ⟨verifier, contract, layout, maxFieldWords⟩

end LedgerSettings

end LinkCommittee
