import LinkCommittee.Address.Account
import LinkCommittee.Ring.Scheme

/-!
# Binding an account to an anonymity set

The owner of one of the keys of a set binds a ledger account to the set by a ring
signature of the account.  The message that is signed is the digest of the
checksummed text of the account, so it does not depend on how the account was
spelled.
-/

namespace LinkCommittee

/-- The message that binds an account. -/
def Account.bindingMessage (account : Account) : Octets 32 := Keccak.digest (utf8 account.toChars)

/-- The signature that binds an account, with the message and the key image. -/
structure SigningRequest where
  message : Octets 32
  signature : List Char
  image : List Char
deriving DecidableEq

/-- Making a binding fails when the scheme fails. -/
inductive BindingError (ε : Type) where
  | ringSignatureFailed (source : ε)
deriving DecidableEq

/-- The text of a failure. -/
def BindingError.message {ε : Type} : BindingError ε → String
  | ringSignatureFailed _ => "Ring signature generation failed"

namespace RingScheme

variable {ε : Type}

/-- Binds an account to the set of the given keys. -/
def bindAccount (scheme : RingScheme ε) (secret : NonzeroScalar) (account : Account)
    (keys : List PublicKey) (entropy : Octets 32) : Except (BindingError ε) SigningRequest :=
  match scheme.sign account.bindingMessage.toList secret keys entropy with
  | .error e => .error (.ringSignatureFailed e)
  | .ok text => .ok ⟨account.bindingMessage, text.signature, text.image⟩

/-- Whether a signature binds an account to the ring that it carries. -/
def verifyBinding (scheme : RingScheme ε) (account : Account) (signature : List Char) : Bool :=
  scheme.verify account.bindingMessage.toList signature

/-- Whether a signature binds an account to a ring of eligible keys. -/
def verifyBindingAmong (scheme : RingScheme ε) (account : Account) (signature : List Char)
    (eligible : List PublicKey) : Bool :=
  match scheme.ring? signature with
  | none => false
  | some ring => ring.all eligible.contains && scheme.verifyBinding account signature

end RingScheme

end LinkCommittee
