import LinkCommittee.Certificate.Confirmation
import LinkCommittee.Certificate.Settings
import LinkCommittee.Message.Basic
import LinkCommittee.Share.Key

/-!
# Committee members

A member holds a share key.  It publishes the public shares for a request to the
verifier's account and confirms certificates at the contract, through a function that
submits transactions.  A failed submission is reported and not tried again.
-/

namespace LinkCommittee

/-- Why a transaction is not submitted. -/
inductive SubmitError where
  | rejected (reason : String)
  | unavailable (reason : String)
deriving DecidableEq

/-- The text of a failure. -/
def SubmitError.message : SubmitError → String
  | rejected reason => "Transaction was rejected: " ++ reason
  | unavailable reason => "Ledger is unavailable: " ++ reason

/-- Why a member cannot act. -/
inductive MemberError where
  | nothingToSend
  | submissionFailed (source : SubmitError)
deriving DecidableEq

/-- The text of a failure. -/
def MemberError.message : MemberError → String
  | nothingToSend => "Committee message could not be encoded: no public shares to send"
  | submissionFailed _ => "Committee transaction was not submitted"

/-- What the ledger calls a submitted transaction. -/
abbrev SubmissionId := Octets 32

/-- A way to submit a payload to an account. -/
abbrev Submitter (m : Type → Type) :=
  Account → List UInt8 → ExceptT SubmitError m SubmissionId

/-- A member of the committee. -/
structure Member where
  sender : UInt64
  shareKey : ShareKey
  settings : LedgerSettings
deriving DecidableEq

namespace Member

variable {m : Type → Type} [Monad m]

/-- The message that carries the member's public shares of a list of keys. -/
def sharesMessage (member : Member) (token : ScanToken) (certificate : UInt64)
    (keys : List PublicKey) : Except MemberError Message :=
  match Message.new token certificate member.sender (member.shareKey.publicShares keys) with
  | .ok message => .ok message
  | .error _ => .error .nothingToSend

/-- Submits a payload once. -/
def submit (submitter : Submitter m) (account : Account) (payload : List UInt8) :
    ExceptT MemberError m SubmissionId :=
  ExceptT.adapt .submissionFailed (submitter account payload)

/-- Publishes the member's public shares of a list of keys. -/
def publish (member : Member) (submitter : Submitter m) (token : ScanToken)
    (certificate : UInt64) (keys : List PublicKey) : ExceptT MemberError m SubmissionId :=
  match member.sharesMessage token certificate keys with
  | .error e => throw e
  | .ok message => submit submitter member.settings.verifier (utf8 message.encodeChars)

/-- Confirms a certificate with a status. -/
def confirm (member : Member) (submitter : Submitter m) (certificate status : UInt64) :
    ExceptT MemberError m SubmissionId :=
  submit submitter member.settings.contract (confirmCall certificate status).toList

end Member

end LinkCommittee
