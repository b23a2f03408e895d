import LinkCommittee.Certificate.Settings
import LinkCommittee.Certificate.Slot
import LinkCommittee.Text.Basic

/-!
# Certificate records

A certificate that awaits confirmation is found in three steps: an array element
holds a count, the count is the key of an account word, and the account word moved by
one byte is the key of the record.  Two members of the record are texts.  The slot of
a text holds twice its length in bytes, or one more; the text itself fills the words
from `textSlot` on.

Storage is read through a function that may fail and may have effects.  Words are
read one at a time, and nothing is read after the first failure.
-/

namespace LinkCommittee

/-- The ledger cannot be asked. -/
inductive StorageError where
  | unavailable (reason : String)
deriving DecidableEq

/-- The text of a failure. -/
def StorageError.message : StorageError → String
  | unavailable reason => "Ledger state could not be queried: " ++ reason

/-- What is wrong with a stored record. -/
inductive RecordDefect where
  | countRange
  | lengthRange
  | tooLong
  | notUtf8
deriving DecidableEq

/-- The text of a defect. -/
def RecordDefect.reason : RecordDefect → String
  | countRange => "certificate count does not fit in 64 bits"
  | lengthRange => "field length does not fit in 64 bits"
  | tooLong => "field spans too many storage words"
  | notUtf8 => "field is not valid UTF-8"

/-- Why a record cannot be read. -/
inductive RecordError where
  | ledgerUnavailable (source : StorageError)
  | corrupt (defect : RecordDefect)
deriving DecidableEq

/-- The text of a failure. -/
def RecordError.message : RecordError → String
  | ledgerUnavailable _ => "Ledger storage is unavailable"
  | corrupt defect => "Stored certificate record is corrupt: " ++ defect.reason

/-- A way to read the word in a slot of a contract. -/
abbrev StorageReader (m : Type → Type) := Account → Word → ExceptT StorageError m Word

/-- The parts of a registered certificate. -/
structure Certificate where
  account : Word
  signature : List Char
  publicKey : List Char
  nextCheck : UInt64
deriving DecidableEq

/-- What was found for an array element: the word in it, and the certificate if it is
registered. -/
structure CertificateRecord where
  indexWord : Word
  certificate : Option Certificate
deriving DecidableEq

namespace CertificateRecord

/-! ### The fields of a record

A record without a certificate has them too: no account, empty texts and the number zero. -/

section

variable (record : CertificateRecord)

/-- The key that the certificate stands under, if it is registered. -/
def account : Option Word := record.certificate.map fun certificate => certificate.account

/-- The text of the ring signature. -/
def signature : List Char := record.certificate.elim [] fun certificate => certificate.signature

/-- The text of the public key. -/
def publicKey : List Char := record.certificate.elim [] fun certificate => certificate.publicKey

/-- The number of the certificate to check next. -/
def nextCheck : UInt64 := record.certificate.elim 0 fun certificate => certificate.nextCheck

/-- Whether the certificate is registered. -/
def isFound : Bool := record.account.isSome

end

/-! ### Reading -/

variable {m : Type → Type} [Monad m]

/-- Reads a word of the contract of the settings. -/
def readWord (read : StorageReader m) (settings : LedgerSettings) (slot : Word) :
    ExceptT RecordError m Word :=
  ExceptT.adapt .ledgerUnavailable (read settings.contract slot)

/-- Takes a count or length out of a word. -/
def readCount (defect : RecordDefect) (word : Word) : ExceptT RecordError m UInt64 :=
  match word.toUInt64? with
  | some count => pure count
  | none => throw (.corrupt defect)

/-- Reads the bytes of `count` words from a slot on. -/
def readBytes (read : StorageReader m) (settings : LedgerSettings) :
    (count : Nat) → (slot : Word) → ExceptT RecordError m (List UInt8)
  | 0, _ => pure []
  | count + 1, slot => do
    let word ← readWord read settings slot
    let bytes ← readBytes read settings count (slot.advance 1)
    return word.bytes.toList ++ bytes

/-- Reads a text.  Its slot holds twice its length, so half of that is kept of the words. -/
def readText (read : StorageReader m) (settings : LedgerSettings) (field : Word) :
    ExceptT RecordError m (List Char) := do
  let length ← readCount .lengthRange (← readWord read settings field)
  let last := length / 64
  if settings.maxFieldWords ≤ last then throw (.corrupt .tooLong)
  let bytes ← readBytes read settings (last.toNat + 1) (textSlot field)
  match ofUtf8? (bytes.take (length / 2).toNat) with
  | some text => return text
  | none => throw (.corrupt .notUtf8)

/-- Reads the certificate whose account word is in the entry of the given key. -/
def readCertificate (read : StorageReader m) (settings : LedgerSettings) (key : Word)
    (count : UInt64) : ExceptT RecordError m Certificate := do
  let layout := settings.layout
  let word ← readWord read settings (positionalSlot layout.accounts (some key) 0)
  let account := word.shiftRight
  let signature ← readText read settings (positionalSlot layout.certificates (some account) 1)
  let publicKey ← readText read settings (positionalSlot layout.certificates (some account) 2)
  return ⟨account, signature, publicKey, count⟩

/-- Reads the record at a place of the array of unconfirmed certificates.  The certificate is
registered if the number to check is below the count in that place. -/
def readUnconfirmed (read : StorageReader m) (settings : LedgerSettings)
    (index check : UInt64) : ExceptT RecordError m CertificateRecord := do
  let word ← readWord read settings (positionalSlot settings.layout.unconfirmed none index)
  let count ← readCount .countRange word
  if count ≤ check then return ⟨word, none⟩
  else return ⟨word, some (← readCertificate read settings word count)⟩

end CertificateRecord

end LinkCommittee
