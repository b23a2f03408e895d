import LinkCommittee.Address.AbAddress
import LinkCommittee.Certificate.Settings
import LinkCommittee.History.Limits
import LinkCommittee.Json.Record
import LinkCommittee.Ring.Encoding

/-!
# Addresses, settings and signatures in JSON

Addresses of two keys and signatures are strings of hexadecimal text; an account is an
array of its bytes; limits, layouts and settings are records.  Reading checks that a
value has its form and nothing else: limits that would not do are read as they are.
-/

namespace LinkCommittee

namespace AbAddress

/-- An address as a string. -/
def toJson (address : AbAddress) : JsonValue := .ofText address.toChars

/-- Reads an address from a string. -/
def ofJson? (value : JsonValue) : Option AbAddress := do
  let text ← value.text?
  (ofChars text).toOption

end AbAddress

namespace RingSignature

/-- A signature as a string. -/
def toJson (signature : RingSignature) : JsonValue := .ofText signature.toChars

/-- Reads a signature from a string. -/
def ofJson? (value : JsonValue) : Option RingSignature := do
  let text ← value.text?
  (ofChars text).toOption

end RingSignature

namespace Account

/-- An account as the array of its bytes. -/
def toJson (account : Account) : JsonValue :=
  .array (account.bytes.toList.map fun byte => .ofNat byte.toNat)

/-- Reads an account from an array of 20 bytes. -/
def ofJson? (value : JsonValue) : Option Account := do
  let items ← value.items? 20
  let bytes ← items.mapM fun item => item.natBelow? 256
  let bytes ← Octets.ofList? 20 (bytes.map UInt8.ofNat)
  return ⟨bytes⟩

end Account

namespace Duration

/-- A duration as its seconds and nanoseconds. -/
def toJson (d : Duration) : JsonValue :=
  .ofFields [("secs", .ofNat d.seconds.toNat), ("nanos", .ofNat d.nanos)]

/-- Reads a duration; both parts are required and no other is allowed. -/
def ofJson? (value : JsonValue) : Option Duration :=
  match value.record? ["secs", "nanos"] true with
  | some [some seconds, some nanos] => do
    let seconds ← seconds.uint64?
    let nanos ← nanos.natBelow? UInt32.size
    ofParts? seconds nanos
  | _ => none

/-- Reads a duration that may be missing. -/
def optionOfJson? : Option JsonValue → Option (Option Duration)
  | none => some none
  | some .null => some none
  | some value => (ofJson? value).map some

end Duration

namespace HistoryLimits

/-- Limits as a record. -/
def toJson (limits : HistoryLimits) : JsonValue :=
  .ofFields [
    ("max_tokens", .ofNat limits.maxTokens.toNat),
    ("max_senders", .ofNat limits.maxSenders.toNat),
    ("max_shares_per_message", .ofNat limits.maxSharesPerMessage.toNat),
    ("token_ttl", (limits.lifetime.map Duration.toJson).getD .null)]

/-- Reads limits; only the lifetime may be missing. -/
def ofJson? (value : JsonValue) : Option HistoryLimits :=
  match value.record? ["max_tokens", "max_senders", "max_shares_per_message", "token_ttl"] false
  with
  | some [some tokens, some senders, some shares, lifetime] => do
    let tokens ← tokens.uint64?
    let senders ← senders.uint64?
    let shares ← shares.uint64?
    let lifetime ← Duration.optionOfJson? lifetime
    return ⟨tokens, senders, shares, lifetime⟩
  | _ => none

end HistoryLimits

namespace StorageLayout

/-- A layout as a record. -/
def toJson (layout : StorageLayout) : JsonValue :=
  .ofFields [
    ("unconfirmed_addresses", .ofNat layout.unconfirmed.toNat),
    ("cert_to_address", .ofNat layout.accounts.toNat),
    ("certificate_addresses", .ofNat layout.certificates.toNat)]

/-- Reads a layout. -/
def ofJson? (value : JsonValue) : Option StorageLayout :=
  match value.record? ["unconfirmed_addresses", "cert_to_address", "certificate_addresses"] false
  with
  | some [some unconfirmed, some accounts, some certificates] => do
    let unconfirmed ← unconfirmed.uint64?
    let accounts ← accounts.uint64?
    let certificates ← certificates.uint64?
    return ⟨unconfirmed, accounts, certificates⟩
  | _ => none

end StorageLayout

namespace LedgerSettings

/-- Settings as a record. -/
def toJson (settings : LedgerSettings) : JsonValue :=
  .ofFields [
    ("verifier_address", settings.verifier.toJson),
    ("authentication_contract", settings.contract.toJson),
    ("layout", settings.layout.toJson),
    ("max_field_slots", .ofNat settings.maxFieldWords.toNat)]

/-- Reads settings. -/
def ofJson? (value : JsonValue) : Option LedgerSettings :=
  match value.record?
    ["verifier_address", "authentication_contract", "layout", "max_field_slots"] false with
  | some [some verifier, some contract, some layout, some maxFieldWords] => do
    let verifier ← Account.ofJson? verifier
    let contract ← Account.ofJson? contract
    let layout ← StorageLayout.ofJson? layout
    let maxFieldWords ← maxFieldWords.uint64?
    return ⟨verifier, contract, layout, maxFieldWords⟩
  | _ => none

end LedgerSettings

end LinkCommittee
