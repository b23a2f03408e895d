import LinkCommittee.Message.ScanToken
import LinkCommittee.Message.ShareEntry

/-!
# Public-share messages

A committee member broadcasts its public shares for a request as one text: a tag
of two characters, the scan token, the certificate, the sender and the number of
shares as decimal fields of 44 digits, and the share entries.  Reading is all or
nothing.  Any two characters pass for the tag; writing puts `0x` there.
-/

namespace LinkCommittee

/-- The width of the tag. -/
def tagWidth : Nat := 2

/-- Where the field of the certificate starts. -/
def certificateOffset : Nat := tagWidth + tokenWidth

/-- Where the field of the sender starts. -/
def senderOffset : Nat := certificateOffset + fieldWidth

/-- Where the field of the number of shares starts. -/
def shareCountOffset : Nat := senderOffset + fieldWidth

/-- The width of all that stands in front of the entries: the tag, the token and three fields. -/
def headerWidth : Nat := tagWidth + tokenWidth + 3 * fieldWidth

/-- The width of the shortest message: a header and one entry. -/
def messageWidth : Nat := headerWidth + entryWidth

/-- The tag that is written. -/
def messageTag : List Char := ['0', 'x']

/-- A member's public shares for a request. -/
structure Message where
  token : ScanToken
  certificate : UInt64
  sender : UInt64
  entries : List ShareEntry
  entries_ne_nil : entries ≠ []
deriving DecidableEq

namespace Message

/-- A message with at least one entry. -/
def new (token : ScanToken) (certificate sender : UInt64) (entries : List ShareEntry) :
    Except MessageError Message :=
  if h : entries ≠ [] then .ok ⟨token, certificate, sender, entries, h⟩
  else .error (.malformed .nothingToSend)

/-- The share entries of a message as they travel. -/
def shareData (m : Message) : List Char := ShareEntry.join m.entries

/-- The number of share entries of a message, as a number of 64 bits. -/
def shareCount (m : Message) : UInt64 := UInt64.ofNat m.entries.length

/-- Reads one numeric field. -/
def readField (field : NumericField) (text : List Char) : Except MessageError UInt64 :=
  match Decimal.read? text with
  | some value => .ok value
  | none => .error (.unreadable field)

/-- The characters of a text from a position on, at most `width` of them. -/
def slice (text : List Char) (start width : Nat) : List Char := (text.drop start).take width

/-- The product of two numbers, if it fits in 64 bits. -/
def checkedMul? (a b : UInt64) : Option UInt64 :=
  if a.toNat * b.toNat < UInt64.size then some (a * b) else none

/-- The sum of two numbers, if it fits in 64 bits. -/
def checkedAdd? (a b : UInt64) : Option UInt64 :=
  if a.toNat + b.toNat < UInt64.size then some (a + b) else none

/-- The length that a declared number of shares calls for, if it can be told in 64 bits. -/
def expectedLength? (declared : UInt64) : Option UInt64 := do
  let data ← checkedMul? declared (UInt64.ofNat entryWidth)
  checkedAdd? data (UInt64.ofNat headerWidth)

/-- Accepts the length that a declared number of shares calls for, and no other.  A number that
calls for a length beyond 64 bits declares more than any text holds. -/
def checkLength (length : Nat) (declared : UInt64) : Except MessageError Unit :=
  match expectedLength? declared with
  | none => .error (.truncated declared length)
  | some expected =>
    if length < expected.toNat then .error (.truncated declared length)
    else if expected.toNat < length then .error (.trailing declared length)
    else .ok ()

/-- Reads the header and the entries of a text that is ASCII and long enough. -/
def decodeFields (raw : List Char) : Except MessageError Message := do
  let token ← ScanToken.ofChars (slice raw tagWidth tokenWidth)
  let certificate ← readField .certificate (slice raw certificateOffset fieldWidth)
  let sender ← readField .sender (slice raw senderOffset fieldWidth)
  let count ← readField .shareCount (slice raw shareCountOffset fieldWidth)
  checkLength raw.length count
  let entries ← ShareEntry.split (raw.drop headerWidth)
  new token certificate sender entries

/-- Reads a message. -/
def decodeChars (raw : List Char) : Except MessageError Message :=
  if raw.all isAscii = false then .error (.malformed .notAscii)
  else if raw.length < messageWidth then .error (.malformed .tooShort)
  else decodeFields raw

/-- Reads the text of a message. -/
def decode (raw : String) : Except MessageError Message := decodeChars raw.toList

/-- The characters of a message. -/
def encodeChars (m : Message) : List Char :=
  messageTag ++ m.token.text.chars ++ Decimal.padded fieldWidth m.certificate.toNat ++
    Decimal.padded fieldWidth m.sender.toNat ++
    Decimal.padded fieldWidth m.shareCount.toNat ++ m.shareData

/-- The text of a message. -/
def encode (m : Message) : String := String.ofList m.encodeChars

end Message

end LinkCommittee
