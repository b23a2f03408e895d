import LinkCommittee.Address.AbAddress
import LinkCommittee.Message.Error
import LinkCommittee.Text.Fixed

/-!
# Scan tokens

A scan token names a request for verification.  It is any ASCII text as wide as
an address; whether it is the text of one matters only when it is decoded.
-/

namespace LinkCommittee

/-- The width of a scan token. -/
def tokenWidth : Nat := 132

/-- The name of a request: 132 ASCII characters. -/
structure ScanToken where
  text : FixedText tokenWidth
deriving DecidableEq

namespace ScanToken

/-- Takes 132 ASCII characters. -/
def ofChars (text : List Char) : Except MessageError ScanToken :=
  match FixedText.ofChars? tokenWidth text with
  | some text => .ok ⟨text⟩
  | none => .error (.malformed .tokenShape)

/-- Takes a text of 132 ASCII characters. -/
def ofText (text : String) : Except MessageError ScanToken := ofChars text.toList

/-- The token that names the request which an address carries. -/
def ofAddress (address : AbAddress) : ScanToken where
  text :=
    { chars := address.toChars
      ascii := Hex.all_isAscii_encode _
      length_chars := by
        rw [AbAddress.toChars, Hex.length_encode, address.bytes.length_toList, tokenWidth] }

/-- The address whose text a token is. -/
def toAddress (token : ScanToken) : Except AddressError AbAddress :=
  AbAddress.ofChars token.text.chars

end ScanToken

end LinkCommittee
