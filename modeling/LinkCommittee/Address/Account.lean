import LinkCommittee.Address.Error
import LinkCommittee.Digest.Keccak
import LinkCommittee.Text.Basic
import LinkCommittee.Text.Hex

/-!
# Ledger accounts

An account is 20 bytes.  It is read in either case and written with a checksum in
the case of its letters: the letter at position `i` is a capital exactly when
nibble `i` of the digest of the lowercase text is at least 8.
-/

namespace LinkCommittee

/-- An account of the ledger. -/
structure Account where
  bytes : Octets 20
deriving DecidableEq

namespace Account

/-- Reads 40 hexadecimal digits of either case after an optional mark. -/
def ofChars (text : List Char) : Except AddressError Account :=
  match (Hex.decode (Hex.dropMark text)).bind (Octets.ofList? 20) with
  | some bytes => .ok ⟨bytes⟩
  | none => .error (.invalidEncoding .accountText)

/-- Reads the text of an account. -/
def ofText (text : String) : Except AddressError Account := ofChars text.toList

/-- The values of the hexadecimal digits of a byte string. -/
def nibbles (bytes : List UInt8) : List Nat :=
  bytes.flatMap fun byte => [byte.toNat / 16, byte.toNat % 16]

/-- Lowercase digits with a checksum in their case. -/
def checksummed (digits : List Char) : List Char :=
  List.zipWith (fun c nibble => if 8 ≤ nibble then c.toUpper else c) digits
    (nibbles (Keccak.digest (utf8 digits)).toList)

/-- The text of an account: a mark and the checksummed digits. -/
def toChars (account : Account) : List Char :=
  '0' :: 'x' :: checksummed (Hex.encode account.bytes.toList)

/-- The text of an account as a string. -/
def toText (account : Account) : String := String.ofList account.toChars

end Account

end LinkCommittee
