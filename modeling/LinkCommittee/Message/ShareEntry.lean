import LinkCommittee.Bytes
import LinkCommittee.Message.Error
import LinkCommittee.Text.Fixed

/-!
# Share entries

A share entry is three fields of 44 characters: the owner of a share and the two
coordinates of its point.  Share data is any number of entries, one after the
other with nothing in between.
-/

namespace LinkCommittee

/-- The width of a field: a decimal number, the owner of a share or a coordinate. -/
def fieldWidth : Nat := 44

/-- The width of a share entry: three fields. -/
def entryWidth : Nat := 3 * fieldWidth

theorem entryWidth_eq : entryWidth = 132 := rfl

/-- One public share as text: 132 ASCII characters. -/
structure ShareEntry where
  text : FixedText entryWidth
deriving DecidableEq

namespace ShareEntry

/-- Takes 132 ASCII characters. -/
def ofChars (text : List Char) : Except MessageError ShareEntry :=
  match FixedText.ofChars? entryWidth text with
  | some text => .ok ⟨text⟩
  | none => .error (.misaligned (byteLength text))

/-- Takes a text of 132 ASCII characters. -/
def ofText (text : String) : Except MessageError ShareEntry := ofChars text.toList

/-- Joins three fields, each of which has to fill its width. -/
def ofFields (owner x y : List Char) : Except MessageError ShareEntry :=
  if byteLength owner = fieldWidth ∧ byteLength x = fieldWidth ∧ byteLength y = fieldWidth then
    ofChars (owner ++ x ++ y)
  else .error (.malformed .fieldWidth)

/-- The characters of an entry. -/
def chars (entry : ShareEntry) : List Char := entry.text.chars

/-- The field that names the owner. -/
def owner (entry : ShareEntry) : List Char := entry.chars.take fieldWidth

/-- The field of the first coordinate. -/
def x (entry : ShareEntry) : List Char := (entry.chars.drop fieldWidth).take fieldWidth

/-- The field of the second coordinate. -/
def y (entry : ShareEntry) : List Char := entry.chars.drop (2 * fieldWidth)

/-- The share data of a list of entries. -/
def join (entries : List ShareEntry) : List Char := entries.flatMap chars

/-- Cuts share data into its entries. -/
def split (data : List Char) : Except MessageError (List ShareEntry) :=
  if data.all isAscii = true ∧ byteLength data % entryWidth = 0 then
    (chunks entryWidth (by decide) data).mapM ofChars
  else .error (.misaligned (byteLength data))

/-- The number of entries, as a number of 64 bits, in a field, then the entries. -/
def encodeAll (entries : List ShareEntry) : List Char :=
  Decimal.padded fieldWidth (UInt64.ofNat entries.length).toNat ++ join entries

end ShareEntry

end LinkCommittee
