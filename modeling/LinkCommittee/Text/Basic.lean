/-!
# Text and its bytes

Text is a list of characters.  Its width is counted in the bytes of its UTF-8
form, which is the number of characters exactly when all of them are ASCII.
-/

namespace LinkCommittee

/-- ASCII characters are those below 128. -/
def isAscii (c : Char) : Bool := c.toNat < 128

/-- The UTF-8 form of a text. -/
def utf8 (text : List Char) : List UInt8 := text.flatMap String.utf8EncodeChar

/-- Reads the UTF-8 form of a text; bytes that are no such form are refused. -/
def ofUtf8? (bytes : List UInt8) : Option (List Char) :=
  (String.fromUTF8? bytes.toByteArray).map String.toList

/-- The length of a text in bytes. -/
def byteLength (text : List Char) : Nat := (utf8 text).length

end LinkCommittee
