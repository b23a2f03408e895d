import LinkCommittee.Text.Basic

/-!
# ASCII text of a fixed width

Tokens and share entries travel as ASCII text of a width that never varies.
-/

namespace LinkCommittee

/-- ASCII text of `width` characters. -/
structure FixedText (width : Nat) where
  chars : List Char
  ascii : chars.all isAscii = true
  length_chars : chars.length = width
deriving DecidableEq

namespace FixedText

/-- Takes a text that is ASCII and has the right width. -/
def ofChars? (width : Nat) (chars : List Char) : Option (FixedText width) :=
  if ascii : chars.all isAscii = true then
    if length : chars.length = width then some ⟨chars, ascii, length⟩ else none
  else none

end FixedText

end LinkCommittee
