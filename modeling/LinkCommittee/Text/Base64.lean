/-!
# URL-safe base64 text

Three bytes are written as four symbols of six bits each; one or two bytes left
over are padded to four symbols with `=`.  Reading is strict: the padding must be
there, and the bits that it leaves unused must be zero, so that each byte string
has one text.
-/

namespace LinkCommittee.Base64

/-- The symbol for six bits: letters, digits, `-` and `_`. -/
def symbol (value : Nat) : Char :=
  if value < 26 then Char.ofNat (65 + value)
  else if value < 52 then Char.ofNat (71 + value)
  else if value < 62 then Char.ofNat (value - 4)
  else if value = 62 then '-'
  else '_'

/-- The six bits of a symbol. -/
def symbolValue? (c : Char) : Option Nat :=
  if 'A' ≤ c ∧ c ≤ 'Z' then some (c.toNat - 65)
  else if 'a' ≤ c ∧ c ≤ 'z' then some (c.toNat - 71)
  else if '0' ≤ c ∧ c ≤ '9' then some (c.toNat + 4)
  else if c = '-' then some 62
  else if c = '_' then some 63
  else none

/-- Four symbols for every three bytes, padded at the end. -/
def encode : List UInt8 → List Char
  | [] => []
  | [a] => [symbol (a.toNat / 4), symbol (a.toNat % 4 * 16), '=', '=']
  | [a, b] =>
    [symbol (a.toNat / 4), symbol (a.toNat % 4 * 16 + b.toNat / 16), symbol (b.toNat % 16 * 4), '=']
  | a :: b :: c :: bytes =>
    symbol (a.toNat / 4) :: symbol (a.toNat % 4 * 16 + b.toNat / 16) ::
      symbol (b.toNat % 16 * 4 + c.toNat / 64) :: symbol (c.toNat % 64) :: encode bytes

/-- Reads the last four symbols of a text, of which two hold a single byte. -/
def decodeOne (a b : Char) : Option (List UInt8) := do
  let a ← symbolValue? a
  let b ← symbolValue? b
  if b % 16 = 0 then some [UInt8.ofNat (a * 4 + b / 16)] else none

/-- Reads the last four symbols of a text, of which three hold two bytes. -/
def decodeTwo (a b c : Char) : Option (List UInt8) := do
  let a ← symbolValue? a
  let b ← symbolValue? b
  let c ← symbolValue? c
  if c % 4 = 0 then
    some [UInt8.ofNat (a * 4 + b / 16), UInt8.ofNat (b % 16 * 16 + c / 4)]
  else none

/-- Reads four symbols that hold three bytes. -/
def decodeThree (a b c d : Char) : Option (List UInt8) := do
  let a ← symbolValue? a
  let b ← symbolValue? b
  let c ← symbolValue? c
  let d ← symbolValue? d
  return [UInt8.ofNat (a * 4 + b / 16), UInt8.ofNat (b % 16 * 16 + c / 4),
    UInt8.ofNat (c % 4 * 64 + d)]

/-- Reads a padded text.  Padding stands only in the last four symbols. -/
def decode : List Char → Option (List UInt8)
  | [] => some []
  | a :: b :: c :: d :: text =>
    if text = [] ∧ d = '=' then
      if c = '=' then decodeOne a b else decodeTwo a b c
    else do
      let bytes ← decodeThree a b c d
      let rest ← decode text
      return bytes ++ rest
  | _ => none

end LinkCommittee.Base64
