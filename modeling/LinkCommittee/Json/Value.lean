import LinkCommittee.Text.Decimal
import LinkCommittee.Text.Hex

/-!
# JSON values

A value keeps its numbers and strings as they are spelled: a number is its literal,
and a string is a list of characters and of escaped 16-bit units.  What a spelling
means is asked for when it is used, so a value that nobody asks for need not mean
anything, and every value can be written.
-/

namespace LinkCommittee

/-- A part of a string: a character, or a 16-bit unit given by an escape. -/
inductive StringPart where
  | plain (c : Char)
  | unit (code : Nat)
deriving DecidableEq

/-- A JSON value as it is spelled. -/
inductive JsonValue where
  | null
  | bool (value : Bool)
  | number (literal : List Char)
  | string (parts : List StringPart)
  | array (items : List JsonValue)
  | object (members : List (List StringPart × JsonValue))

namespace StringPart

/-- The character that a pair of units stands for, if they are the two halves of one. -/
def joinHalves? (high low : Nat) : Option Char :=
  if 0xD800 ≤ high ∧ high < 0xDC00 ∧ 0xDC00 ≤ low ∧ low < 0xE000 then
    some (Char.ofNat (0x10000 + (high - 0xD800) * 0x400 + (low - 0xDC00)))
  else none

/-- The text of a string; half of a character alone is no text. -/
def text? : List StringPart → Option (List Char)
  | [] => some []
  | plain c :: parts => (text? parts).map (c :: ·)
  | unit high :: unit low :: parts =>
    match joinHalves? high low with
    | some c => (text? parts).map (c :: ·)
    | none =>
      if 0xD800 ≤ high ∧ high < 0xE000 then none
      else (text? (unit low :: parts)).map (Char.ofNat high :: ·)
  | unit code :: parts =>
    if 0xD800 ≤ code ∧ code < 0xE000 then none
    else (text? parts).map (Char.ofNat code :: ·)

/-- The letter of the short escape of a character, if it has one. -/
def shortEscape? (c : Char) : Option Char :=
  if c = '\x22' ∨ c = '\x5c' then some c
  else if c = '\x08' then some 'b'
  else if c = '\x09' then some 't'
  else if c = '\x0a' then some 'n'
  else if c = '\x0c' then some 'f'
  else if c = '\x0d' then some 'r'
  else none

/-- The escape of a 16-bit unit. -/
def escape (code : Nat) : List Char :=
  '\x5c' :: 'u' :: Hex.encode [UInt8.ofNat (code / 256), UInt8.ofNat (code % 256)]

/-- The spelling of a part: escapes for control characters, the quote and the backslash. -/
def toChars : StringPart → List Char
  | unit code => escape code
  | plain c =>
    match shortEscape? c with
    | some letter => ['\x5c', letter]
    | none => if c.toNat < 0x20 then escape c.toNat else [c]

end StringPart

namespace JsonValue

/-- The spelling of a string. -/
def quoted (parts : List StringPart) : List Char :=
  '\x22' :: parts.flatMap StringPart.toChars ++ ['\x22']

/-- The string that spells a text. -/
def ofText (text : List Char) : JsonValue := string (text.map .plain)

/-- The number that spells a natural number. -/
def ofNat (number : Nat) : JsonValue := .number (Nat.toDigits 10 number)

/-- The object with the given members. -/
def ofFields (fields : List (String × JsonValue)) : JsonValue :=
  object (fields.map fun (name, value) => (name.toList.map .plain, value))

mutual

/-- The spelling of a value, without blanks. -/
def toChars : JsonValue → List Char
  | null => "null".toList
  | bool true => "true".toList
  | bool false => "false".toList
  | number literal => literal
  | string parts => quoted parts
  | array items => '[' :: itemsToChars true items ++ [']']
  | object members => '\x7b' :: membersToChars true members ++ ['\x7d']

/-- The spelling of the items of an array; a comma stands before each but the first. -/
def itemsToChars : (first : Bool) → List JsonValue → List Char
  | _, [] => []
  | first, item :: items =>
    (if first then [] else [',']) ++ toChars item ++ itemsToChars false items

/-- The spelling of the members of an object; a comma stands before each but the first. -/
def membersToChars : (first : Bool) → List (List StringPart × JsonValue) → List Char
  | _, [] => []
  | first, (name, value) :: members =>
    (if first then [] else [',']) ++ quoted name ++ ':' :: toChars value ++
      membersToChars false members

end

end JsonValue

end LinkCommittee
