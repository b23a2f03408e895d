import LinkCommittee.Json.Value

/-!
# Reading JSON

A reader takes one piece of grammar off the front of a text and gives the rest.
Blanks may stand around every value and every sign.  A whole text is one value with
nothing but blanks after it.  Nothing is read beyond the grammar: leading zeros, bare
control characters in strings and commas before a closing sign are refused.
-/

namespace LinkCommittee

namespace JsonValue

/-- Space, tab, line feed and carriage return. -/
def isBlank (c : Char) : Bool := c = ' ' ∨ c = '\x09' ∨ c = '\x0a' ∨ c = '\x0d'

/-- Drops blanks from the front. -/
def skipBlanks (text : List Char) : List Char := text.dropWhile isBlank

/-- Takes given characters off the front. -/
def expect? : (expected : List Char) → (text : List Char) → Option (List Char)
  | [], text => some text
  | _ :: _, [] => none
  | e :: expected, c :: text => if e = c then expect? expected text else none

/-- Takes a nonempty run of digits off the front. -/
def readDigits? (text : List Char) : Option (List Char × List Char) :=
  let digits := text.takeWhile Char.isDigit
  if digits = [] then none else some (digits, text.dropWhile Char.isDigit)

/-- Takes a whole number off the front; only zero begins with a zero. -/
def readWhole? (text : List Char) : Option (List Char × List Char) :=
  match readDigits? text with
  | some ('0' :: _ :: _, _) => none
  | result => result

/-- Takes a sign off the front, if there is one of the given signs. -/
def readSign (signs : List Char) : List Char → List Char × List Char
  | c :: text => if c ∈ signs then ([c], text) else ([], c :: text)
  | [] => ([], [])

/-- Takes the part of a number after the point off the front, if there is one. -/
def readFraction? : List Char → Option (List Char × List Char)
  | '.' :: text => (readDigits? text).map fun (digits, rest) => ('.' :: digits, rest)
  | text => some ([], text)

/-- Takes the exponent of a number off the front, if there is one. -/
def readExponent? : List Char → Option (List Char × List Char)
  | c :: text =>
    if c = 'e' ∨ c = 'E' then
      let (sign, text) := readSign ['+', '-'] text
      (readDigits? text).map fun (digits, rest) => (c :: sign ++ digits, rest)
    else some ([], c :: text)
  | [] => some ([], [])

/-- Takes the literal of a number off the front. -/
def readNumber? (text : List Char) : Option (List Char × List Char) := do
  let (sign, text) := readSign ['-'] text
  let (whole, text) ← readWhole? text
  let (fraction, text) ← readFraction? text
  let (exponent, text) ← readExponent? text
  return (sign ++ whole ++ fraction ++ exponent, text)

/-- The 16-bit unit that four hexadecimal digits spell. -/
def unitOfDigits? (a b c d : Char) : Option Nat := do
  let a ← Hex.digitValue? a
  let b ← Hex.digitValue? b
  let c ← Hex.digitValue? c
  let d ← Hex.digitValue? d
  return ((a * 16 + b) * 16 + c) * 16 + d

/-- The character of a short escape. -/
def escaped? (letter : Char) : Option Char :=
  if letter = '\x22' ∨ letter = '\x5c' ∨ letter = '/' then some letter
  else if letter = 'b' then some '\x08'
  else if letter = 'f' then some '\x0c'
  else if letter = 'n' then some '\x0a'
  else if letter = 'r' then some '\x0d'
  else if letter = 't' then some '\x09'
  else none

/-- Puts a part in front of a string that was read. -/
def addPart (part : StringPart) (result : Option (List StringPart × List Char)) :
    Option (List StringPart × List Char) :=
  result.map fun (parts, rest) => (part :: parts, rest)

/-- Takes the parts of a string and its closing quote off the front. -/
def readParts? : List Char → Option (List StringPart × List Char)
  | [] => none
  | '\x22' :: rest => some ([], rest)
  | '\x5c' :: 'u' :: a :: b :: c :: d :: rest =>
    match unitOfDigits? a b c d with
    | some code => addPart (.unit code) (readParts? rest)
    | none => none
  | '\x5c' :: letter :: rest =>
    match escaped? letter with
    | some c => addPart (.plain c) (readParts? rest)
    | none => none
  | c :: rest => if c.toNat < 0x20 then none else addPart (.plain c) (readParts? rest)

/-- Takes the name of a member and the colon after it off the front. -/
def readName? (text : List Char) : Option (List StringPart × List Char) :=
  match skipBlanks text with
  | '\x22' :: text => do
    let (name, text) ← readParts? text
    let text ← expect? [':'] (skipBlanks text)
    return (name, text)
  | _ => none

mutual

/-- Takes a value off the front; `fuel` bounds the number of nested and successive calls. -/
def readValue? : (fuel : Nat) → List Char → Option (JsonValue × List Char)
  | 0, _ => none
  | fuel + 1, text =>
    match skipBlanks text with
    | '\x22' :: text => (readParts? text).map fun (parts, rest) => (string parts, rest)
    | '[' :: text =>
      match skipBlanks text with
      | ']' :: rest => some (array [], rest)
      | text => (readItems? fuel text).map fun (items, rest) => (array items, rest)
    | '\x7b' :: text =>
      match skipBlanks text with
      | '\x7d' :: rest => some (object [], rest)
      | text => (readMembers? fuel text).map fun (members, rest) => (object members, rest)
    | 'n' :: text => (expect? "ull".toList text).map (null, ·)
    | 't' :: text => (expect? "rue".toList text).map (bool true, ·)
    | 'f' :: text => (expect? "alse".toList text).map (bool false, ·)
    | text => (readNumber? text).map fun (literal, rest) => (number literal, rest)

/-- Takes the items of an array and its closing sign off the front. -/
def readItems? : (fuel : Nat) → List Char → Option (List JsonValue × List Char)
  | 0, _ => none
  | fuel + 1, text => do
    let (item, text) ← readValue? fuel text
    match skipBlanks text with
    | ',' :: text => (readItems? fuel text).map fun (items, rest) => (item :: items, rest)
    | ']' :: rest => some ([item], rest)
    | _ => none

/-- Takes the members of an object and its closing sign off the front. -/
def readMembers? :
    (fuel : Nat) → List Char → Option (List (List StringPart × JsonValue) × List Char)
  | 0, _ => none
  | fuel + 1, text => do
    let (name, text) ← readName? text
    let (value, text) ← readValue? fuel text
    match skipBlanks text with
    | ',' :: text =>
      (readMembers? fuel text).map fun (members, rest) => ((name, value) :: members, rest)
    | '\x7d' :: rest => some ([(name, value)], rest)
    | _ => none

end

/-- Reads a text that is one value.  Two calls for each character are enough, because every
second call takes a character off the front. -/
def parse? (text : List Char) : Option JsonValue :=
  match readValue? (2 * text.length + 2) text with
  | some (value, rest) => if skipBlanks rest = [] then some value else none
  | none => none

end JsonValue

end LinkCommittee
