/-!
# Decimal text

Numbers in messages are zero-padded decimal fields of a fixed width.  Reading a
field accepts digits only, with no sign and no blank, and values that fit in 64
bits.
-/

namespace LinkCommittee.Decimal

/-- The `width` lowest decimal digits of a number, most significant first. -/
def padded : (width : Nat) → (number : Nat) → List Char
  | 0, _ => []
  | width + 1, number => padded width (number / 10) ++ [Char.ofNat (48 + number % 10)]

/-- The number that a list of decimal digits spells. -/
def value (digits : List Char) : Nat :=
  digits.foldl (fun number c => 10 * number + (c.toNat - 48)) 0

/-- Reads a nonempty run of decimal digits whose value fits in 64 bits. -/
def read? (text : List Char) : Option UInt64 :=
  if text ≠ [] ∧ text.all Char.isDigit = true ∧ value text < UInt64.size then
    some (UInt64.ofNat (value text))
  else none

/-- The decimal digits of a number without padding. -/
def text (number : Nat) : String := String.ofList (Nat.toDigits 10 number)

end LinkCommittee.Decimal
