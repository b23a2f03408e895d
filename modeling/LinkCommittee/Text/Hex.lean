import LinkCommittee.Text.Basic

/-!
# Hexadecimal text

Bytes are written as two lowercase digits each and read in either case.
Reading is strict: an odd number of digits or any other character is refused.
-/

namespace LinkCommittee.Hex

/-- The lowercase digit for a value below 16. -/
def digit (value : Nat) : Char :=
  if value < 10 then Char.ofNat (48 + value) else Char.ofNat (87 + value)

/-- The value of a digit of either case. -/
def digitValue? (c : Char) : Option Nat :=
  if '0' ≤ c ∧ c ≤ '9' then some (c.toNat - 48)
  else if 'a' ≤ c ∧ c ≤ 'f' then some (c.toNat - 87)
  else if 'A' ≤ c ∧ c ≤ 'F' then some (c.toNat - 55)
  else none

/-- Two lowercase digits for each byte, the high one first. -/
def encode : List UInt8 → List Char
  | [] => []
  | byte :: bytes => digit (byte.toNat / 16) :: digit (byte.toNat % 16) :: encode bytes

@[simp] theorem length_encode (bytes : List UInt8) : (encode bytes).length = 2 * bytes.length := by
  induction bytes with
  | nil => rfl
  | cons byte bytes ih =>
    simp only [encode, List.length_cons, ih]
    omega

theorem isAscii_digit {value : Nat} (h : value < 16) : isAscii (digit value) = true := by
  revert value
  decide

/-- Hexadecimal text is ASCII. -/
theorem all_isAscii_encode (bytes : List UInt8) : (encode bytes).all isAscii = true := by
  induction bytes with
  | nil => rfl
  | cons byte bytes ih =>
    have hbyte : byte.toNat < 256 := byte.toNat_lt
    rw [encode, List.all_cons, List.all_cons, ih, isAscii_digit (by omega),
      isAscii_digit (by omega)]
    rfl

/-- Reads pairs of digits. -/
def decode : List Char → Option (List UInt8)
  | [] => some []
  | [_] => none
  | high :: low :: text => do
    let high ← digitValue? high
    let low ← digitValue? low
    let bytes ← decode text
    return UInt8.ofNat (16 * high + low) :: bytes

/-- The hexadecimal text of `bytes` as a string. -/
def text (bytes : List UInt8) : String := String.ofList (encode bytes)

/-- Hexadecimal text may start with one `0x` mark, which is dropped. -/
def dropMark : List Char → List Char
  | '0' :: 'x' :: text => text
  | text => text

end LinkCommittee.Hex
