import LinkCommittee.Certificate.Confirmation
import LinkCommittee.Proofs.Text.Decimal
import LinkCommittee.Proofs.Text.Hex

/-!
# The digits of a confirmation call

A word is filled digit by digit: the last digit of what remains goes into the next nibble
of the word, and the rest remains (`Word.writeDigits`).  What the word holds by then is the
pairs of digits of a number (`packedDecimal`), and with a further digit those of a number
greater by its weight; so in the end it holds those of the number to be written.

A byte of an argument thus holds two decimal digits, and the hexadecimal text of the
argument is the decimal text of its number in twice as many places as it has bytes.  All
numbers of 64 bits have room there; so each argument is read back from its digits, and a
call is told by its arguments.

Main statement: `confirmCall_spells`.
-/

namespace LinkCommittee

/-! ### Filling a word -/

section

variable {α : Type} {front : List α}

theorem modify_append_singleton (front : List α) (last : α) (change : α → α) :
    (front ++ [last]).modify front.length change = front ++ [change last] := by
  rw [List.modify_eq_take_drop, List.take_left, List.drop_left]
  rfl

/-- A change in the front part leaves what stands behind it alone. -/
theorem modify_append_of_lt {place : Nat} (h : place < front.length) (back : List α)
    (change : α → α) :
    (front ++ back).modify place change = front.modify place change ++ back := by
  have hlong : place < (front ++ back).length := by
    rw [List.length_append]
    exact Nat.lt_add_right _ h
  rw [List.modify_eq_take_cons_drop h, List.modify_eq_take_cons_drop hlong,
    List.take_append_of_le_length (Nat.le_of_lt h), List.drop_append_of_le_length h,
    List.getElem_append_left h, List.append_assoc, List.cons_append]

end

/-- The byte whose nibbles are the last two decimal digits of a number. -/
def packedByte (number : Nat) : UInt8 := UInt8.ofNat (number / 10 % 10 * 16 + number % 10)

/-- The `width` lowest pairs of decimal digits of a number, a pair to a byte. -/
def packedDecimal : (width : Nat) → (number : Nat) → List UInt8
  | 0, _ => []
  | width + 1, number => packedDecimal width (number / 100) ++ [packedByte number]

/-- A packed number fills its width. -/
theorem length_packedDecimal (width number : Nat) :
    (packedDecimal width number).length = width := by
  induction width generalizing number with
  | zero => rfl
  | succ width ih => rw [packedDecimal, List.length_append, ih, List.length_singleton]

/-- An empty word holds the digits of zero. -/
theorem packedDecimal_zero (width : Nat) : packedDecimal width 0 = List.replicate width 0 := by
  induction width with
  | zero => rfl
  | succ width ih =>
    rw [packedDecimal, Nat.zero_div, ih, List.replicate_succ']
    rfl

/-- A digit comes into the low nibble of an empty byte, or into the high one beside a digit. -/
theorem packedByte_or {nibble number digit : Nat} (hnibble : nibble < 2)
    (hnumber : number < 10 ^ nibble) (hdigit : digit < 10) :
    (packedByte number ||| if nibble % 2 = 0 then UInt8.ofNat digit else UInt8.ofNat digit <<< 4) =
      packedByte (number + digit * 10 ^ nibble) := by
  have hbytes : ∀ nibble < 2, ∀ digit < 10, ∀ number < 10 ^ nibble,
      (packedByte number ||| if nibble % 2 = 0 then UInt8.ofNat digit else UInt8.ofNat digit <<< 4) =
        packedByte (number + digit * 10 ^ nibble) := by
    decide
  exact hbytes nibble hnibble digit hdigit number hnumber

/-- **A digit that is written adds its weight** to a number whose digits end before it. -/
theorem modify_packedDecimal {width nibble number digit : Nat} (hnibble : nibble < 2 * width)
    (hnumber : number < 10 ^ nibble) (hdigit : digit < 10) :
    (packedDecimal width number).modify (width - 1 - nibble / 2)
        (· ||| if nibble % 2 = 0 then UInt8.ofNat digit else UInt8.ofNat digit <<< 4) =
      packedDecimal width (number + digit * 10 ^ nibble) := by
  induction width generalizing nibble number with
  | zero => contradiction
  | succ width ih =>
    have hlength := length_packedDecimal width (number / 100)
    by_cases hlast : nibble < 2
    · have hplace : width + 1 - 1 - nibble / 2 = (packedDecimal width (number / 100)).length := by
        omega
      have hfront : (number + digit * 10 ^ nibble) / 100 = number / 100 := by
        obtain rfl | rfl : nibble = 0 ∨ nibble = 1 := by omega
        · omega
        · omega
      rw [packedDecimal, packedDecimal, hfront, hplace, modify_append_singleton,
        packedByte_or hlast hnumber hdigit]
    · -- the nibble lies in front of the last byte, which stays while two digits come off
      obtain ⟨before, rfl⟩ : ∃ before, nibble = before + 2 := ⟨nibble - 2, by omega⟩
      have hbefore : number / 100 < 10 ^ before := by
        rw [pow_add] at hnumber
        exact Nat.div_lt_of_lt_mul (Nat.mul_comm _ _ ▸ hnumber)
      have hweight : digit * 10 ^ (before + 2) = 100 * (digit * 10 ^ before) := by
        rw [pow_add]
        ring
      have hbyte : packedByte (number + 100 * (digit * 10 ^ before)) = packedByte number := by
        have htens : (number + 100 * (digit * 10 ^ before)) / 10 % 10 = number / 10 % 10 := by omega
        have hunits : (number + 100 * (digit * 10 ^ before)) % 10 = number % 10 := by omega
        rw [packedByte, packedByte, htens, hunits]
      have hplace : width + 1 - 1 - (before + 2) / 2 = width - 1 - before / 2 := by omega
      rw [packedDecimal, packedDecimal, hweight, hbyte, Nat.add_mul_div_left _ _ (by decide),
        hplace, Nat.add_mod_right, modify_append_of_lt (by omega), ih (by omega) hbefore]

/-- A word has room for the digits of every argument. -/
theorem argument_lt (number : UInt64) : number.toNat < 10 ^ 64 :=
  Decimal.lt_ten_pow (by decide) number.toNat_lt

namespace Word

/-- What one step writes: to a word with the digits of a number, a digit in front of them. -/
theorem writeDigit_packed {word : Word} {nibble number digit : Nat}
    (hword : word.bytes.toList = packedDecimal 32 number) (hnibble : nibble < 64)
    (hnumber : number < 10 ^ nibble) (hdigit : digit < 10) :
    (word.writeDigit nibble (UInt8.ofNat digit)).bytes.toList =
      packedDecimal 32 (number + digit * 10 ^ nibble) := by
  show word.bytes.toList.modify (32 - 1 - nibble / 2) _ = _
  rw [hword]
  exact modify_packedDecimal hnibble hnumber hdigit

/-- The digits that are written so far and those that remain make up one number. -/
theorem mod_add_div_weight (remaining nibble : Nat) :
    remaining % 10 * 10 ^ nibble + remaining / 10 * 10 ^ (nibble + 1) =
      remaining * 10 ^ nibble := by
  rw [pow_succ]
  calc remaining % 10 * 10 ^ nibble + remaining / 10 * (10 ^ nibble * 10)
      = (remaining % 10 + 10 * (remaining / 10)) * 10 ^ nibble := by ring
    _ = remaining * 10 ^ nibble := by rw [Nat.mod_add_div]

/-- **What remains is written in front of what is there.**  The word holds the digits of a number,
and they end before the nibble where the digits of what remains begin. -/
theorem writeDigits_packed {word : Word} {remaining : UInt64} {nibble number : Nat}
    (hword : word.bytes.toList = packedDecimal 32 number) (hnumber : number < 10 ^ nibble)
    (hroom : remaining.toNat * 10 ^ nibble < 10 ^ 64) :
    (word.writeDigits remaining nibble).bytes.toList =
      packedDecimal 32 (number + remaining.toNat * 10 ^ nibble) := by
  induction word, remaining, nibble using writeDigits.induct generalizing number with
  | case1 word remaining nibble hpos ih =>
    have hone : 0 < remaining.toNat := UInt64.lt_iff_toNat_lt.1 hpos
    have hnibble : nibble < 64 := by
      rw [← Nat.pow_lt_pow_iff_right (show 1 < 10 by decide)]
      exact Nat.lt_of_le_of_lt (Nat.le_mul_of_pos_left _ hone) hroom
    have hdigit : (remaining % 10).toUInt8 = UInt8.ofNat (remaining.toNat % 10) := rfl
    have hrest : (remaining / 10).toNat = remaining.toNat / 10 := rfl
    have hten : remaining.toNat % 10 < 10 := Nat.mod_lt _ (by decide)
    have hsum := mod_add_div_weight remaining.toNat nibble
    have hlonger : number + remaining.toNat % 10 * 10 ^ nibble < 10 ^ (nibble + 1) := by
      have hweight : remaining.toNat % 10 * 10 ^ nibble ≤ 9 * 10 ^ nibble :=
        Nat.mul_le_mul_right _ (Nat.le_of_lt_succ hten)
      rw [pow_succ]
      omega
    have hstep : (word.writeDigit nibble (remaining % 10).toUInt8).bytes.toList =
        packedDecimal 32 (number + remaining.toNat % 10 * 10 ^ nibble) := by
      rw [hdigit]
      exact writeDigit_packed hword hnibble hnumber hten
    have hroom' : (remaining / 10).toNat * 10 ^ (nibble + 1) < 10 ^ 64 := by
      rw [hrest]
      omega
    rw [writeDigits, if_pos hpos, ih hstep hlonger hroom', hrest, Nat.add_assoc, hsum]
  | case2 word remaining nibble hzero =>
    have hnone : remaining.toNat = 0 := by
      rw [UInt64.lt_iff_toNat_lt, UInt64.toNat_zero] at hzero
      exact Nat.eq_zero_of_not_pos hzero
    rw [writeDigits, if_neg hzero, hword, hnone, Nat.zero_mul, Nat.add_zero]

/-- **A word that is filled digit by digit holds the pairs of digits of its number.** -/
theorem toList_ofDecimal (number : UInt64) :
    (ofDecimal number).bytes.toList = packedDecimal 32 number.toNat := by
  have hempty : zero.bytes.toList = packedDecimal 32 0 := by
    rw [packedDecimal_zero]
    decide
  have hroom : number.toNat * 10 ^ 0 < 10 ^ 64 := by
    rw [pow_zero, Nat.mul_one]
    exact argument_lt number
  rw [ofDecimal, writeDigits_packed hempty (by decide) hroom, Nat.zero_add, pow_zero, Nat.mul_one]

end Word

/-! ### Digits of a word -/

/-- Two decimal digits fit in a byte, each of them being a nibble. -/
theorem toNat_packedByte (number : Nat) :
    (packedByte number).toNat = number / 10 % 10 * 16 + number % 10 :=
  UInt8.toNat_ofNat_of_lt' (show number / 10 % 10 * 16 + number % 10 < 256 by omega)

/-- **The hexadecimal digits of a packed number are its decimal digits.**  By induction on the
width: with each byte two digits come off the end of the number. -/
theorem encode_packedDecimal (width number : Nat) :
    Hex.encode (packedDecimal width number) = Decimal.padded (2 * width) number := by
  induction width generalizing number with
  | zero => rfl
  | succ width ih =>
    have hlast : Hex.encode [packedByte number] =
        [Char.ofNat (48 + number / 10 % 10), Char.ofNat (48 + number % 10)] := by
      have hhigh : (number / 10 % 10 * 16 + number % 10) / 16 = number / 10 % 10 := by omega
      have hlow : (number / 10 % 10 * 16 + number % 10) % 16 = number % 10 := by omega
      rw [Hex.encode, Hex.encode, toNat_packedByte, hhigh, hlow, Hex.digit, Hex.digit,
        if_pos (by omega), if_pos (by omega)]
    have hwidth : 2 * (width + 1) = 2 * width + 1 + 1 := rfl
    rw [packedDecimal, Hex.encode_append, ih, hlast, hwidth, Decimal.padded, Decimal.padded,
      Nat.div_div_eq_div_mul, List.append_assoc]
    rfl

/-- The nibbles of a packed number are decimal digits. -/
theorem nibbles_of_mem_packedDecimal {width number : Nat} {byte : UInt8}
    (h : byte ∈ packedDecimal width number) : byte.toNat / 16 ≤ 9 ∧ byte.toNat % 16 ≤ 9 := by
  induction width generalizing number with
  | zero => cases h
  | succ width ih =>
    rw [packedDecimal, List.mem_append, List.mem_singleton] at h
    rcases h with h | rfl
    · exact ih h
    · rw [toNat_packedByte]
      omega

/-! ### Arguments of a call -/

/-- The hexadecimal digits of an argument of a call, the first argument standing in place 0. -/
def argumentDigits (call : Octets 68) (place : Nat) : List Char :=
  ((Hex.encode call.toList).drop (8 + 64 * place)).take 64

variable {certificate status certificate' status' : UInt64}

/-- The bytes of a call are its selector and its two numbers. -/
theorem toList_confirmCall (certificate status : UInt64) :
    (confirmCall certificate status).toList = confirmSelector.toList ++
      (packedDecimal 32 certificate.toNat ++ packedDecimal 32 status.toNat) := by
  rw [← Word.toList_ofDecimal, ← Word.toList_ofDecimal]
  rfl

/-- The hexadecimal text of a call is its selector and the digits of its arguments. -/
theorem encode_confirmCall (certificate status : UInt64) :
    Hex.encode (confirmCall certificate status).toList = "c03c1796".toList ++
      (Decimal.padded 64 certificate.toNat ++ Decimal.padded 64 status.toNat) := by
  have hselector : Hex.encode confirmSelector.toList = "c03c1796".toList := by decide
  rw [toList_confirmCall, Hex.encode_append, Hex.encode_append, hselector, encode_packedDecimal,
    encode_packedDecimal]

/-- The first argument of a call spells the number of the certificate. -/
theorem argumentDigits_certificate (certificate status : UInt64) :
    argumentDigits (confirmCall certificate status) 0 =
      Decimal.padded 64 certificate.toNat := by
  have hselector : ("c03c1796".toList).length = 8 := by decide
  rw [argumentDigits, encode_confirmCall, Nat.mul_zero, Nat.add_zero, List.drop_left' hselector,
    List.take_left' (Decimal.length_padded _ _)]

/-- The second argument of a call spells the status. -/
theorem argumentDigits_status (certificate status : UInt64) :
    argumentDigits (confirmCall certificate status) 1 = Decimal.padded 64 status.toNat := by
  have hselector : ("c03c1796".toList).length = 8 := by decide
  rw [argumentDigits, encode_confirmCall, Nat.mul_one, ← List.drop_drop,
    List.drop_left' hselector, List.drop_left' (Decimal.length_padded _ _),
    List.take_of_length_le (Nat.le_of_eq (Decimal.length_padded _ _))]

/-- **Different arguments give different calls.**  Each argument is read back from its own digits,
so none of it is lost. -/
theorem confirmCall_eq_iff :
    confirmCall certificate status = confirmCall certificate' status' ↔
      certificate = certificate' ∧ status = status' := by
  have hinj : ∀ {number number' : UInt64},
      Decimal.padded 64 number.toNat = Decimal.padded 64 number'.toNat → number = number' := by
    intro number number' h
    have hspells := Decimal.spells_padded (argument_lt number)
    rw [h] at hspells
    exact UInt64.toNat_inj.1 (hspells.unique (Decimal.spells_padded (argument_lt number')))
  constructor
  · intro h
    constructor
    · apply hinj
      rw [← argumentDigits_certificate certificate status, h, argumentDigits_certificate]
    · apply hinj
      rw [← argumentDigits_status certificate status, h, argumentDigits_status]
  · intro h
    obtain ⟨rfl, rfl⟩ := h
    rfl

/-- **A confirmation call spells its arguments in decimal.**  It has 68 bytes, and its hexadecimal
text is the selector and the decimal digits of the two arguments, each filled up with zeros in front
to 64 places.  So no nibble behind the selector is more than 9, the digits of each argument spell
its number, and a call has no other arguments. -/
theorem confirmCall_spells (certificate status : UInt64) :
    (confirmCall certificate status).toList.length = 68 ∧
    Hex.encode (confirmCall certificate status).toList = "c03c1796".toList ++
      ((Nat.toDigits 10 certificate.toNat).leftpad 64 '0' ++
        (Nat.toDigits 10 status.toNat).leftpad 64 '0') ∧
    (∀ byte ∈ (confirmCall certificate status).toList.drop 4,
      byte.toNat / 16 ≤ 9 ∧ byte.toNat % 16 ≤ 9) ∧
    Decimal.Spells (argumentDigits (confirmCall certificate status) 0) certificate.toNat ∧
    Decimal.Spells (argumentDigits (confirmCall certificate status) 1) status.toNat ∧
    ∀ certificate' status', confirmCall certificate status = confirmCall certificate' status' ↔
      certificate = certificate' ∧ status = status' := by
  refine ⟨(confirmCall certificate status).length_toList, ?_, ?_, ?_, ?_,
    fun certificate' status' => confirmCall_eq_iff⟩
  · rw [encode_confirmCall, Decimal.padded_eq_leftpad (by decide) (argument_lt certificate),
      Decimal.padded_eq_leftpad (by decide) (argument_lt status)]
  · intro byte hbyte
    rw [toList_confirmCall, List.drop_left' confirmSelector.length_toList, List.mem_append]
      at hbyte
    rcases hbyte with hbyte | hbyte
    · exact nibbles_of_mem_packedDecimal hbyte
    · exact nibbles_of_mem_packedDecimal hbyte
  · rw [argumentDigits_certificate]
    exact Decimal.spells_padded (argument_lt certificate)
  · rw [argumentDigits_status]
    exact Decimal.spells_padded (argument_lt status)

/-- The digits of the largest argument fill ten bytes; five digits begin in the middle of a byte and
keep the zeros between them. -/
theorem confirmCall_spells_largest :
    Hex.encode (confirmCall 0xffffffffffffffff 10203).toList = "c03c1796".toList ++
        (List.replicate 44 '0' ++ "18446744073709551615".toList ++
          (List.replicate 59 '0' ++ "10203".toList)) ∧
      0x18 ∈ (confirmCall 0xffffffffffffffff 10203).toList.drop 4 ∧
      (0x18 : UInt8).toNat / 16 ≤ 9 ∧ (0x18 : UInt8).toNat % 16 ≤ 9 ∧
      confirmCall 0xffffffffffffffff 10203 ≠ confirmCall 10203 0xffffffffffffffff := by
  obtain ⟨-, htext, hnibbles, -, -, hsame⟩ := confirmCall_spells 0xffffffffffffffff 10203
  have hmem : 0x18 ∈ (confirmCall 0xffffffffffffffff 10203).toList.drop 4 := by decide +kernel
  have hdifferent := mt (hsame 10203 0xffffffffffffffff).1 (by decide)
  refine ⟨htext.trans ?_, hmem, (hnibbles _ hmem).1, (hnibbles _ hmem).2, hdifferent⟩
  decide +kernel

end LinkCommittee
