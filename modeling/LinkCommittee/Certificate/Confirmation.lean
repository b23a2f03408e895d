import LinkCommittee.Certificate.Word

/-!
# Confirmation calls

A confirmation is a call of the contract: a selector of four bytes and two words, the
certificate and the status.  The hexadecimal digits of each word are the decimal
digits of its argument.
-/

namespace LinkCommittee

/-- The selector of the confirmation call. -/
def confirmSelector : Octets 4 := ⟨[0xc0, 0x3c, 0x17, 0x96], rfl⟩

/-- Writes a digit into a nibble that holds zero.  Nibbles are counted from the end of the word, the
low half of a byte before its high half. -/
def Word.writeDigit (word : Word) (nibble : Nat) (digit : UInt8) : Word :=
  ⟨word.bytes.modify (31 - nibble / 2) (· ||| if nibble % 2 = 0 then digit else digit <<< 4)⟩

/-- Writes the decimal digits of a number into a word, the last digit into the given nibble and each
further one into the next.  A number of 64 bits has no more than 20 digits, so from nibble 0 on
there is room for all of them. -/
def Word.writeDigits (word : Word) (remaining : UInt64) (nibble : Nat) : Word :=
  if 0 < remaining then
    (word.writeDigit nibble (remaining % 10).toUInt8).writeDigits (remaining / 10) (nibble + 1)
  else word
termination_by remaining.toNat
decreasing_by
  have positive : (0 : UInt64).toNat < remaining.toNat := UInt64.lt_iff_toNat_lt.1 (by assumption)
  exact Nat.div_lt_self positive (by decide)

/-- The word whose hexadecimal digits are the decimal digits of a number. -/
def Word.ofDecimal (number : UInt64) : Word := Word.zero.writeDigits number 0

/-- The call that confirms a certificate with a status. -/
def confirmCall (certificate status : UInt64) : Octets 68 :=
  confirmSelector.append
    ((Word.ofDecimal certificate).bytes.append (Word.ofDecimal status).bytes)

end LinkCommittee
