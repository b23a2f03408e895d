import LinkCommittee.Text.Hex
import LinkCommittee.Proofs.Bytes
import LinkCommittee.Proofs.Text.Basic
import Mathlib.Data.Nat.Digits.Defs

/-!
# Hexadecimal text and bytes

The digits of either case have the values below 16 and no other character has one.  A
byte string is read back from its text, and a text that can be read is, in lowercase,
the text of what was read (`Hex.decode_eq_some_iff`).  Said without the writer, the text
spells in base 16 the number that the bytes spell in base 256.

A byte string of known length is also read from behind a mark.  No digit is the second
character of the mark, so a text shows digits in one way at most (`Hex.dropMark_of_shows`).
-/

namespace LinkCommittee.Hex

/-- The digit of a value has that value. -/
theorem digitValue?_digit {value : Nat} (h : value < 16) :
    digitValue? (digit value) = some value := by
  revert value
  decide

/-- The characters that are digits, by their values. -/
theorem eq_ofNat_of_digitValue? {c : Char} {value : Nat} (h : digitValue? c = some value) :
    (value < 10 ∧ c = Char.ofNat (48 + value)) ∨
      (value < 16 ∧ 10 ≤ value ∧ (c = Char.ofNat (87 + value) ∨ c = Char.ofNat (55 + value))) := by
  unfold digitValue? at h
  split at h
  next hdigit =>
    obtain ⟨hlow, hhigh⟩ : 48 ≤ c.toNat ∧ c.toNat ≤ 57 := Char.toNat_bounds hdigit
    cases h
    exact .inl ⟨by omega, Char.eq_ofNat_add_sub hlow⟩
  split at h
  next hlower =>
    obtain ⟨hlow, hhigh⟩ : 97 ≤ c.toNat ∧ c.toNat ≤ 102 := Char.toNat_bounds hlower
    cases h
    exact .inr ⟨by omega, by omega, .inl (Char.eq_ofNat_add_sub (by omega))⟩
  split at h
  next hupper =>
    obtain ⟨hlow, hhigh⟩ : 65 ≤ c.toNat ∧ c.toNat ≤ 70 := Char.toNat_bounds hupper
    cases h
    exact .inr ⟨by omega, by omega, .inr (Char.eq_ofNat_add_sub (by omega))⟩
  · contradiction

/-- **What holds of the lowercase digits and their capitals holds of every character that is
read.** -/
theorem of_digitValue? {p : Nat → Char → Prop} (hlower : ∀ value < 16, p value (digit value))
    (hcapital : ∀ value < 16, p value (digit value).toUpper) {c : Char} {value : Nat}
    (h : digitValue? c = some value) : p value c := by
  rcases eq_ofNat_of_digitValue? h with ⟨hsmall, rfl⟩ | ⟨hsmall, hlarge, rfl | rfl⟩
  · have hdigit : Char.ofNat (48 + value) = digit value := (if_pos hsmall).symm
    rw [hdigit]
    exact hlower value (by omega)
  · have hdigit : Char.ofNat (87 + value) = digit value := (if_neg (by omega)).symm
    rw [hdigit]
    exact hlower value hsmall
  · have hdigit : ∀ value < 16, 10 ≤ value →
        Char.ofNat (55 + value) = (digit value).toUpper := by decide
    rw [hdigit value hsmall hlarge]
    exact hcapital value hsmall

/-- A digit of either case is written back in lowercase. -/
theorem digit_of_digitValue? {c : Char} {value : Nat} (h : digitValue? c = some value) :
    value < 16 ∧ digit value = c.toLower :=
  of_digitValue? (p := fun value c => value < 16 ∧ digit value = c.toLower)
    (by decide) (by decide) h

/-- A byte is made of its two digits. -/
theorem byte_digits (byte : UInt8) :
    UInt8.ofNat (16 * (byte.toNat / 16) + byte.toNat % 16) = byte := by
  rw [Nat.div_add_mod, UInt8.ofNat_toNat]

/-- Bytes behind others are spelled behind them. -/
theorem encode_append (bytes rest : List UInt8) :
    encode (bytes ++ rest) = encode bytes ++ encode rest := by
  induction bytes with
  | nil => rfl
  | cons byte bytes ih => rw [List.cons_append, encode, encode, ih, List.cons_append, List.cons_append]

/-- **Bytes are read back from their text.** -/
theorem decode_encode (bytes : List UInt8) : decode (encode bytes) = some bytes := by
  induction bytes with
  | nil => rfl
  | cons byte bytes ih =>
    have hbyte : byte.toNat < 256 := byte.toNat_lt
    rw [encode, decode, digitValue?_digit (by omega), digitValue?_digit (by omega), ih]
    simp only [Option.bind_eq_bind, Option.bind_some, byte_digits]
    rfl

/-- **A text that can be read is the text of its bytes**, up to the case of its digits. -/
theorem encode_of_decode {text : List Char} {bytes : List UInt8} (h : decode text = some bytes) :
    encode bytes = text.map Char.toLower := by
  induction text using decode.induct generalizing bytes with
  | case1 =>
    cases h
    rfl
  | case2 => contradiction
  | case3 high low text ih =>
    rw [decode] at h
    obtain ⟨a, ha, h⟩ := Option.bind_eq_some_iff.1 h
    obtain ⟨b, hb, h⟩ := Option.bind_eq_some_iff.1 h
    obtain ⟨rest, hrest, h⟩ := Option.bind_eq_some_iff.1 h
    cases h
    obtain ⟨ha16, hhigh⟩ := digit_of_digitValue? ha
    obtain ⟨hb16, hlow⟩ := digit_of_digitValue? hb
    have hbyte : (UInt8.ofNat (16 * a + b)).toNat = 16 * a + b :=
      UInt8.toNat_ofNat_of_lt' (show 16 * a + b < 256 by omega)
    have hdiv : (16 * a + b) / 16 = a := by omega
    have hmod : (16 * a + b) % 16 = b := by omega
    rw [encode, hbyte, hdiv, hmod, hhigh, hlow, ih hrest, List.map_cons, List.map_cons]

/-- What is written are digits. -/
theorem exists_digit_of_mem_encode {c : Char} {bytes : List UInt8} (h : c ∈ encode bytes) :
    ∃ value < 16, c = digit value := by
  induction bytes with
  | nil => cases h
  | cons byte bytes ih =>
    have hbyte : byte.toNat < 256 := byte.toNat_lt
    rw [encode, List.mem_cons, List.mem_cons] at h
    rcases h with rfl | rfl | h
    · exact ⟨_, by omega, rfl⟩
    · exact ⟨_, by omega, rfl⟩
    · exact ih h

/-! ### The digits that a text shows -/

/-- The digits, of either case. -/
def IsDigit (c : Char) : Prop :=
  '0' ≤ c ∧ c ≤ '9' ∨ 'a' ≤ c ∧ c ≤ 'f' ∨ 'A' ≤ c ∧ c ≤ 'F'

instance : DecidablePred IsDigit := fun _ => inferInstanceAs (Decidable (_ ∨ _))

/-- The number for which a digit stands.  The letters of either case go on from ten. -/
def weight (c : Char) : Nat :=
  if c.isAlpha then 10 + (c.toLower.toNat - 'a'.toNat) else c.toNat - '0'.toNat

/-- A text consists of digits and they spell a number, the most significant digit first. -/
structure Spells (text : List Char) (number : Nat) : Prop where
  digits : ∀ c ∈ text, IsDigit c
  sum_eq : Nat.ofDigits 16 (text.reverse.map weight) = number

/-- The digits of a text are all of it, or all that stands behind one mark. -/
def Shows (text digits : List Char) : Prop := text = digits ∨ text = '0' :: 'x' :: digits

/-- A text shows digits, two for each byte, that spell a byte string. -/
structure Denotes {n : Nat} (text digits : List Char) (bytes : Octets n) : Prop where
  shown : Shows text digits
  length_eq : digits.length = 2 * n
  spells : Spells digits bytes.toNat

variable {c : Char} {text digits : List Char} {bytes : List UInt8}

/-- The digits are the characters that have a value. -/
theorem isDigit_iff : IsDigit c ↔ ∃ value, digitValue? c = some value := by
  unfold IsDigit digitValue?
  by_cases hdigit : '0' ≤ c ∧ c ≤ '9'
  · simp [hdigit]
  by_cases hlower : 'a' ≤ c ∧ c ≤ 'f'
  · simp [hdigit, hlower]
  by_cases hcapital : 'A' ≤ c ∧ c ≤ 'F'
  · simp [hdigit, hlower, hcapital]
  · simp [hdigit, hlower, hcapital]

/-- A digit is worth its value. -/
theorem weight_of_digitValue? {value : Nat} (h : digitValue? c = some value) :
    weight c = value :=
  of_digitValue? (p := fun value c => weight c = value) (by decide) (by decide) h

/-- A character and its lowercase have the same value, if any. -/
theorem digitValue?_toLower (c : Char) : digitValue? c.toLower = digitValue? c := by
  by_cases hupper : 'A' ≤ c ∧ c ≤ 'Z'
  · have hbounds : 65 ≤ c.toNat ∧ c.toNat ≤ 90 := Char.toNat_bounds hupper
    obtain ⟨place, hplace, rfl⟩ : ∃ place < 26, c = Char.ofNat (65 + place) :=
      ⟨c.toNat - 65, by omega, Char.eq_ofNat_add_sub hbounds.1⟩
    clear hupper hbounds
    revert place
    decide
  · have hsame : c.toLower = c := dif_neg hupper
    rw [hsame]

/-- Digits are ASCII. -/
theorem IsDigit.isAscii (h : IsDigit c) : isAscii c = true := by
  obtain ⟨value, hvalue⟩ := isDigit_iff.1 h
  exact of_digitValue? (p := fun _ c => LinkCommittee.isAscii c = true) (by decide) (by decide)
    hvalue

/-! ### Reading in either case -/

/-- Letter case is of no account to what is decoded. -/
theorem decode_map_toLower (text : List Char) : decode (text.map Char.toLower) = decode text := by
  induction text using decode.induct with
  | case1 => rfl
  | case2 => rfl
  | case3 high low text ih =>
    rw [List.map_cons, List.map_cons, decode, decode, digitValue?_toLower, digitValue?_toLower, ih]

/-- **A text is read as the bytes whose text it is in lowercase**, and as no others. -/
theorem decode_eq_some_iff : decode text = some bytes ↔ encode bytes = text.map Char.toLower := by
  constructor
  · exact encode_of_decode
  · intro h
    rw [← decode_map_toLower, ← h, decode_encode]

/-- What is encoded has lowercase letters. -/
theorem map_toLower_encode (bytes : List UInt8) : (encode bytes).map Char.toLower = encode bytes :=
  (encode_of_decode (decode_encode bytes)).symm

/-- Two digits are decoded to a byte. -/
theorem length_of_decode (h : decode text = some bytes) : text.length = 2 * bytes.length := by
  rw [← length_encode, encode_of_decode h, List.length_map]

/-- Digits in pairs can be read. -/
theorem exists_decode {count : Nat} (hlength : text.length = 2 * count)
    (hdigits : ∀ c ∈ text, IsDigit c) : ∃ bytes, decode text = some bytes := by
  induction text using decode.induct generalizing count with
  | case1 => exact ⟨[], rfl⟩
  | case2 =>
    rw [List.length_singleton] at hlength
    omega
  | case3 high low text ih =>
    rw [List.forall_mem_cons, List.forall_mem_cons] at hdigits
    obtain ⟨hhigh, hlow, hrest⟩ := hdigits
    obtain ⟨a, ha⟩ := isDigit_iff.1 hhigh
    obtain ⟨b, hb⟩ := isDigit_iff.1 hlow
    have hshort : text.length = 2 * (count - 1) := by
      rw [List.length_cons, List.length_cons] at hlength
      omega
    obtain ⟨bytes, hbytes⟩ := ih hshort hrest
    rw [decode, ha, hb, hbytes]
    exact ⟨_, rfl⟩

/-! ### The number that digits spell -/

/-- A text spells one number. -/
theorem Spells.unique {number number' : Nat} (h : Spells text number)
    (h' : Spells text number') : number = number' := h.sum_eq.symm.trans h'.sum_eq

/-- The bytes that are read spell the number that the digits spell. -/
theorem spells_of_decode (h : decode text = some bytes) : Spells text (natOfBigEndian bytes) := by
  induction text using decode.induct generalizing bytes with
  | case1 =>
    cases h
    exact ⟨List.forall_mem_nil _, rfl⟩
  | case2 => contradiction
  | case3 high low text ih =>
    rw [decode] at h
    obtain ⟨a, ha, h⟩ := Option.bind_eq_some_iff.1 h
    obtain ⟨b, hb, h⟩ := Option.bind_eq_some_iff.1 h
    obtain ⟨rest, hrest, h⟩ := Option.bind_eq_some_iff.1 h
    cases h
    obtain ⟨hdigits, hsum⟩ := ih hrest
    constructor
    · rw [List.forall_mem_cons, List.forall_mem_cons]
      exact ⟨isDigit_iff.2 ⟨a, ha⟩, isDigit_iff.2 ⟨b, hb⟩, hdigits⟩
    · have hbyte : (UInt8.ofNat (16 * a + b)).toNat = 16 * a + b := by
        have ha16 := (digit_of_digitValue? ha).1
        have hb16 := (digit_of_digitValue? hb).1
        exact UInt8.toNat_ofNat_of_lt' (show 16 * a + b < 256 by omega)
      rw [ofDigits_reverse_cons, ofDigits_reverse_cons, natOfBigEndian_cons, hsum, hbyte,
        weight_of_digitValue? ha, weight_of_digitValue? hb, List.length_cons,
        length_of_decode hrest, pow_succ, pow_mul]
      ring

/-- **A text is read as the bytes that spell its number**, if it has two digits for each. -/
theorem decode_eq_some_iff_spells :
    decode text = some bytes ↔
      text.length = 2 * bytes.length ∧ Spells text (natOfBigEndian bytes) := by
  constructor
  · intro h
    exact ⟨length_of_decode h, spells_of_decode h⟩
  · rintro ⟨hlength, hspells⟩
    obtain ⟨bytes', hread⟩ := exists_decode hlength hspells.digits
    have hnumber := (spells_of_decode hread).unique hspells
    have hcount : bytes'.length = bytes.length := by
      have hlength' := length_of_decode hread
      omega
    rw [hread, ← bigEndian_natOfBigEndian bytes', hnumber, hcount, bigEndian_natOfBigEndian]

/-! ### Byte strings of known length -/

section Denoting

variable {n : Nat} {octets : Octets n}

/-- A text shows what is left of it without its mark. -/
theorem shows_dropMark (text : List Char) : Shows text (dropMark text) := by
  unfold dropMark
  split
  · exact .inr rfl
  · exact .inl rfl

/-- The second character of the mark is no digit. -/
theorem not_isDigit_mark : ¬IsDigit 'x' := by decide

/-- **A text shows digits in one way at most**: a mark in front is dropped, and digits alone do not
begin with one. -/
theorem dropMark_of_shows (hshown : Shows text digits) (hdigits : ∀ c ∈ digits, IsDigit c) :
    dropMark text = digits := by
  rcases hshown with rfl | rfl
  · unfold dropMark
    split
    next => exact absurd (hdigits 'x' (by simp)) not_isDigit_mark
    · rfl
  · rfl

/-- In lowercase the digits that denote a byte string are its text. -/
theorem denotes_iff :
    Denotes text digits octets ↔
      Shows text digits ∧ encode octets.toList = digits.map Char.toLower := by
  rw [← decode_eq_some_iff, decode_eq_some_iff_spells, octets.length_toList]
  constructor
  · rintro ⟨hshown, hlength, hspells⟩
    exact ⟨hshown, hlength, hspells⟩
  · rintro ⟨hshown, hlength, hspells⟩
    exact ⟨hshown, hlength, hspells⟩

/-- What is written for a byte string denotes it. -/
theorem denotes_encode (octets : Octets n) :
    Denotes (encode octets.toList) (encode octets.toList) octets :=
  denotes_iff.2 ⟨.inl rfl, (map_toLower_encode _).symm⟩

/-- Every text that shows enough digits denotes a byte string. -/
theorem exists_denotes (hshown : Shows text digits) (hlength : digits.length = 2 * n)
    (hdigits : ∀ c ∈ digits, IsDigit c) : ∃ octets : Octets n, Denotes text digits octets := by
  obtain ⟨bytes, hread⟩ := exists_decode hlength hdigits
  have hcount : bytes.length = n := by
    have hlength' := length_of_decode hread
    omega
  exact ⟨⟨bytes, hcount⟩, denotes_iff.2 ⟨hshown, encode_of_decode hread⟩⟩

/-- **A byte string is read from the texts that denote it**, and from no others. -/
theorem read_eq_some_iff :
    (decode (dropMark text)).bind (Octets.ofList? n) = some octets ↔
      ∃ digits, Denotes text digits octets := by
  constructor
  · intro h
    obtain ⟨bytes, hread, hoctets⟩ := Option.bind_eq_some_iff.1 h
    obtain rfl := Octets.ofList?_eq_some_iff.1 hoctets
    exact ⟨dropMark text, denotes_iff.2 ⟨shows_dropMark text, encode_of_decode hread⟩⟩
  · rintro ⟨digits, hdenotes⟩
    obtain ⟨hshown, hencoded⟩ := denotes_iff.1 hdenotes
    rw [dropMark_of_shows hshown hdenotes.spells.digits, decode_eq_some_iff.2 hencoded]
    exact octets.ofList?_toList

end Denoting

end LinkCommittee.Hex
