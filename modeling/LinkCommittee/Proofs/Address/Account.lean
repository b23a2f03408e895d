import LinkCommittee.Binding
import LinkCommittee.Proofs.Text.Hex

/-!
# Checksummed accounts

An account is read from 40 digits of either case, alone or behind a mark, and written behind
a mark with a checksum in the case of its letters (`Account.CarriesChecksum`).  The case
depends on the digest of the lowercase digits only, and reading does not depend on the case,
so what is written is read back and every spelling of an account is written in one way.  The
message that binds an account is a digest of that text; accounts with one message have one
text, or two texts that collide.

Main statement: `Account.checksum_exact`.
-/

namespace LinkCommittee

/-- Nibble `i` of a byte string: the digit in base 16, of the number that it spells, at place `i`
from the most significant on. -/
def Octets.nibble {n : Nat} (bytes : Octets n) (i : Nat) : Nat :=
  bytes.toNat / 16 ^ (2 * n - 1 - i) % 16

namespace Account

/-- A text is digits with a checksum in the case of their letters: a letter is a capital exactly if
the nibble in its place of the digest of the lowercase digits is at least 8. -/
structure CarriesChecksum (digits written : List Char) : Prop where
  lower_eq : written.map Char.toLower = digits.map Char.toLower
  isUpper_iff : ∀ (i : Nat) (c : Char), written[i]? = some c →
    (c.isUpper = true ↔ c.isAlpha = true ∧
      8 ≤ (Keccak.digest (utf8 (digits.map Char.toLower))).nibble i)

/-- Two texts as wide as the text of an account are different and have one digest. -/
structure Collide (text text' : List Char) : Prop where
  ne : text ≠ text'
  byteLength_eq : byteLength text = 42
  byteLength_eq' : byteLength text' = 42
  digest_eq : Keccak.digest (utf8 text) = Keccak.digest (utf8 text')

/-! ### The case of a letter -/

theorem nibbles_cons (byte : UInt8) (bytes : List UInt8) :
    nibbles (byte :: bytes) = byte.toNat / 16 :: byte.toNat % 16 :: nibbles bytes := rfl

/-- Lower digits do not reach the digits in front of them. -/
theorem front_digits {rest place : Nat} (h : rest < 16 ^ place) (front : Nat) :
    (front * 16 ^ place + rest) / 16 ^ place = front := by
  rw [Nat.add_comm, Nat.add_mul_div_right _ _ (Nat.pow_pos (by decide)), Nat.div_eq_of_lt h,
    Nat.zero_add]

/-- Higher digits do not show in a digit behind them. -/
theorem inner_digit (front rest place above : Nat) :
    (front * 16 ^ (place + (above + 1)) + rest) / 16 ^ place % 16 = rest / 16 ^ place % 16 := by
  have hshare : front * 16 ^ (place + (above + 1)) = front * 16 ^ above * 16 * 16 ^ place := by
    ring
  rw [hshare, Nat.add_comm, Nat.add_mul_div_right _ _ (Nat.pow_pos (by decide)),
    Nat.add_mul_mod_self_right]

/-- The nibbles of a byte string are the digits in base 16 of the number that it spells. -/
theorem getElem?_nibbles (bytes : List UInt8) {i : Nat} (h : i < 2 * bytes.length) :
    (nibbles bytes)[i]? =
      some (natOfBigEndian bytes / 16 ^ (2 * bytes.length - 1 - i) % 16) := by
  induction bytes generalizing i with
  | nil =>
    rw [List.length_nil] at h
    omega
  | cons byte bytes ih =>
    have hunits : (256 : Nat) ^ bytes.length = 16 ^ (2 * bytes.length) := by
      rw [pow_mul]
      rfl
    have hrest : natOfBigEndian bytes < 16 ^ (2 * bytes.length) :=
      hunits ▸ natOfBigEndian_lt bytes
    rw [List.length_cons] at h
    rw [natOfBigEndian_cons, hunits, List.length_cons, nibbles_cons]
    match i with
    | 0 =>
      have hplace : 2 * (bytes.length + 1) - 1 - 0 = 2 * bytes.length + 1 := by omega
      have hhigh : byte.toNat / 16 < 16 := Nat.div_lt_of_lt_mul byte.toNat_lt
      rw [hplace, pow_succ, ← Nat.div_div_eq_div_mul, front_digits hrest, Nat.mod_eq_of_lt hhigh]
      rfl
    | 1 =>
      have hplace : 2 * (bytes.length + 1) - 1 - 1 = 2 * bytes.length := by omega
      rw [hplace, front_digits hrest]
      rfl
    | i + 2 =>
      obtain ⟨place, hplace⟩ : ∃ place, 2 * bytes.length = place + (i + 1) :=
        ⟨2 * bytes.length - (i + 1), by omega⟩
      have hsame : 2 * (bytes.length + 1) - 1 - (i + 2) = place := by omega
      have hinner : 2 * bytes.length - 1 - i = place := by omega
      rw [hsame, hplace, inner_digit, ← hinner]
      exact ih (by omega)

theorem getElem?_nibbles_octets {n : Nat} (bytes : Octets n) {i : Nat} (h : i < 2 * n) :
    (nibbles bytes.toList)[i]? = some (bytes.nibble i) := by
  have hread := @getElem?_nibbles bytes.toList i
  rw [bytes.length_toList] at hread
  exact hread h

/-- Digits that are no more than the digest has nibbles are cased one by one. -/
theorem getElem?_checksummed {digits : List Char} (hlength : digits.length ≤ 64) (i : Nat) :
    (checksummed digits)[i]? = digits[i]?.map fun c =>
      if 8 ≤ (Keccak.digest (utf8 digits)).nibble i then c.toUpper else c := by
  rw [checksummed, List.getElem?_zipWith]
  by_cases hi : i < digits.length
  · rw [getElem?_nibbles_octets _ (by omega), List.getElem?_eq_getElem hi]
    rfl
  · rw [List.getElem?_eq_none (by omega)]
    rfl

/-- A lowercase digit that may be made a capital is a capital exactly if it is a letter and was made
one. -/
theorem cased_digit {value : Nat} (hvalue : value < 16) (capital : Prop) [Decidable capital] :
    (if capital then (Hex.digit value).toUpper else Hex.digit value).toLower = Hex.digit value ∧
      ((if capital then (Hex.digit value).toUpper else Hex.digit value).isUpper = true ↔
        (if capital then (Hex.digit value).toUpper else Hex.digit value).isAlpha = true ∧
          capital) := by
  by_cases hcapital : capital
  · simp only [hcapital, and_true, if_true]
    clear hcapital
    revert value
    decide
  · simp only [hcapital, and_false, iff_false, if_false]
    clear hcapital
    revert value
    decide

/-- **The text of an account carries a checksum.**  Each letter takes its case from the nibble of
the digest that stands in its place. -/
theorem carriesChecksum_checksummed {bytes : List UInt8} (hlength : bytes.length ≤ 32) :
    CarriesChecksum (Hex.encode bytes) (checksummed (Hex.encode bytes)) := by
  have hcased := @getElem?_checksummed (Hex.encode bytes)
    (by rw [Hex.length_encode]; omega)
  constructor
  · rw [Hex.map_toLower_encode]
    apply List.ext_getElem?
    intro i
    rw [List.getElem?_map, hcased]
    cases hdigit : (Hex.encode bytes)[i]? with
    | none => rfl
    | some c =>
      obtain ⟨value, hvalue, rfl⟩ := Hex.exists_digit_of_mem_encode (List.mem_of_getElem? hdigit)
      exact congrArg some (cased_digit hvalue _).1
  · intro i c hc
    rw [hcased] at hc
    obtain ⟨lower, hdigit, rfl⟩ := Option.map_eq_some_iff.1 hc
    obtain ⟨value, hvalue, rfl⟩ := Hex.exists_digit_of_mem_encode (List.mem_of_getElem? hdigit)
    rw [Hex.map_toLower_encode]
    exact (cased_digit hvalue _).2

/-- Digits that agree but for their case call for the same checksum. -/
theorem CarriesChecksum.of_toLower_eq {digits digits' written : List Char}
    (h : CarriesChecksum digits written)
    (hsame : digits'.map Char.toLower = digits.map Char.toLower) :
    CarriesChecksum digits' written := by
  constructor
  · rw [h.lower_eq, hsame]
  · rw [hsame]
    exact h.isUpper_iff

/-! ### Reading and writing -/

variable {account other : Account} {text digits : List Char}

theorem ofChars_eq_ok_iff :
    ofChars text = .ok account ↔ ∃ digits, Hex.Denotes text digits account.bytes := by
  rw [← Hex.read_eq_some_iff, ofChars]
  cases account
  cases (Hex.decode (Hex.dropMark text)).bind (Octets.ofList? 20) <;> simp

/-- The text of an account carries its checksum. -/
theorem carriesChecksum_toChars (account : Account) :
    CarriesChecksum (Hex.encode account.bytes.toList)
      (checksummed (Hex.encode account.bytes.toList)) := by
  apply carriesChecksum_checksummed
  rw [account.bytes.length_toList]
  decide

/-- The text of an account denotes it. -/
theorem denotes_toChars (account : Account) :
    Hex.Denotes account.toChars (checksummed (Hex.encode account.bytes.toList)) account.bytes := by
  rw [Hex.denotes_iff, account.carriesChecksum_toChars.lower_eq, Hex.map_toLower_encode]
  exact ⟨.inr rfl, rfl⟩

/-- **An account is read back from its text.**  The checksum touches nothing but letter case, and
that is of no account to the reader. -/
theorem ofChars_toChars (account : Account) : ofChars account.toChars = .ok account :=
  ofChars_eq_ok_iff.2 ⟨_, account.denotes_toChars⟩

/-- Accounts are told apart by their texts. -/
theorem toChars_injective : Function.Injective toChars := by
  intro account other h
  have hread := account.ofChars_toChars
  rw [h, ofChars_toChars] at hread
  exact (Except.ok.inj hread).symm

/-- **Every spelling of an account is written in one way**, the digits with their checksum. -/
theorem exists_toChars_of_denotes (h : Hex.Denotes text digits account.bytes) :
    ∃ written, account.toChars = '0' :: 'x' :: written ∧ CarriesChecksum digits written := by
  have hlower := (Hex.denotes_iff.1 h).2
  refine ⟨_, rfl, account.carriesChecksum_toChars.of_toLower_eq ?_⟩
  rw [← hlower, Hex.map_toLower_encode]

theorem byteLength_toChars (account : Account) : byteLength account.toChars = 42 := by
  have hdenotes := account.denotes_toChars
  have hascii : account.toChars.all isAscii = true := by
    rw [List.all_eq_true]
    intro c hc
    rcases List.mem_cons.1 hc with rfl | hc
    · rfl
    rcases List.mem_cons.1 hc with rfl | hc
    · rfl
    · exact (hdenotes.spells.digits c hc).isAscii
  rw [byteLength_of_ascii hascii, toChars, List.length_cons, List.length_cons, hdenotes.length_eq]

/-- **Accounts with one message have one text or two that collide.** -/
theorem bindingMessage_eq_iff :
    account.bindingMessage = other.bindingMessage ↔
      account = other ∨ Collide account.toChars other.toChars := by
  constructor
  · intro h
    by_cases hsame : account = other
    · exact .inl hsame
    · refine .inr ⟨?_, account.byteLength_toChars, other.byteLength_toChars, h⟩
      exact fun htexts => hsame (toChars_injective htexts)
  · rintro (rfl | hcollide)
    · rfl
    · exact hcollide.digest_eq

/-- **Accounts are read in every spelling and written in one.**  An account is read exactly from the
texts that show the 40 digits, of either case, that spell it; any 40 digits will do, and digits that
agree but for their case spell one account.  Its text is the mark and the digits with the checksum
in the case of their letters, and the message that binds it is the digest of that text.  So accounts
with one message are the same, or their texts, of 42 bytes each, are different and collide. -/
theorem checksum_exact :
    (∀ account : Account, ofText account.toText = .ok account) ∧
    (∀ (text : String) (account : Account), ofText text = .ok account ↔
      ∃ digits, Hex.Denotes text.toList digits account.bytes) ∧
    (∀ (text : String) (digits : List Char), Hex.Shows text.toList digits → digits.length = 40 →
      (∀ c ∈ digits, Hex.IsDigit c) → ∃ account, ofText text = .ok account) ∧
    (∀ (text text' : String) (digits digits' : List Char) (account : Account),
      Hex.Denotes text.toList digits account.bytes → Hex.Shows text'.toList digits' →
      digits'.map Char.toLower = digits.map Char.toLower → ofText text' = .ok account) ∧
    (∀ (text digits : List Char) (account : Account), Hex.Denotes text digits account.bytes →
      ∃ written, account.toText = String.ofList ('0' :: 'x' :: written) ∧
        CarriesChecksum digits written ∧
        account.bindingMessage = Keccak.digest (utf8 ('0' :: 'x' :: written))) ∧
    ∀ account other : Account, account.bindingMessage = other.bindingMessage ↔
      account = other ∨ Collide account.toChars other.toChars := by
  refine ⟨?_, fun text account => ofChars_eq_ok_iff, ?_, ?_, ?_, fun _ _ => bindingMessage_eq_iff⟩
  · intro account
    rw [ofText, toText, String.toList_ofList, ofChars_toChars]
  · intro text digits hshown hlength hdigits
    obtain ⟨bytes, hdenotes⟩ := Hex.exists_denotes (n := 20) hshown hlength hdigits
    exact ⟨⟨bytes⟩, ofChars_eq_ok_iff.2 ⟨digits, hdenotes⟩⟩
  · intro text text' digits digits' account hdenotes hshown' hsame
    have hlower := (Hex.denotes_iff.1 hdenotes).2
    rw [← hsame] at hlower
    exact ofChars_eq_ok_iff.2 ⟨digits', Hex.denotes_iff.2 ⟨hshown', hlower⟩⟩
  · intro text digits account hdenotes
    obtain ⟨written, htext, hchecksum⟩ := exists_toChars_of_denotes hdenotes
    refine ⟨written, ?_, hchecksum, ?_⟩
    · rw [toText, htext]
    · rw [bindingMessage, htext]

/-- Small letters behind a mark and capitals alone spell one account, which has one text. -/
theorem checksum_exact_capitals :
    ∃ account, ofText "0x5aaeb6053f3e94c9b9a09f33669435e7ef1beaed" = .ok account ∧
      ofText "5AAEB6053F3E94C9B9A09F33669435E7EF1BEAED" = .ok account ∧
      ∃ written, account.toText = String.ofList ('0' :: 'x' :: written) ∧
        CarriesChecksum "5aaeb6053f3e94c9b9a09f33669435e7ef1beaed".toList written ∧
        account.bindingMessage = Keccak.digest (utf8 ('0' :: 'x' :: written)) := by
  obtain ⟨-, hread, -, hcase, hwritten, -⟩ := checksum_exact
  let account : Account := ⟨Octets.ofNat 20 0x5aaeb6053f3e94c9b9a09f33669435e7ef1beaed⟩
  have hdenotes : Hex.Denotes "0x5aaeb6053f3e94c9b9a09f33669435e7ef1beaed".toList
      "5aaeb6053f3e94c9b9a09f33669435e7ef1beaed".toList account.bytes :=
    Hex.denotes_iff.2 ⟨.inr (by decide +kernel), by decide +kernel⟩
  exact ⟨account, (hread _ account).2 ⟨_, hdenotes⟩,
    hcase _ _ _ _ account hdenotes (.inl rfl) (by decide +kernel),
    hwritten _ _ account hdenotes⟩

end Account

end LinkCommittee
