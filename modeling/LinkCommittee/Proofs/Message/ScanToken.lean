import LinkCommittee.Proofs.Address.AbAddress
import LinkCommittee.Proofs.Message.Decoding

/-!
# The addresses that tokens name

A token is as wide as the text of an address without a mark, so a token with a mark is too
short to name one: a token names an address exactly if all of its characters are digits.  It
is then the text of the address but for the case of its letters, and tokens that differ in
nothing else name the same address.

Main statement: `ScanToken.toAddress_exact`.
-/

namespace LinkCommittee.ScanToken

variable {token token' : ScanToken} {address : AbAddress}

theorem length_chars (token : ScanToken) : token.text.chars.length = 132 := token.text.length_chars

/-- A token has no room for a mark in front of an address. -/
theorem exists_denotes_iff {bytes : Octets 66} :
    (∃ digits, Hex.Denotes token.text.chars digits bytes) ↔
      Hex.Denotes token.text.chars token.text.chars bytes := by
  constructor
  · rintro ⟨digits, hdenotes⟩
    have hlength := hdenotes.length_eq
    rcases hdenotes.shown with hplain | hmarked
    · rwa [← hplain] at hdenotes
    · have hwidth := token.length_chars
      rw [hmarked, List.length_cons, List.length_cons] at hwidth
      omega
  · intro h
    exact ⟨_, h⟩

/-- **A token names the address whose text it is in lowercase.** -/
theorem toAddress_eq_ok_iff :
    token.toAddress = .ok address ↔ address.toChars = token.text.chars.map Char.toLower := by
  rw [toAddress, AbAddress.ofChars_eq_ok_iff, exists_denotes_iff, Hex.denotes_iff]
  exact and_iff_right (.inl rfl)

/-- **A token names an address exactly if it consists of digits.**  Its width is that of the digits
alone, so with a mark in front there are too few of them. -/
theorem exists_toAddress_iff :
    (∃ address, token.toAddress = .ok address) ↔ ∀ c ∈ token.text.chars, Hex.IsDigit c := by
  constructor
  · rintro ⟨address, hnamed⟩
    have hdenotes := exists_denotes_iff.1 (AbAddress.ofChars_eq_ok_iff.1 hnamed)
    exact hdenotes.spells.digits
  · intro hdigits
    exact AbAddress.exists_ofChars_iff.2 ⟨_, .inl rfl, token.length_chars, hdigits⟩

theorem toAddress_of_mark {rest : List Char} (hmark : token.text.chars = '0' :: 'x' :: rest) :
    token.toAddress = .error (.invalidEncoding .hexText) := by
  apply AbAddress.ofChars_eq_error
  intro address hnamed
  have hdigits := exists_toAddress_iff.1 ⟨address, hnamed⟩
  rw [hmark] at hdigits
  exact Hex.not_isDigit_mark (hdigits 'x' (by simp))

/-- **Tokens name one address exactly if they agree but for the case of their digits.** -/
theorem exists_common_iff :
    (∃ address, token.toAddress = .ok address ∧ token'.toAddress = .ok address) ↔
      (∀ c ∈ token.text.chars, Hex.IsDigit c) ∧
        token'.text.chars.map Char.toLower = token.text.chars.map Char.toLower := by
  constructor
  · rintro ⟨address, hnamed, hnamed'⟩
    refine ⟨exists_toAddress_iff.1 ⟨address, hnamed⟩, ?_⟩
    rw [← toAddress_eq_ok_iff.1 hnamed, ← toAddress_eq_ok_iff.1 hnamed']
  · rintro ⟨hdigits, hsame⟩
    obtain ⟨address, hnamed⟩ := exists_toAddress_iff.2 hdigits
    refine ⟨address, hnamed, toAddress_eq_ok_iff.2 ?_⟩
    rw [hsame]
    exact toAddress_eq_ok_iff.1 hnamed

/-- The text of an address is a token. -/
theorem ofText_toText (address : AbAddress) : ofText address.toText = .ok (ofAddress address) := by
  rw [ofText, AbAddress.toText, String.toList_ofList]
  exact ofChars_eq_ok_iff.2 rfl

/-- **Tokens and the addresses that they name.**  The text of an address is a token and names it.  An
address is read exactly from the texts that show 132 digits, of either case, and is written as these
in lowercase.  A token names an address exactly if all of its characters are digits, so it does not
with a mark in front; it is then the text of the address but for the case of its letters, and so is
every other token that names the address. -/
theorem toAddress_exact :
    (∀ address : AbAddress, byteLength address.toChars = 132 ∧
      (∀ c ∈ address.toChars, c.toNat < 128) ∧ ofText address.toText = .ok (ofAddress address) ∧
      (ofAddress address).toAddress = .ok address) ∧
    (∀ text : String, (∃ address, AbAddress.ofText text = .ok address) ↔
      ∃ digits, Hex.Shows text.toList digits ∧ digits.length = 132 ∧
        ∀ c ∈ digits, Hex.IsDigit c) ∧
    (∀ (text : String) (digits : List Char) (address : AbAddress),
      AbAddress.ofText text = .ok address → Hex.Shows text.toList digits →
      (∀ c ∈ digits, Hex.IsDigit c) →
      address.toText = String.ofList (digits.map Char.toLower)) ∧
    (∀ token : ScanToken, (∃ address, token.toAddress = .ok address) ↔
      ∀ c ∈ token.text.chars, Hex.IsDigit c) ∧
    (∀ (token : ScanToken) (rest : List Char), token.text.chars = '0' :: 'x' :: rest →
      token.toAddress = .error (.invalidEncoding .hexText)) ∧
    (∀ (token : ScanToken) (address : AbAddress), token.toAddress = .ok address →
      (ofAddress address).text.chars = token.text.chars.map Char.toLower) ∧
    ∀ token token' : ScanToken,
      (∃ address, token.toAddress = .ok address ∧ token'.toAddress = .ok address) ↔
        (∀ c ∈ token.text.chars, Hex.IsDigit c) ∧
          token'.text.chars.map Char.toLower = token.text.chars.map Char.toLower := by
  refine ⟨?_, fun text => AbAddress.exists_ofChars_iff, ?_, fun token => exists_toAddress_iff,
    fun token rest => toAddress_of_mark, fun token address => toAddress_eq_ok_iff.1,
    fun token token' => exists_common_iff⟩
  · intro address
    have hascii : address.toChars.all isAscii = true := Hex.all_isAscii_encode _
    refine ⟨?_, all_isAscii_iff.1 hascii, ofText_toText address, toAddress_ofAddress address⟩
    rw [byteLength_of_ascii hascii]
    exact (ofAddress address).length_chars
  · intro text digits address hread hshown hdigits
    rw [AbAddress.toText, AbAddress.toChars_of_ofChars hread hshown hdigits]

/-- Tokens of capitals and of small letters name one address, and with a mark in front none is named;
the capitals behind a mark are a longer text, and that is read. -/
theorem toAddress_exact_cases :
    (∃ address, AbAddress.ofText (String.ofList ('0' :: 'x' :: List.replicate 132 'A')) =
        .ok address ∧ address.toText = String.ofList (List.replicate 132 'a')) ∧
      ∃ capital small marked : ScanToken, capital.text.chars = List.replicate 132 'A' ∧
        small.text.chars = List.replicate 132 'a' ∧
        marked.text.chars = '0' :: 'x' :: List.replicate 130 'a' ∧
        (∃ address, capital.toAddress = .ok address ∧ small.toAddress = .ok address ∧
          (ofAddress address).text.chars = List.replicate 132 'a') ∧
        marked.toAddress = .error (.invalidEncoding .hexText) := by
  obtain ⟨-, hread, hwritten, -, hmark, hlower, hsame⟩ := toAddress_exact
  have hdigits : ∀ c ∈ List.replicate 132 'A', Hex.IsDigit c := by
    intro c hc
    rw [List.eq_of_mem_replicate hc]
    decide
  constructor
  · have hshown : Hex.Shows (String.ofList ('0' :: 'x' :: List.replicate 132 'A')).toList
        (List.replicate 132 'A') := .inr String.toList_ofList
    obtain ⟨address, haddress⟩ := (hread _).2 ⟨_, hshown, List.length_replicate, hdigits⟩
    refine ⟨address, haddress, ?_⟩
    rw [hwritten _ _ address haddress hshown hdigits, List.map_replicate]
    rfl
  · let capital : ScanToken := ⟨List.replicate 132 'A', by simp [isAscii], List.length_replicate⟩
    let small : ScanToken := ⟨List.replicate 132 'a', by simp [isAscii], List.length_replicate⟩
    let marked : ScanToken :=
      ⟨'0' :: 'x' :: List.replicate 130 'a', by simp [isAscii], rfl⟩
    obtain ⟨address, hcapital, hsmall⟩ :=
      (hsame capital small).2 ⟨hdigits, List.map_replicate.trans List.map_replicate.symm⟩
    refine ⟨capital, small, marked, rfl, rfl, rfl, ⟨address, hcapital, hsmall, ?_⟩,
      hmark marked _ rfl⟩
    rw [hlower small address hsmall, List.map_replicate]
    rfl

end LinkCommittee.ScanToken
