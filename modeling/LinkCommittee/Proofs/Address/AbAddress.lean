import LinkCommittee.Message.ScanToken
import LinkCommittee.Proofs.Curve.Encoding
import LinkCommittee.Proofs.Except
import LinkCommittee.Proofs.Text.Hex

/-!
# Addresses and the keys they denote

The two keys that an address is made of are the keys it denotes.  An address is read from the
texts that show its digits, in either case, so it is read back from its own text and from the
token that names its request.
-/

namespace LinkCommittee

/-- A key is parsed from its compressed form. -/
theorem PublicKey.parse_compress (key : PublicKey) :
    PublicKey.parse key.compress.toList = .ok key := by
  rw [parse, decode?_compress]

namespace AbAddress

/-- **An address denotes the keys that it is made of.**  Each half is a compressed key, which is
parsed as itself. -/
theorem decompress_ofKeys (first second : PublicKey) :
    (ofKeys first second).decompress = .ok (first, second) := by
  have hlength := first.compress.length_toList
  have hfirst : (ofKeys first second).first = first.compress.toList := List.take_left' hlength
  have hsecond : (ofKeys first second).second = second.compress.toList := List.drop_left' hlength
  unfold decompress
  rw [hfirst, hsecond]
  apply Except.bind_eq_ok_iff.2
  refine ⟨first, PublicKey.parse_compress first, ?_⟩
  exact Except.bind_eq_ok_iff.2 ⟨second, PublicKey.parse_compress second, rfl⟩

variable {address : AbAddress} {text digits : List Char}

/-- **An address is read from the texts that show digits which spell it**, and from no others. -/
theorem ofChars_eq_ok_iff :
    ofChars text = .ok address ↔ ∃ digits, Hex.Denotes text digits address.bytes := by
  rw [← Hex.read_eq_some_iff, ofChars]
  cases address
  cases (Hex.decode (Hex.dropMark text)).bind (Octets.ofList? 66) <;> simp

/-- An address is read back from its text. -/
theorem ofChars_toChars (address : AbAddress) : ofChars address.toChars = .ok address :=
  ofChars_eq_ok_iff.2 ⟨_, Hex.denotes_encode address.bytes⟩

/-- A text that spells no address is refused as such. -/
theorem ofChars_eq_error (h : ∀ address, ofChars text ≠ .ok address) :
    ofChars text = .error (.invalidEncoding .hexText) := by
  unfold ofChars at h ⊢
  split
  next hread => exact absurd (by rw [hread]) (h _)
  · rfl

/-- Whatever text shows 132 digits is the text of an address. -/
theorem exists_ofChars_iff :
    (∃ address, ofChars text = .ok address) ↔
      ∃ digits, Hex.Shows text digits ∧ digits.length = 132 ∧ ∀ c ∈ digits, Hex.IsDigit c := by
  constructor
  · rintro ⟨address, hread⟩
    obtain ⟨digits, hdenotes⟩ := ofChars_eq_ok_iff.1 hread
    exact ⟨digits, hdenotes.shown, hdenotes.length_eq, hdenotes.spells.digits⟩
  · rintro ⟨digits, hshown, hlength, hdigits⟩
    obtain ⟨bytes, hdenotes⟩ := Hex.exists_denotes (n := 66) hshown hlength hdigits
    exact ⟨⟨bytes⟩, ofChars_eq_ok_iff.2 ⟨digits, hdenotes⟩⟩

/-- An address is written as the digits that were read, in lowercase. -/
theorem toChars_of_ofChars (hread : ofChars text = .ok address) (hshown : Hex.Shows text digits)
    (hdigits : ∀ c ∈ digits, Hex.IsDigit c) : address.toChars = digits.map Char.toLower := by
  obtain ⟨digits', hdenotes⟩ := ofChars_eq_ok_iff.1 hread
  have hsame : digits' = digits := by
    rw [← Hex.dropMark_of_shows hdenotes.shown hdenotes.spells.digits]
    exact Hex.dropMark_of_shows hshown hdigits
  rw [← hsame]
  exact (Hex.denotes_iff.1 hdenotes).2

end AbAddress

/-- **An address is read back from the token of its request.**  A token has the digits of its
address and no mark, so all of it is decoded. -/
theorem ScanToken.toAddress_ofAddress (address : AbAddress) :
    (ofAddress address).toAddress = .ok address := address.ofChars_toChars

end LinkCommittee
