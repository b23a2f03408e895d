import LinkCommittee.Proofs.Message.Decoding

/-!
# Messages and their texts

A message is written part by part in the widths in which it is read, so what is written
holds the message (`Message.carries_encodeChars`) and is read back.  Conversely the parts
of a text that was read fill it without gaps, and each is what writing the part gives, so
a text is written as it was read, but for its tag.

Main statement: `Message.encode_decode_inverse`.
-/

namespace LinkCommittee

namespace Message

/-! ### What is written -/

/-- The length of an encoded message is told by the number of its entries. -/
theorem length_encodeChars (m : Message) :
    m.encodeChars.length = 266 + 132 * m.entries.length := by
  have htoken : m.token.text.chars.length = 132 := m.token.text.length_chars
  simp only [encodeChars, List.length_append, Decimal.length_padded, htoken, shareData,
    ShareEntry.length_join, entryWidth]
  rfl

/-- An encoded message is ASCII. -/
theorem ascii_encodeChars (m : Message) : ∀ c ∈ m.encodeChars, c.toNat < 128 := by
  have htag : messageTag.all isAscii = true := rfl
  rw [← all_isAscii_iff]
  simp only [encodeChars, List.all_append, htag, m.token.text.ascii, Decimal.all_isAscii_padded,
    shareData, ShareEntry.all_isAscii_join, Bool.and_self]

/-- Cutting a part off the front of what follows a place leaves what follows the part. -/
theorem slice_of_drop {text part rest : List Char} {start width : Nat}
    (htext : text.drop start = part ++ rest) (hpart : part.length = width) :
    slice text start width = part ∧ text.drop (start + width) = rest := by
  constructor
  · rw [slice, htext, List.take_left' hpart]
  · rw [← List.drop_drop, htext, List.drop_left' hpart]

/-- Numbers of 64 bits fit in a field. -/
theorem spells_padded_field {number : Nat} (h : number < 2 ^ 64) :
    Decimal.Spells (Decimal.padded fieldWidth number) number :=
  Decimal.spells_padded (Decimal.lt_ten_pow (by decide) h)

/-- **What is written holds the message.**  Every field fills its width, so each part of the message
stands in its place. -/
theorem carries_encodeChars {m : Message} (hcount : m.entries.length < 2 ^ 64) :
    Carries m.encodeChars m := by
  have hascii := ascii_encodeChars m
  have htoken : m.token.text.chars.length = 132 := m.token.text.length_chars
  have hfield (number : Nat) : (Decimal.padded fieldWidth number).length = fieldWidth :=
    Decimal.length_padded _ _
  have hparts : m.encodeChars.drop 2 = m.token.text.chars ++
      (Decimal.padded fieldWidth m.certificate.toNat ++
        (Decimal.padded fieldWidth m.sender.toNat ++
          (Decimal.padded fieldWidth m.shareCount.toNat ++ m.shareData))) := by
    simp only [encodeChars, List.append_assoc]
    rfl
  obtain ⟨htokenSlice, hparts⟩ := slice_of_drop hparts htoken
  obtain ⟨hcertificate, hparts⟩ := slice_of_drop hparts (hfield _)
  obtain ⟨hsender, hparts⟩ := slice_of_drop hparts (hfield _)
  obtain ⟨hdeclared, hdata⟩ := slice_of_drop hparts (hfield _)
  constructor
  · exact hascii
  · rw [byteLength_eq hascii, length_encodeChars, toNat_shareCount hcount]
  · exact htokenSlice.symm
  · have hspelled := spells_padded_field m.certificate.toNat_lt
    rwa [← hcertificate] at hspelled
  · have hspelled := spells_padded_field m.sender.toNat_lt
    rwa [← hsender] at hspelled
  · have hspelled := spells_padded_field m.shareCount.toNat_lt
    rwa [← hdeclared] at hspelled
  · exact hdata.symm

theorem decode_encode_eq (m : Message) : decode m.encode = decodeChars m.encodeChars := by
  rw [decode, encode, String.toList_ofList]

/-- **A message is read back from its text**, if 64 bits can tell its length. -/
theorem decodeChars_encodeChars {m : Message} (hsize : 266 + 132 * m.entries.length < 2 ^ 64) :
    decodeChars m.encodeChars = .ok m := by
  have hlength := length_encodeChars m
  exact decodeChars_of_carries (carries_encodeChars (by omega)) (by omega)

/-- **A message is decoded from its own text.**  What is written carries the message, and what
carries a message is read as that message. -/
theorem decode_encode {m : Message} (hsize : 266 + 132 * m.entries.length < 2 ^ 64) :
    decode m.encode = .ok m := by
  rw [decode_encode_eq, decodeChars_encodeChars hsize]

/-! ### What is read -/

/-- **A text is written as it was read**, but for its tag.  A number has one spelling in its width,
but any two characters pass for the tag. -/
theorem Carries.encodeChars_eq {text : List Char} {m : Message} (h : Carries text m) :
    m.encodeChars = messageTag ++ text.drop 2 := by
  have hlength := h.length_eq
  have hone := one_le_length_entries m
  have hwritten {field : NumericField} {number : Nat}
      (hspelled : Decimal.Spells (fieldText text field) number) :
      Decimal.padded fieldWidth number = fieldText text field := by
    have hpadded := hspelled.padded_eq
    rwa [length_fieldText (by omega)] at hpadded
  rw [encodeChars, h.token, hwritten h.certificate, hwritten h.sender, hwritten h.count, h.data]
  simp only [List.append_assoc]
  congr 1
  calc slice text 2 132 ++ (slice text 134 44 ++ (slice text 178 44 ++
        (slice text 222 44 ++ text.drop 266)))
      = slice text 2 132 ++ (slice text 134 44 ++ (slice text 178 44 ++ text.drop 222)) := by
        rw [slice_append_drop]
    _ = slice text 2 132 ++ (slice text 134 44 ++ text.drop 178) := by rw [slice_append_drop]
    _ = slice text 2 132 ++ text.drop 134 := by rw [slice_append_drop]
    _ = text.drop 2 := by rw [slice_append_drop]

/-- Two texts that are read give the same message exactly when they agree behind the tag. -/
theorem eq_iff_drop_eq {text text' : List Char} {m m' : Message}
    (h : decodeChars text = .ok m) (h' : decodeChars text' = .ok m') :
    m = m' ↔ text.drop 2 = text'.drop 2 := by
  obtain ⟨hcarries, hsize⟩ := carries_of_decodeChars h
  obtain ⟨hcarries', hsize'⟩ := carries_of_decodeChars h'
  have hwritten := hcarries.encodeChars_eq
  have hwritten' := hcarries'.encodeChars_eq
  constructor
  · intro hsame
    rw [hsame, hwritten'] at hwritten
    exact (List.append_cancel_left hwritten).symm
  · intro hsame
    have hencoded : m.encodeChars = m'.encodeChars := by rw [hwritten, hwritten', hsame]
    have hread : decodeChars m.encodeChars = .ok m :=
      decodeChars_encodeChars (by rwa [← hcarries.length_eq])
    have hread' : decodeChars m'.encodeChars = .ok m' :=
      decodeChars_encodeChars (by rwa [← hcarries'.length_eq])
    rw [hencoded, hread'] at hread
    exact (Except.ok.inj hread).symm

/-- **Writing and reading messages are inverse**, but for the tag.  Every list of entries whose text
has a length of 64 bits makes a message that is read back; every text that is read is written back;
and the share data of either is split into as many entries as the text declares. -/
theorem encode_decode_inverse :
    (∀ (token : ScanToken) (certificate sender : UInt64) (entries : List ShareEntry),
      entries ≠ [] → 266 + 132 * entries.length < 2 ^ 64 →
        ∃ m, new token certificate sender entries = .ok m ∧ decode m.encode = .ok m ∧
          m.token = token ∧ m.certificate = certificate ∧ m.sender = sender ∧
          ShareEntry.split m.shareData = .ok entries) ∧
    (∀ raw m, decode raw = .ok m →
      m.encode = String.ofList ('0' :: 'x' :: raw.toList.drop 2) ∧
        ∃ entries, ShareEntry.split m.shareData = .ok entries ∧
          entries.length = m.shareCount.toNat ∧
          Decimal.Spells (fieldText raw.toList .shareCount) m.shareCount.toNat) ∧
    ∀ raw raw' m m', decode raw = .ok m → decode raw' = .ok m' →
      (m = m' ↔ raw.toList.drop 2 = raw'.toList.drop 2) := by
  refine ⟨?_, ?_, ?_⟩
  · intro token certificate sender entries hne hsize
    let m : Message := ⟨token, certificate, sender, entries, hne⟩
    exact ⟨m, new_eq_ok_iff.2 ⟨rfl, rfl, rfl, rfl⟩, decode_encode hsize, rfl, rfl, rfl,
      ShareEntry.split_join entries⟩
  · intro raw m h
    have hcarries := (carries_of_decodeChars h).1
    refine ⟨?_, m.entries, ShareEntry.split_join m.entries, hcarries.toNat_shareCount.symm,
      hcarries.count⟩
    rw [encode, hcarries.encodeChars_eq]
    rfl
  · intro raw raw' m m' h h'
    exact eq_iff_drop_eq h h'

/-- Two shares and the largest number, written with one tag and read with another. -/
theorem encode_decode_inverse_two_shares :
    ∃ (token : ScanToken) (entries : List ShareEntry) (m : Message),
      entries ≠ [] ∧ 266 + 132 * entries.length < 2 ^ 64 ∧
        new token (UInt64.ofNat (2 ^ 64 - 1)) 0 entries = .ok m ∧ decode m.encode = .ok m ∧
        decode (String.ofList ('?' :: '?' :: m.encodeChars.drop 2)) = .ok m := by
  let token : ScanToken := ⟨List.replicate 132 'a', by simp [isAscii], List.length_replicate⟩
  let entry : ShareEntry := ⟨List.replicate 132 'A', by simp [isAscii], List.length_replicate⟩
  let entries : List ShareEntry := [entry, entry]
  let m : Message := ⟨token, UInt64.ofNat (2 ^ 64 - 1), 0, entries, List.cons_ne_nil _ _⟩
  have hne : entries ≠ [] := m.entries_ne_nil
  have hmade : new token (UInt64.ofNat (2 ^ 64 - 1)) 0 entries = .ok m := dif_pos hne
  have hother : (decode (String.ofList ('?' :: '?' :: m.encodeChars.drop 2))).toOption.isSome =
      true := by
    rw [decode, String.toList_ofList]
    decide +kernel
  obtain ⟨hwrite, -, hsame⟩ := encode_decode_inverse
  obtain ⟨m', hnew, hread, -⟩ := hwrite token (UInt64.ofNat (2 ^ 64 - 1)) 0 entries hne (by decide)
  obtain rfl : m' = m := Except.ok.inj (hnew.symm.trans hmade)
  obtain ⟨m', hm'⟩ := Option.isSome_iff_exists.1 hother
  have hread' := Except.toOption_eq_some_iff.1 hm'
  have hequal : m = m' := by
    rw [hsame _ _ _ _ hread hread', encode, String.toList_ofList, String.toList_ofList]
    rfl
  rw [← hequal] at hread'
  exact ⟨token, entries, m, hne, by decide, hnew, hread, hread'⟩

end Message

end LinkCommittee
