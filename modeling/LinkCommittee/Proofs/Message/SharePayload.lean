import LinkCommittee.Proofs.Message.Decoding

/-!
# Share data in messages

Share data is a list of entries in one way only, so splitting is the inverse of joining, and
what cannot be split is no ASCII text of whole entries.  The number of entries and the
entries are written in two places, at the end of a message and as a payload of their own;
what a message holds behind the tag, the token and the first two numbers is that payload.

Main statement: `ShareEntry.split_exact`.
-/

namespace LinkCommittee

namespace Message

/-- What a message holds in front of its entries and their number. -/
def front (m : Message) : List Char :=
  messageTag ++ m.token.text.chars ++ Decimal.padded fieldWidth m.certificate.toNat ++
    Decimal.padded fieldWidth m.sender.toNat

theorem byteLength_front (m : Message) : byteLength m.front = 222 := by
  have htag : messageTag.all isAscii = true := rfl
  have hascii : m.front.all isAscii = true := by
    simp only [front, List.all_append, htag, m.token.text.ascii, Decimal.all_isAscii_padded,
      Bool.and_self]
  rw [byteLength_of_ascii hascii]
  simp only [front, List.length_append, Decimal.length_padded, m.token.text.length_chars]
  rfl

/-- **A message ends with the payload of its entries.** -/
theorem encodeChars_eq_append (m : Message) :
    m.encodeChars = m.front ++ ShareEntry.encodeAll m.entries := by
  rw [encodeChars, ShareEntry.encodeAll, ← List.append_assoc]
  rfl

end Message

namespace ShareEntry

/-- A payload is a field and the entries. -/
theorem drop_encodeAll (entries : List ShareEntry) :
    (utf8 (encodeAll entries)).drop 44 = utf8 (join entries) := by
  apply drop_utf8_append
  rw [byteLength_of_ascii (Decimal.all_isAscii_padded _ _), Decimal.length_padded]
  rfl

/-- **Splitting is the inverse of joining, and the two writers of entries agree.**  Share data is
split into the entries that give it when joined; it can be split exactly if it is ASCII text whose
length is a multiple of the width of an entry, and is refused with its length in bytes otherwise.
Behind the first 222 bytes of a message stands the payload of its entries, and behind the first 44
bytes of that the share data. -/
theorem split_exact :
    (∀ data entries, split data = .ok entries ↔ join entries = data) ∧
    (∀ data, (∃ entries, split data = .ok entries) ↔
      (∀ c ∈ data, c.toNat < 128) ∧ 132 ∣ byteLength data) ∧
    (∀ data : List Char, ¬((∀ c ∈ data, c.toNat < 128) ∧ 132 ∣ byteLength data) →
      split data = .error (.misaligned (byteLength data))) ∧
    ∀ (token : ScanToken) (certificate sender : UInt64) (entries : List ShareEntry),
      entries ≠ [] → ∃ m, Message.new token certificate sender entries = .ok m ∧
        (utf8 m.encode.toList).drop 222 = utf8 (encodeAll entries) ∧
        ∃ data, utf8 data = (utf8 (encodeAll entries)).drop 44 ∧ split data = .ok entries := by
  refine ⟨fun data entries => split_eq_ok_iff, fun data => exists_split_iff,
    fun data => split_eq_error, ?_⟩
  intro token certificate sender entries hne
  let m : Message := ⟨token, certificate, sender, entries, hne⟩
  refine ⟨m, dif_pos hne, ?_, join entries, (drop_encodeAll entries).symm, split_join entries⟩
  rw [Message.encode, String.toList_ofList, m.encodeChars_eq_append,
    drop_utf8_append m.byteLength_front]

/-- As many bytes as an entry has, in half as many characters, cannot be split.  One entry can, out
of the message with it. -/
theorem split_exact_two_bytes :
    split (List.replicate 66 'é') = .error (.misaligned 132) ∧
      ∃ (entry : ShareEntry) (token : ScanToken) (m : Message),
        Message.new token 0 0 [entry] = .ok m ∧
        (utf8 m.encode.toList).drop 222 = utf8 (encodeAll [entry]) ∧
        ∃ data, utf8 data = (utf8 (encodeAll [entry])).drop 44 ∧ split data = .ok [entry] := by
  obtain ⟨-, -, hrefused, hpayload⟩ := split_exact
  constructor
  · apply hrefused
    rintro ⟨hascii, -⟩
    have hwide : 'é'.toNat < 128 := hascii 'é' (List.mem_replicate.2 ⟨by decide, rfl⟩)
    exact absurd hwide (by decide)
  · let text : FixedText 132 := ⟨List.replicate 132 'a', by simp [isAscii], List.length_replicate⟩
    obtain ⟨m, hm⟩ := hpayload ⟨text⟩ 0 0 [⟨text⟩] (List.cons_ne_nil _ _)
    exact ⟨⟨text⟩, ⟨text⟩, m, hm⟩

end ShareEntry

end LinkCommittee
