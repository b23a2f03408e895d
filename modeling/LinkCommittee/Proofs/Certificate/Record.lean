import LinkCommittee.Certificate.Record
import LinkCommittee.Proofs.Certificate.Slot
import LinkCommittee.Proofs.Text.Basic

/-!
# Records are read back as they are stored

A text is stored as a length word and the words of its UTF-8 form.  What stands behind
the form in its last word, and in the word after it that is read when the form fills
whole words, may be anything: it is read and cut off.  A length word is twice the length
of the form or one more, and half of it is the length either way.

Main statement: `CertificateRecord.readUnconfirmed_of_stores`.
-/

namespace LinkCommittee

/-- The words from a slot on, around the end of the storage, hold a byte string. -/
def HoldsBytes (storage : Word → Word) (slot : Word) (bytes : List UInt8) : Prop :=
  ∀ j, 32 * j < bytes.length → ∀ place : Word, place.toNat = (slot.toNat + j) % 2 ^ 256 →
    (bytes.drop (32 * j)).take 32 <+: (storage place).bytes.toList

namespace HoldsBytes

variable {storage : Word → Word} {slot : Word} {bytes : List UInt8}

/-- The first word holds the first bytes. -/
theorem take_prefix (h : HoldsBytes storage slot bytes) :
    bytes.take 32 <+: (storage slot).bytes.toList := by
  by_cases hempty : bytes = []
  · rw [hempty]
    exact List.nil_prefix
  · have hplace : slot.toNat = (slot.toNat + 0) % 2 ^ 256 := (Nat.mod_eq_of_lt slot.toNat_lt).symm
    exact h 0 (List.length_pos_of_ne_nil hempty) slot hplace

/-- From the next slot on the storage holds the bytes behind the first word. -/
theorem drop (h : HoldsBytes storage slot bytes) :
    HoldsBytes storage (slot.advance 1) (bytes.drop 32) := by
  intro j hj place hplace
  rw [List.length_drop] at hj
  rw [Word.toNat_advance, UInt64.toNat_one, Nat.mod_add_mod, Nat.add_assoc, Nat.add_comm 1] at hplace
  rw [List.drop_drop, show 32 + 32 * j = 32 * (j + 1) by omega]
  exact h (j + 1) (by omega) place hplace

end HoldsBytes

/-- A text is stored at a field: the word there is twice its length or one more, and its UTF-8 form
begins at the digest of the field. -/
structure StoresText (storage : Word → Word) (field : Word) (text : List Char) : Prop where
  length_word : (storage field).toNat = 2 * byteLength text ∨
    (storage field).toNat = 2 * byteLength text + 1
  data : HoldsBytes storage ⟨Keccak.digest field.bytes.toList⟩ (utf8 text)

/-- A certificate is stored: the array element holds the count, the entry of the count holds a word
whose first 31 bytes stand in the account behind a zero byte, and the entry of the account holds
the two texts. -/
structure StoresCertificate (storage : Word → Word) (layout : StorageLayout) (index count : UInt64)
    (account : Word) (signature publicKey : List Char) : Prop where
  count_word : ∀ slot, IsSlot layout.unconfirmed index none slot →
    storage slot = Word.ofUInt64 count
  account_bytes : ∀ slot, IsSlot layout.accounts 0 (some (Word.ofUInt64 count)) slot →
    account.bytes.toList = 0 :: (storage slot).bytes.toList.take 31
  signature : ∀ field, IsSlot layout.certificates 1 (some account) field →
    StoresText storage field signature
  publicKey : ∀ field, IsSlot layout.certificates 2 (some account) field →
    StoresText storage field publicKey

namespace CertificateRecord

variable {m : Type → Type} [Monad m] [LawfulMonad m] {read : StorageReader m}
  {settings : LedgerSettings} {storage : Word → Word}

/-- Every word is read as the storage has it. -/
theorem readWord_eq (hread : ∀ slot, read settings.contract slot = pure (storage slot))
    (slot : Word) : readWord read settings slot = pure (storage slot) := by
  rw [readWord, hread]
  exact map_pure _ _

omit [LawfulMonad m] in
/-- A count is taken out of the word that spells it. -/
theorem readCount_eq {defect : RecordDefect} {word : Word} {count : UInt64}
    (h : word.toNat = count.toNat) : readCount (m := m) defect word = pure count := by
  rw [readCount, Word.toUInt64?_eq_some_iff.2 h]

/-- Reading enough words gives the bytes that are held there, with something behind them. -/
theorem readBytes_of_holds (hread : ∀ slot, read settings.contract slot = pure (storage slot))
    {count : Nat} {slot : Word} {bytes : List UInt8} (hholds : HoldsBytes storage slot bytes)
    (hcount : bytes.length ≤ 32 * count) :
    ∃ tail, readBytes read settings count slot = pure (bytes ++ tail) := by
  induction count generalizing slot bytes with
  | zero =>
    obtain rfl : bytes = [] := List.length_eq_zero_iff.1 (by omega)
    exact ⟨[], rfl⟩
  | succ count ih =>
    have hrest : (bytes.drop 32).length ≤ 32 * count := by
      rw [List.length_drop]
      omega
    obtain ⟨tail, htail⟩ := ih hholds.drop hrest
    obtain ⟨behind, hword⟩ := hholds.take_prefix
    rw [readBytes, readWord_eq hread, pure_bind, htail, pure_bind, ← hword]
    by_cases hshort : bytes.length ≤ 32
    · -- the last word of the bytes: what is behind them belongs to the tail
      refine ⟨behind ++ tail, ?_⟩
      rw [List.take_of_length_le hshort, List.drop_eq_nil_of_le hshort, List.nil_append,
        List.append_assoc]
    · -- a word that the bytes fill has nothing behind them
      have hfull : behind = [] := by
        have hlength := congrArg List.length hword
        rw [List.length_append, List.length_take, Octets.length_toList] at hlength
        exact List.length_eq_zero_iff.1 (by omega)
      refine ⟨tail, ?_⟩
      rw [hfull, List.append_nil, ← List.append_assoc, List.take_append_drop]

/-- **A stored text is read back.**  Half of the length word is the length of the text, whether that
word is twice the length or one more; so the data is cut where the text ends. -/
theorem readText_of_stores (hread : ∀ slot, read settings.contract slot = pure (storage slot))
    {field : Word} {text : List Char} (hstored : StoresText storage field text)
    (hsize : byteLength text < 2 ^ 63)
    (hwords : byteLength text / 32 < settings.maxFieldWords.toNat) :
    readText read settings field = pure text := by
  have hword := hstored.length_word
  have hbound : (storage field).toNat < 2 ^ 64 := by omega
  obtain ⟨length, hlength⟩ : ∃ length : UInt64, (storage field).toNat = length.toNat :=
    ⟨UInt64.ofNat (storage field).toNat, (UInt64.toNat_ofNat_of_lt' hbound).symm⟩
  have hlast : (length / 64).toNat = byteLength text / 32 := by
    rw [UInt64.toNat_div, ← hlength, show (64 : UInt64).toNat = 64 from rfl]
    omega
  have hhalf : (length / 2).toNat = byteLength text := by
    rw [UInt64.toNat_div, ← hlength, show (2 : UInt64).toNat = 2 from rfl]
    omega
  have hfits : ¬settings.maxFieldWords ≤ length / 64 := by
    rw [UInt64.le_iff_toNat_le, hlast]
    omega
  obtain ⟨tail, hbytes⟩ := readBytes_of_holds hread hstored.data
    (show (utf8 text).length ≤ 32 * ((length / 64).toNat + 1) by
      rw [hlast, ← byteLength]
      omega)
  have hcut : (utf8 text ++ tail).take (length / 2).toNat = utf8 text := by
    rw [hhalf]
    exact List.take_left
  unfold readText
  rw [readWord_eq hread, pure_bind, readCount_eq hlength, pure_bind, if_neg hfits, textSlot_eq,
    hbytes]
  dsimp only
  rw [pure_bind, hcut, ofUtf8?_utf8]

/-- A stored certificate is read back from the entry of its count. -/
theorem readCertificate_of_stores
    (hread : ∀ slot, read settings.contract slot = pure (storage slot))
    {index count : UInt64} {account : Word} {signature publicKey : List Char}
    (hstored : StoresCertificate storage settings.layout index count account signature publicKey)
    (hsize : ∀ text ∈ [signature, publicKey],
      byteLength text < 2 ^ 63 ∧ byteLength text / 32 < settings.maxFieldWords.toNat) :
    readCertificate read settings (Word.ofUInt64 count) count =
      pure ⟨account, signature, publicKey, count⟩ := by
  obtain ⟨hsignature, hsignatureWords⟩ := hsize signature List.mem_cons_self
  obtain ⟨hpublicKey, hpublicKeyWords⟩ := hsize publicKey (List.mem_cons_of_mem _ List.mem_cons_self)
  have haccount := forall_isSlot_iff.1 hstored.account_bytes
  have hsignatureStored := forall_isSlot_iff.1 hstored.signature
  have hpublicKeyStored := forall_isSlot_iff.1 hstored.publicKey
  rw [readCertificate, readWord_eq hread, pure_bind, Word.shiftRight_eq_iff.2 haccount]
  dsimp only
  rw [readText_of_stores hread hsignatureStored hsignature hsignatureWords, pure_bind,
    readText_of_stores hread hpublicKeyStored hpublicKey hpublicKeyWords, pure_bind]

/-- **A stored certificate is read back.**  Whatever stands in the rest of the storage, the record
of a certificate with a number to check below its count has the account and the two texts that
were stored, if these span no more words than the settings allow.  Texts are strings in memory,
and no string has `2 ^ 63` bytes; the word of its length would not hold a number of 64 bits. -/
theorem readUnconfirmed_of_stores
    (hread : ∀ slot, read settings.contract slot = pure (storage slot))
    {index check count : UInt64} {account : Word} {signature publicKey : List Char}
    (hstored : StoresCertificate storage settings.layout index count account signature publicKey)
    (hcheck : check < count)
    (hsize : ∀ text ∈ [signature, publicKey],
      byteLength text < 2 ^ 63 ∧ byteLength text / 32 < settings.maxFieldWords.toNat) :
    readUnconfirmed read settings index check =
      pure ⟨Word.ofUInt64 count, some ⟨account, signature, publicKey, count⟩⟩ := by
  have hregistered : ¬count ≤ check := UInt64.not_le.2 hcheck
  have hcount := forall_isSlot_iff.1 hstored.count_word
  rw [readUnconfirmed, readWord_eq hread, hcount, pure_bind,
    readCount_eq (Word.toNat_ofUInt64 count), pure_bind, if_neg hregistered,
    readCertificate_of_stores hread hstored hsize, pure_bind]

/-- Storage with the number 65 in every word stores texts of one full word under the count 65. -/
theorem readUnconfirmed_of_stores_full_word :
    ∃ text : List Char, utf8 text = (Word.ofUInt64 65).bytes.toList ∧
      ∀ (settings : LedgerSettings) (index : UInt64), 1 < settings.maxFieldWords →
        readUnconfirmed (m := Id) (fun _ _ => pure (Word.ofUInt64 65)) settings index 3 =
          pure ⟨Word.ofUInt64 65, some ⟨Word.zero, text, text, 65⟩⟩ := by
  let storage : Word → Word := fun _ => Word.ofUInt64 65
  let text : List Char := List.replicate 31 (Char.ofNat 0) ++ ['A']
  have hform : utf8 text = (Word.ofUInt64 65).bytes.toList := by decide
  have hlength : byteLength text = 32 := by
    rw [byteLength, hform, Octets.length_toList]
  have htext (field : Word) : StoresText storage field text := by
    refine ⟨.inr ?_, ?_⟩
    · rw [hlength]
      exact Word.toNat_ofUInt64 65
    · intro j hj place hplace
      rw [← byteLength, hlength] at hj
      obtain rfl : j = 0 := by omega
      rw [hform]
      exact List.take_prefix _ _
  refine ⟨text, hform, fun settings index hwords => ?_⟩
  refine readUnconfirmed_of_stores (fun _ => rfl) ?_ (by decide) ?_
  · exact ⟨fun _ _ => rfl, fun _ _ => by decide, fun _ _ => htext _, fun _ _ => htext _⟩
  · intro other hother
    obtain rfl : other = text := by simpa using hother
    have hone : 1 < settings.maxFieldWords.toNat := UInt64.lt_iff_toNat_lt.1 hwords
    rw [hlength]
    omega

end CertificateRecord

end LinkCommittee
