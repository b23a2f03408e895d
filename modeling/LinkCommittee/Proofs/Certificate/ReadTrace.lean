import LinkCommittee.Proofs.Certificate.Failure
import LinkCommittee.Proofs.Certificate.Record

/-!
# What is read for a record

A storage that answers every read decides by its answers which slots are read for a record
and what the record comes to.  What a slot holds may change between two reads, so the word
that is answered is told by all that was read before.  A text is read as its length slot
and, if its length is in range, as the slots of its data (`Ledger.TextReading`); a record is
read as the element of the array, the entry of the account and two texts, and nothing is
read behind what makes it corrupt (`Ledger.RecordReading`).  Where these slots are is said
apart from how they are computed (`Ledger.Located`).

Main statement: `Ledger.readUnconfirmed_exact`.
-/

namespace LinkCommittee

namespace Word

/-- So many slots one after the other, from a slot on, around the end of the storage. -/
def successive (slot : Word) (count : Nat) : List Word :=
  (List.range count).map fun j => slot.advance (UInt64.ofNat j)

/-- There are as many slots as were asked for. -/
@[simp] theorem length_successive (slot : Word) (count : Nat) :
    (slot.successive count).length = count := by
  rw [successive, List.length_map, List.length_range]

/-- No places after a slot there is the slot itself. -/
theorem advance_zero (slot : Word) : slot.advance 0 = slot := by
  apply toNat_injective
  rw [toNat_advance, UInt64.toNat_zero, Nat.add_zero]
  exact Nat.mod_eq_of_lt slot.toNat_lt

/-- One place and then some more are one more. -/
theorem advance_one_advance (slot : Word) {j : Nat} (h : j + 1 < 2 ^ 64) :
    (slot.advance 1).advance (UInt64.ofNat j) = slot.advance (UInt64.ofNat (j + 1)) := by
  apply advance_advance
  rw [UInt64.toNat_ofNat_of_lt' (Nat.lt_of_succ_lt h), UInt64.toNat_ofNat_of_lt' h,
    UInt64.toNat_one, Nat.add_comm]

/-- The slot in a place among some that follow each other. -/
theorem toNat_of_getElem?_successive {slot place : Word} {count j : Nat} (hcount : count ≤ 2 ^ 64)
    (h : (slot.successive count)[j]? = some place) :
    place.toNat = (slot.toNat + j) % 2 ^ 256 := by
  obtain ⟨hlt, hplace⟩ := List.getElem?_eq_some_iff.1 h
  rw [length_successive] at hlt
  simp only [successive, List.getElem_map, List.getElem_range] at hplace
  rw [← hplace, toNat_advance, UInt64.toNat_ofNat_of_lt' (Nat.lt_of_lt_of_le hlt hcount)]

/-- Slots that follow each other are the first and those that follow the next. -/
theorem successive_succ (slot : Word) {count : Nat} (h : count < 2 ^ 64) :
    slot.successive (count + 1) = slot :: (slot.advance 1).successive count := by
  have hfirst : slot.advance (UInt64.ofNat 0) = slot := slot.advance_zero
  rw [successive, List.range_succ_eq_map, List.map_cons, List.map_map, hfirst]
  refine congrArg (slot :: ·) (List.map_congr_left ?_)
  intro j hj
  rw [List.mem_range] at hj
  exact (slot.advance_one_advance (by omega)).symm

end Word

/-- A storage that answers every read, and the settings that it is read with.  What is answered may
depend on all that was read before. -/
structure Ledger where
  settings : LedgerSettings
  answer : SlotReads → Account → Word → Word

namespace Ledger

/-- The reader of the storage, which keeps what was read. -/
def reader (ledger : Ledger) : StorageReader (StateM SlotReads) :=
  fun contract slot => ExceptT.mk fun reads =>
    (.ok (ledger.answer reads contract slot), reads ++ [(contract, slot)])

/-- A storage that never changes is one that answers every read. -/
theorem reader_of_unchanging (settings : LedgerSettings) (storage : Account → Word → Word) :
    reader ⟨settings, fun _ => storage⟩ = faithful storage := rfl

/-- Reads of some slots of the contract. -/
def readsOf (ledger : Ledger) (slots : List Word) : SlotReads :=
  slots.map fun slot => (ledger.settings.contract, slot)

section

variable (ledger : Ledger) (reads : SlotReads)

/-- The word that the contract answers for a slot. -/
def word (slot : Word) : Word := ledger.answer reads ledger.settings.contract slot

/-- The words that the contract answers when some slots are read one after the other. -/
def words : SlotReads → List Word → List Word
  | _, [] => []
  | reads, slot :: slots => ledger.word reads slot :: words (reads ++ ledger.readsOf [slot]) slots

/-! ### Texts -/

/-- The number in the length slot of a text. -/
def textLength (field : Word) : Nat := (ledger.word reads field).toNat

/-- The slots of the data of a text: one, and one more for every 64 of its length. -/
def dataSlots (field : Word) : List Word :=
  (textSlot field).successive (ledger.textLength reads field / 64 + 1)

/-- The slots of a text: its length slot and those of its data. -/
def textSlots (field : Word) : List Word := field :: ledger.dataSlots reads field

/-- The bytes of a text: half as many of its data as its length is. -/
def textBytes (field : Word) : List UInt8 :=
  let data := ledger.words (reads ++ ledger.readsOf [field]) (ledger.dataSlots reads field)
  (data.flatMap fun word => word.bytes.toList).take (ledger.textLength reads field / 2)

/-- The data of a text is read: its length takes no more than 64 bits, and its slots are not too
many. -/
structure InRange (field : Word) : Prop where
  length_lt : ledger.textLength reads field < 2 ^ 64
  slots_lt : ledger.textLength reads field / 64 < ledger.settings.maxFieldWords.toNat

/-- What makes a text unreadable: a length of more than 64 bits, too many slots of data, or bytes
that are no UTF-8 form. -/
def Unreadable (field : Word) : Prop :=
  2 ^ 64 ≤ ledger.textLength reads field ∨
    ledger.settings.maxFieldWords.toNat ≤ ledger.textLength reads field / 64 ∨
    ∀ text, utf8 text ≠ ledger.textBytes reads field

/-- The slots that are read for a text, and what it comes to. -/
inductive TextReading (field : Word) : List Word → Except RecordDefect (List Char) → Prop
  | lengthRange (large : 2 ^ 64 ≤ ledger.textLength reads field) :
      TextReading field [field] (.error .lengthRange)
  | tooLong (fits : ledger.textLength reads field < 2 ^ 64)
      (long : ledger.settings.maxFieldWords.toNat ≤ ledger.textLength reads field / 64) :
      TextReading field [field] (.error .tooLong)
  | notUtf8 (range : ledger.InRange reads field)
      (foreign : ∀ text, utf8 text ≠ ledger.textBytes reads field) :
      TextReading field (ledger.textSlots reads field) (.error .notUtf8)
  | text (text : List Char) (range : ledger.InRange reads field)
      (form : utf8 text = ledger.textBytes reads field) :
      TextReading field (ledger.textSlots reads field) (.ok text)

/-! ### Records -/

variable (index check : UInt64)

/-- The slot of the array element. -/
def indexSlot : Word := positionalSlot ledger.settings.layout.unconfirmed none index

/-- The word in the array element. -/
def indexWord : Word := ledger.word reads (ledger.indexSlot index)

/-- The slot of the entry whose key is the word in the array element. -/
def entrySlot : Word :=
  positionalSlot ledger.settings.layout.accounts (some (ledger.indexWord reads index)) 0

/-- What has been read when the account is known. -/
def accountReads : SlotReads :=
  reads ++ ledger.readsOf [ledger.indexSlot index] ++
    ledger.readsOf [ledger.entrySlot reads index]

/-- The word in the entry, moved by one byte. -/
def account : Word :=
  (ledger.word (reads ++ ledger.readsOf [ledger.indexSlot index])
    (ledger.entrySlot reads index)).shiftRight

/-- The slot of a text of the record, the first or the second. -/
def memberSlot (member : UInt64) : Word :=
  positionalSlot ledger.settings.layout.certificates (some (ledger.account reads index)) member

/-- The slots that a record is read from are where the contract has its fields.  The data of a text
follows the digest of its field. -/
structure Located : Prop where
  element : IsSlot ledger.settings.layout.unconfirmed index none (ledger.indexSlot index)
  entry : IsSlot ledger.settings.layout.accounts 0 (some (ledger.indexWord reads index))
    (ledger.entrySlot reads index)
  member : ∀ member, IsSlot ledger.settings.layout.certificates member
    (some (ledger.account reads index)) (ledger.memberSlot reads index member)
  data : ∀ reads field, ledger.InRange reads field →
    ∀ j slot, (ledger.dataSlots reads field)[j]? = some slot →
      slot.toNat = ((Keccak.digest field.bytes.toList).toNat + j) % 2 ^ 256

/-- What has been read when the first text is known. -/
def signatureReads : SlotReads :=
  let before := ledger.accountReads reads index
  before ++ ledger.readsOf (ledger.textSlots before (ledger.memberSlot reads index 1))

/-- A text that is reached is unreadable: the first of the record or, behind a readable first, the
second. -/
def ReachesUnreadable : Prop :=
  let first := ledger.Unreadable (ledger.accountReads reads index) (ledger.memberSlot reads index 1)
  let second :=
    ledger.Unreadable (ledger.signatureReads reads index) (ledger.memberSlot reads index 2)
  first ∨ ¬first ∧ second

/-- What makes a record corrupt: a count of more than 64 bits or, if the certificate is registered,
an unreadable text. -/
def Corrupt : Prop :=
  2 ^ 64 ≤ (ledger.indexWord reads index).toNat ∨
    check.toNat < (ledger.indexWord reads index).toNat ∧ ledger.ReachesUnreadable reads index

/-- The slots that are read for a certificate behind the array element, and what it comes to. -/
inductive CertificateReading (count : UInt64) :
    List Word → Except RecordDefect Certificate → Prop
  | signature (slots : List Word) (defect : RecordDefect)
      (unread : ledger.TextReading (ledger.accountReads reads index)
        (ledger.memberSlot reads index 1) slots (.error defect)) :
      CertificateReading count (ledger.entrySlot reads index :: slots) (.error defect)
  | publicKey (slots slots' : List Word) (signature : List Char) (defect : RecordDefect)
      (read : ledger.TextReading (ledger.accountReads reads index)
        (ledger.memberSlot reads index 1) slots (.ok signature))
      (unread : ledger.TextReading (ledger.signatureReads reads index)
        (ledger.memberSlot reads index 2) slots' (.error defect)) :
      CertificateReading count (ledger.entrySlot reads index :: (slots ++ slots')) (.error defect)
  | found (slots slots' : List Word) (signature publicKey : List Char)
      (read : ledger.TextReading (ledger.accountReads reads index)
        (ledger.memberSlot reads index 1) slots (.ok signature))
      (read' : ledger.TextReading (ledger.signatureReads reads index)
        (ledger.memberSlot reads index 2) slots' (.ok publicKey)) :
      CertificateReading count (ledger.entrySlot reads index :: (slots ++ slots'))
        (.ok ⟨ledger.account reads index, signature, publicKey, count⟩)

/-- The slots that are read for a record, and what it comes to. -/
inductive RecordReading : List Word → Except RecordDefect CertificateRecord → Prop
  | countRange (large : 2 ^ 64 ≤ (ledger.indexWord reads index).toNat) :
      RecordReading [ledger.indexSlot index] (.error .countRange)
  | notFound (below : (ledger.indexWord reads index).toNat ≤ check.toNat) :
      RecordReading [ledger.indexSlot index] (.ok ⟨ledger.indexWord reads index, none⟩)
  | corrupt (count : UInt64) (slots : List Word) (defect : RecordDefect)
      (spelled : (ledger.indexWord reads index).toNat = count.toNat) (above : check < count)
      (unread : ledger.CertificateReading reads index count slots (.error defect)) :
      RecordReading (ledger.indexSlot index :: slots) (.error defect)
  | found (count : UInt64) (slots : List Word) (certificate : Certificate)
      (spelled : (ledger.indexWord reads index).toNat = count.toNat) (above : check < count)
      (read : ledger.CertificateReading reads index count slots (.ok certificate)) :
      RecordReading (ledger.indexSlot index :: slots)
        (.ok ⟨ledger.indexWord reads index, some certificate⟩)

end

/-- **The slots of a record are where the contract has its fields**, whatever was read before. -/
theorem located (ledger : Ledger) (reads : SlotReads) (index : UInt64) :
    ledger.Located reads index where
  element := positionalSlot_isSlot _ _ _
  entry := positionalSlot_isSlot _ _ _
  member _ := positionalSlot_isSlot _ _ _
  data reads field range j slot h := by
    have hfits := range.length_lt
    have hcount : ledger.textLength reads field / 64 + 1 ≤ 2 ^ 64 := by omega
    have hplace := Word.toNat_of_getElem?_successive hcount h
    rwa [textSlot_eq] at hplace

/-! ### What a program reads -/

/-- A program reads some slots of the contract, one after the other, and comes to an outcome. -/
def Reads {α : Type} (ledger : Ledger) (x : Reading α) (reads : SlotReads) (slots : List Word)
    (outcome : Except RecordDefect α) : Prop :=
  x.run reads = (outcome.mapError .corrupt, reads ++ ledger.readsOf slots)

variable {ledger : Ledger} {reads : SlotReads}

section

variable {α β : Type} {x : Reading α} {f : α → Reading β} {a : α} {slots slots' : List Word}
  {outcome : Except RecordDefect β}

/-- Slots one after the other are read one after the other. -/
theorem readsOf_append (ledger : Ledger) (slots slots' : List Word) :
    ledger.readsOf (slots ++ slots') = ledger.readsOf slots ++ ledger.readsOf slots' :=
  List.map_append

/-- A program that leaves the reads as they are reads nothing. -/
theorem reads_of_run {outcome : Except RecordDefect α}
    (h : x.run reads = (outcome.mapError .corrupt, reads)) : ledger.Reads x reads [] outcome := by
  rw [Reads, h, readsOf, List.map_nil, List.append_nil]

/-- A result that is at hand calls for no reads. -/
theorem reads_pure (a : α) : ledger.Reads (pure a) reads [] (.ok a) := reads_of_run rfl

/-- A defect that is known calls for no reads. -/
theorem reads_throw (defect : RecordDefect) :
    ledger.Reads (throw (.corrupt defect) : Reading α) reads [] (.error defect) := reads_of_run rfl

/-- Behind a program that goes on there is another. -/
theorem Reads.bind (h : ledger.Reads x reads slots (.ok a))
    (h' : ledger.Reads (f a) (reads ++ ledger.readsOf slots) slots' outcome) :
    ledger.Reads (x >>= f) reads (slots ++ slots') outcome := by
  rw [Reads, Reading.run_bind_of_ok h, h', readsOf_append, List.append_assoc]

/-- Behind a program that finds a defect nothing is read. -/
theorem Reads.bind_error {defect : RecordDefect} (h : ledger.Reads x reads slots (.error defect)) :
    ledger.Reads (x >>= f) reads slots (.error defect) := Reading.run_bind_of_error h

/-- A program in front that reads nothing. -/
theorem Reads.bind_of_nil (h : ledger.Reads x reads [] (.ok a))
    (h' : ledger.Reads (f a) reads slots outcome) : ledger.Reads (x >>= f) reads slots outcome := by
  refine h.bind ?_
  rw [readsOf, List.map_nil, List.append_nil]
  exact h'

/-- A program behind that reads nothing. -/
theorem Reads.bind_nil (h : ledger.Reads x reads slots (.ok a))
    (h' : ledger.Reads (f a) (reads ++ ledger.readsOf slots) [] outcome) :
    ledger.Reads (x >>= f) reads slots outcome := by
  have hbind := h.bind h'
  rwa [List.append_nil] at hbind

end

open CertificateRecord

/-- A word is read in its own slot, and what is answered is the outcome. -/
theorem reads_readWord (ledger : Ledger) (reads : SlotReads) (slot : Word) :
    ledger.Reads (readWord ledger.reader ledger.settings slot) reads [slot]
      (.ok (ledger.word reads slot)) := rfl

/-- A count is taken out of a word without a read. -/
theorem reads_readCount {defect : RecordDefect} {word : Word} {count : UInt64}
    (h : word.toNat = count.toNat) :
    ledger.Reads (readCount defect word) reads [] (.ok count) := by
  rw [readCount_eq h]
  exact reads_pure count

/-- A word whose number takes more than 64 bits is a defect, found without a read. -/
theorem reads_readCount_of_large {defect : RecordDefect} {word : Word}
    (h : 2 ^ 64 ≤ word.toNat) : ledger.Reads (readCount defect word) reads [] (.error defect) := by
  rw [readCount, Word.toUInt64?_eq_none_iff.2 h]
  exact reads_throw defect

/-- **The bytes of some words** are read slot by slot.  By induction on their number: the first is
read in its slot, and the rest from the next slot on. -/
theorem reads_readBytes {count : Nat} (hcount : count ≤ 2 ^ 64) (slot : Word) (reads : SlotReads) :
    ledger.Reads (readBytes ledger.reader ledger.settings count slot) reads (slot.successive count)
      (.ok ((ledger.words reads (slot.successive count)).flatMap fun word => word.bytes.toList)) := by
  induction count generalizing slot reads with
  | zero => exact reads_pure []
  | succ count ih =>
    rw [slot.successive_succ hcount, words, List.flatMap_cons]
    refine (ledger.reads_readWord reads slot).bind ?_
    exact (ih (Nat.le_of_succ_le hcount) _ _).bind_nil (reads_pure _)

/-- A number of 64 bits is that of a count. -/
theorem exists_count {number : Nat} (h : number < 2 ^ 64) :
    ∃ count : UInt64, number = count.toNat :=
  ⟨UInt64.ofNat number, (UInt64.toNat_ofNat_of_lt' h).symm⟩

/-- The slots that the data of a text calls for, compared with those that it may have. -/
theorem maxFieldWords_le_iff {field : Word} {length : UInt64}
    (hlength : ledger.textLength reads field = length.toNat) :
    ledger.settings.maxFieldWords ≤ length / 64 ↔
      ledger.settings.maxFieldWords.toNat ≤ ledger.textLength reads field / 64 := by
  rw [UInt64.le_iff_toNat_le, UInt64.toNat_div, hlength]
  rfl

/-- **The data of a text in range** is read as a whole, and then judged. -/
theorem reads_readText_of_inRange {field : Word} (hrange : ledger.InRange reads field) :
    ledger.Reads (readText ledger.reader ledger.settings field) reads
      (ledger.textSlots reads field)
      ((ofUtf8? (ledger.textBytes reads field)).elim (.error .notUtf8) .ok) := by
  have hlt := hrange.length_lt
  obtain ⟨length, hlength⟩ := exists_count hlt
  have hlast : (length / 64).toNat + 1 = ledger.textLength reads field / 64 + 1 := by
    rw [UInt64.toNat_div, hlength]
    rfl
  have hhalf : (length / 2).toNat = ledger.textLength reads field / 2 := by
    rw [UInt64.toNat_div, hlength]
    rfl
  have hfits := mt (maxFieldWords_le_iff hlength).1 (Nat.not_le_of_lt hrange.slots_lt)
  let data := (ledger.words (reads ++ ledger.readsOf [field])
    (ledger.dataSlots reads field)).flatMap fun word => word.bytes.toList
  have hdata : ledger.Reads
      (readBytes ledger.reader ledger.settings (ledger.textLength reads field / 64 + 1)
        (textSlot field))
      (reads ++ ledger.readsOf [field]) (ledger.dataSlots reads field) (.ok data) :=
    reads_readBytes (by omega) _ _
  have hbytes : data.take (length / 2).toNat = ledger.textBytes reads field := by
    rw [hhalf]
    rfl
  unfold readText
  refine (ledger.reads_readWord reads field).bind ((reads_readCount hlength).bind_of_nil ?_)
  rw [if_neg hfits]
  dsimp only
  rw [hlast]
  refine hdata.bind_nil ?_
  rw [hbytes]
  cases ofUtf8? (ledger.textBytes reads field) with
  | none => exact reads_throw _
  | some text => exact reads_pure text

/-- **What is read for a text.**  The length word decides: it takes more than 64 bits, or calls for
more slots than a text may have, or the data is read and is a text or none. -/
theorem exists_textReading (reads : SlotReads) (field : Word) :
    ∃ slots outcome,
      ledger.Reads (readText ledger.reader ledger.settings field) reads slots outcome ∧
        ledger.TextReading reads field slots outcome := by
  have hfield := ledger.reads_readWord reads field
  by_cases hlarge : 2 ^ 64 ≤ ledger.textLength reads field
  · refine ⟨_, _, hfield.bind_nil ?_, .lengthRange hlarge⟩
    exact (reads_readCount_of_large hlarge).bind_error
  have hfits := Nat.lt_of_not_le hlarge
  by_cases hlong : ledger.settings.maxFieldWords.toNat ≤ ledger.textLength reads field / 64
  · obtain ⟨length, hlength⟩ := exists_count hfits
    refine ⟨_, _, hfield.bind_nil ((reads_readCount hlength).bind_of_nil ?_), .tooLong hfits hlong⟩
    rw [if_pos ((maxFieldWords_le_iff hlength).2 hlong)]
    exact (reads_throw _).bind_error
  have hrange : ledger.InRange reads field := ⟨hfits, Nat.lt_of_not_le hlong⟩
  refine ⟨_, _, reads_readText_of_inRange hrange, ?_⟩
  cases hread : ofUtf8? (ledger.textBytes reads field) with
  | none => exact .notUtf8 hrange (ofUtf8?_eq_none_iff.1 hread)
  | some text => exact .text text hrange (ofUtf8?_eq_some_iff.1 hread)

/-- Of a text that is found all slots were read. -/
theorem TextReading.slots_eq {field : Word} {slots : List Word} {text : List Char}
    (h : ledger.TextReading reads field slots (.ok text)) :
    slots = ledger.textSlots reads field := by
  cases h
  rfl

/-- **What is read for a certificate** behind the array element.  The second text is reached only if
the first was found. -/
theorem exists_certificateReading (reads : SlotReads) (index count : UInt64) :
    ∃ slots outcome,
      ledger.Reads
          (readCertificate ledger.reader ledger.settings (ledger.indexWord reads index) count)
          (reads ++ ledger.readsOf [ledger.indexSlot index]) slots outcome ∧
        ledger.CertificateReading reads index count slots outcome := by
  unfold readCertificate
  have hentry := ledger.reads_readWord (reads ++ ledger.readsOf [ledger.indexSlot index])
    (ledger.entrySlot reads index)
  obtain ⟨slots, outcome, hread, hreading⟩ := ledger.exists_textReading
    (ledger.accountReads reads index) (ledger.memberSlot reads index 1)
  cases outcome with
  | error defect => exact ⟨_, _, hentry.bind hread.bind_error, .signature _ _ hreading⟩
  | ok signature =>
    obtain rfl := hreading.slots_eq
    obtain ⟨slots', outcome', hread', hreading'⟩ := ledger.exists_textReading
      (ledger.signatureReads reads index) (ledger.memberSlot reads index 2)
    cases outcome' with
    | error defect =>
      exact ⟨_, _, hentry.bind (hread.bind hread'.bind_error),
        .publicKey (ledger.textSlots _ _) slots' _ _ hreading hreading'⟩
    | ok publicKey =>
      exact ⟨_, _, hentry.bind (hread.bind (hread'.bind_nil (reads_pure _))),
        .found (ledger.textSlots _ _) slots' _ _ hreading hreading'⟩

/-- **What is read for a record.**  The word in the array element decides: it is no count, or one
that is not above the number to check, or the certificate is read. -/
theorem exists_recordReading (reads : SlotReads) (index check : UInt64) :
    ∃ slots outcome,
      ledger.Reads (readUnconfirmed ledger.reader ledger.settings index check) reads slots
          outcome ∧
        ledger.RecordReading reads index check slots outcome := by
  unfold readUnconfirmed
  have hindex := ledger.reads_readWord reads (ledger.indexSlot index)
  by_cases hlarge : 2 ^ 64 ≤ (ledger.indexWord reads index).toNat
  · exact ⟨_, _, hindex.bind_nil (reads_readCount_of_large hlarge).bind_error, .countRange hlarge⟩
  obtain ⟨count, hcount⟩ := exists_count (Nat.lt_of_not_le hlarge)
  by_cases hbelow : count ≤ check
  · have hle := UInt64.le_iff_toNat_le.1 hbelow
    rw [← hcount] at hle
    refine ⟨_, _, hindex.bind_nil ((reads_readCount hcount).bind_of_nil ?_), .notFound hle⟩
    rw [if_pos hbelow]
    exact reads_pure _
  · have habove : check < count := UInt64.not_le.1 hbelow
    obtain ⟨slots, outcome, hread, hreading⟩ :=
      ledger.exists_certificateReading reads index count
    cases outcome with
    | error defect =>
      refine ⟨_, _, hindex.bind ((reads_readCount hcount).bind_of_nil ?_),
        .corrupt count slots defect hcount habove hreading⟩
      rw [if_neg hbelow]
      exact hread.bind_error
    | ok certificate =>
      refine ⟨_, _, hindex.bind ((reads_readCount hcount).bind_of_nil ?_),
        .found count slots certificate hcount habove hreading⟩
      rw [if_neg hbelow]
      exact hread.bind_nil (reads_pure _)

/-! ### What a reading comes to -/

section

variable {field : Word} {index check count : UInt64} {slots : List Word}

theorem not_error_ok {α : Type} (a : α) :
    ¬∃ defect : RecordDefect, Except.ok a = .error defect := fun ⟨_, hbad⟩ => nomatch hbad

/-- A text comes to a defect exactly if it is unreadable. -/
theorem TextReading.isError_iff {outcome : Except RecordDefect (List Char)}
    (h : ledger.TextReading reads field slots outcome) :
    (∃ defect, outcome = .error defect) ↔ ledger.Unreadable reads field := by
  cases h with
  | lengthRange large => exact iff_of_true ⟨_, rfl⟩ (.inl large)
  | tooLong fits long => exact iff_of_true ⟨_, rfl⟩ (.inr (.inl long))
  | notUtf8 range foreign => exact iff_of_true ⟨_, rfl⟩ (.inr (.inr foreign))
  | text text range form =>
    refine iff_of_false (not_error_ok _) ?_
    rintro (hlarge | hlong | hforeign)
    · exact Nat.not_le_of_lt range.length_lt hlarge
    · exact Nat.not_le_of_lt range.slots_lt hlong
    · exact hforeign text form

/-- A text that is found is readable. -/
theorem TextReading.not_unreadable {text : List Char}
    (h : ledger.TextReading reads field slots (.ok text)) : ¬ledger.Unreadable reads field :=
  mt h.isError_iff.2 (not_error_ok text)

/-- For a text no more is read than its length slot and as many slots as it may have. -/
theorem TextReading.length_le {outcome : Except RecordDefect (List Char)}
    (h : ledger.TextReading reads field slots outcome) :
    slots.length ≤ 1 + ledger.settings.maxFieldWords.toNat := by
  have hdata (range : ledger.InRange reads field) :
      (ledger.textSlots reads field).length ≤ 1 + ledger.settings.maxFieldWords.toNat := by
    have hlt := range.slots_lt
    rw [textSlots, List.length_cons, dataSlots, Word.length_successive]
    omega
  cases h with
  | lengthRange large => exact Nat.le_add_right _ _
  | tooLong fits long => exact Nat.le_add_right _ _
  | notUtf8 range foreign => exact hdata range
  | text text range form => exact hdata range

/-- A certificate comes to a defect exactly if a text that is reached is unreadable. -/
theorem CertificateReading.isError_iff {outcome : Except RecordDefect Certificate}
    (h : ledger.CertificateReading reads index count slots outcome) :
    (∃ defect, outcome = .error defect) ↔ ledger.ReachesUnreadable reads index := by
  cases h with
  | signature slots defect unread =>
    exact iff_of_true ⟨_, rfl⟩ (.inl (unread.isError_iff.1 ⟨_, rfl⟩))
  | publicKey slots slots' signature defect read unread =>
    exact iff_of_true ⟨_, rfl⟩ (.inr ⟨read.not_unreadable, unread.isError_iff.1 ⟨_, rfl⟩⟩)
  | found slots slots' signature publicKey read read' =>
    refine iff_of_false (not_error_ok _) ?_
    rintro (hbad | ⟨-, hbad⟩)
    · exact read.not_unreadable hbad
    · exact read'.not_unreadable hbad

/-- For a certificate the entry is read, and then two texts. -/
theorem CertificateReading.length_le {outcome : Except RecordDefect Certificate}
    (h : ledger.CertificateReading reads index count slots outcome) :
    slots.length ≤ 3 + 2 * ledger.settings.maxFieldWords.toNat := by
  cases h with
  | signature slots defect unread =>
    have hle := unread.length_le
    rw [List.length_cons]
    omega
  | publicKey slots slots' signature defect read unread =>
    have hle := read.length_le
    have hle' := unread.length_le
    rw [List.length_cons, List.length_append]
    omega
  | found slots slots' signature publicKey read read' =>
    have hle := read.length_le
    have hle' := read'.length_le
    rw [List.length_cons, List.length_append]
    omega

/-- **A record comes to a defect exactly if it is corrupt.**  Corruption is told by what the storage
answers, the defect by what the reader makes of it. -/
theorem RecordReading.isError_iff {outcome : Except RecordDefect CertificateRecord}
    (h : ledger.RecordReading reads index check slots outcome) :
    (∃ defect, outcome = .error defect) ↔ ledger.Corrupt reads index check := by
  cases h with
  | countRange large => exact iff_of_true ⟨_, rfl⟩ (.inl large)
  | notFound below =>
    refine iff_of_false (not_error_ok _) ?_
    have hcheck : check.toNat < 2 ^ 64 := check.toNat_lt
    rintro (hlarge | ⟨habove, -⟩) <;> omega
  | corrupt count slots defect spelled above unread =>
    have hlt := UInt64.lt_iff_toNat_lt.1 above
    rw [← spelled] at hlt
    exact iff_of_true ⟨_, rfl⟩ (.inr ⟨hlt, unread.isError_iff.1 ⟨_, rfl⟩⟩)
  | found count slots certificate spelled above read =>
    refine iff_of_false (not_error_ok _) ?_
    have hcount : count.toNat < 2 ^ 64 := count.toNat_lt
    rintro (hlarge | ⟨-, hbad⟩)
    · omega
    · obtain ⟨_, hdefect⟩ := read.isError_iff.2 hbad
      contradiction

/-- A record carries the word in the array element. -/
theorem RecordReading.indexWord_eq {record : CertificateRecord}
    (h : ledger.RecordReading reads index check slots (.ok record)) :
    record.indexWord = ledger.indexWord reads index := by
  cases h with
  | notFound below => rfl
  | found count slots certificate spelled above read => rfl

/-- **A certificate is not found exactly if its count is not above the number to check.** -/
theorem RecordReading.notFound_iff {outcome : Except RecordDefect CertificateRecord}
    (h : ledger.RecordReading reads index check slots outcome) :
    (∃ record, outcome = .ok record ∧ record.certificate = none) ↔
      (ledger.indexWord reads index).toNat ≤ check.toNat := by
  cases h with
  | countRange large =>
    have hcheck : check.toNat < 2 ^ 64 := check.toNat_lt
    exact iff_of_false (fun ⟨_, hbad, _⟩ => nomatch hbad) (by omega)
  | notFound below => exact iff_of_true ⟨_, rfl, rfl⟩ below
  | corrupt count slots defect spelled above unread =>
    have hlt := UInt64.lt_iff_toNat_lt.1 above
    exact iff_of_false (fun ⟨_, hbad, _⟩ => nomatch hbad) (by omega)
  | found count slots certificate spelled above read =>
    have hlt := UInt64.lt_iff_toNat_lt.1 above
    refine iff_of_false (fun ⟨_, hrecord, hnone⟩ => ?_) (by omega)
    cases hrecord
    contradiction

/-- The certificate to check next is the one with the number in the array element, or the one with
the number zero if no certificate was found. -/
theorem RecordReading.nextCheck_eq {record : CertificateRecord}
    (h : ledger.RecordReading reads index check slots (.ok record)) :
    record.nextCheck.toNat =
      if record.isFound then (ledger.indexWord reads index).toNat else 0 := by
  cases h with
  | notFound below => rfl
  | found count slots certificate spelled above read =>
    cases read with
    | found slots slots' signature publicKey read read' => exact spelled.symm

/-- For a record the array element is read, and then a certificate. -/
theorem RecordReading.length_le {outcome : Except RecordDefect CertificateRecord}
    (h : ledger.RecordReading reads index check slots outcome) :
    slots.length ≤ 4 + 2 * ledger.settings.maxFieldWords.toNat := by
  cases h with
  | countRange large => exact Nat.le_add_right_of_le (show 1 ≤ 4 by decide)
  | notFound below => exact Nat.le_add_right_of_le (show 1 ≤ 4 by decide)
  | corrupt count slots defect spelled above unread =>
    have hle := unread.length_le
    rw [List.length_cons]
    omega
  | found count slots certificate spelled above read =>
    have hle := read.length_le
    rw [List.length_cons]
    omega

end

/-- **The outcome and the reads of a record, exactly.**  Whatever a storage answers to reads, now or
earlier, a record is read from the contract only, in the slots and with the outcome that the answers
call for, and the ledger is never unavailable.  The slots are where the contract has the fields of a
record.  The record is corrupt exactly if its count takes more than 64 bits or a text that is
reached is unreadable, and it is without a certificate, and with no number to check next, exactly
if its count is not above the number to check.  At most four slots are read, and twice as many more
as a text may have. -/
theorem readUnconfirmed_exact (ledger : Ledger) (reads : SlotReads) (index check : UInt64) :
    ∃ slots outcome,
      (readUnconfirmed ledger.reader ledger.settings index check).run reads =
        (outcome.mapError .corrupt,
          reads ++ slots.map fun slot => (ledger.settings.contract, slot)) ∧
      ledger.RecordReading reads index check slots outcome ∧
      ((∃ defect, outcome = .error defect) ↔ ledger.Corrupt reads index check) ∧
      ((∃ record, outcome = .ok record ∧ record.certificate = none) ↔
        (ledger.indexWord reads index).toNat ≤ check.toNat) ∧
      (∀ record, outcome = .ok record → record.indexWord = ledger.indexWord reads index) ∧
      (∀ record, outcome = .ok record → record.nextCheck.toNat =
        if record.isFound then (ledger.indexWord reads index).toNat else 0) ∧
      ledger.Located reads index ∧
      slots.length ≤ 4 + 2 * ledger.settings.maxFieldWords.toNat := by
  obtain ⟨slots, outcome, hread, hreading⟩ := ledger.exists_recordReading reads index check
  refine ⟨slots, outcome, hread, hreading, hreading.isError_iff, hreading.notFound_iff, ?_, ?_,
    ledger.located reads index, hreading.length_le⟩
  · intro record hrecord
    rw [hrecord] at hreading
    exact hreading.indexWord_eq
  · intro record hrecord
    rw [hrecord] at hreading
    exact hreading.nextCheck_eq

/-- Storage with the number 65 in every word has texts of two slots each: where a text may have two,
as many slots are read as may be. -/
theorem readUnconfirmed_exact_two_slots :
    ∃ (storage : Account → Word → Word) (settings : LedgerSettings) (record : CertificateRecord)
      (slots : List Word), settings.maxFieldWords = 2 ∧ slots.length = 4 + 2 * 2 ∧
        (readUnconfirmed (faithful storage) settings 0 3).run [] =
          (.ok record, slots.map fun slot => (settings.contract, slot)) := by
  let storage : Account → Word → Word := fun _ _ => Word.ofUInt64 65
  let settings : LedgerSettings := ⟨⟨Octets.ofNat 20 1⟩, ⟨Octets.ofNat 20 2⟩, .standard, 2⟩
  let ledger : Ledger := ⟨settings, fun _ => storage⟩
  have hreader : ledger.reader = faithful storage := reader_of_unchanging settings storage
  let text : List Char := List.replicate 31 (Char.ofNat 0) ++ ['A']
  have hlength (reads : SlotReads) (field : Word) : ledger.textLength reads field = 65 :=
    Word.toNat_ofUInt64 65
  have hbytes (reads : SlotReads) (field : Word) : utf8 text = ledger.textBytes reads field := by
    rw [textBytes, dataSlots, hlength]
    show utf8 text = ((Word.ofUInt64 65).bytes.toList ++ _).take 32
    rw [List.take_left' (Octets.length_toList _)]
    decide
  have hread (reads : SlotReads) (field : Word) : ¬ledger.Unreadable reads field := by
    rw [Unreadable, hlength]
    rintro (hlarge | hlong | hforeign)
    · exact absurd hlarge (by decide)
    · exact absurd hlong (by decide)
    · exact hforeign text (hbytes reads field)
  have hslots (reads : SlotReads) (field : Word) : (ledger.textSlots reads field).length = 3 := by
    rw [textSlots, List.length_cons, dataSlots, Word.length_successive, hlength]
  have hcount : (ledger.indexWord [] 0).toNat = 65 := hlength [] _
  obtain ⟨slots, outcome, hrun, hreading, -⟩ := ledger.readUnconfirmed_exact [] 0 3
  cases hreading with
  | countRange large => exact absurd (hcount ▸ large) (by decide)
  | notFound below => exact absurd (hcount ▸ below) (by decide)
  | corrupt count slots defect spelled above unread =>
    rcases unread.isError_iff.1 ⟨_, rfl⟩ with hbad | ⟨-, hbad⟩
    · exact absurd hbad (hread _ _)
    · exact absurd hbad (hread _ _)
  | found count slots certificate spelled above read =>
    rw [hreader] at hrun
    refine ⟨storage, settings, _, _, rfl, ?_, hrun⟩
    cases read with
    | found slots slots' signature publicKey read read' =>
      rw [read.slots_eq, read'.slots_eq, List.length_cons, List.length_cons, List.length_append,
        hslots, hslots]

end Ledger

end LinkCommittee
