import LinkCommittee.Message.Basic
import LinkCommittee.Proofs.Message.ShareData
import LinkCommittee.Proofs.Text.Decimal

/-!
# Reading messages

A text has the form of a message when it is ASCII, as long as a header and some number of
entries, at least one, and its three numeric fields spell numbers of 64 bits, the last of
them the number of entries (`Message.Form`).  Any other text is refused for the first
fault it has, in a fixed order (`Message.Refusal`).  Every text has the form or a fault,
so it is enough to see what reading makes of each.  The length that a message declares is
computed in 64 bits with checks; for texts that 64 bits can address this decides as whole
numbers do.

Main statement: `Message.decode_exact`.
-/

namespace LinkCommittee

/-- Where a numeric field of a message starts. -/
def NumericField.offset : NumericField → Nat
  | certificate => 134
  | sender => 178
  | shareCount => 222

/-- A text is taken for the token that has it, and for no other. -/
theorem ScanToken.ofChars_eq_ok_iff {text : List Char} {token : ScanToken} :
    ofChars text = .ok token ↔ token.text.chars = text := by
  cases token
  rw [← FixedText.ofChars?_eq_some_iff, ofChars]
  cases FixedText.ofChars? tokenWidth text <;> simp

namespace Message

/-- The text of a numeric field. -/
def fieldText (text : List Char) (field : NumericField) : List Char :=
  slice text field.offset fieldWidth

/-- A numeric field spells a number of 64 bits. -/
def Readable (text : List Char) (field : NumericField) : Prop :=
  ∃ number < 2 ^ 64, Decimal.Spells (fieldText text field) number

/-- The form of a message with `count` shares. -/
structure Form (text : List Char) (count : Nat) : Prop where
  ascii : ∀ c ∈ text, c.toNat < 128
  one_le : 1 ≤ count
  length : byteLength text = 266 + 132 * count
  readable : ∀ field, Readable text field
  declared : Decimal.Spells (fieldText text .shareCount) count

/-- The first fault of a text, in the order in which faults are looked for: characters beyond ASCII,
too short for any message, the first numeric field that spells no number of 64 bits, and a length
that falls short of or goes beyond what the declared shares call for. -/
inductive Refusal (text : List Char) : MessageError → Prop
  | notAscii (foreign : ¬∀ c ∈ text, c.toNat < 128) : Refusal text (.malformed .notAscii)
  | tooShort (ascii : ∀ c ∈ text, c.toNat < 128) (short : byteLength text < 398) :
      Refusal text (.malformed .tooShort)
  | unreadable (field : NumericField) (ascii : ∀ c ∈ text, c.toNat < 128)
      (long : 398 ≤ byteLength text)
      (earlier : ∀ other : NumericField, other.offset < field.offset → Readable text other)
      (unread : ¬Readable text field) : Refusal text (.unreadable field)
  | truncated (declared : UInt64) (ascii : ∀ c ∈ text, c.toNat < 128)
      (long : 398 ≤ byteLength text) (readable : ∀ field, Readable text field)
      (spelled : Decimal.Spells (fieldText text .shareCount) declared.toNat)
      (short : byteLength text < 266 + 132 * declared.toNat) :
      Refusal text (.truncated declared (byteLength text))
  | trailing (declared : UInt64) (ascii : ∀ c ∈ text, c.toNat < 128)
      (long : 398 ≤ byteLength text) (readable : ∀ field, Readable text field)
      (spelled : Decimal.Spells (fieldText text .shareCount) declared.toNat)
      (beyond : 266 + 132 * declared.toNat < byteLength text) :
      Refusal text (.trailing declared (byteLength text))

/-- A message holds what stands in a text of its form. -/
structure Carries (text : List Char) (m : Message) : Prop where
  ascii : ∀ c ∈ text, c.toNat < 128
  length : byteLength text = 266 + 132 * m.shareCount.toNat
  token : m.token.text.chars = slice text 2 132
  certificate : Decimal.Spells (fieldText text .certificate) m.certificate.toNat
  sender : Decimal.Spells (fieldText text .sender) m.sender.toNat
  count : Decimal.Spells (fieldText text .shareCount) m.shareCount.toNat
  data : m.shareData = text.drop 266

/-! ### The parts of a text -/

/-- A slice that ends within the text has its width. -/
theorem length_slice {text : List Char} {start width : Nat} (h : start + width ≤ text.length) :
    (slice text start width).length = width := by
  rw [slice, List.length_take, List.length_drop]
  omega

/-- Text is a slice and what follows it. -/
theorem slice_append_drop (text : List Char) (start width : Nat) :
    slice text start width ++ text.drop (start + width) = text.drop start := by
  rw [slice, ← List.drop_drop, List.take_append_drop]

/-- A number of the header has its width. -/
theorem length_fieldText {text : List Char} (h : 266 ≤ text.length) (field : NumericField) :
    (fieldText text field).length = fieldWidth := by
  apply length_slice
  have hend : field.offset + fieldWidth ≤ 266 := by cases field <;> decide
  omega

/-- A number of the header is not empty. -/
theorem fieldText_ne_nil {text : List Char} (h : 266 ≤ text.length) (field : NumericField) :
    fieldText text field ≠ [] := by
  intro hnil
  have hlength := length_fieldText h field
  rw [hnil] at hlength
  contradiction

/-- A number is read exactly from the texts that spell it. -/
theorem readField_eq_ok_iff {text : List Char} (hne : text ≠ []) {field : NumericField}
    {number : UInt64} :
    readField field text = .ok number ↔ Decimal.Spells text number.toNat := by
  rw [← Decimal.read?_eq_some_iff hne, readField]
  cases Decimal.read? text <;> simp

/-- A text that spells no number of 64 bits is unreadable. -/
theorem readField_eq_error {text : List Char} (hne : text ≠ []) {field : NumericField}
    (h : ¬∃ number < 2 ^ 64, Decimal.Spells text number) :
    readField field text = .error (.unreadable field) := by
  rw [readField, (Decimal.read?_eq_none_iff hne).2 h]

/-- The checked length is the true one, and there is none when the true one needs more than 64
bits. -/
theorem expectedLength?_eq_some_iff {declared expected : UInt64} :
    expectedLength? declared = some expected ↔ expected.toNat = 266 + 132 * declared.toNat := by
  have hentry : (UInt64.ofNat entryWidth).toNat = 132 := rfl
  have hheader : (UInt64.ofNat headerWidth).toNat = 266 := rfl
  have hsize : UInt64.size = 2 ^ 64 := rfl
  have hexpected : expected.toNat < 2 ^ 64 := expected.toNat_lt
  unfold expectedLength? checkedMul? checkedAdd?
  rw [hentry]
  by_cases hmul : declared.toNat * 132 < UInt64.size
  · have hdata : (declared * UInt64.ofNat entryWidth).toNat = declared.toNat * 132 := by
      rw [UInt64.toNat_mul, hentry]
      exact Nat.mod_eq_of_lt hmul
    rw [if_pos hmul]
    simp only [Option.bind_eq_bind, Option.bind_some, hdata, hheader]
    by_cases hadd : declared.toNat * 132 + 266 < UInt64.size
    · have hsum : (declared * UInt64.ofNat entryWidth + UInt64.ofNat headerWidth).toNat =
          declared.toNat * 132 + 266 := by
        rw [UInt64.toNat_add, hdata, hheader]
        exact Nat.mod_eq_of_lt hadd
      rw [if_pos hadd, Option.some_inj, ← UInt64.toNat_inj, hsum]
      omega
    · rw [if_neg hadd]
      constructor
      · intro h
        contradiction
      · intro h
        omega
  · rw [if_neg hmul]
    constructor
    · intro h
      contradiction
    · intro h
      omega

/-- **The checked length decides as whole numbers do** about every length that 64 bits can tell. -/
theorem checkLength_eq {length : Nat} (hsize : length < 2 ^ 64) (declared : UInt64) :
    checkLength length declared =
      if length < 266 + 132 * declared.toNat then .error (.truncated declared length)
      else if 266 + 132 * declared.toNat < length then .error (.trailing declared length)
      else .ok () := by
  unfold checkLength
  cases hexpected : expectedLength? declared with
  | none =>
    have hover : 2 ^ 64 ≤ 266 + 132 * declared.toNat := by
      by_contra hfits
      have hvalue : (UInt64.ofNat (266 + 132 * declared.toNat)).toNat = 266 + 132 * declared.toNat :=
        UInt64.toNat_ofNat_of_lt' (by rw [UInt64.size]; omega)
      rw [expectedLength?_eq_some_iff.2 hvalue] at hexpected
      contradiction
    rw [if_pos (by omega)]
  | some expected => rw [← expectedLength?_eq_some_iff.1 hexpected]

/-- A length passes exactly if it is that of the declared entries, and is a length at all. -/
theorem checkLength_eq_ok_iff {length : Nat} {declared : UInt64} :
    checkLength length declared = .ok () ↔
      length = 266 + 132 * declared.toNat ∧ length < 2 ^ 64 := by
  constructor
  · intro h
    unfold checkLength at h
    split at h
    · contradiction
    next expected hexpected =>
      have htrue := expectedLength?_eq_some_iff.1 hexpected
      have hlt : expected.toNat < 2 ^ 64 := expected.toNat_lt
      split at h
      · contradiction
      split at h
      · contradiction
      · omega
  · intro h
    obtain ⟨hlength, hsize⟩ := h
    rw [checkLength_eq hsize, if_neg (by omega), if_neg (by omega)]

/-- A message is made exactly of its own parts. -/
theorem new_eq_ok_iff {token : ScanToken} {certificate sender : UInt64}
    {entries : List ShareEntry} {m : Message} :
    new token certificate sender entries = .ok m ↔ m.token = token ∧
      m.certificate = certificate ∧ m.sender = sender ∧ m.entries = entries := by
  unfold new
  constructor
  · intro h
    split at h
    · cases h
      exact ⟨rfl, rfl, rfl, rfl⟩
    · contradiction
  · intro h
    obtain ⟨rfl, rfl, rfl, rfl⟩ := h
    rw [dif_pos m.entries_ne_nil]

/-! ### What is accepted -/

/-- A message has an entry. -/
theorem one_le_length_entries (m : Message) : 1 ≤ m.entries.length :=
  List.length_pos_of_ne_nil m.entries_ne_nil

/-- The count of a message is the number of its entries, if it takes 64 bits. -/
theorem toNat_shareCount {m : Message} (h : m.entries.length < 2 ^ 64) :
    m.shareCount.toNat = m.entries.length := UInt64.toNat_ofNat_of_lt' h

/-- The entries fill what follows the header. -/
theorem length_entries_of_data {text : List Char} {m : Message}
    (hdata : m.shareData = text.drop 266) (hlong : 266 ≤ text.length) :
    text.length = 266 + 132 * m.entries.length := by
  have hfill := congrArg List.length hdata
  rw [shareData, ShareEntry.length_join, List.length_drop, entryWidth_eq] at hfill
  omega

/-- A text that carries a message has the length of its entries behind the header. -/
theorem Carries.length_eq {text : List Char} {m : Message} (h : Carries text m) :
    text.length = 266 + 132 * m.entries.length := by
  have hlength := h.length
  rw [byteLength_eq h.ascii] at hlength
  exact length_entries_of_data h.data (by omega)

/-- The count that a text carries is the number of entries. -/
theorem Carries.toNat_shareCount {text : List Char} {m : Message} (h : Carries text m) :
    m.shareCount.toNat = m.entries.length := by
  have hlength := h.length
  rw [byteLength_eq h.ascii, h.length_eq] at hlength
  omega

/-- A long ASCII text is decoded field by field. -/
theorem decodeChars_of_long {text : List Char} (hascii : ∀ c ∈ text, c.toNat < 128)
    (hlong : 398 ≤ text.length) : decodeChars text = decodeFields text := by
  have hall : ¬text.all isAscii = false := by
    rw [all_isAscii_iff.2 hascii]
    exact Bool.noConfusion
  have hwidth : ¬text.length < messageWidth := Nat.not_lt.2 hlong
  rw [decodeChars, if_neg hall, if_neg hwidth]

/-- Only ASCII text that is long enough has its fields read. -/
theorem long_of_decodeChars {text : List Char} {m : Message} (h : decodeChars text = .ok m) :
    (∀ c ∈ text, c.toNat < 128) ∧ 398 ≤ text.length ∧ decodeFields text = .ok m := by
  unfold decodeChars at h
  split at h
  · contradiction
  next hascii =>
    split at h
    · contradiction
    next hlong =>
      exact ⟨all_isAscii_iff.1 (Bool.eq_true_of_not_eq_false hascii), Nat.not_lt.1 hlong, h⟩

/-- A message that was read holds what stands in its text, and 64 bits can tell the length. -/
theorem carries_of_decodeChars {text : List Char} {m : Message} (h : decodeChars text = .ok m) :
    Carries text m ∧ text.length < 2 ^ 64 := by
  obtain ⟨hascii, hlong, h⟩ := long_of_decodeChars h
  have hne (field : NumericField) : fieldText text field ≠ [] := fieldText_ne_nil (by omega) field
  obtain ⟨token, htoken, h⟩ := Except.bind_eq_ok_iff.1 h
  obtain ⟨certificate, hcertificate, h⟩ := Except.bind_eq_ok_iff.1 h
  obtain ⟨sender, hsender, h⟩ := Except.bind_eq_ok_iff.1 h
  obtain ⟨count, hcount, h⟩ := Except.bind_eq_ok_iff.1 h
  obtain ⟨⟨⟩, hlength, h⟩ := Except.bind_eq_ok_iff.1 h
  obtain ⟨entries, hentries, h⟩ := Except.bind_eq_ok_iff.1 h
  obtain ⟨rfl, rfl, rfl, rfl⟩ := new_eq_ok_iff.1 h
  obtain ⟨hlength, hsize⟩ := checkLength_eq_ok_iff.1 hlength
  have hdata : m.shareData = text.drop 266 := ShareEntry.split_eq_ok_iff.1 hentries
  have hfill := length_entries_of_data hdata (by omega)
  have hnumber : count.toNat = m.shareCount.toNat := by
    rw [toNat_shareCount (by omega)]
    omega
  have hspelled := (readField_eq_ok_iff (hne .shareCount)).1 hcount
  rw [hnumber] at hspelled hlength
  refine ⟨?_, hsize⟩
  constructor
  · exact hascii
  · rw [byteLength_eq hascii, hlength]
  · exact ScanToken.ofChars_eq_ok_iff.1 htoken
  · exact (readField_eq_ok_iff (hne .certificate)).1 hcertificate
  · exact (readField_eq_ok_iff (hne .sender)).1 hsender
  · exact hspelled
  · exact hdata

/-- **A text is read as the message that holds what stands in it.**  Each field spells its number in
its own place, and the rest is split into the entries. -/
theorem decodeChars_of_carries {text : List Char} {m : Message} (hcarries : Carries text m)
    (hsize : text.length < 2 ^ 64) : decodeChars text = .ok m := by
  have hone := one_le_length_entries m
  have hlength := hcarries.length_eq
  have hne (field : NumericField) : fieldText text field ≠ [] := fieldText_ne_nil (by omega) field
  rw [decodeChars_of_long hcarries.ascii (by omega)]
  rw [← hcarries.toNat_shareCount] at hlength
  refine Except.bind_eq_ok_iff.2 ⟨_, ScanToken.ofChars_eq_ok_iff.2 hcarries.token, ?_⟩
  refine Except.bind_eq_ok_iff.2
    ⟨_, (readField_eq_ok_iff (hne .certificate)).2 hcarries.certificate, ?_⟩
  refine Except.bind_eq_ok_iff.2 ⟨_, (readField_eq_ok_iff (hne .sender)).2 hcarries.sender, ?_⟩
  refine Except.bind_eq_ok_iff.2 ⟨_, (readField_eq_ok_iff (hne .shareCount)).2 hcarries.count, ?_⟩
  refine Except.bind_eq_ok_iff.2 ⟨(), checkLength_eq_ok_iff.2 ⟨hlength, hsize⟩, ?_⟩
  refine Except.bind_eq_ok_iff.2 ⟨_, ShareEntry.split_eq_ok_iff.2 hcarries.data, ?_⟩
  exact new_eq_ok_iff.2 ⟨rfl, rfl, rfl, rfl⟩

/-! ### What has the form of a message -/

/-- A text that carries a message has the form that its count calls for. -/
theorem Carries.form {text : List Char} {m : Message} (h : Carries text m) :
    Form text m.shareCount.toNat := by
  refine ⟨h.ascii, ?_, h.length, ?_, h.count⟩
  · rw [h.toNat_shareCount]
    exact one_le_length_entries m
  · intro field
    cases field with
    | certificate => exact ⟨_, m.certificate.toNat_lt, h.certificate⟩
    | sender => exact ⟨_, m.sender.toNat_lt, h.sender⟩
    | shareCount => exact ⟨_, m.shareCount.toNat_lt, h.count⟩

/-- In the place of the token there is always one. -/
theorem exists_token {text : List Char} (hascii : ∀ c ∈ text, c.toNat < 128)
    (hlong : 134 ≤ text.length) : ∃ token : ScanToken, token.text.chars = slice text 2 132 := by
  have hslice : (slice text 2 132).all isAscii = true := by
    rw [all_isAscii_iff]
    intro c hc
    exact hascii c (List.mem_of_mem_drop (List.mem_of_mem_take hc))
  exact ⟨⟨⟨slice text 2 132, hslice, length_slice hlong⟩⟩, rfl⟩

/-- A text of the form of a message is the text of some message. -/
theorem Form.exists_carries {text : List Char} {count : Nat} (h : Form text count) :
    ∃ m, Carries text m := by
  have hlength : text.length = 266 + 132 * count := by rw [← byteLength_eq h.ascii, h.length]
  obtain ⟨token, htoken⟩ := exists_token h.ascii (by omega)
  obtain ⟨certificate, hcertificate, hspelled⟩ := h.readable .certificate
  obtain ⟨sender, hsender, hspelled'⟩ := h.readable .sender
  have hdata : (text.drop 266).all isAscii = true := by
    rw [all_isAscii_iff]
    intro c hc
    exact h.ascii c (List.mem_of_mem_drop hc)
  have hwidth : (text.drop 266).length = entryWidth * count := by
    rw [List.length_drop, hlength, Nat.add_sub_cancel_left]
    rfl
  obtain ⟨entries, hentries, hjoin⟩ := ShareEntry.exists_join_eq hdata hwidth
  have hne : entries ≠ [] := by
    apply List.ne_nil_of_length_pos
    have hone := h.one_le
    omega
  rw [← UInt64.toNat_ofNat_of_lt' hcertificate] at hspelled
  rw [← UInt64.toNat_ofNat_of_lt' hsender] at hspelled'
  let m : Message := ⟨token, UInt64.ofNat certificate, UInt64.ofNat sender, entries, hne⟩
  have hcount : m.shareCount.toNat = count := by
    obtain ⟨number, hlt, hnumber⟩ := h.readable .shareCount
    obtain rfl := hnumber.unique h.declared
    rw [← hentries] at hlt
    exact (toNat_shareCount hlt).trans hentries
  refine ⟨m, h.ascii, ?_, htoken, hspelled, hspelled', ?_, hjoin⟩
  · rw [h.length, hcount]
  · rw [hcount]
    exact h.declared

/-! ### What is refused -/

/-- **Every text has the form of a message or a fault.**  Faults are looked for in the order of
reading, each where those before it are absent. -/
theorem form_or_refusal (text : List Char) :
    (∃ count, Form text count) ∨ ∃ error, Refusal text error := by
  by_cases hascii : ∀ c ∈ text, c.toNat < 128
  swap
  · exact .inr ⟨_, .notAscii hascii⟩
  by_cases hshort : byteLength text < 398
  · exact .inr ⟨_, .tooShort hascii hshort⟩
  have hlong : 398 ≤ byteLength text := Nat.not_lt.1 hshort
  by_cases hcertificate : Readable text .certificate
  swap
  · refine .inr ⟨_, .unreadable .certificate hascii hlong ?_ hcertificate⟩
    intro other hearlier
    cases other <;> contradiction
  by_cases hsender : Readable text .sender
  swap
  · refine .inr ⟨_, .unreadable .sender hascii hlong ?_ hsender⟩
    intro other hearlier
    cases other with
    | certificate => exact hcertificate
    | sender => contradiction
    | shareCount => contradiction
  by_cases hcount : Readable text .shareCount
  swap
  · refine .inr ⟨_, .unreadable .shareCount hascii hlong ?_ hcount⟩
    intro other hearlier
    cases other with
    | certificate => exact hcertificate
    | sender => exact hsender
    | shareCount => contradiction
  have hreadable : ∀ field, Readable text field := by
    intro field
    cases field with
    | certificate => exact hcertificate
    | sender => exact hsender
    | shareCount => exact hcount
  obtain ⟨count, hlt, hspelled⟩ := hcount
  have hvalue : (UInt64.ofNat count).toNat = count := UInt64.toNat_ofNat_of_lt' hlt
  have hdeclared := hspelled
  rw [← hvalue] at hdeclared
  rcases Nat.lt_trichotomy (byteLength text) (266 + 132 * count) with hless | hequal | hmore
  · refine .inr ⟨_, .truncated (UInt64.ofNat count) hascii hlong hreadable hdeclared ?_⟩
    rwa [hvalue]
  · exact .inl ⟨count, hascii, by omega, hequal, hreadable, hspelled⟩
  · refine .inr ⟨_, .trailing (UInt64.ofNat count) hascii hlong hreadable hdeclared ?_⟩
    rwa [hvalue]

/-- The fields of a text are read in turn, and then its length is judged. -/
theorem decodeFields_eq (text : List Char) :
    decodeFields text = (do
      let token ← ScanToken.ofChars (slice text 2 132)
      let certificate ← readField .certificate (fieldText text .certificate)
      let sender ← readField .sender (fieldText text .sender)
      let count ← readField .shareCount (fieldText text .shareCount)
      checkLength text.length count
      let entries ← ShareEntry.split (text.drop headerWidth)
      new token certificate sender entries) := rfl

/-- A field whose text spells a number of 64 bits is read. -/
theorem exists_readField {text : List Char} (hlong : 398 ≤ text.length) {field : NumericField}
    (h : Readable text field) : ∃ number, readField field (fieldText text field) = .ok number := by
  obtain ⟨number, hlt, hspelled⟩ := h
  rw [← UInt64.toNat_ofNat_of_lt' hlt] at hspelled
  exact ⟨_, (readField_eq_ok_iff (fieldText_ne_nil (by omega) field)).2 hspelled⟩

/-- The first field that cannot be read is reported. -/
theorem decodeFields_of_unread {text : List Char} (hascii : ∀ c ∈ text, c.toNat < 128)
    (hlong : 398 ≤ text.length) {field : NumericField}
    (hearlier : ∀ other : NumericField, other.offset < field.offset → Readable text other)
    (hunread : ¬Readable text field) : decodeFields text = .error (.unreadable field) := by
  obtain ⟨token, htoken⟩ := exists_token hascii (by omega)
  have hbad : readField field (fieldText text field) = .error (.unreadable field) :=
    readField_eq_error (fieldText_ne_nil (by omega) field) hunread
  rw [decodeFields_eq, ScanToken.ofChars_eq_ok_iff.2 htoken]
  cases field with
  | certificate =>
    rw [hbad]
    rfl
  | sender =>
    obtain ⟨certificate, hcertificate⟩ := exists_readField hlong (hearlier .certificate (by decide))
    rw [hcertificate, hbad]
    rfl
  | shareCount =>
    obtain ⟨certificate, hcertificate⟩ := exists_readField hlong (hearlier .certificate (by decide))
    obtain ⟨sender, hsender⟩ := exists_readField hlong (hearlier .sender (by decide))
    rw [hcertificate, hsender, hbad]
    rfl

/-- A text whose fields can be read is refused if its length is. -/
theorem decodeFields_of_length {text : List Char} (hascii : ∀ c ∈ text, c.toNat < 128)
    (hlong : 398 ≤ text.length) (hreadable : ∀ field, Readable text field) {declared : UInt64}
    (hspelled : Decimal.Spells (fieldText text .shareCount) declared.toNat) {error : MessageError}
    (hlength : checkLength text.length declared = .error error) :
    decodeFields text = .error error := by
  obtain ⟨token, htoken⟩ := exists_token hascii (by omega)
  obtain ⟨certificate, hcertificate⟩ := exists_readField hlong (hreadable .certificate)
  obtain ⟨sender, hsender⟩ := exists_readField hlong (hreadable .sender)
  have hcount : readField .shareCount (fieldText text .shareCount) = .ok declared :=
    (readField_eq_ok_iff (fieldText_ne_nil (by omega) _)).2 hspelled
  rw [decodeFields_eq, ScanToken.ofChars_eq_ok_iff.2 htoken, hcertificate, hsender, hcount]
  show (checkLength text.length declared >>= fun _ => _) = _
  rw [hlength]
  rfl

/-- **A fault of a text is what reading reports**, for texts whose length 64 bits can tell. -/
theorem Refusal.decodeChars_eq {text : List Char} {error : MessageError} (h : Refusal text error)
    (hsize : text.length < 2 ^ 64) : decodeChars text = .error error := by
  cases h with
  | notAscii foreign =>
    have hall : text.all isAscii = false :=
      Bool.eq_false_of_not_eq_true fun hall => foreign (all_isAscii_iff.1 hall)
    rw [decodeChars, if_pos hall]
  | tooShort ascii short =>
    have hall : ¬text.all isAscii = false := by
      rw [all_isAscii_iff.2 ascii]
      exact Bool.noConfusion
    have hwidth : text.length < messageWidth := by rwa [byteLength_eq ascii] at short
    rw [decodeChars, if_neg hall, if_pos hwidth]
  | unreadable field ascii long earlier unread =>
    rw [byteLength_eq ascii] at long
    rw [decodeChars_of_long ascii long]
    exact decodeFields_of_unread ascii long earlier unread
  | truncated declared ascii long readable spelled short =>
    rw [byteLength_eq ascii] at long short ⊢
    rw [decodeChars_of_long ascii long]
    apply decodeFields_of_length ascii long readable spelled
    rw [checkLength_eq hsize, if_pos short]
  | trailing declared ascii long readable spelled beyond =>
    rw [byteLength_eq ascii] at long beyond ⊢
    rw [decodeChars_of_long ascii long]
    apply decodeFields_of_length ascii long readable spelled
    rw [checkLength_eq hsize, if_neg (by omega), if_pos beyond]

/-- **Reading accepts exactly the texts that have the form of a message, and reports the first fault
of every other text.**  What it accepts it takes over slice by slice.  The length of a text in bytes
is a number of 64 bits. -/
theorem decode_exact (raw : String) (hsize : byteLength raw.toList < 2 ^ 64) :
    ((∃ m, decode raw = .ok m) ↔ ∃ count, Form raw.toList count) ∧
    (∀ m, decode raw = .ok m → Carries raw.toList m) ∧
    ∀ error, decode raw = .error error ↔ Refusal raw.toList error := by
  have hlength : raw.toList.length < 2 ^ 64 :=
    Nat.lt_of_le_of_lt (length_le_byteLength _) hsize
  refine ⟨?_, ?_, ?_⟩
  · constructor
    · intro h
      obtain ⟨m, hm⟩ := h
      exact ⟨_, (carries_of_decodeChars hm).1.form⟩
    · intro h
      obtain ⟨count, hform⟩ := h
      obtain ⟨m, hcarries⟩ := hform.exists_carries
      exact ⟨m, decodeChars_of_carries hcarries hlength⟩
  · intro m hm
    exact (carries_of_decodeChars hm).1
  · intro error
    constructor
    · intro h
      rcases form_or_refusal raw.toList with ⟨count, hform⟩ | ⟨error', hrefusal⟩
      · obtain ⟨m, hcarries⟩ := hform.exists_carries
        have hread : decode raw = .ok m := decodeChars_of_carries hcarries hlength
        rw [h] at hread
        contradiction
      · have hread : decode raw = .error error' := hrefusal.decodeChars_eq hlength
        rw [h] at hread
        cases hread
        exact hrefusal
    · intro h
      exact h.decodeChars_eq hlength

/-- One share is declared and there is one; more are declared than 64 bits can give a length for. -/
theorem decode_exact_one_share :
    let text (count : Nat) : String := String.ofList (messageTag ++ List.replicate 132 'a' ++
      Decimal.padded 44 12 ++ Decimal.padded 44 7 ++ Decimal.padded 44 count ++
      List.replicate 132 'A')
    byteLength (text 1).toList < 2 ^ 64 ∧ byteLength (text (2 ^ 64 - 1)).toList < 2 ^ 64 ∧
      (∃ m, decode (text 1) = .ok m ∧ Carries (text 1).toList m) ∧
      Refusal (text (2 ^ 64 - 1)).toList (.truncated (UInt64.ofNat (2 ^ 64 - 1)) 398) := by
  intro text
  have hsize : byteLength (text 1).toList < 2 ^ 64 := by
    rw [String.toList_ofList]
    decide +kernel
  have hsize' : byteLength (text (2 ^ 64 - 1)).toList < 2 ^ 64 := by
    rw [String.toList_ofList]
    decide +kernel
  have hread : (decode (text 1)).toOption.isSome = true := by
    rw [decode, String.toList_ofList]
    decide +kernel
  have hrefused : decode (text (2 ^ 64 - 1)) =
      .error (.truncated (UInt64.ofNat (2 ^ 64 - 1)) 398) := by
    rw [decode, String.toList_ofList]
    decide +kernel
  obtain ⟨-, hparts, -⟩ := decode_exact (text 1) hsize
  obtain ⟨-, -, hfault⟩ := decode_exact (text (2 ^ 64 - 1)) hsize'
  obtain ⟨m, hm⟩ := Option.isSome_iff_exists.1 hread
  have hdecoded := Except.toOption_eq_some_iff.1 hm
  exact ⟨hsize, hsize', ⟨m, hdecoded, hparts m hdecoded⟩, (hfault _).1 hrefused⟩

end Message

end LinkCommittee
