import LinkCommittee.Message.ShareEntry
import LinkCommittee.Proofs.Except
import LinkCommittee.Proofs.Text.Basic

/-!
# Share data and share entries

Entries are all of one width and stand next to each other, so share data can be cut in one
way only: data is split into the entries that give it when they are joined
(`ShareEntry.split_eq_ok_iff`).  ASCII data whose length is a multiple of the width is
made of entries.
-/

namespace LinkCommittee

/-- A full piece in front of a list is its first chunk. -/
theorem chunks_append {α : Type} {width : Nat} (pos : 0 < width) {piece : List α}
    (hpiece : piece.length = width) (items : List α) :
    chunks width pos (piece ++ items) = piece :: chunks width pos items := by
  have hne : (piece ++ items).isEmpty = false := by
    rw [List.isEmpty_eq_false_iff]
    intro hnil
    rw [List.append_eq_nil_iff.1 hnil |>.1, List.length_nil] at hpiece
    omega
  rw [chunks, hne, List.take_left' hpiece, List.drop_left' hpiece]
  rfl

namespace ShareEntry

/-- Every entry fills its width. -/
theorem length_chars (entry : ShareEntry) : entry.chars.length = entryWidth :=
  entry.text.length_chars

/-- A text is taken for the entry that has it, if it is ASCII and fills the width. -/
theorem ofChars_eq_ok_iff {text : List Char} {entry : ShareEntry} :
    ofChars text = .ok entry ↔ entry.chars = text := by
  cases entry
  rw [chars, ← FixedText.ofChars?_eq_some_iff, ofChars]
  cases FixedText.ofChars? entryWidth text <;> simp

/-- Texts are taken for entries one by one. -/
theorem mapM_ofChars_eq_ok_iff {pieces : List (List Char)} {entries : List ShareEntry} :
    pieces.mapM ofChars = .ok entries ↔ entries.map chars = pieces := by
  induction pieces generalizing entries with
  | nil =>
    rw [List.mapM_nil, List.map_eq_nil_iff]
    constructor
    · intro h
      cases h
      rfl
    · intro h
      rw [h]
      rfl
  | cons piece pieces ih =>
    rw [List.mapM_cons, Except.bind_eq_ok_iff, List.map_eq_cons_iff]
    constructor
    · intro h
      obtain ⟨entry, hentry, h⟩ := h
      obtain ⟨others, hothers, h⟩ := Except.bind_eq_ok_iff.1 h
      cases h
      exact ⟨entry, others, rfl, ofChars_eq_ok_iff.1 hentry, ih.1 hothers⟩
    · intro h
      obtain ⟨entry, others, rfl, hentry, hothers⟩ := h
      refine ⟨entry, ofChars_eq_ok_iff.2 hentry, ?_⟩
      exact Except.bind_eq_ok_iff.2 ⟨others, ih.2 hothers, rfl⟩

theorem join_cons (entry : ShareEntry) (entries : List ShareEntry) :
    join (entry :: entries) = entry.chars ++ join entries := List.flatMap_cons

/-- Joined entries are as long as there are entries, each of the same width. -/
@[simp] theorem length_join (entries : List ShareEntry) :
    (join entries).length = entryWidth * entries.length := by
  induction entries with
  | nil => rfl
  | cons entry entries ih =>
    rw [join_cons, List.length_append, ih, length_chars, List.length_cons, Nat.mul_succ,
      Nat.add_comm]

/-- Joined entries are ASCII. -/
theorem all_isAscii_join (entries : List ShareEntry) : (join entries).all isAscii = true := by
  rw [List.all_eq_true]
  intro c hc
  obtain ⟨entry, -, hmem⟩ := List.mem_flatMap.1 hc
  exact List.all_eq_true.1 entry.text.ascii c hmem

/-- Pieces of the width of an entry are the texts of the entries. -/
theorem chunks_join (entries : List ShareEntry) (pos : 0 < entryWidth) :
    chunks entryWidth pos (join entries) = entries.map chars := by
  induction entries with
  | nil =>
    rw [chunks]
    rfl
  | cons entry entries ih =>
    rw [join_cons, chunks_append pos entry.length_chars, ih, List.map_cons]

/-- **Joined entries are split again.**  All entries have one width, so the pieces are the entries.
-/
theorem split_join (entries : List ShareEntry) : split (join entries) = .ok entries := by
  have hwidth : byteLength (join entries) % entryWidth = 0 := by
    rw [byteLength_of_ascii (all_isAscii_join entries), length_join, Nat.mul_mod_right]
  unfold split
  rw [if_pos ⟨all_isAscii_join entries, hwidth⟩, chunks_join]
  exact mapM_ofChars_eq_ok_iff.2 rfl

/-- ASCII text whose length is a multiple of the width is made of entries. -/
theorem exists_join_eq {data : List Char} (hascii : data.all isAscii = true) {count : Nat}
    (hlength : data.length = entryWidth * count) :
    ∃ entries : List ShareEntry, entries.length = count ∧ join entries = data := by
  induction count generalizing data with
  | zero => exact ⟨[], rfl, (List.length_eq_zero_iff.1 hlength).symm⟩
  | succ count ih =>
    rw [Nat.mul_succ] at hlength
    rw [← List.take_append_drop entryWidth data, List.all_append, Bool.and_eq_true] at hascii
    have hfirst : (data.take entryWidth).length = entryWidth := by
      rw [List.length_take, hlength]
      exact Nat.min_eq_left (Nat.le_add_left _ _)
    have hrest : (data.drop entryWidth).length = entryWidth * count := by
      rw [List.length_drop, hlength, Nat.add_sub_cancel]
    obtain ⟨entries, rfl, hentries⟩ := ih hascii.2 hrest
    refine ⟨⟨⟨data.take entryWidth, hascii.1, hfirst⟩⟩ :: entries, rfl, ?_⟩
    rw [join_cons, hentries]
    exact List.take_append_drop entryWidth data

/-- ASCII data of the length of some number of entries is made of that many. -/
theorem exists_entries {data : List Char} {count : Nat} (hascii : ∀ c ∈ data, c.toNat < 128)
    (hlength : byteLength data = 132 * count) :
    ∃ entries : List ShareEntry, entries.length = count ∧ join entries = data := by
  rw [byteLength_eq hascii] at hlength
  exact exists_join_eq (all_isAscii_iff.2 hascii) hlength

/-- Data that is no ASCII text of whole entries is refused with its length. -/
theorem split_eq_error {data : List Char}
    (h : ¬((∀ c ∈ data, c.toNat < 128) ∧ 132 ∣ byteLength data)) :
    split data = .error (.misaligned (byteLength data)) := by
  rw [split, if_neg]
  rw [all_isAscii_iff, ← Nat.dvd_iff_mod_eq_zero]
  exact h

/-- **Data is split exactly if it is ASCII text of whole entries.** -/
theorem exists_split_iff {data : List Char} :
    (∃ entries, split data = .ok entries) ↔
      (∀ c ∈ data, c.toNat < 128) ∧ 132 ∣ byteLength data := by
  constructor
  · rintro ⟨entries, hsplit⟩
    by_contra hbad
    rw [split_eq_error hbad] at hsplit
    contradiction
  · rintro ⟨hascii, count, hlength⟩
    obtain ⟨entries, -, rfl⟩ := exists_entries hascii hlength
    exact ⟨entries, split_join entries⟩

/-- **Share data is split into the entries that give it when joined**, and into no others. -/
theorem split_eq_ok_iff {data : List Char} {entries : List ShareEntry} :
    split data = .ok entries ↔ join entries = data := by
  constructor
  · intro h
    obtain ⟨hascii, count, hlength⟩ := exists_split_iff.1 ⟨entries, h⟩
    obtain ⟨entries', -, rfl⟩ := exists_entries hascii hlength
    rw [split_join] at h
    cases h
    rfl
  · intro h
    rw [← h, split_join]

end ShareEntry

end LinkCommittee
