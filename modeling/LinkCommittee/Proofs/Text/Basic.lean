import LinkCommittee.Text.Fixed
import Mathlib.Data.List.Basic

/-!
# Characters and the width of ASCII text

Characters between two others are told by their code points, so a statement about the
symbols of an alphabet can be checked symbol by symbol.  ASCII text has one byte for
each character, and text of a fixed width is told by its characters.
-/

namespace LinkCommittee

theorem Char.toNat_bounds {low high c : Char} (h : low ≤ c ∧ c ≤ high) :
    low.toNat ≤ c.toNat ∧ c.toNat ≤ high.toNat :=
  ⟨UInt32.le_iff_toNat_le.1 h.1, UInt32.le_iff_toNat_le.1 h.2⟩

/-- A character is told by how far it stands behind the first symbol of an alphabet. -/
theorem Char.eq_ofNat_add_sub {low : Nat} {c : Char} (h : low ≤ c.toNat) :
    c = Char.ofNat (low + (c.toNat - low)) := by
  rw [Nat.add_sub_cancel' h, Char.ofNat_toNat]

/-- **Text is read back from its UTF-8 form.** -/
theorem ofUtf8?_utf8 (text : List Char) : ofUtf8? (utf8 text) = some text := by
  have hbytes : (utf8 text).toByteArray = (String.ofList text).toByteArray := rfl
  rw [ofUtf8?, hbytes, String.fromUTF8?, dif_pos (String.ofList text).isValidUTF8,
    Option.map_some]
  exact congrArg some String.toList_ofList

/-- **Bytes are read as the text whose UTF-8 form they are**, and as no other. -/
theorem ofUtf8?_eq_some_iff {bytes : List UInt8} {text : List Char} :
    ofUtf8? bytes = some text ↔ utf8 text = bytes := by
  constructor
  · intro h
    obtain ⟨s, hs, rfl⟩ := Option.map_eq_some_iff.1 h
    have hbytes : s.toByteArray = bytes.toByteArray := by
      unfold String.fromUTF8? at hs
      split at hs
      · cases hs
        rfl
      · contradiction
    rw [← List.toByteArray_inj, ← hbytes]
    exact congrArg String.toByteArray String.ofList_toList
  · intro h
    rw [← h, ofUtf8?_utf8]

/-- Bytes are no text exactly if no text has them as its UTF-8 form. -/
theorem ofUtf8?_eq_none_iff {bytes : List UInt8} :
    ofUtf8? bytes = none ↔ ∀ text, utf8 text ≠ bytes := by
  rw [Option.eq_none_iff_forall_ne_some]
  exact forall_congr' fun _ => not_congr ofUtf8?_eq_some_iff

/-- The bytes of a text behind a part of it are those of the rest. -/
theorem drop_utf8_append {front : List Char} {width : Nat} (h : byteLength front = width)
    (rest : List Char) : (utf8 (front ++ rest)).drop width = utf8 rest := by
  rw [utf8, List.flatMap_append]
  exact List.drop_left' h

/-- An ASCII character is one byte. -/
theorem length_utf8EncodeChar {c : Char} (h : isAscii c = true) :
    (String.utf8EncodeChar c).length = 1 := by
  have hcode : c.toNat < 128 := by simpa [isAscii] using h
  rw [String.length_utf8EncodeChar, Char.utf8Size_eq_one_iff, UInt32.le_iff_toNat_le]
  exact Nat.le_of_lt_succ hcode

/-- Text has at least as many bytes as characters. -/
theorem length_le_byteLength (text : List Char) : text.length ≤ byteLength text := by
  unfold byteLength utf8
  induction text with
  | nil => exact Nat.le_refl _
  | cons c text ih =>
    have hpos : 1 ≤ (String.utf8EncodeChar c).length := by
      rw [String.length_utf8EncodeChar]
      exact c.utf8Size_pos
    rw [List.flatMap_cons, List.length_append, List.length_cons]
    omega

/-- ASCII text has as many bytes as characters. -/
theorem byteLength_of_ascii {text : List Char} (h : text.all isAscii = true) :
    byteLength text = text.length := by
  unfold byteLength utf8
  induction text with
  | nil => rfl
  | cons c text ih =>
    rw [List.all_cons, Bool.and_eq_true] at h
    rw [List.flatMap_cons, List.length_append, length_utf8EncodeChar h.1, ih h.2,
      List.length_cons, Nat.add_comm]

theorem all_isAscii_iff {text : List Char} :
    text.all isAscii = true ↔ ∀ c ∈ text, c.toNat < 128 := by
  simp only [List.all_eq_true, isAscii, decide_eq_true_eq]

/-- An ASCII text has as many bytes as characters. -/
theorem byteLength_eq {text : List Char} (h : ∀ c ∈ text, c.toNat < 128) :
    byteLength text = text.length := byteLength_of_ascii (all_isAscii_iff.2 h)

namespace FixedText

variable {width : Nat}

/-- Characters are taken for the text that has them, and for no other. -/
theorem ofChars?_eq_some_iff {chars : List Char} {text : FixedText width} :
    ofChars? width chars = some text ↔ text.chars = chars := by
  unfold ofChars?
  constructor
  · intro h
    split at h
    · split at h
      · cases h
        rfl
      · contradiction
    · contradiction
  · intro h
    subst h
    rw [dif_pos text.ascii, dif_pos text.length_chars]

end FixedText

end LinkCommittee
