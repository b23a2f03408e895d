import LinkCommittee.Text.Decimal
import LinkCommittee.Proofs.Text.Basic
import Mathlib.Data.List.Induction
import Mathlib.Data.Nat.Digits.Defs

/-!
# Decimal text and numbers

A text spells a number when it consists of decimal digits whose weighted sum is the
number.  Writing a number in a fixed width spells it, as long as it fits, and a text of
digits is what writing its number in the width of the text gives.  A field is read
exactly when it spells a number of 64 bits.
-/

namespace LinkCommittee.Decimal

/-- The numbers for which the digits of a text stand, the last one first. -/
def digitValues (text : List Char) : List Nat := text.reverse.map fun c => c.toNat - 48

/-- A text consists of decimal digits and they spell a number. -/
structure Spells (text : List Char) (number : Nat) : Prop where
  digits : ∀ c ∈ text, '0' ≤ c ∧ c ≤ '9'
  sum_eq : Nat.ofDigits 10 (digitValues text) = number

theorem isDigit_iff {c : Char} : c.isDigit = true ↔ '0' ≤ c ∧ c ≤ '9' := by
  rw [Char.isDigit, Bool.and_eq_true, decide_eq_true_eq, decide_eq_true_eq]
  exact Iff.rfl

/-- One more digit at the end makes the others worth ten times as much. -/
theorem value_append_singleton (digits : List Char) (c : Char) :
    value (digits ++ [c]) = 10 * value digits + (c.toNat - 48) := by
  rw [value, List.foldl_append]
  rfl

/-- The value of a text is the weighted sum of its digits. -/
theorem value_eq_ofDigits (text : List Char) :
    value text = Nat.ofDigits 10 (digitValues text) := by
  induction text using List.reverseRecOn with
  | nil => rfl
  | append_singleton digits c ih =>
    have hvalues : digitValues (digits ++ [c]) = (c.toNat - 48) :: digitValues digits := by
      simp [digitValues]
    rw [value_append_singleton, hvalues, Nat.ofDigits_cons, ← ih, Nat.add_comm]

/-- A text that spells a number is read as that number. -/
theorem Spells.value_eq {text : List Char} {number : Nat} (h : Spells text number) :
    value text = number := (value_eq_ofDigits text).trans h.sum_eq

/-! ### Writing -/

theorem toNat_digit {digit : Nat} (h : digit < 10) : (Char.ofNat (48 + digit)).toNat = 48 + digit := by
  revert digit
  decide

@[simp] theorem length_padded (width number : Nat) : (padded width number).length = width := by
  induction width generalizing number with
  | zero => rfl
  | succ width ih => rw [padded, List.length_append, ih, List.length_singleton]

theorem digits_padded (width number : Nat) : ∀ c ∈ padded width number, '0' ≤ c ∧ c ≤ '9' := by
  induction width generalizing number with
  | zero =>
    intro c hc
    cases hc
  | succ width ih =>
    intro c hc
    rw [padded, List.mem_append, List.mem_singleton] at hc
    rcases hc with hc | rfl
    · exact ih _ c hc
    · have hdigit : ∀ digit < 10, '0' ≤ Char.ofNat (48 + digit) ∧
          Char.ofNat (48 + digit) ≤ '9' := by decide
      exact hdigit _ (Nat.mod_lt _ (by decide))

/-- What is spelled with some digits is read back, as far as they go. -/
theorem value_padded (width number : Nat) : value (padded width number) = number % 10 ^ width := by
  induction width generalizing number with
  | zero => rw [padded, pow_zero, Nat.mod_one, value, List.foldl_nil]
  | succ width ih =>
    have hdigit : number % 10 < 10 := Nat.mod_lt _ (by decide)
    rw [padded, value_append_singleton, ih, toNat_digit hdigit, pow_succ', Nat.mod_mul]
    omega

/-- Twenty places hold the numbers of 64 bits. -/
theorem lt_ten_pow {width number : Nat} (hwidth : 20 ≤ width) (h : number < 2 ^ 64) :
    number < 10 ^ width := by
  have htwenty : (2 : Nat) ^ 64 < 10 ^ 20 := by decide
  exact Nat.lt_of_lt_of_le (Nat.lt_trans h htwenty) (Nat.pow_le_pow_right (by decide) hwidth)

/-- **A number is spelled by its text**, in every width that holds it. -/
theorem spells_padded {width number : Nat} (h : number < 10 ^ width) :
    Spells (padded width number) number := by
  refine ⟨digits_padded width number, ?_⟩
  rw [← value_eq_ofDigits, value_padded, Nat.mod_eq_of_lt h]

/-- **A text of digits is written as it is read**, in its own width. -/
theorem Spells.padded_eq {text : List Char} {number : Nat} (h : Spells text number) :
    padded text.length number = text := by
  obtain ⟨hdigits, rfl⟩ := h
  rw [← value_eq_ofDigits]
  induction text using List.reverseRecOn with
  | nil => rfl
  | append_singleton digits c ih =>
    have hlast : '0' ≤ c ∧ c ≤ '9' := hdigits c (by simp)
    have hbounds : 48 ≤ c.toNat ∧ c.toNat ≤ 57 := Char.toNat_bounds hlast
    have hinit : padded digits.length (value digits) = digits :=
      ih fun d hd => hdigits d (List.mem_append_left _ hd)
    have hdiv : (10 * value digits + (c.toNat - 48)) / 10 = value digits := by omega
    have hmod : (10 * value digits + (c.toNat - 48)) % 10 = c.toNat - 48 := by omega
    rw [value_append_singleton, List.length_append, List.length_singleton, padded, hdiv, hmod,
      hinit, ← Char.eq_ofNat_add_sub hbounds.1]

/-- A text spells one number. -/
theorem Spells.unique {text : List Char} {number number' : Nat} (h : Spells text number)
    (h' : Spells text number') : number = number' := h.sum_eq.symm.trans h'.sum_eq

/-- What stands in front of a digit that is put behind a padded text is padded still. -/
theorem leftpad_append_singleton (width : Nat) (text : List Char) (c : Char) :
    text.leftpad width '0' ++ [c] = (text ++ [c]).leftpad (width + 1) '0' := by
  rw [List.leftpad, List.leftpad, List.length_append, List.length_singleton,
    Nat.add_sub_add_right, List.append_assoc]

theorem padded_zero (width : Nat) : padded width 0 = List.replicate width '0' := by
  induction width with
  | zero => rfl
  | succ width ih =>
    rw [padded, Nat.zero_div, ih, List.replicate_succ']

/-- **A number is written with as many zeros in front of its digits as the width leaves room for.** -/
theorem padded_eq_leftpad {width number : Nat} (hwidth : 0 < width) (h : number < 10 ^ width) :
    padded width number = (Nat.toDigits 10 number).leftpad width '0' := by
  induction width generalizing number with
  | zero => contradiction
  | succ width ih =>
    have hdigit : ∀ digit < 10, Nat.digitChar digit = Char.ofNat (48 + digit) := by decide
    rw [padded, Nat.toDigits_eq_if (by decide)]
    by_cases hsmall : number < 10
    · have hfront : padded width (number / 10) = List.replicate width '0' := by
        rw [Nat.div_eq_of_lt hsmall, padded_zero]
      rw [if_pos hsmall, hfront, Nat.mod_eq_of_lt hsmall, hdigit number hsmall]
      rfl
    · have hroom : 0 < width := by
        rcases Nat.eq_zero_or_pos width with rfl | hpos
        · exact absurd h hsmall
        · exact hpos
      have hfront : number / 10 < 10 ^ width := by
        rw [pow_succ] at h
        exact Nat.div_lt_of_lt_mul (Nat.mul_comm _ _ ▸ h)
      rw [if_neg hsmall, ih hroom hfront, leftpad_append_singleton,
        hdigit _ (Nat.mod_lt _ (by decide))]

/-- Decimal text is ASCII. -/
theorem all_isAscii_padded (width number : Nat) : (padded width number).all isAscii = true := by
  rw [List.all_eq_true]
  intro c hc
  have hbounds : 48 ≤ c.toNat ∧ c.toNat ≤ 57 := Char.toNat_bounds (digits_padded width number c hc)
  exact decide_eq_true (by omega : c.toNat < 128)

/-! ### Reading -/

/-- **A field is read exactly when it spells a number of 64 bits.**  Signs, blanks and numbers of
more bits are refused. -/
theorem read?_eq_some_iff {text : List Char} (hne : text ≠ []) {number : UInt64} :
    read? text = some number ↔ Spells text number.toNat := by
  have hdigits : text.all Char.isDigit = true ↔ ∀ c ∈ text, '0' ≤ c ∧ c ≤ '9' := by
    simp only [List.all_eq_true, isDigit_iff]
  unfold read?
  constructor
  · intro h
    split at h
    next hread =>
      obtain ⟨-, htext, hlt⟩ := hread
      cases h
      refine ⟨hdigits.1 htext, ?_⟩
      rw [← value_eq_ofDigits, UInt64.toNat_ofNat_of_lt' hlt]
    · contradiction
  · intro h
    have hlt : value text < UInt64.size := by
      rw [h.value_eq]
      exact number.toNat_lt
    rw [if_pos ⟨hne, hdigits.2 h.digits, hlt⟩, h.value_eq, UInt64.ofNat_toNat]

/-- A field that is not read spells no number of 64 bits. -/
theorem read?_eq_none_iff {text : List Char} (hne : text ≠ []) :
    read? text = none ↔ ¬∃ number < 2 ^ 64, Spells text number := by
  rw [← not_iff_not, not_not, ← ne_eq, Option.ne_none_iff_exists']
  constructor
  · intro h
    obtain ⟨number, hread⟩ := h
    exact ⟨number.toNat, number.toNat_lt, (read?_eq_some_iff hne).1 hread⟩
  · intro h
    obtain ⟨number, hlt, hspells⟩ := h
    rw [← UInt64.toNat_ofNat_of_lt' hlt] at hspells
    exact ⟨UInt64.ofNat number, (read?_eq_some_iff hne).2 hspells⟩

end LinkCommittee.Decimal
