import LinkCommittee.Proofs.Certificate.Word

/-!
# The slots of a field

A slot of a field is told by its place: it stands behind a digest, by as many words as its
index says (`IsSlot`).  What is digested is the base of the field, spelled in a word, and for
a mapping the key of the entry in front of it.  The slots of one field follow the digest
around the end of the storage, and an index is too small to come around to a slot that
another index has.

Main statements: `positionalSlot_eq_iff` and `Word.advance_arithmetic`.
-/

namespace LinkCommittee

/-- Where the slots of the field at `base` are: an element of the array stands behind the digest of
the base, a member of an entry of the mapping behind the digest of the entry's key and the base. -/
inductive IsSlot (base index : UInt64) : Option Word → Word → Prop
  | element (spelled slot : Word) (base_eq : spelled.toNat = base.toNat)
      (place : slot.toNat =
        ((Keccak.digest spelled.bytes.toList).toNat + index.toNat) % 2 ^ 256) :
      IsSlot base index none slot
  | member (key spelled slot : Word) (base_eq : spelled.toNat = base.toNat)
      (place : slot.toNat =
        ((Keccak.digest (key.bytes.toList ++ spelled.bytes.toList)).toNat + index.toNat) %
          2 ^ 256) :
      IsSlot base index (some key) slot

/-- The slot that is computed is where the field has it. -/
theorem positionalSlot_isSlot (base : UInt64) (key : Option Word) (index : UInt64) :
    IsSlot base index key (positionalSlot base key index) := by
  have hbase := Word.toNat_ofUInt64 base
  cases key with
  | none => exact .element _ _ hbase (Word.toNat_advance _ index)
  | some key => exact .member key _ _ hbase (Word.toNat_advance _ index)

/-- **A field has one slot for an index**, and that slot is computed. -/
theorem positionalSlot_eq_iff {base index : UInt64} {key : Option Word} {slot : Word} :
    positionalSlot base key index = slot ↔ IsSlot base index key slot := by
  constructor
  · intro h
    rw [← h]
    exact positionalSlot_isSlot base key index
  · intro h
    cases h with
    | element spelled slot base_eq place =>
      obtain rfl := Word.eq_ofUInt64_iff.2 base_eq
      exact Word.advance_eq_iff.2 place
    | member key spelled slot base_eq place =>
      obtain rfl := Word.eq_ofUInt64_iff.2 base_eq
      exact Word.advance_eq_iff.2 place

/-- What holds where a field has its slot holds of the slot that is computed. -/
theorem forall_isSlot_iff {base index : UInt64} {key : Option Word} {p : Word → Prop} :
    (∀ slot, IsSlot base index key slot → p slot) ↔ p (positionalSlot base key index) := by
  simp only [← positionalSlot_eq_iff, forall_eq']

/-- **Members of one field have different slots**, whatever the digest that they follow. -/
theorem positionalSlot_injective (base : UInt64) (key : Option Word) :
    Function.Injective (positionalSlot base key) := by
  intro m n h
  exact Word.advance_injective _ h

/-- The data of a text follows the digest of its field. -/
theorem textSlot_eq (field : Word) : textSlot field = ⟨Keccak.digest field.bytes.toList⟩ := by
  rw [textSlot, derivedSlot, List.append_nil]

namespace Word

/-- **Advancing a word is addition modulo `2 ^ 256`.**  The number of a word is the one that its
bytes spell, the first byte having the greatest weight, and an advance adds to it.  Advances
compose to the advance by their sum if that takes 64 bits, and may be exchanged in any case.
Different advances lead to different words, also around the end of the storage, so the members of
one field have different slots.  A count is taken out of the word that spells it and of no other,
and out of none whose number takes more than 64 bits. -/
theorem advance_arithmetic :
    (∀ w : Word, w.toNat = Nat.ofDigits 256 (w.bytes.toList.reverse.map UInt8.toNat)) ∧
    (∀ (w v : Word) (n : UInt64),
      w.advance n = v ↔ v.toNat = (w.toNat + n.toNat) % 2 ^ 256) ∧
    (∀ (w : Word) (m n : UInt64), m.toNat + n.toNat < 2 ^ 64 →
      (w.advance m).advance n = w.advance (m + n)) ∧
    (∀ (w : Word) (m n : UInt64), (w.advance m).advance n = (w.advance n).advance m) ∧
    (∀ (w : Word) (m n : UInt64), w.advance m = w.advance n ↔ m = n) ∧
    (∀ (base : UInt64) (key : Option Word) (m n : UInt64),
      positionalSlot base key m = positionalSlot base key n ↔ m = n) ∧
    (∀ (w : Word) (count : UInt64), w.toUInt64? = some count ↔ w = ofUInt64 count) ∧
    (∀ (w : Word) (count : UInt64), w = ofUInt64 count ↔ w.toNat = count.toNat) ∧
    ∀ w : Word, w.toUInt64? = none ↔ 2 ^ 64 ≤ w.toNat := by
  refine ⟨fun w => natOfBigEndian_eq_ofDigits _, fun w v n => advance_eq_iff, ?_,
    advance_comm, fun w m n => w.advance_injective.eq_iff,
    fun base key m n => (positionalSlot_injective base key).eq_iff,
    fun w count => toUInt64?_eq_some_iff.trans eq_ofUInt64_iff.symm,
    fun w count => eq_ofUInt64_iff, fun w => toUInt64?_eq_none_iff⟩
  intro w m n hsum
  apply advance_advance
  rw [UInt64.toNat_add, Nat.mod_eq_of_lt hsum]

/-- From the last word of the storage an advance in two steps goes around its end, and the number of
the word where it ends fits in 64 bits again. -/
theorem advance_arithmetic_last :
    let last : Word := ⟨⟨List.replicate 32 0xff, List.length_replicate⟩⟩
    let half : UInt64 := 0x8000000000000000
    let less : UInt64 := 0x7fffffffffffffff
    half.toNat + less.toNat < 2 ^ 64 ∧
      (last.advance half).advance less = last.advance (half + less) ∧
      last.toUInt64? = none ∧
      (last.advance (half + less)).toUInt64? = some 0xfffffffffffffffe := by
  intro last half less
  obtain ⟨-, hends, hsum, -, -, -, hcount, -, hlarge⟩ := advance_arithmetic
  have hlast : last.toNat = 2 ^ 256 - 1 := by decide +kernel
  have hfits : half.toNat + less.toNat < 2 ^ 64 := by decide +kernel
  refine ⟨hfits, hsum last half less hfits, (hlarge last).2 ?_, (hcount _ _).2 ?_⟩
  · rw [hlast]
    decide
  · rw [hends, hlast, toNat_ofUInt64]
    decide +kernel

end Word

end LinkCommittee
