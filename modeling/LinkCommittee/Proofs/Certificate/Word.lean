import LinkCommittee.Certificate.Slot
import LinkCommittee.Proofs.Bytes
import Mathlib.Data.Nat.ModEq

/-!
# Numbers in storage words

A word is told by the number it spells.  To advance it is to add to that number modulo
`2 ^ 256`, which no two numbers of 64 bits do with the same result.  A count is taken out
of a word exactly when the number of the word is that count, so a word is refused as soon
as its number takes more than 64 bits.
-/

namespace LinkCommittee

namespace Word

/-- Words are told apart by their numbers. -/
theorem toNat_injective : Function.Injective toNat := by
  intro a b h
  have hbytes : a.bytes = b.bytes := Octets.toNat_injective h
  cases a
  cases b
  rw [mk.injEq]
  exact hbytes

theorem toNat_lt (w : Word) : w.toNat < 2 ^ 256 := w.bytes.toNat_lt

/-- The word of a number spells it. -/
theorem toNat_ofUInt64 (number : UInt64) : (ofUInt64 number).toNat = number.toNat := by
  have hlt : number.toNat < 256 ^ 32 := Nat.lt_trans number.toNat_lt (by decide)
  exact Octets.toNat_ofNat hlt

theorem eq_ofUInt64_iff {w : Word} {number : UInt64} :
    w = ofUInt64 number ↔ w.toNat = number.toNat := by
  rw [← toNat_injective.eq_iff, toNat_ofUInt64]

/-- To advance a word is to add to its number, modulo `2 ^ 256`. -/
theorem toNat_advance (w : Word) (n : UInt64) :
    (w.advance n).toNat = (w.toNat + n.toNat) % 2 ^ 256 :=
  Octets.toNat_ofNat_mod _

/-! ### Advancing -/

theorem advance_eq_iff {w v : Word} {n : UInt64} :
    w.advance n = v ↔ v.toNat = (w.toNat + n.toNat) % 2 ^ 256 := by
  rw [← toNat_injective.eq_iff, toNat_advance, eq_comm]

/-- Two advances are one by their sum, around the end of the storage or not. -/
theorem advance_advance (w : Word) {m n k : UInt64} (h : m.toNat + n.toNat = k.toNat) :
    (w.advance m).advance n = w.advance k := by
  apply toNat_injective
  rw [toNat_advance, toNat_advance, toNat_advance, Nat.mod_add_mod, Nat.add_assoc, h]

/-- The order of two advances is of no account, also where their sum is no 64-bit number. -/
theorem advance_comm (w : Word) (m n : UInt64) :
    (w.advance m).advance n = (w.advance n).advance m := by
  apply toNat_injective
  rw [toNat_advance, toNat_advance, toNat_advance, toNat_advance, Nat.mod_add_mod,
    Nat.mod_add_mod, Nat.add_right_comm]

/-- **Advances by different numbers end in different words.**  An advance is too short to go all
the way around the storage. -/
theorem advance_injective (w : Word) : Function.Injective w.advance := by
  intro m n h
  have hnumbers : w.toNat + m.toNat ≡ w.toNat + n.toNat [MOD 2 ^ 256] := by
    have hends := congrArg toNat h
    rwa [toNat_advance, toNat_advance] at hends
  have hm : m.toNat < 2 ^ 256 := Nat.lt_trans m.toNat_lt (by decide)
  have hn : n.toNat < 2 ^ 256 := Nat.lt_trans n.toNat_lt (by decide)
  exact UInt64.toNat_inj.1 ((Nat.ModEq.add_left_cancel' _ hnumbers).eq_of_lt_of_lt hm hn)

/-! ### Moving by a byte -/

/-- A word moved by one byte is a zero byte and the word without its last byte. -/
theorem shiftRight_eq_iff {w moved : Word} :
    w.shiftRight = moved ↔ moved.bytes.toList = 0 :: w.bytes.toList.take 31 := by
  constructor
  · intro h
    rw [← h]
    rfl
  · intro h
    cases moved
    rw [shiftRight, mk.injEq]
    exact Octets.ext h.symm

/-! ### Counts -/

/-- The first 24 bytes of a word count in units of `2 ^ 64`. -/
theorem toNat_split (w : Word) :
    w.toNat = natOfBigEndian (w.bytes.toList.take 24) * 2 ^ 64 +
      natOfBigEndian (w.bytes.toList.drop 24) ∧
    natOfBigEndian (w.bytes.toList.drop 24) < 2 ^ 64 := by
  have hlength : (w.bytes.toList.drop 24).length = 8 := by
    rw [List.length_drop, w.bytes.length_toList]
  have hlow := natOfBigEndian_lt (w.bytes.toList.drop 24)
  have hsplit := natOfBigEndian_append (w.bytes.toList.take 24) (w.bytes.toList.drop 24)
  rw [List.take_append_drop] at hsplit
  rw [hlength] at hlow hsplit
  exact ⟨hsplit, hlow⟩

/-- **A count is taken out of the words that spell it.**  The first 24 bytes count in units of `2 ^
64`, so they are zero exactly for numbers of 64 bits. -/
theorem toUInt64?_eq_some_iff {w : Word} {count : UInt64} :
    w.toUInt64? = some count ↔ w.toNat = count.toNat := by
  obtain ⟨hsplit, hlow⟩ := w.toNat_split
  have hzeros : (w.bytes.toList.take 24).all (· == 0) = true ↔
      natOfBigEndian (w.bytes.toList.take 24) = 0 := by
    rw [natOfBigEndian_eq_zero_iff]
    simp
  have hcount : count.toNat < 2 ^ 64 := count.toNat_lt
  have hread : UInt64.ofNat (natOfBigEndian (w.bytes.toList.drop 24)) = count ↔
      natOfBigEndian (w.bytes.toList.drop 24) = count.toNat := by
    rw [← UInt64.toNat_inj, UInt64.toNat_ofNat_of_lt' hlow]
  unfold toUInt64?
  by_cases h : natOfBigEndian (w.bytes.toList.take 24) = 0
  · rw [if_pos (hzeros.2 h), Option.some_inj, hread]
    omega
  · rw [if_neg (mt hzeros.1 h)]
    have hlarge : w.toNat ≠ count.toNat := by omega
    simp [hlarge]

/-- No count is taken out of a word whose number takes more than 64 bits. -/
theorem toUInt64?_eq_none_iff {w : Word} : w.toUInt64? = none ↔ 2 ^ 64 ≤ w.toNat := by
  rw [Option.eq_none_iff_forall_ne_some]
  constructor
  · intro h
    by_contra hlt
    exact h (UInt64.ofNat w.toNat)
      (toUInt64?_eq_some_iff.2 (UInt64.toNat_ofNat_of_lt' (Nat.lt_of_not_le hlt)).symm)
  · intro h count hcount
    have hlt : count.toNat < 2 ^ 64 := count.toNat_lt
    rw [← toUInt64?_eq_some_iff.1 hcount] at hlt
    exact Nat.not_le_of_lt hlt h

end Word

end LinkCommittee
