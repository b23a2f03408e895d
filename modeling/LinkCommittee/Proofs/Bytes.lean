import LinkCommittee.Bytes
import Mathlib.Algebra.Order.Ring.Nat
import Mathlib.Data.Nat.Digits.Defs
import Mathlib.Tactic.Ring

/-!
# Numerals in base 256

The number that bytes spell is their sum weighted by the powers of 256.  Writing a number
in a fixed width and reading it back reduces it modulo the number of texts of that width;
reading a byte string and writing it in its own width gives it back.  Both laws hold for
either order of the bytes.
-/

namespace LinkCommittee

/-- The first byte of a little-endian number is its last digit to the base 256. -/
theorem natOfLittleEndian_eq_ofDigits (bytes : List UInt8) :
    natOfLittleEndian bytes = Nat.ofDigits 256 (bytes.map UInt8.toNat) := by
  induction bytes with
  | nil => rfl
  | cons byte bytes ih => rw [natOfLittleEndian, ih, List.map_cons, Nat.ofDigits_cons]

/-- The number of bytes is their weighted sum, the last byte having weight one. -/
theorem natOfBigEndian_eq_ofDigits (bytes : List UInt8) :
    natOfBigEndian bytes = Nat.ofDigits 256 (bytes.reverse.map UInt8.toNat) :=
  natOfLittleEndian_eq_ofDigits bytes.reverse

/-- In a numeral with the greatest weight in front, the first digit counts in units of what fits in
the digits behind it. -/
theorem ofDigits_reverse_cons {α : Type} (base : Nat) (weight : α → Nat) (digit : α)
    (digits : List α) :
    Nat.ofDigits base ((digit :: digits).reverse.map weight) =
      weight digit * base ^ digits.length + Nat.ofDigits base (digits.reverse.map weight) := by
  rw [List.reverse_cons, List.map_append, Nat.ofDigits_append, List.map_singleton,
    Nat.ofDigits_singleton, List.length_map, List.length_reverse]
  ring

/-- Reading what was written loses what does not fit in the width. -/
theorem natOfLittleEndian_littleEndian (width number : Nat) :
    natOfLittleEndian (littleEndian width number) = number % 256 ^ width := by
  induction width generalizing number with
  | zero => rw [pow_zero, Nat.mod_one, littleEndian, natOfLittleEndian]
  | succ width ih =>
    have hdigit : (UInt8.ofNat (number % 256)).toNat = number % 256 :=
      UInt8.toNat_ofNat_of_lt' (Nat.mod_lt _ (by decide))
    rw [littleEndian, natOfLittleEndian, ih, hdigit, pow_succ', Nat.mod_mul]

/-- Writing what was read gives the bytes back. -/
theorem littleEndian_natOfLittleEndian (bytes : List UInt8) :
    littleEndian bytes.length (natOfLittleEndian bytes) = bytes := by
  induction bytes with
  | nil => rfl
  | cons byte bytes ih =>
    have hbyte : byte.toNat < 256 := byte.toNat_lt
    have hdigit : (byte.toNat + 256 * natOfLittleEndian bytes) % 256 = byte.toNat := by omega
    have hrest : (byte.toNat + 256 * natOfLittleEndian bytes) / 256 = natOfLittleEndian bytes := by
      omega
    rw [natOfLittleEndian, List.length_cons, littleEndian, hdigit, hrest, ih, UInt8.ofNat_toNat]

/-- What is spelled most significant byte first is read back, as far as the width goes. -/
theorem natOfBigEndian_bigEndian (width number : Nat) :
    natOfBigEndian (bigEndian width number) = number % 256 ^ width := by
  rw [natOfBigEndian, bigEndian, List.reverse_reverse, natOfLittleEndian_littleEndian]

/-- Bytes spell the number that they were read as. -/
theorem bigEndian_natOfBigEndian (bytes : List UInt8) :
    bigEndian bytes.length (natOfBigEndian bytes) = bytes := by
  rw [natOfBigEndian, bigEndian, ← List.length_reverse, littleEndian_natOfLittleEndian,
    List.reverse_reverse]

/-- The last byte of a number is its last digit. -/
theorem bigEndian_succ (width number : Nat) :
    bigEndian (width + 1) number =
      bigEndian width (number / 256) ++ [UInt8.ofNat (number % 256)] := List.reverse_cons

/-- Bytes behind others weigh one power of 256 more for each of these. -/
theorem natOfLittleEndian_append (low high : List UInt8) :
    natOfLittleEndian (low ++ high) =
      natOfLittleEndian low + 256 ^ low.length * natOfLittleEndian high := by
  induction low with
  | nil => simp [natOfLittleEndian]
  | cons byte low ih =>
    rw [List.cons_append, natOfLittleEndian, ih, natOfLittleEndian, List.length_cons, pow_succ']
    ring

/-- The bytes in front count in units of what fits in the bytes behind them. -/
theorem natOfBigEndian_append (high low : List UInt8) :
    natOfBigEndian (high ++ low) =
      natOfBigEndian high * 256 ^ low.length + natOfBigEndian low := by
  rw [natOfBigEndian, List.reverse_append, natOfLittleEndian_append, List.length_reverse]
  simp only [natOfBigEndian]
  ring

/-- A byte in front weighs as many powers of 256 as there are bytes behind it. -/
theorem natOfBigEndian_cons (byte : UInt8) (bytes : List UInt8) :
    natOfBigEndian (byte :: bytes) = byte.toNat * 256 ^ bytes.length + natOfBigEndian bytes := by
  have hbyte : natOfBigEndian [byte] = byte.toNat := Nat.add_zero _
  rw [← List.singleton_append, natOfBigEndian_append, hbyte]

/-- The number of some bytes is below 256 to the power of their count. -/
theorem natOfBigEndian_lt (bytes : List UInt8) : natOfBigEndian bytes < 256 ^ bytes.length := by
  rw [← bigEndian_natOfBigEndian bytes, natOfBigEndian_bigEndian, length_bigEndian]
  exact Nat.mod_lt _ (Nat.pow_pos (by decide))

/-- A number is zero exactly if all its bytes are. -/
theorem natOfLittleEndian_eq_zero_iff {bytes : List UInt8} :
    natOfLittleEndian bytes = 0 ↔ ∀ byte ∈ bytes, byte = 0 := by
  induction bytes with
  | nil => simp [natOfLittleEndian]
  | cons byte bytes ih =>
    have hbyte : byte.toNat = (0 : UInt8).toNat ↔ byte = 0 := UInt8.toNat_inj
    rw [UInt8.toNat_zero] at hbyte
    rw [natOfLittleEndian, List.forall_mem_cons, ← ih, ← hbyte]
    omega

/-- A number is zero exactly if all its bytes are. -/
theorem natOfBigEndian_eq_zero_iff {bytes : List UInt8} :
    natOfBigEndian bytes = 0 ↔ ∀ byte ∈ bytes, byte = 0 := by
  rw [natOfBigEndian, natOfLittleEndian_eq_zero_iff]
  simp only [List.mem_reverse]

namespace Octets

variable {n : Nat}

/-- Byte strings of one length are told apart by their bytes. -/
@[ext] theorem ext {a b : Octets n} (h : a.toList = b.toList) : a = b := by
  cases a
  cases b
  subst h
  rfl

/-- The bytes of a byte string are taken for it. -/
theorem ofList?_toList (bytes : Octets n) : ofList? n bytes.toList = some bytes :=
  dif_pos bytes.length_toList

/-- A list is taken for the byte string that has its bytes, and for no other. -/
theorem ofList?_eq_some_iff {list : List UInt8} {bytes : Octets n} :
    ofList? n list = some bytes ↔ bytes.toList = list := by
  constructor
  · intro h
    unfold ofList? at h
    split at h
    · cases h
      rfl
    · contradiction
  · intro h
    rw [← h, ofList?_toList]

/-- A byte string spells the number it was made of as far as its length goes. -/
theorem toNat_ofNat_mod (number : Nat) : (ofNat n number).toNat = number % 256 ^ n :=
  natOfBigEndian_bigEndian n number

/-- A byte string spells the number it was made of if its length is enough. -/
theorem toNat_ofNat {number : Nat} (h : number < 256 ^ n) : (ofNat n number).toNat = number := by
  rw [toNat_ofNat_mod, Nat.mod_eq_of_lt h]

/-- The number of a byte string is below 256 to the power of its length. -/
theorem toNat_lt (bytes : Octets n) : bytes.toNat < 256 ^ n := by
  have h := natOfBigEndian_lt bytes.toList
  rwa [bytes.length_toList] at h

/-- The number of a byte string makes the byte string. -/
theorem ofNat_toNat (bytes : Octets n) : ofNat n bytes.toNat = bytes := by
  apply ext
  have h := bigEndian_natOfBigEndian bytes.toList
  rwa [bytes.length_toList] at h

/-- Byte strings of one length are told apart by their numbers. -/
theorem toNat_injective : Function.Injective (toNat : Octets n → Nat) :=
  Function.LeftInverse.injective ofNat_toNat

end Octets

end LinkCommittee
