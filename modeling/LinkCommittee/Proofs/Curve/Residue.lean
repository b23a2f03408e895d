import LinkCommittee.Curve.Field
import Mathlib.Data.ZMod.Basic
import Mathlib.FieldTheory.Finite.Basic
import Mathlib.Tactic.LinearCombination

/-!
# The arithmetic of residues

Residues modulo `m` are compared with `ZMod m`.  The comparison respects every
operation, so residues form a commutative ring; for a prime modulus the exponent
`m - 2` inverts every residue but zero, and they form a field.  The ring's power is
the one by squaring, so powers of residues can be evaluated.
-/

namespace LinkCommittee.Residue

variable {m : Nat}

/-- A residue as an element of `ZMod m`. -/
def toZMod (a : Residue m) : ZMod m := a.val

/-- To reduce a number is to take its class. -/
theorem toZMod_reduce (pos : 0 < m) (number : Nat) :
    toZMod (reduce pos number) = (number : ZMod m) := by
  simp [toZMod, reduce]

/-- Residues are told apart by their classes. -/
theorem toZMod_injective : Function.Injective (toZMod : Residue m → ZMod m) := by
  rintro ⟨a, ha⟩ ⟨b, hb⟩ h
  have hmod : a % m = b % m := (ZMod.natCast_eq_natCast_iff' a b m).1 h
  rw [Nat.mod_eq_of_lt ha, Nat.mod_eq_of_lt hb] at hmod
  subst hmod
  rfl

/-- Sums are taken in the classes. -/
theorem toZMod_add (a b : Residue m) : toZMod (a + b) = toZMod a + toZMod b := by
  rw [show a + b = reduce a.modulus_pos (a.val + b.val) from rfl, toZMod_reduce]
  exact Nat.cast_add a.val b.val

/-- Products are taken in the classes. -/
theorem toZMod_mul (a b : Residue m) : toZMod (a * b) = toZMod a * toZMod b := by
  rw [show a * b = reduce a.modulus_pos (a.val * b.val) from rfl, toZMod_reduce]
  exact Nat.cast_mul a.val b.val

/-- The complement of a representative is the negative of its class. -/
theorem cast_complement (a : Residue m) : ((m - a.val : Nat) : ZMod m) = -toZMod a := by
  rw [Nat.cast_sub (Nat.le_of_lt a.val_lt)]
  simp [toZMod]

/-- Opposites are taken in the classes. -/
theorem toZMod_neg (a : Residue m) : toZMod (-a) = -toZMod a := by
  rw [show -a = reduce a.modulus_pos (m - a.val) from rfl, toZMod_reduce, cast_complement]

/-- Differences are taken in the classes. -/
theorem toZMod_sub (a b : Residue m) : toZMod (a - b) = toZMod a - toZMod b := by
  rw [show a - b = reduce a.modulus_pos (a.val + (m - b.val)) from rfl, toZMod_reduce,
    Nat.cast_add, cast_complement]
  exact (sub_eq_add_neg _ _).symm

/-- Squaring through an exponent computes the power by the bits that are read. -/
theorem toZMod_powBits (a : Residue m) (width exponent : Nat) (h : exponent < 2 ^ width) :
    toZMod (powBits a width exponent) = toZMod a ^ exponent := by
  induction width generalizing exponent with
  | zero =>
    have hzero : exponent = 0 := by simpa using h
    simp [hzero, powBits, toZMod_reduce]
  | succ width ih =>
    have hhalf : exponent / 2 < 2 ^ width := by omega
    have hroot : toZMod (powBits a width (exponent / 2)).square =
        toZMod a ^ (exponent / 2 + exponent / 2) := by
      rw [square, toZMod_mul, ih _ hhalf, pow_add]
    by_cases hodd : exponent % 2 = 1
    · have hsplit : exponent = exponent / 2 + exponent / 2 + 1 := by omega
      simp only [powBits, hodd, if_true]
      rw [toZMod_mul, hroot, ← pow_succ, ← hsplit]
    · have hsplit : exponent = exponent / 2 + exponent / 2 := by omega
      simp only [powBits, hodd, if_false]
      rw [hroot, ← hsplit]

/-- The power that squares and multiplies is the power in the classes. -/
theorem toZMod_power (a : Residue m) (exponent : Nat) :
    toZMod (a.power exponent) = toZMod a ^ exponent :=
  toZMod_powBits a _ exponent Nat.lt_log2_self

section Ring

variable [NeZero m]

instance : Zero (Residue m) := ⟨reduce (NeZero.pos m) 0⟩
instance : One (Residue m) := ⟨reduce (NeZero.pos m) 1⟩
instance : NatCast (Residue m) := ⟨reduce (NeZero.pos m)⟩
instance : IntCast (Residue m) := ⟨fun n => reduce (NeZero.pos m) (n % m).toNat⟩
instance : SMul Nat (Residue m) := ⟨fun n a => (n : Residue m) * a⟩
instance : SMul Int (Residue m) := ⟨fun n a => (n : Residue m) * a⟩
instance : Pow (Residue m) Nat := ⟨power⟩

/-- A natural number has its own class. -/
theorem toZMod_natCast (n : Nat) : toZMod (n : Residue m) = (n : ZMod m) := toZMod_reduce _ n

/-- An integer has its own class, from whichever side of zero it is reduced. -/
theorem toZMod_intCast (n : Int) : toZMod (n : Residue m) = (n : ZMod m) := by
  have hne : (m : Int) ≠ 0 := by exact_mod_cast NeZero.ne m
  have hnat : (((n % m).toNat : Nat) : Int) = n % m := Int.toNat_of_nonneg (Int.emod_nonneg n hne)
  calc toZMod (n : Residue m)
      = (((n % m).toNat : Nat) : ZMod m) := toZMod_reduce _ _
    _ = ((((n % m).toNat : Nat) : Int) : ZMod m) := (Int.cast_natCast _).symm
    _ = (n : ZMod m) := by rw [hnat, ZMod.intCast_mod]

/-- Residues modulo a positive number form a commutative ring. -/
instance : CommRing (Residue m) :=
  toZMod_injective.commRing toZMod ((toZMod_natCast 0).trans Nat.cast_zero)
    ((toZMod_natCast 1).trans Nat.cast_one) toZMod_add toZMod_mul toZMod_neg toZMod_sub
    (fun n a => by
      rw [show n • a = (n : Residue m) * a from rfl, toZMod_mul, toZMod_natCast, nsmul_eq_mul])
    (fun n a => by
      rw [show n • a = (n : Residue m) * a from rfl, toZMod_mul, toZMod_intCast, zsmul_eq_mul])
    toZMod_power toZMod_natCast toZMod_intCast

/-- Residues are the integers modulo `m`. -/
def ringEquiv : Residue m ≃+* ZMod m where
  toFun := toZMod
  invFun a := ⟨a.val, a.val_lt⟩
  left_inv a := toZMod_injective (by simp [toZMod])
  right_inv a := by simp [toZMod]
  map_mul' := toZMod_mul
  map_add' := toZMod_add

/-- The square of a residue is its second power. -/
theorem square_eq_pow (a : Residue m) : a.square = a ^ 2 := (pow_two a).symm

/-- A residue is the residue of its value. -/
theorem cast_val (a : Residue m) : (a.val : Residue m) = a :=
  toZMod_injective (toZMod_natCast a.val)

instance : Fintype (Residue m) := Fintype.ofEquiv (ZMod m) ringEquiv.symm.toEquiv

/-- There are as many residues as the modulus says. -/
theorem card_eq : Fintype.card (Residue m) = m := by
  rw [Fintype.card_congr ringEquiv.toEquiv, ZMod.card]

end Ring

instance : Inv (Residue m) := ⟨inverse⟩

/-- The inverse by exponentiation is the one of the field. -/
theorem inverse_eq_inv (a : Residue m) : a.inverse = a⁻¹ := rfl

section Field

variable [Fact m.Prime]

/-- The order of a unit divides `m - 1`. -/
theorem pow_pred_eq_one {a : Residue m} (h : a ≠ 0) : a ^ (m - 1) = 1 := by
  have hne : toZMod a ≠ 0 := fun hzero =>
    h (toZMod_injective (hzero.trans (map_zero ringEquiv).symm))
  apply toZMod_injective
  calc toZMod (a ^ (m - 1))
      = toZMod a ^ (m - 1) := toZMod_power a _
    _ = 1 := ZMod.pow_card_sub_one_eq_one hne
    _ = toZMod 1 := (map_one ringEquiv).symm

/-- The exponent `m - 2` inverts. -/
theorem mul_inverse {a : Residue m} (h : a ≠ 0) : a * a.inverse = 1 := by
  have hprime : m.Prime := Fact.out
  have hexponent : m - 2 + 1 = m - 1 := by
    have := hprime.two_le
    omega
  calc a * a.inverse
      = a ^ (m - 1) := by rw [show a.inverse = a ^ (m - 2) from rfl, ← pow_succ', hexponent]
    _ = 1 := pow_pred_eq_one h

/-- The inverse by exponentiation of zero is zero. -/
theorem inverse_zero (h : 2 < m) : (0 : Residue m).inverse = 0 := by
  have hne : m - 2 ≠ 0 := by omega
  exact zero_pow hne

/-- Residues modulo an odd prime form a field. -/
instance [Fact (2 < m)] : Field (Residue m) where
  exists_pair_ne := by
    have : Nontrivial (Residue m) := ringEquiv.nontrivial
    exact exists_pair_ne _
  mul_inv_cancel _ h := mul_inverse h
  inv_zero := inverse_zero Fact.out
  nnqsmul := _
  nnqsmul_def := fun _ _ => rfl
  qsmul := _
  qsmul_def := fun _ _ => rfl

end Field

end LinkCommittee.Residue
