import LinkCommittee.Proofs.Curve.Multiple
import Mathlib.GroupTheory.Perm.Cycle.Type
import Mathlib.Algebra.Module.Basic

/-!
# The order of the group

The generator has the order `q`, by computing its multiple by `q`.  An abscissa and a
parity determine a key, so there are at most `2 p + 1` points, fewer than `3 q`; and
their number is not `2 q`, for then some point would have order two.  Hence there are
exactly `q` points (`Point.card_eq`), and points form a vector space over the field of
scalars.
-/

namespace LinkCommittee

/-- Opposite coordinates have different parities, as the field prime is odd. -/
theorem Coordinate.isOdd_neg {a : Coordinate} (h : a ≠ 0) : (-a).isOdd = !a.isOdd := by
  have hpos : 0 < a.val := by
    refine Nat.pos_of_ne_zero fun hzero => h ?_
    rw [← Residue.cast_val a, hzero, Nat.cast_zero]
  have hlt := a.val_lt
  have hval : (-a).val = fieldPrime - a.val := Nat.mod_eq_of_lt (Nat.sub_lt fieldPrime_pos hpos)
  have hodd : fieldPrime % 2 = 1 := by decide
  unfold Residue.isOdd
  rw [hval]
  rcases Nat.mod_two_eq_zero_or_one a.val with hmod | hmod
  · have hneg : (fieldPrime - a.val) % 2 = 1 := by omega
    rw [hmod, hneg]
    rfl
  · have hneg : (fieldPrime - a.val) % 2 = 0 := by omega
    rw [hmod, hneg]
    rfl

/-- The abscissa and the parity of the ordinate determine a key. -/
theorem PublicKey.eq_of_isOdd {a b : PublicKey} (hx : a.x = b.x) (hodd : a.y.isOdd = b.y.isOdd) :
    a = b := by
  have hy : a.y = b.y := by
    rcases y_eq_or_eq_neg hx with hy | hy
    · exact hy
    · rw [hy, Coordinate.isOdd_neg b.y_ne_zero] at hodd
      exact absurd hodd (by simp)
  exact eq_of_coordinates hx hy

namespace Point

/-- The abscissa and the parity of a point, unless it is the identity. -/
def place : Point → Option (Coordinate × Bool)
  | identity => none
  | finite key => some (key.x, key.y.isOdd)

/-- Points are told apart by their places. -/
theorem place_injective : Function.Injective place := by
  rintro (_ | a) (_ | b) h
  · rfl
  · cases h
  · cases h
  · obtain ⟨hx, hodd⟩ := Prod.mk.inj (Option.some.inj h)
    rw [PublicKey.eq_of_isOdd hx hodd]

noncomputable instance : Fintype Point := Fintype.ofInjective place place_injective

/-- Over every first coordinate there are two points at most. -/
theorem card_le : Fintype.card Point ≤ 2 * fieldPrime + 1 := by
  have h := Fintype.card_le_of_injective place place_injective
  have hcoordinates : Fintype.card Coordinate = fieldPrime := Residue.card_eq
  rw [Fintype.card_option, Fintype.card_prod, hcoordinates, Fintype.card_bool] at h
  omega

/-- The generator is not the point at infinity. -/
theorem generator_ne_zero : generator ≠ 0 := finite_ne_zero _

/-- The generator times the group order is the point at infinity. -/
theorem groupOrder_nsmul_generator : groupOrder • generator = 0 := by
  refine (WeightedPoint.stands_multiple _ 256 groupOrder groupOrder_lt).toPoint.symm.trans ?_
  decide +kernel

/-- The order of the generator is the prime that scalars are taken modulo. -/
theorem addOrderOf_generator : addOrderOf generator = groupOrder :=
  addOrderOf_eq_prime groupOrder_nsmul_generator generator_ne_zero

/-- **The group has prime order.**  The order of the generator divides it, there are too few points
for three times that order, and twice that order would call for a point of order two. -/
theorem card_eq : Fintype.card Point = groupOrder := by
  have hdvd : groupOrder ∣ Fintype.card Point := by
    rw [← addOrderOf_generator]
    exact addOrderOf_dvd_card
  obtain ⟨factor, hfactor⟩ := hdvd
  have hpos : 0 < Fintype.card Point := Fintype.card_pos
  have hfew : 2 * fieldPrime + 1 < groupOrder * 3 := by decide
  have hlt : factor < 3 := by
    refine Nat.lt_of_mul_lt_mul_left (a := groupOrder) ?_
    rw [← hfactor]
    exact Nat.lt_of_le_of_lt card_le hfew
  have hne : factor ≠ 0 := by
    intro h
    subst h
    omega
  have hodd : factor ≠ 2 := by
    intro h
    subst h
    have htwo : 2 ∣ Fintype.card Point := ⟨groupOrder, by rw [hfactor, Nat.mul_comm]⟩
    obtain ⟨a, ha⟩ := exists_prime_addOrderOf_dvd_card 2 htwo
    have hzero : a = 0 := eq_zero_of_add_self (by
      rw [← two_nsmul, ← ha]
      exact addOrderOf_nsmul_eq_zero a)
    rw [hzero, addOrderOf_zero] at ha
    omega
  have hone : factor = 1 := by omega
  rw [hfactor, hone, Nat.mul_one]

/-- Any point times the group order is the point at infinity. -/
theorem groupOrder_nsmul (P : Point) : groupOrder • P = 0 := by
  rw [← card_eq]
  exact card_nsmul_eq_zero

/-- A multiple of a point depends only on the residue of the factor. -/
theorem mod_nsmul (n : Nat) (P : Point) : (n % groupOrder) • P = n • P := by
  conv_rhs => rw [← Nat.div_add_mod n groupOrder, add_nsmul, mul_nsmul, groupOrder_nsmul,
    nsmul_zero, zero_add]

instance : SMul Scalar Point := ⟨scale⟩

/-- A scalar multiplies as its value does. -/
theorem smul_eq_nsmul (k : Scalar) (P : Point) : k • P = k.val • P := scale_eq_nsmul k P

/-- **Points form a vector space over the scalars.** -/
instance : Module Scalar Point where
  one_smul P := by
    rw [smul_eq_nsmul]
    exact one_nsmul P
  mul_smul k l P := by
    simp only [smul_eq_nsmul]
    rw [← mul_nsmul']
    exact mod_nsmul _ _
  smul_zero k := by rw [smul_eq_nsmul, nsmul_zero]
  smul_add k P Q := by simp only [smul_eq_nsmul, nsmul_add]
  add_smul k l P := by
    simp only [smul_eq_nsmul]
    rw [← add_nsmul]
    exact mod_nsmul _ _
  zero_smul P := by
    rw [smul_eq_nsmul]
    exact zero_nsmul P

/-- The multiple that is computed by doubling is the scalar multiple. -/
theorem scale_eq_smul (k : Scalar) (P : Point) : scale k P = k • P := rfl

end Point

/-- The public point of a secret is its multiple of the generator. -/
theorem NonzeroScalar.publicPoint_eq_smul (secret : NonzeroScalar) :
    secret.publicPoint = secret.scalar • Point.generator := rfl

/-- A multiple of a key by a scalar other than zero is a key. -/
theorem NonzeroScalar.exists_smul_finite (secret : NonzeroScalar) (key : PublicKey) :
    ∃ multiple, secret.scalar • Point.finite key = Point.finite multiple := by
  rcases h : secret.scalar • Point.finite key with _ | multiple
  · have hzero : secret.scalar = 0 ∨ Point.finite key = 0 := smul_eq_zero.1 h
    exact absurd hzero (not_or_intro secret.ne_zero (Point.finite_ne_zero key))
  · exact ⟨multiple, rfl⟩

end LinkCommittee
