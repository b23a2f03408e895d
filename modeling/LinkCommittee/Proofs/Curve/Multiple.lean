import LinkCommittee.Curve.Multiplication
import LinkCommittee.Proofs.Curve.Group
import Mathlib.Tactic.FieldSimp

/-!
# Doubling and adding

The invariant of multiplication is `WeightedPoint.Stands`: the running triple stands
for a point of the group.  Doubling the triple and adding a key to it keep up with the
group, so `multiple` stands for a multiple of the key and `Point.scale` is the multiple
by the representative of the scalar.
-/

namespace LinkCommittee

namespace PublicKey

theorem reflectedThird_eq_some_iff {a third : PublicKey} {slope x : Coordinate} :
    a.reflectedThird slope x = some third ↔
      third.x = slope ^ 2 - a.x - x ∧ third.y = slope * (a.x - third.x) - a.y := by
  unfold reflectedThird
  rw [ofCoordinates?_eq_some_iff, Residue.square_eq_pow]
  constructor <;> rintro ⟨hx, hy⟩ <;> exact ⟨hx, by rw [hy, hx]⟩

end PublicKey

namespace Point

theorem exists_of_ofKey?_ne_zero {key? : Option PublicKey} (h : ofKey? key? ≠ 0) :
    ∃ key, key? = some key ∧ ofKey? key? = finite key := by
  cases key? with
  | none => exact absurd rfl h
  | some key => exact ⟨key, rfl, rfl⟩

/-- The tangent rule finds the double of a key. -/
theorem add_self_finite (a : PublicKey) : ∃ twice, finite a + finite a = finite twice ∧
    twice.x = (3 * a.x ^ 2 / (2 * a.y)) ^ 2 - a.x - a.x ∧
    twice.y = 3 * a.x ^ 2 / (2 * a.y) * (a.x - twice.x) - a.y := by
  have hrule : finite a + finite a =
      ofKey? (a.reflectedThird (3 * a.x ^ 2 / (2 * a.y)) a.x) := by
    show Point.add (finite a) (finite a) = _
    simp only [Point.add, if_true, Coordinate.ofNat_eq_cast, Residue.square_eq_pow,
      Residue.inverse_eq_inv, div_eq_mul_inv, Nat.cast_ofNat, two_mul]
  have hne : finite a + finite a ≠ 0 := fun h => finite_ne_zero a (eq_zero_of_add_self h)
  rw [hrule] at hne ⊢
  obtain ⟨twice, hsome, hfinite⟩ := exists_of_ofKey?_ne_zero hne
  exact ⟨twice, hfinite, PublicKey.reflectedThird_eq_some_iff.1 hsome⟩

/-- The chord rule finds the sum of two keys with different abscissas. -/
theorem add_finite {a b : PublicKey} (h : a.x ≠ b.x) : ∃ sum, finite a + finite b = finite sum ∧
    sum.x = ((b.y - a.y) / (b.x - a.x)) ^ 2 - a.x - b.x ∧
    sum.y = (b.y - a.y) / (b.x - a.x) * (a.x - sum.x) - a.y := by
  have hrule : finite a + finite b =
      ofKey? (a.reflectedThird ((b.y - a.y) / (b.x - a.x)) b.x) := by
    show Point.add (finite a) (finite b) = _
    simp only [Point.add, if_neg h, Residue.inverse_eq_inv, div_eq_mul_inv]
  have hne : finite a + finite b ≠ 0 := by
    intro hsum
    have hopposite : finite a = finite b.opposite := eq_neg_of_add_eq_zero_left hsum
    have hab : a = b.opposite := Point.finite.inj hopposite
    have hx : a.x = b.opposite.x := congrArg PublicKey.x hab
    exact h hx
  rw [hrule] at hne ⊢
  obtain ⟨sum, hsome, hfinite⟩ := exists_of_ofKey?_ne_zero hne
  exact ⟨sum, hfinite, PublicKey.reflectedThird_eq_some_iff.1 hsome⟩

/-- Keys with one abscissa and different ordinates cancel. -/
theorem add_finite_eq_zero {a b : PublicKey} (hx : a.x = b.x) (hy : a.y ≠ b.y) :
    finite a + finite b = 0 := by
  show Point.add (finite a) (finite b) = _
  simp only [Point.add, if_pos hx, if_neg hy]
  rfl

end Point

namespace WeightedPoint

/-- Weighted coordinates stand for a point. -/
inductive Stands : WeightedPoint → Point → Prop
  | identity (x y : Coordinate) : Stands ⟨x, y, 0⟩ 0
  | finite (key : PublicKey) (z : Coordinate) (hz : z ≠ 0) :
      Stands ⟨key.x * z ^ 2, key.y * z ^ 3, z⟩ (.finite key)

/-- Weighted coordinates stand for a key when they satisfy its two equations. -/
theorem Stands.of_equations {a : WeightedPoint} {key : PublicKey} (hz : a.z ≠ 0)
    (hx : a.x = key.x * a.z ^ 2) (hy : a.y = key.y * a.z ^ 3) : Stands a (.finite key) := by
  have ha : a = ⟨key.x * a.z ^ 2, key.y * a.z ^ 3, a.z⟩ := by
    rw [← hx, ← hy]
  rw [ha]
  exact .finite key a.z hz

theorem stands_identity : Stands identity 0 := by
  unfold identity
  rw [Coordinate.ofNat_zero]
  exact .identity _ _

theorem stands_ofKey (key : PublicKey) : Stands (ofKey key) (.finite key) := by
  have hone : Coordinate.ofNat 1 = 1 := Nat.cast_one
  exact .of_equations (by simp [ofKey, hone]) (by simp [ofKey, hone]) (by simp [ofKey, hone])

/-- What weighted coordinates stand for is read off them. -/
theorem Stands.toPoint {a : WeightedPoint} {P : Point} (h : Stands a P) : a.toPoint = P := by
  unfold WeightedPoint.toPoint
  rw [Coordinate.ofNat_zero]
  cases h with
  | identity x y => exact if_pos rfl
  | finite key z hz =>
    rw [if_neg hz]
    have hcoordinates : PublicKey.ofCoordinates? (key.x * z ^ 2 * z.inverse.square)
        (key.y * z ^ 3 * (z.inverse.square * z.inverse)) = some key := by
      rw [PublicKey.ofCoordinates?_eq_some_iff, Residue.square_eq_pow, Residue.inverse_eq_inv]
      constructor <;> field_simp
    exact congrArg Point.ofKey? hcoordinates

/-- Doubling the triple doubles the point. -/
theorem Stands.double {a : WeightedPoint} {P : Point} (h : Stands a P) :
    Stands a.double (P + P) := by
  cases h with
  | identity x y =>
    have hz : (WeightedPoint.double ⟨x, y, 0⟩).z = 0 := mul_zero (y + y)
    rw [add_zero]
    rcases hd : WeightedPoint.double ⟨x, y, 0⟩ with ⟨x', y', z'⟩
    rw [hd] at hz
    subst hz
    exact .identity x' y'
  | finite key z hz =>
    obtain ⟨twice, htwice, hx, hy⟩ := Point.add_self_finite key
    have hyy := key.two_mul_y_ne_zero
    have hkey := key.y_ne_zero
    have htwo := Coordinate.two_ne_zero
    rw [htwice]
    refine .of_equations ?_ ?_ ?_
    · have hz3 : z ^ 3 ≠ 0 := pow_ne_zero 3 hz
      show (key.y * z ^ 3 + key.y * z ^ 3) * z ≠ 0
      rw [← add_mul]
      exact mul_ne_zero (mul_ne_zero hyy hz3) hz
    · simp only [WeightedPoint.double, Coordinate.ofNat_eq_cast, Residue.square_eq_pow, hx]
      field_simp
      push_cast
      ring
    · simp only [WeightedPoint.double, Coordinate.ofNat_eq_cast, Residue.square_eq_pow, hy, hx]
      field_simp
      push_cast
      ring

/-- Adding a key to the triple adds it to the point. -/
theorem Stands.addKey {a : WeightedPoint} {P : Point} (h : Stands a P) (key : PublicKey) :
    Stands (a.addKey key) (P + .finite key) := by
  unfold WeightedPoint.addKey
  rw [Coordinate.ofNat_zero]
  cases h with
  | identity x y =>
    rw [zero_add, if_pos rfl]
    exact stands_ofKey key
  | finite p z hz =>
    have hz2 : z ^ 2 ≠ 0 := pow_ne_zero 2 hz
    have hz3 : z ^ 3 ≠ 0 := pow_ne_zero 3 hz
    have hh : key.x * z.square - p.x * z ^ 2 = (key.x - p.x) * z ^ 2 := by
      rw [Residue.square_eq_pow]
      ring
    have hr : key.y * (z.square * z) - p.y * z ^ 3 = (key.y - p.y) * z ^ 3 := by
      rw [Residue.square_eq_pow]
      ring
    simp only [if_neg hz, hh, hr]
    by_cases hx : p.x = key.x
    · rw [if_pos (by rw [hx, sub_self, zero_mul])]
      by_cases hy : p.y = key.y
      · have hp : p = key := PublicKey.eq_of_coordinates hx hy
        rw [if_pos (by rw [hy, sub_self, zero_mul]), ← hp]
        exact (Stands.finite p z hz).double
      · rw [if_neg (mul_ne_zero (sub_ne_zero.2 (Ne.symm hy)) hz3), Point.add_finite_eq_zero hx hy]
        exact stands_identity
    · have hd : key.x - p.x ≠ 0 := sub_ne_zero.2 (Ne.symm hx)
      obtain ⟨sum, hsum, hsx, hsy⟩ := Point.add_finite hx
      rw [if_neg (mul_ne_zero hd hz2), hsum]
      refine .of_equations ?_ ?_ ?_
      · exact mul_ne_zero hz (mul_ne_zero hd hz2)
      · simp only [Residue.square_eq_pow, hsx]
        field_simp
        ring
      · simp only [Residue.square_eq_pow, hsy, hsx]
        field_simp
        ring

/-- Doubling and adding through the bits of a number stands for a multiple of the key. -/
theorem stands_multiple (key : PublicKey) (width number : Nat) (h : number < 2 ^ width) :
    Stands (multiple key width number) (number • .finite key) := by
  induction width generalizing number with
  | zero =>
    have hnumber : number = 0 := by simpa using h
    subst hnumber
    rw [zero_nsmul]
    exact stands_identity
  | succ width ih =>
    have hhalf := (ih (number / 2) (by omega)).double
    rw [← add_nsmul] at hhalf
    by_cases hodd : number % 2 = 1
    · have hsplit : number = number / 2 + number / 2 + 1 := by omega
      rw [multiple, if_pos hodd]
      have hsum := hhalf.addKey key
      rwa [← succ_nsmul, ← hsplit] at hsum
    · have hsplit : number = number / 2 + number / 2 := by omega
      rw [multiple, if_neg hodd]
      rwa [← hsplit] at hhalf

end WeightedPoint

theorem groupOrder_lt : groupOrder < 2 ^ 256 := by decide

/-- **Multiplication by a scalar is a multiple in the group.**  After each binary digit the weighted
point stands for the multiple by the digits so far. -/
theorem Point.scale_eq_nsmul (k : Scalar) (P : Point) : scale k P = k.val • P := by
  rcases P with _ | key
  · exact (nsmul_zero k.val).symm
  · have hwidth : k.val < 2 ^ 256 := k.val_lt.trans groupOrder_lt
    exact (WeightedPoint.stands_multiple key 256 k.val hwidth).toPoint

end LinkCommittee
