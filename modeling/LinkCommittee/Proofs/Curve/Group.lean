import LinkCommittee.Curve.Point
import LinkCommittee.Proofs.Curve.Primality
import Mathlib.AlgebraicGeometry.EllipticCurve.Affine.Point

/-!
# The group of points

The chord and tangent rule is compared with the group law of Mathlib's curve
`y ^ 2 = x ^ 3 + 7`.  The comparison needs that no point has the ordinate zero, for
there the tangent rule would divide by zero: minus seven is no cube modulo the field
prime (`PublicKey.y_ne_zero`).  It follows that the rule never leaves the curve and
that points form a commutative group.
-/

namespace LinkCommittee

/-- The coordinate of a number is the number in the field. -/
theorem Coordinate.ofNat_eq_cast (number : Nat) :
    Coordinate.ofNat number = (number : Coordinate) := rfl

/-- The coordinate of zero is the zero of the field. -/
theorem Coordinate.ofNat_zero : Coordinate.ofNat 0 = 0 := Nat.cast_zero

/-- The characteristic of the field is not two. -/
theorem Coordinate.two_ne_zero : (2 : Coordinate) ≠ 0 := by decide

/-- The curve in its usual form. -/
theorem onCurve_iff (x y : Coordinate) : OnCurve x y ↔ y ^ 2 = x ^ 3 + 7 := by
  unfold OnCurve
  rw [Residue.square_eq_pow, Residue.square_eq_pow, Coordinate.ofNat_eq_cast, ← pow_succ,
    Nat.cast_ofNat]

/-- Minus seven is no cube, by its power with a third of the exponent of the unit group. -/
theorem cube_add_seven_ne_zero (x : Coordinate) : x ^ 3 + 7 ≠ 0 := by
  intro h
  have hcube : x ^ 3 = -7 := eq_neg_of_add_eq_zero_left h
  have hx : x ≠ 0 := by
    intro h
    subst h
    exact absurd hcube (by decide)
  have hthird : (-7 : Coordinate) ^ ((fieldPrime - 1) / 3) = 1 := by
    rw [← hcube, ← pow_mul, show 3 * ((fieldPrime - 1) / 3) = fieldPrime - 1 by decide,
      Residue.pow_pred_eq_one hx]
  exact absurd hthird (by decide +kernel)

namespace PublicKey

/-- The coordinates of a key solve the equation of the curve. -/
theorem equation (key : PublicKey) : key.y ^ 2 = key.x ^ 3 + 7 := (onCurve_iff _ _).1 key.onCurve

/-- Keys are told apart by their coordinates. -/
theorem eq_of_coordinates {a b : PublicKey} (hx : a.x = b.x) (hy : a.y = b.y) : a = b := by
  cases a
  cases b
  subst hx hy
  rfl

/-- **No point has order two**: its ordinate would be zero. -/
theorem y_ne_zero (key : PublicKey) : key.y ≠ 0 := by
  intro h
  have hequation := key.equation
  rw [h, zero_pow two_ne_zero] at hequation
  exact cube_add_seven_ne_zero key.x hequation.symm

/-- No key is its own opposite: there is no point of order two. -/
theorem two_mul_y_ne_zero (key : PublicKey) : key.y + key.y ≠ 0 := by
  rw [← two_mul]
  exact mul_ne_zero Coordinate.two_ne_zero key.y_ne_zero

/-- Two keys with one abscissa have the same or opposite ordinates. -/
theorem y_eq_or_eq_neg {a b : PublicKey} (h : a.x = b.x) : a.y = b.y ∨ a.y = -b.y :=
  sq_eq_sq_iff_eq_or_eq_neg.1 (by rw [a.equation, b.equation, h])

/-- Coordinates make the key that has them, and no other. -/
theorem ofCoordinates?_eq_some_iff {x y : Coordinate} {key : PublicKey} :
    ofCoordinates? x y = some key ↔ key.x = x ∧ key.y = y := by
  unfold ofCoordinates?
  constructor
  · intro h
    split at h
    · cases h
      exact ⟨rfl, rfl⟩
    · contradiction
  · intro h
    obtain ⟨rfl, rfl⟩ := h
    exact dif_pos key.onCurve

/-- The key on the other side of the axis. -/
def opposite (key : PublicKey) : PublicKey where
  x := key.x
  y := -key.y
  onCurve := by rw [onCurve_iff, neg_sq, key.equation]

end PublicKey

/-- The curve `y ^ 2 = x ^ 3 + 7`. -/
def secp256k1 : WeierstrassCurve.Affine Coordinate := ⟨0, 0, 0, 0, 7⟩

namespace Point

/-- The opposite of a point has the opposite second coordinate. -/
theorem negY_eq (x y : Coordinate) : secp256k1.negY x y = -y := by
  simp [WeierstrassCurve.Affine.negY, secp256k1]

/-- The equation of a key makes it a nonsingular point. -/
theorem nonsingular_iff (x y : Coordinate) : secp256k1.Nonsingular x y ↔ OnCurve x y := by
  have hdiscriminant : secp256k1.Δ ≠ 0 := by
    have hvalue : secp256k1.Δ = -27 * (4 * 7) ^ 2 := by
      simp [WeierstrassCurve.Δ, WeierstrassCurve.b₂, WeierstrassCurve.b₄, WeierstrassCurve.b₆,
        WeierstrassCurve.b₈, secp256k1]
    rw [hvalue]
    decide
  rw [← WeierstrassCurve.Affine.equation_iff_nonsingular_of_Δ_ne_zero hdiscriminant,
    WeierstrassCurve.Affine.equation_iff, onCurve_iff]
  simp [secp256k1]

/-- A point as a point of Mathlib's curve. -/
def toAffine : Point → secp256k1.Point
  | identity => 0
  | finite key => .some key.x key.y ((nonsingular_iff _ _).2 key.onCurve)

/-- Points are told apart by the points of the Weierstrass curve that they are. -/
theorem toAffine_injective : Function.Injective toAffine := by
  rintro (_ | a) (_ | b) h
  · rfl
  · cases h
  · cases h
  · obtain ⟨hx, hy⟩ := WeierstrassCurve.Affine.Point.some.inj h
    rw [PublicKey.eq_of_coordinates hx hy]

/-- Coordinates on the curve make the point of the Weierstrass curve that has them. -/
theorem toAffine_ofCoordinates? {x y x' y' : Coordinate} (hx : x = x') (hy : y = y')
    (h : secp256k1.Nonsingular x' y') :
    toAffine (ofKey? (PublicKey.ofCoordinates? x y)) = .some x' y' h := by
  subst hx hy
  rw [PublicKey.ofCoordinates?, dif_pos ((nonsingular_iff x y).1 h)]
  rfl

/-- The chord and tangent rule is the group law of the curve. -/
theorem toAffine_add (a b : Point) : toAffine (a + b) = toAffine a + toAffine b := by
  rcases a with _ | a
  · exact (zero_add (toAffine b)).symm
  rcases b with _ | b
  · exact (add_zero (toAffine (finite a))).symm
  -- both rules yield the third point on a line, and differ only in how its slope is found
  have hthird (slope x : Coordinate) (h : secp256k1.Nonsingular
      (secp256k1.addX a.x x slope) (secp256k1.addY a.x x a.y slope)) :
      toAffine (ofKey? (a.reflectedThird slope x)) = .some _ _ h := by
    refine toAffine_ofCoordinates? ?_ ?_ h
    · simp [WeierstrassCurve.Affine.addX, secp256k1, Residue.square_eq_pow]
    · rw [WeierstrassCurve.Affine.addY, negY_eq]
      simp only [WeierstrassCurve.Affine.negAddY, WeierstrassCurve.Affine.addX, secp256k1,
        Residue.square_eq_pow]
      ring
  show toAffine (Point.add (finite a) (finite b)) = _
  by_cases hx : a.x = b.x
  · by_cases hy : a.y = b.y
    · obtain rfl : a = b := PublicKey.eq_of_coordinates hx hy
      have hne : a.y ≠ secp256k1.negY a.x a.y := by
        rw [negY_eq]
        exact fun h => a.two_mul_y_ne_zero (add_eq_zero_iff_eq_neg.2 h)
      have hslope : secp256k1.slope a.x a.x a.y a.y =
          Coordinate.ofNat 3 * a.x.square * (a.y + a.y).inverse := by
        rw [WeierstrassCurve.Affine.slope_of_Y_ne rfl hne, negY_eq, Coordinate.ofNat_eq_cast,
          Residue.square_eq_pow, Residue.inverse_eq_inv]
        simp [secp256k1, div_eq_mul_inv]
      simp only [toAffine, Point.add, if_true]
      rw [WeierstrassCurve.Affine.Point.add_self_of_Y_ne hne, ← hslope]
      exact hthird _ _ _
    · have hopposite : a.y = secp256k1.negY b.x b.y := by
        rw [negY_eq]
        exact (PublicKey.y_eq_or_eq_neg hx).resolve_left hy
      simp only [toAffine, Point.add, if_pos hx, if_neg hy]
      exact (WeierstrassCurve.Affine.Point.add_of_Y_eq hx hopposite).symm
  · have hslope : secp256k1.slope a.x b.x a.y b.y = (b.y - a.y) * (b.x - a.x).inverse := by
      rw [WeierstrassCurve.Affine.slope_of_X_ne hx, Residue.inverse_eq_inv, ← div_eq_mul_inv,
        ← neg_sub b.y, ← neg_sub b.x, neg_div_neg_eq]
    simp only [toAffine, Point.add, if_neg hx]
    rw [WeierstrassCurve.Affine.Point.add_of_X_ne hx, ← hslope]
    exact hthird _ _ _

instance : Zero Point := ⟨identity⟩

instance : Neg Point where
  neg
    | identity => identity
    | finite key => finite key.opposite

/-- Opposites are taken on the Weierstrass curve. -/
theorem toAffine_neg (a : Point) : toAffine (-a) = -toAffine a := by
  rcases a with _ | a
  · rfl
  · show toAffine (finite a.opposite) = -toAffine (finite a)
    simp only [toAffine, PublicKey.opposite, WeierstrassCurve.Affine.Point.neg_some, negY_eq]

/-- **Points form a commutative group.** -/
instance : AddCommGroup Point where
  add_assoc a b c := toAffine_injective (by simp only [toAffine_add, add_assoc])
  zero_add a := toAffine_injective (by rw [toAffine_add]; exact zero_add _)
  add_zero a := toAffine_injective (by rw [toAffine_add]; exact add_zero _)
  neg_add_cancel a := toAffine_injective (by
    rw [toAffine_add, toAffine_neg, neg_add_cancel]
    rfl)
  add_comm a b := toAffine_injective (by simp only [toAffine_add, add_comm])
  nsmul := nsmulRec
  zsmul := zsmulRec

/-- A key is not the point at infinity. -/
theorem finite_ne_zero (key : PublicKey) : finite key ≠ 0 := fun h => by cases h

/-- The only point that is its own opposite is the identity. -/
theorem eq_zero_of_add_self {a : Point} (h : a + a = 0) : a = 0 := by
  rcases a with _ | a
  · rfl
  · have hopposite : finite a = finite a.opposite := eq_neg_of_add_eq_zero_left h
    have hy : a.y = -a.y := congrArg PublicKey.y (Point.finite.inj hopposite)
    exact absurd (add_eq_zero_iff_eq_neg.2 hy) a.two_mul_y_ne_zero

end Point

end LinkCommittee
