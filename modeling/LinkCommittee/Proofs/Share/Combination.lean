import LinkCommittee.Share.Combination
import LinkCommittee.Proofs.Curve.Order
import LinkCommittee.Proofs.Except
import Mathlib.Tactic.Module

/-!
# Shares of one line

Two shares of a line at different places combine to the value of the line at zero,
whatever the point that they are multiples of (`Share.interpolate_line`).  A request is
made from the same shared key that the shares of its owner combine to, seen from the
other side: the owner multiplies the system key, the committee the owner's key.

The two weights of interpolation trade places when the shares do, so shares combine to
the same in either order, also where they lie on no line of anyone's
(`Share.interpolate_comm`).
-/

namespace LinkCommittee

/-- A point is a key unless it is the point at infinity. -/
theorem Point.toKey_eq_ok_iff {point : Point} {key : PublicKey} :
    point.toKey = .ok key ↔ point = .finite key := by
  cases point with
  | identity => simp [Point.toKey, Point.key?]
  | finite other => simp [Point.toKey, Point.key?]

/-- Every scalar but zero has an inverse. -/
theorem Scalar.inverse?_of_ne_zero {a : Scalar} (h : a ≠ 0) : a.inverse? = some a.inverse :=
  if_neg h

namespace Share

/-- The line through `start` at zero. -/
def line (start slope x : Scalar) : Scalar := start + slope * x

/-- The weights of interpolation at zero give the start of a line. -/
theorem weights_line (start slope : Scalar) {x y : Scalar} (hne : x ≠ y) :
    y * (y - x)⁻¹ * line start slope x + -(x * (y - x)⁻¹) * line start slope y = start := by
  have hdifference : y - x ≠ 0 := sub_ne_zero.2 hne.symm
  have hfactor : y * (y - x)⁻¹ * line start slope x + -(x * (y - x)⁻¹) * line start slope y =
      start * ((y - x) * (y - x)⁻¹) := by
    unfold line
    ring
  rw [hfactor, mul_inv_cancel₀ hdifference, mul_one]

/-- **No inverse is ever missing.**  Owners that are not the same have a difference other than zero, so
the answer to a missing inverse does not matter. -/
theorem interpolateOr_eq (failure : SharingError) (a b : Share) :
    interpolateOr failure a b =
      if a.owner.scalar = b.owner.scalar then .error .duplicateOwner
      else
        ((Point.finite a.point).scale
            (b.owner.scalar * (b.owner.scalar - a.owner.scalar).inverse) +
          (Point.finite b.point).scale
            (-(a.owner.scalar * (b.owner.scalar - a.owner.scalar).inverse))).toKey := by
  unfold interpolateOr
  by_cases hsame : a.owner.scalar = b.owner.scalar
  · rw [if_pos hsame, if_pos hsame]
  · have hinverse := Scalar.inverse?_of_ne_zero (sub_ne_zero.2 (Ne.symm hsame))
    rw [if_neg hsame, if_neg hsame, hinverse]

/-- **Interpolation at zero.**  Shares of one line and one point combine to the multiple of the
point by the start of the line. -/
theorem interpolate_eq_toKey {start slope : Scalar} {a b : Share} {base : Point}
    (hne : a.owner.scalar ≠ b.owner.scalar)
    (ha : Point.finite a.point = line start slope a.owner.scalar • base)
    (hb : Point.finite b.point = line start slope b.owner.scalar • base) :
    interpolate a b = (start • base).toKey := by
  have hsum : (b.owner.scalar * (b.owner.scalar - a.owner.scalar)⁻¹) • Point.finite a.point +
      (-(a.owner.scalar * (b.owner.scalar - a.owner.scalar)⁻¹)) • Point.finite b.point =
        start • base := by
    rw [ha, hb, smul_smul, smul_smul, ← add_smul, weights_line start slope hne]
  rw [interpolate, interpolateOr_eq, if_neg hne]
  exact congrArg Point.toKey hsum

/-- Two points of a line of shares give the one at zero. -/
theorem interpolate_line {start slope : Scalar} {a b : Share} {base : Point} {shared : PublicKey}
    (hne : a.owner.scalar ≠ b.owner.scalar)
    (ha : Point.finite a.point = line start slope a.owner.scalar • base)
    (hb : Point.finite b.point = line start slope b.owner.scalar • base)
    (hshared : start • base = Point.finite shared) : interpolate a b = .ok shared := by
  rw [interpolate_eq_toKey hne ha hb]
  exact Point.toKey_eq_ok_iff.2 hshared

/-- Entries that read as shares combine as these do. -/
theorem combine_of_ofEntry {x y : ShareEntry} {a b : Share} (hx : ofEntry x = .ok a)
    (hy : ofEntry y = .ok b) : combine x y = interpolate a b := by
  rw [combine, combineOr, hx, hy]
  rfl

/-- Entries that read as shares of one line and one point combine to the same. -/
theorem combine_line {start slope : Scalar} {x y : ShareEntry} {a b : Share} {base : Point}
    {shared : PublicKey} (hx : ofEntry x = .ok a) (hy : ofEntry y = .ok b)
    (hne : a.owner.scalar ≠ b.owner.scalar)
    (ha : Point.finite a.point = line start slope a.owner.scalar • base)
    (hb : Point.finite b.point = line start slope b.owner.scalar • base)
    (hshared : start • base = Point.finite shared) : combine x y = .ok shared := by
  rw [combine_of_ofEntry hx hy]
  exact interpolate_line hne ha hb hshared

/-- **Interpolation does not depend on the order of the shares.** -/
theorem interpolate_comm (a b : Share) : interpolate a b = interpolate b a := by
  rw [interpolate, interpolate, interpolateOr_eq, interpolateOr_eq]
  by_cases hsame : a.owner.scalar = b.owner.scalar
  · rw [if_pos hsame, if_pos hsame.symm]
  · rw [if_neg hsame, if_neg (Ne.symm hsame)]
    have hopposite : (a.owner.scalar - b.owner.scalar)⁻¹ =
        -(b.owner.scalar - a.owner.scalar)⁻¹ := by
      rw [← neg_sub, inv_neg]
    have hsum : (b.owner.scalar * (b.owner.scalar - a.owner.scalar)⁻¹) • Point.finite a.point +
        (-(a.owner.scalar * (b.owner.scalar - a.owner.scalar)⁻¹)) • Point.finite b.point =
        (a.owner.scalar * (a.owner.scalar - b.owner.scalar)⁻¹) • Point.finite b.point +
        (-(b.owner.scalar * (a.owner.scalar - b.owner.scalar)⁻¹)) • Point.finite a.point := by
      rw [hopposite]
      module
    exact congrArg Point.toKey hsum

/-- Entries that combine to a key do so in either order.  Where they do not combine, the failure that
is reported depends on the order: it is that of the entry that is read first. -/
theorem combine_swap {x y : ShareEntry} {shared : PublicKey} (h : combine x y = .ok shared) :
    combine y x = .ok shared := by
  obtain ⟨a, hx, h⟩ := Except.bind_eq_ok_iff.1 h
  obtain ⟨b, hy, h⟩ := Except.bind_eq_ok_iff.1 h
  refine Except.bind_eq_ok_iff.2 ⟨b, hy, ?_⟩
  exact Except.bind_eq_ok_iff.2 ⟨a, hx, (interpolate_comm b a).trans h⟩

end Share

/-- What a request is made of: the key that its owner shares with the system, the auxiliary point
and the identity point that derives from the two. -/
theorem exists_of_deriveRequest {owner auxiliary : NonzeroScalar} {system : PublicKey}
    {request : AbAddress} (h : deriveRequest owner system auxiliary = .ok request) :
    ∃ shared point identity, Point.finite shared = owner.scalar • Point.finite system ∧
      deriveIdentity shared point = .ok identity ∧ request = .ofKeys identity point := by
  obtain ⟨shared, hshared, h⟩ := Except.bind_eq_ok_iff.1 h
  obtain ⟨point, -, h⟩ := Except.bind_eq_ok_iff.1 h
  obtain ⟨identity, hidentity, h⟩ := Except.bind_eq_ok_iff.1 h
  cases h
  exact ⟨shared, point, identity, (Point.toKey_eq_ok_iff.1 hshared).symm, hidentity, rfl⟩

end LinkCommittee
