import LinkCommittee.Curve.Hashing
import LinkCommittee.Proofs.Curve.Encoding

/-!
# Hashing keys to the curve

An attempt succeeds when the digest for its counter is the abscissa of a point, and then
gives the one with an even ordinate.  Counters are tried from 0 on, so a key is hashed to
the point of the first attempt that succeeds, and to none when the 256 attempts all fail
(`PublicKey.hashToCurve?_eq_some_iff`).
-/

namespace LinkCommittee

/-- A search through the numbers below a bound ends at the first that gives something. -/
theorem findSome?_range_eq_some_iff {α : Type} {f : Nat → Option α} {bound : Nat} {a : α} :
    (List.range bound).findSome? f = some a ↔
      ∃ i < bound, f i = some a ∧ ∀ j < i, f j = none := by
  induction bound with
  | zero => simp
  | succ bound ih =>
    rw [List.range_succ, List.findSome?_append, Option.or_eq_some_iff, ih,
      List.findSome?_eq_none_iff, List.findSome?_singleton]
    constructor
    · rintro (⟨i, hi, hfound⟩ | ⟨hnone, hlast⟩)
      · exact ⟨i, Nat.lt_succ_of_lt hi, hfound⟩
      · exact ⟨bound, Nat.lt_succ_self _, hlast, fun j hj => hnone j (List.mem_range.2 hj)⟩
    · rintro ⟨i, hi, hfound, hearlier⟩
      rcases Nat.lt_succ_iff_lt_or_eq.1 hi with hlt | rfl
      · exact .inl ⟨i, hlt, hfound, hearlier⟩
      · exact .inr ⟨fun j hj => hearlier j (List.mem_range.1 hj), hfound⟩

namespace PublicKey

/-- For a counter, the digest of a key is the abscissa of a point with even ordinate. -/
structure HashesAt (use : String) (key : PublicKey) (counter : Nat) (base : PublicKey) :
    Prop where
  abscissa : base.x.toBytes = digestFor use (key.compress.toList ++ littleEndian 4 counter)
  even : base.y.isOdd = false

/-- A key hashes to the point of the first of 256 counters for which there is one. -/
def HashesTo (use : String) (key base : PublicKey) : Prop :=
  ∃ counter < 256, HashesAt use key counter base ∧
    ∀ earlier < counter, ∀ other, ¬HashesAt use key earlier other

variable {use : String} {key base : PublicKey}

theorem hashAttempt?_eq_some_iff {counter : Nat} :
    key.hashAttempt? use counter = some base ↔ HashesAt use key counter base := by
  unfold hashAttempt?
  rw [decode?, if_pos (.inl rfl), ofAbscissaBytes?_eq_some_iff]
  constructor
  · intro h
    exact ⟨Octets.ext h.1, h.2⟩
  · intro h
    exact ⟨congrArg Octets.toList h.abscissa, h.even⟩

/-- **A key is hashed to the point of the first attempt that succeeds.** -/
theorem hashToCurve?_eq_some_iff : key.hashToCurve? use = some base ↔ HashesTo use key base := by
  have hnone (counter : Nat) : key.hashAttempt? use counter = none ↔
      ∀ other, ¬HashesAt use key counter other := by
    rw [Option.eq_none_iff_forall_ne_some]
    exact forall_congr' fun other => not_congr hashAttempt?_eq_some_iff
  rw [hashToCurve?, findSome?_range_eq_some_iff]
  simp only [hashAttempt?_eq_some_iff, hnone]
  rfl

end PublicKey

end LinkCommittee
