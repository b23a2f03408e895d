import LinkCommittee.Proofs.Share.Combination
import LinkCommittee.Proofs.Share.Encoding

/-!
# What two share entries combine to

At every owner where a line is not zero, the multiple of a key by the value of the line
has one entry (`Share.existsUnique_onLine`).  Two such entries of different owners
combine to the multiple of the key by the start of the line; that is no key if the line
starts at zero.

Entries of any other kind are told apart by what keeps them from being combined: an entry
that does not read as a share, or an owner that both have in common.  To divide by the
difference of the owners is not one of the obstacles, as different owners have a
difference other than zero: whatever a combination answered if the inverse were missing,
it would never give this answer (`Share.combineOr_eq`).

Main statement: `Share.combine_interpolates`.
-/

namespace LinkCommittee

/-- A scalar that is not zero is told by its value. -/
theorem NonzeroScalar.scalar_injective : Function.Injective NonzeroScalar.scalar := by
  rintro ⟨a, ha⟩ ⟨b, hb⟩ rfl
  rfl

theorem Point.toKey_eq_error {point : Point} {e : SharingError} (h : point.toKey = .error e) :
    e = .identityPoint := by
  cases point with
  | identity =>
    cases h
    rfl
  | finite key => cases h

namespace Share

/-! ### Entries of a line -/

/-- The entry in which an owner writes the multiple of a key by the value of a line. -/
def OnLine (start slope : Scalar) (key : PublicKey) (owner : NonzeroScalar) (entry : ShareEntry) :
    Prop :=
  ∃ point, Point.finite point = line start slope owner.scalar • Point.finite key ∧
    toEntry ⟨owner, point⟩ = .ok entry

variable {start slope : Scalar} {key : PublicKey} {owner i j : NonzeroScalar} {x y : ShareEntry}

/-- Where a line is not zero, it has one entry. -/
theorem existsUnique_onLine (hne : line start slope owner.scalar ≠ 0) :
    ∃! entry, OnLine start slope key owner entry := by
  let value : NonzeroScalar := ⟨line start slope owner.scalar, hne⟩
  obtain ⟨point, hpoint⟩ := value.exists_smul_finite key
  obtain ⟨entry, hentry, -⟩ := exists_entry ⟨owner, point⟩
  refine ⟨entry, ⟨point, hpoint.symm, hentry⟩, ?_⟩
  rintro other ⟨point', hpoint', hother⟩
  cases hpoint'.trans hpoint
  rw [hentry] at hother
  cases hother
  rfl

/-- Entries of one line and one key combine to the multiple of the key by the start of the line. -/
theorem combine_onLine (hne : i ≠ j) (hx : OnLine start slope key i x)
    (hy : OnLine start slope key j y) : combine x y = (start • Point.finite key).toKey := by
  obtain ⟨p, hp, hx⟩ := hx
  obtain ⟨q, hq, hy⟩ := hy
  have hscalar : i.scalar ≠ j.scalar := fun h => hne (NonzeroScalar.scalar_injective h)
  rw [combine_of_ofEntry (ofEntry_eq_ok_iff.2 hx) (ofEntry_eq_ok_iff.2 hy)]
  exact interpolate_eq_toKey hscalar hp hq

theorem smul_toKey_of_ne_zero (key : PublicKey) (hne : start ≠ 0) :
    ∃ shared, Point.finite shared = start • Point.finite key ∧
      (start • Point.finite key).toKey = .ok shared := by
  obtain ⟨shared, hshared⟩ := NonzeroScalar.exists_smul_finite ⟨start, hne⟩ key
  exact ⟨shared, hshared.symm, Point.toKey_eq_ok_iff.2 hshared⟩

theorem zero_smul_toKey (key : PublicKey) :
    ((0 : Scalar) • Point.finite key).toKey = .error .identityPoint := by
  rw [zero_smul]
  rfl

/-! ### Entries that do not combine -/

theorem exists_defect_of_decodeCoordinate {text : List Char} {e : SharingError}
    (h : decodeCoordinate text = .error e) : ∃ defect, e = .invalidShare defect := by
  unfold decodeCoordinate at h
  split at h
  · cases h
    exact ⟨_, rfl⟩
  split at h
  · contradiction
  · cases h
    exact ⟨_, rfl⟩

theorem exists_defect_of_decodeOwner {text : List Char} {e : SharingError}
    (h : decodeOwner text = .error e) : ∃ defect, e = .invalidShare defect := by
  rcases Except.bind_eq_error_iff.1 h with h | ⟨bytes, -, h⟩
  · exact exists_defect_of_decodeCoordinate h
  split at h
  · cases h
    exact ⟨_, rfl⟩
  split at h
  · cases h
    exact ⟨_, rfl⟩
  · contradiction

/-- An entry that does not read as a share has a defect. -/
theorem exists_defect_of_ofEntry {entry : ShareEntry} {e : SharingError}
    (h : ofEntry entry = .error e) : ∃ defect, e = .invalidShare defect := by
  unfold ofEntry at h
  rcases Except.bind_eq_error_iff.1 h with h | ⟨owner, -, h⟩
  · exact exists_defect_of_decodeOwner h
  rcases Except.bind_eq_error_iff.1 h with h | ⟨x, -, h⟩
  · exact exists_defect_of_decodeCoordinate h
  rcases Except.bind_eq_error_iff.1 h with h | ⟨y, -, h⟩
  · exact exists_defect_of_decodeCoordinate h
  split at h
  · cases h
    exact ⟨_, rfl⟩
  · contradiction

/-- Shares that do not combine have one owner, or they cancel out. -/
theorem interpolate_eq_error {a b : Share} {e : SharingError} (h : interpolate a b = .error e) :
    e = .duplicateOwner ∧ a.owner = b.owner ∨ e = .identityPoint ∧ a.owner ≠ b.owner := by
  rw [interpolate, interpolateOr_eq] at h
  by_cases hsame : a.owner.scalar = b.owner.scalar
  · rw [if_pos hsame] at h
    cases h
    exact .inl ⟨rfl, NonzeroScalar.scalar_injective hsame⟩
  · rw [if_neg hsame] at h
    exact .inr ⟨Point.toKey_eq_error h, fun howner => hsame (congrArg NonzeroScalar.scalar howner)⟩

/-- **A defect is reported exactly if one of the entries has one.** -/
theorem combine_eq_invalidShare_iff :
    (∃ defect, combine x y = .error (.invalidShare defect)) ↔
      (∃ e, ofEntry x = .error e) ∨ ∃ e, ofEntry y = .error e := by
  constructor
  · rintro ⟨defect, h⟩
    rcases Except.bind_eq_error_iff.1 h with h | ⟨a, -, h⟩
    · exact .inl ⟨_, h⟩
    rcases Except.bind_eq_error_iff.1 h with h | ⟨b, -, h⟩
    · exact .inr ⟨_, h⟩
    · rcases interpolate_eq_error h with ⟨h, -⟩ | ⟨h, -⟩ <;> contradiction
  · rintro (⟨e, hx⟩ | ⟨e, hy⟩)
    · obtain ⟨defect, rfl⟩ := exists_defect_of_ofEntry hx
      exact ⟨defect, Except.bind_eq_error_iff.2 (.inl hx)⟩
    · -- a defect of the first entry is reported before one of the second
      cases hx : ofEntry x with
      | error e' =>
        obtain ⟨defect, rfl⟩ := exists_defect_of_ofEntry hx
        exact ⟨defect, Except.bind_eq_error_iff.2 (.inl hx)⟩
      | ok a =>
        obtain ⟨defect, rfl⟩ := exists_defect_of_ofEntry hy
        refine ⟨defect, Except.bind_eq_error_iff.2 (.inr ⟨a, hx, ?_⟩)⟩
        exact Except.bind_eq_error_iff.2 (.inl hy)

/-- **One owner is reported exactly if both entries are shares of one owner.** -/
theorem combine_eq_duplicateOwner_iff :
    combine x y = .error .duplicateOwner ↔
      ∃ a b, ofEntry x = .ok a ∧ ofEntry y = .ok b ∧ a.owner = b.owner := by
  constructor
  · intro h
    rcases Except.bind_eq_error_iff.1 h with h | ⟨a, ha, h⟩
    · obtain ⟨defect, h⟩ := exists_defect_of_ofEntry h
      contradiction
    rcases Except.bind_eq_error_iff.1 h with h | ⟨b, hb, h⟩
    · obtain ⟨defect, h⟩ := exists_defect_of_ofEntry h
      contradiction
    rcases interpolate_eq_error h with ⟨-, hsame⟩ | ⟨h, -⟩
    · exact ⟨a, b, ha, hb, hsame⟩
    · contradiction
  · rintro ⟨a, b, ha, hb, hsame⟩
    rw [combine_of_ofEntry ha hb]
    exact if_pos (congrArg NonzeroScalar.scalar hsame)

/-- **The answer to a missing inverse is never given.**  The difference of two owners that are not
the same has an inverse. -/
theorem combineOr_eq (failure : SharingError) (x y : ShareEntry) :
    combineOr failure x y = combine x y := by
  unfold combine combineOr
  simp only [interpolateOr_eq]

/-- **Combining is interpolation at zero.**  A line gives every owner at which it is not zero one
entry for each key.  Two entries of one line and one key, of different owners, combine to the
multiple of the key by the start of the line, so every two of them combine to the same; if the line
starts at zero the multiple is the identity, which is refused.  Of entries of any kind a defect is
reported exactly if one of them does not read as a share, and one owner exactly if both read as
shares of one owner.  The inverse that is needed besides is never missing. -/
theorem combine_interpolates :
    (∀ (start slope : Scalar) (key : PublicKey),
      (∀ owner : NonzeroScalar, line start slope owner.scalar ≠ 0 →
        ∃! entry, OnLine start slope key owner entry) ∧
      ∀ (i j : NonzeroScalar) (x y : ShareEntry), i ≠ j →
        OnLine start slope key i x → OnLine start slope key j y →
          (start ≠ 0 → ∃ shared, Point.finite shared = start • Point.finite key ∧
            combine x y = .ok shared) ∧
          (start = 0 → combine x y = .error .identityPoint) ∧
          ∀ (i' j' : NonzeroScalar) (x' y' : ShareEntry), i' ≠ j' →
            OnLine start slope key i' x' → OnLine start slope key j' y' →
              combine x' y' = combine x y) ∧
    ∀ x y : ShareEntry,
      ((∃ defect, combine x y = .error (.invalidShare defect)) ↔
        (∃ e, ofEntry x = .error e) ∨ ∃ e, ofEntry y = .error e) ∧
      (combine x y = .error .duplicateOwner ↔
        ∃ a b, ofEntry x = .ok a ∧ ofEntry y = .ok b ∧ a.owner = b.owner) ∧
      ∀ failure, combineOr failure x y = combine x y := by
  refine ⟨fun start slope key => ⟨fun owner => existsUnique_onLine, ?_⟩, fun x y => ?_⟩
  · intro i j x y hne hx hy
    have hcombine := combine_onLine hne hx hy
    refine ⟨fun hstart => ?_, fun hstart => ?_, fun i' j' x' y' hne' hx' hy' => ?_⟩
    · obtain ⟨shared, hshared, hkey⟩ := smul_toKey_of_ne_zero key hstart
      exact ⟨shared, hshared, hcombine.trans hkey⟩
    · rw [hcombine, hstart, zero_smul_toKey]
    · rw [hcombine, combine_onLine hne' hx' hy']
  · exact ⟨combine_eq_invalidShare_iff, combine_eq_duplicateOwner_iff,
      fun failure => combineOr_eq failure x y⟩

/-- Owners one and two on the lines `1 + x` and `x`: the entries of the first line combine to the
key itself, those of the second to no key. -/
theorem combine_interpolates_one_two :
    ∃ (i j : NonzeroScalar) (x y x' y' : ShareEntry), i ≠ j ∧
      OnLine 1 1 systemKey i x ∧ OnLine 1 1 systemKey j y ∧ combine x y = .ok systemKey ∧
      OnLine 0 1 systemKey i x' ∧ OnLine 0 1 systemKey j y' ∧
        combine x' y' = .error .identityPoint ∧ combine x x' = .error .duplicateOwner := by
  let i : NonzeroScalar := ⟨1, by decide⟩
  let j : NonzeroScalar := ⟨2, by decide⟩
  have hne : i ≠ j := by decide
  obtain ⟨hlines, hentries⟩ := combine_interpolates
  obtain ⟨hexists, hcombine⟩ := hlines 1 1 systemKey
  obtain ⟨hexists', hcombine'⟩ := hlines 0 1 systemKey
  obtain ⟨x, hx, -⟩ := hexists i (by decide)
  obtain ⟨y, hy, -⟩ := hexists j (by decide)
  obtain ⟨x', hx', -⟩ := hexists' i (by decide)
  obtain ⟨y', hy', -⟩ := hexists' j (by decide)
  obtain ⟨shared, hshared, hkey⟩ := (hcombine i j x y hne hx hy).1 (by decide)
  have hzero := (hcombine' i j x' y' hne hx' hy').2.1 rfl
  obtain ⟨p, hp, hreads⟩ := hx
  obtain ⟨p', hp', hreads'⟩ := hx'
  have hsame := (hentries x x').2.1.2
    ⟨_, _, ofEntry_eq_ok_iff.2 hreads, ofEntry_eq_ok_iff.2 hreads', rfl⟩
  rw [one_smul] at hshared
  cases hshared
  exact ⟨i, j, x, y, x', y', hne, ⟨p, hp, hreads⟩, hy, hkey, ⟨p', hp', hreads'⟩, hy', hzero, hsame⟩

end Share

end LinkCommittee
