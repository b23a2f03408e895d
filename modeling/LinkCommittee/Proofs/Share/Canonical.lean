import LinkCommittee.Proofs.Share.Encoding
import Mathlib.Tactic.MkIffOfInductiveProp

/-!
# One text for each share

An entry spells three numbers, and no text spells them in another way: the alphabet, the
padding and the unused bits of each field are fixed by its bytes
(`decodeCoordinate_eq_ok_iff`).  The numbers are taken as they are or refused, never
reduced, so an entry is read exactly if they name an owner and a point
(`Share.isOk_ofEntry_iff`), and the entry of what was read is the entry itself.

Main statement: `Share.entry_canonical`.
-/

namespace LinkCommittee

theorem Scalar.toNat_toBytes (a : Scalar) : a.toBytes.toNat = a.val :=
  Octets.toNat_ofNat (Nat.lt_of_lt_of_le a.val_lt (by decide))

theorem Coordinate.toNat_toBytes (a : Coordinate) : a.toBytes.toNat = a.val :=
  Octets.toNat_ofNat (Nat.lt_of_lt_of_le a.val_lt (by decide))

theorem Scalar.eq_zero_iff_val {a : Scalar} : a = Scalar.zero ↔ a.val = 0 := by
  have hzero : Scalar.zero.val = 0 := Nat.zero_mod groupOrder
  rw [← Residue.ofNat?_eq_some_iff, ← hzero, Residue.ofNat?_eq_some_iff.2 rfl,
    Option.some.injEq, eq_comm]

namespace NonzeroScalar

theorem val_pos (a : NonzeroScalar) : 0 < a.scalar.val := by
  apply Nat.pos_of_ne_zero
  intro hzero
  exact a.ne_zero (Scalar.eq_zero_iff_val.2 hzero)

/-- The numbers from one to below the group order are scalars other than zero. -/
theorem exists_val {number : Nat} (hpos : 0 < number) (hlt : number < groupOrder) :
    ∃ a : NonzeroScalar, a.scalar.val = number := by
  have hnonzero : (⟨number, hlt⟩ : Scalar) ≠ Scalar.zero := by
    intro hzero
    exact absurd (Scalar.eq_zero_iff_val.1 hzero) (Nat.ne_of_gt hpos)
  exact ⟨⟨_, hnonzero⟩, rfl⟩

end NonzeroScalar

/-- The equation of the curve in numbers. -/
theorem onCurve_iff_val (x y : Coordinate) :
    OnCurve x y ↔ y.val ^ 2 % fieldPrime = (x.val ^ 3 + 7) % fieldPrime := by
  have hleft : y.square.toZMod = (y.val ^ 2 : Nat) := by
    rw [Residue.square, Residue.toZMod_mul, Nat.cast_pow, pow_two]
    rfl
  have hright : (x.square * x + Coordinate.ofNat 7).toZMod = (x.val ^ 3 + 7 : Nat) := by
    rw [Residue.toZMod_add, Residue.toZMod_mul, Residue.square, Residue.toZMod_mul,
      Coordinate.ofNat, Residue.toZMod_reduce, Nat.cast_add, Nat.cast_pow, pow_succ, pow_two]
    rfl
  rw [← ZMod.natCast_eq_natCast_iff', ← hleft, ← hright, Residue.toZMod_injective.eq_iff]
  rfl

namespace Share

/-- Three numbers that are a share: an owner from one to below the group order, and coordinates
below the field prime that lie on the curve. -/
@[mk_iff]
structure Named (owner x y : Nat) : Prop where
  owner_pos : 0 < owner
  owner_lt : owner < groupOrder
  x_lt : x < fieldPrime
  y_lt : y < fieldPrime
  onCurve : y ^ 2 % fieldPrime = (x ^ 3 + 7) % fieldPrime

theorem toEntry_eq_ok_iff {share : Share} {entry : ShareEntry} :
    share.toEntry = .ok entry ↔
      entry.chars = encodeCoordinate share.owner.scalar.toBytes ++
        encodeCoordinate share.point.x.toBytes ++ encodeCoordinate share.point.y.toBytes := by
  have hwidths : byteLength (encodeOwner share.owner) = fieldWidth ∧
      byteLength (encodeCoordinate share.point.x.toBytes) = fieldWidth ∧
      byteLength (encodeCoordinate share.point.y.toBytes) = fieldWidth :=
    ⟨byteLength_encodeCoordinate _, byteLength_encodeCoordinate _, byteLength_encodeCoordinate _⟩
  rw [toEntry, ShareEntry.ofFields, if_pos hwidths]
  exact ShareEntry.ofChars_eq_ok_iff

/-- What the fields of a share spell is a share. -/
theorem named (share : Share) :
    Named share.owner.scalar.toBytes.toNat share.point.x.toBytes.toNat
      share.point.y.toBytes.toNat := by
  rw [Scalar.toNat_toBytes, Coordinate.toNat_toBytes, Coordinate.toNat_toBytes]
  exact ⟨share.owner.val_pos, share.owner.scalar.val_lt, share.point.x.val_lt,
    share.point.y.val_lt, (onCurve_iff_val _ _).1 share.point.onCurve⟩

/-- Bytes that spell a share are the fields of one. -/
theorem Named.exists_share {owner x y : Octets 32} (h : Named owner.toNat x.toNat y.toNat) :
    ∃ share : Share, share.owner.scalar.toBytes = owner ∧ share.point.x.toBytes = x ∧
      share.point.y.toBytes = y := by
  obtain ⟨a, ha⟩ := NonzeroScalar.exists_val h.owner_pos h.owner_lt
  have howner : a.scalar.toBytes = owner := by rw [Scalar.toBytes, ha, owner.ofNat_toNat]
  have hcurve : OnCurve ⟨x.toNat, h.x_lt⟩ ⟨y.toNat, h.y_lt⟩ := (onCurve_iff_val _ _).2 h.onCurve
  exact ⟨⟨a, ⟨_, _, hcurve⟩⟩, howner, x.ofNat_toNat, y.ofNat_toNat⟩

/-- **Which entries are read**: those whose fields spell an owner and a point. -/
theorem isOk_ofEntry_iff {entry : ShareEntry} :
    (ofEntry entry).isOk = true ↔ ∃ owner x y : Octets 32,
      entry.chars = encodeCoordinate owner ++ encodeCoordinate x ++ encodeCoordinate y ∧
        Named owner.toNat x.toNat y.toNat := by
  constructor
  · intro hok
    cases hread : ofEntry entry with
    | error e =>
      rw [hread] at hok
      contradiction
    | ok share => exact ⟨_, _, _, toEntry_eq_ok_iff.1 (ofEntry_eq_ok_iff.1 hread), share.named⟩
  · intro hspelled
    obtain ⟨owner, x, y, hchars, hnamed⟩ := hspelled
    obtain ⟨share, rfl, rfl, rfl⟩ := hnamed.exists_share
    rw [ofEntry_eq_ok_iff.2 (toEntry_eq_ok_iff.2 hchars)]
    rfl

/-- **Share entries have one text for each share.**  A field is read as 32 bytes exactly if it is
the field of these bytes.  An entry is read as a share exactly if it is the one made of the fields
of its owner and of the coordinates of its point, and every share has that entry; hence no two
entries are read as the same share.  The entries that are read are those whose fields spell an owner
below the group order, other than zero, and coordinates below the field prime that lie on the
curve. -/
theorem entry_canonical :
    (∀ (text : List Char) (bytes : Octets 32),
      decodeCoordinate text = .ok bytes ↔ text = encodeCoordinate bytes) ∧
    (∀ (entry : ShareEntry) (share : Share), ofEntry entry = .ok share ↔
      ShareEntry.ofFields (encodeCoordinate share.owner.scalar.toBytes)
        (encodeCoordinate share.point.x.toBytes) (encodeCoordinate share.point.y.toBytes) =
          .ok entry) ∧
    (∀ share : Share, ∃ entry,
      ShareEntry.ofFields (encodeCoordinate share.owner.scalar.toBytes)
        (encodeCoordinate share.point.x.toBytes) (encodeCoordinate share.point.y.toBytes) =
          .ok entry ∧ ofEntry entry = .ok share) ∧
    (∀ (entry entry' : ShareEntry) (share : Share), ofEntry entry = .ok share →
      ofEntry entry' = .ok share → entry = entry') ∧
    (∀ entry : ShareEntry, (ofEntry entry).isOk = true ↔ ∃ owner x y : Octets 32,
      entry.chars = encodeCoordinate owner ++ encodeCoordinate x ++ encodeCoordinate y ∧
        0 < owner.toNat ∧ owner.toNat < groupOrder ∧ x.toNat < fieldPrime ∧
          y.toNat < fieldPrime ∧ y.toNat ^ 2 % fieldPrime = (x.toNat ^ 3 + 7) % fieldPrime) := by
  refine ⟨fun text bytes => decodeCoordinate_eq_ok_iff.trans eq_comm,
    fun entry share => ofEntry_eq_ok_iff, exists_entry, ?_, ?_⟩
  · intro entry entry' share hread hread'
    have hmade := ofEntry_eq_ok_iff.1 hread
    have hmade' := ofEntry_eq_ok_iff.1 hread'
    exact Except.ok.inj (hmade.symm.trans hmade')
  · intro entry
    rw [isOk_ofEntry_iff]
    simp only [named_iff]

end Share

end LinkCommittee
