import LinkCommittee.Share.Key
import LinkCommittee.Proofs.Curve.Encoding
import LinkCommittee.Proofs.Message.ShareData
import LinkCommittee.Proofs.Text.Base64
import Mathlib.Data.List.Forall2

/-!
# Share entries and shares

The field of a 32-byte value fills its width, so three fields make an entry, and the
entry is cut into the same three fields again.  Each field is read back, hence so is a
share (`Share.exists_entry`); and as reading is strict, a share is read from its own entry
and no other (`Share.ofEntry_eq_ok_iff`).  The public shares of a list of keys hold, for every key
of the list, an entry that reads as the multiple of the key by the secret, and no other.
-/

namespace LinkCommittee

/-! ### Fields -/

theorem length_encodeCoordinate (bytes : Octets 32) :
    (encodeCoordinate bytes).length = fieldWidth := by
  rw [encodeCoordinate, Base64.length_encode, bytes.length_toList]
  rfl

theorem all_isAscii_encodeCoordinate (bytes : Octets 32) :
    (encodeCoordinate bytes).all isAscii = true := Base64.all_isAscii_encode _

theorem byteLength_encodeCoordinate (bytes : Octets 32) :
    byteLength (encodeCoordinate bytes) = fieldWidth := by
  rw [byteLength_of_ascii (all_isAscii_encodeCoordinate bytes), length_encodeCoordinate]

/-- **A 32-byte value is read back from its field.** -/
theorem decodeCoordinate_encodeCoordinate (bytes : Octets 32) :
    decodeCoordinate (encodeCoordinate bytes) = .ok bytes := by
  have hread : (Base64.decode (encodeCoordinate bytes)).bind (Octets.ofList? 32) = some bytes := by
    rw [encodeCoordinate, Base64.decode_encode, Option.bind_some, Octets.ofList?_toList]
  rw [decodeCoordinate, byteLength_encodeCoordinate, if_neg (not_not_intro rfl), hread]

/-- **A field is read exactly if it is written so.** -/
theorem decodeCoordinate_eq_ok_iff {text : List Char} {bytes : Octets 32} :
    decodeCoordinate text = .ok bytes ↔ encodeCoordinate bytes = text := by
  constructor
  · intro h
    unfold decodeCoordinate at h
    split at h
    · contradiction
    split at h
    next read hread =>
      cases h
      obtain ⟨list, hlist, hbytes⟩ := Option.bind_eq_some_iff.1 hread
      rw [encodeCoordinate, Octets.ofList?_eq_some_iff.1 hbytes]
      exact Base64.decode_eq_some_iff.1 hlist
    · contradiction
  · intro h
    rw [← h]
    exact decodeCoordinate_encodeCoordinate bytes

theorem NonzeroScalar.ofScalar?_eq_some_iff {scalar : Scalar} {a : NonzeroScalar} :
    NonzeroScalar.ofScalar? scalar = some a ↔ a.scalar = scalar := by
  constructor
  · intro h
    unfold NonzeroScalar.ofScalar? at h
    split at h
    · cases h
      rfl
    · contradiction
  · rintro rfl
    exact dif_pos a.ne_zero

/-- An owner is read back from its field. -/
theorem decodeOwner_encodeOwner (owner : NonzeroScalar) :
    decodeOwner (encodeOwner owner) = .ok owner := by
  unfold decodeOwner
  apply Except.bind_eq_ok_iff.2
  refine ⟨owner.scalar.toBytes, decodeCoordinate_encodeCoordinate _, ?_⟩
  rw [Scalar.ofBytes?_toBytes]
  dsimp only
  rw [NonzeroScalar.ofScalar?_eq_some_iff.2 rfl]

/-- An owner is read from its own field and from no other. -/
theorem decodeOwner_eq_ok_iff {text : List Char} {owner : NonzeroScalar} :
    decodeOwner text = .ok owner ↔ encodeOwner owner = text := by
  constructor
  · intro h
    obtain ⟨bytes, hbytes, h⟩ := Except.bind_eq_ok_iff.1 h
    split at h
    · contradiction
    next scalar hscalar =>
      split at h
      · contradiction
      next howner =>
        cases h
        rw [← NonzeroScalar.ofScalar?_eq_some_iff.1 howner,
          Scalar.ofBytes?_eq_some_iff bytes.length_toList] at hscalar
        rw [encodeOwner, Octets.ext hscalar]
        exact decodeCoordinate_eq_ok_iff.1 hbytes
  · intro h
    rw [← h]
    exact decodeOwner_encodeOwner owner

/-! ### Entries -/

namespace ShareEntry

/-- An entry is its three fields. -/
theorem fields_append (entry : ShareEntry) : entry.owner ++ entry.x ++ entry.y = entry.chars := by
  rw [owner, x, y, List.append_assoc, Nat.two_mul, ← List.drop_drop, List.take_append_drop,
    List.take_append_drop]

/-- The fields of an entry make the entry. -/
theorem ofFields_fields (entry : ShareEntry) :
    ofFields entry.owner entry.x entry.y = .ok entry := by
  have hascii : (entry.owner ++ entry.x ++ entry.y).all isAscii = true := by
    rw [fields_append]
    exact entry.text.ascii
  rw [List.all_append, List.all_append, Bool.and_eq_true, Bool.and_eq_true] at hascii
  obtain ⟨⟨howner, hx⟩, hy⟩ := hascii
  have hwidths : byteLength entry.owner = fieldWidth ∧ byteLength entry.x = fieldWidth ∧
      byteLength entry.y = fieldWidth := by
    rw [byteLength_of_ascii howner, byteLength_of_ascii hx, byteLength_of_ascii hy]
    simp only [owner, x, y, List.length_take, List.length_drop, length_chars]
    decide
  rw [ofFields, if_pos hwidths]
  exact ofChars_eq_ok_iff.2 entry.fields_append.symm

/-- Three fields of the right width make an entry, which is cut into them again. -/
theorem exists_ofFields {owner x y : List Char} (howner : owner.all isAscii = true)
    (hx : x.all isAscii = true) (hy : y.all isAscii = true) (howner' : owner.length = fieldWidth)
    (hx' : x.length = fieldWidth) (hy' : y.length = fieldWidth) :
    ∃ entry, ofFields owner x y = .ok entry ∧ entry.owner = owner ∧ entry.x = x ∧ entry.y = y := by
  have hascii : (owner ++ x ++ y).all isAscii = true := by
    rw [List.all_append, List.all_append, howner, hx, hy]
    rfl
  have hlength : (owner ++ x ++ y).length = 132 := by
    rw [List.length_append, List.length_append, howner', hx', hy']
    rfl
  have hwidths : byteLength owner = fieldWidth ∧ byteLength x = fieldWidth ∧
      byteLength y = fieldWidth := by
    rw [byteLength_of_ascii howner, byteLength_of_ascii hx, byteLength_of_ascii hy]
    exact ⟨howner', hx', hy'⟩
  refine ⟨⟨⟨owner ++ x ++ y, hascii, hlength⟩⟩, ?_, ?_, ?_, ?_⟩
  · rw [ofFields, if_pos hwidths]
    exact ofChars_eq_ok_iff.2 rfl
  · show List.take fieldWidth (owner ++ x ++ y) = owner
    rw [List.append_assoc]
    exact List.take_left' howner'
  · show List.take fieldWidth (List.drop fieldWidth (owner ++ x ++ y)) = x
    rw [List.append_assoc, List.drop_left' howner']
    exact List.take_left' hx'
  · show List.drop (2 * fieldWidth) (owner ++ x ++ y) = y
    apply List.drop_left'
    rw [List.length_append, howner', hx', Nat.two_mul]

end ShareEntry

/-! ### Shares -/

namespace Share

/-- **A share is read back from its entry.** -/
theorem exists_entry (share : Share) :
    ∃ entry, share.toEntry = .ok entry ∧ ofEntry entry = .ok share := by
  obtain ⟨entry, hmade, howner, hx, hy⟩ := ShareEntry.exists_ofFields
    (all_isAscii_encodeCoordinate share.owner.scalar.toBytes)
    (all_isAscii_encodeCoordinate share.point.x.toBytes)
    (all_isAscii_encodeCoordinate share.point.y.toBytes)
    (length_encodeCoordinate _) (length_encodeCoordinate _) (length_encodeCoordinate _)
  have hpoint : PublicKey.ofCoordinateBytes?
      (share.point.x.toBytes.toList ++ share.point.y.toBytes.toList) = some share.point :=
    PublicKey.ofCoordinateBytes?_eq_some_iff.2 rfl
  refine ⟨entry, hmade, ?_⟩
  unfold ofEntry
  rw [howner, hx, hy]
  refine Except.bind_eq_ok_iff.2 ⟨share.owner, decodeOwner_encodeOwner _, ?_⟩
  refine Except.bind_eq_ok_iff.2 ⟨_, decodeCoordinate_encodeCoordinate _, ?_⟩
  refine Except.bind_eq_ok_iff.2 ⟨_, decodeCoordinate_encodeCoordinate _, ?_⟩
  rw [hpoint]

/-- **A share is read from an entry exactly if the entry is its own.**  Each of its three fields has
one spelling. -/
theorem ofEntry_eq_ok_iff {entry : ShareEntry} {share : Share} :
    ofEntry entry = .ok share ↔ share.toEntry = .ok entry := by
  constructor
  · intro h
    unfold ofEntry at h
    obtain ⟨owner, howner, h⟩ := Except.bind_eq_ok_iff.1 h
    obtain ⟨x, hx, h⟩ := Except.bind_eq_ok_iff.1 h
    obtain ⟨y, hy, h⟩ := Except.bind_eq_ok_iff.1 h
    split at h
    · contradiction
    next point hpoint =>
      cases h
      obtain ⟨hpx, hpy⟩ := List.append_inj (PublicKey.ofCoordinateBytes?_eq_some_iff.1 hpoint)
        (point.x.toBytes.length_toList.trans x.length_toList.symm)
      rw [toEntry, Octets.ext hpx, Octets.ext hpy, decodeOwner_eq_ok_iff.1 howner,
        decodeCoordinate_eq_ok_iff.1 hx, decodeCoordinate_eq_ok_iff.1 hy]
      exact entry.ofFields_fields
  · intro h
    obtain ⟨own, hmade, hread⟩ := share.exists_entry
    rw [hmade] at h
    cases h
    exact hread

end Share

/-! ### Public shares -/

namespace ShareKey

/-- **Every key has its public share**, the multiple by the secret.  The group has prime order and
the secret is not zero, so the multiple is not the point at infinity. -/
theorem exists_publicShare? (key : ShareKey) (a : PublicKey) :
    ∃ entry, key.publicShare? a = some entry ∧ ∃ point,
      Share.ofEntry entry = .ok ⟨key.owner, point⟩ ∧
        Point.finite point = key.secret.scalar • Point.finite a := by
  obtain ⟨point, hpoint⟩ := key.secret.exists_smul_finite a
  obtain ⟨entry, hmade, hread⟩ := Share.exists_entry ⟨key.owner, point⟩
  refine ⟨entry, ?_, point, hread, hpoint.symm⟩
  unfold publicShare?
  rw [Point.scale_eq_smul, hpoint]
  dsimp only [Point.key?]
  rw [hmade]
  rfl

/-- The public shares of a list hold one for each of its keys. -/
theorem exists_publicShare (key : ShareKey) {keys : List PublicKey} {a : PublicKey}
    (ha : a ∈ keys) :
    ∃ entry ∈ key.publicShares keys, ∃ point, Share.ofEntry entry = .ok ⟨key.owner, point⟩ ∧
      Point.finite point = key.secret.scalar • Point.finite a := by
  obtain ⟨entry, hshare, hreads⟩ := key.exists_publicShare? a
  exact ⟨entry, List.mem_filterMap.2 ⟨a, ha, hshare⟩, hreads⟩

/-- The public shares stand in the order of the keys, none being left out. -/
theorem forall₂_publicShares (key : ShareKey) (keys : List PublicKey) :
    List.Forall₂ (fun a entry => key.publicShare? a = some entry) keys (key.publicShares keys) := by
  induction keys with
  | nil => exact .nil
  | cons a keys ih =>
    obtain ⟨entry, hshare, -⟩ := key.exists_publicShare? a
    rw [publicShares, List.filterMap_cons_some hshare]
    exact .cons hshare ih

/-- **No public share is dropped.** -/
theorem length_publicShares (key : ShareKey) (keys : List PublicKey) :
    (key.publicShares keys).length = keys.length :=
  (key.forall₂_publicShares keys).length_eq.symm

end ShareKey

end LinkCommittee
