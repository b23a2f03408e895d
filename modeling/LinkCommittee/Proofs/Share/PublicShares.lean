import LinkCommittee.Proofs.Share.Encoding

/-!
# The public shares of a list of keys

A share key is built from a number and a secret, or read from a text; either way it is
known by its two scalars, and reading is strict (`ShareKey.new_eq_ok_iff`,
`ShareKey.ofText_eq_ok_iff`).  The public shares that it gives to a list of keys follow
the list key by key: the share in some place reads as the multiple of the key in that
place.  Nothing that could fail on the way does, as a multiple by a scalar other than
zero is a key and every coordinate fills its field.

Main statement: `ShareKey.publicShares_exact`.
-/

namespace LinkCommittee

/-- A scalar other than zero is read exactly from its own bytes. -/
theorem NonzeroScalar.ofBytes?_eq_some_iff {bytes : List UInt8} (hlength : bytes.length = 32)
    {a : NonzeroScalar} :
    NonzeroScalar.ofBytes? bytes = some a ↔ a.scalar.toBytes.toList = bytes := by
  unfold NonzeroScalar.ofBytes?
  constructor
  · intro h
    obtain ⟨scalar, hscalar, ha⟩ := Option.bind_eq_some_iff.1 h
    rw [NonzeroScalar.ofScalar?_eq_some_iff.1 ha]
    exact (Scalar.ofBytes?_eq_some_iff hlength).1 hscalar
  · intro h
    rw [(Scalar.ofBytes?_eq_some_iff hlength).2 h]
    exact NonzeroScalar.ofScalar?_eq_some_iff.2 rfl

namespace Scalar

/-- Numbers of 64 bits are scalars as they are. -/
theorem val_ofNat_toNat (id : UInt64) : (ofNat id.toNat).val = id.toNat := by
  have hlt : id.toNat < 2 ^ 64 := id.toNat_lt
  have horder : 2 ^ 64 < groupOrder := by decide
  exact Nat.mod_eq_of_lt (Nat.lt_trans hlt horder)

theorem ofNat_toNat_injective : Function.Injective fun id : UInt64 => ofNat id.toNat := by
  intro i j h
  have hval := congrArg Residue.val h
  dsimp only at hval
  rw [val_ofNat_toNat, val_ofNat_toNat] at hval
  exact UInt64.toNat_inj.1 hval

end Scalar

namespace ShareKey

variable {key : ShareKey}

/-! ### What builds a share key -/

/-- A share key is built from its owner's number and its secret. -/
theorem new_eq_ok_iff {id : UInt64} {secret : Scalar} :
    new id secret = .ok key ↔
      key.owner.scalar = Scalar.ofNat id.toNat ∧ key.secret.scalar = secret := by
  constructor
  · intro h
    unfold new at h
    split at h
    next howner hsecret =>
      cases h
      exact ⟨NonzeroScalar.ofScalar?_eq_some_iff.1 howner,
        NonzeroScalar.ofScalar?_eq_some_iff.1 hsecret⟩
    · contradiction
  · rintro ⟨howner, hsecret⟩
    rw [new, NonzeroScalar.ofScalar?_eq_some_iff.2 howner,
      NonzeroScalar.ofScalar?_eq_some_iff.2 hsecret]

/-- A number and a secret other than zero make a share key. -/
theorem exists_new {id : UInt64} {secret : Scalar} (hid : id ≠ 0) (hsecret : secret ≠ Scalar.zero) :
    ∃ key, new id secret = .ok key ∧ key.owner.scalar = Scalar.ofNat id.toNat ∧
      key.secret.scalar = secret := by
  have howner : Scalar.ofNat id.toNat ≠ Scalar.zero := by
    intro h
    exact hid (Scalar.ofNat_toNat_injective h)
  exact ⟨⟨⟨_, howner⟩, ⟨secret, hsecret⟩⟩, new_eq_ok_iff.2 ⟨rfl, rfl⟩, rfl, rfl⟩

theorem decodeSecret_eq_ok_iff {text : List Char} {secret : NonzeroScalar} :
    decodeSecret text = .ok secret ↔ encodeCoordinate secret.scalar.toBytes = text := by
  constructor
  · intro h
    obtain ⟨bytes, hbytes, h⟩ := Except.bind_eq_ok_iff.1 h
    split at h
    · contradiction
    next hsecret =>
      cases h
      rw [Octets.ext ((NonzeroScalar.ofBytes?_eq_some_iff bytes.length_toList).1 hsecret)]
      exact decodeCoordinate_eq_ok_iff.1 hbytes
  · intro h
    refine Except.bind_eq_ok_iff.2 ⟨_, decodeCoordinate_eq_ok_iff.2 h, ?_⟩
    rw [(NonzeroScalar.ofBytes?_eq_some_iff secret.scalar.toBytes.length_toList).2 rfl]

theorem length_ownerField (key : ShareKey) : key.ownerField.length = fieldWidth :=
  length_encodeCoordinate _

theorem all_isAscii_fields (key : ShareKey) :
    (key.ownerField ++ encodeCoordinate key.secret.scalar.toBytes).all isAscii = true := by
  rw [List.all_append, ownerField, encodeOwner, all_isAscii_encodeCoordinate,
    all_isAscii_encodeCoordinate]
  rfl

theorem length_fields (key : ShareKey) :
    (key.ownerField ++ encodeCoordinate key.secret.scalar.toBytes).length = 2 * fieldWidth := by
  rw [List.length_append, length_ownerField, length_encodeCoordinate, Nat.two_mul]

/-- A share key is read from the fields of its owner and of its secret, and from no other text. -/
theorem ofText_eq_ok_iff {text : String} :
    ofText text = .ok key ↔
      text.toList = key.ownerField ++ encodeCoordinate key.secret.scalar.toBytes := by
  constructor
  · intro h
    unfold ofText ofChars at h
    split at h
    next hshape =>
      obtain ⟨owner, howner, h⟩ := Except.bind_eq_ok_iff.1 h
      obtain ⟨secret, hsecret, h⟩ := Except.bind_eq_ok_iff.1 h
      cases h
      rw [ownerField, decodeOwner_eq_ok_iff.1 howner, decodeSecret_eq_ok_iff.1 hsecret,
        List.take_append_drop]
    · contradiction
  · intro h
    have howner := key.length_ownerField
    rw [ofText, ofChars, h, if_pos ⟨key.all_isAscii_fields, key.length_fields⟩,
      List.take_left' howner, List.drop_left' howner]
    refine Except.bind_eq_ok_iff.2 ⟨key.owner, decodeOwner_encodeOwner _, ?_⟩
    exact Except.bind_eq_ok_iff.2 ⟨key.secret, decodeSecret_eq_ok_iff.2 rfl, rfl⟩

/-! ### What it gives to a list of keys -/

/-- **No key is dropped or misplaced.**  However a share key is built, from an owner's number and a
secret or from the text of both, it gives a list of keys as many entries as the list has keys, in
their order: the entry in the place of a key reads as the share of the owner that is the multiple of
the key by the secret. -/
theorem publicShares_exact (key : ShareKey) (keys : List PublicKey) :
    (∀ id secret, new id secret = .ok key ↔
      key.owner.scalar = Scalar.ofNat id.toNat ∧ key.secret.scalar = secret) ∧
    (∀ text, ofText text = .ok key ↔
      text.toList = key.ownerField ++ encodeCoordinate key.secret.scalar.toBytes) ∧
    (key.publicShares keys).length = keys.length ∧
    ∀ (n : Nat) (a : PublicKey), keys[n]? = some a →
      ∃ entry point, (key.publicShares keys)[n]? = some entry ∧
        Share.ofEntry entry = .ok ⟨key.owner, point⟩ ∧
          Point.finite point = key.secret.scalar • Point.finite a := by
  have hshares := key.forall₂_publicShares keys
  refine ⟨fun _ _ => new_eq_ok_iff, fun _ => ofText_eq_ok_iff, hshares.length_eq.symm, ?_⟩
  intro n a ha
  obtain ⟨hn, hget⟩ := List.getElem?_eq_some_iff.1 ha
  have hn' : n < (key.publicShares keys).length := hshares.length_eq ▸ hn
  have hshare : key.publicShare? keys[n] = some (key.publicShares keys)[n] :=
    hshares.get hn hn'
  obtain ⟨entry, hentry, point, hreads, hpoint⟩ := key.exists_publicShare? a
  rw [hget, hentry] at hshare
  have hplace : (key.publicShares keys)[n]? = some entry :=
    List.getElem?_eq_some_iff.2 ⟨hn', (Option.some.inj hshare).symm⟩
  exact ⟨entry, point, hplace, hreads, hpoint⟩

end ShareKey

end LinkCommittee
