import LinkCommittee.Proofs.Share.Canonical
import LinkCommittee.Proofs.Share.PublicShares

/-!
# Texts of share keys

A text of a share key is the field of the owner and the field of the secret.  A field spells
a number, so a text is read exactly if its two halves spell numbers that are scalars other
than zero (`ShareKey.ofText_eq_ok_iff_spells`); they are taken as they are or refused.  A key
that is made from a number and a secret is read back from its text.

Main statement: `ShareKey.ofText_exact`.
-/

namespace LinkCommittee

/-- The field of a 32-byte value is the text in base 64 that spells its number. -/
theorem encodeCoordinate_eq_iff_spells {bytes : Octets 32} {text : List Char} :
    encodeCoordinate bytes = text ↔ Base64.Spells text 32 bytes.toNat := by
  rw [encodeCoordinate, ← Base64.decode_eq_some_iff, Base64.decode_eq_some_iff_spells,
    bytes.length_toList]
  rfl

theorem Scalar.field_eq_iff_spells {a : Scalar} {text : List Char} :
    encodeCoordinate a.toBytes = text ↔ Base64.Spells text 32 a.val := by
  rw [encodeCoordinate_eq_iff_spells, Scalar.toNat_toBytes]

namespace ShareKey

/-- A text spells the two numbers of a share key.  It has 88 ASCII characters, the halves are the
fields of the numbers, and these are from one to below the group order. -/
structure Spells (text : List Char) (owner secret : Nat) : Prop where
  ascii : ∀ c ∈ text, c.toNat < 128
  length_eq : text.length = 88
  owner_field : Base64.Spells (text.take 44) 32 owner
  secret_field : Base64.Spells (text.drop 44) 32 secret
  owner_pos : 0 < owner
  owner_lt : owner < groupOrder
  secret_pos : 0 < secret
  secret_lt : secret < groupOrder

variable {text : String} {key : ShareKey} {owner secret : Nat}

theorem take_of_ofText (h : ofText text = .ok key) : text.toList.take 44 = key.ownerField := by
  rw [ofText_eq_ok_iff.1 h]
  exact List.take_left' key.length_ownerField

/-- **A share key is read from the texts that spell its two numbers**, and from no others. -/
theorem ofText_eq_ok_iff_spells :
    ofText text = .ok key ↔ Spells text.toList key.owner.scalar.val key.secret.scalar.val := by
  constructor
  · intro h
    have hfields := ofText_eq_ok_iff.1 h
    have hdrop : text.toList.drop 44 = encodeCoordinate key.secret.scalar.toBytes := by
      rw [hfields]
      exact List.drop_left' key.length_ownerField
    exact {
      ascii := all_isAscii_iff.1 (hfields ▸ key.all_isAscii_fields)
      length_eq := hfields ▸ key.length_fields
      owner_field := Scalar.field_eq_iff_spells.1 (take_of_ofText h).symm
      secret_field := Scalar.field_eq_iff_spells.1 hdrop.symm
      owner_pos := key.owner.val_pos
      owner_lt := key.owner.scalar.val_lt
      secret_pos := key.secret.val_pos
      secret_lt := key.secret.scalar.val_lt }
  · intro h
    have howner : encodeCoordinate key.owner.scalar.toBytes = text.toList.take 44 :=
      Scalar.field_eq_iff_spells.2 h.owner_field
    have hsecret : encodeCoordinate key.secret.scalar.toBytes = text.toList.drop 44 :=
      Scalar.field_eq_iff_spells.2 h.secret_field
    rw [ofText_eq_ok_iff, ownerField, encodeOwner, howner, hsecret, List.take_append_drop]

/-- A text that spells two numbers is read as the key that has them. -/
theorem Spells.exists_ofText (h : Spells text.toList owner secret) :
    ∃ key, ofText text = .ok key ∧ key.owner.scalar.val = owner ∧
      key.secret.scalar.val = secret := by
  obtain ⟨a, rfl⟩ := NonzeroScalar.exists_val h.owner_pos h.owner_lt
  obtain ⟨s, rfl⟩ := NonzeroScalar.exists_val h.secret_pos h.secret_lt
  exact ⟨⟨a, s⟩, ofText_eq_ok_iff_spells.2 h, rfl, rfl⟩

/-- **A share key that is made from a number and a secret is read back from its fields.** -/
theorem exists_new_of_fields {id : UInt64} {secret : Scalar} (hid : id ≠ 0)
    (hsecret : secret ≠ Scalar.zero) :
    ∃ key, new id secret = .ok key ∧ key.owner.scalar.val = id.toNat ∧
      key.secret.scalar = secret ∧
      ofText (String.ofList (key.ownerField ++ encodeCoordinate secret.toBytes)) = .ok key := by
  obtain ⟨key, hnew, howner, rfl⟩ := exists_new hid hsecret
  refine ⟨key, hnew, ?_, rfl, ofText_eq_ok_iff.2 String.toList_ofList⟩
  rw [howner, Scalar.val_ofNat_toNat]

/-- **Share keys and their texts.**  A text is read as a share key exactly if it consists of 88 ASCII
characters whose halves are the fields of two numbers from one to below the group order.  The key
has these numbers as its owner and its secret, and the field that names its owner is the first half
of the text.  A key that is made from a number and a secret, neither being zero, has this number and
this secret, and what is read from the field of its owner and the field of the secret is the same
key, so it gives the same public shares to every list of keys. -/
theorem ofText_exact :
    (∀ text : String, (∃ key, ofText text = .ok key) ↔
      ∃ owner secret, Spells text.toList owner secret) ∧
    (∀ (text : String) (key : ShareKey), ofText text = .ok key →
      (∀ owner secret, Spells text.toList owner secret →
        key.owner.scalar.val = owner ∧ key.secret.scalar.val = secret) ∧
      key.ownerField = text.toList.take 44) ∧
    ∀ (id : UInt64) (secret : Scalar), id ≠ 0 → secret ≠ Scalar.zero →
      ∃ key, new id secret = .ok key ∧ key.owner.scalar.val = id.toNat ∧
        key.secret.scalar = secret ∧
        ∃ key', ofText (String.ofList (key.ownerField ++ encodeCoordinate secret.toBytes)) =
            .ok key' ∧ key' = key ∧ ∀ keys, key'.publicShares keys = key.publicShares keys := by
  refine ⟨?_, ?_, ?_⟩
  · intro text
    constructor
    · intro h
      obtain ⟨key, hread⟩ := h
      exact ⟨_, _, ofText_eq_ok_iff_spells.1 hread⟩
    · intro h
      obtain ⟨owner, secret, hspells⟩ := h
      obtain ⟨key, hread, -, -⟩ := hspells.exists_ofText
      exact ⟨key, hread⟩
  · intro text key hread
    refine ⟨?_, (take_of_ofText hread).symm⟩
    intro owner secret hspells
    obtain ⟨key', hread', howner, hsecret⟩ := hspells.exists_ofText
    rw [hread] at hread'
    cases hread'
    exact ⟨howner, hsecret⟩
  · intro id secret hid hsecret
    obtain ⟨key, hnew, howner, hkey, hread⟩ := exists_new_of_fields hid hsecret
    exact ⟨key, hnew, howner, hkey, key, hread, rfl, fun keys => rfl⟩

/-- A text of member 2 is read, and the largest number with the largest secret is read back. -/
theorem ofText_exact_member_two :
    let front := "AAAAAAAAAAAAAAAAAAAAAAAAAAAAAAAAAAAAAAAAAAI="
    let back := "dwOoQA6zD-kc0KQHm7srZ7sePn_pkOIalCZGbTD1WrI="
    let secret := 0x7703a8400eb30fe91cd0a4079bbb2b67bb1e3e7fe990e21a9426466d30f55ab2
    Spells (front ++ back).toList 2 secret ∧
      (∃ key, ofText (front ++ back) = .ok key ∧ key.owner.scalar.val = 2 ∧
        key.secret.scalar.val = secret ∧ key.ownerField = (front ++ back).toList.take 44) ∧
      (0xffffffffffffffff : UInt64) ≠ 0 ∧ Scalar.ofNat (groupOrder - 1) ≠ Scalar.zero ∧
      ∃ key key', new 0xffffffffffffffff (Scalar.ofNat (groupOrder - 1)) = .ok key ∧
        ofText (String.ofList (key.ownerField ++
          encodeCoordinate (Scalar.ofNat (groupOrder - 1)).toBytes)) = .ok key' ∧
        ∀ keys, key'.publicShares keys = key.publicShares keys := by
  intro front back secret
  obtain ⟨hread, hparts, hmade⟩ := ofText_exact
  have hfront : encodeCoordinate (Scalar.ofNat 2).toBytes = (front ++ back).toList.take 44 := by
    decide +kernel
  have hback : encodeCoordinate (Scalar.ofNat secret).toBytes = (front ++ back).toList.drop 44 := by
    decide +kernel
  have hspells : Spells (front ++ back).toList 2 secret := {
    ascii := all_isAscii_iff.1 (by decide +kernel)
    length_eq := by decide +kernel
    owner_field := Scalar.field_eq_iff_spells.1 hfront
    secret_field := Scalar.field_eq_iff_spells.1 hback
    owner_pos := by decide
    owner_lt := by decide
    secret_pos := by decide
    secret_lt := by decide }
  obtain ⟨key, hkey⟩ := (hread _).2 ⟨_, _, hspells⟩
  obtain ⟨hnumbers, hfield⟩ := hparts _ key hkey
  obtain ⟨howner, hsecret⟩ := hnumbers _ _ hspells
  have hlargest : Scalar.ofNat (groupOrder - 1) ≠ Scalar.zero := by decide +kernel
  obtain ⟨made, hnew, -, -, made', hread', -, hshares⟩ :=
    hmade 0xffffffffffffffff (Scalar.ofNat (groupOrder - 1)) (by decide) hlargest
  exact ⟨hspells, ⟨key, hkey, howner, hsecret, hfield⟩, by decide, hlargest, made, made', hnew,
    hread', hshares⟩

end ShareKey

end LinkCommittee
