import LinkCommittee.Proofs.Address.Denotation

/-!
# The address of an owner

A public key is encoded under a tag for the parity of its ordinate, with both of its
coordinates, or, if the ordinate is even, under a tag that does not tell the parity
(`PublicKey.Encodes`).  These are read as the key and nothing else is read as a key, so the
address that is derived from a key does not depend on how the key was written.

The system's half of every address is cut out of the long form of the system key, without a
look at the curve.  What is cut out of the long form of a key is its compressed form
(`PublicKey.shorten_uncompressed`).

Main statement: `AbAddress.derive_exact`.
-/

namespace LinkCommittee

namespace PublicKey

/-- The encodings of a key. -/
inductive Encodes (key : PublicKey) : List UInt8 → Prop
  | even (parity : key.y.val % 2 = 0) : Encodes key (0x02 :: bigEndian 32 key.x.val)
  | odd (parity : key.y.val % 2 = 1) : Encodes key (0x03 :: bigEndian 32 key.x.val)
  | both : Encodes key (0x04 :: (bigEndian 32 key.x.val ++ bigEndian 32 key.y.val))
  | compact (parity : key.y.val % 2 = 0) : Encodes key (0x05 :: bigEndian 32 key.x.val)

/-- The tag for the parity of the last of 65 bytes, and the 32 bytes behind the first. -/
def shorten (raw : Octets 65) : Octets 33 where
  toList := (0x02 ||| (raw.toList.getD 64 0 &&& 1)) :: (raw.toList.drop 1).take 32
  length_toList := by simp [raw.length_toList]

variable {key : PublicKey} {code : List UInt8}

theorem isOdd_eq_false_iff : key.y.isOdd = false ↔ key.y.val % 2 = 0 := by
  unfold Residue.isOdd
  rw [beq_eq_false_iff_ne]
  omega

theorem compress_toList_of_even (h : key.y.val % 2 = 0) :
    key.compress.toList = 0x02 :: bigEndian 32 key.x.val := by
  rw [compress_toList, isOdd_eq_false_iff.2 h]
  rfl

theorem compress_toList_of_odd (h : key.y.val % 2 = 1) :
    key.compress.toList = 0x03 :: bigEndian 32 key.x.val := by
  have hodd : key.y.isOdd = true := beq_iff_eq.2 h
  rw [compress_toList, hodd]
  rfl

/-- A key is encoded by its compressed form. -/
theorem encodes_compress (key : PublicKey) : key.Encodes key.compress.toList := by
  rcases Nat.mod_two_eq_zero_or_one key.y.val with heven | hodd
  · rw [compress_toList_of_even heven]
    exact .even heven
  · rw [compress_toList_of_odd hodd]
    exact .odd hodd

/-- **A key is read from its encodings**, and from nothing else.  The forms are listed apart from
the parser, one for each tag. -/
theorem parse_eq_ok_iff_encodes : parse code = .ok key ↔ key.Encodes code := by
  rw [parse_eq_ok_iff, decode?_eq_some_iff]
  constructor
  · rintro (rfl | ⟨heven, rfl⟩ | rfl)
    · exact key.encodes_compress
    · exact .compact (isOdd_eq_false_iff.1 heven)
    · exact .both
  · intro h
    cases h with
    | even parity => exact .inl (compress_toList_of_even parity).symm
    | odd parity => exact .inl (compress_toList_of_odd parity).symm
    | both => exact .inr (.inr rfl)
    | compact parity => exact .inr (.inl ⟨isOdd_eq_false_iff.2 parity, rfl⟩)

/-- What encodes no key is refused. -/
theorem parse_eq_error (h : ∀ key : PublicKey, ¬key.Encodes code) :
    parse code = .error .invalidKey := by
  have hnone : decode? code = none := by
    rw [Option.eq_none_iff_forall_ne_some]
    intro key hread
    exact h key (parse_eq_ok_iff_encodes.1 (parse_eq_ok_iff.2 hread))
  rw [parse, hnone]

/-- The tag for the parity of the last byte of a number is the tag for its own parity. -/
theorem tag_of_last (number : Nat) :
    (0x02 ||| (UInt8.ofNat (number % 256) &&& 1) : UInt8) =
      if number % 2 == 1 then 0x03 else 0x02 := by
  have hbyte : ∀ byte < 256, (0x02 ||| (UInt8.ofNat byte &&& 1) : UInt8) =
      if byte % 2 == 1 then 0x03 else 0x02 := by decide +kernel
  rw [hbyte _ (Nat.mod_lt _ (by decide)), Nat.mod_mod_of_dvd _ (by decide)]

/-- **What is cut out of the long form of a key is its compressed form.** -/
theorem shorten_uncompressed (key : PublicKey) : shorten key.uncompressed = key.compress := by
  have hx : key.x.toBytes.toList.length = 32 := key.x.toBytes.length_toList
  have hsplit : key.uncompressed.toList =
      (0x04 :: (key.x.toBytes.toList ++ bigEndian 31 (key.y.val / 256))) ++
        [UInt8.ofNat (key.y.val % 256)] := by
    rw [uncompressed_toList, List.cons_append, List.append_assoc, ← bigEndian_succ]
    rfl
  have hlast : key.uncompressed.toList.getD 64 0 = UInt8.ofNat (key.y.val % 256) := by
    rw [hsplit, List.getD_eq_getElem?_getD, List.getElem?_append_right (by simp [hx])]
    simp [hx]
  have habscissa : (key.uncompressed.toList.drop 1).take 32 = key.x.toBytes.toList := by
    rw [uncompressed_toList, List.drop_one, List.tail_cons, List.take_left' hx]
  apply Octets.ext
  calc (shorten key.uncompressed).toList
      = (0x02 ||| (key.uncompressed.toList.getD 64 0 &&& 1)) ::
          (key.uncompressed.toList.drop 1).take 32 := rfl
    _ = (if key.y.val % 2 == 1 then 0x03 else 0x02) :: key.x.toBytes.toList := by
        rw [hlast, habscissa, tag_of_last]
    _ = key.compress.toList := rfl

end PublicKey

namespace AbAddress

variable {key : PublicKey} {code : List UInt8}

/-- From an encoded key the address of its owner is derived. -/
theorem derive_of_encodes (h : key.Encodes code) : derive code = .ok (ofOwner key) := by
  rw [derive, PublicKey.parse_eq_ok_iff_encodes.2 h]
  rfl

/-- From what encodes no key nothing is derived. -/
theorem derive_eq_error (h : ∀ key : PublicKey, ¬key.Encodes code) :
    derive code = .error .invalidKey := by
  rw [derive, PublicKey.parse_eq_error h]
  rfl

/-- The second half of every owner's address is cut out of the long form of the system key. -/
theorem ofOwner_eq_ofParts (key : PublicKey) :
    ofOwner key = ofParts key.compress (PublicKey.shorten systemKey.uncompressed) := by
  rw [PublicKey.shorten_uncompressed]
  rfl

/-- Addresses are told apart by their keys. -/
theorem ofKeys_inj {first second first' second' : PublicKey} :
    ofKeys first second = ofKeys first' second' ↔ first = first' ∧ second = second' := by
  constructor
  · intro h
    have hread := decompress_ofKeys first second
    rw [h, decompress_ofKeys] at hread
    exact Prod.mk.inj (Except.ok.inj hread).symm
  · rintro ⟨rfl, rfl⟩
    rfl

/-- **Addresses identify keys, however these were written.**  A key is read from its encodings; from
each of them the address of its owner is derived, and from what encodes no key none is.  The address
of an owner has the compressed key and what is cut out of the system key for its halves, and denotes
the two keys.  An address made of two keys denotes them, so it is made of no others. -/
theorem derive_exact :
    (∀ (key : PublicKey) (code : List UInt8), PublicKey.parse code = .ok key ↔ key.Encodes code) ∧
    (∀ (key : PublicKey) (code : List UInt8), key.Encodes code →
      derive code = .ok (ofOwner key)) ∧
    (∀ code, (∀ key : PublicKey, ¬key.Encodes code) → derive code = .error .invalidKey) ∧
    (∀ key, ofOwner key = ofParts key.compress (PublicKey.shorten systemKey.uncompressed) ∧
      (ofOwner key).decompress = .ok (key, systemKey)) ∧
    (∀ first second, (ofKeys first second).decompress = .ok (first, second)) ∧
    ∀ first second first' second', ofKeys first second = ofKeys first' second' ↔
      first = first' ∧ second = second' := by
  refine ⟨?_, ?_, ?_, ?_, decompress_ofKeys, fun _ _ _ _ => ofKeys_inj⟩
  · intro key code
    exact PublicKey.parse_eq_ok_iff_encodes
  · intro key code hencodes
    exact derive_of_encodes hencodes
  · intro code hnone
    exact derive_eq_error hnone
  · intro key
    exact ⟨ofOwner_eq_ofParts key, decompress_ofKeys key systemKey⟩

/-- The generator has an even ordinate, so its address is derived from all three of its encodings.
From the byte of the identity none is. -/
theorem derive_exact_generator :
    ∃ key : PublicKey, Point.finite key = Point.generator ∧ key.y.val % 2 = 0 ∧
      derive (0x02 :: bigEndian 32 key.x.val) = .ok (ofOwner key) ∧
      derive (0x05 :: bigEndian 32 key.x.val) = .ok (ofOwner key) ∧
      derive (0x04 :: (bigEndian 32 key.x.val ++ bigEndian 32 key.y.val)) = .ok (ofOwner key) ∧
      derive [0x00] = .error .invalidKey := by
  obtain ⟨-, hderived, hrefused, -⟩ := derive_exact
  obtain ⟨key, hkey⟩ : ∃ key, Point.finite key = Point.generator := ⟨_, rfl⟩
  have heven : key.y.val % 2 = 0 := by
    cases hkey
    decide
  have hidentity : ∀ other : PublicKey, ¬other.Encodes [0x00] := by
    intro other hencodes
    cases hencodes
  exact ⟨key, hkey, heven, hderived key _ (.even heven), hderived key _ (.compact heven),
    hderived key _ .both, hrefused _ hidentity⟩

end AbAddress

end LinkCommittee
