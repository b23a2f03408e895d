import LinkCommittee.Ring.Encoding
import LinkCommittee.Proofs.Curve.Encoding
import LinkCommittee.Proofs.Except
import LinkCommittee.Proofs.Ring.Validation
import LinkCommittee.Proofs.Text.Hex

/-!
# The canonical encoding of signatures

A reader inverts a writer when it takes an item off the front exactly where the item
was written (`Inverts`).  The readers of keys and scalars do, one after the other they
still do, and the check of the length leaves nothing behind the last response.  So a
byte string is read as a signature exactly when it is what writing the signature gives.

Main statement: `RingSignature.encoding_canonical`.
-/

namespace LinkCommittee

namespace AnonymitySet

/-- The size of a ring is read back from its four bytes. -/
theorem natOfLittleEndian_size (set : AnonymitySet) :
    natOfLittleEndian (littleEndian 4 set.size) = set.size := by
  have hsize : set.size ≤ 4096 := set.length_le
  rw [natOfLittleEndian_littleEndian, Nat.mod_eq_of_lt (by omega)]

end AnonymitySet

namespace RingSignature

/-- To read some bytes is to cut them off the front. -/
theorem readBytes_eq_ok_iff {width : Nat} {bytes code rest : List UInt8} :
    readBytes width bytes = .ok (code, rest) ↔ code.length = width ∧ bytes = code ++ rest := by
  unfold readBytes
  constructor
  · intro h
    split at h
    · contradiction
    · cases h
      exact ⟨by simp; omega, (List.take_append_drop width bytes).symm⟩
  · intro h
    obtain ⟨rfl, rfl⟩ := h
    simp

/-- A reader takes an item off the front exactly where it was written. -/
def Inverts {α : Type} (read : List UInt8 → Except RingError (α × List UInt8))
    (write : α → List UInt8) : Prop :=
  ∀ bytes item rest, read bytes = .ok (item, rest) ↔ bytes = write item ++ rest

/-- A key is read from its compressed form and from no other. -/
theorem readKey_inverts : Inverts readKey fun key => key.compress.toList := by
  intro bytes key rest
  unfold readKey
  rw [Except.bind_eq_ok_iff]
  constructor
  · intro h
    obtain ⟨⟨code, rest'⟩, hread, h⟩ := h
    obtain ⟨-, rfl⟩ := readBytes_eq_ok_iff.1 hread
    dsimp only at h
    split at h
    next htag =>
      split at h
      next key' hkey =>
        cases h
        show code ++ rest = key.compress.toList ++ rest
        rw [PublicKey.compress_of_decode? htag hkey]
      · contradiction
    · contradiction
  · intro h
    subst h
    refine ⟨(key.compress.toList, rest),
      readBytes_eq_ok_iff.2 ⟨key.compress.length_toList, rfl⟩, ?_⟩
    have htag : key.compress.toList.head? = some 0x02 ∨ key.compress.toList.head? = some 0x03 := by
      rw [PublicKey.compress_toList, List.head?_cons]
      split
      · exact .inr rfl
      · exact .inl rfl
    dsimp only
    rw [if_pos htag, PublicKey.decode?_compress]

/-- A scalar is read from its bytes and from no others. -/
theorem readScalar_inverts : Inverts readScalar fun scalar => scalar.toBytes.toList := by
  intro bytes scalar rest
  unfold readScalar
  rw [Except.bind_eq_ok_iff]
  constructor
  · intro h
    obtain ⟨⟨code, rest'⟩, hread, h⟩ := h
    obtain ⟨hlength, rfl⟩ := readBytes_eq_ok_iff.1 hread
    dsimp only at h
    split at h
    next scalar' hscalar =>
      cases h
      show code ++ rest = scalar.toBytes.toList ++ rest
      rw [(Scalar.ofBytes?_eq_some_iff hlength).1 hscalar]
    · contradiction
  · intro h
    subst h
    refine ⟨(scalar.toBytes.toList, rest),
      readBytes_eq_ok_iff.2 ⟨scalar.toBytes.length_toList, rfl⟩, ?_⟩
    dsimp only
    rw [Scalar.ofBytes?_toBytes]

/-- Reading items one after the other inverts writing them one after the other. -/
theorem readMany_eq_ok_iff {α : Type} {read : List UInt8 → Except RingError (α × List UInt8)}
    {write : α → List UInt8} (hread : Inverts read write) {count : Nat} {bytes rest : List UInt8}
    {items : { items : List α // items.length = count }} :
    readMany read count bytes = .ok (items, rest) ↔ bytes = items.1.flatMap write ++ rest := by
  induction count generalizing bytes with
  | zero =>
    obtain ⟨items, hitems⟩ := items
    obtain rfl := List.length_eq_zero_iff.1 hitems
    rw [readMany]
    exact ⟨fun h => by cases h; rfl, fun h => by rw [h]; rfl⟩
  | succ count ih =>
    obtain ⟨items, hitems⟩ := items
    obtain ⟨first, others, rfl⟩ := List.exists_cons_of_length_eq_add_one hitems
    rw [readMany, Except.bind_eq_ok_iff]
    constructor
    · intro h
      obtain ⟨⟨item, rest'⟩, hfirst, h⟩ := h
      obtain rfl := (hread _ _ _).1 hfirst
      obtain ⟨⟨others', rest''⟩, hothers, h⟩ := Except.bind_eq_ok_iff.1 h
      cases h
      obtain rfl := ih.1 hothers
      rw [List.flatMap_cons, List.append_assoc]
    · intro h
      subst h
      rw [List.flatMap_cons, List.append_assoc]
      refine ⟨(first, others.flatMap write ++ rest), (hread _ _ _).2 rfl, ?_⟩
      have hothers : others.length = count := Nat.succ.inj hitems
      exact Except.bind_eq_ok_iff.2 ⟨(⟨others, hothers⟩, rest), ih.2 rfl, rfl⟩

/-- What stands behind the keys of a signature: the image, the challenge and the responses. -/
def bytesOver (signature : RingSignature) : List UInt8 :=
  signature.image.compress.toList ++ (signature.challenge.toBytes.toList ++
    signature.responses.flatMap fun response => response.toBytes.toList)

/-- The bytes of a signature are its size, its keys, and the rest of it over these. -/
theorem toBytes_eq (signature : RingSignature) :
    signature.toBytes = littleEndian 4 signature.set.size ++
      (signature.set.keys.flatMap (fun key => key.compress.toList) ++ signature.bytesOver) := by
  simp only [toBytes, bytesOver, List.append_assoc]

/-- Over a set of keys a signature is read from its own bytes and from no others. -/
theorem readOver_eq_ok_iff {set : AnonymitySet} {bytes : List UInt8} {signature : RingSignature} :
    readOver set bytes = .ok signature ↔
      signature.set = set ∧ ∃ rest, bytes = signature.bytesOver ++ rest := by
  unfold readOver
  constructor
  · intro h
    obtain ⟨⟨image, rest⟩, himage, h⟩ := Except.bind_eq_ok_iff.1 h
    obtain ⟨⟨challenge, rest'⟩, hchallenge, h⟩ := Except.bind_eq_ok_iff.1 h
    obtain ⟨⟨responses, rest''⟩, hresponses, h⟩ := Except.bind_eq_ok_iff.1 h
    cases h
    obtain rfl := (readKey_inverts _ _ _).1 himage
    obtain rfl := (readScalar_inverts _ _ _).1 hchallenge
    obtain rfl := (readMany_eq_ok_iff readScalar_inverts).1 hresponses
    exact ⟨rfl, rest'', by simp only [bytesOver, List.append_assoc]⟩
  · obtain ⟨set', image, challenge, responses, hlength⟩ := signature
    intro h
    obtain ⟨rfl, rest, rfl⟩ := h
    rw [bytesOver, List.append_assoc, List.append_assoc]
    refine Except.bind_eq_ok_iff.2 ⟨(image, _), (readKey_inverts _ _ _).2 rfl, ?_⟩
    refine Except.bind_eq_ok_iff.2 ⟨(challenge, _), (readScalar_inverts _ _ _).2 rfl, ?_⟩
    exact Except.bind_eq_ok_iff.2
      ⟨(⟨responses, hlength⟩, rest), (readMany_eq_ok_iff readScalar_inverts).2 rfl, rfl⟩

/-- The length of an encoded signature is told by the number of its keys. -/
theorem length_toBytes (signature : RingSignature) :
    signature.toBytes.length = encodedLength signature.set.size := by
  simp only [toBytes, encodedLength, List.length_append, length_littleEndian, List.length_flatMap,
    Octets.length_toList, List.map_const', List.sum_replicate, smul_eq_mul,
    signature.length_responses, AnonymitySet.keys, List.length_map, AnonymitySet.size]
  ring

/-- What is read as a signature is written as it was read. -/
theorem toBytes_of_ofBytes {bytes : List UInt8} {signature : RingSignature}
    (h : ofBytes bytes = .ok signature) : signature.toBytes = bytes := by
  obtain ⟨⟨code, rest⟩, hcode, h⟩ := Except.bind_eq_ok_iff.1 h
  obtain ⟨hcodeLength, rfl⟩ := readBytes_eq_ok_iff.1 hcode
  dsimp only at h
  split at h
  · contradiction
  split at h
  · contradiction
  next hlength =>
    obtain ⟨⟨keys, rest'⟩, hkeys, hover⟩ := Except.bind_eq_ok_iff.1 h
    obtain rfl := (readMany_eq_ok_iff readKey_inverts).1 hkeys
    dsimp only at hover
    split at hover
    · contradiction
    next set hset =>
      obtain ⟨rfl, rest'', rfl⟩ := readOver_eq_ok_iff.1 hover
      have hsize : natOfLittleEndian code = signature.set.size := by
        rw [AnonymitySet.size_of_ofKeys hset, keys.2]
      have hwritten : signature.toBytes ++ rest'' =
          code ++ (keys.1.flatMap (fun key => key.compress.toList) ++
            (signature.bytesOver ++ rest'')) := by
        rw [toBytes_eq, ← hsize, ← hcodeLength, littleEndian_natOfLittleEndian,
          AnonymitySet.keys_of_ofKeys hset, List.append_assoc, List.append_assoc]
      -- the check of the length leaves no room behind the last response
      have hrest : rest'' = [] := by
        rw [not_not, ← hwritten, List.length_append, length_toBytes, hsize] at hlength
        exact List.length_eq_zero_iff.1 (by omega)
      rw [← hwritten, hrest, List.append_nil]

/-- **A signature is read back.** -/
theorem ofBytes_toBytes (signature : RingSignature) :
    ofBytes signature.toBytes = .ok signature := by
  have hsize := AnonymitySet.natOfLittleEndian_size signature.set
  have hpos := AnonymitySet.size_pos signature.set
  have hbound : signature.set.size ≤ maxRingSize := signature.set.length_le
  have hkeys : signature.set.keys.length = signature.set.size := List.length_map _
  have hcode : readBytes 4 signature.toBytes = .ok (littleEndian 4 signature.set.size,
      signature.set.keys.flatMap (fun key => key.compress.toList) ++ signature.bytesOver) :=
    readBytes_eq_ok_iff.2 ⟨length_littleEndian _ _, toBytes_eq signature⟩
  refine Except.bind_eq_ok_iff.2 ⟨_, hcode, ?_⟩
  dsimp only
  rw [hsize, if_neg (by omega), if_neg (not_not_intro (length_toBytes signature))]
  refine Except.bind_eq_ok_iff.2 ⟨(⟨signature.set.keys, hkeys⟩, signature.bytesOver),
    (readMany_eq_ok_iff readKey_inverts).2 rfl, ?_⟩
  dsimp only
  rw [AnonymitySet.ofKeys_keys]
  exact readOver_eq_ok_iff.2 ⟨rfl, [], (List.append_nil _).symm⟩

/-- **A signature is decoded from its bytes and from no others.**  Keys and scalars have one form
each, and nothing may stand behind the last. -/
theorem ofBytes_eq_ok_iff {bytes : List UInt8} {signature : RingSignature} :
    ofBytes bytes = .ok signature ↔ bytes = signature.toBytes := by
  constructor
  · intro h
    exact (toBytes_of_ofBytes h).symm
  · intro h
    rw [h, ofBytes_toBytes]

/-- A code is the compressed form of a key: `02` for an even ordinate or `03` for an odd one, and
the abscissa in 32 bytes, most significant first. -/
def IsCompressed (code : List UInt8) (key : PublicKey) : Prop :=
  ∃ abscissa : List UInt8, code = (if key.y.isOdd then 0x03 else 0x02) :: abscissa ∧
    abscissa.length = 32 ∧ natOfBigEndian abscissa = key.x.val

/-- A compressed key is the form that it is encoded in. -/
theorem isCompressed_iff {code : List UInt8} {key : PublicKey} :
    IsCompressed code key ↔ code = key.compress.toList := by
  constructor
  · intro h
    obtain ⟨abscissa, rfl, hlength, hvalue⟩ := h
    have hwritten := bigEndian_natOfBigEndian abscissa
    rw [hlength, hvalue] at hwritten
    rw [PublicKey.compress_toList, ← hwritten]
    rfl
  · intro h
    subst h
    refine ⟨key.x.toBytes.toList, PublicKey.compress_toList key, key.x.toBytes.length_toList, ?_⟩
    exact Residue.ofNat?_eq_some_iff.1 (Coordinate.ofBytes?_toBytes key.x) |>.symm

/-- Compressed keys are how these keys are encoded. -/
theorem map_compress_of_forall₂ {points : List (List UInt8)} {keys : List PublicKey}
    (h : List.Forall₂ IsCompressed points keys) :
    points = keys.map fun key => key.compress.toList := by
  induction h with
  | nil => rfl
  | cons hcode _ ih => rw [List.map_cons, isCompressed_iff.1 hcode, ih]

/-- Keys are encoded as compressed keys. -/
theorem forall₂_map_compress (keys : List PublicKey) :
    List.Forall₂ IsCompressed (keys.map fun key => key.compress.toList) keys := by
  induction keys with
  | nil => exact .nil
  | cons key keys ih => exact .cons (isCompressed_iff.2 rfl) ih

/-- Words of 32 bytes that spell numbers below the group order are the bytes of scalars. -/
theorem exists_map_toBytes {codes : List (List UInt8)}
    (h : ∀ code ∈ codes, code.length = 32 ∧ natOfBigEndian code < groupOrder) :
    ∃ scalars : List Scalar, codes = scalars.map fun scalar => scalar.toBytes.toList := by
  induction codes with
  | nil => exact ⟨[], rfl⟩
  | cons code codes ih =>
    obtain ⟨hlength, hlt⟩ := h code List.mem_cons_self
    obtain ⟨scalars, rfl⟩ := ih fun other hother => h other (List.mem_cons_of_mem _ hother)
    have hread : Scalar.ofBytes? code = some ⟨natOfBigEndian code, hlt⟩ := dif_pos hlt
    refine ⟨⟨natOfBigEndian code, hlt⟩ :: scalars, ?_⟩
    rw [List.map_cons, (Scalar.ofBytes?_eq_some_iff hlength).1 hread]

/-- The canonical form of a signature: the number of keys in four bytes, least significant first;
the compressed keys of an accepted set; a compressed key image; the challenge and the responses,
each 32 bytes that spell a number below the group order; and nothing after them. -/
structure CanonicalForm (bytes : List UInt8) where
  count : List UInt8
  points : List (List UInt8)
  image : List UInt8
  scalars : List (List UInt8)
  bytes_eq : bytes = count ++ points.flatten ++ image ++ scalars.flatten
  length_count : count.length = 4
  one_le_count : 1 ≤ natOfLittleEndian count
  count_le : natOfLittleEndian count ≤ maxRingSize
  length_points : points.length = natOfLittleEndian count
  length_scalars : scalars.length = 1 + natOfLittleEndian count
  keys : List PublicKey
  compressed_points : List.Forall₂ IsCompressed points keys
  set : AnonymitySet
  accepted : AnonymitySet.ofKeys keys = .ok set
  imageKey : PublicKey
  compressed_image : IsCompressed image imageKey
  reduced_scalars : ∀ code ∈ scalars, code.length = 32 ∧ natOfBigEndian code < groupOrder

/-- A canonical form is what some signature is written as. -/
theorem CanonicalForm.exists_toBytes {bytes : List UInt8} (form : CanonicalForm bytes) :
    ∃ signature : RingSignature, signature.toBytes = bytes := by
  obtain ⟨scalars, hscalars⟩ := exists_map_toBytes form.reduced_scalars
  have hpoints := map_compress_of_forall₂ form.compressed_points
  have hcount : form.set.size = natOfLittleEndian form.count := by
    rw [AnonymitySet.size_of_ofKeys form.accepted, ← form.length_points, hpoints, List.length_map]
  have hlength : scalars.length = form.set.size + 1 := by
    rw [hcount, Nat.add_comm, ← form.length_scalars, hscalars, List.length_map]
  obtain ⟨challenge, responses, rfl⟩ := List.exists_cons_of_length_eq_add_one hlength
  refine ⟨⟨form.set, form.imageKey, challenge, responses, Nat.succ.inj hlength⟩,
    Eq.trans ?_ form.bytes_eq.symm⟩
  have hcode := littleEndian_natOfLittleEndian form.count
  rw [form.length_count, ← hcount] at hcode
  rw [toBytes_eq, hcode, AnonymitySet.keys_of_ofKeys form.accepted, hpoints, hscalars,
    isCompressed_iff.1 form.compressed_image]
  simp only [bytesOver, List.flatMap_def, List.map_cons, List.flatten_cons, List.append_assoc]

/-- What a signature is written as is a canonical form. -/
def canonicalForm (signature : RingSignature) : CanonicalForm signature.toBytes where
  count := littleEndian 4 signature.set.size
  points := signature.set.keys.map fun key => key.compress.toList
  image := signature.image.compress.toList
  scalars := (signature.challenge :: signature.responses).map fun scalar => scalar.toBytes.toList
  bytes_eq := by
    simp only [toBytes, List.flatMap_def, List.map_cons, List.flatten_cons, List.append_assoc]
  length_count := length_littleEndian _ _
  one_le_count := by
    rw [AnonymitySet.natOfLittleEndian_size]
    exact AnonymitySet.size_pos signature.set
  count_le := by
    rw [AnonymitySet.natOfLittleEndian_size]
    exact signature.set.length_le
  length_points := by
    rw [AnonymitySet.natOfLittleEndian_size, List.length_map]
    exact List.length_map _
  length_scalars := by
    rw [AnonymitySet.natOfLittleEndian_size, List.length_map, List.length_cons,
      signature.length_responses, Nat.add_comm]
  keys := signature.set.keys
  compressed_points := forall₂_map_compress _
  set := signature.set
  accepted := AnonymitySet.ofKeys_keys _
  imageKey := signature.image
  compressed_image := isCompressed_iff.2 rfl
  reduced_scalars := by
    intro code hcode
    obtain ⟨scalar, -, rfl⟩ := List.mem_map.1 hcode
    have hvalue := Residue.ofNat?_eq_some_iff.1 (Scalar.ofBytes?_toBytes scalar)
    exact ⟨scalar.toBytes.length_toList, hvalue ▸ scalar.val_lt⟩

/-- A signature is decoded from the hexadecimal spellings of its bytes. -/
theorem ofChars_eq_ok_iff {text : List Char} {signature : RingSignature} :
    ofChars text = .ok signature ↔ ∃ bytes, Hex.decode text = some bytes ∧
      ofBytes bytes = .ok signature := by
  unfold ofChars
  cases Hex.decode text with
  | none => simp
  | some bytes => simp

/-- **A signature is read back from its text.** -/
theorem ofChars_toChars (signature : RingSignature) : ofChars signature.toChars = .ok signature :=
  ofChars_eq_ok_iff.2 ⟨_, Hex.decode_encode _, ofBytes_toBytes signature⟩

/-- **Signatures have one encoding.**  A byte string is read exactly when it has the canonical form,
and it is then what the signature read is written as.  Every signature has as many responses as
keys, is written in the length for its size, and is read back.  As text it is the same up to the
case of the digits. -/
theorem encoding_canonical :
    (∀ bytes, (∃ signature, ofBytes bytes = .ok signature) ↔ Nonempty (CanonicalForm bytes)) ∧
    (∀ bytes signature, ofBytes bytes = .ok signature → signature.toBytes = bytes) ∧
    (∀ signature : RingSignature, signature.responses.length = signature.set.size ∧
      signature.toBytes.length =
        4 + 33 * signature.set.size + 33 + 32 + 32 * signature.set.size ∧
      ofBytes signature.toBytes = .ok signature) ∧
    (∀ text signature, ofChars text = .ok signature →
      signature.toChars = text.map Char.toLower) ∧
    ∀ signature : RingSignature, ofChars signature.toChars = .ok signature := by
  refine ⟨?_, ?_, ?_, ?_, ?_⟩
  · intro bytes
    constructor
    · intro h
      obtain ⟨signature, h⟩ := h
      obtain rfl := toBytes_of_ofBytes h
      exact ⟨canonicalForm signature⟩
    · intro h
      obtain ⟨form⟩ := h
      obtain ⟨signature, rfl⟩ := form.exists_toBytes
      exact ⟨signature, ofBytes_toBytes signature⟩
  · exact fun _ _ => toBytes_of_ofBytes
  · exact fun signature =>
      ⟨signature.length_responses, length_toBytes signature, ofBytes_toBytes signature⟩
  · intro text signature h
    obtain ⟨bytes, hdecode, h⟩ := ofChars_eq_ok_iff.1 h
    rw [toChars, toBytes_of_ofBytes h, Hex.encode_of_decode hdecode]
  · exact ofChars_toChars

/-- A signature over the generator alone. -/
theorem encoding_canonical_generator :
    ∃ signature : RingSignature, signature.set.size = 1 ∧ signature.toBytes.length = 134 ∧
      Nonempty (CanonicalForm signature.toBytes) ∧
      signature.toChars = signature.toChars.map Char.toLower := by
  obtain ⟨key, -, pair, hpair⟩ := AnonymitySet.exists_ofKeys_opposite
  have hmem : [key] ⊆ pair.keys := by
    rw [AnonymitySet.keys_of_ofKeys hpair]
    exact List.subset_cons_self _ _
  obtain ⟨set, hset⟩ := (pair.acceptable_keys.of_subset (List.cons_ne_nil _ _)
    (List.nodup_singleton key) hmem).exists_set
  have hsize : set.size = 1 := AnonymitySet.size_of_ofKeys (AnonymitySet.ofKeys_eq_ok_iff.2 hset)
  let signature : RingSignature := ⟨set, key, 0, [1], hsize.symm⟩
  obtain ⟨hread, -, hany, htext, hchars⟩ := encoding_canonical
  obtain ⟨-, hlength, hbytes⟩ := hany signature
  rw [show signature.set.size = 1 from hsize] at hlength
  exact ⟨signature, hsize, hlength, (hread _).1 ⟨signature, hbytes⟩,
    htext _ signature (hchars signature)⟩

end RingSignature

end LinkCommittee
