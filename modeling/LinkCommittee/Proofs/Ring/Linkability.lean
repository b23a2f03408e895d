import LinkCommittee.Ring.Scheme
import LinkCommittee.Proofs.Ring.Completeness
import LinkCommittee.Proofs.Ring.Encoding
import LinkCommittee.Proofs.Ring.Validation

/-!
# Signatures with one key are linked

The key image of a witness is the multiple, by the signing key, of the base of the member at
its place.  Members carry the base of their own key, so wherever the public key stands in a
set, and whoever else is in it, the base is the point that the public key hashes to.  Signing
hands the image on, and so does writing the signature and reading it back.

Main statement: `RingSignature.honest_linked`.
-/

namespace LinkCommittee

/-- **The key image of a signing key** is its multiple of the point that its public key hashes to,
in every set. -/
theorem Witness.image_eq_of_hashesTo {home : AnonymitySet} {secret : NonzeroScalar}
    {witness : Witness} (hwitness : new home secret = .ok witness) {key base : PublicKey}
    (hkey : secret.publicPoint = .finite key) (hbase : key.HashesTo imageBaseUse base) :
    Point.finite witness.image = secret.scalar • Point.finite base := by
  obtain ⟨-, member, -, hmember, himage⟩ := of_new hwitness
  obtain rfl : member.key = key := Point.finite.inj (hmember.trans hkey)
  have hsame := PublicKey.hashToCurve?_eq_some_iff.2 hbase
  rw [member.base_eq] at hsame
  rw [himage, Option.some.inj hsame]

namespace RingSignature

/-- A signature shows the image of the witness that made it. -/
theorem image_of_sign {witness : Witness} {set : AnonymitySet} {message : List UInt8}
    {entropy : Octets 32} {signature : RingSignature}
    (h : sign witness set message entropy = .ok signature) : signature.image = witness.image := by
  obtain ⟨signer, -, -, hcloses⟩ := sign_eq_ok_iff.1 h
  exact hcloses.image_eq

/-- The scheme hands out the texts of the signature and of its image. -/
theorem signText_of_sign {secret : NonzeroScalar} {witness : Witness} {set : AnonymitySet}
    (hwitness : Witness.new set secret = .ok witness) {message : List UInt8} {entropy : Octets 32}
    {signature : RingSignature} (hsigned : sign witness set message entropy = .ok signature) :
    signText message secret set.keys entropy =
      .ok ⟨signature.toChars, Hex.encode signature.image.compress.toList⟩ := by
  refine Except.bind_eq_ok_iff.2 ⟨set, AnonymitySet.ofKeys_keys set, ?_⟩
  refine Except.bind_eq_ok_iff.2 ⟨witness, hwitness, ?_⟩
  exact Except.bind_eq_ok_iff.2 ⟨signature, hsigned, rfl⟩

/-- A signing key shows an image over a set: it has a witness with this image, and it signs every
message with signatures of this image; their texts come with the text of the image and are read
back with the image. -/
def ShowsImage (secret : NonzeroScalar) (set : AnonymitySet) (image : PublicKey) : Prop :=
  ∃ witness, Witness.new set secret = .ok witness ∧ witness.image = image ∧
    ∀ message entropy, ∃ signature, sign witness set message entropy = .ok signature ∧
      signature.image = image ∧
      RingScheme.linkable.sign message secret set.keys entropy =
        .ok ⟨signature.toChars, Hex.encode image.compress.toList⟩ ∧
      ∃ opened, ofChars signature.toChars = .ok opened ∧ opened.image = image

/-- A signing key shows its key image over every set with its public key. -/
theorem showsImage_of_mem {secret : NonzeroScalar} {key base image : PublicKey}
    (hkey : secret.publicPoint = .finite key) (hbase : key.HashesTo imageBaseUse base)
    (himage : Point.finite image = secret.scalar • Point.finite base) {set : AnonymitySet}
    (hmem : key ∈ set.keys) : ShowsImage secret set image := by
  obtain ⟨witness, hwitness⟩ := Witness.exists_new hmem hkey
  have hshown : witness.image = image :=
    Point.finite.inj ((Witness.image_eq_of_hashesTo hwitness hkey hbase).trans himage.symm)
  obtain ⟨hsecret, member, hmember, hmemberKey, -⟩ := Witness.of_new hwitness
  rw [← hsecret] at hmemberKey
  refine ⟨witness, hwitness, hshown, fun message entropy => ?_⟩
  obtain ⟨signature, hsigned, -⟩ :=
    exists_sign_verify hwitness hmember hmemberKey message entropy
  have hcarried : signature.image = image := (image_of_sign hsigned).trans hshown
  have htext := signText_of_sign hwitness hsigned
  rw [hcarried] at htext
  exact ⟨signature, hsigned, hcarried, htext, signature, ofChars_toChars signature, hcarried⟩

/-- **Honest signatures are linked.**  Over any two sets that hold the public key of a signing key,
in whatever places and among whatever other keys, the witnesses, all signatures and their texts
show one key image: the multiple by the signing key of the point that the public key hashes to. -/
theorem honest_linked (secret : NonzeroScalar) :
    ∃ key, secret.publicPoint = .finite key ∧
      ∀ first second : AnonymitySet, key ∈ first.keys → key ∈ second.keys →
        ∃ base image, key.HashesTo imageBaseUse base ∧
          Point.finite image = Point.scale secret.scalar (.finite base) ∧
          ShowsImage secret first image ∧ ShowsImage secret second image := by
  obtain ⟨key, hkey⟩ : ∃ key, secret.publicPoint = .finite key := secret.exists_smul_finite _
  refine ⟨key, hkey, fun first second hfirst hsecond => ?_⟩
  obtain ⟨base, hbase⟩ := first.acceptable_keys.hashed key hfirst
  obtain ⟨image, himage⟩ := secret.exists_smul_finite base
  exact ⟨base, image, hbase, himage.symm, showsImage_of_mem hkey hbase himage.symm hfirst,
    showsImage_of_mem hkey hbase himage.symm hsecond⟩

/-- The secret one shows one image behind the opposite of its public key and in front of it. -/
theorem honest_linked_opposite :
    ∃ (key : PublicKey) (first second : AnonymitySet) (secret : NonzeroScalar),
      secret.publicPoint = .finite key ∧ first.keys = [key.opposite, key] ∧
      second.keys = [key, key.opposite] ∧ key ∈ first.keys ∧ key ∈ second.keys ∧
      ∃ image, ShowsImage secret first image ∧ ShowsImage secret second image := by
  obtain ⟨key, hgenerator, first, hset⟩ := AnonymitySet.exists_ofKeys_opposite
  have hfirst : first.keys = [key.opposite, key] := AnonymitySet.keys_of_ofKeys hset
  have haccepted := first.acceptable_keys
  rw [hfirst] at haccepted
  have hswap : [key.opposite, key].Perm [key, key.opposite] := .swap _ _ _
  obtain ⟨second, hsecond⟩ := (haccepted.of_subset (List.cons_ne_nil _ _)
    (hswap.nodup_iff.1 haccepted.distinct) hswap.symm.subset).exists_set
  let secret : NonzeroScalar := ⟨1, by decide⟩
  have hpublic : secret.publicPoint = .finite key :=
    (one_smul Scalar Point.generator).trans hgenerator
  have hinFirst : key ∈ first.keys := by simp [hfirst]
  have hinSecond : key ∈ second.keys := by simp [hsecond]
  obtain ⟨key', hkey', hlinked⟩ := honest_linked secret
  obtain rfl : key' = key := Point.finite.inj (hkey'.symm.trans hpublic)
  obtain ⟨-, image, -, -, hshown, hshown'⟩ := hlinked first second hinFirst hinSecond
  exact ⟨key', first, second, secret, hpublic, hfirst, hsecond, hinFirst, hinSecond, image, hshown,
    hshown'⟩

end RingSignature

end LinkCommittee
