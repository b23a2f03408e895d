import LinkCommittee.Proofs.Curve.Order
import LinkCommittee.Proofs.Ring.Signing
import LinkCommittee.Proofs.Ring.Validation
import Mathlib.Tactic.Module

/-!
# Completeness of ring signatures

A signer meets the ring out of order: it starts behind its own position, walks to the
end, then from the beginning up to itself.  A verifier walks once from the beginning.
Both meet the same challenges, because the response of the signer turns the challenge
it met into the commitments it had started from (`commitments_closing`).

A witness fits every set that has the key of the witness at its place, whatever set
the witness was made for: the base of the key image depends on the key alone.  Main
statement: `RingSignature.sign_complete`.
-/

namespace LinkCommittee

namespace RingPosition

variable (hash : Point → Point → Scalar) (image : PublicKey) (challenge : Scalar)

theorem walk_append (before after : List RingPosition) :
    walk hash image challenge (before ++ after) =
      walk hash image (walk hash image challenge before) after :=
  List.foldl_append

theorem walk_cons (position : RingPosition) (after : List RingPosition) :
    walk hash image challenge (position :: after) =
      walk hash image (next hash image challenge position) after :=
  List.foldl_cons

variable {image}

/-- **The closing response.**  At the position of the secret `x` with key image `x • base`, the
response `nonce - challenge * x` gives the commitments of the nonce. -/
theorem commitments_closing {signer : RingMember} {x : Scalar}
    (hkey : Point.finite signer.key = x • Point.generator)
    (himage : Point.finite image = x • Point.finite signer.base) (nonce : Scalar) :
    commitments image challenge (signer, nonce - challenge * x) =
      (Point.ofScalar nonce, (Point.finite signer.base).scale nonce) := by
  have hleft : (nonce - challenge * x) • Point.generator + challenge • Point.finite signer.key =
      nonce • Point.generator := by
    rw [hkey]
    module
  have hright : (nonce - challenge * x) • Point.finite signer.base +
      challenge • Point.finite image = nonce • Point.finite signer.base := by
    rw [himage]
    module
  exact Prod.ext hleft hright

end RingPosition

namespace RingSignature

/-- **The ring closes.**  From the first challenge of the signer, the walk over all positions leads
back to it. -/
theorem walk_close (hash : Point → Point → Scalar) {witness : Witness} {signer : RingMember}
    (hkey : Point.finite signer.key = witness.secret.scalar • Point.generator)
    (himage : Point.finite witness.image = witness.secret.scalar • Point.finite signer.base)
    (nonce : Scalar) (before after : List RingPosition) :
    let made := close hash witness signer nonce before after
    RingPosition.walk hash witness.image made.1 (before ++ (signer, made.2) :: after) = made.1 := by
  intro made
  have hnext : RingPosition.next hash witness.image
      (RingPosition.walk hash witness.image made.1 before) (signer, made.2) =
        hash (Point.ofScalar nonce) ((Point.finite signer.base).scale nonce) := by
    unfold RingPosition.next
    rw [show made.2 = nonce - RingPosition.walk hash witness.image made.1 before *
      witness.secret.scalar from rfl, RingPosition.commitments_closing _ hkey himage]
  rw [RingPosition.walk_append, RingPosition.walk_cons, hnext]
  rfl

end RingSignature

namespace Witness

/-- What a witness is made of: a member with the public key of the secret, and its key image. -/
theorem of_new {home : AnonymitySet} {secret : NonzeroScalar} {witness : Witness}
    (h : new home secret = .ok witness) :
    witness.secret = secret ∧ ∃ member, home.members[witness.index]? = some member ∧
      Point.finite member.key = secret.publicPoint ∧
      Point.finite witness.image = secret.scalar • Point.finite member.base := by
  unfold new at h
  simp only at h
  split at h
  next index member hplace hmember =>
    obtain ⟨key, hkey, hposition⟩ := Option.bind_eq_some_iff.1 hplace
    have hpoint : secret.publicPoint = .finite key := by
      cases hpublic : secret.publicPoint with
      | identity => simp [hpublic, Point.key?] at hkey
      | finite other => simpa [hpublic, Point.key?] using hkey
    rw [hplace, Option.bind_some] at hmember
    obtain ⟨found, hfound, hfoundKey⟩ := AnonymitySet.exists_member_of_position? hposition
    obtain rfl : found = member := Option.some.inj (hfound.symm.trans hmember)
    obtain ⟨image, himage⟩ := secret.exists_smul_finite found.base
    rw [Point.scale_eq_smul, himage] at h
    cases h
    exact ⟨rfl, found, hfound, by rw [hfoundKey, hpoint], himage.symm⟩
  · contradiction

/-- Whoever stands in a set has a witness over it. -/
theorem exists_new {home : AnonymitySet} {secret : NonzeroScalar} {key : PublicKey}
    (hmem : key ∈ home.keys) (hkey : secret.publicPoint = .finite key) :
    ∃ witness, new home secret = .ok witness := by
  obtain ⟨index, hposition⟩ := AnonymitySet.exists_position?_of_mem hmem
  obtain ⟨member, hmember, -⟩ := AnonymitySet.exists_member_of_position? hposition
  obtain ⟨image, himage⟩ := secret.exists_smul_finite member.base
  refine ⟨⟨index, secret, image⟩, ?_⟩
  simp [new, hkey, Point.key?, hposition, hmember, Point.scale_eq_smul, himage]

/-- The key image of a witness fits every member with its key, in whatever set it stands. -/
theorem image_eq_smul_base {home : AnonymitySet} {secret : NonzeroScalar} {witness : Witness}
    (h : new home secret = .ok witness) {member : RingMember}
    (hmember : Point.finite member.key = witness.secret.publicPoint) :
    Point.finite witness.image = witness.secret.scalar • Point.finite member.base := by
  obtain ⟨rfl, own, -, hown, himage⟩ := of_new h
  have hkey : own.key = member.key := Point.finite.inj (hown.trans hmember.symm)
  rw [himage, RingMember.base_eq_of_key_eq hkey]

/-- No key image is the identity: the secret is not zero and no base is the identity. -/
theorem new_ne_identityImage (home : AnonymitySet) (secret : NonzeroScalar) :
    new home secret ≠ .error (.invalidParameter .identityImage) := by
  intro h
  unfold new at h
  simp only at h
  split at h
  next member _ _ =>
    obtain ⟨image, himage⟩ := secret.exists_smul_finite member.base
    rw [Point.scale_eq_smul, himage] at h
    contradiction
  · contradiction

end Witness

namespace RingSignature

/-- The place of a witness lies outside a set, or the key there is not the witness's own. -/
def Foreign (witness : Witness) (set : AnonymitySet) : Prop :=
  set.size ≤ witness.index ∨
    ∃ key, set.keys[witness.index]? = some key ∧ Point.finite key ≠ witness.secret.publicPoint

/-- Whoever is not foreign to a set has a member of it at its place. -/
theorem exists_signer_of_not_foreign {witness : Witness} {set : AnonymitySet}
    (h : ¬Foreign witness set) :
    ∃ signer, set.members[witness.index]? = some signer ∧
      Point.finite signer.key = witness.secret.publicPoint := by
  obtain ⟨hindex, hkeys⟩ := not_or.1 h
  have hinside : witness.index < set.members.length := Nat.lt_of_not_le hindex
  have hmember := List.getElem?_eq_getElem hinside
  refine ⟨_, hmember, ?_⟩
  by_contra hkey
  exact hkeys ⟨_, by rw [AnonymitySet.getElem?_keys, hmember]; rfl, hkey⟩

/-- A foreign witness makes no signature. -/
theorem sign_of_foreign {witness : Witness} {set : AnonymitySet} (h : Foreign witness set)
    (message : List UInt8) (entropy : Octets 32) :
    sign witness set message entropy = .error .signerNotInRing := by
  unfold sign
  split
  · rfl
  next signer hsigner =>
    refine if_neg fun hkey => ?_
    rcases h with hindex | ⟨key, hmember, hforeign⟩
    · rw [List.getElem?_eq_none hindex] at hsigner
      contradiction
    · rw [AnonymitySet.getElem?_keys, hsigner] at hmember
      cases hmember
      exact hforeign hkey

/-- Members and responses around the signer, in the order of the verifier. -/
theorem zip_around {members : List RingMember} {index : Nat} {signer : RingMember}
    (hsigner : members[index]? = some signer) {earlier later : List Scalar}
    (hearlier : earlier.length = (members.take index).length) (response : Scalar) :
    members.zip (earlier ++ response :: later) =
      (members.take index).zip earlier ++
        (signer, response) :: (members.drop (index + 1)).zip later := by
  obtain ⟨hindex, rfl⟩ := List.getElem?_eq_some_iff.1 hsigner
  have hsplit : members = members.take index ++ members[index] :: members.drop (index + 1) := by
    rw [List.getElem_cons_drop, List.take_append_drop]
  conv_lhs => rw [hsplit, List.zip_append hearlier.symm, List.zip_cons_cons]

/-- A signature is accepted exactly if the walk around the ring comes back to its challenge. -/
theorem verify_eq_ok_iff {signature : RingSignature} {message : List UInt8} :
    signature.verify message = .ok () ↔
      RingPosition.walk (signature.transcript message).challengeAfter signature.image
        signature.challenge signature.positions = signature.challenge := by
  unfold verify
  exact ⟨fun h => by_contra fun hne => by simp [hne] at h, fun h => if_pos h⟩

/-- **A witness at its own key signs, and the signature is accepted.**  The walk of the verifier
meets the commitments of the signer in every place, in that of the signer by the choice of its
response. -/
theorem exists_sign_verify {home : AnonymitySet} {secret : NonzeroScalar} {witness : Witness}
    (hwitness : Witness.new home secret = .ok witness) {set : AnonymitySet} {signer : RingMember}
    (hsigner : set.members[witness.index]? = some signer)
    (hkey : Point.finite signer.key = witness.secret.publicPoint)
    (message : List UInt8) (entropy : Octets 32) :
    ∃ signature, sign witness set message entropy = .ok signature ∧
      signature.verify message = .ok () := by
  obtain ⟨signature, hsigned, hset, himage, hchallenge, hresponses⟩ :=
    exists_closes hsigner hkey message entropy
  refine ⟨signature, hsigned, verify_eq_ok_iff.2 ?_⟩
  have hbase := Witness.image_eq_smul_base hwitness hkey
  have hinside : witness.index ≤ set.members.length :=
    Nat.le_of_lt (List.getElem?_eq_some_iff.1 hsigner).1
  have hearlier (source : NonceSource) :
      (source.scalars witness.index).1.length = (set.members.take witness.index).length := by
    rw [NonceSource.length_scalars, List.length_take_of_le hinside]
  rw [transcript, positions, hset, himage, hresponses, zip_around hsigner (hearlier _), hchallenge]
  exact walk_close _ hkey hbase _ _ _

/-- **Completeness.**  A signing key has a witness over every set that holds its public key, and no
key image is the identity.  A witness over any set signs over any other exactly when the key at its
place there is its own, and the signature is accepted for the message that was signed. -/
theorem sign_complete (home : AnonymitySet) (secret : NonzeroScalar) :
    Witness.new home secret ≠ .error (.invalidParameter .identityImage) ∧
    (∀ key ∈ home.keys, secret.publicPoint = .finite key →
      ∃ witness, Witness.new home secret = .ok witness ∧
        ∀ message entropy, ∃ signature, sign witness home message entropy = .ok signature ∧
          signature.verify message = .ok ()) ∧
    ∀ witness, Witness.new home secret = .ok witness →
      ∀ (set : AnonymitySet) (message : List UInt8) (entropy : Octets 32),
        (sign witness set message entropy = .error .signerNotInRing ↔ Foreign witness set) ∧
        (sign witness set message entropy ≠ .error .signerNotInRing →
          ∃ signature, sign witness set message entropy = .ok signature ∧
            signature.verify message = .ok ()) := by
  refine ⟨Witness.new_ne_identityImage home secret, ?_, ?_⟩
  · intro key hmem hkey
    obtain ⟨witness, hwitness⟩ := Witness.exists_new hmem hkey
    obtain ⟨hsecret, member, hmember, hmemberKey, -⟩ := Witness.of_new hwitness
    rw [← hsecret] at hmemberKey
    exact ⟨witness, hwitness, exists_sign_verify hwitness hmember hmemberKey⟩
  · intro witness hwitness set message entropy
    have hsigns (h : ¬Foreign witness set) :
        ∃ signature, sign witness set message entropy = .ok signature ∧
          signature.verify message = .ok () := by
      obtain ⟨signer, hsigner, hkey⟩ := exists_signer_of_not_foreign h
      exact exists_sign_verify hwitness hsigner hkey message entropy
    have hforeign : sign witness set message entropy = .error .signerNotInRing ↔
        Foreign witness set := by
      refine ⟨fun h => ?_, fun h => sign_of_foreign h message entropy⟩
      by_contra hown
      obtain ⟨signature, hsigned, -⟩ := hsigns hown
      rw [h] at hsigned
      contradiction
    exact ⟨hforeign, fun h => hsigns (mt hforeign.2 h)⟩

/-- The secret one signs in second place, behind the opposite of its public key. -/
theorem sign_complete_opposite :
    ∃ key : PublicKey, ∃ home : AnonymitySet, home.keys = [key.opposite, key] ∧
      ∃ secret : NonzeroScalar, secret.publicPoint = .finite key ∧
        ∃ witness, Witness.new home secret = .ok witness ∧ ∀ message entropy,
          ¬Foreign witness home ∧ ∃ signature, sign witness home message entropy = .ok signature ∧
            signature.verify message = .ok () := by
  obtain ⟨key, hgenerator, home, hset⟩ := AnonymitySet.exists_ofKeys_opposite
  have hkeys : home.keys = [key.opposite, key] := AnonymitySet.keys_of_ofKeys hset
  have hmem : key ∈ home.keys := hkeys ▸ List.mem_cons_of_mem _ List.mem_cons_self
  let secret : NonzeroScalar := ⟨1, by decide⟩
  have hpublic : secret.publicPoint = .finite key :=
    (one_smul Scalar Point.generator).trans hgenerator
  obtain ⟨-, howner, hany⟩ := sign_complete home secret
  obtain ⟨witness, hwitness, hsigns⟩ := howner key hmem hpublic
  refine ⟨key, home, hkeys, secret, hpublic, witness, hwitness, fun message entropy => ?_⟩
  obtain ⟨signature, hsigned, hverified⟩ := hsigns message entropy
  obtain ⟨hforeign, haccepted⟩ := hany witness hwitness home message entropy
  have hmade : sign witness home message entropy ≠ .error .signerNotInRing := by
    simp [hsigned]
  exact ⟨mt hforeign.2 hmade, haccepted hmade⟩

end RingSignature

end LinkCommittee
