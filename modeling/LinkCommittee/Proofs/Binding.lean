import LinkCommittee.Binding
import LinkCommittee.Proofs.Ring.Completeness
import LinkCommittee.Proofs.Ring.Encoding

/-!
# Bindings that are made are accepted

A binding is made from a text, and checked twice on the text: once for the ring that it
carries and once for the signature.  Both read the same signature back, the one that was
made, so the ring is the one that was given and the check among eligible keys asks about
the keys given and nothing else.  Main statement: `RingScheme.bindAccount_complete`.
-/

namespace LinkCommittee

/-- Every signing key has a public key. -/
theorem NonzeroScalar.exists_publicPoint (secret : NonzeroScalar) :
    ∃ key, secret.publicPoint = .finite key :=
  secret.exists_smul_finite _

/-- Whoever does not stand in a set has no witness over it. -/
theorem Witness.new_of_not_mem {home : AnonymitySet} {secret : NonzeroScalar} {key : PublicKey}
    (hkey : secret.publicPoint = .finite key) (hmem : key ∉ home.keys) :
    new home secret = .error .signerNotInRing := by
  simp [new, hkey, Point.key?, AnonymitySet.position?_eq_none_of_not_mem hmem]

namespace RingSignature

/-- A signature is over the set that it was made for. -/
theorem set_of_sign {witness : Witness} {set : AnonymitySet} {message : List UInt8}
    {entropy : Octets 32} {signature : RingSignature}
    (h : sign witness set message entropy = .ok signature) : signature.set = set := by
  obtain ⟨signer, -, -, hcloses⟩ := sign_eq_ok_iff.1 h
  exact hcloses.set_eq

/-- The text of a signature that is accepted is accepted. -/
theorem verifyText_toChars {signature : RingSignature} {message : List UInt8}
    (h : signature.verify message = .ok ()) : verifyText message signature.toChars = true := by
  rw [verifyText, ofChars_toChars]
  dsimp only
  rw [h]
  rfl

/-- The ring is read back from the text of a signature. -/
theorem ringOfText?_toChars (signature : RingSignature) :
    ringOfText? signature.toChars = some signature.set.keys := by
  rw [ringOfText?, ofChars_toChars]
  rfl

variable {keys : List PublicKey} {set : AnonymitySet} {secret : NonzeroScalar} {key : PublicKey}

/-- The text that a signing key with a place in the ring makes is that of an accepted signature. -/
theorem exists_signText (hset : AnonymitySet.ofKeys keys = .ok set)
    (hkey : secret.publicPoint = .finite key) (hmem : key ∈ keys) (message : List UInt8)
    (entropy : Octets 32) :
    ∃ signature : RingSignature, signature.set.keys = keys ∧ signature.verify message = .ok () ∧
      signText message secret keys entropy =
        .ok ⟨signature.toChars, Hex.encode signature.image.compress.toList⟩ := by
  have hkeys := AnonymitySet.keys_of_ofKeys hset
  have hplace : key ∈ set.keys := by rwa [hkeys]
  obtain ⟨witness, hwitness⟩ := Witness.exists_new hplace hkey
  obtain ⟨hsecret, member, hmember, hmemberKey, -⟩ := Witness.of_new hwitness
  rw [← hsecret] at hmemberKey
  obtain ⟨signature, hsigned, hverified⟩ :=
    exists_sign_verify hwitness hmember hmemberKey message entropy
  refine ⟨signature, by rw [set_of_sign hsigned, hkeys], hverified, ?_⟩
  refine Except.bind_eq_ok_iff.2 ⟨set, hset, ?_⟩
  refine Except.bind_eq_ok_iff.2 ⟨witness, hwitness, ?_⟩
  exact Except.bind_eq_ok_iff.2 ⟨signature, hsigned, rfl⟩

/-- A signing key without a place in the ring makes no text. -/
theorem signText_of_not_mem (hset : AnonymitySet.ofKeys keys = .ok set)
    (hkey : secret.publicPoint = .finite key) (hmem : key ∉ keys) (message : List UInt8)
    (entropy : Octets 32) : signText message secret keys entropy = .error .signerNotInRing := by
  have hplace : key ∉ set.keys := by rwa [AnonymitySet.keys_of_ofKeys hset]
  rw [signText, hset]
  change (Witness.new set secret >>= _) = _
  rw [Witness.new_of_not_mem hkey hplace]
  rfl

end RingSignature

namespace RingScheme

/-- A binding among eligible keys is a binding whose ring has eligible keys only. -/
theorem verifyBindingAmong_iff {ε : Type} {scheme : RingScheme ε} {text : List Char}
    {ring : List PublicKey} (hring : scheme.ring? text = some ring) (account : Account)
    (eligible : List PublicKey) :
    scheme.verifyBindingAmong account text eligible = true ↔
      (∀ key ∈ ring, key ∈ eligible) ∧ scheme.verifyBinding account text = true := by
  rw [verifyBindingAmong, hring]
  simp

/-- A request binds an account to the ring of the given keys: the signature is of the account, is
accepted, carries the keys in their order and the key image of the request, and passes among
eligible keys exactly when all of the ring are eligible. -/
structure Binds (request : SigningRequest) (account : Account) (keys : List PublicKey) : Prop where
  message_eq : request.message = account.bindingMessage
  verified : linkable.verifyBinding account request.signature = true
  ring_eq : linkable.ring? request.signature = some keys
  opened : ∃ signature, RingSignature.ofChars request.signature = .ok signature ∧
    signature.set.keys = keys ∧ request.image = Hex.encode signature.image.compress.toList
  among_iff : ∀ eligible, linkable.verifyBindingAmong account request.signature eligible = true ↔
    ∀ key ∈ keys, key ∈ eligible

/-- A request with the text of an accepted signature binds the account to the ring of it. -/
theorem binds_of_verify {account : Account} {signature : RingSignature}
    (h : signature.verify account.bindingMessage.toList = .ok ()) :
    Binds ⟨account.bindingMessage, signature.toChars,
      Hex.encode signature.image.compress.toList⟩ account signature.set.keys := by
  have hverified : linkable.verifyBinding account signature.toChars = true :=
    RingSignature.verifyText_toChars h
  have hring : linkable.ring? signature.toChars = some signature.set.keys :=
    RingSignature.ringOfText?_toChars signature
  refine ⟨rfl, hverified, hring, ⟨signature, signature.ofChars_toChars, rfl, rfl⟩, ?_⟩
  intro eligible
  rw [verifyBindingAmong_iff hring]
  exact and_iff_left hverified

/-- **Bindings that are made are accepted.**  Over a ring that is accepted as an anonymity set, a
signing key with its public key in the ring makes a binding of every account, in whatever place
it stands; any other signing key is refused. -/
theorem bindAccount_complete {keys : List PublicKey} {set : AnonymitySet}
    (hset : AnonymitySet.ofKeys keys = .ok set) (secret : NonzeroScalar) (account : Account)
    (entropy : Octets 32) :
    ∃ key, secret.publicPoint = .finite key ∧
      (key ∈ keys → ∃ request, linkable.bindAccount secret account keys entropy = .ok request ∧
        Binds request account keys) ∧
      (key ∉ keys → linkable.bindAccount secret account keys entropy =
        .error (.ringSignatureFailed .signerNotInRing)) := by
  obtain ⟨key, hkey⟩ := secret.exists_publicPoint
  refine ⟨key, hkey, ?_, ?_⟩
  · intro hmem
    obtain ⟨signature, rfl, hverified, htext⟩ := RingSignature.exists_signText hset hkey hmem
      account.bindingMessage.toList entropy
    refine ⟨_, ?_, binds_of_verify hverified⟩
    unfold bindAccount
    rw [show linkable.sign = RingSignature.signText from rfl, htext]
  · intro hmem
    have hfailed := RingSignature.signText_of_not_mem hset hkey hmem
      account.bindingMessage.toList entropy
    unfold bindAccount
    rw [show linkable.sign = RingSignature.signText from rfl, hfailed]

/-- The secret one binds every account over the ring of the generator and its opposite, and its
binding passes among these two keys in the other order. -/
theorem bindAccount_complete_opposite :
    ∃ key : PublicKey, ∃ set, AnonymitySet.ofKeys [key.opposite, key] = .ok set ∧
      ∃ secret : NonzeroScalar, secret.publicPoint = .finite key ∧ ∀ account entropy, ∃ request,
        linkable.bindAccount secret account [key.opposite, key] entropy = .ok request ∧
        linkable.verifyBindingAmong account request.signature [key, key.opposite, key] = true := by
  obtain ⟨key, hgenerator, home, hset⟩ := AnonymitySet.exists_ofKeys_opposite
  let secret : NonzeroScalar := ⟨1, by decide⟩
  have hpublic : secret.publicPoint = .finite key :=
    (one_smul Scalar Point.generator).trans hgenerator
  refine ⟨key, home, hset, secret, hpublic, fun account entropy => ?_⟩
  obtain ⟨key', hkey', hbinds, -⟩ := bindAccount_complete hset secret account entropy
  obtain rfl : key' = key := Point.finite.inj (hkey'.symm.trans hpublic)
  obtain ⟨request, hmade, hbinds⟩ := hbinds (List.mem_cons_of_mem _ List.mem_cons_self)
  exact ⟨request, hmade, (hbinds.among_iff _).2 (by simp)⟩

end RingScheme

end LinkCommittee
