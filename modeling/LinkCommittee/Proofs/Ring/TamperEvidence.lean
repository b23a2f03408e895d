import LinkCommittee.Proofs.Curve.Encoding
import LinkCommittee.Proofs.Ring.Completeness

/-!
# Tamper evidence of ring signatures

A challenge is a function of the digest of the set, the key image, the message and the two
commitments.  Every challenge of a ring but the first is the value of that function at an input
of the run, and so is the one the ring closes with.  Two accepted signatures that share their
first challenge therefore share the value at their last inputs, and these differ in whatever the
signatures differ in, unless two lists of keys have one digest.

Where one response is changed, the commitments at its position change, since the generator is
not the identity; and as long as the challenges differ, the commitments at the next position do,
since no key is the identity.  So the runs stay apart until two pairs of commitments have the same
challenge (`RingPosition.collide_of_challenge`), and runs that close alike have met such pairs.

The function is a parameter here, `RingSignature.verifyWith`; verification is the case of
`ChallengeInput.challenge`.  Main statement: `RingSignature.verify_tamper_evident`.
-/

namespace LinkCommittee

/-- Different points have different bytes. -/
theorem Point.toBytes_injective : Function.Injective Point.toBytes := by
  intro a b h
  cases a with
  | identity =>
    cases b with
    | identity => rfl
    | finite key =>
      have hlength : 1 = 33 := (congrArg List.length h).trans key.compress.length_toList
      contradiction
  | finite key =>
    cases b with
    | identity =>
      have hlength : 33 = 1 := key.compress.length_toList.symm.trans (congrArg List.length h)
      contradiction
    | finite other => rw [PublicKey.compress_injective (Octets.ext h)]

/-! ### The walk and its commitments -/

namespace RingPosition

/-- The commitments met on the walk, one pair for each position. -/
def trail (hash : Point → Point → Scalar) (image : PublicKey) (challenge : Scalar) :
    List RingPosition → List (Point × Point)
  | [] => []
  | position :: positions =>
    commitments image challenge position ::
      trail hash image (next hash image challenge position) positions

/-- On two walks there are, at the same position, different commitments with one challenge. -/
def Collide (hash : Point → Point → Scalar) (first second : List (Point × Point)) : Prop :=
  ∃ (i : Nat) (a b : Point × Point), first[i]? = some a ∧ second[i]? = some b ∧ a ≠ b ∧
    hash a.1 a.2 = hash b.1 b.2

variable {hash : Point → Point → Scalar} {image : PublicKey} {challenge challenge' : Scalar}

/-- A walk ends with the challenge of the last commitments it met. -/
theorem exists_last_commitments {positions : List RingPosition} (hne : positions ≠ []) :
    ∃ pair ∈ trail hash image challenge positions,
      walk hash image challenge positions = hash pair.1 pair.2 := by
  induction positions generalizing challenge with
  | nil => contradiction
  | cons position positions ih =>
    by_cases hlast : positions = []
    · subst hlast
      exact ⟨_, List.mem_cons_self, rfl⟩
    · obtain ⟨pair, hpair, hwalk⟩ := @ih (next hash image challenge position) hlast
      exact ⟨pair, List.mem_cons_of_mem _ hpair, hwalk⟩

/-- **Another challenge gives other commitments**, for no key is the identity. -/
theorem commitments_ne_of_challenge (h : challenge ≠ challenge') (position : RingPosition) :
    commitments image challenge position ≠ commitments image challenge' position := by
  intro hsame
  have hleft : challenge • Point.finite position.1.key = challenge' • Point.finite position.1.key :=
    add_left_cancel (congrArg Prod.fst hsame)
  exact h (smul_left_injective Scalar (Point.finite_ne_zero position.1.key) hleft)

/-- **Another response gives other commitments**, for the generator is not the identity. -/
theorem commitments_ne_of_response {member : RingMember} {s s' : Scalar} (h : s ≠ s') :
    commitments image challenge (member, s) ≠ commitments image challenge (member, s') := by
  intro hsame
  have hleft : s • Point.generator = s' • Point.generator :=
    add_right_cancel (congrArg Prod.fst hsame)
  exact h (smul_left_injective Scalar Point.generator_ne_zero hleft)

/-- Walks that collide do so with one position more in front of them. -/
theorem Collide.cons {first second : List (Point × Point)} (h : Collide hash first second)
    (a b : Point × Point) : Collide hash (a :: first) (b :: second) := by
  obtain ⟨i, hi⟩ := h
  exact ⟨i + 1, hi⟩

/-- **Walks that set out with different challenges and meet again collide.**  Where they meet,
different commitments have one challenge. -/
theorem collide_of_challenge (h : challenge ≠ challenge') {positions : List RingPosition}
    (hmeet : walk hash image challenge positions = walk hash image challenge' positions) :
    Collide hash (trail hash image challenge positions)
      (trail hash image challenge' positions) := by
  induction positions generalizing challenge challenge' with
  | nil => exact absurd hmeet h
  | cons position positions ih =>
    by_cases hnext : next hash image challenge position = next hash image challenge' position
    · exact ⟨0, _, _, rfl, rfl, commitments_ne_of_challenge h position, hnext⟩
    · rw [walk_cons, walk_cons] at hmeet
      exact (ih hnext hmeet).cons _ _

/-- **Walks on which one response differs, and which end alike, collide.**  Behind that place the
challenges differ, or the commitments there have one challenge already. -/
theorem collide_of_response {member : RingMember} {s s' : Scalar} (h : s ≠ s')
    {before after : List RingPosition}
    (hmeet : walk hash image challenge (before ++ (member, s) :: after) =
      walk hash image challenge (before ++ (member, s') :: after)) :
    Collide hash (trail hash image challenge (before ++ (member, s) :: after))
      (trail hash image challenge (before ++ (member, s') :: after)) := by
  induction before generalizing challenge with
  | nil =>
    by_cases hnext : next hash image challenge (member, s) = next hash image challenge (member, s')
    · exact ⟨0, _, _, rfl, rfl, commitments_ne_of_response h, hnext⟩
    · exact (collide_of_challenge hnext hmeet).cons _ _
  | cons position before ih => exact (ih hmeet).cons _ _

end RingPosition

/-! ### The challenge as a function -/

/-- What a challenge depends on. -/
structure ChallengeInput where
  digest : Octets 32
  image : Octets 33
  message : List UInt8
  left : List UInt8
  right : List UInt8
deriving DecidableEq

/-- The challenge of an input. -/
def ChallengeInput.challenge (input : ChallengeInput) : Scalar :=
  let base := (((Transcript.new "AB committee ring signature").appendNat "version" 0
    |>.append "input_set" input.digest.toList)
    |>.append "key_image" input.image.toList)
    |>.append "message" input.message
  Scalar.reduceBytes (((base.append "L" input.left).append "R" input.right).challenge "c" 32)

namespace RingSignature

/-- The input of the challenge that follows two commitments. -/
def input (signature : RingSignature) (message : List UInt8) (left right : Point) :
    ChallengeInput :=
  ⟨signature.set.digest, signature.image.compress, message, left.toBytes, right.toBytes⟩

/-- The challenge after two commitments, made by some function of its input. -/
def challengeWith (hash : ChallengeInput → Scalar) (signature : RingSignature)
    (message : List UInt8) (left right : Point) : Scalar :=
  hash (signature.input message left right)

/-- Verification with some function in the place of the challenge. -/
def verifyWith (hash : ChallengeInput → Scalar) (signature : RingSignature)
    (message : List UInt8) : Except RingError Unit :=
  if RingPosition.walk (signature.challengeWith hash message) signature.image signature.challenge
      signature.positions = signature.challenge then .ok ()
  else .error .failedVerification

/-- The commitments met by a verification, one pair for each position. -/
def trail (hash : ChallengeInput → Scalar) (signature : RingSignature) (message : List UInt8) :
    List (Point × Point) :=
  RingPosition.trail (signature.challengeWith hash message) signature.image signature.challenge
    signature.positions

/-- The inputs of the challenges of a verification, in the order of the positions. -/
def inputs (hash : ChallengeInput → Scalar) (signature : RingSignature) (message : List UInt8) :
    List ChallengeInput :=
  (signature.trail hash message).map fun pair => signature.input message pair.1 pair.2

/-- The signature with another response at a place. -/
def withResponse (signature : RingSignature) (place : Nat) (response : Scalar) : RingSignature where
  set := signature.set
  image := signature.image
  challenge := signature.challenge
  responses := signature.responses.set place response
  length_responses := by rw [List.length_set, signature.length_responses]

variable {hash : ChallengeInput → Scalar} {signature signature' : RingSignature}
  {message message' : List UInt8}

/-- Under any challenges a signature is accepted exactly if the walk comes back to its own. -/
theorem verifyWith_eq_ok_iff :
    signature.verifyWith hash message = .ok () ↔
      RingPosition.walk (signature.challengeWith hash message) signature.image
        signature.challenge signature.positions = signature.challenge := by
  unfold verifyWith
  exact ⟨fun h => by_contra fun hne => by simp [hne] at h, fun h => if_pos h⟩

/-- Every signature has a position. -/
theorem positions_ne_nil (signature : RingSignature) : signature.positions ≠ [] := by
  have hmembers := List.length_pos_of_ne_nil signature.set.members_ne_nil
  apply List.ne_nil_of_length_pos
  rw [positions, List.length_zip, signature.length_responses, AnonymitySet.size, Nat.min_self]
  exact hmembers

/-- An accepted ring closes with the challenge of an input it met. -/
theorem exists_input_of_verifyWith (haccepted : signature.verifyWith hash message = .ok ()) :
    ∃ left right, signature.input message left right ∈ signature.inputs hash message ∧
      hash (signature.input message left right) = signature.challenge := by
  have hcloses := verifyWith_eq_ok_iff.1 haccepted
  obtain ⟨⟨left, right⟩, hpair, hlast⟩ :=
    RingPosition.exists_last_commitments (positions_ne_nil signature)
  exact ⟨left, right, List.mem_map_of_mem hpair, hlast.symm.trans hcloses⟩

/-- Inputs of signatures that differ in keys, image or message are different, unless the lists of
keys are and their digests are not. -/
theorem input_ne_or_digest_eq
    (hdiffer : (signature.set.keys, signature.image, message) ≠
      (signature'.set.keys, signature'.image, message')) (left right left' right' : Point) :
    signature.input message left right ≠ signature'.input message' left' right' ∨
      (signature.set.keys ≠ signature'.set.keys ∧
        signature.set.digest = signature'.set.digest) := by
  by_cases hsame : signature.input message left right = signature'.input message' left' right'
  · obtain ⟨hdigest, himage, rfl, -, -⟩ := ChallengeInput.mk.inj hsame
    refine .inr ⟨fun hkeys => hdiffer ?_, hdigest⟩
    rw [hkeys, PublicKey.compress_injective himage]
  · exact .inl hsame

/-- The positions of a signature around a place, and what another response there changes. -/
theorem exists_positions_withResponse {place : Nat} {s : Scalar}
    (hplace : signature.responses[place]? = some s) (s' : Scalar) :
    ∃ before member after, signature.positions = before ++ (member, s) :: after ∧
      (signature.withResponse place s').positions = before ++ (member, s') :: after := by
  obtain ⟨hinside, hresponse⟩ := List.getElem?_eq_some_iff.1 hplace
  have hmember : place < signature.set.members.length := by
    rw [← AnonymitySet.size, ← signature.length_responses]
    exact hinside
  have hbefore : (signature.responses.take place).length =
      (signature.set.members.take place).length := by
    rw [List.length_take, List.length_take]
    omega
  have haround (response : Scalar) := @zip_around _ _ _ (List.getElem?_eq_getElem hmember) _
    (signature.responses.drop (place + 1)) hbefore response
  refine ⟨(signature.set.members.take place).zip (signature.responses.take place),
    signature.set.members[place],
    (signature.set.members.drop (place + 1)).zip (signature.responses.drop (place + 1)), ?_, ?_⟩
  · rw [← haround, ← hresponse, List.getElem_cons_drop, List.take_append_drop]
    rfl
  · rw [← haround, ← List.set_eq_take_cons_drop s' hinside]
    rfl

/-- **A changed response has to be made up for by a collision**: where both signatures are
accepted, two different pairs of commitments at one place have the same challenge. -/
theorem exists_collision_withResponse (haccepted : signature.verifyWith hash message = .ok ())
    {place : Nat} {s s' : Scalar} (hplace : signature.responses[place]? = some s) (hne : s ≠ s')
    (haccepted' : (signature.withResponse place s').verifyWith hash message = .ok ()) :
    ∃ (i : Nat) (a b : ChallengeInput), (signature.inputs hash message)[i]? = some a ∧
      ((signature.withResponse place s').inputs hash message)[i]? = some b ∧
      (a.left, a.right) ≠ (b.left, b.right) ∧ hash a = hash b := by
  obtain ⟨before, member, after, hpositions, hpositions'⟩ :=
    exists_positions_withResponse hplace s'
  have hcollide : RingPosition.Collide (signature.challengeWith hash message)
      (signature.trail hash message) ((signature.withResponse place s').trail hash message) := by
    have hmeet := (verifyWith_eq_ok_iff.1 haccepted).trans (verifyWith_eq_ok_iff.1 haccepted').symm
    rw [hpositions, hpositions'] at hmeet
    rw [trail, trail, hpositions, hpositions']
    exact RingPosition.collide_of_response hne hmeet
  obtain ⟨i, ⟨left, right⟩, ⟨left', right'⟩, hfirst, hsecond, hpairs, hhash⟩ := hcollide
  refine ⟨i, signature.input message left right, signature.input message left' right', ?_, ?_,
    ?_, hhash⟩
  · rw [inputs, List.getElem?_map, hfirst]
    rfl
  · rw [inputs, List.getElem?_map, hsecond]
    rfl
  · intro hbytes
    obtain ⟨hleft, hright⟩ := Prod.mk.inj hbytes
    exact hpairs (Prod.ext (Point.toBytes_injective hleft) (Point.toBytes_injective hright))

/-- **Accepted signatures are tamper-evident up to a collision.**  The challenge of verification is
a function of digest, key image, message and commitments; take any such function.  Another accepted
signature with the same first challenge has the same keys, image and message, or the two runs show
two inputs with one challenge, unless two lists of keys have one digest.  And if a signature is
accepted with two responses at a place, the runs show two pairs of commitments with one challenge
at some place. -/
theorem verify_tamper_evident :
    (∀ signature message, verify signature message =
      verifyWith ChallengeInput.challenge signature message) ∧
    ∀ (hash : ChallengeInput → Scalar) (signature : RingSignature) (message : List UInt8),
      signature.verifyWith hash message = .ok () →
      (∀ (signature' : RingSignature) (message' : List UInt8),
        signature'.verifyWith hash message' = .ok () →
        signature'.challenge = signature.challenge →
        (signature.set.keys, signature.image, message) ≠
          (signature'.set.keys, signature'.image, message') →
        (∃ a ∈ signature.inputs hash message, ∃ b ∈ signature'.inputs hash message',
          a ≠ b ∧ hash a = hash b) ∨
          (signature.set.keys ≠ signature'.set.keys ∧
            signature.set.digest = signature'.set.digest)) ∧
      ∀ (place : Nat) (s s' : Scalar), signature.responses[place]? = some s → s ≠ s' →
        (signature.withResponse place s').verifyWith hash message = .ok () →
        ∃ (i : Nat) (a b : ChallengeInput), (signature.inputs hash message)[i]? = some a ∧
          ((signature.withResponse place s').inputs hash message)[i]? = some b ∧
          (a.left, a.right) ≠ (b.left, b.right) ∧ hash a = hash b := by
  refine ⟨fun _ _ => rfl, fun hash signature message haccepted => ⟨?_, ?_⟩⟩
  · intro signature' message' haccepted' hchallenge hdiffer
    obtain ⟨left, right, hmem, hlast⟩ := exists_input_of_verifyWith haccepted
    obtain ⟨left', right', hmem', hlast'⟩ := exists_input_of_verifyWith haccepted'
    have hhash := hlast.trans (hchallenge.symm.trans hlast'.symm)
    rcases input_ne_or_digest_eq hdiffer left right left' right' with hne | hdigest
    · exact .inl ⟨_, hmem, _, hmem', hne, hhash⟩
    · exact .inr hdigest
  · intro place s s' hplace hne haccepted'
    exact exists_collision_withResponse haccepted hplace hne haccepted'

/-- With a constant in the place of the challenge every signature with that first challenge is
accepted: of two messages, and with two responses in second place. -/
theorem verify_tamper_evident_constant :
    ∃ signature : RingSignature, signature.set.size = 2 ∧
      signature.verifyWith (fun _ => 0) [] = .ok () ∧
      signature.verifyWith (fun _ => 0) [1] = .ok () ∧
      (signature.withResponse 1 1).verifyWith (fun _ => 0) [] = .ok () ∧
      (∃ a ∈ signature.inputs (fun _ => 0) [], ∃ b ∈ signature.inputs (fun _ => 0) [1], a ≠ b) ∧
      ∃ (i : Nat) (a b : ChallengeInput), (signature.inputs (fun _ => 0) [])[i]? = some a ∧
        ((signature.withResponse 1 1).inputs (fun _ => 0) [])[i]? = some b ∧
        (a.left, a.right) ≠ (b.left, b.right) := by
  obtain ⟨key, -, set, hset⟩ := AnonymitySet.exists_ofKeys_opposite
  have hsize : set.size = 2 := AnonymitySet.size_of_ofKeys hset
  obtain ⟨first, second, hmembers⟩ := List.length_eq_two.1 hsize
  let signature : RingSignature := ⟨set, key, 0, [0, 0], hsize.symm⟩
  have hpositions : signature.positions = [(first, 0), (second, 0)] := by
    show set.members.zip [0, 0] = _
    rw [hmembers]
    rfl
  have hpositions' : (signature.withResponse 1 1).positions = [(first, 0), (second, 1)] := by
    show set.members.zip [0, 1] = _
    rw [hmembers]
    rfl
  have haccepted (message : List UInt8) : signature.verifyWith (fun _ => 0) message = .ok () := by
    rw [verifyWith, hpositions]
    exact if_pos rfl
  have hchanged : (signature.withResponse 1 1).verifyWith (fun _ => 0) [] = .ok () := by
    rw [verifyWith, hpositions']
    exact if_pos rfl
  obtain ⟨hother, hresponse⟩ := verify_tamper_evident.2 (fun _ => 0) signature [] (haccepted [])
  have hmessage : (signature.set.keys, signature.image, ([] : List UInt8)) ≠
      (signature.set.keys, signature.image, [1]) := by simp
  refine ⟨signature, hsize, haccepted [], haccepted [1], hchanged, ?_, ?_⟩
  · rcases hother signature [1] (haccepted [1]) rfl hmessage with hcollision | ⟨hkeys, -⟩
    · obtain ⟨a, ha, b, hb, hab, -⟩ := hcollision
      exact ⟨a, ha, b, hb, hab⟩
    · exact absurd rfl hkeys
  · obtain ⟨i, a, b, ha, hb, hab, -⟩ := hresponse 1 0 1 rfl (by decide) hchanged
    exact ⟨i, a, b, ha, hb, hab⟩

end RingSignature

end LinkCommittee
