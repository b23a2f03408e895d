import LinkCommittee.Proofs.Ring.Encoding

/-!
# Frames of signatures

A frame tells the length of its payload, and a signature tells the size of its ring, so a
frame tells its own length twice.  Reading accepts it only if both agree with the bytes that
are there: a frame is read exactly if it is what framing a signature gives.

Main statement: `RingSignature.frame_canonical`.
-/

namespace LinkCommittee

/-- A frame holds a payload: four bytes that spell the number of bytes of the payload, the first
having the least weight, then the payload, and nothing after it. -/
structure Frames (frame payload : List UInt8) : Prop where
  four_le_length : 4 ≤ frame.length
  count_eq : Nat.ofDigits 256 ((frame.take 4).map UInt8.toNat) = payload.length
  payload_eq : frame.drop 4 = payload

/-- A payload that four bytes can count has one frame. -/
theorem frames_iff {frame payload : List UInt8} (hsize : payload.length < 256 ^ 4) :
    Frames frame payload ↔ frame = littleEndian 4 payload.length ++ payload := by
  constructor
  · intro h
    obtain ⟨hlong, hcount, hpayload⟩ := h
    have hwritten := littleEndian_natOfLittleEndian (frame.take 4)
    rw [natOfLittleEndian_eq_ofDigits, hcount, List.length_take, Nat.min_eq_left hlong] at hwritten
    rw [hwritten, ← hpayload, List.take_append_drop]
  · intro h
    subst h
    have hfour := length_littleEndian 4 payload.length
    have htake : (littleEndian 4 payload.length ++ payload).take 4 =
        littleEndian 4 payload.length := List.take_left' hfour
    refine ⟨?_, ?_, List.drop_left' hfour⟩
    · rw [List.length_append, hfour]
      exact Nat.le_add_right 4 _
    · rw [htake, ← natOfLittleEndian_eq_ofDigits, natOfLittleEndian_littleEndian,
        Nat.mod_eq_of_lt hsize]

namespace RingSignature

variable {frame : List UInt8} {signature signature' : RingSignature}

/-- Four bytes can count the bytes of every signature, as rings are small. -/
theorem length_toBytes_lt (signature : RingSignature) : signature.toBytes.length < 256 ^ 4 := by
  have hsize : signature.set.size ≤ 4096 := signature.set.length_le
  rw [length_toBytes, encodedLength]
  omega

/-- **A signature is read from the frames that hold its bytes**, and from no others. -/
theorem ofFrame?_eq_some_iff_frames :
    ofFrame? frame = some signature ↔ Frames frame signature.toBytes := by
  unfold ofFrame?
  constructor
  · intro h
    split at h
    · contradiction
    next hlong =>
      split at h
      · contradiction
      next hcount =>
        have hread := ofBytes_eq_ok_iff.1 (Except.toOption_eq_some_iff.1 h)
        refine ⟨Nat.le_of_not_lt hlong, ?_, hread⟩
        rw [← natOfLittleEndian_eq_ofDigits, ← hread]
        exact not_not.1 hcount
  · intro h
    obtain ⟨hlong, hcount, hpayload⟩ := h
    have hagree : ¬natOfLittleEndian (frame.take 4) ≠ (frame.drop 4).length := by
      rw [natOfLittleEndian_eq_ofDigits, hcount, hpayload]
      exact not_not_intro rfl
    rw [if_neg (Nat.not_lt.2 hlong), if_neg hagree]
    exact Except.toOption_eq_some_iff.2 (ofBytes_eq_ok_iff.2 hpayload)

/-- The bytes of a signature stand in one frame only. -/
theorem frames_toBytes_iff : Frames frame signature.toBytes ↔ frame = signature.toFrame :=
  frames_iff (length_toBytes_lt signature)

/-- A signature is taken out of its own frame and out of no other. -/
theorem ofFrame?_eq_some_iff : ofFrame? frame = some signature ↔ frame = signature.toFrame :=
  ofFrame?_eq_some_iff_frames.trans frames_toBytes_iff

/-- Signatures are told apart by their frames. -/
theorem toFrame_inj : signature.toFrame = signature'.toFrame ↔ signature = signature' := by
  constructor
  · intro h
    have hread : ofFrame? signature.toFrame = some signature := ofFrame?_eq_some_iff.2 rfl
    rw [ofFrame?_eq_some_iff.2 h] at hread
    exact (Option.some.inj hread).symm
  · intro h
    rw [h]

/-- **Signatures have one frame.**  A byte string is read as a signature exactly if it is the length
of its bytes in four bytes and these bytes, which is what the signature is framed as; so reading and
framing are inverse.  What can be read are the frames of canonical forms, and everything else is
refused. -/
theorem frame_canonical :
    (∀ frame signature, ofFrame? frame = some signature ↔ Frames frame signature.toBytes) ∧
    (∀ frame signature, ofFrame? frame = some signature ↔ frame = signature.toFrame) ∧
    (∀ signature : RingSignature, ofFrame? signature.toFrame = some signature) ∧
    (∀ signature signature' : RingSignature,
      signature.toFrame = signature'.toFrame ↔ signature = signature') ∧
    (∀ frame, (∃ signature, ofFrame? frame = some signature) ↔
      ∃ payload, Frames frame payload ∧ Nonempty (CanonicalForm payload)) ∧
    ∀ frame, ofFrame? frame = none ↔ ¬∃ signature : RingSignature, frame = signature.toFrame := by
  refine ⟨fun frame signature => ofFrame?_eq_some_iff_frames,
    fun frame signature => ofFrame?_eq_some_iff, fun signature => ofFrame?_eq_some_iff.2 rfl,
    fun signature signature' => toFrame_inj, ?_, ?_⟩
  · intro frame
    constructor
    · intro h
      obtain ⟨signature, hread⟩ := h
      exact ⟨_, ofFrame?_eq_some_iff_frames.1 hread, ⟨canonicalForm signature⟩⟩
    · intro h
      obtain ⟨payload, hframes, ⟨form⟩⟩ := h
      obtain ⟨signature, rfl⟩ := form.exists_toBytes
      exact ⟨signature, ofFrame?_eq_some_iff_frames.2 hframes⟩
  · intro frame
    rw [Option.eq_none_iff_forall_ne_some, not_exists]
    exact forall_congr' fun signature => not_congr ofFrame?_eq_some_iff

end RingSignature

end LinkCommittee
