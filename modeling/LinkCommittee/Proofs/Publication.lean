import LinkCommittee.Member
import LinkCommittee.Proofs.Matching.ShareFaults
import LinkCommittee.Proofs.Share.Encoding

/-!
# From publication to recording

A member makes public shares of a list of keys, none of which is dropped, writes them as a
message and submits its text once.  A matcher that reads the text cuts it into the same shares,
so it does with them what it would do if it were handed the shares themselves: it records them,
or refuses them for their number.  What the submitter makes of the payload, and what the matcher
has recorded before, has no say in this.

Main statement: `Member.publish_recorded`.
-/

namespace LinkCommittee

/-- **A message that is written is taken as its share data**, by every history. -/
theorem History.ingest_encodeChars {message : Message}
    (hsize : 266 + 132 * message.entries.length < 2 ^ 64) (h : History) (now : Nat) :
    h.ingest message.encodeChars now =
      h.recordShares message.token message.sender message.shareData now := by
  rw [ingest, Message.decodeChars_encodeChars hsize]
  rfl

namespace Member

/-- A submitter that keeps what is submitted and replies to the last of it. -/
def recording (reply : List (Account × List UInt8) → Except SubmitError SubmissionId) :
    Submitter (StateM (List (Account × List UInt8))) :=
  fun account payload => ExceptT.mk fun submitted =>
    let submitted := submitted ++ [(account, payload)]
    (reply submitted, submitted)

variable {member : Member} {token : ScanToken} {certificate : UInt64} {keys : List PublicKey}

/-- For a list of keys that is not empty there is a message, which holds their public shares. -/
theorem exists_sharesMessage (member : Member) (token : ScanToken) (certificate : UInt64)
    (hne : keys ≠ []) :
    ∃ message, member.sharesMessage token certificate keys = .ok message ∧
      message.token = token ∧ message.certificate = certificate ∧
      message.sender = member.sender ∧ message.entries = member.shareKey.publicShares keys := by
  have hentries : member.shareKey.publicShares keys ≠ [] := by
    apply List.ne_nil_of_length_pos
    rw [ShareKey.length_publicShares]
    exact List.length_pos_of_ne_nil hne
  let message : Message := ⟨token, certificate, member.sender, _, hentries⟩
  have hmade : Message.new token certificate member.sender (member.shareKey.publicShares keys) =
      .ok message := Message.new_eq_ok_iff.2 ⟨rfl, rfl, rfl, rfl⟩
  refine ⟨message, ?_, rfl, rfl, rfl, rfl⟩
  rw [sharesMessage, hmade]

/-- **One message, one submission**, to the verifier and with the text of the message. -/
theorem publish_recording_of_ok {message : Message}
    (hmessage : member.sharesMessage token certificate keys = .ok message)
    (reply : List (Account × List UInt8) → Except SubmitError SubmissionId)
    (submitted : List (Account × List UInt8)) :
    let submitted' := submitted ++ [(member.settings.verifier, utf8 message.encodeChars)]
    (member.publish (recording reply) token certificate keys).run submitted =
      ((reply submitted').mapError .submissionFailed, submitted') := by
  rw [publish, hmessage]
  rfl

/-- **From publication to recording.**  The public shares of a list of keys are submitted once, to
the verifier, whatever the reply; the payload is a text that is read as a message of the member with
as many shares as there are keys.  Whatever a matcher holds, reading the text has the outcome and
the effect of recording the shares, or it refuses their number and changes nothing.  For no keys
nothing is submitted.  The length of the text is told in 64 bits, as it can be for every list of
keys that is kept in memory. -/
theorem publish_recorded (member : Member) (token : ScanToken) (certificate : UInt64) :
    (∀ keys : List PublicKey, keys ≠ [] → 266 + 132 * keys.length < 2 ^ 64 →
      ∃ (text : List Char) (message : Message),
        (∀ reply submitted,
          let submitted' := submitted ++ [(member.settings.verifier, utf8 text)]
          (member.publish (recording reply) token certificate keys).run submitted =
            ((reply submitted').mapError .submissionFailed, submitted')) ∧
        Message.decodeChars text = .ok message ∧ message.token = token ∧
        message.certificate = certificate ∧ message.sender = member.sender ∧
        message.shareCount.toNat = keys.length ∧
        ∀ (combiner : Combiner) (m : Matcher) (now : Nat),
          let limit := m.history.limits.maxSharesPerMessage.toNat
          let shares := member.shareKey.publicShares keys
          let recorded := m.history.record token member.sender shares now
          (keys.length ≤ limit → m.history.ingest text now = .ok recorded ∧
            (m.step combiner (.ingest text now)).history = recorded.2) ∧
          (limit < keys.length →
            m.history.ingest text now = .error (.tooManyShares keys.length limit) ∧
              (m.step combiner (.ingest text now)).history = m.history)) ∧
    ∀ reply submitted,
      (member.publish (recording reply) token certificate []).run submitted =
        (.error .nothingToSend, submitted) := by
  refine ⟨fun keys hne hsize => ?_, fun _ _ => rfl⟩
  obtain ⟨message, hmessage, rfl, rfl, hsender, hentries⟩ :=
    exists_sharesMessage member token certificate hne
  have hlength : message.entries.length = keys.length := by
    rw [hentries, ShareKey.length_publicShares]
  have hfits : 266 + 132 * message.entries.length < 2 ^ 64 := by rwa [hlength]
  have hread := Message.decodeChars_encodeChars hfits
  have hcount : message.shareCount.toNat = keys.length := by
    rw [Message.toNat_shareCount (by omega), hlength]
  refine ⟨message.encodeChars, message, publish_recording_of_ok hmessage, hread, rfl, rfl, hsender,
    hcount, fun combiner m now => ?_⟩
  intro limit shares recorded
  have hingest := History.ingest_encodeChars hfits m.history now
  rw [Message.shareData, History.recordShares_join, if_neg message.entries_ne_nil, hlength,
    hsender] at hingest
  constructor
  · intro hle
    rw [if_neg (Nat.not_lt_of_le hle), hentries] at hingest
    exact ⟨hingest, Matcher.history_step_ingest_of_ok hingest⟩
  · intro hlt
    rw [if_pos hlt] at hingest
    exact ⟨hingest, Matcher.history_step_ingest_of_error hingest⟩

/-- Two keys go out in one message, which the standard limits take and a limit of one does not. -/
theorem publish_recorded_two_keys :
    ∃ (member : Member) (token : ScanToken) (receipt : SubmissionId) (text : List Char),
      let shares := member.shareKey.publicShares [systemKey, systemKey]
      (member.publish (recording fun _ => .ok receipt) token 7 [systemKey, systemKey]).run [] =
        (.ok receipt, [(member.settings.verifier, utf8 text)]) ∧
      (History.empty .standard).ingest text 0 =
        .ok ((History.empty .standard).record token member.sender shares 0) ∧
      (History.empty ⟨1, 2, 1, none⟩).ingest text 0 = .error (.tooManyShares 2 1) := by
  let settings : LedgerSettings := ⟨⟨Octets.ofNat 20 1⟩, ⟨Octets.ofNat 20 2⟩, .standard, 1⟩
  let member : Member := ⟨9, ⟨⟨1, by decide⟩, ⟨1, by decide⟩⟩, settings⟩
  let token : ScanToken := ⟨List.replicate 132 'a', by simp [isAscii], List.length_replicate⟩
  let receipt : SubmissionId := Octets.ofNat 32 1
  obtain ⟨text, message, hsubmitted, -, -, -, -, -, hread⟩ :=
    (publish_recorded member token 7).1 [systemKey, systemKey] (List.cons_ne_nil _ _) (by decide)
  have hrecorded := (hread .lagrange (Matcher.fresh .standard) 0).1 (by decide)
  have hrefused := (hread .lagrange (Matcher.fresh ⟨1, 2, 1, none⟩) 0).2 (by decide)
  exact ⟨member, token, receipt, text, hsubmitted (fun _ => .ok receipt) [], hrecorded.1,
    hrefused.1⟩

end Member

end LinkCommittee
