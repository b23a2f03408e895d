import LinkCommittee.Proofs.History.Contents
import LinkCommittee.Proofs.Matching.Decision
import LinkCommittee.Proofs.Matching.Recording
import LinkCommittee.Proofs.Share.Combination

/-!
# Matching does not depend on the order of arrival

Submissions of different senders, no more than the limits allow, are all recorded, and they
are all that is known of their token (`Matcher.find?_arrivals`).  The order of their arrival
is left in one place only, the order in which messages form pairs.  Two messages that stand
the other way round are combined the other way round, and the key they combine to is the
same, so the same candidates are linked to the token (`Combiner.Links.perm`).  This holds of
every text that is taken for an entry, also of one that is no share at all.

Main statement: `Matcher.tryMatch_order_independent`.
-/

namespace LinkCommittee

/-! ### Pairs the other way round -/

/-- Where two entries match in either order, it does not matter in which order messages stand. -/
theorem Combiner.Links.perm {combiner : Combiner} {identity auxiliary : PublicKey}
    (hswap : ∀ x y, combiner.Matches identity auxiliary x y →
      combiner.Matches identity auxiliary y x)
    {messages messages' : List SenderShares} (hperm : messages.Perm messages')
    (hsenders : (messages.map SenderShares.sender).Nodup)
    (hlinks : combiner.Links identity auxiliary messages) :
    combiner.Links identity auxiliary messages' := by
  obtain ⟨i, j, first, second, hij, hfirst, hsecond, x, hx, y, hy, hmatch⟩ := hlinks
  have hpair := mem_pairs_iff_getElem?.2 ⟨i, j, hij, hfirst, hsecond⟩
  have hne : first ≠ second :=
    fun hsame => ne_of_mem_pairs hsenders hpair (congrArg SenderShares.sender hsame)
  have hfirst' : first ∈ messages' := hperm.subset (List.mem_of_getElem? hfirst)
  have hsecond' : second ∈ messages' := hperm.subset (List.mem_of_getElem? hsecond)
  rcases mem_pairs_or_mem_pairs hfirst' hsecond' hne with hpair' | hpair'
  · obtain ⟨i', j', hij', hi', hj'⟩ := mem_pairs_iff_getElem?.1 hpair'
    exact ⟨i', j', first, second, hij', hi', hj', x, hx, y, hy, hmatch⟩
  · obtain ⟨i', j', hij', hi', hj'⟩ := mem_pairs_iff_getElem?.1 hpair'
    exact ⟨i', j', second, first, hij', hi', hj', y, hy, x, hx, hswap x y hmatch⟩

theorem Combiner.lagrange_matches_swap {identity auxiliary : PublicKey} (x y : ShareEntry)
    (hmatch : Combiner.lagrange.Matches identity auxiliary x y) :
    Combiner.lagrange.Matches identity auxiliary y x := by
  obtain ⟨shared, hcombine, hderive⟩ := hmatch
  exact ⟨shared, Share.combine_swap hcombine, hderive⟩

/-- Where the messages of a token stand in another order, trying a candidate finds the same. -/
theorem History.tryMatch_matched_perm {h h' : History} {token : ScanToken} {t t' : TrackedToken}
    (ht : h.find? token = some t) (ht' : h'.find? token = some t')
    (hperm : t.messages.Perm t'.messages)
    (hsenders : (t.messages.map SenderShares.sender).Nodup) (candidate : AbAddress) :
    (h.tryMatch .lagrange token candidate).1.matched =
      (h'.tryMatch .lagrange token candidate).1.matched := by
  have hsenders' : (t'.messages.map SenderShares.sender).Nodup :=
    (hperm.map SenderShares.sender).nodup_iff.1 hsenders
  rw [Bool.eq_iff_iff, tryMatch_matched_iff, tryMatch_matched_iff]
  constructor
  · rintro ⟨identity, auxiliary, _, hkeys, hfound, hlinks⟩
    obtain rfl := Option.some.inj (ht.symm.trans hfound)
    exact ⟨identity, auxiliary, t', hkeys, ht',
      hlinks.perm Combiner.lagrange_matches_swap hperm hsenders⟩
  · rintro ⟨identity, auxiliary, _, hkeys, hfound, hlinks⟩
    obtain rfl := Option.some.inj (ht'.symm.trans hfound)
    exact ⟨identity, auxiliary, t, hkeys, ht,
      hlinks.perm Combiner.lagrange_matches_swap hperm.symm hsenders'⟩

/-! ### What arrives -/

/-- Share data that a sender submits for a token. -/
structure Submission where
  sender : UInt64
  data : List Char
deriving DecidableEq

namespace Submission

/-- A matcher with the given limits takes the submission.  What the matcher holds has no say in
this, so it is asked of one that holds nothing. -/
def Accepted (limits : HistoryLimits) (token : ScanToken) (s : Submission) : Prop :=
  ((History.empty limits).recordShares token s.sender s.data 0).isOk = true

instance (limits : HistoryLimits) (token : ScanToken) (s : Submission) :
    Decidable (s.Accepted limits token) :=
  inferInstanceAs (Decidable (_ = true))

/-- The message that is recorded of a submission. -/
def message (s : Submission) : SenderShares :=
  ⟨s.sender, (ShareEntry.split s.data).toOption.getD []⟩

variable {limits : HistoryLimits} {token : ScanToken} {s : Submission}

/-- **An accepted submission is recorded** by every matcher with the same limits. -/
theorem Accepted.recordShares_eq (haccepted : s.Accepted limits token) {h : History}
    (hlimits : h.limits = limits) (now : Nat) :
    h.recordShares token s.sender s.data now =
      .ok (h.record token s.sender s.message.entries now) := by
  obtain ⟨entries, hjoin, hne, hle⟩ := History.isOk_recordShares_iff.1 haccepted
  have hentries : s.message.entries = entries := by
    rw [message, ← hjoin, ShareEntry.split_join]
    rfl
  subst hlimits
  rw [hentries, ← hjoin]
  exact History.recordShares_of_entries hne hle

end Submission

/-- Submissions for a token, each at its time, as steps on a matcher. -/
def arrivals (token : ScanToken) (submissions : List (Submission × Nat)) : List MatcherAction :=
  submissions.map fun (s, now) => .recordShares token s.sender s.data now

/-- Submissions that are all recorded: each is accepted, and they come from different senders, no
more than the limit allows. -/
structure Admissible (limits : HistoryLimits) (token : ScanToken)
    (submissions : List (Submission × Nat)) : Prop where
  accepted : ∀ s ∈ submissions.map Prod.fst, s.Accepted limits token
  senders_nodup : ((submissions.map Prod.fst).map Submission.sender).Nodup
  length_le : submissions.length ≤ limits.maxSenders.toNat

/-- Neither the order nor the times have a say in whether submissions are all recorded. -/
theorem Admissible.perm {limits : HistoryLimits} {token : ScanToken}
    {submissions submissions' : List (Submission × Nat)} (h : Admissible limits token submissions)
    (hperm : (submissions.map Prod.fst).Perm (submissions'.map Prod.fst)) :
    Admissible limits token submissions' where
  accepted s hs := h.accepted s (hperm.symm.subset hs)
  senders_nodup := (hperm.map Submission.sender).nodup_iff.1 h.senders_nodup
  length_le := by
    have hlength := hperm.length_eq
    rw [List.length_map, List.length_map] at hlength
    exact hlength ▸ h.length_le

/-- The calls on the history that record submissions for a token. -/
def recordCalls (token : ScanToken) (submissions : List (Submission × Nat)) :
    List HistoryCall :=
  submissions.map fun (s, now) => .record token s.sender s.message.entries now

theorem messagesFor_recordCalls (token : ScanToken) (submissions : List (Submission × Nat)) :
    messagesFor token (recordCalls token submissions) =
      (submissions.map Prod.fst).map Submission.message := by
  unfold messagesFor recordCalls
  rw [List.filterMap_map, List.map_map, ← List.filterMap_eq_map]
  refine List.filterMap_congr fun a _ => ?_
  exact if_pos rfl

namespace Matcher

variable {limits : HistoryLimits} {token : ScanToken} {submissions : List (Submission × Nat)}

/-- Accepted submissions reach the history one by one. -/
theorem history_arrivals (combiner : Combiner) {m : Matcher}
    (haccepted : ∀ s ∈ submissions.map Prod.fst, s.Accepted m.history.limits token) :
    (m.run combiner (arrivals token submissions)).history =
      m.history.run (recordCalls token submissions) := by
  induction submissions generalizing m with
  | nil => rfl
  | cons a submissions ih =>
    obtain ⟨s, now⟩ := a
    have hstep : (m.step combiner (.recordShares token s.sender s.data now)).history =
        m.history.step (.record token s.sender s.message.entries now) := by
      show m.historyAfter combiner (.recordShares token s.sender s.data now) = _
      simp only [historyAfter]
      rw [(haccepted s List.mem_cons_self).recordShares_eq rfl]
      rfl
    have hlater : ∀ s' ∈ submissions.map Prod.fst, s'.Accepted
        (m.step combiner (.recordShares token s.sender s.data now)).history.limits token := by
      intro s' hs'
      rw [hstep, History.limits_step]
      exact haccepted s' (List.mem_cons_of_mem _ hs')
    show ((m.step combiner _).run combiner (arrivals token submissions)).history = _
    rw [ih hlater, hstep]
    rfl

/-- **All that is known of a token after some submissions for it**: their messages in the order of
arrival, and that no match was tried. -/
theorem find?_arrivals (combiner : Combiner) (hne : submissions ≠ [])
    (h : Admissible limits token submissions) :
    ∃ t, ((fresh limits).run combiner (arrivals token submissions)).history.find? token = some t ∧
      t.messages = (submissions.map Prod.fst).map Submission.message ∧ t.state = .pending ∧
      t.senders.length = submissions.length := by
  have hsince : (History.empty limits).TrackedSince token [] (recordCalls token submissions) := by
    refine ⟨by simpa [recordCalls] using hne, rfl, fun front hfront hfront' => ?_⟩
    -- a front that is not empty ends with a record for the token
    rcases List.eq_nil_or_concat' front with rfl | ⟨earlier, last, rfl⟩
    · contradiction
    · have hlast := hfront.subset (List.mem_append_right earlier (List.mem_singleton_self last))
      obtain ⟨⟨s, now⟩, -, rfl⟩ := List.mem_map.1 hlast
      rw [List.nil_append, History.run_append]
      exact History.find?_record _ token s.sender s.message.entries now
  obtain ⟨_, _, _, _, _, t, ht, hholds⟩ := hsince.exists_holds (History.wellFormed_empty limits)
  have hmessages : t.messages = (submissions.map Prod.fst).map Submission.message := by
    rw [hholds.messages_eq, messagesFor_recordCalls, heard_of_nodup]
    · rw [List.map_map]
      exact h.senders_nodup
    · rw [List.length_map, List.length_map]
      exact h.length_le
  refine ⟨t, ?_, hmessages, ?_, ?_⟩
  · rw [history_arrivals combiner h.accepted]
    exact ht
  · cases hstate : t.state with
    | pending => rfl
    | matched =>
      have hmarked := hholds.state_iff.1 hstate
      simp [recordCalls] at hmarked
  · rw [hholds.counted.perm.length_eq, hmessages, List.length_map, List.length_map,
      List.length_map]

/-- Every sender is heard. -/
theorem senderCount_arrivals (combiner : Combiner) (h : Admissible limits token submissions) :
    ((fresh limits).run combiner (arrivals token submissions)).history.senderCount token =
      submissions.length := by
  by_cases hempty : submissions = []
  · subst hempty
    rfl
  · obtain ⟨t, ht, -, -, hcount⟩ := find?_arrivals combiner hempty h
    simp only [History.senderCount, ht, hcount]

/-- **The order of arrival does not matter.**  Let submissions for a token be admissible, and let
the same submissions reach another matcher with the same limits in another order and at other times.
Both matchers then hear every sender; and trying a candidate finds a match in both or in none, and
leaves the token in the same state with as many senders.  Nothing is asked of the entries: they
combine to the same keys in either order. -/
theorem tryMatch_order_independent {limits : HistoryLimits} {token : ScanToken}
    {submissions submissions' : List (Submission × Nat)}
    (hadmissible : Admissible limits token submissions)
    (hperm : (submissions.map Prod.fst).Perm (submissions'.map Prod.fst)) :
    let h := ((fresh limits).run .lagrange (arrivals token submissions)).history
    let h' := ((fresh limits).run .lagrange (arrivals token submissions')).history
    h.senderCount token = submissions.length ∧ h'.senderCount token = submissions.length ∧
    (∀ candidate,
      let result := h.tryMatch .lagrange token candidate
      let result' := h'.tryMatch .lagrange token candidate
      result.1.matched = result'.1.matched ∧
        result.2.state? token = result'.2.state? token ∧
        result.2.senderCount token = result'.2.senderCount token) ∧
    ∀ x y shared, Share.combine x y = .ok shared ↔ Share.combine y x = .ok shared := by
  intro h h'
  have hadmissible' := hadmissible.perm hperm
  have hlength : submissions'.length = submissions.length := by
    simpa using hperm.length_eq.symm
  have hheard : h.senderCount token = submissions.length := senderCount_arrivals _ hadmissible
  have hheard' : h'.senderCount token = submissions.length := by
    rw [← hlength]
    exact senderCount_arrivals _ hadmissible'
  refine ⟨hheard, hheard', fun candidate => ?_,
    fun x y shared => ⟨Share.combine_swap, Share.combine_swap⟩⟩
  by_cases hempty : submissions = []
  · subst hempty
    obtain rfl : submissions' = [] := List.eq_nil_of_length_eq_zero hlength
    exact ⟨rfl, rfl, rfl⟩
  have hempty' : submissions' ≠ [] := by
    apply List.ne_nil_of_length_pos
    rw [hlength]
    exact List.length_pos_of_ne_nil hempty
  obtain ⟨t, ht, hmessages, hstate, -⟩ := find?_arrivals .lagrange hempty hadmissible
  obtain ⟨t', ht', hmessages', hstate', -⟩ := find?_arrivals .lagrange hempty' hadmissible'
  have hpermMessages : t.messages.Perm t'.messages := by
    rw [hmessages, hmessages']
    exact hperm.map Submission.message
  have hsenders : (t.messages.map SenderShares.sender).Nodup := by
    rw [hmessages, List.map_map]
    exact hadmissible.senders_nodup
  have hmatched := History.tryMatch_matched_perm ht ht' hpermMessages hsenders candidate
  refine ⟨hmatched, ?_, ?_⟩
  · rw [History.state?_tryMatch, History.state?_tryMatch, hmatched]
    simp only [History.state?, h, h', ht, ht', Option.map_some, hstate, hstate']
  · rw [History.senderCount_tryMatch, History.senderCount_tryMatch, hheard, hheard']

/-- Three senders, one of them with two entries, and the last of them first. -/
theorem tryMatch_order_independent_three :
    ∃ (token : ScanToken) (submissions submissions' : List (Submission × Nat)),
      let h := ((fresh .standard).run .lagrange (arrivals token submissions)).history
      let h' := ((fresh .standard).run .lagrange (arrivals token submissions')).history
      Admissible .standard token submissions ∧
        (submissions.map Prod.fst).Perm (submissions'.map Prod.fst) ∧
        h.senderCount token = 3 ∧ h'.senderCount token = 3 ∧ h ≠ h' ∧
        ∀ candidate, (h.tryMatch .lagrange token candidate).1.matched =
          (h'.tryMatch .lagrange token candidate).1.matched := by
  let token : ScanToken := ⟨List.replicate 132 'a', by simp [isAscii], List.length_replicate⟩
  let one : Submission := ⟨1, List.replicate 132 'A'⟩
  let two : Submission := ⟨2, List.replicate 264 'A'⟩
  let three : Submission := ⟨3, List.replicate 132 '!'⟩
  let submissions : List (Submission × Nat) := [(one, 0), (two, 5), (three, 9)]
  let submissions' : List (Submission × Nat) := [(three, 1), (one, 2), (two, 3)]
  have hadmissible : Admissible .standard token submissions :=
    ⟨by decide +kernel, by decide, by decide⟩
  have hperm : (submissions.map Prod.fst).Perm (submissions'.map Prod.fst) :=
    @List.perm_append_comm _ [one, two] [three]
  have hne : ((fresh .standard).run .lagrange (arrivals token submissions)).history ≠
      ((fresh .standard).run .lagrange (arrivals token submissions')).history := by
    decide +kernel
  obtain ⟨hcount, hcount', hsame, -⟩ := tryMatch_order_independent hadmissible hperm
  exact ⟨token, submissions, submissions', hadmissible, hperm, hcount, hcount', hne,
    fun candidate => (hsame candidate).1⟩

end Matcher

end LinkCommittee
