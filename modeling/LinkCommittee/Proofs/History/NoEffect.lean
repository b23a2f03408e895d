import LinkCommittee.Json.Codec
import LinkCommittee.Proofs.History.Generations

/-!
# Calls that report no effect

Every call answers, and some answers say that nothing has changed.  A mark or an eviction
that answers so has done nothing, and neither has a pruning that drops no token.  A record
begins to track its token before it looks at the senders; so what remains of a record that
adds no message is the start of tracking (`History.record_of_not_recorded`), and a record
for a token tracked already has done nothing.

A token that is new holds no message, which only a limit of no senders makes too many.
The limits that `HistoryLimits.new` accepts allow two senders at least; limits that are
read from a text may allow none.  Under such limits every record for a new token answers that
the limit is reached, but has begun to track the token, for which others may have been
dropped.  Main statement: `History.reportsNoEffect_exact`.
-/

namespace LinkCommittee

/-- Recording leaves a token as it is unless it answers that the message was recorded. -/
theorem TrackedToken.record_of_not_recorded {t : TrackedToken} {limit : Nat} {sender : UInt64}
    {entries : List ShareEntry} (hanswer : (t.record limit sender entries).1 ≠ .recorded) :
    (t.record limit sender entries).2 = t := by
  unfold record at hanswer ⊢
  split at hanswer
  next hheard => rw [if_pos hheard]
  next hnew =>
    split at hanswer
    next hfull => rw [if_neg hnew, if_pos hfull]
    · exact absurd rfl hanswer

/-- The token that repeats one symbol. -/
def ScanToken.ofSymbol (symbol : Char) (hascii : isAscii symbol = true) : ScanToken :=
  ⟨List.replicate 132 symbol, by simp [hascii], List.length_replicate⟩

/-- A token that holds nothing has heard no one, so only the limit can stand against a sender. -/
theorem answer_nil (limit : Nat) (sender : UInt64) :
    answer limit [] sender = if 0 = limit then .senderLimitReached else .recorded :=
  if_neg List.not_mem_nil

/-- The limits that are accepted. -/
theorem HistoryLimits.new_eq_ok_iff {tokens senders shares : UInt64} {lifetime : Option Duration}
    {limits : HistoryLimits} :
    new tokens senders shares lifetime = .ok limits ↔
      limits = ⟨tokens, senders, shares, lifetime⟩ ∧ tokens ≠ 0 ∧ 2 ≤ senders ∧ shares ≠ 0 ∧
        lifetime ≠ some Duration.zero := by
  unfold new
  constructor
  · intro h
    split at h
    · contradiction
    next htokens =>
      split at h
      · contradiction
      next hsenders =>
        split at h
        · contradiction
        next hshares =>
          split at h
          · contradiction
          next hlifetime =>
            cases h
            exact ⟨rfl, htokens, UInt64.not_lt.1 hsenders, hshares, hlifetime⟩
  · rintro ⟨rfl, htokens, hsenders, hshares, hlifetime⟩
    rw [if_neg htokens, if_neg (UInt64.not_lt.2 hsenders), if_neg hshares, if_neg hlifetime]

namespace History

variable {h : History} {token : ScanToken}

/-- A call answers that nothing has changed: a record, that its sender was heard before or is one
too many; a mark or an eviction, that it failed; a pruning, that it dropped no token. -/
def ReportsNoEffect (h : History) : HistoryCall → Prop
  | .record token sender entries now =>
    (h.record token sender entries now).1 = .duplicateSender ∨
      (h.record token sender entries now).1 = .senderLimitReached
  | .markMatched token generation => (h.markMatched token generation).1 = false
  | .evict token => (h.evict token).1 = false
  | .prune now => (h.prune now).1 = 0

/-! ### What a record leaves that adds no message -/

theorem update_eq_self {f : TrackedToken → TrackedToken}
    (hf : ∀ t ∈ h.tracked, t.token = token → f t = t) : h.update token f = h := by
  have hsame : (h.tracked.map fun t => if t.token = token then f t else t) =
      h.tracked.map id := by
    refine List.map_congr_left fun t ht => ?_
    split
    next htoken => exact hf t ht htoken
    · rfl
  rw [update, hsame, List.map_id]

theorem recordTracked_of_not_recorded (hnodup : (h.tracked.map TrackedToken.token).Nodup)
    {sender : UInt64} {entries : List ShareEntry}
    (hanswer : (h.recordTracked token sender entries).1 ≠ .recorded) :
    (h.recordTracked token sender entries).2 = h := by
  unfold recordTracked at hanswer ⊢
  cases hfound : h.find? token with
  | none => rfl
  | some t =>
    rw [hfound] at hanswer
    refine update_eq_self fun t' ht' htoken' => ?_
    obtain ⟨ht, htoken⟩ := mem_of_find? hfound
    obtain rfl : t' = t := List.inj_on_of_nodup_map hnodup ht' ht (htoken'.trans htoken.symm)
    exact TrackedToken.record_of_not_recorded hanswer

theorem WellFormed.nodup_tokens_ensure (hw : h.WellFormed) (token : ScanToken) (now : Nat) :
    ((h.ensure token now).tracked.map TrackedToken.token).Nodup := by
  rw [← map_token_record h token 0 [] now]
  exact hw.record.nodup_tokens

/-- A record that adds no message still sees to it that its token is tracked. -/
theorem record_of_not_recorded (hw : h.WellFormed) {sender : UInt64} {entries : List ShareEntry}
    {now : Nat} (hanswer : (h.record token sender entries now).1 ≠ .recorded) :
    (h.record token sender entries now).2 = h.ensure token now :=
  recordTracked_of_not_recorded (hw.nodup_tokens_ensure token now) hanswer

/-- A record for a new token answers that nothing has changed exactly if no sender is allowed. -/
theorem reportsNoEffect_record_of_none (hnone : h.find? token = none) (sender : UInt64)
    (entries : List ShareEntry) (now : Nat) :
    h.ReportsNoEffect (.record token sender entries now) ↔ h.limits.maxSenders = 0 := by
  have hzero : h.limits.maxSenders = 0 ↔ 0 = h.limits.maxSenders.toNat := by
    rw [← UInt64.toNat_inj, eq_comm]
    rfl
  rw [ReportsNoEffect, outcome_record_of_none hnone, answer_nil, hzero]
  split
  next hnobody => exact iff_of_true (.inr rfl) hnobody
  next hsomebody => exact iff_of_false (by simp) hsomebody

/-! ### The other calls -/

/-- An eviction that finds no token changes nothing. -/
theorem evict_of_false (hfalse : (h.evict token).1 = false) : (h.evict token).2 = h := by
  unfold evict at hfalse ⊢
  split at hfalse
  · contradiction
  next huntracked => rw [if_neg huntracked]

/-- A pruning that drops no token from the table leaves all of them in the queue. -/
theorem Represented.prune_of_zero (hr : h.Represented) {now : Nat}
    (hzero : (h.prune now).1 = 0) : (h.prune now).2 = h := by
  unfold History.prune at hzero ⊢
  cases hlifetime : h.limits.lifetime with
  | none => rfl
  | some lifetime =>
    rw [hlifetime] at hzero
    dsimp only at hzero ⊢
    have hkept : (h.tracked.filter fun t => !t.expired lifetime now) = h.tracked :=
      List.filter_sublist.eq_of_length_le (Nat.le_of_sub_eq_zero hzero)
    have hqueue : (h.order.filter fun token => h.tracked.any fun t => t.token = token) =
        h.order := by
      rw [List.filter_eq_self, hr.order_eq]
      intro token htoken
      obtain ⟨t, ht, rfl⟩ := List.mem_map.1 htoken
      exact List.any_eq_true.2 ⟨t, ht, decide_eq_true rfl⟩
    rw [hkept, hqueue]

/-! ### When nothing has changed -/

/-- A call with which the tracking of a token begins leaves another history, as the next generation
is another one. -/
theorem step_ne_self_of_begins {call : HistoryCall} (hbegins : h.begins call = true) :
    h.step call ≠ h := by
  intro hsame
  have hnext := nextGeneration_step h call
  rw [hsame, if_pos hbegins, UInt64.left_eq_add] at hnext
  contradiction

/-- **A call that reports no effect has none unless the tracking of a token begins with it.** -/
theorem ReportsNoEffect.step_eq_self_iff (hr : h.Represented) {call : HistoryCall}
    (hreport : h.ReportsNoEffect call) : h.step call = h ↔ h.begins call = false := by
  constructor
  · intro hsame
    rw [← Bool.not_eq_true]
    exact fun hbegins => step_ne_self_of_begins hbegins hsame
  · intro hold
    cases call with
    | record token sender entries now =>
      obtain ⟨t, ht⟩ := Option.isSome_iff_exists.1 (Option.isNone_eq_false_iff.1 hold)
      have hanswer : (h.record token sender entries now).1 ≠ .recorded := by
        intro hrecorded
        rw [ReportsNoEffect, hrecorded] at hreport
        exact absurd hreport (by decide)
      exact (record_of_not_recorded hr.toWellFormed hanswer).trans (ensure_of_some ht now)
    | markMatched token generation => exact markMatched_of_false hreport
    | evict token => exact evict_of_false hreport
    | prune now => exact hr.prune_of_zero hreport

/-- A record that has begun to track its token all the same: no sender is allowed, and the answer is
that the limit is reached. -/
theorem ReportsNoEffect.exists_track (hw : h.WellFormed) {call : HistoryCall}
    (hreport : h.ReportsNoEffect call) (hbegins : h.begins call = true) :
    h.limits.maxSenders = 0 ∧ ∃ token sender entries now,
      call = .record token sender entries now ∧ h.find? token = none ∧
        (h.record token sender entries now).1 = .senderLimitReached ∧
          h.step call = h.track token now := by
  cases call with
  | record token sender entries now =>
    have hnone : h.find? token = none := Option.isNone_iff_eq_none.1 hbegins
    have hnobody := (reportsNoEffect_record_of_none hnone sender entries now).1 hreport
    have hanswer : (h.record token sender entries now).1 = .senderLimitReached := by
      rw [outcome_record_of_none hnone, hnobody]
      exact answer_nil 0 sender
    have hleft := record_of_not_recorded hw (hanswer.trans_ne RecordOutcome.noConfusion)
    rw [ensure_of_none hnone] at hleft
    exact ⟨hnobody, token, sender, entries, now, rfl, hnone, hanswer, hleft⟩
  | markMatched token generation => contradiction
  | evict token => contradiction
  | prune now => contradiction

/-- **Calls that report no effect have none as long as a sender is allowed.**  Whatever was called
before, under any limits, a call that reports no effect leaves the history as it was, unless the
tracking of a token begins with it.  Then no sender is allowed, and the call is a record for a new
token, which it tracks although it answers that the limit is reached.  So under given limits no
call says wrongly that it had no effect exactly if the limits allow a sender, as those that are
accepted and the standard ones do. -/
theorem reportsNoEffect_exact (limits : HistoryLimits) :
    (∀ calls call, ((empty limits).run calls).ReportsNoEffect call →
      let h := (empty limits).run calls
      (h.step call = h ↔ h.begins call = false) ∧
      (h.begins call = true → limits.maxSenders = 0 ∧ ∃ token sender entries now,
        call = .record token sender entries now ∧ h.find? token = none ∧
          (h.record token sender entries now).1 = .senderLimitReached ∧
            h.step call = h.track token now)) ∧
    ((∀ calls call, ((empty limits).run calls).ReportsNoEffect call →
      ((empty limits).run calls).step call = (empty limits).run calls) ↔ limits.maxSenders ≠ 0) ∧
    (∀ tokens senders shares lifetime,
      HistoryLimits.new tokens senders shares lifetime = .ok limits → limits.maxSenders ≠ 0) ∧
    HistoryLimits.standard.maxSenders ≠ 0 := by
  have hrun (calls : List HistoryCall) : ((empty limits).run calls).Represented :=
    (represented_empty limits).run calls
  have hlimits (calls : List HistoryCall) : ((empty limits).run calls).limits = limits :=
    limits_run (empty limits) calls
  refine ⟨fun calls call hreport => ⟨hreport.step_eq_self_iff (hrun calls), ?_⟩, ⟨?_, ?_⟩, ?_, ?_⟩
  · intro hbegins
    have htracks := hreport.exists_track (hrun calls).toWellFormed hbegins
    rwa [hlimits] at htracks
  · intro hunchanged hnobody
    -- under such limits the very first record is an exception
    have hnone : (empty limits).find? (.ofSymbol 'a' rfl) = none := rfl
    have hreport := (reportsNoEffect_record_of_none hnone 1 [] 0).2 hnobody
    exact step_ne_self_of_begins rfl (hunchanged [] _ hreport)
  · intro hsomebody calls call hreport
    rw [hreport.step_eq_self_iff (hrun calls), ← Bool.not_eq_true]
    intro hbegins
    have htracks := hreport.exists_track (hrun calls).toWellFormed hbegins
    rw [hlimits] at htracks
    exact hsomebody htracks.1
  · intro tokens senders shares lifetime hnew hnobody
    obtain ⟨rfl, -, hpair, -, -⟩ := HistoryLimits.new_eq_ok_iff.1 hnew
    rw [show senders = 0 from hnobody] at hpair
    contradiction
  · decide

/-- Limits read from a text that allow no sender.  The first record answers that the limit is
reached, although it has begun to track the token; the next one answers the same, although it has
dropped that token for its own. -/
theorem reportsNoEffect_refuted :
    let limits : HistoryLimits := ⟨1, 0, 1, none⟩
    let token := ScanToken.ofSymbol 'a' rfl
    let other := ScanToken.ofSymbol 'b' rfl
    let first : HistoryCall := .record token 1 [] 0
    let second : HistoryCall := .record other 1 [] 0
    let h := (empty limits).step first
    (JsonValue.parse? ("\x7b\"max_tokens\":1,\"max_senders\":0,".toList ++
      "\"max_shares_per_message\":1,\"token_ttl\":null\x7d".toList)).bind
        HistoryLimits.ofJson? = some limits ∧
    ((empty limits).ReportsNoEffect first ∧ h ≠ empty limits ∧ h.order = [token]) ∧
    h.ReportsNoEffect second ∧ h.step second ≠ h ∧ (h.step second).order = [other] := by
  refine ⟨by decide +kernel, ⟨?_, ?_, ?_⟩, ?_, ?_, ?_⟩
  · exact .inr (by decide)
  · decide
  · decide
  · exact .inr (by decide)
  · decide
  · decide

end History

end LinkCommittee
