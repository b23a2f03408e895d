import LinkCommittee.Proofs.History.Representation
import LinkCommittee.Proofs.Matching.Interleaving

/-!
# What a matcher admits

What clients do to the history they share is a call on it, and a record brings at least one
entry and no more than the limits allow (`Matcher.history_step_cases`).  Whatever happens, a
matcher therefore holds no more messages for a token than it may have senders, no message
without entries and none of more entries than one may bring (`Matcher.admitted_run`).
-/

namespace LinkCommittee

/-- A record brings at least one entry and no more than the limits allow. -/
def HistoryCall.Admissible (limits : HistoryLimits) : HistoryCall → Prop
  | .record _ _ entries _ =>
    entries ≠ [] ∧ entries.length ≤ limits.maxSharesPerMessage.toNat
  | .markMatched _ _ => True
  | .evict _ => True
  | .prune _ => True

/-- A message that a token holds after a call it held before, or the call recorded it. -/
theorem TrackedToken.mem_messages_after {t : TrackedToken} {limit : Nat} {call : HistoryCall}
    {m : SenderShares} (hm : m ∈ (t.after limit call).messages) :
    m ∈ t.messages ∨ ∃ now, call = .record t.token m.sender m.entries now := by
  cases call with
  | record token sender entries now =>
    simp only [after] at hm
    split at hm
    next htoken =>
      rcases t.record_cases limit sender entries with hrecord | ⟨-, hrecord⟩
      · rw [hrecord] at hm
        exact .inl hm
      · rw [hrecord] at hm
        rcases List.mem_append.1 hm with hold | hnew
        · exact .inl hold
        · obtain rfl := List.mem_singleton.1 hnew
          exact .inr ⟨now, by rw [htoken]⟩
    · exact .inl hm
  | markMatched token generation =>
    simp only [after] at hm
    split at hm
    · exact .inl hm
    · exact .inl hm
  | evict token => exact .inl hm
  | prune now => exact .inl hm

namespace History

variable {h : History} {limits : HistoryLimits}

/-- A history under some limits in which every message keeps to them. -/
structure Admitted (limits : HistoryLimits) (h : History) : Prop extends Represented h where
  limits_eq : h.limits = limits
  entries_ne_nil : ∀ t ∈ h.tracked, ∀ m ∈ t.messages, m.entries ≠ []
  entries_le : ∀ t ∈ h.tracked, ∀ m ∈ t.messages,
    m.entries.length ≤ limits.maxSharesPerMessage.toNat

theorem admitted_empty (limits : HistoryLimits) : (empty limits).Admitted limits where
  toRepresented := represented_empty limits
  limits_eq := rfl
  entries_ne_nil := fun _ ht => nomatch ht
  entries_le := fun _ ht => nomatch ht

/-- A message that is held after a call was held before, or the call recorded it. -/
theorem mem_messages_step (hw : h.WellFormed) {call : HistoryCall} {t' : TrackedToken}
    (ht' : t' ∈ (h.step call).tracked) {m : SenderShares} (hm : m ∈ t'.messages) :
    (∃ t ∈ h.tracked, m ∈ t.messages) ∨
      ∃ token now, call = .record token m.sender m.entries now := by
  have hfound := (find?_eq_some_iff (hw.step call)).2 ⟨ht', rfl⟩
  cases hbefore : h.find? t'.token with
  | none =>
    rcases find?_step_of_none hw hbefore call with hnone | ⟨sender, entries, now, -, hstart⟩
    · rw [hfound] at hnone
      contradiction
    · rw [Option.some.inj (hfound.symm.trans hstart)] at hm
      rcases TrackedToken.mem_messages_after hm with hold | ⟨now, hrecord⟩
      · cases hold
      · exact .inr ⟨_, now, hrecord⟩
  | some t =>
    rcases find?_step hw hbefore call with hnone | hafter
    · rw [hfound] at hnone
      contradiction
    · rw [Option.some.inj (hfound.symm.trans hafter)] at hm
      rcases TrackedToken.mem_messages_after hm with hold | ⟨now, hrecord⟩
      · exact .inl ⟨t, (mem_of_find? hbefore).1, hold⟩
      · exact .inr ⟨_, now, hrecord⟩

/-- **One admissible call keeps every message within the limits.** -/
theorem Admitted.step (ha : h.Admitted limits) {call : HistoryCall}
    (hcall : call.Admissible limits) : (h.step call).Admitted limits where
  toRepresented := ha.toRepresented.step call
  limits_eq := (limits_step h call).trans ha.limits_eq
  entries_ne_nil := by
    intro t' ht' m hm
    rcases mem_messages_step ha.toWellFormed ht' hm with ⟨t, ht, hold⟩ | ⟨token, now, rfl⟩
    · exact ha.entries_ne_nil t ht m hold
    · exact hcall.1
  entries_le := by
    intro t' ht' m hm
    rcases mem_messages_step ha.toWellFormed ht' hm with ⟨t, ht, hold⟩ | ⟨token, now, rfl⟩
    · exact ha.entries_le t ht m hold
    · exact hcall.2

end History

namespace Matcher

/-- **What a client does to the history is an admissible call**, or nothing. -/
theorem history_step_cases (combiner : Combiner) (m : Matcher) (action : MatcherAction) :
    (m.step combiner action).history = m.history ∨
      ∃ call : HistoryCall, call.Admissible m.history.limits ∧
        (m.step combiner action).history = m.history.step call := by
  have hrecorded {token : ScanToken} {sender : UInt64} {data : List Char} {now : Nat}
      {outcome : RecordOutcome} {h : History}
      (hok : m.history.recordShares token sender data now = .ok (outcome, h)) :
      ∃ call : HistoryCall, call.Admissible m.history.limits ∧ h = m.history.step call := by
    obtain ⟨entries, -, hne, hle, hresult⟩ := History.recordShares_eq_ok_iff.1 hok
    exact ⟨.record token sender entries now, ⟨hne, hle⟩, (congrArg Prod.snd hresult).symm⟩
  show m.historyAfter combiner action = _ ∨ ∃ call : HistoryCall, _ ∧
    m.historyAfter combiner action = _
  cases action with
  | recordShares token sender data now =>
    simp only [historyAfter]
    split
    · exact .inl rfl
    next outcome h hok => exact .inr (hrecorded hok)
  | ingest raw now =>
    simp only [historyAfter]
    split
    · exact .inl rfl
    next outcome h hingest =>
      obtain ⟨message, -, hok⟩ := Except.bind_eq_ok_iff.1 hingest
      exact .inr (hrecorded hok)
  | confirm token => exact .inr ⟨.evict token, trivial, rfl⟩
  | prune now => exact .inr ⟨.prune now, trivial, rfl⟩
  | begin token candidate => exact .inl rfl
  | conclude place =>
    simp only [historyAfter]
    split
    · exact .inl rfl
    next attempt hattempt =>
      unfold History.conclude
      split
      · exact .inr ⟨.markMatched attempt.token attempt.generation, trivial, rfl⟩
      · exact .inl rfl

/-- **Whatever clients do, the history keeps to the limits.**  By induction on what they do, since
each action is an admissible call or nothing. -/
theorem admitted_run (combiner : Combiner) {limits : HistoryLimits} {m : Matcher}
    (ha : m.history.Admitted limits) (actions : List MatcherAction) :
    (m.run combiner actions).history.Admitted limits := by
  induction actions generalizing m with
  | nil => exact ha
  | cons action actions ih =>
    apply ih
    rcases history_step_cases combiner m action with hsame | ⟨call, hcall, hstep⟩
    · rw [hsame]
      exact ha
    · rw [ha.limits_eq] at hcall
      rw [hstep]
      exact ha.step hcall

end Matcher

end LinkCommittee
