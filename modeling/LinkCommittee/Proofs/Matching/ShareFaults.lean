import LinkCommittee.Proofs.Matching.Admission
import LinkCommittee.Proofs.Message.RoundTrip

/-!
# Which share data is taken

Share data is refused for the first fault it has, in a fixed order: it is not made of whole
entries, it is empty, or it has more entries than the limit (`History.Refusal`).  Data
without a fault is recorded as the list of its entries.  The share data of a message that
was read is made of entries and is not empty, so it can only have too many of them.  What is
refused leaves the matcher as it was.

Main statement: `Matcher.admission_exact`.
-/

namespace LinkCommittee

namespace History

variable {h : History} {token : ScanToken} {sender : UInt64} {now : Nat} {data : List Char}

/-- The first fault of share data under a limit, in the order in which faults are looked for: it is
not ASCII text of whole entries, it is empty, or it has more entries than the limit. -/
inductive Refusal (limit : Nat) (data : List Char) : MessageError → Prop
  | misaligned (uneven : ¬((∀ c ∈ data, c.toNat < 128) ∧ 132 ∣ byteLength data)) :
      Refusal limit data (.misaligned (byteLength data))
  | empty (nothing : data = []) : Refusal limit data (.malformed .nothingReceived)
  | tooMany (count : Nat) (ascii : ∀ c ∈ data, c.toNat < 128)
      (length : byteLength data = 132 * count) (beyond : limit < count) :
      Refusal limit data (.tooManyShares count limit)

/-- **A fault of share data is what recording reports.** -/
theorem Refusal.recordShares_eq {e : MessageError}
    (hfault : Refusal h.limits.maxSharesPerMessage.toNat data e) :
    h.recordShares token sender data now = .error e := by
  cases hfault with
  | misaligned uneven =>
    rw [recordShares, ShareEntry.split_eq_error uneven]
    rfl
  | empty nothing =>
    rw [nothing]
    exact recordShares_join h token sender [] now
  | tooMany count ascii length beyond =>
    obtain ⟨entries, rfl, rfl⟩ := ShareEntry.exists_entries ascii length
    have hne : entries ≠ [] := List.ne_nil_of_length_pos (by omega)
    rw [recordShares_join, if_neg hne, if_pos beyond]

/-- **Share data is refused for its first fault** and for nothing else.  Data without a fault is
recorded, so there is no other error. -/
theorem recordShares_eq_error_iff {e : MessageError} :
    h.recordShares token sender data now = .error e ↔
      Refusal h.limits.maxSharesPerMessage.toNat data e := by
  refine ⟨fun hrefused => ?_, Refusal.recordShares_eq⟩
  by_cases hwhole : (∀ c ∈ data, c.toNat < 128) ∧ 132 ∣ byteLength data
  · obtain ⟨hascii, count, hlength⟩ := hwhole
    obtain ⟨entries, rfl, rfl⟩ := ShareEntry.exists_entries hascii hlength
    rw [recordShares_join] at hrefused
    split at hrefused
    next hnone =>
      cases hrefused
      exact .empty (congrArg ShareEntry.join hnone)
    next =>
      split at hrefused
      next hmany =>
        cases hrefused
        exact .tooMany _ hascii hlength hmany
      · contradiction
  · have hfault : Refusal h.limits.maxSharesPerMessage.toNat data _ := .misaligned hwhole
    rw [hfault.recordShares_eq] at hrefused
    cases hrefused
    exact hfault

/-- The share data of a message is only refused for the number of its entries. -/
theorem recordShares_shareData_eq_error_iff {message : Message} {e : MessageError} :
    h.recordShares token sender message.shareData now = .error e ↔
      h.limits.maxSharesPerMessage.toNat < message.entries.length ∧
        e = .tooManyShares message.entries.length h.limits.maxSharesPerMessage.toNat := by
  rw [Message.shareData, recordShares_join, if_neg message.entries_ne_nil]
  split
  next hmany => simp only [hmany, true_and, Except.error.injEq, eq_comm]
  next hfew => simp only [hfew, false_and, reduceCtorEq]

/-- A message that was read is taken as its share data. -/
theorem ingest_of_decoded {raw : List Char} {message : Message}
    (hread : Message.decodeChars raw = .ok message) :
    h.ingest raw now = h.recordShares message.token message.sender message.shareData now := by
  rw [ingest, hread]
  rfl

/-- A text that cannot be read is refused for what reading it reports. -/
theorem ingest_of_unread {raw : List Char} {e : MessageError}
    (hunread : Message.decodeChars raw = .error e) : h.ingest raw now = .error e := by
  rw [ingest, hunread]
  rfl

end History

namespace Matcher

variable {combiner : Combiner} {m : Matcher} {token : ScanToken} {sender : UInt64}
  {data raw : List Char} {now : Nat}

/-- A step that leaves the history as it was, and is no part of trying a match, does nothing. -/
theorem step_eq_self {action : MatcherAction} (hhistory : m.historyAfter combiner action = m.history)
    (hattempts : m.attemptsAfter action = m.attempts) (hcalls : m.callsAfter action = m.calls) :
    m.step combiner action = m := by
  have hstarts : startsTracking m.history m.history = false :=
    startsTracking_eq_false (List.Subset.refl _)
  rw [step, hhistory, hattempts, hcalls, hstarts]
  rfl

/-- **Share data that is refused changes nothing.** -/
theorem step_recordShares_of_error {e : MessageError}
    (hrefused : m.history.recordShares token sender data now = .error e) :
    m.step combiner (.recordShares token sender data now) = m := by
  apply step_eq_self _ rfl rfl
  rw [historyAfter, hrefused]

/-- Share data that is taken changes the history as it is recorded. -/
theorem history_step_recordShares_of_ok {outcome : RecordOutcome} {h : History}
    (htaken : m.history.recordShares token sender data now = .ok (outcome, h)) :
    (m.step combiner (.recordShares token sender data now)).history = h := by
  show m.historyAfter combiner (.recordShares token sender data now) = h
  rw [historyAfter, htaken]

/-- **A message that is refused changes nothing.** -/
theorem step_ingest_of_error {e : MessageError}
    (hrefused : m.history.ingest raw now = .error e) :
    m.step combiner (.ingest raw now) = m := by
  apply step_eq_self _ rfl rfl
  rw [historyAfter, hrefused]

/-- A message that is taken changes the history as it is recorded. -/
theorem history_step_ingest_of_ok {outcome : RecordOutcome} {h : History}
    (htaken : m.history.ingest raw now = .ok (outcome, h)) :
    (m.step combiner (.ingest raw now)).history = h := by
  show m.historyAfter combiner (.ingest raw now) = h
  rw [historyAfter, htaken]

/-- A message that is refused leaves the history as it was. -/
theorem history_step_ingest_of_error {e : MessageError}
    (hrefused : m.history.ingest raw now = .error e) :
    (m.step combiner (.ingest raw now)).history = m.history := by
  rw [step_ingest_of_error hrefused]

/-- **Admission of share data.**  In every state of a matcher, share data is refused exactly for its
first fault, and otherwise the list of its entries is recorded.  A text that cannot be read is
refused for what reading it reports; a text that can be read is taken as the share data that stands
behind its header, and is refused exactly if it has more entries than the limit.  What is refused
leaves the matcher as it was.  Whatever clients do, every message that is held therefore has an
entry and no more than the limit, and every entry is 132 ASCII characters. -/
theorem admission_exact (combiner : Combiner) :
    (∀ (m : Matcher) (token : ScanToken) (sender : UInt64) (data : List Char) (now : Nat),
      let limit := m.history.limits.maxSharesPerMessage.toNat
      let result := m.history.recordShares token sender data now
      (∀ e, result = .error e ↔ History.Refusal limit data e) ∧
      (∀ taken, result = .ok taken ↔ ∃ entries, ShareEntry.join entries = data ∧
        1 ≤ entries.length ∧ entries.length ≤ limit ∧
          m.history.record token sender entries now = taken) ∧
      (∀ e, result = .error e → m.step combiner (.recordShares token sender data now) = m) ∧
      ∀ outcome h, result = .ok (outcome, h) →
        (m.step combiner (.recordShares token sender data now)).history = h) ∧
    (∀ (m : Matcher) (raw : List Char) (now : Nat),
      let limit := m.history.limits.maxSharesPerMessage.toNat
      let result := m.history.ingest raw now
      (∀ e, Message.decodeChars raw = .error e → result = .error e) ∧
      (∀ message, Message.decodeChars raw = .ok message → message.shareData = raw.drop 266 ∧
        result = m.history.recordShares message.token message.sender message.shareData now ∧
        ∀ e, result = .error e ↔
          limit < message.entries.length ∧ e = .tooManyShares message.entries.length limit) ∧
      (∀ e, result = .error e → m.step combiner (.ingest raw now) = m) ∧
      ∀ outcome h, result = .ok (outcome, h) →
        (m.step combiner (.ingest raw now)).history = h) ∧
    ∀ (limits : HistoryLimits) (actions : List MatcherAction),
      ∀ t ∈ ((fresh limits).run combiner actions).history.tracked, ∀ message ∈ t.messages,
        1 ≤ message.entries.length ∧
        message.entries.length ≤ limits.maxSharesPerMessage.toNat ∧
        ∀ entry ∈ message.entries,
          entry.chars.length = 132 ∧ ∀ c ∈ entry.chars, c.toNat < 128 := by
  refine ⟨fun m token sender data now => ?_, fun m raw now => ?_, fun limits actions => ?_⟩
  · refine ⟨fun e => History.recordShares_eq_error_iff, fun taken => ?_,
      fun e => step_recordShares_of_error, fun outcome h => history_step_recordShares_of_ok⟩
    rw [History.recordShares_eq_ok_iff]
    simp only [Nat.one_le_iff_ne_zero, ne_eq, List.length_eq_zero_iff]
  · refine ⟨fun e => History.ingest_of_unread, fun message hread => ?_,
      fun e => step_ingest_of_error, fun outcome h => history_step_ingest_of_ok⟩
    have hdata := (Message.carries_of_decodeChars hread).1.data
    refine ⟨hdata, History.ingest_of_decoded hread, fun e => ?_⟩
    rw [History.ingest_of_decoded hread]
    exact History.recordShares_shareData_eq_error_iff
  · intro t ht message hmessage
    have ha := admitted_run combiner (m := fresh limits) (History.admitted_empty limits) actions
    refine ⟨List.length_pos_of_ne_nil (ha.entries_ne_nil t ht message hmessage),
      ha.entries_le t ht message hmessage, fun entry _ => ?_⟩
    exact ⟨entry.length_chars, all_isAscii_iff.1 entry.text.ascii⟩

/-- Under a limit of one entry, two entries are refused on both ways, and one is held. -/
theorem admission_exact_limit_one :
    ∃ (combiner : Combiner) (m : Matcher) (token : ScanToken) (data raw : List Char),
      m.history.recordShares token 1 data 0 = .error (.tooManyShares 2 1) ∧
      m.history.ingest raw 0 = .error (.tooManyShares 2 1) ∧
      m.step combiner (.recordShares token 1 data 0) = m ∧
      m.step combiner (.ingest raw 0) = m ∧
      ∃ t ∈ m.history.tracked, ∃ message ∈ t.messages, message.entries.length = 1 := by
  let limits : HistoryLimits := ⟨1, 2, 1, none⟩
  let token : ScanToken := ⟨List.replicate 132 '0', by simp [isAscii], List.length_replicate⟩
  let entry : ShareEntry := ⟨token.text⟩
  let sent : Message := ⟨token, 7, 1, [entry, entry], List.cons_ne_nil _ _⟩
  let actions : List MatcherAction := [.recordShares token 2 (ShareEntry.join [entry]) 0]
  let m : Matcher := (fresh limits).run .lagrange actions
  have hread : Message.decodeChars sent.encodeChars = .ok sent :=
    Message.decodeChars_encodeChars (by decide)
  have hfault : History.Refusal 1 (ShareEntry.join [entry, entry]) (.tooManyShares 2 1) := by
    have hascii := ShareEntry.all_isAscii_join [entry, entry]
    refine .tooMany 2 (all_isAscii_iff.1 hascii) ?_ Nat.one_lt_two
    rw [byteLength_of_ascii hascii, ShareEntry.length_join]
    rfl
  have hheld : m.history.tracked.map TrackedToken.messages = [[⟨2, [entry]⟩]] := by
    decide +kernel
  obtain ⟨hdata, hraw, hrun⟩ := admission_exact .lagrange
  obtain ⟨hrefused, -, hkept, -⟩ := hdata m token 1 (ShareEntry.join [entry, entry]) 0
  obtain ⟨-, hcounted, hkept', -⟩ := hraw m sent.encodeChars 0
  have hlimit : m.history.limits.maxSharesPerMessage.toNat = 1 := by decide +kernel
  rw [hlimit] at hrefused hcounted
  have hrecord := (hrefused _).2 hfault
  have hingest := ((hcounted sent hread).2.2 _).2 ⟨Nat.one_lt_two, rfl⟩
  obtain ⟨t, ht, hmessages⟩ : ∃ t ∈ m.history.tracked, t.messages = [⟨2, [entry]⟩] := by
    have hmem : [⟨2, [entry]⟩] ∈ m.history.tracked.map TrackedToken.messages := by
      rw [hheld]
      exact List.mem_singleton.2 rfl
    exact List.mem_map.1 hmem
  have hmember : (⟨2, [entry]⟩ : SenderShares) ∈ t.messages := by
    rw [hmessages]
    exact List.mem_singleton.2 rfl
  obtain ⟨hone, hle, -⟩ := hrun limits actions t ht _ hmember
  exact ⟨.lagrange, m, token, _, _, hrecord, hingest, hkept _ hrecord, hkept' _ hingest, t, ht, _,
    hmember, Nat.le_antisymm hle hone⟩

end Matcher

end LinkCommittee
