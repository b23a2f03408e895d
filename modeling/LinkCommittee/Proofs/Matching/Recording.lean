import LinkCommittee.Matching.Basic
import LinkCommittee.Proofs.Message.ShareData

/-!
# What a matcher records

Share data can be cut into entries in one way only, so what a matcher makes of it is told by
the list of these entries: the list is refused if it is empty or longer than the limits
allow, and is recorded as it stands otherwise (`History.recordShares_join`).  Nothing else of
the history has a say in whether data is taken.
-/

namespace LinkCommittee.History

variable {h : History} {token : ScanToken} {sender : UInt64} {now : Nat}

/-- **Share data is recorded as the list of its entries**, or refused for their number. -/
theorem recordShares_join (h : History) (token : ScanToken) (sender : UInt64)
    (entries : List ShareEntry) (now : Nat) :
    h.recordShares token sender (ShareEntry.join entries) now =
      if entries = [] then .error (.malformed .nothingReceived)
      else if h.limits.maxSharesPerMessage.toNat < entries.length then
        .error (.tooManyShares entries.length h.limits.maxSharesPerMessage.toNat)
      else .ok (h.record token sender entries now) := by
  unfold recordShares
  rw [ShareEntry.split_join]
  rfl

/-- Entries of which there is one and not more than a message may bring are recorded. -/
theorem recordShares_of_entries {entries : List ShareEntry} (hne : entries ≠ [])
    (hle : entries.length ≤ h.limits.maxSharesPerMessage.toNat) :
    h.recordShares token sender (ShareEntry.join entries) now =
      .ok (h.record token sender entries now) := by
  rw [recordShares_join, if_neg hne, if_neg (Nat.not_lt_of_le hle)]

/-- What taking data comes to: it is made of entries, at least one and not more than the limit, and
these are recorded. -/
theorem recordShares_eq_ok_iff {data : List Char} {result : RecordOutcome × History} :
    h.recordShares token sender data now = .ok result ↔
      ∃ entries, ShareEntry.join entries = data ∧ entries ≠ [] ∧
        entries.length ≤ h.limits.maxSharesPerMessage.toNat ∧
        h.record token sender entries now = result := by
  constructor
  · intro hok
    cases hsplit : ShareEntry.split data with
    | error e =>
      rw [recordShares, hsplit] at hok
      contradiction
    | ok entries =>
      have hjoin := ShareEntry.split_eq_ok_iff.1 hsplit
      rw [← hjoin, recordShares_join] at hok
      split at hok
      · contradiction
      next hne =>
        split at hok
        · contradiction
        next hle => exact ⟨entries, hjoin, hne, Nat.le_of_not_lt hle, Except.ok.inj hok⟩
  · intro hentries
    obtain ⟨entries, rfl, hne, hle, rfl⟩ := hentries
    exact recordShares_of_entries hne hle

/-- Data is taken exactly if it is made of entries, at least one and not more than the limit. -/
theorem isOk_recordShares_iff {data : List Char} :
    (h.recordShares token sender data now).isOk = true ↔
      ∃ entries, ShareEntry.join entries = data ∧ entries ≠ [] ∧
        entries.length ≤ h.limits.maxSharesPerMessage.toNat := by
  constructor
  · intro hok
    cases hresult : h.recordShares token sender data now with
    | error e =>
      rw [hresult] at hok
      contradiction
    | ok result =>
      obtain ⟨entries, hjoin, hne, hle, -⟩ := recordShares_eq_ok_iff.1 hresult
      exact ⟨entries, hjoin, hne, hle⟩
  · intro hentries
    obtain ⟨entries, hjoin, hne, hle⟩ := hentries
    rw [recordShares_eq_ok_iff.2 ⟨entries, hjoin, hne, hle, rfl⟩]
    rfl

end LinkCommittee.History
