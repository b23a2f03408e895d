import LinkCommittee.Certificate.Record
import Mathlib.Data.List.Induction

/-!
# Failures of the storage

A storage may stop answering at any read, and the reads of a record depend on what was read
before.  A reader is run against two storages with the same words: one that never fails and one
that fails once a number of reads have succeeded.  Both runs read the same slots for as long as
the second storage answers.  A run that needs more than is left ends with the failure, and what it
has read by then is a prefix of what the other run reads; it never goes on with a part.

This holds of a single read and of programs that do not read, and is kept by putting one program
behind another (`CutShort.bind`), so it holds of every reader that is put together in this way.

Main statement: `CertificateRecord.readUnconfirmed_storage_failure`.
-/

namespace LinkCommittee

/-- The slots that were read, in order. -/
abbrev SlotReads := List (Account × Word)

/-- A program that reads words, over what was read before it. -/
abbrev Reading (α : Type) := ExceptT RecordError (StateM SlotReads) α

/-- A storage that never fails. -/
def faithful (storage : Account → Word → Word) : StorageReader (StateM SlotReads) :=
  fun contract slot => ExceptT.mk fun reads =>
    (.ok (storage contract slot), reads ++ [(contract, slot)])

/-- The same storage, if it fails every read once `budget` reads have succeeded. -/
def failingAfter (budget : Nat) (failure : StorageError) (storage : Account → Word → Word) :
    StorageReader (StateM SlotReads) :=
  fun contract slot => ExceptT.mk fun reads =>
    if reads.length < budget then (.ok (storage contract slot), reads ++ [(contract, slot)])
    else (.error failure, reads)

namespace Reading

variable {α β : Type} {x : Reading α} {f : α → Reading β} {reads reads' : SlotReads}

/-- Behind a program that comes to a result the next one runs on what was read. -/
theorem run_bind_of_ok {a : α} (h : x.run reads = (.ok a, reads')) :
    (x >>= f).run reads = (f a).run reads' := by
  show ExceptT.bindCont f (x.run reads).1 (x.run reads).2 = _
  rw [h]
  rfl

/-- Behind a program that fails nothing runs. -/
theorem run_bind_of_error {e : RecordError} (h : x.run reads = (.error e, reads')) :
    (x >>= f).run reads = (.error e, reads') := by
  show ExceptT.bindCont f (x.run reads).1 (x.run reads).2 = _
  rw [h]
  rfl

end Reading

/-- What a program does where no read fails, and where reads fail once `budget` have succeeded.
Without failure it reads `needed`, whatever was read before, and ends with `answer`.  If so many
reads are left, failures change nothing; otherwise it reads what is left and fails. -/
structure Answers (budget : Nat) (failure : StorageError) {α : Type} (full limited : Reading α)
    (answer : Except RecordError α) (needed : SlotReads) : Prop where
  run_full : ∀ reads, full.run reads = (answer, reads ++ needed)
  run_within : ∀ reads, reads.length + needed.length ≤ budget →
    limited.run reads = (answer, reads ++ needed)
  run_beyond : ∀ reads, reads.length ≤ budget → budget < reads.length + needed.length →
    limited.run reads = (.error (.ledgerUnavailable failure),
      reads ++ needed.take (budget - reads.length))

/-- A failing storage cuts the run of a program short, and does nothing else to it. -/
def CutShort (budget : Nat) (failure : StorageError) {α : Type} (full limited : Reading α) :
    Prop :=
  ∃ answer needed, Answers budget failure full limited answer needed

section

variable {budget : Nat} {failure : StorageError} {α β : Type}

/-- A program that reads nothing does the same with every storage. -/
theorem cutShort_of_run {x : Reading α} {result : Except RecordError α}
    (h : ∀ reads, x.run reads = (result, reads)) : CutShort budget failure x x := by
  refine ⟨result, [], ?_, ?_, ?_⟩
  · intro reads
    rw [List.append_nil]
    exact h reads
  · intro reads _
    rw [List.append_nil]
    exact h reads
  · intro reads hle hlt
    exact absurd hle (Nat.not_le_of_lt hlt)

/-- A result that is at hand is not cut short. -/
theorem cutShort_pure (a : α) : CutShort budget failure (pure a) (pure a) :=
  cutShort_of_run fun _ => rfl

/-- A failure that calls for no reads is the same in both runs. -/
theorem cutShort_throw (e : RecordError) :
    CutShort budget failure (throw e : Reading α) (throw e) := cutShort_of_run fun _ => rfl

/-- Behind a program that answers there is another. -/
theorem Answers.bind_ok {full limited : Reading α} {f g : α → Reading β} {a : α}
    {needed needed' : SlotReads} {answer : Except RecordError β}
    (h : Answers budget failure full limited (.ok a) needed)
    (h' : Answers budget failure (f a) (g a) answer needed') :
    Answers budget failure (full >>= f) (limited >>= g) answer (needed ++ needed') where
  run_full reads := by
    rw [Reading.run_bind_of_ok (h.run_full reads), h'.run_full, List.append_assoc]
  run_within reads hfits := by
    rw [List.length_append] at hfits
    have hrest : (reads ++ needed).length + needed'.length ≤ budget := by
      rw [List.length_append]
      omega
    rw [Reading.run_bind_of_ok (h.run_within reads (by omega)), h'.run_within _ hrest,
      List.append_assoc]
  run_beyond reads hle hshort := by
    rw [List.length_append] at hshort
    by_cases hfits : reads.length + needed.length ≤ budget
    · -- the first program answers, and the second is cut short
      have hrest : (reads ++ needed).length ≤ budget := by
        rwa [List.length_append]
      have hbeyond := h'.run_beyond _ hrest (by rw [List.length_append]; omega)
      have htake : (needed ++ needed').take (budget - reads.length) =
          needed ++ needed'.take (budget - (reads ++ needed).length) := by
        rw [List.take_append, List.take_of_length_le (by omega), List.length_append, Nat.sub_sub]
      rw [Reading.run_bind_of_ok (h.run_within reads hfits), hbeyond, htake, List.append_assoc]
    · -- the first program is cut short, and nothing is read behind it
      have hbeyond := h.run_beyond reads hle (Nat.lt_of_not_le hfits)
      rw [Reading.run_bind_of_error hbeyond, List.take_append_of_le_length (by omega)]

/-- Behind a program that fails nothing is read. -/
theorem Answers.bind_error {full limited : Reading α} {f g : α → Reading β} {e : RecordError}
    {needed : SlotReads} (h : Answers budget failure full limited (.error e) needed) :
    Answers budget failure (full >>= f) (limited >>= g) (.error e) needed where
  run_full reads := Reading.run_bind_of_error (h.run_full reads)
  run_within reads hfits := Reading.run_bind_of_error (h.run_within reads hfits)
  run_beyond reads hle hshort := Reading.run_bind_of_error (h.run_beyond reads hle hshort)

/-- No more is read than the storage answers. -/
theorem CutShort.length_reads_le {full limited : Reading α} {reads : SlotReads}
    (h : CutShort budget failure full limited) (hle : reads.length ≤ budget) :
    (limited.run reads).2.length ≤ budget := by
  obtain ⟨answer, needed, hanswers⟩ := h
  by_cases hfits : reads.length + needed.length ≤ budget
  · rw [hanswers.run_within reads hfits, List.length_append]
    exact hfits
  · rw [hanswers.run_beyond reads hle (Nat.lt_of_not_le hfits), List.length_append,
      List.length_take]
    omega

/-- **One program behind another** is cut short as both are.  If the first runs to its end, the
second has what is left of the budget; if it is cut short, the second does not run. -/
theorem CutShort.bind {full limited : Reading α} {f g : α → Reading β}
    (h : CutShort budget failure full limited) (h' : ∀ a, CutShort budget failure (f a) (g a)) :
    CutShort budget failure (full >>= f) (limited >>= g) := by
  obtain ⟨answer, needed, hanswers⟩ := h
  cases answer with
  | error e => exact ⟨.error e, needed, hanswers.bind_error⟩
  | ok a =>
    obtain ⟨answer, needed', hanswers'⟩ := h' a
    exact ⟨answer, needed ++ needed', hanswers.bind_ok hanswers'⟩

end

namespace CertificateRecord

variable {budget : Nat} {failure : StorageError} {storage : Account → Word → Word}
  {settings : LedgerSettings}

/-- A word is read by one read of the storage, whose failure is that of the ledger. -/
theorem run_readWord (read : StorageReader (StateM SlotReads)) (slot : Word)
    (reads : SlotReads) :
    (readWord read settings slot).run reads =
      (((read settings.contract slot).run reads).1.mapError .ledgerUnavailable,
        ((read settings.contract slot).run reads).2) := rfl

/-- **A single read** succeeds, or fails if none is left. -/
theorem cutShort_readWord (slot : Word) :
    CutShort budget failure (readWord (faithful storage) settings slot)
      (readWord (failingAfter budget failure storage) settings slot) := by
  refine ⟨.ok (storage settings.contract slot), [(settings.contract, slot)], ?_, ?_, ?_⟩
  · intro reads
    rfl
  · intro reads hfits
    have hanswer : (failingAfter budget failure storage settings.contract slot).run reads =
        (.ok (storage settings.contract slot), reads ++ [(settings.contract, slot)]) :=
      if_pos hfits
    rw [run_readWord, hanswer]
    rfl
  · intro reads hle hshort
    have hfail : (failingAfter budget failure storage settings.contract slot).run reads =
        (.error failure, reads) := if_neg (Nat.not_lt_of_le (Nat.le_of_lt_succ hshort))
    have hnone : budget - reads.length = 0 := Nat.sub_eq_zero_of_le (Nat.le_of_lt_succ hshort)
    rw [run_readWord, hfail, hnone, List.take_zero, List.append_nil]
    rfl

/-- A count calls for no reads. -/
theorem cutShort_readCount (defect : RecordDefect) (word : Word) :
    CutShort budget failure (readCount defect word) (readCount defect word) := by
  unfold readCount
  split
  · exact cutShort_pure _
  · exact cutShort_throw _

/-- The bytes of some words are read until the storage fails. -/
theorem cutShort_readBytes (count : Nat) (slot : Word) :
    CutShort budget failure (readBytes (faithful storage) settings count slot)
      (readBytes (failingAfter budget failure storage) settings count slot) := by
  induction count generalizing slot with
  | zero => exact cutShort_pure _
  | succ count ih =>
    apply (cutShort_readWord slot).bind
    intro word
    apply (ih (slot.advance 1)).bind
    intro bytes
    exact cutShort_pure _

/-- A text is read until the storage fails. -/
theorem cutShort_readText (field : Word) :
    CutShort budget failure (readText (faithful storage) settings field)
      (readText (failingAfter budget failure storage) settings field) := by
  unfold readText
  apply (cutShort_readWord field).bind
  intro word
  apply (cutShort_readCount .lengthRange word).bind
  intro length
  dsimp only
  have hdata : CutShort budget failure
      (readBytes (faithful storage) settings ((length / 64).toNat + 1) (textSlot field))
      (readBytes (failingAfter budget failure storage) settings ((length / 64).toNat + 1)
        (textSlot field)) := cutShort_readBytes _ _
  split
  -- a refusal stands in front of the same words
  case' isTrue =>
    apply (cutShort_throw _).bind
    intro _
  all_goals
    apply hdata.bind
    intro bytes
    split
    · exact cutShort_pure _
    · exact cutShort_throw _

/-- A certificate is read until the storage fails. -/
theorem cutShort_readCertificate (key : Word) (count : UInt64) :
    CutShort budget failure (readCertificate (faithful storage) settings key count)
      (readCertificate (failingAfter budget failure storage) settings key count) := by
  unfold readCertificate
  apply (cutShort_readWord _).bind
  intro word
  apply (cutShort_readText _).bind
  intro signature
  apply (cutShort_readText _).bind
  intro publicKey
  exact cutShort_pure _

/-- **A failing storage cuts the reading of a record short.**  It is made of reads of single words
and of steps that read nothing. -/
theorem cutShort_readUnconfirmed (index check : UInt64) :
    CutShort budget failure (readUnconfirmed (faithful storage) settings index check)
      (readUnconfirmed (failingAfter budget failure storage) settings index check) := by
  unfold readUnconfirmed
  apply (cutShort_readWord _).bind
  intro word
  apply (cutShort_readCount .countRange word).bind
  intro count
  split
  · exact cutShort_pure _
  · apply (cutShort_readCertificate word count).bind
    intro certificate
    exact cutShort_pure _

/-- What has been read after some calls, each with the index and the number to check. -/
def readsAfter (read : StorageReader (StateM SlotReads)) (settings : LedgerSettings)
    (calls : List (UInt64 × UInt64)) : SlotReads :=
  calls.foldl (fun reads call => ((readUnconfirmed read settings call.1 call.2).run reads).2) []

/-- A storage that fails after so many reads answers no more than these, in all calls together. -/
theorem length_readsAfter_le (calls : List (UInt64 × UInt64)) :
    (readsAfter (failingAfter budget failure storage) settings calls).length ≤ budget := by
  induction calls using List.reverseRecOn with
  | nil => exact Nat.zero_le budget
  | append_singleton calls call ih =>
    rw [readsAfter, List.foldl_append]
    exact (cutShort_readUnconfirmed call.1 call.2).length_reads_le ih

/-- **A failure of the storage aborts the whole read.**  After any calls on a storage that fails
once `budget` reads have succeeded, reading a record gives what it gives where no read fails, if as
many reads are left as that takes.  Otherwise it reads what is left and reports the failure.  Either
way the slots it reads come first among those that are read where no read fails. -/
theorem readUnconfirmed_storage_failure (storage : Account → Word → Word)
    (settings : LedgerSettings) (budget : Nat) (failure : StorageError)
    (calls : List (UInt64 × UInt64)) (index check : UInt64) :
    let limited := failingAfter budget failure storage
    let used := readsAfter limited settings calls
    let left := budget - used.length
    let whole := (readUnconfirmed (faithful storage) settings index check).run []
    let cut := (readUnconfirmed limited settings index check).run used
    used.length ≤ budget ∧
      cut = (if whole.2.length ≤ left then (whole.1, used ++ whole.2)
        else (.error (.ledgerUnavailable failure), used ++ whole.2.take left)) ∧
      ∃ read, cut.2 = used ++ read ∧ read <+: whole.2 := by
  intro limited used left whole cut
  have hused : used.length ≤ budget := length_readsAfter_le calls
  have hshort : CutShort budget failure
      (readUnconfirmed (faithful storage) settings index check)
      (readUnconfirmed limited settings index check) := cutShort_readUnconfirmed index check
  obtain ⟨answer, needed, hanswers⟩ := hshort
  have hwhole : whole = (answer, needed) := hanswers.run_full []
  by_cases hfits : needed.length ≤ left
  · have hcut : cut = (answer, used ++ needed) := hanswers.run_within used (by omega)
    rw [hwhole, hcut]
    exact ⟨hused, (if_pos hfits).symm, needed, rfl, List.prefix_rfl⟩
  · have hcut : cut = (.error (.ledgerUnavailable failure), used ++ needed.take left) :=
      hanswers.run_beyond used hused (by omega)
    rw [hwhole, hcut]
    exact ⟨hused, (if_neg hfits).symm, _, rfl, List.take_prefix _ _⟩

end CertificateRecord

end LinkCommittee
