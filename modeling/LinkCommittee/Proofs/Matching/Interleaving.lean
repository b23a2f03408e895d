import LinkCommittee.Matching.Basic
import LinkCommittee.Proofs.History.Steps
import LinkCommittee.Proofs.Matching.Recording
import LinkCommittee.Proofs.Matching.Search
import Mathlib.Algebra.Group.Nat.Defs

/-!
# Matching under interleaving

Clients share one history.  Trying a match takes two steps on it, and between them the
token may be confirmed, dropped for room, pruned and tracked anew, and other attempts
may begin and conclude.  What carries safety through all of this is that a generation
is never given twice: as long as a token is tracked in the generation of an attempt,
it still holds every message that the attempt searches (`Matcher.Sound`).

Main statement: `Matcher.matched_sound`, a token that is tracked as matched holds the
two messages that match a candidate some client asked about, and it stays matched
until it is dropped.
-/

namespace LinkCommittee

/-- A step of a client.  Trying a match begins in one step and concludes in another. -/
inductive MatcherAction where
  | recordShares (token : ScanToken) (sender : UInt64) (data : List Char) (now : Nat)
  | ingest (raw : List Char) (now : Nat)
  | confirm (token : ScanToken)
  | prune (now : Nat)
  | begin (token : ScanToken) (candidate : AbAddress)
  | conclude (place : Nat)

/-- The history that clients share, the attempts that have begun and not yet concluded, what was
asked so far, and how often the tracking of a token began. -/
structure Matcher where
  history : History
  attempts : List Attempt
  calls : List (ScanToken × AbAddress)
  starts : Nat

namespace Matcher

/-- No token is tracked and nothing was asked. -/
def fresh (limits : HistoryLimits) : Matcher := ⟨.empty limits, [], [], 0⟩

/-- Some token is tracked in the second history that is not tracked in the first. -/
def startsTracking (h h' : History) : Bool := h'.tracked.any fun t => (h.find? t.token).isNone

/-- The history after a step. -/
def historyAfter (combiner : Combiner) (m : Matcher) : MatcherAction → History
  | .recordShares token sender data now =>
    match m.history.recordShares token sender data now with
    | .error _ => m.history
    | .ok (_, h) => h
  | .ingest raw now =>
    match m.history.ingest raw now with
    | .error _ => m.history
    | .ok (_, h) => h
  | .confirm token => (m.history.evict token).2
  | .prune now => (m.history.prune now).2
  | .begin _ _ => m.history
  | .conclude place =>
    match m.attempts[place]? with
    | none => m.history
    | some attempt => m.history.conclude attempt (attempt.search combiner)

/-- The attempts in flight after a step. -/
def attemptsAfter (m : Matcher) : MatcherAction → List Attempt
  | .begin token candidate => m.attempts ++ (m.history.begin? token candidate).toList
  | .conclude place => m.attempts.eraseIdx place
  | _ => m.attempts

/-- What was asked up to and including a step. -/
def callsAfter (m : Matcher) : MatcherAction → List (ScanToken × AbAddress)
  | .begin token candidate => (token, candidate) :: m.calls
  | _ => m.calls

/-- One step of one client. -/
def step (combiner : Combiner) (m : Matcher) (action : MatcherAction) : Matcher where
  history := m.historyAfter combiner action
  attempts := m.attemptsAfter action
  calls := m.callsAfter action
  starts := m.starts + if startsTracking m.history (m.historyAfter combiner action) then 1 else 0

/-- The steps of all clients, in the order in which they happen. -/
def run (combiner : Combiner) (m : Matcher) (actions : List MatcherAction) : Matcher :=
  actions.foldl (step combiner) m

/-! ### What a step does to the history -/

/-- All that a step does to the history. -/
inductive Changes (combiner : Combiner) (m : Matcher) : History → Prop
  | keep : Changes combiner m m.history
  | record (token : ScanToken) (sender : UInt64) (entries : List ShareEntry) (now : Nat) :
      Changes combiner m (m.history.record token sender entries now).2
  | confirm (token : ScanToken) : Changes combiner m (m.history.evict token).2
  | prune (now : Nat) : Changes combiner m (m.history.prune now).2
  | mark (attempt : Attempt) (inFlight : attempt ∈ m.attempts)
      (found : (attempt.search combiner).matched = true) :
      Changes combiner m (m.history.markMatched attempt.token attempt.generation).2

theorem changes_step (combiner : Combiner) (m : Matcher) (action : MatcherAction) :
    Changes combiner m (m.step combiner action).history := by
  show Changes combiner m (m.historyAfter combiner action)
  cases action with
  | recordShares token sender data now =>
    simp only [historyAfter]
    split
    · exact .keep
    next outcome h hrecord =>
      obtain ⟨entries, -, -, -, hresult⟩ := History.recordShares_eq_ok_iff.1 hrecord
      obtain rfl : (m.history.record token sender entries now).2 = h := congrArg Prod.snd hresult
      exact .record token sender entries now
  | ingest raw now =>
    simp only [historyAfter]
    split
    · exact .keep
    next outcome h hingest =>
      obtain ⟨message, -, hrecord⟩ := Except.bind_eq_ok_iff.1 hingest
      obtain ⟨entries, -, -, -, hresult⟩ := History.recordShares_eq_ok_iff.1 hrecord
      obtain rfl : (m.history.record message.token message.sender entries now).2 = h :=
        congrArg Prod.snd hresult
      exact .record message.token message.sender entries now
  | confirm token => exact .confirm token
  | prune now => exact .prune now
  | begin token candidate => exact .keep
  | conclude place =>
    simp only [historyAfter]
    split
    · exact .keep
    next attempt hattempt =>
      unfold History.conclude
      split
      next hfound => exact .mark attempt (List.mem_of_getElem? hattempt) hfound
      · exact .keep

section Changes

variable {combiner : Combiner} {m : Matcher} {h' : History}

/-- Where a tracked token comes from: it was tracked before, and if it is newly matched then by an
attempt in its generation; or its tracking begins and takes the next generation. -/
theorem Changes.origin (hchange : Changes combiner m h') (hw : m.history.WellFormed)
    {t' : TrackedToken} (ht' : t' ∈ h'.tracked) :
    (∃ t ∈ m.history.tracked, t.Becomes t' ∧ (t'.state = t.state ∨
      ∃ attempt ∈ m.attempts, (attempt.search combiner).matched = true ∧
        t.token = attempt.token ∧ t.generation = attempt.generation)) ∨
    (m.history.find? t'.token = none ∧ t'.generation = m.history.nextGeneration ∧
      t'.state = .pending) := by
  cases hchange with
  | keep => exact .inl ⟨t', ht', .refl t', .inl rfl⟩
  | record token sender entries now =>
    rcases History.exists_becomes_of_mem_record ht' with ⟨t, ht, hbecomes, hstate⟩ | hstart
    · exact .inl ⟨t, ht, hbecomes, .inl hstate⟩
    · obtain ⟨hnone, rfl, hgeneration, hstate⟩ := hstart
      exact .inr ⟨hnone, hgeneration, hstate⟩
  | confirm token =>
    have ht := (History.evict_sublist m.history token).subset ht'
    exact .inl ⟨t', ht, .refl t', .inl rfl⟩
  | prune now =>
    have ht := (History.prune_sublist m.history now).subset ht'
    exact .inl ⟨t', ht, .refl t', .inl rfl⟩
  | mark attempt hattempt hfound =>
    obtain ⟨t, ht, hmarked⟩ := History.mem_tracked_markMatched hw ht'
    rcases hmarked with rfl | ⟨htoken, hgeneration, rfl⟩
    · exact .inl ⟨t', ht, .refl t', .inl rfl⟩
    · exact .inl ⟨t, ht, t.becomes_matched, .inr ⟨attempt, hattempt, hfound, htoken, hgeneration⟩⟩

/-- What a step does to a history keeps it well formed. -/
theorem Changes.wellFormed (hchange : Changes combiner m h') (hw : m.history.WellFormed) :
    h'.WellFormed := by
  cases hchange with
  | keep => exact hw
  | record token sender entries now => exact hw.record
  | confirm token => exact hw.sublist (History.evict_sublist _ _)
  | prune now => exact hw.sublist (History.prune_sublist _ _)
  | mark attempt hattempt hfound => exact hw.markMatched _ _

theorem startsTracking_eq_false {h h' : History}
    (hsub : h'.tracked.map TrackedToken.token ⊆ h.tracked.map TrackedToken.token) :
    startsTracking h h' = false := by
  rw [startsTracking, List.any_eq_false]
  intro t ht hnone
  have hmem := hsub (List.mem_map_of_mem ht)
  rw [← History.isSome_find?_iff] at hmem
  rw [Option.isNone_iff_eq_none.1 hnone] at hmem
  contradiction

/-- A change that tracks no new token leaves the next generation as it is. -/
theorem nextGeneration_of_subset {h h' : History}
    (hsub : h'.tracked.map TrackedToken.token ⊆ h.tracked.map TrackedToken.token)
    (hnext : h'.nextGeneration = h.nextGeneration) :
    h'.nextGeneration = h.nextGeneration + if startsTracking h h' then 1 else 0 := by
  rw [startsTracking_eq_false hsub, hnext]
  exact (UInt64.add_zero _).symm

/-- The next generation moves on exactly when the tracking of a token begins. -/
theorem Changes.nextGeneration (hchange : Changes combiner m h') :
    h'.nextGeneration =
      m.history.nextGeneration + if startsTracking m.history h' then 1 else 0 := by
  cases hchange with
  | keep => exact nextGeneration_of_subset (List.Subset.refl _) rfl
  | record token sender entries now =>
    have hnext := History.nextGeneration_record m.history token sender entries now
    by_cases hfound : (m.history.find? token).isSome = true
    · rw [if_pos hfound] at hnext
      apply nextGeneration_of_subset _ hnext
      rw [History.map_token_record, History.ensure, if_pos hfound]
      exact List.Subset.refl _
    · rw [if_neg hfound] at hnext
      have hrecorded := History.find?_record m.history token sender entries now
      have hstart : startsTracking m.history
          (m.history.record token sender entries now).2 = true := by
        obtain ⟨t, ht⟩ := Option.isSome_iff_exists.1 hrecorded
        obtain ⟨hmem, rfl⟩ := History.mem_of_find? ht
        rw [startsTracking, List.any_eq_true]
        exact ⟨t, hmem, Option.isNone_iff_eq_none.2 (Option.not_isSome_iff_eq_none.1 hfound)⟩
      rw [hnext, hstart, if_pos rfl]
  | confirm token =>
    have hsub := (History.evict_sublist m.history token).map TrackedToken.token
    exact nextGeneration_of_subset hsub.subset (History.nextGeneration_evict _ _)
  | prune now =>
    have hsub := (History.prune_sublist m.history now).map TrackedToken.token
    exact nextGeneration_of_subset hsub.subset (History.nextGeneration_prune _ _)
  | mark attempt hattempt hfound =>
    apply nextGeneration_of_subset _ (History.nextGeneration_markMatched _ _ _)
    rw [History.map_tracked_markMatched _ fun _ => rfl]
    exact List.Subset.refl _

end Changes

/-! ### The invariant -/

/-- Some client asked about a candidate with these two keys. -/
def Asked (calls : List (ScanToken × AbAddress)) (token : ScanToken)
    (identity auxiliary : PublicKey) : Prop :=
  ∃ candidate, (token, candidate) ∈ calls ∧ candidate.decompress = .ok (identity, auxiliary)

/-- The messages held for a token contain two of different senders with entries that match a
candidate some client asked about. -/
def Justified (combiner : Combiner) (calls : List (ScanToken × AbAddress)) (t : TrackedToken) :
    Prop :=
  ∃ first ∈ t.messages, ∃ second ∈ t.messages, first.sender ≠ second.sender ∧
    ∃ x ∈ first.entries, ∃ y ∈ second.entries, ∃ identity auxiliary,
      Asked calls t.token identity auxiliary ∧ combiner.Matches identity auxiliary x y

/-- Every generation was given once, attempts search what is still held for their generation, and
every match is justified. -/
structure Sound (combiner : Combiner) (m : Matcher) : Prop where
  wellFormed : m.history.WellFormed
  nextGeneration : m.history.nextGeneration.toNat = m.starts
  tracked_lt : ∀ t ∈ m.history.tracked, t.generation.toNat < m.starts
  attempt_lt : ∀ attempt ∈ m.attempts, attempt.generation.toNat < m.starts
  attempt_held : ∀ attempt ∈ m.attempts, ∀ t ∈ m.history.tracked, t.token = attempt.token →
    t.generation = attempt.generation → attempt.messages <+: t.messages
  attempt_asked : ∀ attempt ∈ m.attempts,
    Asked m.calls attempt.token attempt.identity attempt.auxiliary
  justified : ∀ t ∈ m.history.tracked, t.state = .matched → Justified combiner m.calls t

/-- A matcher starts out sound: no token is tracked and no attempt is in flight. -/
theorem sound_fresh (combiner : Combiner) (limits : HistoryLimits) :
    Sound combiner (fresh limits) where
  wellFormed := History.wellFormed_empty limits
  nextGeneration := rfl
  tracked_lt := fun _ ht => nomatch ht
  attempt_lt := fun _ hattempt => nomatch hattempt
  attempt_held := fun _ hattempt => nomatch hattempt
  attempt_asked := fun _ hattempt => nomatch hattempt
  justified := fun _ ht => nomatch ht

theorem Asked.mono {calls calls' : List (ScanToken × AbAddress)} (hsub : calls ⊆ calls')
    {token : ScanToken} {identity auxiliary : PublicKey}
    (h : Asked calls token identity auxiliary) : Asked calls' token identity auxiliary := by
  obtain ⟨candidate, hcall, hkeys⟩ := h
  exact ⟨candidate, hsub hcall, hkeys⟩

/-- A justified match stays justified while messages and questions are added. -/
theorem Justified.mono {combiner : Combiner} {calls calls' : List (ScanToken × AbAddress)}
    (hsub : calls ⊆ calls') {t t' : TrackedToken} (hbecomes : t.Becomes t')
    (h : Justified combiner calls t) : Justified combiner calls' t' := by
  obtain ⟨first, hfirst, second, hsecond, hne, x, hx, y, hy, identity, auxiliary, hasked,
    hmatch⟩ := h
  have hmessages := hbecomes.messages.subset
  have hasked' := hasked.mono hsub
  rw [← hbecomes.token] at hasked'
  exact ⟨first, hmessages hfirst, second, hmessages hsecond, hne, x, hx, y, hy, identity,
    auxiliary, hasked', hmatch⟩

section Step

variable {combiner : Combiner} {m : Matcher} {action : MatcherAction}

theorem calls_subset_step (combiner : Combiner) (m : Matcher) (action : MatcherAction) :
    m.calls ⊆ (m.step combiner action).calls := by
  show m.calls ⊆ m.callsAfter action
  cases action with
  | begin token candidate => exact List.subset_cons_self _ _
  | _ => exact List.Subset.refl _

theorem starts_le_step (combiner : Combiner) (m : Matcher) (action : MatcherAction) :
    m.starts ≤ (m.step combiner action).starts := Nat.le_add_right _ _

/-- An attempt in flight after a step was in flight before it, or begins with it. -/
theorem attempt_of_step {attempt : Attempt}
    (hattempt : attempt ∈ (m.step combiner action).attempts) :
    attempt ∈ m.attempts ∨ ∃ candidate, action = .begin attempt.token candidate ∧
      m.history.begin? attempt.token candidate = some attempt := by
  have hafter : attempt ∈ m.attemptsAfter action := hattempt
  cases action with
  | begin token candidate =>
    rcases List.mem_append.1 hafter with hold | hnew
    · exact .inl hold
    · have hbegin := Option.mem_toList.1 hnew
      obtain ⟨rfl, -⟩ := History.begin?_eq_some_iff.1 hbegin
      exact .inr ⟨candidate, rfl, hbegin⟩
  | conclude place => exact .inl ((List.eraseIdx_sublist _ _).subset hafter)
  | recordShares => exact .inl hafter
  | ingest => exact .inl hafter
  | confirm => exact .inl hafter
  | prune => exact .inl hafter

/-- What a found match proves about a token that is still tracked in its generation. -/
theorem Sound.justified_of_attempt (hs : Sound combiner m) {attempt : Attempt}
    (hattempt : attempt ∈ m.attempts) (hfound : (attempt.search combiner).matched = true)
    {t : TrackedToken} (ht : t ∈ m.history.tracked) (htoken : t.token = attempt.token)
    (hgeneration : t.generation = attempt.generation) : Justified combiner m.calls t := by
  obtain ⟨x, y, hoffer, hmatch⟩ := Combiner.search_matched_iff.1 hfound
  obtain ⟨first, second, hpair, hx, hy⟩ := mem_combinations_iff.1 hoffer
  have hheld := hs.attempt_held attempt hattempt t ht htoken hgeneration
  have hsublist : List.Sublist [first, second] t.messages :=
    (mem_pairs_iff.1 hpair).trans hheld.sublist
  have hfirst : first ∈ t.messages := hsublist.subset List.mem_cons_self
  have hsecond : second ∈ t.messages :=
    hsublist.subset (List.mem_cons_of_mem _ List.mem_cons_self)
  have hsenders : first.sender ≠ second.sender :=
    ne_of_mem_pairs (hs.wellFormed.counted t ht).nodup (mem_pairs_iff.2 hsublist)
  have hasked := hs.attempt_asked attempt hattempt
  rw [← htoken] at hasked
  exact ⟨first, hfirst, second, hsecond, hsenders, x, hx, y, hy, _, _, hasked, hmatch⟩

/-- A token that is tracked after a step and was not before has begun to be tracked. -/
theorem starts_step_of_find?_eq_none {t' : TrackedToken}
    (ht' : t' ∈ (m.step combiner action).history.tracked)
    (hnone : m.history.find? t'.token = none) :
    (m.step combiner action).starts = m.starts + 1 := by
  have hstart : startsTracking m.history (m.historyAfter combiner action) = true := by
    rw [startsTracking, List.any_eq_true]
    exact ⟨t', ht', Option.isNone_iff_eq_none.2 hnone⟩
  show m.starts + _ = _
  rw [hstart, if_pos rfl]

/-- A new attempt searches the messages that are tracked when it begins. -/
theorem Sound.held_of_begin (hs : Sound combiner m) {attempt : Attempt} {candidate : AbAddress}
    (hbegin : m.history.begin? attempt.token candidate = some attempt) {t : TrackedToken}
    (ht : t ∈ m.history.tracked) (htoken : t.token = attempt.token) :
    attempt.messages <+: t.messages := by
  obtain ⟨-, -, -, found, hfound, -, hmessages⟩ := History.begin?_eq_some_iff.1 hbegin
  have hsame : found = t :=
    Option.some.inj (hfound.symm.trans ((History.find?_eq_some_iff hs.wellFormed).2 ⟨ht, htoken⟩))
  have hequal : attempt.messages = t.messages :=
    hmessages.trans (congrArg TrackedToken.messages hsame)
  exact hequal ▸ List.prefix_rfl

/-- Attempts in flight after a step search what is held for their generation before it. -/
theorem Sound.attempt_of_step (hs : Sound combiner m) {attempt : Attempt}
    (hattempt : attempt ∈ (m.step combiner action).attempts) :
    attempt.generation.toNat < m.starts ∧
      (∀ t ∈ m.history.tracked, t.token = attempt.token → t.generation = attempt.generation →
        attempt.messages <+: t.messages) ∧
      Asked (m.step combiner action).calls attempt.token attempt.identity attempt.auxiliary := by
  rcases Matcher.attempt_of_step hattempt with hold | ⟨candidate, rfl, hbegin⟩
  · have hasked := (hs.attempt_asked attempt hold).mono (calls_subset_step combiner m action)
    exact ⟨hs.attempt_lt attempt hold, hs.attempt_held attempt hold, hasked⟩
  · obtain ⟨-, hkeys, -, t, ht, hgeneration, -⟩ := History.begin?_eq_some_iff.1 hbegin
    have hlt := hs.tracked_lt t (History.mem_of_find? ht).1
    rw [← hgeneration] at hlt
    have hasked : Asked ((attempt.token, candidate) :: m.calls) attempt.token attempt.identity
        attempt.auxiliary := ⟨candidate, List.mem_cons_self, hkeys⟩
    exact ⟨hlt, fun t ht htoken _ => hs.held_of_begin hbegin ht htoken, hasked⟩

/-- The next generation counts the starts of tracking, as long as it does not wrap around. -/
theorem Sound.nextGeneration_step (hs : Sound combiner m)
    (hbound : (m.step combiner action).starts < UInt64.size) :
    (m.step combiner action).history.nextGeneration.toNat = (m.step combiner action).starts := by
  have hstarts : (m.step combiner action).starts = m.starts +
      if startsTracking m.history (m.step combiner action).history then 1 else 0 := rfl
  rw [(changes_step combiner m action).nextGeneration, hstarts]
  rw [hstarts] at hbound
  by_cases hstart : startsTracking m.history (m.step combiner action).history = true
  · rw [if_pos hstart] at hbound
    rw [if_pos hstart, if_pos hstart, UInt64.toNat_add, hs.nextGeneration]
    exact Nat.mod_eq_of_lt hbound
  · rw [if_neg hstart, if_neg hstart, UInt64.add_zero, hs.nextGeneration, Nat.add_zero]

/-- A token tracked after a step goes on from before, with a justified match if it is matched, or
its generation is the number of starts before the step. -/
theorem Sound.origin_step (hs : Sound combiner m) {t' : TrackedToken}
    (ht' : t' ∈ (m.step combiner action).history.tracked) :
    (∃ t ∈ m.history.tracked, t.Becomes t' ∧
      (t'.state = .matched → Justified combiner m.calls t)) ∨
    (t'.generation.toNat = m.starts ∧ (m.step combiner action).starts = m.starts + 1 ∧
      t'.state = .pending) := by
  rcases (changes_step combiner m action).origin hs.wellFormed ht' with
    ⟨t, ht, hbecomes, hcause⟩ | ⟨hnone, hgeneration, hpending⟩
  · refine .inl ⟨t, ht, hbecomes, ?_⟩
    intro hmatched
    rcases hcause with hstate | ⟨attempt, hattempt, hfound, htoken, hgeneration⟩
    · exact hs.justified t ht (hstate.symm.trans hmatched)
    · exact hs.justified_of_attempt hattempt hfound ht htoken hgeneration
  · have hvalue : t'.generation.toNat = m.starts := by rw [hgeneration, hs.nextGeneration]
    exact .inr ⟨hvalue, starts_step_of_find?_eq_none ht' hnone, hpending⟩

/-- **One step keeps the invariant**, as long as the generations do not run out.  What a step does
to the history is one call, and it adds an attempt, ends one or leaves all as they are. -/
theorem Sound.step (hs : Sound combiner m)
    (hbound : (m.step combiner action).starts < UInt64.size) :
    Sound combiner (m.step combiner action) := by
  have hmono := starts_le_step combiner m action
  constructor
  · exact (changes_step combiner m action).wellFormed hs.wellFormed
  · exact hs.nextGeneration_step hbound
  · intro t' ht'
    rcases hs.origin_step ht' with ⟨t, ht, hbecomes, -⟩ | ⟨hvalue, hstart, -⟩
    · have hlt := hs.tracked_lt t ht
      rw [hbecomes.generation]
      omega
    · omega
  · intro attempt hattempt
    have hlt := (hs.attempt_of_step hattempt).1
    omega
  · intro attempt hattempt t' ht' htoken hgeneration
    obtain ⟨hlt, hheld, -⟩ := hs.attempt_of_step hattempt
    rcases hs.origin_step ht' with ⟨t, ht, hbecomes, -⟩ | ⟨hvalue, -, -⟩
    · rw [hbecomes.token] at htoken
      rw [hbecomes.generation] at hgeneration
      exact (hheld t ht htoken hgeneration).trans hbecomes.messages
    · rw [hgeneration] at hvalue
      omega
  · intro attempt hattempt
    exact (hs.attempt_of_step hattempt).2.2
  · intro t' ht' hmatched
    rcases hs.origin_step ht' with ⟨t, ht, hbecomes, hjustified⟩ | ⟨-, -, hpending⟩
    · exact (hjustified hmatched).mono (calls_subset_step combiner m action) hbecomes
    · rw [hpending] at hmatched
      contradiction

/-- A token that was matched before a step is matched after it, or it is not tracked. -/
theorem state?_step (combiner : Combiner) (action : MatcherAction) (hw : m.history.WellFormed)
    {token : ScanToken}
    (hmatched : m.history.state? token = some .matched) :
    (m.step combiner action).history.state? token = some .matched ∨
      (m.step combiner action).history.state? token = none := by
  obtain ⟨t, ht, hstate⟩ := Option.map_eq_some_iff.1 hmatched
  cases hfound : (m.step combiner action).history.find? token with
  | none => exact .inr (by rw [History.state?, hfound, Option.map_none])
  | some t' =>
    obtain ⟨hmem', htoken'⟩ := History.mem_of_find? hfound
    rcases (changes_step combiner m action).origin hw hmem' with ⟨t₀, ht₀, hbecomes, -⟩ | hstart
    · have htoken : t₀.token = token := hbecomes.token.symm.trans htoken'
      have hsame : t₀ = t :=
        Option.some.inj (((History.find?_eq_some_iff hw).2 ⟨ht₀, htoken⟩).symm.trans ht)
      have hstays : t'.state = .matched := hbecomes.state (by rw [hsame, hstate])
      exact .inl (by rw [History.state?, hfound, Option.map_some, hstays])
    · obtain ⟨hnone, -, -⟩ := hstart
      rw [htoken', ht] at hnone
      contradiction

end Step

/-! ### Runs -/

section Run

variable {combiner : Combiner} {m : Matcher}

/-- Trackings that began stay counted. -/
theorem starts_le_run (combiner : Combiner) (m : Matcher) (actions : List MatcherAction) :
    m.starts ≤ (m.run combiner actions).starts := by
  induction actions generalizing m with
  | nil => exact Nat.le_refl _
  | cons action actions ih => exact Nat.le_trans (starts_le_step combiner m action) (ih _)

/-- A history is well formed after any actions of its callers. -/
theorem wellFormed_run (combiner : Combiner) (hw : m.history.WellFormed)
    (actions : List MatcherAction) :
    (m.run combiner actions).history.WellFormed := by
  induction actions generalizing m with
  | nil => exact hw
  | cons action actions ih => exact ih ((changes_step combiner m action).wellFormed hw)

/-- **Every run keeps the invariant** that does not use up the generations.  By induction on the
actions. -/
theorem Sound.run (hs : Sound combiner m) (actions : List MatcherAction)
    (hbound : (m.run combiner actions).starts < UInt64.size) :
    Sound combiner (m.run combiner actions) := by
  induction actions generalizing m with
  | nil => exact hs
  | cons action actions ih =>
    have hfirst : (m.step combiner action).starts < UInt64.size :=
      Nat.lt_of_le_of_lt (starts_le_run combiner _ actions) hbound
    exact ih (hs.step hfirst) hbound

/-- A token that is matched and later tracked as pending was not tracked at some time between. -/
theorem exists_dropped_of_pending (hw : m.history.WellFormed) {token : ScanToken}
    (hmatched : m.history.state? token = some .matched) {actions : List MatcherAction}
    (hpending : (m.run combiner actions).history.state? token = some .pending) :
    ∃ between, between <+: actions ∧
      (m.run combiner between).history.state? token = none := by
  induction actions generalizing m with
  | nil =>
    have hstate : m.history.state? token = some .pending := hpending
    rw [hmatched] at hstate
    contradiction
  | cons action actions ih =>
    rcases state?_step combiner action hw hmatched with hstill | hdropped
    · have hw' := (changes_step combiner m action).wellFormed hw
      obtain ⟨between, hheld, hnone⟩ := ih hw' hstill hpending
      exact ⟨action :: between, List.cons_prefix_cons.2 ⟨rfl, hheld⟩, hnone⟩
    · exact ⟨[action], List.cons_prefix_cons.2 ⟨rfl, List.nil_prefix⟩, hdropped⟩

end Run

/-- **Matches are safe under every interleaving.**  In every run with fewer than `2 ^ 64` starts of
tracking, a token that is tracked as matched holds two messages of different senders with entries
that match a candidate some client asked about.  A matched token is pending again only if it was
dropped in between. -/
theorem matched_sound (combiner : Combiner) (limits : HistoryLimits)
    (actions : List MatcherAction) :
    (((fresh limits).run combiner actions).starts < 2 ^ 64 →
      ∀ token t, ((fresh limits).run combiner actions).history.find? token = some t →
        t.state = .matched →
          ∃ first ∈ t.messages, ∃ second ∈ t.messages, first.sender ≠ second.sender ∧
            ∃ x ∈ first.entries, ∃ y ∈ second.entries, ∃ candidate identity auxiliary shared,
              (token, candidate) ∈ ((fresh limits).run combiner actions).calls ∧
              candidate.decompress = .ok (identity, auxiliary) ∧
              combiner.combine x y = .ok shared ∧
              combiner.derive shared auxiliary = .ok identity) ∧
    ∀ token, ((fresh limits).run combiner actions).history.state? token = some .matched →
      ∀ later, (((fresh limits).run combiner actions).run combiner later).history.state? token =
          some .pending →
        ∃ between, between <+: later ∧
          (((fresh limits).run combiner actions).run combiner between).history.state? token =
            none := by
  constructor
  · intro hbound token t ht hmatched
    have hs := (sound_fresh combiner limits).run actions hbound
    obtain ⟨hmem, rfl⟩ := History.mem_of_find? ht
    obtain ⟨first, hfirst, second, hsecond, hne, x, hx, y, hy, identity, auxiliary, hasked,
      shared, hcombine, hderive⟩ := hs.justified t hmem hmatched
    obtain ⟨candidate, hcall, hkeys⟩ := hasked
    exact ⟨first, hfirst, second, hsecond, hne, x, hx, y, hy, candidate, identity, auxiliary,
      shared, hcall, hkeys, hcombine, hderive⟩
  · intro token hmatched later hpending
    have hw := wellFormed_run combiner (sound_fresh combiner limits).wellFormed actions
    exact exists_dropped_of_pending hw hmatched hpending

/-- Two senders are heard and their shares match; then the token is confirmed and heard of anew. -/
theorem matched_sound_two_senders :
    ∃ (combiner : Combiner) (token : ScanToken) (actions later : List MatcherAction),
      let m := (fresh .standard).run combiner actions
      m.starts < 2 ^ 64 ∧ m.history.state? token = some .matched ∧
        (∃ t, m.history.find? token = some t ∧ ∃ first ∈ t.messages, ∃ second ∈ t.messages,
          first.sender ≠ second.sender) ∧
        (m.run combiner later).history.state? token = some .pending ∧
        ∃ between, between <+: later ∧ (m.run combiner between).history.state? token = none := by
  let combiner : Combiner := ⟨fun _ _ => .ok systemKey, fun _ _ => .ok systemKey⟩
  let token : ScanToken := ⟨List.replicate 132 '0', by simp [isAscii], List.length_replicate⟩
  let data : List Char := List.replicate 132 'A'
  let actions : List MatcherAction :=
    [.recordShares token 1 data 0, .recordShares token 2 data 0,
      .begin token (.ofKeys systemKey systemKey), .conclude 0]
  let later : List MatcherAction := [.confirm token, .recordShares token 1 data 0]
  have hstarts : ((fresh .standard).run combiner actions).starts < 2 ^ 64 := by
    decide +kernel
  have hmatched :
      ((fresh .standard).run combiner actions).history.state? token = some .matched := by
    decide +kernel
  have hpending : (((fresh .standard).run combiner actions).run combiner later).history.state?
      token = some .pending := by
    decide +kernel
  obtain ⟨hsound, hstays⟩ := matched_sound combiner .standard actions
  obtain ⟨t, ht, hstate⟩ := Option.map_eq_some_iff.1 hmatched
  obtain ⟨first, hfirst, second, hsecond, hne, -⟩ := hsound hstarts token t ht hstate
  exact ⟨combiner, token, actions, later, hstarts, hmatched,
    ⟨t, ht, first, hfirst, second, hsecond, hne⟩, hpending,
    hstays token hmatched later hpending⟩

end Matcher

end LinkCommittee
