import LinkCommittee.Proofs.History.Generations
import LinkCommittee.Proofs.Matching.Interleaving

/-!
# What trying a match decides, and what it changes

With no other step in between, trying a match finds one exactly when an earlier and a
later message of the token hold entries that match the candidate.  The search meets every
such pair, since entries that do not combine or derive never stop it; and it pairs no
sender with itself, since no sender is heard twice.  What was taken from the history is
still there when the attempt concludes, so a match that is found is also marked
(`History.tryMatch_of_matched`).

Main statement: `Matcher.tryMatch_decides`.
-/

namespace LinkCommittee

/-- The pairs of a list, by the places of the earlier and the later item. -/
theorem mem_pairs_iff_getElem? {α : Type} {items : List α} {a b : α} :
    (a, b) ∈ pairs items ↔
      ∃ i j : Nat, i < j ∧ items[i]? = some a ∧ items[j]? = some b := by
  induction items with
  | nil => simp [pairs]
  | cons c items ih =>
    rw [pairs, List.mem_append, List.mem_map, ih]
    constructor
    · rintro (⟨d, hd, hpair⟩ | ⟨i, j, hij, ha, hb⟩)
      · cases hpair
        obtain ⟨j, hb⟩ := List.getElem?_of_mem hd
        exact ⟨0, j + 1, Nat.succ_pos j, rfl, hb⟩
      · exact ⟨i + 1, j + 1, Nat.succ_lt_succ hij, ha, hb⟩
    · rintro ⟨i, j, hij, ha, hb⟩
      obtain ⟨j, rfl⟩ := Nat.exists_eq_add_one_of_ne_zero (Nat.ne_zero_of_lt hij)
      cases i with
      | zero =>
        cases ha
        exact .inl ⟨b, List.mem_of_getElem? hb, rfl⟩
      | succ i => exact .inr ⟨i, j, Nat.lt_of_succ_lt_succ hij, ha, hb⟩

/-- An earlier and a later of some messages hold entries that match. -/
def Combiner.Links (combiner : Combiner) (identity auxiliary : PublicKey)
    (messages : List SenderShares) : Prop :=
  ∃ (i j : Nat) (first second : SenderShares), i < j ∧ messages[i]? = some first ∧
    messages[j]? = some second ∧ ∃ x ∈ first.entries, ∃ y ∈ second.entries,
      combiner.Matches identity auxiliary x y

theorem Attempt.search_matched_iff {attempt : Attempt} {combiner : Combiner} :
    (attempt.search combiner).matched = true ↔
      combiner.Links attempt.identity attempt.auxiliary attempt.messages := by
  rw [search, Combiner.search_matched_iff]
  constructor
  · rintro ⟨x, y, hoffer, hmatch⟩
    obtain ⟨first, second, hpair, hx, hy⟩ := mem_combinations_iff.1 hoffer
    obtain ⟨i, j, hij, hfirst, hsecond⟩ := mem_pairs_iff_getElem?.1 hpair
    exact ⟨i, j, first, second, hij, hfirst, hsecond, x, hx, y, hy, hmatch⟩
  · rintro ⟨i, j, first, second, hij, hfirst, hsecond, x, hx, y, hy, hmatch⟩
    have hpair := mem_pairs_iff_getElem?.2 ⟨i, j, hij, hfirst, hsecond⟩
    exact ⟨x, y, mem_combinations_iff.2 ⟨first, second, hpair, hx, hy⟩, hmatch⟩

/-- Messages of which two hold entries that match are at least two. -/
theorem Combiner.Links.two_le_length {combiner : Combiner} {identity auxiliary : PublicKey}
    {messages : List SenderShares} (hlinks : combiner.Links identity auxiliary messages) :
    2 ≤ messages.length := by
  obtain ⟨i, j, _, _, hij, -, hsecond, -⟩ := hlinks
  obtain ⟨hj, -⟩ := List.getElem?_eq_some_iff.1 hsecond
  omega

namespace History

variable {h : History} {combiner : Combiner} {token : ScanToken} {candidate : AbAddress}

/-- **A match is found exactly when there is one.**  The search goes through the entries of all
pairs of senders until one combination matches. -/
theorem tryMatch_matched_iff :
    (h.tryMatch combiner token candidate).1.matched = true ↔
      ∃ identity auxiliary t, candidate.decompress = .ok (identity, auxiliary) ∧
        h.find? token = some t ∧ combiner.Links identity auxiliary t.messages := by
  unfold tryMatch
  constructor
  · intro hmatched
    cases hbegin : h.begin? token candidate with
    | none =>
      rw [hbegin] at hmatched
      contradiction
    | some attempt =>
      rw [hbegin] at hmatched
      obtain ⟨-, hkeys, -, t, ht, -, hmessages⟩ := begin?_eq_some_iff.1 hbegin
      have hlinks := Attempt.search_matched_iff.1 hmatched
      rw [hmessages] at hlinks
      exact ⟨_, _, t, hkeys, ht, hlinks⟩
  · rintro ⟨identity, auxiliary, t, hkeys, ht, hlinks⟩
    have hbegin : h.begin? token candidate =
        some ⟨token, t.generation, t.messages, identity, auxiliary⟩ :=
      begin?_eq_some_iff.2 ⟨rfl, hkeys, hlinks.two_le_length, t, ht, rfl, rfl⟩
    rw [hbegin]
    exact Attempt.search_matched_iff.2 hlinks

/-- A match that is found is marked, and nothing else changes. -/
theorem tryMatch_of_matched (hmatched : (h.tryMatch combiner token candidate).1.matched = true) :
    h.MatchedOnly token (h.tryMatch combiner token candidate).2 := by
  unfold tryMatch at hmatched ⊢
  cases hbegin : h.begin? token candidate with
  | none =>
    rw [hbegin] at hmatched
    contradiction
  | some attempt =>
    rw [hbegin] at hmatched
    obtain ⟨htoken, -, -, t, ht, hgeneration, -⟩ := begin?_eq_some_iff.1 hbegin
    have hmarked : (h.markMatched token t.generation).1 = true := by
      rw [markMatched_eq_true_iff, ht, Option.any_some]
      exact decide_eq_true rfl
    dsimp only at hmatched ⊢
    rw [conclude, if_pos hmatched, htoken, hgeneration]
    exact markMatched_of_true hmarked

theorem tryMatch_of_not_matched
    (hmatched : (h.tryMatch combiner token candidate).1.matched = false) :
    (h.tryMatch combiner token candidate).2 = h := by
  unfold tryMatch at hmatched ⊢
  split
  · rfl
  next attempt hbegin =>
    rw [hbegin] at hmatched
    dsimp only at hmatched ⊢
    rw [conclude, hmatched, if_neg Bool.false_ne_true]

/-- Trying a match leaves the token matched if one is found, and in its state otherwise. -/
theorem state?_tryMatch :
    (h.tryMatch combiner token candidate).2.state? token =
      if (h.tryMatch combiner token candidate).1.matched = true then some .matched
      else h.state? token := by
  split
  next hmatched =>
    obtain ⟨t, -, hmarked⟩ := (tryMatch_of_matched hmatched).matched
    rw [state?, hmarked]
    rfl
  next hmatched => rw [tryMatch_of_not_matched (eq_false_of_ne_true hmatched)]

/-- Trying a match hears no sender and forgets none. -/
theorem senderCount_tryMatch :
    (h.tryMatch combiner token candidate).2.senderCount token = h.senderCount token := by
  by_cases hmatched : (h.tryMatch combiner token candidate).1.matched = true
  · obtain ⟨t, ht, hmarked⟩ := (tryMatch_of_matched hmatched).matched
    simp only [senderCount, ht, hmarked]
  · rw [tryMatch_of_not_matched (eq_false_of_ne_true hmatched)]

/-- **Two entries that match are found**, and the token is matched then. -/
theorem tryMatch_of_matches {identity auxiliary : PublicKey} {messages : List SenderShares}
    {first second : SenderShares} {x y : ShareEntry}
    (hkeys : candidate.decompress = .ok (identity, auxiliary))
    (hmessages : h.messages? token = some messages) (hpair : (first, second) ∈ pairs messages)
    (hx : x ∈ first.entries) (hy : y ∈ second.entries)
    (hmatch : combiner.Matches identity auxiliary x y) :
    (h.tryMatch combiner token candidate).1.matched = true ∧
      (h.tryMatch combiner token candidate).2.state? token = some .matched := by
  obtain ⟨t, ht, rfl⟩ := Option.map_eq_some_iff.1 hmessages
  obtain ⟨i, j, hij, hfirst, hsecond⟩ := mem_pairs_iff_getElem?.1 hpair
  have hlinks : combiner.Links identity auxiliary t.messages :=
    ⟨i, j, first, second, hij, hfirst, hsecond, x, hx, y, hy, hmatch⟩
  have hmatched := tryMatch_matched_iff.2 ⟨identity, auxiliary, t, hkeys, ht, hlinks⟩
  obtain ⟨t', -, hmarked⟩ := (tryMatch_of_matched hmatched).matched
  refine ⟨hmatched, ?_⟩
  rw [state?, hmarked]
  rfl

end History

namespace Matcher

/-- Beginning an attempt and concluding it in the next step is trying a match. -/
theorem run_begin_conclude (combiner : Combiner) (m : Matcher) (token : ScanToken)
    (candidate : AbAddress) :
    (m.run combiner [.begin token candidate, .conclude m.attempts.length]).history =
      (m.history.tryMatch combiner token candidate).2 := by
  show ((m.step combiner (.begin token candidate)).historyAfter combiner
    (.conclude m.attempts.length)) = _
  unfold historyAfter step attemptsAfter History.tryMatch
  dsimp only
  cases m.history.begin? token candidate with
  | none => simp [historyAfter]
  | some attempt => simp [historyAfter]

/-- **Trying a match decides whether the shares of a token link it to a candidate.**  In every state
that clients can reach, with no step in between, a match is found exactly when the candidate has two
keys, the token is tracked, and an earlier and a later of its messages hold entries that combine to
a key from which the candidate's identity derives.  The two have different senders.  If a match is
found, the token is matched and nothing else changes; if none is found, nothing changes. -/
theorem tryMatch_decides (combiner : Combiner) (limits : HistoryLimits)
    (actions : List MatcherAction) (token : ScanToken) (candidate : AbAddress) :
    let m := (fresh limits).run combiner actions
    let result := m.history.tryMatch combiner token candidate
    (result.1.matched = true ↔ ∃ identity auxiliary t,
      candidate.decompress = .ok (identity, auxiliary) ∧ m.history.find? token = some t ∧
        ∃ (i j : Nat) (first second : SenderShares), i < j ∧ t.messages[i]? = some first ∧
          t.messages[j]? = some second ∧ ∃ x ∈ first.entries, ∃ y ∈ second.entries, ∃ shared,
            combiner.combine x y = .ok shared ∧ combiner.derive shared auxiliary = .ok identity) ∧
    (∀ t, m.history.find? token = some t →
      ∀ (i j : Nat) (first second : SenderShares), i < j → t.messages[i]? = some first →
        t.messages[j]? = some second → first.sender ≠ second.sender) ∧
    (result.1.matched = true → m.history.MatchedOnly token result.2) ∧
    (result.1.matched = false → result.2 = m.history) ∧
    (m.run combiner [.begin token candidate, .conclude m.attempts.length]).history = result.2 := by
  intro m result
  have hw : m.history.WellFormed :=
    wellFormed_run combiner (History.wellFormed_empty limits) actions
  refine ⟨History.tryMatch_matched_iff, ?_, History.tryMatch_of_matched,
    History.tryMatch_of_not_matched, run_begin_conclude combiner m token candidate⟩
  intro t ht i j first second hij hfirst hsecond
  have hcounted := hw.counted t (History.mem_of_find? ht).1
  exact ne_of_mem_pairs hcounted.nodup (mem_pairs_iff_getElem?.2 ⟨i, j, hij, hfirst, hsecond⟩)

end Matcher

end LinkCommittee
