import LinkCommittee.Matching.Basic
import LinkCommittee.Proofs.Except
import LinkCommittee.Proofs.History.Steps
import Mathlib.Data.List.Nodup

/-!
# The search for a match

A search finds a match exactly when some pair of entries that the messages offer
matches (`Combiner.search_matched_iff`).  Two messages are offered as a pair exactly
when they stand one before the other, so messages of different senders are offered in
one of the two orders.  An attempt takes its generation and its messages from the
history as they are when it begins.
-/

namespace LinkCommittee

/-- Two entries match when they combine to a key from which the identity point derives. -/
def Combiner.Matches (combiner : Combiner) (identity auxiliary : PublicKey) (x y : ShareEntry) :
    Prop :=
  ∃ shared, combiner.combine x y = .ok shared ∧ combiner.derive shared auxiliary = .ok identity

/-- The pairs of a list are its sublists of length two. -/
theorem mem_pairs_iff {α : Type} {items : List α} {a b : α} :
    (a, b) ∈ pairs items ↔ List.Sublist [a, b] items := by
  induction items with
  | nil => simp [pairs]
  | cons c items ih =>
    rw [pairs, List.mem_append, List.mem_map, ih]
    constructor
    · intro h
      rcases h with ⟨d, hd, h⟩ | h
      · cases h
        exact (List.singleton_sublist.2 hd).cons_cons _
      · exact h.cons c
    · intro h
      cases h with
      | cons _ h => exact .inr h
      | cons_cons _ h => exact .inl ⟨b, List.singleton_sublist.1 h, rfl⟩

/-- Different items are offered as a pair in one of the two orders. -/
theorem mem_pairs_or_mem_pairs {α : Type} {items : List α} {a b : α} (ha : a ∈ items)
    (hb : b ∈ items) (hne : a ≠ b) : (a, b) ∈ pairs items ∨ (b, a) ∈ pairs items := by
  induction items with
  | nil => cases ha
  | cons c items ih =>
    rw [pairs, List.mem_append, List.mem_append]
    rcases List.mem_cons.1 ha with rfl | htail
    · have hlater : b ∈ items := (List.mem_cons.1 hb).resolve_left fun h => hne h.symm
      exact .inl (.inl (List.mem_map_of_mem hlater))
    rcases List.mem_cons.1 hb with rfl | hlater
    · exact .inr (.inl (List.mem_map_of_mem htail))
    · exact (ih htail hlater).imp .inr .inr

/-- An item stands before itself in no list without repetitions. -/
theorem ne_of_mem_pairs {α β : Type} {items : List α} {f : α → β} (hnodup : (items.map f).Nodup)
    {a b : α} (h : (a, b) ∈ pairs items) : f a ≠ f b := by
  have hsublist : List.Sublist [f a, f b] (items.map f) := (mem_pairs_iff.1 h).map f
  have hpair := hnodup.sublist hsublist
  simpa using hpair

theorem mem_combinations_iff {messages : List SenderShares} {x y : ShareEntry} :
    (x, y) ∈ combinations messages ↔ ∃ first second, (first, second) ∈ pairs messages ∧
      x ∈ first.entries ∧ y ∈ second.entries := by
  simp only [combinations, List.mem_flatMap, List.mem_map, Prod.exists, Prod.mk.injEq]
  constructor
  · intro h
    obtain ⟨first, second, hpair, x', hx, y', hy, rfl, rfl⟩ := h
    exact ⟨first, second, hpair, hx, hy⟩
  · intro h
    obtain ⟨first, second, hpair, hx, hy⟩ := h
    exact ⟨first, second, hpair, x, hx, y, hy, rfl, rfl⟩

namespace Combiner

variable {combiner : Combiner} {identity auxiliary : PublicKey} {x y : ShareEntry}
  {rest : List (ShareEntry × ShareEntry)}

theorem search_cons_of_matches (hmatch : combiner.Matches identity auxiliary x y) :
    combiner.search identity auxiliary ((x, y) :: rest) = ⟨true, 1, 1⟩ := by
  obtain ⟨shared, hcombine, hderive⟩ := hmatch
  simp [search, hcombine, hderive]

/-- A combination that does not match counts as one that was tried, and the search goes on. -/
theorem search_cons_of_misses (hmiss : ¬ combiner.Matches identity auxiliary x y) :
    combiner.search identity auxiliary ((x, y) :: rest) =
      ⟨(combiner.search identity auxiliary rest).matched,
        (combiner.search identity auxiliary rest).combines + 1,
        (combiner.search identity auxiliary rest).derives +
          (combiner.combine x y).isOk.toNat⟩ := by
  rw [search]
  cases hcombine : combiner.combine x y with
  | error e => rfl
  | ok shared =>
    cases hderive : combiner.derive shared auxiliary with
    | error e => simp [Tally.afterMiss, Except.isOk, Except.toBool, hderive]
    | ok derived =>
      have hother : derived ≠ identity := by
        intro hsame
        exact hmiss ⟨shared, hcombine, hsame ▸ hderive⟩
      simp [Tally.afterMiss, Except.isOk, Except.toBool, hderive, hother]

/-- A search of a pair and more finds a match in the pair or in what follows. -/
theorem search_cons_matched_iff :
    (combiner.search identity auxiliary ((x, y) :: rest)).matched = true ↔
      combiner.Matches identity auxiliary x y ∨
        (combiner.search identity auxiliary rest).matched = true := by
  by_cases hmatch : combiner.Matches identity auxiliary x y
  · rw [search_cons_of_matches hmatch]
    exact iff_of_true rfl (.inl hmatch)
  · rw [search_cons_of_misses hmatch]
    exact (or_iff_right hmatch).symm

/-- **A search finds a match exactly when there is one.**  By induction on the combinations: one
that refuses or misses leaves the answer to those behind it. -/
theorem search_matched_iff {offers : List (ShareEntry × ShareEntry)} :
    (combiner.search identity auxiliary offers).matched = true ↔
      ∃ x y, (x, y) ∈ offers ∧ combiner.Matches identity auxiliary x y := by
  induction offers with
  | nil => simp [search, Tally.none]
  | cons offer rest ih =>
    obtain ⟨x, y⟩ := offer
    rw [search_cons_matched_iff, ih]
    constructor
    · intro h
      rcases h with h | ⟨x', y', hmem, h⟩
      · exact ⟨x, y, List.mem_cons_self, h⟩
      · exact ⟨x', y', List.mem_cons_of_mem _ hmem, h⟩
    · intro h
      obtain ⟨x', y', hmem, h⟩ := h
      rcases List.mem_cons.1 hmem with hoffer | hmem
      · cases hoffer
        exact .inl h
      · exact .inr ⟨x', y', hmem, h⟩

end Combiner

/-- What an attempt searches is what is tracked for the token when it begins. -/
theorem History.begin?_eq_some_iff {h : History} {token : ScanToken} {candidate : AbAddress}
    {attempt : Attempt} :
    h.begin? token candidate = some attempt ↔
      attempt.token = token ∧ candidate.decompress = .ok (attempt.identity, attempt.auxiliary) ∧
        2 ≤ attempt.messages.length ∧ ∃ t, h.find? token = some t ∧
          attempt.generation = t.generation ∧ attempt.messages = t.messages := by
  unfold begin? snapshot?
  constructor
  · intro hbegin
    obtain ⟨⟨identity, auxiliary⟩, hcandidate, hbegin⟩ := Option.bind_eq_some_iff.1 hbegin
    obtain ⟨⟨generation, messages⟩, hsnapshot, hbegin⟩ := Option.bind_eq_some_iff.1 hbegin
    obtain ⟨t, ht, hmade⟩ := Option.map_eq_some_iff.1 hsnapshot
    cases hmade
    dsimp only at hbegin
    split at hbegin
    next hpair =>
      cases hbegin
      exact ⟨rfl, Except.toOption_eq_some_iff.1 hcandidate, hpair, t, ht, rfl, rfl⟩
    · contradiction
  · intro hattempt
    obtain ⟨rfl, hcandidate, hpair, t, ht, hgeneration, hmessages⟩ := hattempt
    simp [Except.toOption_eq_some_iff.2 hcandidate, ht, hpair, ← hgeneration, ← hmessages]

end LinkCommittee
