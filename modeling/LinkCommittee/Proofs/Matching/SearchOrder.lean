import LinkCommittee.Proofs.Matching.Decision
import Mathlib.Algebra.BigOperators.Ring.Finset
import Mathlib.Algebra.Order.BigOperators.Group.List
import Mathlib.Algebra.Order.Ring.Nat
import Mathlib.Data.Nat.Choose.Basic

/-!
# The order of a search

A search tries combinations of entries one after the other.  Each combination has a place,
given by the numbers of its two messages in the order of their arrival and of its entries
in these.  The search goes through all places at which the first message stands before the
second (`mem_placed_iff`), pairs of messages in lexicographic order and within a pair the
entries of the first, then those of the second (`pairwise_placed`).  So the number of
combinations is the sum over all pairs of messages of the products of the numbers of their
entries (`length_placed`).
-/

namespace LinkCommittee

/-! ### Pairs -/

theorem pairs_map {α β : Type} (f : α → β) (items : List α) :
    pairs (items.map f) = (pairs items).map fun pair => (f pair.1, f pair.2) := by
  induction items with
  | nil => rfl
  | cons a items ih =>
    rw [List.map_cons, pairs, ih, pairs, List.map_append, List.map_map, List.map_map]
    rfl

/-- Pairs of items that stand in an order stand in lexicographic order. -/
theorem pairwise_pairs {α : Type} {R : α → α → Prop} {items : List α} (h : items.Pairwise R) :
    (pairs items).Pairwise fun p q => R p.1 q.1 ∨ p.1 = q.1 ∧ R p.2 q.2 := by
  induction items with
  | nil => exact .nil
  | cons a items ih =>
    obtain ⟨hhead, htail⟩ := List.pairwise_cons.1 h
    rw [pairs, List.pairwise_append]
    refine ⟨?_, ih htail, ?_⟩
    · rw [List.pairwise_map]
      exact htail.imp fun hlater => .inr ⟨rfl, hlater⟩
    · intro p hp q hq
      obtain ⟨b, -, rfl⟩ := List.mem_map.1 hp
      obtain ⟨i, j, -, hfirst, -⟩ := mem_pairs_iff_getElem?.1 hq
      exact .inl (hhead q.1 (List.mem_of_getElem? hfirst))

theorem length_pairs {α : Type} (items : List α) :
    (pairs items).length = items.length.choose 2 := by
  induction items with
  | nil => rfl
  | cons a items ih =>
    rw [pairs, List.length_append, List.length_map, ih, List.length_cons, Nat.choose_succ_succ',
      Nat.choose_one_right]

theorem sum_range_getD (counts : List Nat) :
    ∑ j ∈ Finset.range counts.length, counts.getD j 0 = counts.sum := by
  induction counts with
  | nil => rfl
  | cons c counts ih =>
    rw [List.length_cons, Finset.sum_range_succ', List.sum_cons, Nat.add_comm]
    exact congrArg (c + ·) ih

/-- The sum of the products of all pairs, by the places of the later and the earlier one. -/
theorem sum_map_mul_pairs (counts : List Nat) :
    ((pairs counts).map fun pair => pair.1 * pair.2).sum =
      ∑ j ∈ Finset.range counts.length, ∑ i ∈ Finset.range j,
        counts.getD i 0 * counts.getD j 0 := by
  induction counts with
  | nil => rfl
  | cons c counts ih =>
    -- the head is the earlier one of a pair with every later item, and the later one of none
    have hhead : ((counts.map (c, ·)).map fun pair => pair.1 * pair.2).sum = c * counts.sum := by
      simpa [List.map_map, Function.comp_def] using List.sum_map_mul_left counts id c
    have hlater : ∀ j, ∑ i ∈ Finset.range (j + 1),
        (c :: counts).getD i 0 * (c :: counts).getD (j + 1) 0 =
          ∑ i ∈ Finset.range j, counts.getD i 0 * counts.getD j 0 + c * counts.getD j 0 := by
      intro j
      rw [Finset.sum_range_succ']
      rfl
    rw [pairs, List.map_append, List.sum_append, hhead, ih, List.length_cons,
      Finset.sum_range_succ', Finset.sum_congr rfl fun j _ => hlater j, Finset.sum_add_distrib,
      ← Finset.mul_sum, sum_range_getD, Finset.range_zero, Finset.sum_empty, Nat.add_zero,
      Nat.add_comm]

/-! ### Places -/

/-- Where a combination of two entries stands: the numbers of their messages, and their numbers in
these. -/
structure Place where
  first : Nat
  second : Nat
  x : Nat
  y : Nat
deriving DecidableEq

/-- Places by their pairs of messages in lexicographic order, and in one pair by the entry of the
first message, then by the entry of the second. -/
def Place.Before (p q : Place) : Prop :=
  p.first < q.first ∨ p.first = q.first ∧ (p.second < q.second ∨ p.second = q.second ∧
    (p.x < q.x ∨ p.x = q.x ∧ p.y < q.y))

/-- The combinations of entries that a search tries, with their places. -/
def placed (messages : List SenderShares) : List (Place × ShareEntry × ShareEntry) :=
  (pairs messages.zipIdx).flatMap fun (first, second) =>
    first.1.entries.zipIdx.flatMap fun x => second.1.entries.zipIdx.map fun y =>
      (⟨first.2, second.2, x.2, y.2⟩, x.1, y.1)

/-- Without their places these are the combinations in the order of the search. -/
theorem map_snd_placed (messages : List SenderShares) :
    (placed messages).map Prod.snd = combinations messages := by
  have hfirst (entries : List ShareEntry) : entries.zipIdx.map Prod.fst = entries :=
    List.zipIdx_map_fst 0 entries
  conv_rhs => rw [combinations, ← List.zipIdx_map_fst 0 messages, pairs_map, List.flatMap_map]
  rw [placed, List.map_flatMap]
  refine congrArg (List.flatMap · _) (funext fun pair => ?_)
  dsimp only
  conv_rhs => rw [← hfirst pair.1.1.entries, List.flatMap_map]
  rw [List.map_flatMap]
  refine congrArg (List.flatMap · _) (funext fun x => ?_)
  conv_rhs => rw [← hfirst pair.2.1.entries, List.map_map]
  rw [List.map_map]
  rfl

/-- **The search tries every combination of an earlier and a later message**, each at its place. -/
theorem mem_placed_iff {messages : List SenderShares} {p : Place} {x y : ShareEntry} :
    (p, x, y) ∈ placed messages ↔ p.first < p.second ∧ ∃ first second,
      messages[p.first]? = some first ∧ messages[p.second]? = some second ∧
        first.entries[p.x]? = some x ∧ second.entries[p.y]? = some y := by
  simp only [placed, List.mem_flatMap, List.mem_map, Prod.exists, List.mem_zipIdx_iff_getElem?]
  constructor
  · intro h
    obtain ⟨first, i, second, j, hpair, x, k, hx, y, l, hy, hplace⟩ := h
    cases hplace
    obtain ⟨i', j', hij, hi, hj⟩ := mem_pairs_iff_getElem?.1 hpair
    rw [List.getElem?_zipIdx, Nat.zero_add] at hi hj
    obtain ⟨_, hfirst, hi⟩ := Option.map_eq_some_iff.1 hi
    obtain ⟨_, hsecond, hj⟩ := Option.map_eq_some_iff.1 hj
    cases hi
    cases hj
    exact ⟨hij, first, second, hfirst, hsecond, hx, hy⟩
  · intro h
    obtain ⟨hij, first, second, hfirst, hsecond, hx, hy⟩ := h
    refine ⟨first, p.first, second, p.second, ?_, x, p.x, hx, y, p.y, hy, rfl⟩
    refine mem_pairs_iff_getElem?.2 ⟨p.first, p.second, hij, ?_, ?_⟩
    · rw [List.getElem?_zipIdx, hfirst, Nat.zero_add]
      rfl
    · rw [List.getElem?_zipIdx, hsecond, Nat.zero_add]
      rfl

theorem pairwise_zipIdx {α : Type} (items : List α) :
    items.zipIdx.Pairwise fun a b => a.2 < b.2 := by
  rw [← List.pairwise_map, List.zipIdx_map_snd]
  exact List.pairwise_lt_range' 1

/-- **The search goes through the places in their order.**  The places of the senders count first,
then that of the entry of the first sender, then that of the second. -/
theorem pairwise_placed (messages : List SenderShares) :
    (placed messages).Pairwise fun a b => a.1.Before b.1 := by
  refine List.pairwise_flatMap.2 ⟨fun pair _ => List.pairwise_flatMap.2 ⟨fun x _ => ?_, ?_⟩, ?_⟩
  · rw [List.pairwise_map]
    exact (pairwise_zipIdx _).imp fun hy => .inr ⟨rfl, .inr ⟨rfl, .inr ⟨rfl, hy⟩⟩⟩
  · refine (pairwise_zipIdx _).imp fun {x x'} hx a ha b hb => ?_
    obtain ⟨y, -, rfl⟩ := List.mem_map.1 ha
    obtain ⟨y', -, rfl⟩ := List.mem_map.1 hb
    exact .inr ⟨rfl, .inr ⟨rfl, .inl hx⟩⟩
  · refine (pairwise_pairs (pairwise_zipIdx messages)).imp fun {pair pair'} hpair a ha b hb => ?_
    obtain ⟨x, -, ha⟩ := List.mem_flatMap.1 ha
    obtain ⟨y, -, rfl⟩ := List.mem_map.1 ha
    obtain ⟨x', -, hb⟩ := List.mem_flatMap.1 hb
    obtain ⟨y', -, rfl⟩ := List.mem_map.1 hb
    rcases hpair with hfirst | ⟨hfirst, hsecond⟩
    · exact .inl hfirst
    · exact .inr ⟨congrArg Prod.snd hfirst, .inl hsecond⟩

/-! ### How many places there are -/

theorem length_placed_eq (messages : List SenderShares) :
    (placed messages).length =
      ((pairs messages).map fun pair => pair.1.entries.length * pair.2.entries.length).sum := by
  rw [← List.length_map (f := Prod.snd), map_snd_placed, combinations, List.length_flatMap]
  refine congrArg List.sum (List.map_congr_left fun pair _ => ?_)
  simp [List.length_flatMap]

/-- **There are as many combinations as the products of the numbers of entries of an earlier and a
later message add up to.** -/
theorem length_placed (messages : List SenderShares) :
    (placed messages).length =
      ∑ j ∈ Finset.range messages.length, ∑ i ∈ Finset.range j,
        (messages.map fun m => m.entries.length).getD i 0 *
          (messages.map fun m => m.entries.length).getD j 0 := by
  have hsum := sum_map_mul_pairs (messages.map fun m => m.entries.length)
  rw [pairs_map, List.map_map, List.length_map] at hsum
  exact (length_placed_eq messages).trans hsum

/-- Few messages of few entries offer few combinations. -/
theorem length_placed_le {messages : List SenderShares} {senders shares : Nat}
    (hsenders : messages.length ≤ senders)
    (hshares : ∀ m ∈ messages, m.entries.length ≤ shares) :
    (placed messages).length ≤ senders * (senders - 1) / 2 * shares ^ 2 := by
  have hproduct : ∀ n ∈ (pairs messages).map fun pair =>
      pair.1.entries.length * pair.2.entries.length, n ≤ shares ^ 2 := by
    intro n hn
    obtain ⟨pair, hpair, rfl⟩ := List.mem_map.1 hn
    obtain ⟨i, j, -, hfirst, hsecond⟩ := mem_pairs_iff_getElem?.1 hpair
    rw [Nat.pow_two]
    exact Nat.mul_le_mul (hshares _ (List.mem_of_getElem? hfirst))
      (hshares _ (List.mem_of_getElem? hsecond))
  calc (placed messages).length
      ≤ messages.length.choose 2 * shares ^ 2 := by
        rw [length_placed_eq, ← length_pairs]
        simpa using List.sum_le_card_nsmul _ _ hproduct
    _ ≤ senders.choose 2 * shares ^ 2 :=
        Nat.mul_le_mul_right _ (Nat.choose_le_choose 2 hsenders)
    _ = senders * (senders - 1) / 2 * shares ^ 2 := by rw [Nat.choose_two_right]

end LinkCommittee
