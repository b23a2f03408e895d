/-!
# Pairwise distinct numbers

Whether a list holds a number twice is decided by sorting it: in a sorted list
equal numbers are neighbours, so it is enough that each number is below the next.
Main statement: `allDistinct_iff`.
-/

namespace LinkCommittee

/-- Each number is below the next one. -/
def ascending : List Nat → Bool
  | [] => true
  | [_] => true
  | a :: b :: numbers => decide (a < b) && ascending (b :: numbers)

/-- No number occurs twice. -/
def allDistinct (numbers : List Nat) : Bool := ascending (numbers.mergeSort (· ≤ ·))

/-- In an ascending list every number is below all that follow. -/
theorem pairwise_lt_of_ascending {numbers : List Nat} (h : ascending numbers = true) :
    numbers.Pairwise (· < ·) := by
  induction numbers with
  | nil => exact .nil
  | cons a numbers ih =>
    cases numbers with
    | nil => exact List.pairwise_singleton _ a
    | cons b numbers =>
      simp only [ascending, Bool.and_eq_true, decide_eq_true_eq] at h
      have tail := ih h.2
      refine .cons (fun c hc => ?_) tail
      cases hc with
      | head => exact h.1
      | tail _ hc => exact Nat.lt_trans h.1 (List.rel_of_pairwise_cons tail hc)

/-- A sorted list without repetitions is ascending. -/
theorem ascending_of_nodup {numbers : List Nat} (sorted : numbers.Pairwise (· ≤ ·))
    (nodup : numbers.Nodup) : ascending numbers = true := by
  induction numbers with
  | nil => rfl
  | cons a numbers ih =>
    cases numbers with
    | nil => rfl
    | cons b numbers =>
      have le : a ≤ b := List.rel_of_pairwise_cons sorted List.mem_cons_self
      have ne : a ≠ b := List.rel_of_pairwise_cons nodup List.mem_cons_self
      simp only [ascending, Bool.and_eq_true, decide_eq_true_eq]
      exact ⟨Nat.lt_of_le_of_ne le ne, ih sorted.of_cons nodup.of_cons⟩

/-- The procedure decides whether a list holds a number twice. -/
theorem allDistinct_iff {numbers : List Nat} : allDistinct numbers = true ↔ numbers.Nodup := by
  have perm := List.mergeSort_perm numbers (· ≤ ·)
  constructor
  · intro h
    refine perm.nodup_iff.1 ((pairwise_lt_of_ascending h).imp ?_)
    exact fun h => Nat.ne_of_lt h
  · intro h
    refine ascending_of_nodup ?_ (perm.nodup_iff.2 h)
    have sorted := @List.pairwise_mergeSort Nat (fun a b => decide (a ≤ b))
      (fun a b c hab hbc => by simp only [decide_eq_true_eq] at *; exact Nat.le_trans hab hbc)
      (fun a b => by simp only [Bool.or_eq_true, decide_eq_true_eq]; exact Nat.le_total a b)
      numbers
    exact sorted.imp fun h => by simpa using h

end LinkCommittee
