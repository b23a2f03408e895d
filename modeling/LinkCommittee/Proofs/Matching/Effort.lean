import LinkCommittee.Proofs.Address.AbAddress
import LinkCommittee.Proofs.Matching.Admission
import LinkCommittee.Proofs.Matching.SearchOrder

/-!
# How often the combiner is called on

Trying a match is repeated here with a combiner that counts: each call on it adds to a
count that is carried along, and nothing else is known of how often it was called
(`History.countedTryMatch`).  The count comes out as the tally of the search
(`History.run_countedTryMatch`), the search ends with the first combination that matches,
and what a message brings and how many messages a token holds were limited when the shares
were recorded.

Main statement: `Matcher.tryMatch_effort`.
-/

namespace LinkCommittee

/-! ### A combiner that counts -/

/-- How often a combiner was called on. -/
structure CallCount where
  combines : Nat
  derives : Nat
deriving DecidableEq

/-- What a search adds to the calls before it. -/
def CallCount.plus (calls : CallCount) (tally : Tally) : CallCount :=
  ⟨calls.combines + tally.combines, calls.derives + tally.derives⟩

namespace Combiner

/-- Combines two entries and counts the call. -/
def countedCombine (combiner : Combiner) (x y : ShareEntry) :
    StateM CallCount (Except SharingError PublicKey) := do
  modify fun calls => { calls with combines := calls.combines + 1 }
  return combiner.combine x y

/-- Derives an identity point and counts the call. -/
def countedDerive (combiner : Combiner) (shared auxiliary : PublicKey) :
    StateM CallCount (Except SharingError PublicKey) := do
  modify fun calls => { calls with derives := calls.derives + 1 }
  return combiner.derive shared auxiliary

/-- Whether two entries match. -/
def countedCheck (combiner : Combiner) (identity auxiliary : PublicKey) (x y : ShareEntry) :
    StateM CallCount Bool := do
  match ← combiner.countedCombine x y with
  | .error _ => return false
  | .ok shared =>
    match ← combiner.countedDerive shared auxiliary with
    | .error _ => return false
    | .ok derived => return derived = identity

end Combiner

/-- Whether an earlier and a later message hold entries that match. -/
def Attempt.countedSearch (attempt : Attempt) (combiner : Combiner) : StateM CallCount Bool :=
  (pairs attempt.messages).anyM fun (first, second) =>
    first.entries.anyM fun x => second.entries.anyM fun y =>
      combiner.countedCheck attempt.identity attempt.auxiliary x y

/-- Tries to match a token with a candidate. -/
def History.countedTryMatch (h : History) (combiner : Combiner) (token : ScanToken)
    (candidate : AbAddress) : StateM CallCount (Bool × History) :=
  match h.begin? token candidate with
  | none => return (false, h)
  | some attempt => do
    if ← attempt.countedSearch combiner then
      return (true, (h.markMatched attempt.token attempt.generation).2)
    else return (false, h)

/-! ### The count is the tally -/

section AnyM

variable {m : Type → Type} [Monad m] {α β : Type}

theorem anyM_map (p : β → m Bool) (f : α → β) (items : List α) :
    (items.map f).anyM p = items.anyM fun a => p (f a) := by
  induction items with
  | nil => rfl
  | cons a items ih => rw [List.map_cons, List.anyM_cons, List.anyM_cons, ih]

theorem anyM_append [LawfulMonad m] (p : α → m Bool) (front back : List α) :
    (front ++ back).anyM p =
      front.anyM p >>= fun found => if found then pure true else back.anyM p := by
  induction front with
  | nil => simp [List.anyM]
  | cons a front ih =>
    rw [List.cons_append, List.anyM_cons, List.anyM_cons, bind_assoc]
    refine bind_congr fun found => ?_
    cases found with
    | false => exact ih
    | true => simp

/-- Asking everything that some items give is asking item by item. -/
theorem anyM_flatMap [LawfulMonad m] (p : β → m Bool) (f : α → List β) (items : List α) :
    (items.flatMap f).anyM p = items.anyM fun a => (f a).anyM p := by
  induction items with
  | nil => rfl
  | cons a items ih => rw [List.flatMap_cons, anyM_append, List.anyM_cons, ih]

end AnyM

namespace Combiner

variable {combiner : Combiner} {identity auxiliary : PublicKey} {x y : ShareEntry}

/-- Checking one combination counts what a search of it counts. -/
theorem run_countedCheck (calls : CallCount) :
    (combiner.countedCheck identity auxiliary x y).run calls =
      ((combiner.search identity auxiliary [(x, y)]).matched,
        calls.plus (combiner.search identity auxiliary [(x, y)])) := by
  unfold countedCheck countedCombine countedDerive search
  cases combiner.combine x y with
  | error e => rfl
  | ok shared =>
    cases hderive : combiner.derive shared auxiliary with
    | error e =>
      simp [hderive, CallCount.plus]
      rfl
    | ok derived =>
      by_cases hfound : derived = identity
      · simp [hderive, hfound, CallCount.plus]
        rfl
      · simp [hderive, hfound, CallCount.plus]
        rfl

/-- Checking one combination after the other counts what the search counts. -/
theorem run_anyM_countedCheck (offers : List (ShareEntry × ShareEntry)) (calls : CallCount) :
    (offers.anyM fun offer => combiner.countedCheck identity auxiliary offer.1 offer.2).run calls =
      ((combiner.search identity auxiliary offers).matched,
        calls.plus (combiner.search identity auxiliary offers)) := by
  induction offers generalizing calls with
  | nil => rfl
  | cons offer rest ih =>
    obtain ⟨x, y⟩ := offer
    rw [List.anyM_cons, StateT.run_bind, run_countedCheck]
    by_cases hmatch : combiner.Matches identity auxiliary x y
    · rw [search_cons_of_matches hmatch, search_cons_of_matches hmatch]
      rfl
    · rw [search_cons_of_misses hmatch, search_cons_of_misses hmatch]
      refine (ih _).trans ?_
      simp [CallCount.plus, search, Tally.none, Nat.add_assoc, Nat.add_comm, Nat.add_left_comm]

/-! ### Where the search ends -/

variable {offers front back : List (ShareEntry × ShareEntry)}

/-- Combinations that do not match are all tried, and the search goes on behind them. -/
theorem combines_search_append
    (hmiss : ∀ offer ∈ front, ¬ combiner.Matches identity auxiliary offer.1 offer.2) :
    (combiner.search identity auxiliary (front ++ back)).combines =
      front.length + (combiner.search identity auxiliary back).combines := by
  induction front with
  | nil => exact (Nat.zero_add _).symm
  | cons offer front ih =>
    obtain ⟨hhead, htail⟩ := List.forall_mem_cons.1 hmiss
    rw [List.cons_append, search_cons_of_misses hhead, ih htail, List.length_cons]
    exact Nat.add_right_comm _ _ 1

/-- **The search ends with the first combination that matches.**  Those in front of it are tried in
vain, and of those behind it none is tried. -/
theorem combines_search_of_first
    (hmiss : ∀ offer ∈ front, ¬ combiner.Matches identity auxiliary offer.1 offer.2)
    (hmatch : combiner.Matches identity auxiliary x y) :
    (combiner.search identity auxiliary (front ++ (x, y) :: back)).combines =
      front.length + 1 := by
  rw [combines_search_append hmiss, search_cons_of_matches hmatch]

/-- **If no combination matches, the search tries all.** -/
theorem combines_search_of_none
    (hmiss : ∀ offer ∈ offers, ¬ combiner.Matches identity auxiliary offer.1 offer.2) :
    (combiner.search identity auxiliary offers).combines = offers.length := by
  have hall : (combiner.search identity auxiliary (offers ++ [])).combines = offers.length + 0 :=
    combines_search_append hmiss
  rwa [List.append_nil] at hall

theorem combines_search_le :
    (combiner.search identity auxiliary offers).combines ≤ offers.length := by
  induction offers with
  | nil => exact Nat.le_refl 0
  | cons offer rest ih =>
    obtain ⟨x, y⟩ := offer
    by_cases hmatch : combiner.Matches identity auxiliary x y
    · rw [search_cons_of_matches hmatch]
      exact Nat.succ_le_succ (Nat.zero_le _)
    · rw [search_cons_of_misses hmatch]
      exact Nat.succ_le_succ ih

/-- **Of the combinations that are tried, those that combine are derived from.** -/
theorem derives_search :
    (combiner.search identity auxiliary offers).derives =
      (offers.take (combiner.search identity auxiliary offers).combines).countP fun offer =>
        (combiner.combine offer.1 offer.2).isOk := by
  induction offers with
  | nil => rfl
  | cons offer rest ih =>
    obtain ⟨x, y⟩ := offer
    by_cases hmatch : combiner.Matches identity auxiliary x y
    · obtain ⟨shared, hcombine, -⟩ := id hmatch
      rw [search_cons_of_matches hmatch]
      simp [hcombine, Except.isOk, Except.toBool]
    · rw [search_cons_of_misses hmatch, ih, List.take_succ_cons, List.countP_cons]
      cases (combiner.combine x y).isOk <;> rfl

/-! ### At which place the search ends -/

variable {messages : List SenderShares} {p : Place}
  {before after : List (Place × ShareEntry × ShareEntry)}

theorem combines_search_placed_of_first (horder : placed messages = before ++ (p, x, y) :: after)
    (hmatch : combiner.Matches identity auxiliary x y)
    (hmiss : ∀ p x y, (p, x, y) ∈ before → ¬ combiner.Matches identity auxiliary x y) :
    (combiner.search identity auxiliary (combinations messages)).combines = before.length + 1 := by
  rw [← map_snd_placed, horder, List.map_append, List.map_cons, combines_search_of_first _ hmatch,
    List.length_map]
  intro offer hoffer
  obtain ⟨⟨p', x', y'⟩, hmem, rfl⟩ := List.mem_map.1 hoffer
  exact hmiss p' x' y' hmem

theorem combines_search_placed_of_none
    (hmiss : ∀ p x y, (p, x, y) ∈ placed messages → ¬ combiner.Matches identity auxiliary x y) :
    (combiner.search identity auxiliary (combinations messages)).combines =
      (placed messages).length := by
  rw [← map_snd_placed, combines_search_of_none, List.length_map]
  intro offer hoffer
  obtain ⟨⟨p', x', y'⟩, hmem, rfl⟩ := List.mem_map.1 hoffer
  exact hmiss p' x' y' hmem

theorem derives_search_placed :
    (combiner.search identity auxiliary (combinations messages)).derives =
      ((placed messages).take
        (combiner.search identity auxiliary (combinations messages)).combines).countP
          fun (_, x, y) => (combiner.combine x y).isOk := by
  rw [derives_search]
  conv_lhs => rw [← map_snd_placed, ← List.map_take, List.countP_map, map_snd_placed]
  rfl

end Combiner

theorem Attempt.run_countedSearch (attempt : Attempt) (combiner : Combiner) (calls : CallCount) :
    (attempt.countedSearch combiner).run calls =
      ((attempt.search combiner).matched, calls.plus (attempt.search combiner)) := by
  have hflat : attempt.countedSearch combiner =
      (combinations attempt.messages).anyM fun offer =>
        combiner.countedCheck attempt.identity attempt.auxiliary offer.1 offer.2 := by
    rw [combinations, anyM_flatMap]
    refine congrArg (List.anyM · _) (funext fun pair => ?_)
    rw [anyM_flatMap]
    refine congrArg (List.anyM · _) (funext fun x => ?_)
    rw [anyM_map]
  rw [hflat, Combiner.run_anyM_countedCheck]
  rfl

namespace History

variable {h : History} {combiner : Combiner} {token : ScanToken} {candidate : AbAddress}

/-- **With a combiner that counts, trying a match finds and changes the same**, and the count is the
tally. -/
theorem run_countedTryMatch (h : History) (combiner : Combiner) (token : ScanToken)
    (candidate : AbAddress) (calls : CallCount) :
    (h.countedTryMatch combiner token candidate).run calls =
      (((h.tryMatch combiner token candidate).1.matched,
          (h.tryMatch combiner token candidate).2),
        calls.plus (h.tryMatch combiner token candidate).1) := by
  unfold countedTryMatch tryMatch
  cases h.begin? token candidate with
  | none => rfl
  | some attempt =>
    dsimp only
    rw [StateT.run_bind, attempt.run_countedSearch, conclude]
    cases (attempt.search combiner).matched <;> rfl

/-- Without two keys and two senders nothing is tried. -/
theorem tryMatch_eq_none (hw : h.WellFormed)
    (hfew : (∀ identity auxiliary, candidate.decompress ≠ .ok (identity, auxiliary)) ∨
      h.senderCount token < 2) :
    (h.tryMatch combiner token candidate).1 = .none := by
  unfold tryMatch
  cases hbegin : h.begin? token candidate with
  | none => rfl
  | some attempt =>
    obtain ⟨-, hkeys, htwo, t, ht, -, hmessages⟩ := begin?_eq_some_iff.1 hbegin
    rcases hfew with hrefused | hfew
    · exact absurd hkeys (hrefused _ _)
    · rw [senderCount_of_find? hw ht, ← hmessages] at hfew
      omega

/-- With two keys and two senders the combinations of the messages are searched. -/
theorem tryMatch_eq_search (hw : h.WellFormed) {identity auxiliary : PublicKey}
    {messages : List SenderShares} (hkeys : candidate.decompress = .ok (identity, auxiliary))
    (hmessages : h.messages? token = some messages) (htwo : 2 ≤ h.senderCount token) :
    (h.tryMatch combiner token candidate).1 =
      combiner.search identity auxiliary (combinations messages) := by
  obtain ⟨t, ht, rfl⟩ := Option.map_eq_some_iff.1 hmessages
  rw [senderCount_of_find? hw ht] at htwo
  have hbegin : h.begin? token candidate =
      some ⟨token, t.generation, t.messages, identity, auxiliary⟩ :=
    begin?_eq_some_iff.2 ⟨rfl, hkeys, htwo, t, ht, rfl, rfl⟩
  rw [tryMatch, hbegin]
  rfl

theorem Admitted.length_placed_le {limits : HistoryLimits} (ha : h.Admitted limits)
    {messages : List SenderShares} (hmessages : h.messages? token = some messages) :
    (placed messages).length ≤ limits.maxSenders.toNat * (limits.maxSenders.toNat - 1) / 2 *
      limits.maxSharesPerMessage.toNat ^ 2 := by
  obtain ⟨t, ht, rfl⟩ := Option.map_eq_some_iff.1 hmessages
  obtain ⟨hmem, -⟩ := mem_of_find? ht
  have hsenders := ha.messages_le t hmem
  rw [ha.limits_eq] at hsenders
  exact LinkCommittee.length_placed_le hsenders (ha.entries_le t hmem)

/-- **The limits bound the number of combinations that are tried.**  Each pair of senders brings at
most the square of the share limit. -/
theorem Admitted.combines_tryMatch_le {limits : HistoryLimits} (ha : h.Admitted limits) :
    (h.tryMatch combiner token candidate).1.combines ≤
      limits.maxSenders.toNat * (limits.maxSenders.toNat - 1) / 2 *
        limits.maxSharesPerMessage.toNat ^ 2 := by
  unfold tryMatch
  cases hbegin : h.begin? token candidate with
  | none => exact Nat.zero_le _
  | some attempt =>
    obtain ⟨-, -, -, t, ht, -, hmessages⟩ := begin?_eq_some_iff.1 hbegin
    have hheld : h.messages? token = some attempt.messages := by rw [messages?, ht, hmessages]; rfl
    calc (attempt.search combiner).combines
        ≤ (combinations attempt.messages).length := Combiner.combines_search_le
      _ = (placed attempt.messages).length := by rw [← map_snd_placed, List.length_map]
      _ ≤ _ := ha.length_placed_le hheld

end History

namespace Matcher

/-- **How often trying a match calls on the combiner.**  In every state that clients can reach, with
no step in between: never if the candidate has no two keys or the token fewer than two senders.
Otherwise the combinations of entries of an earlier and a later message are tried in the order of
their places, as many as the products of the numbers of entries add up to, until one matches.  The
combiner combines once for each combination that is tried and derives once for each of these that
it combined.  The limits for senders and for the entries of a message bound all of this. -/
theorem tryMatch_effort (combiner : Combiner) (limits : HistoryLimits)
    (actions : List MatcherAction) (token : ScanToken) (candidate : AbAddress) :
    let h := ((fresh limits).run combiner actions).history
    let result := (h.countedTryMatch combiner token candidate).run ⟨0, 0⟩
    let calls := result.2
    let most := limits.maxSenders.toNat * (limits.maxSenders.toNat - 1) / 2 *
      limits.maxSharesPerMessage.toNat ^ 2
    result.1 = ((h.tryMatch combiner token candidate).1.matched,
      (h.tryMatch combiner token candidate).2) ∧
    ((∀ identity auxiliary, candidate.decompress ≠ .ok (identity, auxiliary)) ∨
      h.senderCount token < 2 → calls = ⟨0, 0⟩) ∧
    (∀ identity auxiliary messages, candidate.decompress = .ok (identity, auxiliary) →
      h.messages? token = some messages → 2 ≤ h.senderCount token →
      ∃ order : List (Place × ShareEntry × ShareEntry),
        (order.Pairwise fun a b => a.1.Before b.1) ∧
        (∀ p x y, (p, x, y) ∈ order ↔ p.first < p.second ∧ ∃ first second,
          messages[p.first]? = some first ∧ messages[p.second]? = some second ∧
            first.entries[p.x]? = some x ∧ second.entries[p.y]? = some y) ∧
        order.length = ∑ j ∈ Finset.range messages.length, ∑ i ∈ Finset.range j,
          (messages.map fun m => m.entries.length).getD i 0 *
            (messages.map fun m => m.entries.length).getD j 0 ∧
        order.length ≤ most ∧
        (∀ before p x y after, order = before ++ (p, x, y) :: after →
          combiner.Matches identity auxiliary x y →
          (∀ p x y, (p, x, y) ∈ before → ¬ combiner.Matches identity auxiliary x y) →
          calls.combines = before.length + 1) ∧
        ((∀ p x y, (p, x, y) ∈ order → ¬ combiner.Matches identity auxiliary x y) →
          calls.combines = order.length) ∧
        calls.derives = (order.take calls.combines).countP fun (_, x, y) =>
          (combiner.combine x y).isOk) ∧
    calls.combines ≤ most := by
  intro h result calls most
  have ha : h.Admitted limits := admitted_run combiner (History.admitted_empty limits) actions
  have hw := ha.toWellFormed
  have hrun := h.run_countedTryMatch combiner token candidate ⟨0, 0⟩
  have hcalls : calls = ⟨(h.tryMatch combiner token candidate).1.combines,
      (h.tryMatch combiner token candidate).1.derives⟩ := by
    refine (congrArg Prod.snd hrun).trans ?_
    rw [CallCount.plus, Nat.zero_add, Nat.zero_add]
  rw [hcalls]
  refine ⟨congrArg Prod.fst hrun, ?_, ?_, ha.combines_tryMatch_le⟩
  · intro hfew
    rw [History.tryMatch_eq_none hw hfew]
    rfl
  · intro identity auxiliary messages hkeys hmessages htwo
    rw [History.tryMatch_eq_search hw hkeys hmessages htwo]
    refine ⟨placed messages, pairwise_placed messages, fun p x y => mem_placed_iff,
      length_placed messages, ha.length_placed_le hmessages, ?_, ?_, ?_⟩
    · intro before p x y after horder hmatch hmiss
      exact Combiner.combines_search_placed_of_first horder hmatch hmiss
    · exact Combiner.combines_search_placed_of_none
    · exact Combiner.derives_search_placed

/-- Two senders of two entries each, all of which match: one of the four combinations is tried. -/
theorem tryMatch_effort_at_once :
    ∃ (combiner : Combiner) (token : ScanToken) (actions : List MatcherAction)
      (candidate : AbAddress),
      let h := ((fresh .standard).run combiner actions).history
      let calls := ((h.countedTryMatch combiner token candidate).run ⟨0, 0⟩).2
      h.senderCount token = 2 ∧ calls.combines = 1 ∧ calls.derives = 1 := by
  let combiner : Combiner := ⟨fun _ _ => .ok systemKey, fun _ _ => .ok systemKey⟩
  let token : ScanToken := ⟨List.replicate 132 '0', by simp [isAscii], List.length_replicate⟩
  let entry : ShareEntry := ⟨token.text⟩
  let data : List Char := ShareEntry.join [entry, entry]
  let actions : List MatcherAction := [.recordShares token 1 data 0, .recordShares token 2 data 0]
  let h := ((fresh .standard).run combiner actions).history
  have hmessages : h.messages? token = some [⟨1, [entry, entry]⟩, ⟨2, [entry, entry]⟩] := by
    decide +kernel
  have hcount : h.senderCount token = 2 := by decide +kernel
  obtain ⟨-, -, hcounts, -⟩ :=
    tryMatch_effort combiner .standard actions token (.ofKeys systemKey systemKey)
  obtain ⟨order, -, hmem, -, -, hfirst, -, hderives⟩ := hcounts systemKey systemKey _
    (AbAddress.decompress_ofKeys _ _) hmessages (Nat.le_of_eq hcount.symm)
  have hoffered : (⟨0, 1, 0, 0⟩, entry, entry) ∈ order :=
    (hmem _ _ _).2 ⟨Nat.zero_lt_one, _, _, rfl, rfl, rfl, rfl⟩
  obtain ⟨⟨p, x, y⟩, later, rfl⟩ := List.exists_cons_of_ne_nil (List.ne_nil_of_mem hoffered)
  have hcombines := hfirst [] p x y later rfl ⟨systemKey, rfl, rfl⟩
    fun _ _ _ hnone => absurd hnone List.not_mem_nil
  refine ⟨combiner, token, actions, .ofKeys systemKey systemKey, hcount, hcombines, ?_⟩
  exact hderives.trans (by rw [hcombines]; rfl)

end Matcher

end LinkCommittee
