import LinkCommittee.Proofs.History.Contents
import LinkCommittee.Proofs.History.Representation
import Mathlib.Data.List.TakeDrop

/-!
# Generations tell replaced tokens

Whoever looked at a token may mark it later, and the mark takes effect exactly if the
token was not dropped in the meantime, even if it has come back since.  Two facts meet
here.  A token that stays tracked keeps its generation, and its messages are only added
to.  A token that was untracked at some moment has begun anew after it, so its generation
is at least the next one of that moment (`History.nextGeneration_le_of_untracked`).

A token is dropped by a call in one of three ways (`History.Drops`), and in no other
(`History.drops_iff`).  Main statement: `History.markMatched_of_snapshot`.
-/

namespace LinkCommittee.History

variable {h h' : History} {token : ScanToken} {t : TrackedToken}

/-! ### The ways to drop a token -/

/-- A call drops a tracked token: it evicts the token; or it prunes when the token has been tracked
for longer than the lifetime; or it records for a token that is new, and the tracked one stands so
near the front of the queue that it has to make room. -/
inductive Drops (h : History) (token : ScanToken) : HistoryCall → Prop
  | evicted (tracked : (h.find? token).isSome = true) : Drops h token (.evict token)
  | expired {t : TrackedToken} {lifetime : Duration} {now : Nat}
      (tracked : h.find? token = some t) (limited : h.limits.lifetime = some lifetime)
      (outlived : lifetime.toNanos < now - t.firstSeen) : Drops h token (.prune now)
  | crowdedOut {other : ScanToken} {sender : UInt64} {entries : List ShareEntry} {now : Nat}
      (new : h.find? other = none)
      (front : token ∈ h.order.take (h.size + 1 - h.limits.maxTokens.toNat)) :
      Drops h token (.record other sender entries now)

/-- Where the tokens with some property are kept, a token is dropped if it has it not. -/
theorem find?_eq_none_iff_of_filter (hw : h.WellFormed) (ht : h.find? token = some t)
    {p : TrackedToken → Bool} (hkept : h'.tracked = h.tracked.filter p) :
    h'.find? token = none ↔ p t = false := by
  obtain ⟨hmem, htoken⟩ := mem_of_find? ht
  rw [find?_eq_none_iff, hkept]
  constructor
  · intro hgone
    by_contra hp
    rw [Bool.not_eq_false] at hp
    exact hgone (List.mem_map.2 ⟨t, List.mem_filter.2 ⟨hmem, hp⟩, htoken⟩)
  · intro hp hstays
    obtain ⟨t', ht', htoken'⟩ := List.mem_map.1 hstays
    obtain ⟨hmem', hp'⟩ := List.mem_filter.1 ht'
    have hfound' : h.find? token = some t' := (find?_eq_some_iff hw).2 ⟨hmem', htoken'⟩
    rw [ht] at hfound'
    cases hfound'
    rw [hp] at hp'
    contradiction

/-- A tracked token is gone after an eviction exactly if it was the one. -/
theorem find?_evict_eq_none_iff (hw : h.WellFormed) (ht : h.find? token = some t)
    (token' : ScanToken) : (h.evict token').2.find? token = none ↔ token' = token := by
  obtain ⟨-, htoken⟩ := mem_of_find? ht
  unfold evict
  split
  · rw [find?_eq_none_iff_of_filter hw ht rfl, decide_eq_false_iff_not, not_not, htoken]
    exact eq_comm
  next huntracked =>
    rw [ht]
    refine iff_of_false (Option.some_ne_none t) ?_
    rintro rfl
    rw [ht] at huntracked
    exact huntracked rfl

/-- A tracked token is gone after pruning exactly if its lifetime was over. -/
theorem find?_prune_eq_none_iff (hw : h.WellFormed) (ht : h.find? token = some t) (now : Nat) :
    (h.prune now).2.find? token = none ↔
      ∃ lifetime, h.limits.lifetime = some lifetime ∧ lifetime.toNanos < now - t.firstSeen := by
  unfold prune
  split
  next hforever => simp [ht, hforever]
  next lifetime hlifetime =>
    rw [find?_eq_none_iff_of_filter hw ht rfl, hlifetime, Bool.not_eq_false',
      TrackedToken.expired, decide_eq_true_eq]
    simp

/-- Beginning to track a token drops those that stand in front of the queue, as many as are too
many with the new one. -/
theorem Represented.find?_track_eq_none_iff (hr : h.Represented) (ht : h.find? token = some t)
    {other : ScanToken} (hne : other ≠ token) (now : Nat) :
    (h.track other now).find? token = none ↔
      token ∈ h.order.take (h.size + 1 - h.limits.maxTokens.toNat) := by
  have hqueued : token ∈ h.order := by
    rw [hr.order_eq, ← isSome_find?_iff, ht]
    rfl
  have hnodup : h.order.Nodup := by
    rw [hr.order_eq]
    exact hr.nodup_tokens
  rw [find?_track_eq_makeRoom hne, find?_eq_none_iff, hr.makeRoom_eq]
  dsimp only
  rw [List.map_drop, ← hr.order_eq]
  constructor
  · intro hgone
    rw [← List.take_append_drop (h.size + 1 - h.limits.maxTokens.toNat) h.order,
      List.mem_append] at hqueued
    exact hqueued.resolve_right hgone
  · intro hfront hstays
    exact List.disjoint_take_drop hnodup (Nat.le_refl _) hfront hstays

/-- **A token that is tracked before a call is untracked after it exactly if the call drops it.** -/
theorem drops_iff (hr : h.Represented) (ht : h.find? token = some t) (call : HistoryCall) :
    (h.step call).find? token = none ↔ h.Drops token call := by
  have hw := hr.toWellFormed
  cases call with
  | record other sender entries now =>
    rw [find?_step_record, Option.map_eq_none_iff]
    by_cases hnew : h.find? other = none
    · have hne : other ≠ token := by
        rintro rfl
        rw [ht] at hnew
        contradiction
      rw [ensure_of_none hnew, hr.find?_track_eq_none_iff ht hne]
      constructor
      · exact fun hfront => .crowdedOut hnew hfront
      · rintro ⟨⟩
        assumption
    · obtain ⟨t', ht'⟩ := Option.ne_none_iff_exists'.1 hnew
      rw [ensure_of_some ht', ht]
      refine iff_of_false (Option.some_ne_none t) ?_
      rintro ⟨⟩
      contradiction
  | markMatched token' generation =>
    rw [find?_step_markMatched, ht]
    exact iff_of_false (Option.some_ne_none _) (fun hdrops => nomatch hdrops)
  | evict token' =>
    rw [step, find?_evict_eq_none_iff hw ht]
    constructor
    · rintro rfl
      exact .evicted (by rw [ht]; rfl)
    · rintro ⟨⟩
      rfl
  | prune now =>
    rw [step, find?_prune_eq_none_iff hw ht]
    constructor
    · rintro ⟨lifetime, hlifetime, houtlived⟩
      exact .expired ht hlifetime houtlived
    · rintro (_ | ⟨ht', hlifetime, houtlived⟩)
      rw [ht] at ht'
      cases ht'
      exact ⟨_, hlifetime, houtlived⟩

/-- A token stays tracked over some calls exactly if none of them drops it. -/
theorem stays_tracked_iff (hr : h.Represented) (ht : h.find? token = some t)
    (calls : List HistoryCall) :
    (∀ front, front <+: calls → ((h.run front).find? token).isSome = true) ↔
      ∀ front call back, calls = front ++ call :: back → ¬(h.run front).Drops token call := by
  have hstep (front : List HistoryCall) (call : HistoryCall)
      (htracked : ((h.run front).find? token).isSome = true) :
      ((h.run (front ++ [call])).find? token).isSome = true ↔
        ¬(h.run front).Drops token call := by
    obtain ⟨t', ht'⟩ := Option.isSome_iff_exists.1 htracked
    rw [run_append, run_cons, run_nil, ← drops_iff (hr.run front) ht', Option.isSome_iff_ne_none]
  constructor
  · rintro hstays front call back rfl
    have htracked := hstays front (List.prefix_append _ _)
    have hlater := hstays (front ++ [call]) ⟨back, by simp⟩
    exact (hstep front call htracked).1 hlater
  · intro hkept front
    induction front using List.reverseRecOn with
    | nil =>
      intro _
      rw [run_nil, ht]
      rfl
    | append_singleton front call ih =>
      rintro ⟨back, rfl⟩
      rw [List.append_assoc, List.singleton_append] at ih hkept
      exact (hstep front call (ih (List.prefix_append _ _))).2 (hkept front call back rfl)

/-! ### What a generation tells -/

/-- A token that was untracked at some moment has, if it is tracked later, a generation that was not
given before that moment. -/
theorem nextGeneration_le_of_untracked (hw : h.WellFormed) {count : Nat} (hn : h.Numbered count)
    (hnone : h.find? token = none) {calls : List HistoryCall}
    (hbound : count + h.starts calls < 2 ^ 64) (ht : (h.run calls).find? token = some t) :
    count ≤ t.generation.toNat := by
  have htracked : ((h.run calls).find? token).isSome = true := by
    rw [ht]
    rfl
  obtain ⟨before, since, rfl, hsince⟩ := exists_trackedSince hnone htracked
  obtain ⟨_, _, _, _, -, t', ht', hholds⟩ := hsince.exists_holds hw
  rw [ht] at ht'
  cases ht'
  rw [starts_append] at hbound
  have hnext : (h.run before).nextGeneration.toNat = count + h.starts before :=
    (hn.run (by omega)).next
  rw [hholds.generation_eq, hnext]
  exact Nat.le_add_right _ _

/-- **The generation tells whether a token stayed tracked.**  Each tracking takes a number of its
own, so a token that is found under its old number was never dropped in between. -/
theorem same_generation_iff (hr : h.Represented) {count : Nat} (hn : h.Numbered count)
    (ht : h.find? token = some t) {calls : List HistoryCall}
    (hbound : count + h.starts calls < 2 ^ 64) :
    (((h.run calls).find? token).any fun t' => t'.generation = t.generation) = true ↔
      ∀ front, front <+: calls → ((h.run front).find? token).isSome = true := by
  have hw := hr.toWellFormed
  constructor
  · rintro hsame front ⟨back, rfl⟩
    obtain ⟨t', ht', hgeneration⟩ := (Option.any_eq_true _ _).1 hsame
    by_contra huntracked
    rw [Bool.not_eq_true, Option.isSome_eq_false_iff, Option.isNone_iff_eq_none] at huntracked
    rw [starts_append] at hbound
    rw [run_append] at ht'
    -- a start of tracking after `front` gets a generation that no token had before
    have hnew := nextGeneration_le_of_untracked (hw.run front) (hn.run (by omega)) huntracked
      (by omega) ht'
    have hold : t.generation.toNat < count := by
      rw [← hn.next]
      exact hn.below _ (List.mem_map_of_mem (mem_of_find? ht).1)
    rw [of_decide_eq_true hgeneration] at hnew
    omega
  · intro hstays
    rw [find?_run hw ht hstays, Option.any_some]
    exact decide_eq_true (t.becomes_foldl _ calls).generation

/-! ### What marking changes -/

/-- All that tells one history from another is that a token is matched now. -/
structure MatchedOnly (h : History) (token : ScanToken) (h' : History) : Prop where
  limits : h'.limits = h.limits
  nextGeneration : h'.nextGeneration = h.nextGeneration
  order : h'.order = h.order
  tokens : h'.tracked.map TrackedToken.token = h.tracked.map TrackedToken.token
  others : ∀ other, other ≠ token → h'.find? other = h.find? other
  matched : ∃ t, h.find? token = some t ∧ h'.find? token = some { t with state := .matched }

/-- A match is marked exactly if the token is tracked under that number. -/
theorem markMatched_eq_true_iff {generation : UInt64} :
    (h.markMatched token generation).1 = true ↔
      ((h.find? token).any fun t => t.generation = generation) = true := by
  unfold markMatched
  split <;> simp_all

/-- A match that is not marked changes nothing. -/
theorem markMatched_of_false {generation : UInt64}
    (hfalse : (h.markMatched token generation).1 = false) :
    (h.markMatched token generation).2 = h := by
  unfold markMatched at hfalse ⊢
  split at hfalse
  · contradiction
  next hother => rw [if_neg hother]

/-- A match that is marked changes one token and nothing else of it. -/
theorem markMatched_of_true {generation : UInt64}
    (htrue : (h.markMatched token generation).1 = true) :
    h.MatchedOnly token (h.markMatched token generation).2 := by
  have hmarked := markMatched_eq_true_iff.1 htrue
  obtain ⟨t, ht, -⟩ := (Option.any_eq_true _ _).1 hmarked
  unfold markMatched
  rw [if_pos hmarked]
  have htoken : ∀ t : TrackedToken, ({ t with state := .matched } : TrackedToken).token = t.token :=
    fun _ => rfl
  refine ⟨rfl, rfl, rfl, map_tracked_update htoken, fun other hother => ?_, t, ht, ?_⟩
  · rw [find?_update_eq htoken]
    cases hfound : h.find? other with
    | none => rfl
    | some t' =>
      have hne : t'.token ≠ token := by rwa [(mem_of_find? hfound).2]
      rw [Option.map_some, if_neg hne]
  · rw [find?_update htoken, ht]
    rfl

/-- **A generation marks its token until the token is dropped.**  Take the generation and the
messages of a token at one moment of a run and mark the token at a later one.  Unless the numbers of
64 bits were used up, the mark takes effect exactly if none of the calls in between dropped the
token.  The messages taken are then the first ones of those held now, and nothing changes but the
state of the token; otherwise nothing changes at all. -/
theorem markMatched_of_snapshot {limits : HistoryLimits} {before between : List HistoryCall}
    {token : ScanToken} {generation : UInt64} {messages : List SenderShares}
    (hsnapshot : ((empty limits).run before).snapshot? token = some (generation, messages))
    (hbound : (empty limits).starts (before ++ between) < 2 ^ 64) :
    let h := (empty limits).run (before ++ between)
    let marked := h.markMatched token generation
    (marked.1 = true ↔ ∀ front call back, between = front ++ call :: back →
      ¬((empty limits).run (before ++ front)).Drops token call) ∧
    (marked.1 = true → h.MatchedOnly token marked.2 ∧
      ∃ held, h.messages? token = some held ∧ messages <+: held) ∧
    (marked.1 = false → marked.2 = h) := by
  intro h marked
  obtain ⟨t, ht, hmade⟩ := Option.map_eq_some_iff.1 hsnapshot
  cases hmade
  have hr : ((empty limits).run before).Represented := (represented_empty limits).run before
  rw [starts_append] at hbound
  have hbefore : 0 + (empty limits).starts before < 2 ^ 64 := by omega
  have hn := (numbered_empty limits).run hbefore
  rw [Nat.zero_add] at hn
  have hrun (calls : List HistoryCall) :
      (empty limits).run (before ++ calls) = ((empty limits).run before).run calls :=
    run_append _ _ _
  have hstays : marked.1 = true ↔ ∀ front, front <+: between →
      ((((empty limits).run before).run front).find? token).isSome = true := by
    rw [markMatched_eq_true_iff, ← same_generation_iff hr hn ht hbound, ← hrun]
  refine ⟨?_, fun htrue => ⟨markMatched_of_true htrue, ?_⟩, markMatched_of_false⟩
  · simp only [hstays, stays_tracked_iff hr ht, hrun]
  · have hlater := find?_run hr.toWellFormed ht (hstays.1 htrue)
    rw [← hrun] at hlater
    exact ⟨_, by rw [messages?, hlater, Option.map_some], (t.becomes_foldl _ between).messages⟩

set_option maxRecDepth 4000 in
/-- There is room for one token.  It is marked after another sender has spoken for it; but a record
for another token crowds it out, and when it has come back its old generation marks nothing. -/
theorem markMatched_of_snapshot_replaced :
    ∃ (limits : HistoryLimits) (token other : ScanToken) (before kept replaced : List HistoryCall),
      let h := (empty limits).run (before ++ kept)
      let h' := (empty limits).run (before ++ replaced)
      ((empty limits).run before).snapshot? token = some (0, [⟨1, []⟩]) ∧
        (empty limits).starts (before ++ kept) = 1 ∧ (h.markMatched token 0).1 = true ∧
        h.MatchedOnly token (h.markMatched token 0).2 ∧
        (∃ held, h.messages? token = some held ∧ [⟨1, []⟩] <+: held) ∧
        (empty limits).starts (before ++ replaced) = 3 ∧
        ((empty limits).run before).Drops token (.record other 1 [] 0) ∧
        h'.messages? token = some [⟨1, []⟩] ∧ (h'.markMatched token 0).2 = h' := by
  let token (symbol : Char) (hascii : isAscii symbol = true) : ScanToken :=
    ⟨List.replicate 132 symbol, by simp [hascii], List.length_replicate⟩
  let first := token 'a' rfl
  let other := token 'b' rfl
  let limits : HistoryLimits := ⟨1, 2, 1, none⟩
  let before : List HistoryCall := [.record first 1 [] 0]
  let kept : List HistoryCall := [.record first 2 [] 0]
  let replaced : List HistoryCall := [.record other 1 [] 0, .record first 1 [] 0]
  have hsnapshot : ((empty limits).run before).snapshot? first = some (0, [⟨1, []⟩]) := by decide
  have hkept : (empty limits).starts (before ++ kept) = 1 := by decide
  have hreplaced : (empty limits).starts (before ++ replaced) = 3 := by decide
  have hcontents : ((empty limits).run (before ++ replaced)).messages? first =
      some [⟨1, []⟩] := by decide
  obtain ⟨-, hmarks, -⟩ := markMatched_of_snapshot hsnapshot (by rw [hkept]; decide)
  obtain ⟨hexact, -, hunchanged⟩ := markMatched_of_snapshot hsnapshot (by rw [hreplaced]; decide)
  have hmarked : (((empty limits).run (before ++ kept)).markMatched first 0).1 = true := by decide
  have hdrops : ((empty limits).run before).Drops first (.record other 1 [] 0) :=
    .crowdedOut (by decide) (by decide)
  have hstale : (((empty limits).run (before ++ replaced)).markMatched first 0).1 = false := by
    rw [← Bool.not_eq_true, hexact]
    exact fun hnever => hnever [] _ _ rfl hdrops
  exact ⟨limits, first, other, before, kept, replaced, hsnapshot, hkept, hmarked,
    (hmarks hmarked).1, (hmarks hmarked).2, hreplaced, hdrops, hcontents, hunchanged hstale⟩

end LinkCommittee.History
