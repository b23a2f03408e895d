import LinkCommittee.Proofs.History.Runs
import Mathlib.Algebra.Group.Nat.Defs

/-!
# The representation of the share history

A history holds each thing twice: its tokens in the table and in the queue, the senders
of a token in a set and in its messages.  Every operation updates both, each in its own
way: room is made from the front of the queue, one token is dropped from table and queue
by its name, and pruning drops from the queue what the table no longer holds.  What
keeps them together is that the queue names the tokens of the table in the order of the
table (`History.Represented`), so that the front of the queue is also the front of the
table (`History.dropOldest_map_token`).

Main statement: `History.represented_run`, which holds under all limits, also those
that `HistoryLimits.new` refuses.
-/

namespace LinkCommittee

/-- A message is not recorded beyond the sender limit. -/
theorem TrackedToken.length_messages_record {t : TrackedToken} {limit : Nat}
    (hle : t.messages.length ≤ limit) (sender : UInt64) (entries : List ShareEntry) :
    (t.record limit sender entries).2.messages.length ≤ limit := by
  unfold record
  split
  · exact hle
  split
  · exact hle
  next hroom =>
    rw [List.length_append, List.length_singleton]
    omega

namespace History

variable {h : History}

/-- Queue and table hold the same tokens in the same order, and the limits are kept. -/
structure Represented (h : History) : Prop extends WellFormed h where
  order_eq : h.order = h.tracked.map TrackedToken.token
  size_le : h.size ≤ max 1 h.limits.maxTokens.toNat
  messages_le : ∀ t ∈ h.tracked, t.messages.length ≤ h.limits.maxSenders.toNat

/-- Queue and table start out alike, and empty. -/
theorem represented_empty (limits : HistoryLimits) : (empty limits).Represented where
  toWellFormed := wellFormed_empty limits
  order_eq := rfl
  size_le := Nat.zero_le _
  messages_le := fun _ ht => nomatch ht

/-- The queue is as long as the table has tokens. -/
theorem Represented.length_order (hr : h.Represented) : h.order.length = h.size := by
  rw [hr.order_eq, List.length_map, size]

/-! ### Making room -/

/-- To take out a token that stands first and nowhere else leaves the rest. -/
theorem filter_token_eq_self {t : TrackedToken} {rest : List TrackedToken}
    (hnodup : ((t :: rest).map TrackedToken.token).Nodup) :
    ((t :: rest).filter fun t' => t'.token ≠ t.token) = rest := by
  have hnew : t.token ∉ rest.map TrackedToken.token := (List.nodup_cons.1 hnodup).1
  have hkept : ∀ t' ∈ rest, decide (t'.token ≠ t.token) = true := fun t' ht' =>
    decide_eq_true fun heq => hnew (heq ▸ List.mem_map_of_mem ht')
  rw [List.filter_cons_of_neg (by simp), List.filter_eq_self.2 hkept]

/-- While queue and table agree, making room drops the same number of tokens from the front of
both. -/
theorem dropOldest_map_token (limit : Nat) (tracked : List TrackedToken)
    (hnodup : (tracked.map TrackedToken.token).Nodup) :
    dropOldest limit (tracked.map TrackedToken.token) tracked =
      ((tracked.drop (tracked.length + 1 - limit)).map TrackedToken.token,
        tracked.drop (tracked.length + 1 - limit)) := by
  induction tracked with
  | nil => simp
  | cons t rest ih =>
    rw [List.map_cons, dropOldest]
    by_cases hfull : limit ≤ (t :: rest).length
    · have hmore : (t :: rest).length + 1 - limit = (rest.length + 1 - limit) + 1 := by
        rw [List.length_cons] at hfull ⊢
        omega
      rw [if_pos hfull, filter_token_eq_self hnodup, ih (List.nodup_cons.1 hnodup).2, hmore,
        List.drop_succ_cons]
    · have hnone : (t :: rest).length + 1 - limit = 0 := by omega
      rw [if_neg hfull, hnone, List.drop_zero, List.map_cons]

/-- Room is made by dropping the oldest tokens, as many as are too many for one more. -/
theorem Represented.makeRoom_eq (hr : h.Represented) :
    h.makeRoom = { h with
      tracked := h.tracked.drop (h.size + 1 - h.limits.maxTokens.toNat)
      order := (h.tracked.drop (h.size + 1 - h.limits.maxTokens.toNat)).map
        TrackedToken.token } := by
  simp only [makeRoom, hr.order_eq, dropOldest_map_token _ _ hr.nodup_tokens]
  rfl

/-- A token that is tracked joins the queue and the table at the same end. -/
theorem Represented.order_track (hr : h.Represented) (token : ScanToken) (now : Nat) :
    (h.track token now).order = (h.track token now).tracked.map TrackedToken.token := by
  simp only [track, hr.makeRoom_eq, List.map_append]
  rfl

/-- Tracking keeps to the token limit, save that the token itself always stays. -/
theorem Represented.size_track (hr : h.Represented) (token : ScanToken) (now : Nat) :
    (h.track token now).size ≤ max 1 h.limits.maxTokens.toNat := by
  simp only [size, track, hr.makeRoom_eq, List.length_append, List.length_drop,
    List.length_singleton]
  omega

/-! ### Every operation -/

/-- A history has as many tokens as there are names of tokens in its table. -/
theorem size_eq_of_map_token {h' : History}
    (htokens : h'.tracked.map TrackedToken.token = h.tracked.map TrackedToken.token) :
    h'.size = h.size := by
  have hlength := congrArg List.length htokens
  rwa [List.length_map, List.length_map] at hlength

/-- A recorded message keeps queue and table alike. -/
theorem Represented.record (hr : h.Represented) (token : ScanToken) (sender : UInt64)
    (entries : List ShareEntry) (now : Nat) :
    (h.record token sender entries now).2.Represented := by
  have hlimits : (h.record token sender entries now).2.limits = h.limits :=
    limits_step h (.record token sender entries now)
  have htokens := map_token_record h token sender entries now
  have hensure : (h.ensure token now).order =
        (h.ensure token now).tracked.map TrackedToken.token ∧
      (h.ensure token now).size ≤ max 1 h.limits.maxTokens.toNat := by
    unfold ensure
    split
    · exact ⟨hr.order_eq, hr.size_le⟩
    · exact ⟨hr.order_track token now, hr.size_track token now⟩
  refine ⟨hr.toWellFormed.record, ?_, ?_, ?_⟩
  · rw [htokens, ← hensure.1, History.record, recordTracked_tracked (find?_ensure h token now)]
    rfl
  · rw [hlimits, size_eq_of_map_token htokens]
    exact hensure.2
  · intro t' ht'
    rw [hlimits]
    obtain ⟨t, ht, ht'⟩ := mem_tracked_record ht'
    have hle : t.messages.length ≤ h.limits.maxSenders.toNat := by
      rcases ht with ht | ⟨-, rfl⟩
      · exact hr.messages_le t ht
      · exact Nat.zero_le _
    rcases ht' with rfl | ⟨-, rfl⟩
    · exact hle
    · exact t.length_messages_record hle sender entries

/-- A match that is marked keeps queue and table alike. -/
theorem Represented.markMatched (hr : h.Represented) (token : ScanToken) (generation : UInt64) :
    (h.markMatched token generation).2.Represented := by
  have htokens := map_tracked_markMatched TrackedToken.token (fun _ => rfl) h token generation
  have hlimits : (h.markMatched token generation).2.limits = h.limits :=
    limits_step h (.markMatched token generation)
  have horder : (h.markMatched token generation).2.order = h.order := by
    unfold History.markMatched
    split <;> rfl
  refine ⟨hr.toWellFormed.markMatched token generation, ?_, ?_, ?_⟩
  · rw [horder, htokens, hr.order_eq]
  · rw [hlimits, size_eq_of_map_token htokens]
    exact hr.size_le
  · intro t' ht'
    rw [hlimits]
    obtain ⟨t, ht, rfl | ⟨-, -, rfl⟩⟩ := mem_tracked_markMatched hr.toWellFormed ht'
    · exact hr.messages_le t' ht
    · exact hr.messages_le t ht

/-- Dropping tokens keeps the representation if the queue drops the same ones. -/
theorem Represented.sublist {h' : History} (hr : h.Represented) (hlimits : h'.limits = h.limits)
    (hsub : h'.tracked.Sublist h.tracked)
    (horder : h'.order = h'.tracked.map TrackedToken.token) : h'.Represented where
  toWellFormed := hr.toWellFormed.sublist hsub
  order_eq := horder
  size_le := by
    rw [hlimits]
    exact Nat.le_trans hsub.length_le hr.size_le
  messages_le := by
    rw [hlimits]
    exact fun t ht => hr.messages_le t (hsub.subset ht)

/-- An eviction keeps queue and table alike. -/
theorem Represented.evict (hr : h.Represented) (token : ScanToken) :
    (h.evict token).2.Represented := by
  refine hr.sublist (limits_step h (.evict token)) (evict_sublist h token) ?_
  unfold History.evict
  split
  · simp only [hr.order_eq, List.filter_map]
    rfl
  · exact hr.order_eq

/-- A token stays in the queue exactly if it stays in the table. -/
theorem any_token_eq_iff (hw : h.WellFormed) {t : TrackedToken} (ht : t ∈ h.tracked)
    (p : TrackedToken → Bool) :
    ((h.tracked.filter p).any fun t' => t'.token = t.token) = p t := by
  rw [Bool.eq_iff_iff, List.any_eq_true]
  constructor
  · rintro ⟨t', ht', htoken⟩
    obtain ⟨hmem, hp⟩ := List.mem_filter.1 ht'
    rwa [List.inj_on_of_nodup_map hw.nodup_tokens hmem ht (of_decide_eq_true htoken)] at hp
  · intro hp
    exact ⟨t, List.mem_filter.2 ⟨ht, hp⟩, decide_eq_true rfl⟩

/-- Pruning keeps queue and table alike. -/
theorem Represented.prune (hr : h.Represented) (now : Nat) : (h.prune now).2.Represented := by
  refine hr.sublist (limits_step h (.prune now)) (prune_sublist h now) ?_
  unfold History.prune
  split
  · exact hr.order_eq
  · simp only [hr.order_eq, List.filter_map]
    congr 1
    exact List.filter_congr fun t ht => any_token_eq_iff hr.toWellFormed ht _

/-- **Every call keeps queue and table alike.**  A call adds a token to both at the same end, or
takes the same tokens out of both. -/
theorem Represented.step (hr : h.Represented) (call : HistoryCall) :
    (h.step call).Represented := by
  cases call with
  | record token sender entries now => exact hr.record token sender entries now
  | markMatched token generation => exact hr.markMatched token generation
  | evict token => exact hr.evict token
  | prune now => exact hr.prune now

/-- Queue and table that are alike are so after any calls. -/
theorem Represented.run (hr : h.Represented) (calls : List HistoryCall) :
    (h.run calls).Represented := by
  induction calls generalizing h with
  | nil => exact hr
  | cons call calls ih => exact ih (hr.step call)

/-! ### Generations -/

/-- So many trackings began so far, each with the next number, and the tokens left stand in the
order in which theirs began. -/
structure Numbered (h : History) (count : Nat) : Prop where
  next : h.nextGeneration.toNat = count
  ascending : (h.tracked.map TrackedToken.generation).Pairwise (· < ·)
  below : ∀ generation ∈ h.tracked.map TrackedToken.generation, generation < h.nextGeneration

/-- Before the first tracking no number was given. -/
theorem numbered_empty (limits : HistoryLimits) : (empty limits).Numbered 0 :=
  ⟨rfl, List.Pairwise.nil, fun _ hmem => nomatch hmem⟩

/-- A call keeps the generations of tokens, drops some, and appends the next one if the tracking of
a token begins. -/
theorem map_generation_step (h : History) (call : HistoryCall) :
    ((h.step call).tracked.map TrackedToken.generation).Sublist
      (h.tracked.map TrackedToken.generation ++
        if h.begins call then [h.nextGeneration] else []) := by
  cases call with
  | record token sender entries now =>
    rw [step, record, recordTracked_tracked (find?_ensure h token now),
      map_tracked_update fun t => (t.becomes_record _ sender entries).generation, ensure, begins]
    cases h.find? token with
    | some t => exact List.sublist_append_left _ _
    | none =>
      rw [if_neg (by simp), if_pos (by simp), track_tracked, List.map_append]
      exact ((makeRoom_sublist h).map _).append_right _
  | markMatched token generation =>
    rw [step, map_tracked_markMatched _ fun _ => rfl]
    exact List.sublist_append_left _ _
  | evict token => exact ((evict_sublist h token).map _).trans (List.sublist_append_left _ _)
  | prune now => exact ((prune_sublist h now).map _).trans (List.sublist_append_left _ _)

/-- A call gives a number exactly if it begins a tracking. -/
theorem Numbered.step {count : Nat} (hn : h.Numbered count) {call : HistoryCall}
    (hbound : count + (h.begins call).toNat < 2 ^ 64) :
    (h.step call).Numbered (count + (h.begins call).toNat) := by
  have hsub := map_generation_step h call
  have hnext := nextGeneration_step h call
  by_cases hbegins : h.begins call = true
  · rw [hbegins, if_pos rfl] at hsub hnext
    rw [hbegins, Bool.toNat_true] at hbound ⊢
    -- only here the number of starts matters: the next generation must not wrap to zero
    have hcount : (h.nextGeneration + 1).toNat = count + 1 := by
      rw [UInt64.toNat_add, hn.next]
      exact Nat.mod_eq_of_lt hbound
    have hgrown : h.nextGeneration < h.nextGeneration + 1 := by
      rw [UInt64.lt_iff_toNat_lt, hcount, hn.next]
      exact Nat.lt_succ_self count
    refine ⟨by rw [hnext, hcount], List.Pairwise.sublist hsub ?_, fun generation hmem => ?_⟩
    · refine List.pairwise_append.2 ⟨hn.ascending, List.pairwise_singleton _ _, ?_⟩
      intro generation hmem last hlast
      rw [List.mem_singleton.1 hlast]
      exact hn.below generation hmem
    · rw [hnext]
      rcases List.mem_append.1 (hsub.subset hmem) with hold | hnew
      · exact UInt64.lt_trans (hn.below generation hold) hgrown
      · rw [List.mem_singleton.1 hnew]
        exact hgrown
  · rw [Bool.not_eq_true] at hbegins
    rw [hbegins, if_neg Bool.false_ne_true] at hsub hnext
    rw [List.append_nil] at hsub
    rw [hbegins]
    refine ⟨by rw [hnext, hn.next]; rfl, hn.ascending.sublist hsub, fun generation hmem => ?_⟩
    rw [hnext]
    exact hn.below generation (hsub.subset hmem)

/-- Calls give as many numbers as there are trackings that they begin. -/
theorem Numbered.run {count : Nat} (hn : h.Numbered count) {calls : List HistoryCall}
    (hbound : count + h.starts calls < 2 ^ 64) :
    (h.run calls).Numbered (count + h.starts calls) := by
  induction calls generalizing h count with
  | nil => exact hn
  | cons call calls ih =>
    rw [starts, ← Nat.add_assoc] at hbound ⊢
    exact ih (hn.step (by omega)) hbound

/-- Along the queue the generations ascend. -/
theorem Represented.pairwise_order (hr : h.Represented) {count : Nat} (hn : h.Numbered count) :
    h.order.Pairwise fun older newer => ∀ t t', h.find? older = some t →
      h.find? newer = some t' → t.generation < t'.generation := by
  rw [hr.order_eq, List.pairwise_map]
  refine (List.pairwise_map.1 hn.ascending).imp_of_mem fun {s s'} hs hs' hlt t t' ht ht' => ?_
  have hfound := (find?_eq_some_iff hr.toWellFormed).2 ⟨hs, rfl⟩
  have hfound' := (find?_eq_some_iff hr.toWellFormed).2 ⟨hs', rfl⟩
  rw [Option.some.inj (ht.symm.trans hfound), Option.some.inj (ht'.symm.trans hfound')]
  exact hlt

/-- **Whatever is called, the history stays represented.**  After every run from the empty history,
under any limits, the queue holds each token of the table once and nothing else, the senders of a
token are those of its messages, each heard once and no more of them than the limit, and no more
tokens are tracked than the limit or one.  While fewer than `2 ^ 64` trackings began, the generations
ascend along the queue and the next one is above them all. -/
theorem represented_run (limits : HistoryLimits) (calls : List HistoryCall) :
    let h := (empty limits).run calls
    (h.order.Nodup ∧ (h.tracked.map TrackedToken.token).Nodup ∧
      ∀ token, token ∈ h.order ↔ (h.find? token).isSome = true) ∧
    ((empty limits).starts calls < 2 ^ 64 →
      h.nextGeneration.toNat = (empty limits).starts calls ∧
      (∀ token t, h.find? token = some t → t.generation < h.nextGeneration) ∧
      h.order.Pairwise fun older newer => ∀ t t', h.find? older = some t →
        h.find? newer = some t' → t.generation < t'.generation) ∧
    (∀ token t, h.find? token = some t →
      t.senders.Nodup ∧ (t.messages.map SenderShares.sender).Nodup ∧
      (∀ sender, sender ∈ t.senders ↔ sender ∈ t.messages.map SenderShares.sender) ∧
      t.messages.length ≤ limits.maxSenders.toNat) ∧
    h.size ≤ max 1 limits.maxTokens.toNat := by
  intro h
  have hr : h.Represented := (represented_empty limits).run calls
  have hlimits : h.limits = limits := limits_run (empty limits) calls
  refine ⟨⟨?_, hr.nodup_tokens, fun token => ?_⟩, fun hbound => ?_, fun token t ht => ?_, ?_⟩
  · rw [hr.order_eq]
    exact hr.nodup_tokens
  · rw [hr.order_eq, isSome_find?_iff]
  · have hn := (numbered_empty limits).run (by rwa [Nat.zero_add])
    rw [Nat.zero_add] at hn
    refine ⟨hn.next, fun token t ht => ?_, hr.pairwise_order hn⟩
    exact hn.below _ (List.mem_map_of_mem (mem_of_find? ht).1)
  · have hmem := (mem_of_find? ht).1
    have hcounted := hr.counted t hmem
    have hle := hr.messages_le t hmem
    rw [hlimits] at hle
    exact ⟨hcounted.perm.nodup_iff.2 hcounted.nodup, hcounted.nodup,
      fun sender => hcounted.perm.mem_iff, hle⟩
  · have hle := hr.size_le
    rwa [hlimits] at hle

/-- Room for two tokens and a third one comes; then the first comes back. -/
theorem represented_run_four_starts :
    ∃ (limits : HistoryLimits) (calls : List HistoryCall),
      let h := (empty limits).run calls
      (empty limits).starts calls = 4 ∧ h.order.length = 2 ∧ h.nextGeneration.toNat = 4 ∧
        (∃ token t, h.find? token = some t ∧ t.generation < h.nextGeneration) ∧
        h.order.Pairwise fun older newer => ∀ t t', h.find? older = some t →
          h.find? newer = some t' → t.generation < t'.generation := by
  let token (symbol : Char) (hascii : isAscii symbol = true) : ScanToken :=
    ⟨List.replicate 132 symbol, by simp [hascii], List.length_replicate⟩
  let first := token 'a' rfl
  let limits : HistoryLimits := ⟨2, 1, 0, some .zero⟩
  let calls : List HistoryCall :=
    [.record first 1 [] 0, .record (token 'b' rfl) 1 [] 0, .record (token 'c' rfl) 1 [] 0,
      .record first 2 [] 0]
  have hstarts : (empty limits).starts calls = 4 := by decide
  have hlength : ((empty limits).run calls).order.length = 2 := by decide
  have hfound : (((empty limits).run calls).find? first).isSome = true := by decide
  obtain ⟨t, ht⟩ := Option.isSome_iff_exists.1 hfound
  obtain ⟨-, hnumbered, -⟩ := represented_run limits calls
  obtain ⟨hnext, hbelow, hascending⟩ := hnumbered (by rw [hstarts]; decide)
  exact ⟨limits, calls, hstarts, hlength, hnext.trans hstarts, ⟨first, t, ht, hbelow first t ht⟩,
    hascending⟩

end History

end LinkCommittee
