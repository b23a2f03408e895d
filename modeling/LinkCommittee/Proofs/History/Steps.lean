import LinkCommittee.History.Basic
import Mathlib.Data.List.Nodup

/-!
# Steps of the share history

Each operation on the history is described by what becomes of a tracked token and by
which token it begins to track.  A token that stays tracked keeps its generation and
its messages, to which at most one is added, and a match is never taken back
(`TrackedToken.Becomes`).  No operation tracks a token twice or counts a sender twice
(`History.WellFormed`).
-/

namespace LinkCommittee

namespace TrackedToken

variable (t : TrackedToken) (limit : Nat) (sender : UInt64) (entries : List ShareEntry)

/-- Recording leaves a token as it is or adds the message of a sender not heard before. -/
theorem record_cases : (t.record limit sender entries).2 = t ∨
    (sender ∉ t.senders ∧
      (t.record limit sender entries).2 = { t with
        senders := t.senders.insert sender
        messages := t.messages ++ [⟨sender, entries⟩] }) := by
  unfold record
  split
  · exact .inl rfl
  next hnew =>
    split
    · exact .inl rfl
    · exact .inr ⟨hnew, rfl⟩

/-- What a token may become while it stays tracked. -/
structure Becomes (t t' : TrackedToken) : Prop where
  token : t'.token = t.token
  generation : t'.generation = t.generation
  firstSeen : t'.firstSeen = t.firstSeen
  messages : t.messages <+: t'.messages
  state : t.state = .matched → t'.state = .matched

/-- A token becomes itself. -/
theorem Becomes.refl : t.Becomes t := ⟨rfl, rfl, rfl, List.prefix_rfl, id⟩

/-- What a token becomes in two steps, it becomes. -/
theorem Becomes.trans {t t' t'' : TrackedToken} (h : t.Becomes t') (h' : t'.Becomes t'') :
    t.Becomes t'' where
  token := h'.token.trans h.token
  generation := h'.generation.trans h.generation
  firstSeen := h'.firstSeen.trans h.firstSeen
  messages := h.messages.trans h'.messages
  state := fun hmatched => h'.state (h.state hmatched)

/-- A token with one more message comes from the token without it. -/
theorem becomes_record : t.Becomes (t.record limit sender entries).2 := by
  rcases t.record_cases limit sender entries with h | ⟨-, h⟩
  · rw [h]
    exact .refl t
  · rw [h]
    exact ⟨rfl, rfl, rfl, List.prefix_append _ _, id⟩

/-- A matched token comes from the token as it was. -/
theorem becomes_matched : t.Becomes { t with state := .matched } :=
  ⟨rfl, rfl, rfl, List.prefix_rfl, fun _ => rfl⟩

/-- A message does not change whether a token is matched. -/
theorem state_record : (t.record limit sender entries).2.state = t.state := by
  rcases t.record_cases limit sender entries with h | ⟨-, h⟩ <;> rw [h]

/-- The senders counted for a token are those of its messages, each of which has another sender. -/
structure Counted (t : TrackedToken) : Prop where
  nodup : (t.messages.map SenderShares.sender).Nodup
  perm : t.senders.Perm (t.messages.map SenderShares.sender)

/-- A token that starts to be tracked has no senders and no messages. -/
theorem counted_start (token : ScanToken) (generation : UInt64) (now : Nat) :
    (start token generation now).Counted := ⟨List.nodup_nil, List.Perm.refl _⟩

/-- A match does not touch the senders. -/
theorem Counted.matched {t : TrackedToken} (h : t.Counted) :
    Counted { t with state := .matched } := ⟨h.nodup, h.perm⟩

/-- A recorded message adds its sender to the senders and itself to the messages. -/
theorem Counted.record {t : TrackedToken} (h : t.Counted) :
    (t.record limit sender entries).2.Counted := by
  rcases t.record_cases limit sender entries with hrecord | ⟨hnew, hrecord⟩
  · rwa [hrecord]
  · rw [hrecord]
    have hsenders : (t.messages ++ [SenderShares.mk sender entries]).map SenderShares.sender =
        t.messages.map SenderShares.sender ++ [sender] := by
      rw [List.map_append, List.map_singleton]
    constructor
    · rw [hsenders, List.nodup_append_comm]
      exact List.nodup_cons.2 ⟨fun hmem => hnew (h.perm.mem_iff.2 hmem), h.nodup⟩
    · rw [hsenders, List.insert_of_not_mem hnew]
      exact (h.perm.cons sender).trans (List.perm_append_singleton sender _).symm

end TrackedToken

namespace History

variable {h : History} {token : ScanToken}

/-- No token is tracked twice and no sender is counted twice. -/
structure WellFormed (h : History) : Prop where
  nodup_tokens : (h.tracked.map TrackedToken.token).Nodup
  counted : ∀ t ∈ h.tracked, t.Counted

/-- A history without tokens is well formed. -/
theorem wellFormed_empty (limits : HistoryLimits) : (empty limits).WellFormed :=
  ⟨List.nodup_nil, fun _ ht => nomatch ht⟩

/-- Dropping tokens keeps a history well formed. -/
theorem WellFormed.sublist {h' : History} (hw : h.WellFormed)
    (hsub : h'.tracked.Sublist h.tracked) : h'.WellFormed :=
  ⟨hw.nodup_tokens.sublist (hsub.map _), fun t ht => hw.counted t (hsub.subset ht)⟩

/-! ### Looking up a token -/

/-- A token that is found is in the table, under its own name. -/
theorem mem_of_find? {t : TrackedToken} (hfound : h.find? token = some t) :
    t ∈ h.tracked ∧ t.token = token :=
  ⟨List.mem_of_find?_eq_some hfound, by simpa using List.find?_some hfound⟩

/-- A token is not found exactly if no entry of the table has its name. -/
theorem find?_eq_none_iff : h.find? token = none ↔ token ∉ h.tracked.map TrackedToken.token := by
  simp [find?]

/-- A token is found exactly if an entry of the table has its name. -/
theorem isSome_find?_iff :
    (h.find? token).isSome = true ↔ token ∈ h.tracked.map TrackedToken.token := by
  rw [Option.isSome_iff_ne_none, ne_eq, find?_eq_none_iff, not_not]

/-- In a well-formed history a token is found wherever it stands. -/
theorem find?_eq_some_iff (hw : h.WellFormed) {t : TrackedToken} :
    h.find? token = some t ↔ t ∈ h.tracked ∧ t.token = token := by
  refine ⟨mem_of_find?, fun ⟨hmem, htoken⟩ => ?_⟩
  cases hfound : h.find? token with
  | none => exact absurd (List.mem_map.2 ⟨t, hmem, htoken⟩) (find?_eq_none_iff.1 hfound)
  | some t' =>
    obtain ⟨hmem', htoken'⟩ := mem_of_find? hfound
    rw [List.inj_on_of_nodup_map hw.nodup_tokens hmem' hmem (htoken'.trans htoken.symm)]

/-- A tracked token has as many senders as messages. -/
theorem senderCount_of_find? (hw : h.WellFormed) {t : TrackedToken}
    (ht : h.find? token = some t) : h.senderCount token = t.messages.length := by
  rw [senderCount, ht]
  exact (hw.counted t (mem_of_find? ht).1).perm.length_eq.trans (List.length_map _)

/-! ### Changing a token -/

/-- An update changes the entries of one token and no others. -/
theorem mem_tracked_update {f : TrackedToken → TrackedToken} {t' : TrackedToken} :
    t' ∈ (h.update token f).tracked ↔
      ∃ t ∈ h.tracked, t' = if t.token = token then f t else t := by
  simp only [update, List.mem_map, eq_comm]

/-- What an update does not change of an entry it does not change in the table. -/
theorem map_tracked_update {α : Type} {g : TrackedToken → α} {f : TrackedToken → TrackedToken}
    (hf : ∀ t, g (f t) = g t) : (h.update token f).tracked.map g = h.tracked.map g := by
  simp only [update, List.map_map]
  refine List.map_congr_left fun t _ => ?_
  simp only [Function.comp_apply]
  split
  · exact hf t
  · rfl

/-- Looking up any token after one was changed. -/
theorem find?_update_eq {f : TrackedToken → TrackedToken} (hf : ∀ t, (f t).token = t.token)
    (token' : ScanToken) :
    (h.update token f).find? token' =
      (h.find? token').map fun t => if t.token = token then f t else t := by
  have hsame : ((fun t : TrackedToken => decide (t.token = token')) ∘
      fun t => if t.token = token then f t else t) = fun t => decide (t.token = token') := by
    funext t
    simp only [Function.comp_apply]
    split
    · rw [hf]
    · rfl
  unfold find? update
  rw [List.find?_map, hsame]

/-- Looking up a token after it was changed finds it changed. -/
theorem find?_update {f : TrackedToken → TrackedToken} (hf : ∀ t, (f t).token = t.token) :
    (h.update token f).find? token = (h.find? token).map f := by
  rw [find?_update_eq hf]
  refine Option.map_congr fun t ht => ?_
  rw [if_pos (mem_of_find? ht).2]

/-! ### Recording -/

section Record

variable {sender : UInt64} {entries : List ShareEntry} {now : Nat}

/-- For a tracked token the message is recorded in its entry. -/
theorem recordTracked_tracked (hfound : (h.find? token).isSome = true) :
    (h.recordTracked token sender entries).2 =
      h.update token fun t => (t.record h.limits.maxSenders.toNat sender entries).2 := by
  obtain ⟨t, ht⟩ := Option.isSome_iff_exists.1 hfound
  simp only [recordTracked, ht]

/-- A token that starts to be tracked comes last, behind those for which there is room. -/
theorem track_tracked (h : History) (token : ScanToken) (now : Nat) :
    (h.track token now).tracked =
      h.makeRoom.tracked ++ [.start token h.nextGeneration now] := rfl

/-- Dropping the oldest tokens adds none and keeps the order. -/
theorem dropOldest_sublist (limit : Nat) (order : List ScanToken) (tracked : List TrackedToken) :
    (dropOldest limit order tracked).2.Sublist tracked := by
  induction order generalizing tracked with
  | nil => exact List.Sublist.refl _
  | cons oldest order ih =>
    unfold dropOldest
    split
    · exact (ih _).trans List.filter_sublist
    · exact List.Sublist.refl _

/-- Making room adds no token and keeps the order. -/
theorem makeRoom_sublist (h : History) : h.makeRoom.tracked.Sublist h.tracked :=
  dropOldest_sublist _ _ _

/-- A token is found once it is tracked. -/
theorem find?_track (h : History) (token : ScanToken) (now : Nat) :
    ((h.track token now).find? token).isSome = true := by
  simp [find?, track_tracked, TrackedToken.start]

/-- The first step of a recording leaves the token tracked. -/
theorem find?_ensure (h : History) (token : ScanToken) (now : Nat) :
    ((h.ensure token now).find? token).isSome = true := by
  unfold ensure
  split
  next hfound => exact hfound
  · exact find?_track h token now

/-- The limits stay. -/
theorem limits_ensure (h : History) (token : ScanToken) (now : Nat) :
    (h.ensure token now).limits = h.limits := by
  unfold ensure
  split <;> rfl

/-- After a record every token is one that was tracked before, or the one recorded for, which was
not. -/
theorem mem_tracked_record {t' : TrackedToken}
    (ht' : t' ∈ (h.record token sender entries now).2.tracked) :
    ∃ t, (t ∈ h.tracked ∨ h.find? token = none ∧ t = .start token h.nextGeneration now) ∧
      (t' = t ∨ t.token = token ∧
        t' = (t.record h.limits.maxSenders.toNat sender entries).2) := by
  rw [record, recordTracked_tracked (find?_ensure h token now), limits_ensure,
    mem_tracked_update] at ht'
  obtain ⟨t, ht, ht'⟩ := ht'
  refine ⟨t, ?_, ?_⟩
  · unfold ensure at ht
    split at ht
    · exact .inl ht
    next hnone =>
      rw [track_tracked, List.mem_append, List.mem_singleton] at ht
      exact ht.imp (fun hroom => (makeRoom_sublist h).subset hroom)
        fun hstart => ⟨Option.not_isSome_iff_eq_none.1 hnone, hstart⟩
  · split at ht'
    next htoken => exact .inr ⟨htoken, ht'⟩
    · exact .inl ht'

/-- After a record every token goes on from before, or its tracking began with the record. -/
theorem exists_becomes_of_mem_record {t' : TrackedToken}
    (ht' : t' ∈ (h.record token sender entries now).2.tracked) :
    (∃ t ∈ h.tracked, t.Becomes t' ∧ t'.state = t.state) ∨
      (h.find? token = none ∧ t'.token = token ∧ t'.generation = h.nextGeneration ∧
        t'.state = .pending) := by
  obtain ⟨t, ht, ht'⟩ := mem_tracked_record ht'
  have hbecomes : t.Becomes t' ∧ t'.state = t.state := by
    rcases ht' with rfl | ⟨-, rfl⟩
    · exact ⟨.refl t', rfl⟩
    · exact ⟨t.becomes_record _ _ _, t.state_record _ _ _⟩
  obtain ⟨hbecomes, hstate⟩ := hbecomes
  rcases ht with ht | ⟨hnone, rfl⟩
  · exact .inl ⟨t, ht, hbecomes, hstate⟩
  · exact .inr ⟨hnone, hbecomes.token, hbecomes.generation, hstate⟩

/-- A recording changes which tokens are tracked by its first step only. -/
theorem map_token_record (h : History) (token : ScanToken) (sender : UInt64)
    (entries : List ShareEntry) (now : Nat) :
    (h.record token sender entries now).2.tracked.map TrackedToken.token =
      (h.ensure token now).tracked.map TrackedToken.token := by
  rw [record, recordTracked_tracked (find?_ensure h token now)]
  exact map_tracked_update fun t => (t.becomes_record _ sender entries).token

/-- A token is tracked after a record for it. -/
theorem find?_record (h : History) (token : ScanToken) (sender : UInt64)
    (entries : List ShareEntry) (now : Nat) :
    ((h.record token sender entries now).2.find? token).isSome = true := by
  rw [isSome_find?_iff, map_token_record, ← isSome_find?_iff]
  exact find?_ensure h token now

/-- A recording gives a number if the token was not tracked. -/
theorem nextGeneration_record (h : History) (token : ScanToken) (sender : UInt64)
    (entries : List ShareEntry) (now : Nat) :
    (h.record token sender entries now).2.nextGeneration =
      if (h.find? token).isSome then h.nextGeneration else h.nextGeneration + 1 := by
  rw [record, recordTracked_tracked (find?_ensure h token now)]
  show (h.ensure token now).nextGeneration = _
  unfold ensure
  split <;> rfl

/-- A recorded message keeps a history well formed. -/
theorem WellFormed.record (hw : h.WellFormed) :
    (h.record token sender entries now).2.WellFormed := by
  constructor
  · rw [map_token_record]
    unfold ensure
    split
    · exact hw.nodup_tokens
    next hnone =>
      have hnew := find?_eq_none_iff.1 (Option.not_isSome_iff_eq_none.1 hnone)
      have hroom := (makeRoom_sublist h).map TrackedToken.token
      rw [track_tracked, List.map_append, List.map_singleton, List.nodup_append_comm]
      exact List.nodup_cons.2 ⟨fun hmem => hnew (hroom.subset hmem), hw.nodup_tokens.sublist hroom⟩
  · intro t' ht'
    obtain ⟨t, ht, ht'⟩ := mem_tracked_record ht'
    have hcounted : t.Counted := by
      rcases ht with ht | ⟨-, rfl⟩
      · exact hw.counted t ht
      · exact TrackedToken.counted_start _ _ _
    rcases ht' with rfl | ⟨-, rfl⟩
    · exact hcounted
    · exact hcounted.record _ _ _

end Record

/-! ### Marking -/

/-- Marking changes at most the state of the token that is tracked in the given generation. -/
theorem mem_tracked_markMatched (hw : h.WellFormed) {generation : UInt64} {t' : TrackedToken}
    (ht' : t' ∈ (h.markMatched token generation).2.tracked) :
    ∃ t ∈ h.tracked, t' = t ∨
      t.token = token ∧ t.generation = generation ∧ t' = { t with state := .matched } := by
  unfold markMatched at ht'
  split at ht'
  next hmarked =>
    obtain ⟨t, ht, ht'⟩ := mem_tracked_update.1 ht'
    refine ⟨t, ht, ?_⟩
    split at ht'
    next htoken =>
      have hfound : h.find? token = some t := (find?_eq_some_iff hw).2 ⟨ht, htoken⟩
      rw [hfound, Option.any_some, decide_eq_true_eq] at hmarked
      exact .inr ⟨htoken, hmarked, ht'⟩
    · exact .inl ht'
  · exact ⟨t', ht', .inl rfl⟩

/-- Marking gives no number. -/
theorem nextGeneration_markMatched (h : History) (token : ScanToken) (generation : UInt64) :
    (h.markMatched token generation).2.nextGeneration = h.nextGeneration := by
  unfold markMatched
  split <;> rfl

/-- Marking changes nothing of the entries but whether they are matched. -/
theorem map_tracked_markMatched {α : Type} (g : TrackedToken → α)
    (hg : ∀ t, g { t with state := .matched } = g t) (h : History) (token : ScanToken)
    (generation : UInt64) :
    (h.markMatched token generation).2.tracked.map g = h.tracked.map g := by
  unfold markMatched
  split
  · exact map_tracked_update hg
  · rfl

/-- A match that is marked keeps a history well formed. -/
theorem WellFormed.markMatched (hw : h.WellFormed) (token : ScanToken) (generation : UInt64) :
    (h.markMatched token generation).2.WellFormed := by
  constructor
  · rw [map_tracked_markMatched _ fun _ => rfl]
    exact hw.nodup_tokens
  · intro t' ht'
    obtain ⟨t, ht, rfl | ⟨-, -, rfl⟩⟩ := mem_tracked_markMatched hw ht'
    · exact hw.counted t' ht
    · exact (hw.counted t ht).matched

/-! ### Dropping -/

/-- An eviction adds no token and keeps the order. -/
theorem evict_sublist (h : History) (token : ScanToken) :
    (h.evict token).2.tracked.Sublist h.tracked := by
  unfold evict
  split
  · exact List.filter_sublist
  · exact List.Sublist.refl _

/-- An eviction gives no number. -/
theorem nextGeneration_evict (h : History) (token : ScanToken) :
    (h.evict token).2.nextGeneration = h.nextGeneration := by
  unfold evict
  split <;> rfl

/-- Pruning adds no token and keeps the order. -/
theorem prune_sublist (h : History) (now : Nat) : (h.prune now).2.tracked.Sublist h.tracked := by
  unfold prune
  split
  · exact List.Sublist.refl _
  · exact List.filter_sublist

/-- Pruning gives no number. -/
theorem nextGeneration_prune (h : History) (now : Nat) :
    (h.prune now).2.nextGeneration = h.nextGeneration := by
  unfold prune
  split <;> rfl

end History

end LinkCommittee
