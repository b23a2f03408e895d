import LinkCommittee.Proofs.History.NoEffect

/-!
# Room for a new token

A record for a new token takes the room it needs from the front of the queue.  The queue
stands in the order in which the current trackings began: a token that comes back stands at
the end, whatever its clock shows and however early it was first heard of
(`History.pairwise_beganBefore`).  Under limits that are accepted a full history needs room
for one token only, so the one that has been tracked longest goes and nothing else changes.

Main statement: `History.record_drops_oldest`.
-/

namespace LinkCommittee.History

variable {h : History} {token other : ScanToken} {sender : UInt64} {entries : List ShareEntry}
  {now : Nat}

/-! ### The order of the queue -/

/-- After some calls, the current tracking of one token began with an earlier call than that of
another. -/
def BeganBefore (h : History) (calls : List HistoryCall) (older newer : ScanToken) : Prop :=
  ∃ before since before' since', calls = before ++ since ∧ h.TrackedSince older before since ∧
    calls = before' ++ since' ∧ h.TrackedSince newer before' since' ∧
      before.length < before'.length

theorem BeganBefore.append_singleton {calls : List HistoryCall} {older newer : ScanToken}
    (hbegan : h.BeganBefore calls older newer) {call : HistoryCall}
    (holder : ((h.run (calls ++ [call])).find? older).isSome = true)
    (hnewer : ((h.run (calls ++ [call])).find? newer).isSome = true) :
    h.BeganBefore (calls ++ [call]) older newer := by
  obtain ⟨before, since, before', since', hcalls, hsince, hcalls', hsince', hlt⟩ := hbegan
  rw [hcalls] at holder
  rw [hcalls'] at hnewer
  refine ⟨before, since ++ [call], before', since' ++ [call], ?_,
    hsince.append_singleton holder, ?_, hsince'.append_singleton hnewer, hlt⟩
  · rw [hcalls, List.append_assoc]
  · rw [hcalls', List.append_assoc]

/-- A token whose tracking begins with the last call comes after all that were tracked before. -/
theorem beganBefore_of_begun {calls : List HistoryCall} {call : HistoryCall}
    {older newer : ScanToken} (hempty : h.find? older = none)
    (htracked : ((h.run calls).find? older).isSome = true)
    (holder : ((h.run (calls ++ [call])).find? older).isSome = true)
    (hnew : (h.run calls).find? newer = none)
    (hnewer : ((h.run (calls ++ [call])).find? newer).isSome = true) :
    h.BeganBefore (calls ++ [call]) older newer := by
  obtain ⟨before, since, hcalls, hsince⟩ := exists_trackedSince hempty htracked
  have hlonger : 0 < since.length := List.length_pos_of_ne_nil hsince.begun
  have hlength : before.length + since.length = calls.length := by
    rw [hcalls, List.length_append]
  rw [hcalls] at holder
  refine ⟨before, since ++ [call], calls, [call], ?_, hsince.append_singleton holder, rfl,
    trackedSince_singleton hnew hnewer, by omega⟩
  rw [hcalls, List.append_assoc]

/-- The queue has the tokens that are tracked. -/
theorem Represented.mem_order_iff (hr : h.Represented) :
    token ∈ h.order ↔ (h.find? token).isSome = true := by
  rw [hr.order_eq, isSome_find?_iff]

/-- What a call leaves of the queue stays in its order, and at most one token joins it, at the end. -/
theorem Represented.order_step_cases (hr : h.Represented) (call : HistoryCall) :
    (h.step call).order.Sublist h.order ∨
      ∃ kept new, kept.Sublist h.order ∧ h.find? new = none ∧
        (h.step call).order = kept ++ [new] := by
  rw [(hr.step call).order_eq, hr.order_eq]
  cases call with
  | record token sender entries now =>
    rw [History.step, map_token_record]
    cases hfound : h.find? token with
    | some t =>
      rw [ensure_of_some hfound]
      exact .inl (List.Sublist.refl _)
    | none =>
      rw [ensure_of_none hfound, track_tracked, List.map_append]
      exact .inr ⟨_, token, (makeRoom_sublist h).map _, hfound, rfl⟩
  | markMatched token generation =>
    rw [History.step, map_tracked_markMatched _ fun _ => rfl]
    exact .inl (List.Sublist.refl _)
  | evict token => exact .inl ((evict_sublist h token).map _)
  | prune now => exact .inl ((prune_sublist h now).map _)

/-- **The queue stands in the order in which the current trackings began.**  A token joins the queue
at its end when its tracking begins, and no call moves those in front of it. -/
theorem pairwise_beganBefore (limits : HistoryLimits) (calls : List HistoryCall) :
    ((empty limits).run calls).order.Pairwise ((empty limits).BeganBefore calls) := by
  induction calls using List.reverseRecOn with
  | nil => exact List.Pairwise.nil
  | append_singleton calls call ih =>
    have hr : ((empty limits).run calls).Represented := (represented_empty limits).run calls
    have hafter : (empty limits).run (calls ++ [call]) = ((empty limits).run calls).step call :=
      run_append _ _ _
    have htracked : ∀ token ∈ ((empty limits).run (calls ++ [call])).order,
        (((empty limits).run (calls ++ [call])).find? token).isSome = true := fun token =>
      ((represented_empty limits).run _).mem_order_iff.1
    rcases hr.order_step_cases call with hsub | ⟨kept, new, hsub, hnew, horder⟩
    · rw [← hafter] at hsub
      exact (ih.sublist hsub).imp_of_mem fun ha hb hbegan =>
        hbegan.append_singleton (htracked _ ha) (htracked _ hb)
    · rw [← hafter] at horder
      rw [horder] at htracked ⊢
      have hkept (token : ScanToken) (hmem : token ∈ kept) := htracked token
        (List.mem_append_left _ hmem)
      refine List.pairwise_append.2 ⟨?_, List.pairwise_singleton _ _, fun older hmem last hlast => ?_⟩
      · exact (ih.sublist hsub).imp_of_mem fun ha hb hbegan =>
          hbegan.append_singleton (hkept _ ha) (hkept _ hb)
      · rw [List.mem_singleton.1 hlast]
        exact beganBefore_of_begun rfl (hr.mem_order_iff.1 (hsub.subset hmem)) (hkept older hmem)
          hnew (htracked new (List.mem_append_right _ List.mem_cons_self))

/-! ### What a record does to the queue and to other tokens -/

/-- A recording for a tracked token leaves the queue as it is. -/
theorem order_record_of_some {t : TrackedToken} (ht : h.find? token = some t) :
    (h.record token sender entries now).2.order = h.order := by
  rw [record, recordTracked_tracked (find?_ensure h token now), ensure_of_some ht]
  rfl

/-- A recording for another token drops the oldest for which there is no room, and puts it last. -/
theorem Represented.order_record_of_none (hr : h.Represented) (hnone : h.find? token = none) :
    (h.record token sender entries now).2.order =
      h.order.drop (h.size + 1 - h.limits.maxTokens.toNat) ++ [token] := by
  rw [(hr.record token sender entries now).order_eq, map_token_record, ensure_of_none hnone,
    track_tracked, hr.makeRoom_eq, List.map_append, hr.order_eq, List.map_drop]
  rfl

/-- A record changes no other token, but the room that it needs may. -/
theorem find?_record_of_ne (hne : other ≠ token) :
    (h.record token sender entries now).2.find? other = (h.ensure token now).find? other := by
  refine (find?_step_record h other token sender entries now).trans ?_
  cases hfound : (h.ensure token now).find? other with
  | none => rfl
  | some t =>
    have htoken : t.token ≠ token := by rwa [(mem_of_find? hfound).2]
    rw [Option.map_some, TrackedToken.after, if_neg htoken]

/-- A record for a token that is tracked changes no other token. -/
theorem find?_record_of_some {t : TrackedToken} (ht : h.find? token = some t)
    (hne : other ≠ token) : (h.record token sender entries now).2.find? other = h.find? other := by
  rw [find?_record_of_ne hne, ensure_of_some ht]

/-- A record for a new token drops those that stand in front of the queue, as many as are too many
with the new one, and changes no other. -/
theorem Represented.find?_record_of_none (hr : h.Represented) (hnone : h.find? token = none)
    (hne : other ≠ token) :
    (h.record token sender entries now).2.find? other =
      if other ∈ h.order.take (h.size + 1 - h.limits.maxTokens.toNat) then none
      else h.find? other := by
  rw [find?_record_of_ne hne, ensure_of_none hnone]
  have hsame := find?_track_of_ne hr.toWellFormed hne.symm now
  cases hfound : h.find? other with
  | none =>
    rw [hfound, or_self] at hsame
    rw [hsame, ite_self]
  | some t =>
    have hgone := hr.find?_track_eq_none_iff hfound hne.symm now
    rw [hfound] at hsame
    split
    next hfront => exact hgone.2 hfront
    next hback => exact hsame.resolve_left fun hdropped => hback (hgone.1 hdropped)

/-- While there is room, a record for a new token puts it at the end of the queue and changes no
other. -/
theorem Represented.record_of_room (hr : h.Represented) (hnone : h.find? token = none)
    (hroom : h.size < h.limits.maxTokens.toNat) :
    (h.record token sender entries now).2.order = h.order ++ [token] ∧
      ∀ other, other ≠ token →
        (h.record token sender entries now).2.find? other = h.find? other := by
  have hkeep : h.size + 1 - h.limits.maxTokens.toNat = 0 := by omega
  constructor
  · rw [hr.order_record_of_none hnone, hkeep, List.drop_zero]
  · intro other hne
    rw [hr.find?_record_of_none hnone hne, hkeep, List.take_zero, if_neg List.not_mem_nil]

/-- In a full history the token in front of the queue makes room for the new one, and no other
changes. -/
theorem Represented.record_of_full (hr : h.Represented) (hnone : h.find? token = none)
    (hsome : 0 < h.limits.maxTokens.toNat) (hfull : h.size = h.limits.maxTokens.toNat) :
    ∃ oldest kept, h.order = oldest :: kept ∧
      (h.record token sender entries now).2.order = kept ++ [token] ∧
      (h.record token sender entries now).2.find? oldest = none ∧
      ∀ other, other ≠ token → other ≠ oldest →
        (h.record token sender entries now).2.find? other = h.find? other := by
  have hone : h.size + 1 - h.limits.maxTokens.toNat = 1 := by omega
  have hlength := hr.length_order
  obtain ⟨oldest, kept, horder⟩ := List.exists_cons_of_length_pos (l := h.order) (by omega)
  have hfound : (h.find? oldest).isSome = true :=
    hr.mem_order_iff.1 (horder ▸ List.mem_cons_self)
  have hne : oldest ≠ token := by
    intro hsame
    rw [hsame, hnone] at hfound
    contradiction
  refine ⟨oldest, kept, horder, ?_, ?_, ?_⟩
  · rw [hr.order_record_of_none hnone, hone, horder, List.drop_one, List.tail_cons]
  · rw [hr.find?_record_of_none hnone hne, hone, horder]
    exact if_pos List.mem_cons_self
  · intro other hother hkept
    rw [hr.find?_record_of_none hnone hother, hone, horder]
    exact if_neg (by simpa using hkept)

/-- A new token is known from the record alone, if a sender is allowed. -/
theorem find?_record_self (hnone : h.find? token = none)
    (hallowed : 0 < h.limits.maxSenders.toNat) :
    (h.record token sender entries now).2.find? token =
      some ⟨token, h.nextGeneration, [sender], [⟨sender, entries⟩], now, .pending⟩ := by
  refine (find?_step_record h token token sender entries now).trans ?_
  have hroom : ¬ h.limits.maxSenders.toNat ≤ ([] : List SenderShares).length :=
    Nat.not_le_of_lt hallowed
  rw [ensure_of_none hnone, find?_track_self hnone, Option.map_some, TrackedToken.after,
    TrackedToken.start, if_pos rfl, TrackedToken.record, if_neg List.not_mem_nil, if_neg hroom]
  rfl

/-- While the numbers last, the next generation is above those that any token ever had. -/
theorem generation_lt_of_earlier {limits : HistoryLimits} {front back : List HistoryCall}
    (hbound : (empty limits).starts (front ++ back) < 2 ^ 64) {t : TrackedToken}
    (ht : ((empty limits).run front).find? token = some t) :
    t.generation < ((empty limits).run (front ++ back)).nextGeneration := by
  have hstarts := starts_append (empty limits) front back
  have hfront : 0 + (empty limits).starts front < 2 ^ 64 := by omega
  have hearly := (numbered_empty limits).run hfront
  have hall := (numbered_empty limits).run
    (show 0 + (empty limits).starts (front ++ back) < 2 ^ 64 by omega)
  have hlt := hearly.below _ (List.mem_map_of_mem (mem_of_find? ht).1)
  rw [UInt64.lt_iff_toNat_lt, hearly.next] at hlt
  rw [UInt64.lt_iff_toNat_lt, hall.next]
  omega

/-- **A full history drops the token tracked longest, and nothing else.**  Under limits that are
accepted, and after any run, the queue lists the tracked tokens in the order of the calls with which
their current trackings began.  A record for a token that is tracked leaves all other tokens and the
queue as they are.  A record for a new token puts it at the end of the queue, known from this record
alone and, while the numbers last, with a generation above all that were given before; if there is
room no token is dropped, and otherwise the one in front is. -/
theorem record_drops_oldest {tokens senders shares : UInt64} {lifetime : Option Duration}
    {limits : HistoryLimits}
    (haccepted : HistoryLimits.new tokens senders shares lifetime = .ok limits)
    (calls : List HistoryCall) (token : ScanToken) (sender : UInt64) (entries : List ShareEntry)
    (now : Nat) :
    let h := (empty limits).run calls
    let h' := (h.record token sender entries now).2
    (h.order.Pairwise ((empty limits).BeganBefore calls) ∧
      (∀ other, other ∈ h.order ↔ (h.find? other).isSome = true) ∧
      (∀ other, other ∈ h'.order ↔ (h'.find? other).isSome = true) ∧
      h.size ≤ limits.maxTokens.toNat) ∧
    ((h.find? token).isSome = true →
      h'.order = h.order ∧ ∀ other, other ≠ token → h'.find? other = h.find? other) ∧
    (h.find? token = none →
      (h.size < limits.maxTokens.toNat →
        h'.order = h.order ++ [token] ∧
          ∀ other, other ≠ token → h'.find? other = h.find? other) ∧
      (h.size = limits.maxTokens.toNat →
        ∃ oldest kept, h.order = oldest :: kept ∧ h'.order = kept ++ [token] ∧
          (∀ other ∈ kept, (empty limits).BeganBefore calls oldest other) ∧
          h'.find? oldest = none ∧
          ∀ other, other ≠ token → other ≠ oldest → h'.find? other = h.find? other) ∧
      h'.find? token =
        some ⟨token, h.nextGeneration, [sender], [⟨sender, entries⟩], now, .pending⟩ ∧
      ((empty limits).starts calls < 2 ^ 64 → ∀ front, front <+: calls → ∀ other t,
        ((empty limits).run front).find? other = some t → t.generation < h.nextGeneration)) := by
  intro h h'
  have hr : h.Represented := (represented_empty limits).run calls
  have hlimits : h.limits = limits := limits_run (empty limits) calls
  have hqueue := pairwise_beganBefore limits calls
  obtain ⟨hmade, htokens, hsenders, -, -⟩ := HistoryLimits.new_eq_ok_iff.1 haccepted
  have hsome : 0 < h.limits.maxTokens.toNat := by
    rw [hlimits, hmade]
    exact Nat.pos_of_ne_zero fun hzero => htokens (UInt64.toNat_inj.1 hzero)
  have hallowed : 0 < h.limits.maxSenders.toNat := by
    rw [hlimits, hmade]
    exact Nat.lt_of_lt_of_le (by decide) (UInt64.le_iff_toNat_le.1 hsenders)
  have hmost : h.limits.maxTokens.toNat = limits.maxTokens.toNat := by rw [hlimits]
  have hle := hr.size_le
  refine ⟨⟨hqueue, fun _ => hr.mem_order_iff, fun _ => (hr.record _ _ _ _).mem_order_iff,
    by omega⟩, fun htracked => ?_, fun hnone => ⟨fun hroom => ?_, fun hfull => ?_, ?_, ?_⟩⟩
  · obtain ⟨t, ht⟩ := Option.isSome_iff_exists.1 htracked
    exact ⟨order_record_of_some ht, fun other hne => find?_record_of_some ht hne⟩
  · exact hr.record_of_room hnone (hmost ▸ hroom)
  · obtain ⟨oldest, kept, horder, hafter, hgone, hothers⟩ :=
      hr.record_of_full hnone hsome (hfull.trans hmost.symm)
    rw [horder] at hqueue
    exact ⟨oldest, kept, horder, hafter, (List.pairwise_cons.1 hqueue).1, hgone, hothers⟩
  · exact find?_record_self hnone hallowed
  · intro hbound front hfront other t ht
    obtain ⟨back, rfl⟩ := hfront
    exact generation_lt_of_earlier hbound ht

set_option maxRecDepth 4000 in
/-- There is room for two tokens, and the clock goes back all the time.  The token heard of first was
evicted and has come back, so that the other one makes room, although it was recorded for last. -/
theorem record_drops_oldest_come_back :
    ∃ (limits : HistoryLimits) (first second third : ScanToken) (calls : List HistoryCall),
      let h := (empty limits).run calls
      let h' := (h.record third 1 [] 0).2
      HistoryLimits.new 2 2 1 none = .ok limits ∧ h.size = 2 ∧ h.find? third = none ∧
        (h.find? first).isSome = true ∧ (h.find? second).isSome = true ∧
        (empty limits).BeganBefore calls second first ∧
        h'.order = [first, third] ∧ h'.find? second = none ∧ h'.find? first = h.find? first ∧
        h'.find? third = some ⟨third, 3, [1], [⟨1, []⟩], 0, .pending⟩ := by
  let first := ScanToken.ofSymbol 'a' rfl
  let second := ScanToken.ofSymbol 'b' rfl
  let third := ScanToken.ofSymbol 'c' rfl
  let limits : HistoryLimits := ⟨2, 2, 1, none⟩
  let calls : List HistoryCall :=
    [.record first 1 [] 9, .record second 1 [] 5, .evict first, .record first 1 [] 2,
      .record second 2 [] 1]
  have haccepted : HistoryLimits.new 2 2 1 none = .ok limits := rfl
  have hsize : ((empty limits).run calls).size = 2 := by decide
  have hnone : ((empty limits).run calls).find? third = none := by decide
  have horder : ((empty limits).run calls).order = [second, first] := by decide
  obtain ⟨⟨-, hqueue, -⟩, -, hnew⟩ := record_drops_oldest haccepted calls third 1 [] 0
  obtain ⟨-, hfull, hthird, -⟩ := hnew hnone
  obtain ⟨oldest, kept, hcons, hafter, hbegan, hgone, hothers⟩ := hfull hsize
  rw [horder] at hcons
  obtain ⟨rfl, rfl⟩ := List.cons.inj hcons
  exact ⟨limits, first, second, third, calls, haccepted, hsize, hnone,
    (hqueue first).1 (by rw [horder]; decide), (hqueue second).1 (by rw [horder]; decide),
    hbegan first List.mem_cons_self, hafter, hgone, hothers first (by decide) (by decide),
    hthird.trans (by decide)⟩

end LinkCommittee.History
