import LinkCommittee.Proofs.History.Runs
import Mathlib.Data.List.Induction
import Mathlib.Data.List.Infix

/-!
# What is known of a token

All that the history knows of a tracked token comes from the calls since its tracking
began.  Its messages are those of the calls that recorded for it, of each sender the
first, as many as the limit allows (`heard`).  Calls before, for an earlier tracking of
the same token, have left nothing.

One call adds to what was heard what recording adds to the messages
(`heard_append_singleton`, `TrackedToken.Holds.after`); the rest is induction on the
calls since the tracking began.  Main statement: `History.contents_of_tracked`.
-/

namespace LinkCommittee

/-! ### The messages that calls bring -/

/-- The message that a call brings for a token. -/
def HistoryCall.messageFor? (token : ScanToken) : HistoryCall → Option SenderShares
  | .record token' sender entries _ => if token' = token then some ⟨sender, entries⟩ else none
  | .markMatched _ _ => none
  | .evict _ => none
  | .prune _ => none

/-- The messages that some calls bring for a token. -/
def messagesFor (token : ScanToken) (calls : List HistoryCall) : List SenderShares :=
  calls.filterMap (HistoryCall.messageFor? token)

/-- Of each sender the first message. -/
def firstOfEach : List SenderShares → List SenderShares
  | [] => []
  | first :: later => first :: (firstOfEach later).filter fun m => m.sender ≠ first.sender

/-- The messages of the first senders, of each the first. -/
def heard (limit : Nat) (messages : List SenderShares) : List SenderShares :=
  (firstOfEach messages).take limit

/-- The answer to a sender, given the messages that a token holds. -/
def answer (limit : Nat) (held : List SenderShares) (sender : UInt64) : RecordOutcome :=
  if sender ∈ held.map SenderShares.sender then .duplicateSender
  else if held.length = limit then .senderLimitReached
  else .recorded

/-- One more call brings its message, if it brings one for the token. -/
theorem messagesFor_append_singleton (token : ScanToken) (calls : List HistoryCall)
    (call : HistoryCall) :
    messagesFor token (calls ++ [call]) =
      messagesFor token calls ++ (call.messageFor? token).toList := by
  rw [messagesFor, List.filterMap_append]
  cases hmessage : call.messageFor? token <;> simp [messagesFor, hmessage]

/-- The senders are those of all messages. -/
theorem mem_sender_firstOfEach (sender : UInt64) (messages : List SenderShares) :
    sender ∈ (firstOfEach messages).map SenderShares.sender ↔
      sender ∈ messages.map SenderShares.sender := by
  induction messages with
  | nil => rfl
  | cons first later ih =>
    rw [firstOfEach, List.map_cons, List.map_cons, List.mem_cons, List.mem_cons, ← ih]
    by_cases hfirst : sender = first.sender
    · simp only [hfirst, true_or]
    · simp only [hfirst, false_or, List.mem_map, List.mem_filter, decide_eq_true_eq]
      refine exists_congr fun m => and_congr_left fun hm => and_iff_left_of_imp fun _ => ?_
      rwa [hm]

/-- One more message counts if its sender has sent none before. -/
theorem firstOfEach_append_singleton (messages : List SenderShares) (m : SenderShares) :
    firstOfEach (messages ++ [m]) =
      if m.sender ∈ messages.map SenderShares.sender then firstOfEach messages
      else firstOfEach messages ++ [m] := by
  induction messages with
  | nil => rfl
  | cons first later ih =>
    rw [List.cons_append, firstOfEach, ih, firstOfEach, List.map_cons]
    by_cases hlater : m.sender ∈ later.map SenderShares.sender
    · rw [if_pos hlater, if_pos (List.mem_cons_of_mem _ hlater)]
    · rw [if_neg hlater, List.filter_append]
      by_cases hfirst : m.sender = first.sender
      · rw [if_pos (List.mem_cons.2 (.inl hfirst)), List.filter_singleton]
        simp [hfirst]
      · rw [if_neg fun hmem => (List.mem_cons.1 hmem).elim hfirst hlater, List.filter_singleton]
        simp [hfirst]

/-- One more message is heard if its sender was not heard before and the limit allows. -/
theorem heard_append_singleton (limit : Nat) (messages : List SenderShares) (m : SenderShares) :
    heard limit (messages ++ [m]) =
      if m.sender ∈ (heard limit messages).map SenderShares.sender then heard limit messages
      else if limit ≤ (heard limit messages).length then heard limit messages
      else heard limit messages ++ [m] := by
  unfold heard
  rw [firstOfEach_append_singleton]
  -- a full list stays as it is whoever speaks; below the limit no one heard has been cut off
  by_cases hfull : limit ≤ (firstOfEach messages).length
  · have hlength : ((firstOfEach messages).take limit).length = limit :=
      List.length_take_of_le hfull
    have hmore : (firstOfEach messages ++ [m]).take limit = (firstOfEach messages).take limit :=
      List.take_append_of_le_length hfull
    rw [hlength, if_pos (Nat.le_refl limit), ite_self]
    split
    · rfl
    · exact hmore
  · have hall : (firstOfEach messages).take limit = firstOfEach messages :=
      List.take_of_length_le (by omega)
    have hmore : (firstOfEach messages ++ [m]).take limit = firstOfEach messages ++ [m] :=
      List.take_of_length_le (by rw [List.length_append, List.length_singleton]; omega)
    rw [hall, if_neg hfull]
    by_cases hmem : m.sender ∈ messages.map SenderShares.sender
    · rw [if_pos hmem, if_pos ((mem_sender_firstOfEach _ _).2 hmem), hall]
    · rw [if_neg hmem, if_neg (mt (mem_sender_firstOfEach _ _).1 hmem), hmore]

/-- Of messages of different senders each is the first of its sender. -/
theorem firstOfEach_of_nodup {messages : List SenderShares}
    (hnodup : (messages.map SenderShares.sender).Nodup) : firstOfEach messages = messages := by
  induction messages with
  | nil => rfl
  | cons first later ih =>
    obtain ⟨hfirst, hlater⟩ := List.nodup_cons.1 hnodup
    rw [firstOfEach, ih hlater, List.filter_eq_self.2]
    intro m hm
    have hne : m.sender ≠ first.sender := fun hsame => hfirst (hsame ▸ List.mem_map_of_mem hm)
    exact decide_eq_true hne

/-- Messages of different senders are all heard if the limit allows for that many. -/
theorem heard_of_nodup {limit : Nat} {messages : List SenderShares}
    (hnodup : (messages.map SenderShares.sender).Nodup) (hle : messages.length ≤ limit) :
    heard limit messages = messages := by
  rw [heard, firstOfEach_of_nodup hnodup, List.take_of_length_le hle]

/-- No more messages are heard than the limit says. -/
theorem length_heard_le (limit : Nat) (messages : List SenderShares) :
    (heard limit messages).length ≤ limit := List.length_take_le _ _

/-! ### What a token holds -/

namespace TrackedToken

variable {t : TrackedToken} {limit : Nat} {sender : UInt64} {entries : List ShareEntry}

/-- A message that is recorded is heard behind those before it, or not at all. -/
theorem Counted.messages_record (hcounted : t.Counted) {messages : List SenderShares}
    (hmessages : t.messages = heard limit messages) :
    (t.record limit sender entries).2.messages = heard limit (messages ++ [⟨sender, entries⟩]) := by
  rw [heard_append_singleton, ← hmessages]
  unfold TrackedToken.record
  simp only [hcounted.perm.mem_iff]
  split
  · rfl
  split
  · rfl
  · rfl

/-- A recording is answered by what was heard before. -/
theorem Counted.outcome_record (hcounted : t.Counted) (hle : t.messages.length ≤ limit) :
    (t.record limit sender entries).1 = answer limit t.messages sender := by
  have hfull : limit ≤ t.messages.length ↔ t.messages.length = limit := by omega
  unfold TrackedToken.record answer
  simp only [hcounted.perm.mem_iff, hfull]
  split
  · rfl
  split
  · rfl
  · rfl

/-- What is known of a token whose tracking began at a time, with a generation, and then saw some
calls. -/
structure Holds (t : TrackedToken) (limit : Nat) (token : ScanToken) (generation : UInt64)
    (begun : Nat) (calls : List HistoryCall) : Prop where
  token_eq : t.token = token
  generation_eq : t.generation = generation
  firstSeen_eq : t.firstSeen = begun
  counted : t.Counted
  messages_eq : t.messages = heard limit (messagesFor token calls)
  state_iff : t.state = .matched ↔ .markMatched token generation ∈ calls

variable {token : ScanToken} {generation : UInt64} {begun : Nat}

/-- A token that starts to be tracked holds what no calls bring. -/
theorem holds_start (limit : Nat) (token : ScanToken) (generation : UInt64) (begun : Nat) :
    (start token generation begun).Holds limit token generation begun [] where
  token_eq := rfl
  generation_eq := rfl
  firstSeen_eq := rfl
  counted := counted_start token generation begun
  messages_eq := List.take_nil.symm
  state_iff := by simp [start]

/-- After one more call the messages are what is heard of all. -/
theorem Holds.messages_after {calls : List HistoryCall}
    (hholds : t.Holds limit token generation begun calls) (call : HistoryCall) :
    (t.after limit call).messages = heard limit (messagesFor token (calls ++ [call])) := by
  rw [messagesFor_append_singleton]
  cases call with
  | record token' sender entries now =>
    simp only [after, HistoryCall.messageFor?, hholds.token_eq]
    by_cases htoken : token = token'
    · rw [if_pos htoken, if_pos htoken.symm]
      exact hholds.counted.messages_record hholds.messages_eq
    · rw [if_neg htoken, if_neg (Ne.symm htoken), Option.toList_none, List.append_nil]
      exact hholds.messages_eq
  | markMatched token' generation' =>
    simp only [after, HistoryCall.messageFor?, Option.toList_none, List.append_nil]
    split
    · exact hholds.messages_eq
    · exact hholds.messages_eq
  | evict token' => exact hholds.messages_eq.trans (by simp [HistoryCall.messageFor?])
  | prune now => exact hholds.messages_eq.trans (by simp [HistoryCall.messageFor?])

/-- After one more call the token is matched if any of the calls marked it under its number. -/
theorem Holds.state_after {calls : List HistoryCall}
    (hholds : t.Holds limit token generation begun calls) (call : HistoryCall) :
    (t.after limit call).state = .matched ↔ .markMatched token generation ∈ calls ++ [call] := by
  rw [List.mem_append, List.mem_singleton, ← hholds.state_iff]
  cases call with
  | record token' sender entries now =>
    have hstate : (t.after limit (.record token' sender entries now)).state = t.state := by
      simp only [after]
      split
      · exact t.state_record limit sender entries
      · rfl
    simp [hstate]
  | markMatched token' generation' =>
    simp only [after, hholds.token_eq, hholds.generation_eq, HistoryCall.markMatched.injEq]
    split
    next hsame => simp [hsame]
    next hother => simp [hother]
  | evict token' => simp [after]
  | prune now => simp [after]

/-- **One more call**, and the token holds what that call brought besides.  A message for the token
may be heard, a mark under its number marks it, and no other call touches it. -/
theorem Holds.after {calls : List HistoryCall}
    (hholds : t.Holds limit token generation begun calls) (call : HistoryCall) :
    (t.after limit call).Holds limit token generation begun (calls ++ [call]) := by
  have hbecomes := t.becomes_after limit call
  exact {
    token_eq := hbecomes.token.trans hholds.token_eq
    generation_eq := hbecomes.generation.trans hholds.generation_eq
    firstSeen_eq := hbecomes.firstSeen.trans hholds.firstSeen_eq
    counted := hholds.counted.after limit call
    messages_eq := hholds.messages_after call
    state_iff := hholds.state_after call }

/-- **A tracked token holds what the calls since then brought.**  By induction on the calls, from
the token as its tracking began. -/
theorem holds_foldl (limit : Nat) (token : ScanToken) (generation : UInt64) (begun : Nat)
    (calls : List HistoryCall) :
    (calls.foldl (TrackedToken.after limit) (start token generation begun)).Holds limit token
      generation begun calls := by
  induction calls using List.reverseRecOn with
  | nil => exact holds_start limit token generation begun
  | append_singleton calls call ih =>
    rw [List.foldl_append]
    exact ih.after call

end TrackedToken

/-! ### Since the tracking of a token began -/

namespace History

variable {h : History} {token : ScanToken}

/-- The tracking of a token began with the first of the calls `since`, which follow those `before`:
the token was not tracked then, and it was tracked after each of them. -/
structure TrackedSince (h : History) (token : ScanToken) (before since : List HistoryCall) :
    Prop where
  begun : since ≠ []
  untracked : (h.run before).find? token = none
  tracked : ∀ front, front <+: since → front ≠ [] →
    ((h.run (before ++ front)).find? token).isSome = true

/-- Tracking begins with a call if the token was not tracked before it and is tracked after it. -/
theorem trackedSince_singleton {calls : List HistoryCall} {call : HistoryCall}
    (hnone : (h.run calls).find? token = none)
    (htracked : ((h.run (calls ++ [call])).find? token).isSome = true) :
    h.TrackedSince token calls [call] := by
  refine ⟨by simp, hnone, fun front hfront hne => ?_⟩
  rcases List.prefix_concat_iff.1 (show front <+: [] ++ [call] from hfront) with rfl | hnil
  · exact htracked
  · exact absurd (List.prefix_nil.1 hnil) hne

/-- Tracking goes on over a call if the token is still tracked after it. -/
theorem TrackedSince.append_singleton {before since : List HistoryCall}
    (hsince : h.TrackedSince token before since) {call : HistoryCall}
    (htracked : ((h.run (before ++ since ++ [call])).find? token).isSome = true) :
    h.TrackedSince token before (since ++ [call]) := by
  refine ⟨by simp, hsince.untracked, fun front hfront hne => ?_⟩
  rcases List.prefix_concat_iff.1 hfront with rfl | hfront
  · rwa [← List.append_assoc]
  · exact hsince.tracked front hfront hne

/-- The tracking of every token that is tracked, and was not at first, began at some call. -/
theorem exists_trackedSince (hnone : h.find? token = none) {calls : List HistoryCall}
    (hsome : ((h.run calls).find? token).isSome = true) :
    ∃ before since, calls = before ++ since ∧ h.TrackedSince token before since := by
  induction calls using List.reverseRecOn with
  | nil =>
    rw [run_nil, hnone] at hsome
    contradiction
  | append_singleton calls call ih =>
    -- either the tracking before goes on, or it begins with this call
    by_cases htracked : ((h.run calls).find? token).isSome = true
    · obtain ⟨before, since, rfl, hsince⟩ := ih htracked
      exact ⟨before, since ++ [call], List.append_assoc _ _ _, hsince.append_singleton hsome⟩
    · exact ⟨calls, [call], rfl,
        trackedSince_singleton (Option.not_isSome_iff_eq_none.1 htracked) hsome⟩

/-- The tracking of a token begins with a record for it, and what is known of it since then comes
from the calls since then. -/
theorem TrackedSince.exists_holds {before since : List HistoryCall}
    (hsince : h.TrackedSince token before since) (hw : h.WellFormed) :
    ∃ sender entries now rest, since = .record token sender entries now :: rest ∧
      ∃ t, (h.run (before ++ since)).find? token = some t ∧
        t.Holds h.limits.maxSenders.toNat token (h.run before).nextGeneration now since := by
  obtain ⟨first, rest, rfl⟩ := List.exists_cons_of_ne_nil hsince.begun
  have hfirst := hsince.tracked [first] (List.cons_prefix_cons.2 ⟨rfl, List.nil_prefix⟩) (by simp)
  rw [run_append, run_cons, run_nil] at hfirst
  rcases find?_step_of_none (hw.run before) hsince.untracked first with
    hnone | ⟨sender, entries, now, rfl, hstart⟩
  · rw [hnone] at hfirst
    contradiction
  · refine ⟨sender, entries, now, rest, rfl, _, ?_, TrackedToken.holds_foldl _ _ _ _ _⟩
    rw [run_append, run_cons,
      find?_run ((hw.run before).step _) hstart, limits_step, limits_run]
    · rfl
    · intro front hfront
      have htracked := hsince.tracked (.record token sender entries now :: front)
        (List.cons_prefix_cons.2 ⟨rfl, hfront⟩) (by simp)
      rwa [run_append] at htracked

/-- Recording for a token answers by the messages that the token holds. -/
theorem outcome_record (hw : h.WellFormed) {t : TrackedToken} (ht : h.find? token = some t)
    (hle : t.messages.length ≤ h.limits.maxSenders.toNat) (sender : UInt64)
    (entries : List ShareEntry) (now : Nat) :
    (h.record token sender entries now).1 =
      answer h.limits.maxSenders.toNat t.messages sender := by
  rw [record, ensure_of_some ht, recordTracked, ht]
  exact (hw.counted t (mem_of_find? ht).1).outcome_record hle

/-- Recording for a token that is not tracked answers as if it were tracked and held nothing. -/
theorem outcome_record_of_none (hnone : h.find? token = none) (sender : UInt64)
    (entries : List ShareEntry) (now : Nat) :
    (h.record token sender entries now).1 = answer h.limits.maxSenders.toNat [] sender := by
  rw [record, ensure_of_none hnone, recordTracked, find?_track_self hnone]
  exact (TrackedToken.counted_start token _ now).outcome_record (Nat.zero_le _)

/-- **A token holds what was recorded since its tracking began.**  The tracking of every tracked token
began at some call.  Wherever it began, the messages of the token are those recorded for it since
then, of each sender the first, cut to the limit of senders; its generation and its first time are
those of the beginning, and it is matched if it was marked since then.  A record for the token is
answered by the messages it holds, which are none if it is not tracked. -/
theorem contents_of_tracked (limits : HistoryLimits) (calls : List HistoryCall)
    (token : ScanToken) :
    let h := (empty limits).run calls
    let limit := limits.maxSenders.toNat
    ((h.find? token).isSome = true →
      ∃ before since, calls = before ++ since ∧ (empty limits).TrackedSince token before since) ∧
    (∀ before since, calls = before ++ since →
      (empty limits).TrackedSince token before since →
        let held := heard limit (messagesFor token since)
        h.messages? token = some held ∧ h.senderCount token = held.length ∧
        (∀ sender entries now, (h.record token sender entries now).1 = answer limit held sender) ∧
        ∃ sender entries begun rest, since = .record token sender entries begun :: rest ∧
          ∃ t, h.find? token = some t ∧ t.firstSeen = begun ∧
            t.generation = ((empty limits).run before).nextGeneration ∧
            (t.state = .matched ↔ .markMatched token t.generation ∈ since)) ∧
    (h.find? token = none → h.messages? token = none ∧ h.senderCount token = 0 ∧
      ∀ sender entries now, (h.record token sender entries now).1 = answer limit [] sender) := by
  intro h limit
  have hempty := wellFormed_empty limits
  have hlimits : h.limits = limits := limits_run (empty limits) calls
  refine ⟨exists_trackedSince rfl, ?_, fun hnone => ⟨?_, ?_, fun sender entries now => ?_⟩⟩
  · rintro before since rfl hsince held
    obtain ⟨sender, entries, begun, rest, hrest, t, ht, hholds⟩ := hsince.exists_holds hempty
    have hmessages : t.messages = held := hholds.messages_eq
    refine ⟨?_, ?_, fun sender entries now => ?_, sender, entries, begun, rest, hrest, t, ht,
      hholds.firstSeen_eq, hholds.generation_eq, ?_⟩
    · rw [messages?, ht, Option.map_some, hmessages]
    · have hcount := hholds.counted.perm.length_eq
      rw [List.length_map, hmessages] at hcount
      simp only [senderCount, h, ht, hcount]
    · have hle : t.messages.length ≤ h.limits.maxSenders.toNat := by
        rw [hmessages, hlimits]
        exact length_heard_le limit _
      rw [outcome_record (hempty.run _) ht hle, hmessages, hlimits]
    · rw [hholds.generation_eq]
      exact hholds.state_iff
  · rw [messages?, hnone]
    rfl
  · simp only [senderCount, hnone]
  · rw [outcome_record_of_none hnone, hlimits]

set_option maxRecDepth 4000 in
/-- A token is heard of, matched and dropped, and heard of anew: the first sender may speak again. -/
theorem contents_of_tracked_anew :
    ∃ (limits : HistoryLimits) (token : ScanToken) (before since : List HistoryCall),
      let h := (empty limits).run (before ++ since)
      ((empty limits).run (before.take 2)).state? token = some .matched ∧
        (empty limits).TrackedSince token before since ∧
        h.messages? token = some [⟨2, []⟩, ⟨3, []⟩] ∧ h.senderCount token = 2 ∧
        (h.record token 1 [] 9).1 = .recorded ∧ (h.record token 2 [] 9).1 = .duplicateSender ∧
        ∃ t, h.find? token = some t ∧ t.firstSeen = 5 ∧ t.state ≠ .matched := by
  let token : ScanToken := ⟨List.replicate 132 '0', by simp [isAscii], List.length_replicate⟩
  let limits : HistoryLimits := ⟨1, 3, 1, none⟩
  let before : List HistoryCall := [.record token 1 [] 0, .markMatched token 0, .evict token]
  let since : List HistoryCall :=
    [.record token 2 [] 5, .record token 2 [] 6, .record token 3 [] 4]
  have hmatched : ((empty limits).run (before.take 2)).state? token = some .matched := by decide
  have hsince : (empty limits).TrackedSince token before since := by
    refine ⟨List.cons_ne_nil _ _, by decide, fun front hfront => ?_⟩
    have htracked : ∀ front ∈ since.inits, front ≠ [] →
        (((empty limits).run (before ++ front)).find? token).isSome = true := by decide
    exact htracked front ((List.mem_inits front since).2 hfront)
  have hheld : heard 3 (messagesFor token since) = [⟨2, []⟩, ⟨3, []⟩] := by decide
  obtain ⟨-, hcontents, -⟩ := contents_of_tracked limits (before ++ since) token
  obtain ⟨hmessages, hcount, houtcome, sender, entries, begun, rest, hfirst, t, ht, hbegun, -,
    hstate⟩ := hcontents before since rfl hsince
  obtain ⟨hcall, -⟩ := List.cons.inj hfirst
  refine ⟨limits, token, before, since, hmatched, hsince, hmessages.trans (congrArg some hheld),
    hcount.trans (congrArg List.length hheld), ?_, ?_, t, ht, ?_, fun hmarked => ?_⟩
  · exact (houtcome 1 [] 9).trans (congrArg (answer 3 · 1) hheld)
  · exact (houtcome 2 [] 9).trans (congrArg (answer 3 · 2) hheld)
  · exact hbegun.trans (HistoryCall.record.inj hcall).2.2.2.symm
  · simpa [since] using hstate.1 hmarked

end History

end LinkCommittee
