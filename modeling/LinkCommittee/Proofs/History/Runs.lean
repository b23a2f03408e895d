import LinkCommittee.Proofs.History.Steps

/-!
# Runs of the share history

A run is a list of calls on one history, with any tokens, senders and times.  What a call
makes of a tracked token depends on nothing but the token and the call: the call drops it
or leaves `TrackedToken.after` (`History.find?_step`).  A token that was not tracked and
is tracked after a call was recorded for in that call, and all that is known of it comes
from there (`History.find?_step_of_none`).  A token that stays tracked over many calls is
what these calls make of it one after the other (`History.find?_run`).
-/

namespace LinkCommittee

/-- A call that may change the history. -/
inductive HistoryCall where
  | record (token : ScanToken) (sender : UInt64) (entries : List ShareEntry) (now : Nat)
  | markMatched (token : ScanToken) (generation : UInt64)
  | evict (token : ScanToken)
  | prune (now : Nat)
deriving DecidableEq

namespace TrackedToken

/-- What a call makes of a token that it does not drop. -/
def after (limit : Nat) (t : TrackedToken) : HistoryCall → TrackedToken
  | .record token sender entries _ =>
    if t.token = token then (t.record limit sender entries).2 else t
  | .markMatched token generation =>
    if t.token = token ∧ t.generation = generation then { t with state := .matched } else t
  | .evict _ => t
  | .prune _ => t

variable (limit : Nat) (t : TrackedToken) (call : HistoryCall)

/-- What a call makes of a token comes from it. -/
theorem becomes_after : t.Becomes (t.after limit call) := by
  cases call with
  | record token sender entries now =>
    simp only [after]
    split
    · exact t.becomes_record limit sender entries
    · exact .refl t
  | markMatched token generation =>
    simp only [after]
    split
    · exact t.becomes_matched
    · exact .refl t
  | evict token => exact .refl t
  | prune now => exact .refl t

/-- What calls make of a token comes from it. -/
theorem becomes_foldl (calls : List HistoryCall) : t.Becomes (calls.foldl (after limit) t) := by
  induction calls generalizing t with
  | nil => exact .refl t
  | cons call calls ih => exact (t.becomes_after limit call).trans (ih _)

/-- A call keeps the senders of a token and its messages in step. -/
theorem Counted.after {t : TrackedToken} (h : t.Counted) : (t.after limit call).Counted := by
  cases call with
  | record token sender entries now =>
    simp only [TrackedToken.after]
    split
    · exact h.record limit sender entries
    · exact h
  | markMatched token generation =>
    simp only [TrackedToken.after]
    split
    · exact h.matched
    · exact h
  | evict token => exact h
  | prune now => exact h

end TrackedToken

namespace History

/-- The history after a call. -/
def step (h : History) : HistoryCall → History
  | .record token sender entries now => (h.record token sender entries now).2
  | .markMatched token generation => (h.markMatched token generation).2
  | .evict token => (h.evict token).2
  | .prune now => (h.prune now).2

/-- The history after some calls. -/
def run (h : History) (calls : List HistoryCall) : History := calls.foldl step h

/-- Without calls nothing changes. -/
@[simp] theorem run_nil (h : History) : h.run [] = h := rfl

/-- Calls are made one after the other. -/
@[simp] theorem run_cons (h : History) (call : HistoryCall) (calls : List HistoryCall) :
    h.run (call :: calls) = (h.step call).run calls := rfl

/-- Calls behind others start from what these leave. -/
theorem run_append (h : History) (front back : List HistoryCall) :
    h.run (front ++ back) = (h.run front).run back := List.foldl_append

/-- Whether the tracking of a token begins with a call. -/
def begins (h : History) : HistoryCall → Bool
  | .record token _ _ _ => (h.find? token).isNone
  | .markMatched _ _ => false
  | .evict _ => false
  | .prune _ => false

/-- With how many of some calls the tracking of a token begins. -/
def starts (h : History) : List HistoryCall → Nat
  | [] => 0
  | call :: calls => (h.begins call).toNat + (h.step call).starts calls

/-- Trackings begin in some calls or in those behind them. -/
theorem starts_append (h : History) (front back : List HistoryCall) :
    h.starts (front ++ back) = h.starts front + (h.run front).starts back := by
  induction front generalizing h with
  | nil => exact (Nat.zero_add _).symm
  | cons call front ih =>
    rw [List.cons_append, starts, ih, starts, run_cons, Nat.add_assoc]

variable {h : History} {token : ScanToken}

/-! ### What every call keeps -/

/-- No call changes the limits. -/
theorem limits_step (h : History) (call : HistoryCall) : (h.step call).limits = h.limits := by
  cases call with
  | record token sender entries now =>
    show (h.record token sender entries now).2.limits = h.limits
    rw [record, recordTracked_tracked (find?_ensure h token now)]
    exact limits_ensure h token now
  | markMatched token generation =>
    simp only [step, markMatched]
    split <;> rfl
  | evict token =>
    simp only [step, evict]
    split <;> rfl
  | prune now =>
    simp only [step, prune]
    split <;> rfl

/-- The limits stay the same whatever the calls. -/
theorem limits_run (h : History) (calls : List HistoryCall) : (h.run calls).limits = h.limits := by
  induction calls generalizing h with
  | nil => rfl
  | cons call calls ih => exact (ih _).trans (limits_step h call)

/-- Every call keeps a history well formed. -/
theorem WellFormed.step (hw : h.WellFormed) (call : HistoryCall) : (h.step call).WellFormed := by
  cases call with
  | record token sender entries now => exact hw.record
  | markMatched token generation => exact hw.markMatched token generation
  | evict token => exact hw.sublist (evict_sublist h token)
  | prune now => exact hw.sublist (prune_sublist h now)

/-- A history that is well formed is so after any calls. -/
theorem WellFormed.run (hw : h.WellFormed) (calls : List HistoryCall) :
    (h.run calls).WellFormed := by
  induction calls generalizing h with
  | nil => exact hw
  | cons call calls ih => exact ih (hw.step call)

/-- A call gives a number exactly if it begins a tracking. -/
theorem nextGeneration_step (h : History) (call : HistoryCall) :
    (h.step call).nextGeneration =
      if h.begins call then h.nextGeneration + 1 else h.nextGeneration := by
  cases call with
  | record token sender entries now =>
    rw [step, nextGeneration_record, begins]
    cases h.find? token <;> rfl
  | markMatched token generation => exact nextGeneration_markMatched h token generation
  | evict token => exact nextGeneration_evict h token
  | prune now => exact nextGeneration_prune h now

/-! ### What a call makes of one token -/

/-- Where tokens are only dropped, a token is dropped or found as before. -/
theorem find?_of_sublist {h' : History} (hw : h.WellFormed)
    (hsub : h'.tracked.Sublist h.tracked) (token : ScanToken) :
    h'.find? token = none ∨ h'.find? token = h.find? token := by
  cases hfound : h'.find? token with
  | none => exact .inl rfl
  | some t =>
    obtain ⟨hmem, htoken⟩ := mem_of_find? hfound
    exact .inr ((find?_eq_some_iff hw).2 ⟨hsub.subset hmem, htoken⟩).symm

/-- A token that is not tracked is not tracked after tokens are dropped. -/
theorem find?_eq_none_of_sublist {h' : History} (hsub : h'.tracked.Sublist h.tracked)
    (hnone : h.find? token = none) : h'.find? token = none :=
  find?_eq_none_iff.2 fun hmem =>
    find?_eq_none_iff.1 hnone ((hsub.map TrackedToken.token).subset hmem)

/-- A tracked token is left as it is. -/
theorem ensure_of_some {t : TrackedToken} (ht : h.find? token = some t) (now : Nat) :
    h.ensure token now = h := if_pos (by rw [ht]; rfl)

/-- A token that is not tracked starts to be. -/
theorem ensure_of_none (hnone : h.find? token = none) (now : Nat) :
    h.ensure token now = h.track token now := if_neg (by rw [hnone]; exact Bool.false_ne_true)

/-- Beginning to track a token finds it new. -/
theorem find?_track_self (hnone : h.find? token = none) (now : Nat) :
    (h.track token now).find? token = some (.start token h.nextGeneration now) := by
  have hroom := find?_eq_none_of_sublist (makeRoom_sublist h) hnone
  unfold find? at hroom ⊢
  rw [track_tracked, List.find?_append, hroom]
  simp [TrackedToken.start]

/-- Beginning to track a token makes room, which is all it does to another one. -/
theorem find?_track_eq_makeRoom {token' : ScanToken} (hne : token' ≠ token) (now : Nat) :
    (h.track token' now).find? token = h.makeRoom.find? token := by
  unfold find?
  rw [track_tracked, List.find?_append]
  simp [TrackedToken.start, hne]

/-- Beginning to track a token may drop another one and does nothing else to it. -/
theorem find?_track_of_ne (hw : h.WellFormed) {token' : ScanToken} (hne : token' ≠ token)
    (now : Nat) :
    (h.track token' now).find? token = none ∨
      (h.track token' now).find? token = h.find? token := by
  rw [find?_track_eq_makeRoom hne]
  exact find?_of_sublist hw (makeRoom_sublist h) token

/-- Tracking one token leaves another as it is or drops it. -/
theorem find?_ensure_of_ne (hw : h.WellFormed) {token' : ScanToken} (hne : token' ≠ token)
    (now : Nat) :
    (h.ensure token' now).find? token = none ∨
      (h.ensure token' now).find? token = h.find? token := by
  unfold ensure
  split
  · exact .inr rfl
  · exact find?_track_of_ne hw hne now

/-- Recording makes of every token what is left after making room what the call makes of it. -/
theorem find?_step_record (h : History) (token token' : ScanToken) (sender : UInt64)
    (entries : List ShareEntry) (now : Nat) :
    (h.step (.record token' sender entries now)).find? token =
      ((h.ensure token' now).find? token).map fun t =>
        t.after h.limits.maxSenders.toNat (.record token' sender entries now) := by
  rw [step, record, recordTracked_tracked (find?_ensure h token' now), limits_ensure]
  exact find?_update_eq (fun t => (t.becomes_record _ sender entries).token) token

/-- Marking makes of every token what the call makes of it. -/
theorem find?_step_markMatched (h : History) (token token' : ScanToken) (generation : UInt64) :
    (h.step (.markMatched token' generation)).find? token =
      (h.find? token).map fun t =>
        t.after h.limits.maxSenders.toNat (.markMatched token' generation) := by
  simp only [step, markMatched, TrackedToken.after]
  split
  next hmarked =>
    refine (find?_update_eq ?_ token).trans (Option.map_congr fun t ht => ?_)
    · exact fun _ => rfl
    · by_cases htoken : t.token = token'
      · obtain rfl : token = token' := (mem_of_find? ht).2.symm.trans htoken
        rw [ht, Option.any_some, decide_eq_true_eq] at hmarked
        rw [if_pos htoken, if_pos ⟨htoken, hmarked⟩]
      · rw [if_neg htoken, if_neg fun hboth => htoken hboth.1]
  next hmarked =>
    cases hfound : h.find? token with
    | none => rfl
    | some t =>
      have hother : ¬ (t.token = token' ∧ t.generation = generation) := by
        rintro ⟨htoken, hgeneration⟩
        obtain rfl : token = token' := (mem_of_find? hfound).2.symm.trans htoken
        rw [hfound, Option.any_some, decide_eq_true_eq] at hmarked
        exact hmarked hgeneration
      rw [Option.map_some, if_neg hother]

/-- A tracked token is dropped by a call, or stays and is what the call makes of it. -/
theorem find?_step (hw : h.WellFormed) {t : TrackedToken} (ht : h.find? token = some t)
    (call : HistoryCall) :
    (h.step call).find? token = none ∨
      (h.step call).find? token = some (t.after h.limits.maxSenders.toNat call) := by
  cases call with
  | record token' sender entries now =>
    have hensure : (h.ensure token' now).find? token = none ∨
        (h.ensure token' now).find? token = some t := by
      by_cases htoken : token' = token
      · subst htoken
        rw [ensure_of_some ht]
        exact .inr ht
      · rw [← ht]
        exact find?_ensure_of_ne hw htoken now
    rw [find?_step_record]
    rcases hensure with hnone | hsome
    · rw [hnone]
      exact .inl rfl
    · rw [hsome]
      exact .inr rfl
  | markMatched token' generation =>
    rw [find?_step_markMatched, ht]
    exact .inr rfl
  | evict token' =>
    have hkept := find?_of_sublist hw (evict_sublist h token') token
    rw [ht] at hkept
    exact hkept
  | prune now =>
    have hkept := find?_of_sublist hw (prune_sublist h now) token
    rw [ht] at hkept
    exact hkept

/-- A token that was not tracked is tracked after a call only if the call is a record for it.  All
that is known of it then comes from this call. -/
theorem find?_step_of_none (hw : h.WellFormed) (hnone : h.find? token = none)
    (call : HistoryCall) :
    (h.step call).find? token = none ∨
      ∃ sender entries now, call = .record token sender entries now ∧
        (h.step call).find? token =
          some ((TrackedToken.start token h.nextGeneration now).after
            h.limits.maxSenders.toNat call) := by
  cases call with
  | record token' sender entries now =>
    by_cases htoken : token' = token
    · subst htoken
      refine .inr ⟨sender, entries, now, rfl, ?_⟩
      rw [find?_step_record, ensure_of_none hnone, find?_track_self hnone, Option.map_some]
    · have hensure : (h.ensure token' now).find? token = none := by
        rcases find?_ensure_of_ne hw htoken now with hdropped | hsame
        · exact hdropped
        · exact hsame.trans hnone
      rw [find?_step_record, hensure]
      exact .inl rfl
  | markMatched token' generation =>
    rw [find?_step_markMatched, hnone]
    exact .inl rfl
  | evict token' => exact .inl (find?_eq_none_of_sublist (evict_sublist h token') hnone)
  | prune now => exact .inl (find?_eq_none_of_sublist (prune_sublist h now) hnone)

/-- A token that stays tracked over some calls is what they make of it one after the other. -/
theorem find?_run (hw : h.WellFormed) {t : TrackedToken} (ht : h.find? token = some t)
    {calls : List HistoryCall}
    (hstays : ∀ front, front <+: calls → ((h.run front).find? token).isSome = true) :
    (h.run calls).find? token =
      some (calls.foldl (TrackedToken.after h.limits.maxSenders.toNat) t) := by
  induction calls generalizing h t with
  | nil => exact ht
  | cons call calls ih =>
    have hfirst := hstays [call] (List.cons_prefix_cons.2 ⟨rfl, List.nil_prefix⟩)
    have hlater : ∀ front, front <+: calls →
        (((h.step call).run front).find? token).isSome = true := fun front hfront =>
      hstays (call :: front) (List.cons_prefix_cons.2 ⟨rfl, hfront⟩)
    rcases find?_step hw ht call with hnone | hsome
    · rw [run_cons, run_nil, hnone] at hfirst
      contradiction
    · rw [run_cons, ih (hw.step call) hsome hlater, limits_step]
      rfl

end History

end LinkCommittee
