import LinkCommittee.Proofs.History.NoEffect

/-!
# Pruning

A pruning drops the tokens that have been tracked for longer than the lifetime.  The age
of a token counts from the record with which its tracking began, and is zero while the
clock shows an earlier time.  Table and queue are filtered in different ways, the table by
age and the queue by what the table still holds; as long as they agree both come to the
same (`History.Represented.prune_eq`).

A token that survives at the later of two times survives at the earlier one, whichever of
them is asked about first (`TrackedToken.survives_max`).  So two prunings do what the later
of them does alone.  Main statement: `History.prune_laws`.
-/

namespace LinkCommittee

namespace TrackedToken

/-- Whether a pruning keeps a token: there is no lifetime, or the token is not older. -/
def survives (lifetime : Option Duration) (now : Nat) (t : TrackedToken) : Bool :=
  lifetime.all fun lifetime => !t.expired lifetime now

theorem survives_some (lifetime : Duration) (now : Nat) (t : TrackedToken) :
    t.survives (some lifetime) now = !t.expired lifetime now := by
  rw [survives, Option.all_some]

/-- A token survives at the later of two times exactly if it survives at both. -/
theorem survives_max (lifetime : Option Duration) (first second : Nat) (t : TrackedToken) :
    t.survives lifetime (max first second) =
      (t.survives lifetime first && t.survives lifetime second) := by
  cases lifetime with
  | none => rfl
  | some lifetime =>
    rw [Bool.eq_iff_iff]
    simp only [survives_some, expired, Bool.and_eq_true, Bool.not_eq_true',
      decide_eq_false_iff_not]
    omega

end TrackedToken

namespace History

variable {h : History} {token : ScanToken}

/-- The history that tracks only the tokens with some property, each as before. -/
def restrict (h : History) (p : TrackedToken → Bool) : History :=
  { h with
    tracked := h.tracked.filter p
    order := (h.tracked.filter p).map TrackedToken.token }

theorem restrict_restrict (h : History) (p q : TrackedToken → Bool) :
    (h.restrict p).restrict q = h.restrict fun t => p t && q t := by
  simp only [restrict, List.filter_filter, Bool.and_comm]

/-- **Pruning keeps the tokens that survive**, in the queue as in the table. -/
theorem Represented.prune_eq (hr : h.Represented) (now : Nat) :
    (h.prune now).2 = h.restrict (TrackedToken.survives h.limits.lifetime now) := by
  have horder := (hr.prune now).order_eq
  have htracked : (h.prune now).2.tracked =
      h.tracked.filter (TrackedToken.survives h.limits.lifetime now) := by
    unfold History.prune
    cases hlifetime : h.limits.lifetime with
    | none => exact (List.filter_eq_self.2 fun _ _ => rfl).symm
    | some lifetime =>
      exact List.filter_congr fun t _ => (TrackedToken.survives_some lifetime now t).symm
  have hlimits : (h.prune now).2.limits = h.limits := limits_step h (.prune now)
  have hnext := nextGeneration_prune h now
  rw [htracked] at horder
  cases hpruned : (h.prune now).2
  rw [hpruned] at horder htracked hlimits hnext
  subst horder htracked hlimits hnext
  rfl

/-- What is dropped and what is kept make up the history. -/
theorem prune_add_size (h : History) (now : Nat) :
    (h.prune now).1 + (h.prune now).2.size = h.size := by
  unfold prune
  split
  · exact Nat.zero_add _
  · exact Nat.sub_add_cancel (List.length_filter_le _ _)

/-- The queue keeps the tokens that are still tracked, in their order. -/
theorem Represented.order_restrict (hr : h.Represented) (p : TrackedToken → Bool) :
    (h.restrict p).order =
      h.order.filter fun token => ((h.restrict p).find? token).isSome := by
  rw [hr.order_eq, List.filter_map]
  refine congrArg (List.map TrackedToken.token) (List.filter_congr fun t ht => ?_)
  have hfound := (find?_eq_some_iff hr.toWellFormed).2 ⟨ht, rfl⟩
  have hkept : (h.restrict p).tracked = h.tracked.filter p := rfl
  have hgone := find?_eq_none_iff_of_filter hr.toWellFormed hfound hkept
  rw [Function.comp_apply]
  cases hp : p t with
  | true =>
    rw [hp] at hgone
    exact (Option.isSome_iff_ne_none.2 fun hnone => Bool.noConfusion (hgone.1 hnone)).symm
  | false => rw [hgone.2 hp, Option.isSome_none]

/-- The answer counts the tokens that were tracked and are not any more. -/
theorem Represented.prune_count (hr : h.Represented) (now : Nat) :
    (h.prune now).1 =
      (h.order.filter fun token => ((h.prune now).2.find? token).isNone).length := by
  have hkept := congrArg List.length
    (hr.order_restrict (TrackedToken.survives h.limits.lifetime now))
  rw [← hr.prune_eq, (hr.prune now).order_eq, List.length_map] at hkept
  have hsize := hr.length_order
  have hsplit := List.length_eq_length_filter_add
    (l := h.order) fun token => ((h.prune now).2.find? token).isSome
  have hdropped := prune_add_size h now
  simp only [Option.not_isSome] at hsplit
  unfold size at hdropped hsize
  omega

/-- **Two prunings do what the later of them does alone.**  A token that is young enough at the
later time is so at the earlier one. -/
theorem Represented.prune_prune (hr : h.Represented) (first second : Nat) :
    ((h.prune first).2.prune second).2 = (h.prune (max first second)).2 := by
  have hlimits : (h.prune first).2.limits = h.limits := limits_step h (.prune first)
  rw [(hr.prune first).prune_eq, hlimits, hr.prune_eq, hr.prune_eq, restrict_restrict]
  exact congrArg h.restrict (funext fun t => (t.survives_max h.limits.lifetime first second).symm)

theorem Represented.prune_prune_count (hr : h.Represented) (first second : Nat) :
    (h.prune first).1 + ((h.prune first).2.prune second).1 = (h.prune (max first second)).1 := by
  have honce := prune_add_size h first
  have htwice := prune_add_size (h.prune first).2 second
  have hboth := prune_add_size h (max first second)
  rw [hr.prune_prune] at htwice
  omega

/-- Pruning again at a time that is no later drops nothing. -/
theorem Represented.prune_again (hr : h.Represented) {first second : Nat} (hle : second ≤ first) :
    (h.prune first).2.prune second = (0, (h.prune first).2) := by
  have hstate := hr.prune_prune first second
  have hcount := hr.prune_prune_count first second
  rw [Nat.max_eq_left hle] at hstate hcount
  exact Prod.ext (by omega) hstate

/-- A pruning drops a token whose tracking began at a time, or leaves it as it is. -/
theorem find?_prune_of_begun (hw : h.WellFormed) {t : TrackedToken}
    (ht : h.find? token = some t) (now : Nat) :
    (h.prune now).2.find? token =
      if h.limits.lifetime.any fun lifetime => lifetime.toNanos < now - t.firstSeen then none
      else h.find? token := by
  have hgone := find?_prune_eq_none_iff hw ht now
  split
  next hold =>
    obtain ⟨lifetime, hlifetime, hage⟩ := (Option.any_eq_true _ _).1 hold
    exact hgone.2 ⟨lifetime, hlifetime, of_decide_eq_true hage⟩
  next hyoung =>
    refine (find?_of_sublist hw (prune_sublist h now) token).resolve_left fun hnone => hyoung ?_
    obtain ⟨lifetime, hlifetime, hage⟩ := hgone.1 hnone
    exact (Option.any_eq_true _ _).2 ⟨lifetime, hlifetime, decide_eq_true hage⟩

/-- **The laws of pruning.**  After any run, under any limits, a pruning drops exactly the tokens for
which the time since the record that began their tracking, zero if it is later, is greater than the
lifetime; it answers their number and leaves the others as they are and in their order.  Two
prunings do what one at the later time does, and answer together what it answers; so a pruning that
is no later than the one before it drops nothing.  Without a lifetime nothing is ever dropped. -/
theorem prune_laws (limits : HistoryLimits) (calls : List HistoryCall) :
    let h := (empty limits).run calls
    (∀ now, let pruned := h.prune now
      (∀ token, (h.find? token).isSome = true → ∃ before sender entries begun rest,
        calls = before ++ .record token sender entries begun :: rest ∧
        (empty limits).TrackedSince token before (.record token sender entries begun :: rest) ∧
        pruned.2.find? token =
          if limits.lifetime.any fun lifetime => lifetime.toNanos < now - begun then none
          else h.find? token) ∧
      (∀ token, h.find? token = none → pruned.2.find? token = none) ∧
      pruned.1 = (h.order.filter fun token => (pruned.2.find? token).isNone).length ∧
      pruned.2.order = (h.order.filter fun token => (pruned.2.find? token).isSome) ∧
      pruned.2.limits = h.limits ∧ pruned.2.nextGeneration = h.nextGeneration) ∧
    (∀ first second,
      ((h.prune first).2.prune second).2 = (h.prune (max first second)).2 ∧
      (h.prune first).1 + ((h.prune first).2.prune second).1 = (h.prune (max first second)).1) ∧
    (∀ first second, second ≤ first →
      (h.prune first).2.prune second = (0, (h.prune first).2)) ∧
    (limits.lifetime = none → ∀ now, h.prune now = (0, h)) := by
  intro h
  have hr : h.Represented := (represented_empty limits).run calls
  have hlimits : h.limits = limits := limits_run (empty limits) calls
  refine ⟨fun now => ⟨fun token htracked => ?_, fun token hnone => ?_, hr.prune_count now, ?_,
    limits_step h (.prune now), nextGeneration_prune h now⟩, fun first second =>
    ⟨hr.prune_prune first second, hr.prune_prune_count first second⟩,
    fun _ _ hle => hr.prune_again hle, fun hforever now => ?_⟩
  · obtain ⟨before, since, rfl, hsince⟩ := exists_trackedSince rfl htracked
    obtain ⟨sender, entries, begun, rest, rfl, t, ht, hholds⟩ :=
      hsince.exists_holds (wellFormed_empty limits)
    have hpruned := find?_prune_of_begun hr.toWellFormed ht now
    rw [hholds.firstSeen_eq, hlimits] at hpruned
    exact ⟨before, sender, entries, begun, rest, rfl, hsince, hpruned⟩
  · exact find?_eq_none_of_sublist (prune_sublist h now) hnone
  · rw [hr.prune_eq]
    exact hr.order_restrict _
  · rw [prune, hlimits, hforever]

set_option maxRecDepth 4000 in
/-- A token is dropped and comes back at an earlier time, and is heard of once more before it grows
too old; a token that came in between is younger. -/
theorem prune_laws_begun_anew :
    ∃ (limits : HistoryLimits) (token other : ScanToken) (calls : List HistoryCall),
      let h := (empty limits).run calls
      (h.find? token).isSome = true ∧
        (∃ before sender entries begun rest,
          calls = before ++ .record token sender entries begun :: rest ∧ 60 < 166 - begun) ∧
        (h.prune 166).2.find? token = none ∧ (h.prune 166).2.find? other = h.find? other ∧
        (h.prune 166).1 = 1 ∧ ((h.prune 160).2.prune 166).2 = (h.prune 166).2 ∧
        (h.prune 166).2.prune 160 = (0, (h.prune 166).2) := by
  let token := ScanToken.ofSymbol 'a' rfl
  let other := ScanToken.ofSymbol 'b' rfl
  let limits : HistoryLimits := ⟨4, 2, 1, some ⟨0, 60, by decide⟩⟩
  let calls : List HistoryCall :=
    [.record token 1 [] 130, .record other 1 [] 110, .evict token, .record token 1 [] 105,
      .record token 2 [] 150]
  obtain ⟨hdrops, hlater, hagain, -⟩ := prune_laws limits calls
  have htracked : (((empty limits).run calls).find? token).isSome = true := by decide
  have hgone : (((empty limits).run calls).prune 166).2.find? token = none := by decide
  have hkept : (((empty limits).run calls).prune 166).2.find? other =
      ((empty limits).run calls).find? other := by decide
  obtain ⟨before, sender, entries, begun, rest, hcalls, -, hpruned⟩ :=
    (hdrops 166).1 token htracked
  have hold : 60 < 166 - begun := by
    by_contra hyoung
    rw [hgone, if_neg (by simpa [limits, Duration.toNanos] using hyoung)] at hpruned
    rw [← hpruned] at htracked
    contradiction
  exact ⟨limits, token, other, calls, htracked,
    ⟨before, sender, entries, begun, rest, hcalls, hold⟩, hgone, hkept,
    (hdrops 166).2.2.1.trans (by decide), (hlater 160 166).1, hagain 166 160 (by decide)⟩

end History

end LinkCommittee
