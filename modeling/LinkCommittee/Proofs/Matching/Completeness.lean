import LinkCommittee.Proofs.Address.AbAddress
import LinkCommittee.Proofs.Matching.Decision
import LinkCommittee.Proofs.Share.Combination
import LinkCommittee.Proofs.Share.PublicShares

/-!
# Completeness of matching

Two members of a committee hold values of a line whose start is the system secret.  The
public shares that they publish for a list of keys contain shares of every key in it.
If one of the keys is the owner of a request, the two shares of that key combine to the
key that the owner used to make the request, and the request is found.

Main statement: `History.tryMatchToken_complete`.
-/

namespace LinkCommittee

/-- Public shares of one key, by two members with different numbers, combine to the key that the
start of the line gives. -/
theorem ShareKey.exists_combine {start slope : Scalar} {first second : ShareKey}
    {a shared : PublicKey}
    (hfirst : first.secret.scalar = Share.line start slope first.owner.scalar)
    (hsecond : second.secret.scalar = Share.line start slope second.owner.scalar)
    (hne : first.owner.scalar ≠ second.owner.scalar)
    (hshared : start • Point.finite a = Point.finite shared) {keys keys' : List PublicKey}
    (ha : a ∈ keys) (ha' : a ∈ keys') :
    ∃ x ∈ first.publicShares keys, ∃ y ∈ second.publicShares keys',
      Share.combine x y = .ok shared ∧ Share.combine y x = .ok shared := by
  obtain ⟨x, hx, p, hreadx, hp⟩ := first.exists_publicShare ha
  obtain ⟨y, hy, q, hready, hq⟩ := second.exists_publicShare ha'
  rw [hfirst] at hp
  rw [hsecond] at hq
  exact ⟨x, hx, y, hy, Share.combine_line hreadx hready hne hp hq hshared,
    Share.combine_line hready hreadx hne.symm hq hp hshared⟩

theorem Combiner.lagrange_matches {x y : ShareEntry} {shared identity auxiliary : PublicKey}
    (hcombine : Share.combine x y = .ok shared)
    (hderive : deriveIdentity shared auxiliary = .ok identity) :
    Combiner.lagrange.Matches identity auxiliary x y := by
  unfold Combiner.Matches Combiner.lagrange
  dsimp only
  exact ⟨shared, hcombine, hderive⟩

namespace History

/-- Trying a token tries the address whose text it is. -/
theorem tryMatchToken_ofAddress (h : History) (combiner : Combiner) (address : AbAddress) :
    h.tryMatchToken combiner (.ofAddress address) =
      h.tryMatch combiner (.ofAddress address) address := by
  rw [tryMatchToken, ScanToken.toAddress_ofAddress]

/-- **Shares of the owner of a request are found.**  If two senders have published the shares of
two members for lists of keys that both hold the key of the owner, then trying the token of the
request finds a match and marks the token, whatever else was recorded for it. -/
theorem tryMatchToken_complete {start owner auxiliary : NonzeroScalar} {slope : Scalar}
    {system : PublicKey} {request : AbAddress} (hsystem : start.publicPoint = .finite system)
    (hrequest : deriveRequest owner system auxiliary = .ok request) {i j : UInt64} (hi : i ≠ 0)
    (hj : j ≠ 0) (hij : i ≠ j)
    (hfi : Share.line start.scalar slope (Scalar.ofNat i.toNat) ≠ 0)
    (hfj : Share.line start.scalar slope (Scalar.ofNat j.toNat) ≠ 0) :
    ∃ first second,
      ShareKey.new i (Share.line start.scalar slope (Scalar.ofNat i.toNat)) = .ok first ∧
      ShareKey.new j (Share.line start.scalar slope (Scalar.ofNat j.toNat)) = .ok second ∧
      ∀ a keys keys', owner.publicPoint = .finite a → a ∈ keys → a ∈ keys' →
        ∀ (h : History) (messages : List SenderShares),
          h.messages? (.ofAddress request) = some messages →
          ∀ m ∈ messages, ∀ m' ∈ messages, m.sender ≠ m'.sender →
            m.entries = first.publicShares keys → m'.entries = second.publicShares keys' →
            (h.tryMatchToken .lagrange (.ofAddress request)).1.matched = true ∧
              (h.tryMatchToken .lagrange (.ofAddress request)).2.state? (.ofAddress request) =
                some .matched := by
  obtain ⟨first, hfirst, hfirstOwner, hfirstSecret⟩ := ShareKey.exists_new hi hfi
  obtain ⟨second, hsecond, hsecondOwner, hsecondSecret⟩ := ShareKey.exists_new hj hfj
  refine ⟨first, second, hfirst, hsecond, ?_⟩
  intro a keys keys' howner ha ha' h messages hmessages m hm m' hm' hsender hentries hentries'
  obtain ⟨shared, point, identity, hshared, hidentity, rfl⟩ := exists_of_deriveRequest hrequest
  -- the owner and the committee meet in one key
  have hmeet : start.scalar • Point.finite a = Point.finite shared := by
    rw [hshared, ← howner, ← hsystem, owner.publicPoint_eq_smul, start.publicPoint_eq_smul,
      smul_smul, smul_smul, mul_comm]
  have hne : first.owner.scalar ≠ second.owner.scalar := by
    rw [hfirstOwner, hsecondOwner]
    exact fun hsame => hij (Scalar.ofNat_toNat_injective hsame)
  rw [← hfirstOwner] at hfirstSecret
  rw [← hsecondOwner] at hsecondSecret
  obtain ⟨x, hx, y, hy, hcombine, hcombine'⟩ :=
    ShareKey.exists_combine hfirstSecret hsecondSecret hne hmeet ha ha'
  rw [← hentries] at hx
  rw [← hentries'] at hy
  have hkeys := AbAddress.decompress_ofKeys identity point
  have hmessage : m ≠ m' := fun hsame => hsender (congrArg SenderShares.sender hsame)
  rw [tryMatchToken_ofAddress]
  rcases mem_pairs_or_mem_pairs hm hm' hmessage with hpair | hpair
  · have hmatch := Combiner.lagrange_matches hcombine hidentity
    exact tryMatch_of_matches hkeys hmessages hpair hx hy hmatch
  · have hmatch := Combiner.lagrange_matches hcombine' hidentity
    exact tryMatch_of_matches hkeys hmessages hpair hy hx hmatch

/-- Members one and two share the line `1 + x`; both publish their shares of the generator's key, to
which a request belongs. -/
theorem tryMatchToken_complete_generator :
    ∃ request first second a,
      ShareKey.new 1 2 = .ok first ∧ ShareKey.new 2 3 = .ok second ∧
        Point.generator = .finite a ∧
        let token := ScanToken.ofAddress request
        let h := (((empty .standard).record token 7 (first.publicShares [a]) 0).2.record token 5
          (second.publicShares [a]) 1).2
        (h.tryMatchToken .lagrange token).1.matched = true ∧
          (h.tryMatchToken .lagrange token).2.state? token = some .matched := by
  obtain ⟨a, ha⟩ : ∃ a, Point.generator.key? = some a := ⟨_, rfl⟩
  have hgenerator : Point.generator = .finite a := by
    cases ha
    rfl
  let one : NonzeroScalar := ⟨1, by decide⟩
  let auxiliary : NonzeroScalar := ⟨5, by decide⟩
  have hpublic : one.publicPoint = .finite a := by
    rw [← hgenerator]
    exact one_smul Scalar Point.generator
  have hmade : (deriveRequest one a auxiliary).toOption.isSome = true := by
    cases ha
    decide +kernel
  obtain ⟨request, hrequest⟩ := Option.isSome_iff_exists.1 hmade
  have hi : (1 : UInt64) ≠ 0 := by decide
  have hj : (2 : UInt64) ≠ 0 := by decide
  have hij : (1 : UInt64) ≠ 2 := by decide
  have hfi : Share.line one.scalar 1 (Scalar.ofNat (1 : UInt64).toNat) ≠ 0 := by decide
  have hfj : Share.line one.scalar 1 (Scalar.ofNat (2 : UInt64).toNat) ≠ 0 := by decide
  obtain ⟨first, second, hfirst, hsecond, hfinds⟩ := tryMatchToken_complete hpublic
    (Except.toOption_eq_some_iff.1 hrequest) hi hj hij hfi hfj
  refine ⟨request, first, second, a, hfirst, hsecond, hgenerator, ?_⟩
  intro token h
  have hmessages : h.messages? token =
      some [⟨7, first.publicShares [a]⟩, ⟨5, second.publicShares [a]⟩] := by
    simp [h, record, ensure, recordTracked, find?, track, makeRoom, empty, update, messages?,
      TrackedToken.record, TrackedToken.start, HistoryLimits.standard]
  have hsenders : (7 : UInt64) ≠ 5 := by decide
  exact hfinds a [a] [a] hpublic List.mem_cons_self List.mem_cons_self h _ hmessages _
    List.mem_cons_self _ (List.mem_cons_of_mem _ List.mem_cons_self) hsenders rfl rfl

end History

end LinkCommittee
