import LinkCommittee.Ring.AnonymitySet
import LinkCommittee.Proofs.Curve.Encoding
import Mathlib.Data.List.Nodup

/-!
# Members of anonymity sets

The base of a member depends on its key alone, so a set is told by its keys: making a
set of the keys of a set gives the set back (`AnonymitySet.ofKeys_keys`).  A key is
found at a place where it stands.
-/

namespace LinkCommittee

theorem PublicKey.rank_injective : Function.Injective PublicKey.rank :=
  Octets.toNat_injective.comp compress_injective

namespace RingMember

/-- The base of a member depends on its key alone. -/
theorem base_eq_of_key_eq {a b : RingMember} (h : a.key = b.key) : a.base = b.base := by
  have hbase := a.base_eq
  rw [h, b.base_eq] at hbase
  exact (Option.some.inj hbase).symm

theorem ofKey?_key (member : RingMember) : ofKey? member.key = some member := by
  unfold ofKey?
  rw [Option.map_eq_some_iff]
  have hmem : member.base ∈ member.key.hashToCurve? imageBaseUse := member.base_eq
  exact ⟨⟨member.base, hmem⟩, Option.attach_eq_some_iff.2 hmem, rfl⟩

theorem ofKeys?_map_key (members : List RingMember) : ofKeys? (members.map key) = some members := by
  induction members with
  | nil => rfl
  | cons member members ih =>
    rw [List.map_cons, ofKeys?, ofKey?_key, Option.bind_some, ih, Option.map_some]

end RingMember

namespace AnonymitySet

/-- **A set is made again from its keys.**  They differ from each other, are no more than a set may
have, and each member carries the base that its key hashes to. -/
theorem ofKeys_keys (set : AnonymitySet) : ofKeys set.keys = .ok set := by
  have hnonempty : set.keys ≠ [] := fun h => set.members_ne_nil (List.map_eq_nil_iff.1 h)
  have hbounded : ¬maxRingSize < set.keys.length := by
    rw [keys, List.length_map]
    exact Nat.not_lt_of_le set.length_le
  have hdistinct : allDistinct (set.keys.map PublicKey.rank) = true :=
    allDistinct_iff.2 (set.nodup_keys.map PublicKey.rank_injective)
  have hmembers := RingMember.ofKeys?_map_key set.members
  unfold ofKeys
  rw [dif_neg hnonempty, dif_neg hbounded, dif_neg (by simp [hdistinct])]
  split
  next hnone =>
    rw [Option.attach_eq_none_iff] at hnone
    exact absurd (hmembers.symm.trans hnone) (by simp)
  next members h _ =>
    obtain rfl : members = set.members := Option.some.inj (h.symm.trans hmembers)
    rfl

theorem getElem?_keys (set : AnonymitySet) (index : Nat) :
    set.keys[index]? = set.members[index]?.map RingMember.key :=
  List.getElem?_map

/-- The place that is found for a key is one where the key stands. -/
theorem exists_member_of_position? {set : AnonymitySet} {key : PublicKey} {index : Nat}
    (h : set.position? key = some index) :
    ∃ member, set.members[index]? = some member ∧ member.key = key := by
  obtain ⟨hindex, hkey, -⟩ := List.findIdx?_eq_some_iff_getElem.1 h
  have hmember : index < set.members.length := by simpa [keys] using hindex
  refine ⟨set.members[index], List.getElem?_eq_getElem hmember, ?_⟩
  simpa [keys] using hkey

/-- A key of a set has a place. -/
theorem exists_position?_of_mem {set : AnonymitySet} {key : PublicKey} (h : key ∈ set.keys) :
    ∃ index, set.position? key = some index := by
  have hfound : (set.position? key).isSome = true := by
    rw [position?, List.findIdx?_isSome, List.any_eq_true]
    exact ⟨key, h, beq_self_eq_true key⟩
  exact Option.isSome_iff_exists.1 hfound

/-- A key that is not in a set has no place. -/
theorem position?_eq_none_of_not_mem {set : AnonymitySet} {key : PublicKey} (h : key ∉ set.keys) :
    set.position? key = none := by
  rw [position?, List.findIdx?_eq_none_iff]
  intro other hother
  rw [beq_eq_false_iff_ne]
  rintro rfl
  exact h hother

end AnonymitySet

end LinkCommittee
