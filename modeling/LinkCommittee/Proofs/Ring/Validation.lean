import LinkCommittee.Proofs.Curve.Hashing
import LinkCommittee.Proofs.Ring.AnonymitySet

/-!
# Which keys make an anonymity set

A set is told by its keys, so a list of keys makes a set exactly if it is the list of the
keys of one (`AnonymitySet.ofKeys_eq_ok_iff`).  Such lists are nonempty, bounded, without
repetitions and of keys that hash to the curve.  Every other list is refused for the first
fault it has in this order.  Repetitions are looked for in a sorted copy of the compressed
keys; distinct keys have distinct compressed forms, and the order of the list is left alone.

Main statement: `AnonymitySet.ofKeys_exact`.
-/

namespace LinkCommittee

/-- Keys that hash to the curve are the keys of members. -/
theorem RingMember.exists_map_key {keys : List PublicKey}
    (hhashed : ∀ key ∈ keys, ∃ base, key.HashesTo imageBaseUse base) :
    ∃ members : List RingMember, members.map RingMember.key = keys := by
  induction keys with
  | nil => exact ⟨[], rfl⟩
  | cons key keys ih =>
    obtain ⟨base, hbase⟩ := hhashed key List.mem_cons_self
    obtain ⟨members, rfl⟩ := ih fun other hother => hhashed other (List.mem_cons_of_mem _ hother)
    exact ⟨⟨key, base, PublicKey.hashToCurve?_eq_some_iff.2 hbase⟩ :: members, rfl⟩

/-- The base of a member is the point that its key hashes to. -/
theorem RingMember.hashesTo (member : RingMember) :
    member.key.HashesTo imageBaseUse member.base :=
  PublicKey.hashToCurve?_eq_some_iff.1 member.base_eq

namespace AnonymitySet

/-- Keys that an anonymity set can have: at least one and at most 4096, no key twice, each with a
point that it hashes to. -/
structure Acceptable (keys : List PublicKey) : Prop where
  one_le : 1 ≤ keys.length
  length_le : keys.length ≤ 4096
  distinct : keys.Nodup
  hashed : ∀ key ∈ keys, ∃ base, key.HashesTo imageBaseUse base

/-- The first fault of a list of keys, in the order in which faults are looked for: none at all, too
many, a key twice, and a key that does not hash to the curve. -/
inductive Refusal (keys : List PublicKey) : RingDefect → Prop
  | empty (nothing : keys.length < 1) : Refusal keys .empty
  | tooLarge (large : 4096 < keys.length) : Refusal keys .tooLarge
  | duplicate (nonempty : 1 ≤ keys.length) (bounded : keys.length ≤ 4096)
      (twice : ¬keys.Nodup) : Refusal keys .duplicate
  | noBase (nonempty : 1 ≤ keys.length) (bounded : keys.length ≤ 4096) (distinct : keys.Nodup)
      (key : PublicKey) (mem : key ∈ keys) (lost : ∀ base, ¬key.HashesTo imageBaseUse base) :
      Refusal keys .noBase

variable {keys : List PublicKey} {set : AnonymitySet}

/-- **A list of keys makes the set that has these keys**, and no other.  Their order is kept, and
each member takes the base that its key hashes to. -/
theorem ofKeys_eq_ok_iff : ofKeys keys = .ok set ↔ set.keys = keys := by
  constructor
  · exact keys_of_ofKeys
  · rintro rfl
    exact ofKeys_keys set

/-- The keys of a set are acceptable. -/
theorem acceptable_keys (set : AnonymitySet) : Acceptable set.keys where
  one_le := by
    rw [keys, List.length_map]
    exact List.length_pos_of_ne_nil set.members_ne_nil
  length_le := by
    rw [keys, List.length_map]
    exact set.length_le
  distinct := set.nodup_keys
  hashed := by
    intro key hkey
    obtain ⟨member, -, rfl⟩ := List.mem_map.1 hkey
    exact ⟨member.base, member.hashesTo⟩

/-- Acceptable keys are the keys of a set. -/
theorem Acceptable.exists_set (h : Acceptable keys) : ∃ set : AnonymitySet, set.keys = keys := by
  obtain ⟨members, rfl⟩ := RingMember.exists_map_key h.hashed
  have hlength := h.one_le
  have hbounded := h.length_le
  rw [List.length_map] at hlength hbounded
  exact ⟨⟨members, List.ne_nil_of_length_pos hlength, hbounded, h.distinct⟩, rfl⟩

/-- Some of the keys of a set, each of them once, are acceptable. -/
theorem Acceptable.of_subset (h : Acceptable keys) {part : List PublicKey} (hne : part ≠ [])
    (hdistinct : part.Nodup) (hpart : part ⊆ keys) : Acceptable part where
  one_le := List.length_pos_of_ne_nil hne
  length_le := Nat.le_trans (hdistinct.subperm hpart).length_le h.length_le
  distinct := hdistinct
  hashed := fun key hkey => h.hashed key (hpart hkey)

/-- Every list of keys is acceptable or has a first fault. -/
theorem acceptable_or_refusal (keys : List PublicKey) :
    Acceptable keys ∨ ∃ defect, Refusal keys defect := by
  by_cases hnonempty : 1 ≤ keys.length
  · by_cases hbounded : keys.length ≤ 4096
    · by_cases hdistinct : keys.Nodup
      · by_cases hhashed : ∀ key ∈ keys, ∃ base, key.HashesTo imageBaseUse base
        · exact .inl ⟨hnonempty, hbounded, hdistinct, hhashed⟩
        · push Not at hhashed
          obtain ⟨key, hmem, hlost⟩ := hhashed
          exact .inr ⟨_, .noBase hnonempty hbounded hdistinct key hmem hlost⟩
      · exact .inr ⟨_, .duplicate hnonempty hbounded hdistinct⟩
    · exact .inr ⟨_, .tooLarge (Nat.lt_of_not_le hbounded)⟩
  · exact .inr ⟨_, .empty (Nat.lt_of_not_le hnonempty)⟩

/-- The sorted copy of the compressed keys tells whether a key occurs twice. -/
theorem allDistinct_rank_iff : allDistinct (keys.map PublicKey.rank) = true ↔ keys.Nodup := by
  rw [allDistinct_iff, List.nodup_map_iff PublicKey.rank_injective]

/-- **A fault of a list of keys is what making a set reports.** -/
theorem Refusal.ofKeys_eq {defect : RingDefect} (h : Refusal keys defect) :
    ofKeys keys = .error (.invalidParameter defect) := by
  unfold ofKeys
  cases h with
  | empty nothing =>
    exact dif_pos (List.length_eq_zero_iff.1 (Nat.lt_one_iff.1 nothing))
  | tooLarge large =>
    rw [dif_neg (List.ne_nil_of_length_pos (by omega))]
    exact dif_pos large
  | duplicate nonempty bounded twice =>
    have hsize : ¬maxRingSize < keys.length := Nat.not_lt_of_le bounded
    rw [dif_neg (List.ne_nil_of_length_pos nonempty), dif_neg hsize]
    exact dif_pos (Bool.eq_false_of_not_eq_true (mt allDistinct_rank_iff.1 twice))
  | noBase nonempty bounded distinct key mem lost =>
    have hsize : ¬maxRingSize < keys.length := Nat.not_lt_of_le bounded
    have hsorted : ¬allDistinct (keys.map PublicKey.rank) = false := by
      rw [allDistinct_rank_iff.2 distinct]
      exact Bool.noConfusion
    rw [dif_neg (List.ne_nil_of_length_pos nonempty), dif_neg hsize, dif_neg hsorted]
    split
    · rfl
    next members hmade _ =>
      obtain rfl := RingMember.map_key_of_ofKeys? hmade
      obtain ⟨member, -, rfl⟩ := List.mem_map.1 mem
      exact absurd member.hashesTo (lost _)

/-- **A list of keys is refused exactly for its own defect.**  A list is acceptable or has a defect,
and of several the first one is reported. -/
theorem ofKeys_eq_error_iff {error : RingError} :
    ofKeys keys = .error error ↔ ∃ defect, error = .invalidParameter defect ∧
      Refusal keys defect := by
  constructor
  · intro h
    rcases acceptable_or_refusal keys with haccepted | ⟨defect, hrefusal⟩
    · obtain ⟨set, hkeys⟩ := haccepted.exists_set
      rw [ofKeys_eq_ok_iff.2 hkeys] at h
      contradiction
    · rw [hrefusal.ofKeys_eq] at h
      exact ⟨defect, (Except.error.inj h).symm, hrefusal⟩
  · rintro ⟨defect, rfl, hrefusal⟩
    exact hrefusal.ofKeys_eq

/-- **A key is found at the one place where it stands.**  The keys of a set differ, so there is no
second place. -/
theorem position?_eq_some_iff {key : PublicKey} {index : Nat} :
    set.position? key = some index ↔ set.keys[index]? = some key := by
  rw [position?, List.findIdx?_eq_some_iff_getElem, List.getElem?_eq_some_iff]
  constructor
  · rintro ⟨hindex, hkey, -⟩
    exact ⟨hindex, eq_of_beq hkey⟩
  · rintro ⟨hindex, rfl⟩
    refine ⟨hindex, beq_self_eq_true _, fun earlier hearlier hsame => ?_⟩
    have hplace := (List.Nodup.getElem_inj_iff set.nodup_keys).1 (eq_of_beq hsame)
    exact absurd hplace (Nat.ne_of_lt hearlier)

/-- **Exactly the acceptable lists of keys make a set.**  Every other list is refused for its first
fault.  The set of a list has its keys in the order given, beside each the point that the key hashes
to, and finds each key at the one place where it stands and no other key. -/
theorem ofKeys_exact (keys : List PublicKey) :
    ((∃ set, ofKeys keys = .ok set) ↔ 1 ≤ keys.length ∧ keys.length ≤ 4096 ∧ keys.Nodup ∧
      ∀ key ∈ keys, ∃ base, key.HashesTo imageBaseUse base) ∧
    (∀ set, ofKeys keys = .ok set → set.keys = keys ∧
      (∀ (index : Nat) (key : PublicKey), keys[index]? = some key →
        ∃ member : RingMember, set.members[index]? = some member ∧ member.key = key ∧
          key.HashesTo imageBaseUse member.base) ∧
      ∀ (key : PublicKey) (index : Nat),
        set.position? key = some index ↔ keys[index]? = some key) ∧
    ∀ error, ofKeys keys = .error error ↔
      ∃ defect, error = .invalidParameter defect ∧ Refusal keys defect := by
  refine ⟨⟨?_, ?_⟩, ?_, fun error => ofKeys_eq_error_iff⟩
  · rintro ⟨set, hset⟩
    obtain rfl := keys_of_ofKeys hset
    obtain ⟨hone, hbounded, hdistinct, hhashed⟩ := set.acceptable_keys
    exact ⟨hone, hbounded, hdistinct, hhashed⟩
  · rintro ⟨hone, hbounded, hdistinct, hhashed⟩
    obtain ⟨set, hkeys⟩ := Acceptable.exists_set ⟨hone, hbounded, hdistinct, hhashed⟩
    exact ⟨set, ofKeys_eq_ok_iff.2 hkeys⟩
  · intro set hset
    obtain rfl := keys_of_ofKeys hset
    refine ⟨rfl, fun index key hkey => ?_, fun key index => position?_eq_some_iff⟩
    rw [getElem?_keys] at hkey
    obtain ⟨member, hmember, rfl⟩ := Option.map_eq_some_iff.1 hkey
    exact ⟨member, hmember, rfl, member.hashesTo⟩

/-- The opposite of the generator and the generator make a set. -/
theorem exists_ofKeys_opposite :
    ∃ key, Point.generator = .finite key ∧ ∃ set, ofKeys [key.opposite, key] = .ok set := by
  obtain ⟨key, hkey⟩ : ∃ key, Point.generator = .finite key := ⟨_, rfl⟩
  have hhashed : (key.opposite.hashToCurve? imageBaseUse).isSome = true ∧
      (key.hashToCurve? imageBaseUse).isSome = true ∧ key.opposite ≠ key := by
    cases hkey
    decide +kernel
  obtain ⟨mirror, hmirror⟩ := Option.isSome_iff_exists.1 hhashed.1
  obtain ⟨base, hbase⟩ := Option.isSome_iff_exists.1 hhashed.2.1
  let members : List RingMember := [⟨key.opposite, mirror, hmirror⟩, ⟨key, base, hbase⟩]
  let set : AnonymitySet :=
    ⟨members, List.cons_ne_nil _ _, by simp [members, maxRingSize],
      by simpa [members] using hhashed.2.2⟩
  exact ⟨key, hkey, set, ofKeys_keys set⟩

/-- The generator stands behind its opposite; with itself in front of both it is refused. -/
theorem ofKeys_exact_opposite :
    ∃ (key : PublicKey) (set : AnonymitySet), ofKeys [key.opposite, key] = .ok set ∧
      [key.opposite, key].Nodup ∧ set.position? key = some 1 ∧
      (∃ member, set.members[1]? = some member ∧ key.HashesTo imageBaseUse member.base) ∧
      ofKeys [key, key.opposite, key] = .error (.invalidParameter .duplicate) := by
  obtain ⟨key, -, set, hset⟩ := exists_ofKeys_opposite
  obtain ⟨haccepted, hparts, -⟩ := ofKeys_exact [key.opposite, key]
  obtain ⟨-, -, hdistinct, -⟩ := haccepted.1 ⟨set, hset⟩
  obtain ⟨-, hmembers, hplaces⟩ := hparts set hset
  obtain ⟨member, hmember, -, hbase⟩ := hmembers 1 key rfl
  obtain ⟨-, -, hrefused⟩ := ofKeys_exact [key, key.opposite, key]
  have htwice : Refusal [key, key.opposite, key] .duplicate :=
    .duplicate (by simp) (by simp) (by simp)
  exact ⟨key, set, hset, hdistinct, (hplaces key 1).2 rfl, ⟨member, hmember, hbase⟩,
    (hrefused _).2 ⟨_, rfl, htwice⟩⟩

end AnonymitySet

end LinkCommittee
