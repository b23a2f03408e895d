import LinkCommittee.Curve.Hashing
import LinkCommittee.Ring.Distinct
import LinkCommittee.Ring.Error

/-!
# Anonymity sets

An anonymity set is a list of public keys among which a signer hides: nonempty,
bounded and without repetitions.  Beside each key it holds the key's image base,
the point that the key hashes to; the key image of a signer is the multiple of the
image base by the signing key.  The digest of a set depends on the order of its
keys.  Main statement: `keys_of_ofKeys`, a set has the keys it was made of.
-/

namespace LinkCommittee

/-- The largest size of an anonymity set. -/
def maxRingSize : Nat := 4096

/-- The text under which image bases are hashed. -/
def imageBaseUse : String := "AB committee key image base"

/-- The text under which anonymity sets are hashed. -/
def anonymitySetUse : String := "AB committee anonymity set"

/-- The number that the compressed form of a key spells; it tells public keys apart. -/
def PublicKey.rank (key : PublicKey) : Nat := key.compress.toNat

/-- A key of an anonymity set and the base of its key images. -/
structure RingMember where
  key : PublicKey
  base : PublicKey
  base_eq : key.hashToCurve? imageBaseUse = some base
deriving DecidableEq

namespace RingMember

/-- The member with a given key, if the key hashes to the curve. -/
def ofKey? (key : PublicKey) : Option RingMember :=
  (key.hashToCurve? imageBaseUse).attach.map fun base => ⟨key, base.1, base.2⟩

theorem key_of_ofKey? {key : PublicKey} {member : RingMember} (h : ofKey? key = some member) :
    member.key = key := by
  obtain ⟨base, -, rfl⟩ := Option.map_eq_some_iff.1 h
  rfl

/-- The members with the given keys, if all of them hash to the curve. -/
def ofKeys? : List PublicKey → Option (List RingMember)
  | [] => some []
  | key :: keys => (ofKey? key).bind fun member => (ofKeys? keys).map (member :: ·)

theorem map_key_of_ofKeys? {keys : List PublicKey} {members : List RingMember}
    (h : ofKeys? keys = some members) : members.map key = keys := by
  induction keys generalizing members with
  | nil => cases h; rfl
  | cons key keys ih =>
    obtain ⟨member, first, h⟩ := Option.bind_eq_some_iff.1 h
    obtain ⟨members, rest, rfl⟩ := Option.map_eq_some_iff.1 h
    rw [List.map_cons, key_of_ofKey? first, ih rest]

end RingMember

/-- The keys among which a signer hides. -/
structure AnonymitySet where
  members : List RingMember
  members_ne_nil : members ≠ []
  length_le : members.length ≤ maxRingSize
  nodup_keys : (members.map RingMember.key).Nodup
deriving DecidableEq

namespace AnonymitySet

/-- The keys of a set, in order. -/
def keys (set : AnonymitySet) : List PublicKey := set.members.map RingMember.key

/-- The number of keys of a set. -/
def size (set : AnonymitySet) : Nat := set.members.length

theorem size_pos (set : AnonymitySet) : 0 < set.size :=
  List.length_pos_iff.2 set.members_ne_nil

/-- The place that a number comes to when places are counted around the ring. -/
def place (set : AnonymitySet) (number : Nat) : Fin set.size :=
  ⟨number % set.size, Nat.mod_lt _ set.size_pos⟩

/-- The member at a place. -/
def member (set : AnonymitySet) (place : Fin set.size) : RingMember := set.members.get place

/-- The set of the given keys, in the given order. -/
def ofKeys (keys : List PublicKey) : Except RingError AnonymitySet :=
  if nonempty : keys = [] then .error (.invalidParameter .empty)
  else if bounded : maxRingSize < keys.length then .error (.invalidParameter .tooLarge)
  else if distinct : allDistinct (keys.map PublicKey.rank) = false then
    .error (.invalidParameter .duplicate)
  else match (RingMember.ofKeys? keys).attach with
    | none => .error (.invalidParameter .noBase)
    | some ⟨members, h⟩ =>
      have same := RingMember.map_key_of_ofKeys? h
      .ok {
        members
        members_ne_nil := fun hm => nonempty (by rw [← same, hm]; rfl)
        length_le := by rw [← List.length_map RingMember.key, same]; omega
        nodup_keys := by
          rw [same]
          have ranks : (keys.map PublicKey.rank).Nodup := allDistinct_iff.1 (by simpa using distinct)
          exact List.Pairwise.of_map PublicKey.rank (fun a b h same => h (congrArg _ same)) ranks }

/-- A set has the keys that it was made of. -/
theorem keys_of_ofKeys {keys : List PublicKey} {set : AnonymitySet} (h : ofKeys keys = .ok set) :
    set.keys = keys := by
  unfold ofKeys at h
  split at h
  · contradiction
  split at h
  · contradiction
  split at h
  · contradiction
  split at h
  · contradiction
  next _ made _ =>
    cases h
    exact RingMember.map_key_of_ofKeys? made

/-- A set is as large as the list of keys that it was made of. -/
theorem size_of_ofKeys {keys : List PublicKey} {set : AnonymitySet} (h : ofKeys keys = .ok set) :
    set.size = keys.length := by
  rw [← keys_of_ofKeys h]
  simp [AnonymitySet.keys, size]

/-- The place of a key in a set. -/
def position? (set : AnonymitySet) (key : PublicKey) : Option Nat :=
  set.keys.findIdx? (· == key)

/-- The digest of the keys of a set in their order. -/
def digest (set : AnonymitySet) : Octets 32 :=
  digestFor anonymitySetUse (set.keys.flatMap fun key => key.compress.toList)

end AnonymitySet

end LinkCommittee
