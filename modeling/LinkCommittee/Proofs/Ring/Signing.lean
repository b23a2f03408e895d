import LinkCommittee.Ring.Signature
import Mathlib.Data.List.Basic

/-!
# The walk of a signer

A signer writes challenges and responses into two arrays while it counts places around
the ring (`SignerWalk.around`).  The places behind its own are visited first and those
before it last, so the walk is two runs without a turn in between.  A run draws the
responses of its places in their order, and the challenge behind it is the one that
follows from its positions (`SignerWalk.Ran`).

So the signature that is made has the first challenge of the ring, and its responses stand
before, at and behind the place of the signer, although those behind were drawn first.

Main statement: `RingSignature.sign_eq_ok_iff`.
-/

namespace LinkCommittee

namespace AnonymitySet

variable (set : AnonymitySet)

/-- The place behind a place is that of the next number. -/
theorem place_val_succ (number : Nat) :
    set.place ((set.place number).val + 1) = set.place (number + 1) :=
  Fin.ext (Nat.mod_add_mod number set.size 1)

/-- Full turns lead back to the same place. -/
theorem val_place_add {turns number : Nat} (hturns : turns % set.size = 0)
    (hnumber : number < set.size) : (set.place (turns + number)).val = number := by
  show (turns + number) % set.size = number
  rw [Nat.add_mod, hturns, Nat.zero_add, Nat.mod_mod, Nat.mod_eq_of_lt hnumber]

theorem drop_members (place : Fin set.size) :
    set.members.drop place = set.member place :: set.members.drop (place + 1) :=
  List.drop_eq_getElem_cons place.isLt

/-- The member in a place is the one that the list has there. -/
theorem member_eq_iff {place : Fin set.size} {member : RingMember} :
    set.member place = member ↔ set.members[place.val]? = some member := by
  have hinside : place.val < set.members.length := place.isLt
  rw [List.getElem?_eq_getElem hinside, Option.some_inj]
  exact Iff.rfl

end AnonymitySet

/-- Scalars are drawn one after the other. -/
theorem NonceSource.scalars_succ (count : Nat) (source : NonceSource) :
    source.scalars (count + 1) =
      (source.scalar.1 :: (source.scalar.2.scalars count).1,
        (source.scalar.2.scalars count).2) := by
  rw [scalars]

namespace SignerWalk

variable {hash : Point → Point → Scalar} {image : PublicKey} {set : AnonymitySet}

/-! ### One visit -/

/-- A visit writes the challenge that follows from its position. -/
theorem get_visit (walk : SignerWalk set.size) (place : Fin set.size) :
    (visit hash image set walk place).challenges.get (set.place (place + 1)) =
      RingPosition.next hash image (walk.challenges.get place)
        (set.member place, walk.source.scalar.1) := by
  rw [visit]
  exact Vector.getElem_set_self (Fin.isLt _)

/-- A visit writes no other challenge. -/
theorem get_visit_of_ne {walk : SignerWalk set.size} {place other : Fin set.size}
    (hne : set.place (place + 1) ≠ other) :
    (visit hash image set walk place).challenges.get other = walk.challenges.get other := by
  rw [visit]
  exact Vector.getElem_set_ne (Fin.isLt _) (Fin.isLt _) (Fin.val_ne_of_ne hne)

/-- A visit writes the response that it draws. -/
theorem toList_visit (walk : SignerWalk set.size) (place : Fin set.size) :
    (visit hash image set walk place).responses.toList =
      walk.responses.toList.set place walk.source.scalar.1 := by
  rw [visit]
  exact Vector.toList_set place.isLt

/-- Every visit draws one scalar. -/
theorem source_visit (walk : SignerWalk set.size) (place : Fin set.size) :
    (visit hash image set walk place).source = walk.source.scalar.2 := by
  rw [visit]

/-! ### A run without a turn -/

/-- Visits to the places of so many numbers, from the first one on. -/
def visits (hash : Point → Point → Scalar) (image : PublicKey) (set : AnonymitySet)
    (walk : SignerWalk set.size) (first count : Nat) : SignerWalk set.size :=
  (List.range' first count).foldl (fun walk number => visit hash image set walk (set.place number))
    walk

theorem visits_succ (walk : SignerWalk set.size) (first count : Nat) :
    visits hash image set walk first (count + 1) =
      visits hash image set (visit hash image set walk (set.place first)) (first + 1) count := by
  rw [visits, List.range'_succ, List.foldl_cons, visits]

/-- What a run over `count` places leaves behind, the first place having a number and full turns lying
before it.  The responses between `front` and `back` are those that were drawn, the challenge behind
the run follows from its positions, and the first challenge of the ring is that from before unless
the run comes around to it. -/
structure Ran (hash : Point → Point → Scalar) (image : PublicKey) (set : AnonymitySet)
    (turns number count : Nat) (front back : List Scalar) (walk walk' : SignerWalk set.size) :
    Prop where
  source_eq : walk'.source = (walk.source.scalars count).2
  responses_eq : walk'.responses.toList = front ++ (walk.source.scalars count).1 ++ back
  challenge_eq : walk'.challenges.get (set.place (turns + number + count)) =
    RingPosition.walk hash image (walk.challenges.get (set.place (turns + number)))
      (((set.members.drop number).take count).zip (walk.source.scalars count).1)
  first_eq : number + count < set.size →
    walk'.challenges.get (set.place 0) = walk.challenges.get (set.place 0)

variable {turns number count : Nat} {front middle back : List Scalar}
  {walk walk' : SignerWalk set.size}

/-- **A run may begin one place earlier**, with a visit there.  Its response stands in front of
those of the shorter run, and its challenge is the one that run sets out from. -/
theorem Ran.of_visit (hturns : turns % set.size = 0) (hinside : number < set.size)
    (h : Ran hash image set turns (number + 1) count (front ++ [walk.source.scalar.1]) back
      (visit hash image set walk (set.place (turns + number))) walk') :
    Ran hash image set turns number (count + 1) front back walk walk' := by
  obtain ⟨hsource, hresponses, hchallenge, hfirst⟩ := h
  rw [source_visit] at hsource hresponses hchallenge
  have hplace := set.val_place_add hturns hinside
  have hnext : set.place ((set.place (turns + number)).val + 1) =
      set.place (turns + (number + 1)) := set.place_val_succ _
  refine ⟨?_, ?_, ?_, ?_⟩
  · rw [NonceSource.scalars_succ]
    exact hsource
  · rw [NonceSource.scalars_succ, hresponses, List.append_assoc front, List.singleton_append]
  · have hdrop := set.drop_members (set.place (turns + number))
    rw [hplace] at hdrop
    have hend : turns + number + (count + 1) = turns + (number + 1) + count := by omega
    rw [NonceSource.scalars_succ, hdrop, List.take_succ_cons, List.zip_cons_cons, hend, hchallenge,
      ← hnext, get_visit]
    rfl
  · intro hshort
    rw [hfirst (by omega)]
    apply get_visit_of_ne
    intro hsame
    have hvalue := congrArg Fin.val hsame
    have hzero : (set.place 0).val = 0 := Nat.zero_mod _
    rw [hnext, set.val_place_add hturns (by omega), hzero] at hvalue
    contradiction

/-- **Visits one after the other are a run.**  By induction on their number, the first visit coming
off the front. -/
theorem ran_visits (hturns : turns % set.size = 0) (hcount : number + count ≤ set.size)
    (hresponses : walk.responses.toList = front ++ middle ++ back)
    (hfront : front.length = number) (hmiddle : middle.length = count) :
    Ran hash image set turns number count front back walk
      (visits hash image set walk (turns + number) count) := by
  induction count generalizing number walk front middle with
  | zero =>
    obtain rfl := List.length_eq_zero_iff.1 hmiddle
    exact ⟨rfl, hresponses, rfl, fun _ => rfl⟩
  | succ count ih =>
    obtain ⟨old, middle, rfl⟩ := List.exists_cons_of_length_eq_add_one hmiddle
    have hinside : number < set.size := by omega
    have hwritten : (visit hash image set walk (set.place (turns + number))).responses.toList =
        (front ++ [walk.source.scalar.1]) ++ middle ++ back := by
      rw [toList_visit, hresponses, set.val_place_add hturns hinside, List.append_assoc,
        List.set_append_right _ _ (Nat.le_of_eq hfront), hfront, Nat.sub_self, List.cons_append,
        List.set_cons_zero, List.append_assoc, List.append_assoc, List.singleton_append]
    have hlonger : (front ++ [walk.source.scalar.1]).length = number + 1 := by
      rw [List.length_append, hfront, List.length_singleton]
    rw [visits_succ]
    exact (ih (by omega) hwritten hlonger (Nat.succ.inj hmiddle)).of_visit hturns hinside

/-! ### The walk around the ring -/

/-- **The walk is two runs**, one behind the signer and one before it.  Numbers run up to the size
of the ring behind the signer, and from there on they come to the places from zero. -/
theorem around_eq (walk : SignerWalk set.size) (own : Fin set.size) :
    around hash image set walk own =
      visits hash image set (visits hash image set walk (own + 1) (set.size - 1 - own))
        set.size own := by
  have hown : own.val < set.size := own.isLt
  have hnumbers : (List.range' 1 (set.size - 1)).map (own.val + ·) =
      List.range' (own + 1) (set.size - 1 - own) ++ List.range' set.size own := by
    have hend : own.val + 1 + (set.size - 1 - own) = set.size := by omega
    have hcount : set.size - 1 = set.size - 1 - own + own := by omega
    rw [List.map_add_range']
    conv_lhs => rw [hcount]
    rw [← List.range'_append_1, hend]
  rw [visits, visits, ← List.foldl_append, ← hnumbers, List.foldl_map, around]

/-- The places behind the signer, where nothing has been drawn yet. -/
theorem ran_behind (own : Fin set.size) (nonce : Scalar) (source : NonceSource) :
    let begun := start hash set own nonce source
    Ran hash image set 0 (own + 1) (set.size - 1 - own) (List.replicate (own + 1) Scalar.zero) []
      begun (visits hash image set begun (own + 1) (set.size - 1 - own)) := by
  intro begun
  have hown : own.val < set.size := own.isLt
  have hsplit : own.val + 1 + (set.size - 1 - own) = set.size := by omega
  have hempty : begun.responses.toList = List.replicate (own + 1) Scalar.zero ++
      List.replicate (set.size - 1 - own) Scalar.zero ++ [] := by
    rw [List.append_nil, List.replicate_append_replicate, hsplit]
    exact Vector.toList_replicate
  have hran : Ran hash image set 0 (own + 1) (set.size - 1 - own)
      (List.replicate (own + 1) Scalar.zero) [] begun
      (visits hash image set begun (0 + (own + 1)) (set.size - 1 - own)) :=
    ran_visits (Nat.zero_mod set.size) (Nat.le_of_eq hsplit) hempty List.length_replicate
      List.length_replicate
  rwa [Nat.zero_add] at hran

/-- The places before the signer, behind which the responses are known. -/
theorem ran_before {own : Fin set.size} {walk : SignerWalk set.size} {known : List Scalar}
    (h : walk.responses.toList = List.replicate own Scalar.zero ++ known) :
    Ran hash image set set.size 0 own [] known walk
      (visits hash image set walk set.size own) := by
  have hown : 0 + own.val ≤ set.size := by omega
  exact ran_visits (Nat.mod_self set.size) hown h rfl List.length_replicate

/-- **What the walk leaves behind.**  The responses behind the signer are drawn first, then those
before it.  From the challenge behind the signer there follows the first challenge of the ring, and
from this the challenge of the signer. -/
theorem around_start (own : Fin set.size) (nonce : Scalar) (source : NonceSource) :
    let later := source.scalars (set.size - 1 - own)
    let earlier := later.2.scalars own
    let first := RingPosition.walk hash image
      (hash (Point.ofScalar nonce) ((Point.finite (set.member own).base).scale nonce))
      ((set.members.drop (own + 1)).zip later.1)
    let walk := around hash image set (start hash set own nonce source) own
    walk.challenges.get (set.place 0) = first ∧
      walk.challenges.get own =
        RingPosition.walk hash image first ((set.members.take own).zip earlier.1) ∧
      ∀ response, (walk.responses.set own response own.isLt).toList =
        earlier.1 ++ response :: later.1 := by
  intro later earlier first walk
  have hown : own.val < set.size := own.isLt
  have hturn : set.place set.size = set.place 0 :=
    Fin.ext ((Nat.mod_self set.size).trans (Nat.zero_mod set.size).symm)
  let begun := start hash set own nonce source
  let behind := visits hash image set begun (own + 1) (set.size - 1 - own)
  have hbehind : Ran hash image set 0 (own + 1) (set.size - 1 - own)
      (List.replicate (own + 1) Scalar.zero) [] begun behind := ran_behind own nonce source
  have hfirst : behind.challenges.get (set.place 0) = first := by
    have hbegun : begun.challenges.get (set.place (own + 1)) =
        hash (Point.ofScalar nonce) ((Point.finite (set.member own).base).scale nonce) :=
      Vector.getElem_set_self (Fin.isLt _)
    have hafter : (set.members.drop (own + 1)).length ≤ set.size - 1 - own := by
      rw [List.length_drop, Nat.sub_sub, Nat.add_comm 1]
      exact Nat.le_refl _
    have hend : 0 + (own.val + 1) + (set.size - 1 - own) = set.size := by omega
    have hchallenge := hbehind.challenge_eq
    rwa [hend, hturn, Nat.zero_add, hbegun, List.take_of_length_le hafter] at hchallenge
  have hknown : behind.responses.toList =
      List.replicate own Scalar.zero ++ Scalar.zero :: later.1 := by
    rw [hbehind.responses_eq, List.append_nil, List.replicate_succ', List.append_assoc]
    rfl
  have hwalk : Ran hash image set set.size 0 own [] (Scalar.zero :: later.1) behind walk := by
    rw [show walk = visits hash image set behind set.size own from around_eq begun own]
    exact ran_before hknown
  have hearlier : behind.source.scalars own = earlier := by
    rw [hbehind.source_eq]
    rfl
  refine ⟨?_, ?_, ?_⟩
  · rw [hwalk.first_eq (by omega), hfirst]
  · have hchallenge := hwalk.challenge_eq
    have hplace : set.place (set.size + 0 + own) = own :=
      Fin.ext (set.val_place_add (Nat.mod_self _) hown)
    rwa [hplace, Nat.add_zero, hturn, hfirst, List.drop_zero, hearlier] at hchallenge
  · intro response
    have hlength : earlier.1.length = own := NonceSource.length_scalars _ _
    rw [Vector.toList_set, hwalk.responses_eq, hearlier, List.nil_append,
      List.set_append_right _ _ (Nat.le_of_eq hlength), hlength, Nat.sub_self, List.set_cons_zero]

end SignerWalk

namespace RingSignature

/-- The first challenge of the ring and the response of the signer, made with the nonce `nonce`. -/
def close (hash : Point → Point → Scalar) (witness : Witness) (signer : RingMember)
    (nonce : Scalar) (before after : List RingPosition) : Scalar × Scalar :=
  let start := hash (Point.ofScalar nonce) ((Point.finite signer.base).scale nonce)
  let first := RingPosition.walk hash witness.image start after
  let last := RingPosition.walk hash witness.image first before
  (first, nonce - last * witness.secret.scalar)

/-- A signature is what a signer closes the ring with: out of one source of nonces come the nonce of
the signer, the responses behind it and the responses before it, in this order. -/
structure Closes (witness : Witness) (signer : RingMember) (set : AnonymitySet)
    (message : List UInt8) (entropy : Octets 32) (signature : RingSignature) : Prop where
  set_eq : signature.set = set
  image_eq : signature.image = witness.image
  closes :
    let t := signatureTranscript set.digest witness.image message
    let source := NonceSource.ofWitness t witness entropy
    let later := source.scalar.2.scalars (set.size - 1 - witness.index)
    let earlier := later.2.scalars witness.index
    let made := close t.challengeAfter witness signer source.scalar.1
      ((set.members.take witness.index).zip earlier.1)
      ((set.members.drop (witness.index + 1)).zip later.1)
    signature.challenge = made.1 ∧ signature.responses = earlier.1 ++ made.2 :: later.1

variable {witness : Witness} {signer : RingMember} {set : AnonymitySet} {message : List UInt8}
  {entropy : Octets 32} {signature signature' : RingSignature}

/-- A ring is closed in one way. -/
theorem Closes.unique (h : Closes witness signer set message entropy signature)
    (h' : Closes witness signer set message entropy signature') : signature = signature' := by
  obtain ⟨hset, himage, hchallenge, hresponses⟩ := h
  obtain ⟨hset', himage', hchallenge', hresponses'⟩ := h'
  cases signature
  cases signature'
  cases hset.trans hset'.symm
  cases himage.trans himage'.symm
  cases hchallenge.trans hchallenge'.symm
  cases hresponses.trans hresponses'.symm
  rfl

/-- **At its own key a witness closes the ring.**  What the loop leaves in its arrays is the first
challenge, the challenge of the signer and the drawn responses, and the last step puts the response
of the signer among these. -/
theorem exists_closes (hsigner : set.members[witness.index]? = some signer)
    (hkey : Point.finite signer.key = witness.secret.publicPoint) (message : List UInt8)
    (entropy : Octets 32) :
    ∃ signature, sign witness set message entropy = .ok signature ∧
      Closes witness signer set message entropy signature := by
  have hinside : witness.index < set.size := (List.getElem?_eq_some_iff.1 hsigner).1
  let own := set.place witness.index
  have hown : own.val = witness.index := Nat.mod_eq_of_lt hinside
  have hmember : set.member own = signer := by
    rw [AnonymitySet.member_eq_iff, hown, hsigner]
  let t := signatureTranscript set.digest witness.image message
  let source := NonceSource.ofWitness t witness entropy
  obtain ⟨hfirst, hlast, hresponses⟩ :=
    @SignerWalk.around_start t.challengeAfter witness.image set own source.scalar.1 source.scalar.2
  rw [hmember, hown] at hfirst hlast
  unfold sign
  rw [hsigner]
  dsimp only
  rw [if_pos hkey]
  refine ⟨_, rfl, rfl, rfl, hfirst, ?_⟩
  refine (hresponses _).trans ?_
  rw [hown, hlast]
  rfl

/-- **A signature is made at the own key of a witness, and there it is the one that closes the
ring.** -/
theorem sign_eq_ok_iff : sign witness set message entropy = .ok signature ↔
    ∃ signer, set.members[witness.index]? = some signer ∧
      Point.finite signer.key = witness.secret.publicPoint ∧
      Closes witness signer set message entropy signature := by
  constructor
  · intro h
    have hmade := h
    unfold sign at hmade
    split at hmade
    · contradiction
    next signer hsigner =>
      split at hmade
      next hkey =>
        obtain ⟨signature', hsigned, hcloses⟩ := exists_closes hsigner hkey message entropy
        rw [h] at hsigned
        cases hsigned
        exact ⟨signer, hsigner, hkey, hcloses⟩
      · contradiction
  · intro h
    obtain ⟨signer, hsigner, hkey, hcloses⟩ := h
    obtain ⟨signature', hsigned, hcloses'⟩ := exists_closes hsigner hkey message entropy
    rw [hsigned, hcloses.unique hcloses']

end RingSignature

end LinkCommittee
