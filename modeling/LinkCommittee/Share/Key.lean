import LinkCommittee.Share.Basic

/-!
# Share keys

A member's share key is its owner scalar `i` and the secret share `f i` of the
system secret.  The public shares of a list of keys are their multiples by the
secret.
-/

namespace LinkCommittee

/-- A committee member's secret share of the system secret. -/
structure ShareKey where
  owner : NonzeroScalar
  secret : NonzeroScalar
deriving DecidableEq

namespace ShareKey

/-- The share key of a member by its number, neither number nor secret being zero. -/
def new (id : UInt64) (secret : Scalar) : Except SharingError ShareKey :=
  match NonzeroScalar.ofScalar? (Scalar.ofNat id.toNat), NonzeroScalar.ofScalar? secret with
  | some owner, some secret => .ok ⟨owner, secret⟩
  | _, _ => .error (.invalidShare .keyZero)

/-- Reads the field of a secret: a scalar other than zero. -/
def decodeSecret (text : List Char) : Except SharingError NonzeroScalar := do
  let bytes ← decodeCoordinate text
  match NonzeroScalar.ofBytes? bytes.toList with
  | none => .error (.invalidShare .secretRange)
  | some secret => .ok secret

/-- Reads the field of the owner and the field of the secret. -/
def ofChars (text : List Char) : Except SharingError ShareKey :=
  if text.all isAscii = true ∧ text.length = 2 * fieldWidth then do
    let owner ← decodeOwner (text.take fieldWidth)
    let secret ← decodeSecret (text.drop fieldWidth)
    return ⟨owner, secret⟩
  else .error (.invalidShare .keyWidth)

/-- Reads the text of a share key. -/
def ofText (text : String) : Except SharingError ShareKey := ofChars text.toList

/-- The field that names the owner. -/
def ownerField (key : ShareKey) : List Char := encodeOwner key.owner

/-- The public share of one key. -/
def publicShare? (key : ShareKey) (a : PublicKey) : Option ShareEntry :=
  match ((Point.finite a).scale key.secret.scalar).key? with
  | none => none
  | some point => (Share.toEntry ⟨key.owner, point⟩).toOption

/-- The public shares of a list of keys, in order. -/
def publicShares (key : ShareKey) (keys : List PublicKey) : List ShareEntry :=
  keys.filterMap key.publicShare?

end ShareKey

end LinkCommittee
