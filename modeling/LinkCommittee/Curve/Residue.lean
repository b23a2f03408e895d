/-!
# Residues

The integers modulo `m`, each held as its least representative.  Inversion is by
the exponent `m - 2`, which is right when `m` is prime.
-/

namespace LinkCommittee

/-- A residue modulo `m`, by its representative below `m`. -/
structure Residue (m : Nat) where
  val : Nat
  val_lt : val < m
deriving DecidableEq

namespace Residue

variable {m : Nat}

theorem modulus_pos (a : Residue m) : 0 < m := Nat.lt_of_le_of_lt (Nat.zero_le _) a.val_lt

/-- The residue of a number. -/
def reduce (pos : 0 < m) (number : Nat) : Residue m := ⟨number % m, Nat.mod_lt _ pos⟩

/-- Takes a number for a residue if it is a least representative. -/
def ofNat? (number : Nat) : Option (Residue m) :=
  if h : number < m then some ⟨number, h⟩ else none

/-- The sum of two residues. -/
def add (a b : Residue m) : Residue m := reduce a.modulus_pos (a.val + b.val)

/-- The residue that adds up with `a` to zero. -/
def neg (a : Residue m) : Residue m := reduce a.modulus_pos (m - a.val)

/-- The difference of two residues. -/
def sub (a b : Residue m) : Residue m := reduce a.modulus_pos (a.val + (m - b.val))

/-- The product of two residues. -/
def mul (a b : Residue m) : Residue m := reduce a.modulus_pos (a.val * b.val)

instance : Add (Residue m) := ⟨add⟩
instance : Neg (Residue m) := ⟨neg⟩
instance : Sub (Residue m) := ⟨sub⟩
instance : Mul (Residue m) := ⟨mul⟩

/-- The square of a residue. -/
def square (a : Residue m) : Residue m := a * a

/-- The power of `a` by the `width` lowest bits of an exponent, by squaring. -/
def powBits (a : Residue m) : (width : Nat) → (exponent : Nat) → Residue m
  | 0, _ => reduce a.modulus_pos 1
  | width + 1, exponent =>
    let root := (powBits a width (exponent / 2)).square
    if exponent % 2 = 1 then root * a else root

/-- The power of a residue. -/
def power (a : Residue m) (exponent : Nat) : Residue m :=
  powBits a (exponent.log2 + 1) exponent

/-- The inverse of a residue for a prime modulus; zero has none and goes to zero. -/
def inverse (a : Residue m) : Residue m := a.power (m - 2)

/-- A residue is odd if its least representative is. -/
def isOdd (a : Residue m) : Bool := a.val % 2 == 1

end Residue

end LinkCommittee
