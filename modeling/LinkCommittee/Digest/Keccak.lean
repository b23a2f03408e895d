import LinkCommittee.Bytes

/-!
# Keccak

The permutation Keccak-f[1600] on 25 lanes of 64 bits, and the 256-bit digest
that the ledger uses: rate 136 bytes, padding `01 00 ... 80`.  Lane `(x, y)` has
index `x + 5 * y`.
-/

namespace LinkCommittee.Keccak

/-- The state: 25 lanes. -/
abbrev Lanes := Vector UInt64 25

/-- The lane at an index taken modulo 25. -/
def lane (lanes : Lanes) (i : Nat) : UInt64 := lanes.get ⟨i % 25, Nat.mod_lt _ (by decide)⟩

/-- A lane rotated left by fewer than 64 bits. -/
def rotateLeft (word : UInt64) (amount : UInt64) : UInt64 :=
  (word <<< amount) ||| (word >>> (64 - amount))

/-- Rotation amounts, by lane index. -/
def rotations : Vector UInt64 25 :=
  #v[0, 1, 62, 28, 27, 36, 44, 6, 55, 20, 3, 10, 43, 25, 39, 41, 45, 15, 21, 8, 18, 2, 61, 56, 14]

/-- The constants that make the 24 rounds differ. -/
def roundConstants : List UInt64 :=
  [0x0000000000000001, 0x0000000000008082, 0x800000000000808A, 0x8000000080008000,
   0x000000000000808B, 0x0000000080000001, 0x8000000080008081, 0x8000000000008009,
   0x000000000000008A, 0x0000000000000088, 0x0000000080008009, 0x000000008000000A,
   0x000000008000808B, 0x800000000000008B, 0x8000000000008089, 0x8000000000008003,
   0x8000000000008002, 0x8000000000000080, 0x000000000000800A, 0x800000008000000A,
   0x8000000080008081, 0x8000000000008080, 0x0000000080000001, 0x8000000080008008]

/-- Adds to each lane the parities of two neighbouring columns. -/
def theta (lanes : Lanes) : Lanes :=
  let parity : Vector UInt64 5 := Vector.ofFn fun x =>
    lane lanes x ^^^ lane lanes (x + 5) ^^^ lane lanes (x + 10) ^^^ lane lanes (x + 15) ^^^
      lane lanes (x + 20)
  let column (x : Nat) : UInt64 := parity.get ⟨x % 5, Nat.mod_lt _ (by decide)⟩
  Vector.ofFn fun i => lane lanes i ^^^ column (i + 4) ^^^ rotateLeft (column (i + 1)) 1

/-- Rotates each lane and moves lane `(x, y)` to `(y, 2 * x + 3 * y)`. -/
def rhoPi (lanes : Lanes) : Lanes :=
  Vector.ofFn fun i =>
    let source := (i.val % 5 + 3 * (i.val / 5)) % 5 + 5 * (i.val % 5)
    rotateLeft (lane lanes source) (lane rotations source)

/-- Combines each lane with its two successors in the row. -/
def chi (lanes : Lanes) : Lanes :=
  Vector.ofFn fun i =>
    let row := 5 * (i.val / 5)
    lane lanes i ^^^
      (~~~lane lanes (row + (i.val + 1) % 5) &&& lane lanes (row + (i.val + 2) % 5))

/-- One round with its constant added to lane `(0, 0)`. -/
def round (lanes : Lanes) (constant : UInt64) : Lanes :=
  let mixed := chi (rhoPi (theta lanes))
  mixed.set 0 (mixed.get 0 ^^^ constant)

/-- The permutation: 24 rounds. -/
def permute (lanes : Lanes) : Lanes := roundConstants.foldl round lanes

/-- The lanes of 200 bytes, each spelled least significant byte first. -/
def lanesOfBytes (bytes : List UInt8) : Lanes :=
  let words := ((chunks 8 (by decide) bytes).map fun word =>
    UInt64.ofNat (natOfLittleEndian word)).toArray
  Vector.ofFn fun i => words.getD i 0

/-- The 200 bytes of the lanes. -/
def bytesOfLanes (lanes : Lanes) : List UInt8 :=
  lanes.toList.flatMap fun word => littleEndian 8 word.toNat

/-- The lanes after a block of the input has been added to them and permuted. -/
def absorb (lanes : Lanes) (block : List UInt8) : Lanes :=
  permute (lanes.zipWith (· ^^^ ·) (lanesOfBytes block))

/-- The number of bytes taken in between two permutations. -/
def rate : Nat := 136

/-- Padding to a whole number of blocks: a byte `01`, zeros, and `80` added to the last byte. -/
def padding (length : Nat) : List UInt8 :=
  let missing := rate - length % rate
  if missing = 1 then [0x81] else 0x01 :: List.replicate (missing - 2) 0x00 ++ [0x80]

/-- The 256-bit digest of a byte string. -/
def digest (bytes : List UInt8) : Octets 32 :=
  let blocks := chunks rate (by decide) (bytes ++ padding bytes.length)
  let lanes := blocks.foldl absorb (Vector.replicate 25 0)
  Octets.ofNat 32 (natOfBigEndian ((bytesOfLanes lanes).take 32))

end LinkCommittee.Keccak
