import LinkCommittee.Bytes

/-!
# BLAKE3

The 256-bit digest of a byte string.  The input is cut into chunks of 1024 bytes
and a chunk into blocks of 64; each chunk yields a chaining value of eight words,
and neighbouring values are combined level by level until one is left.  The last
compression carries a flag of its own.
-/

namespace LinkCommittee.Blake3

/-- A chaining value: eight words. -/
abbrev Chain := Vector UInt32 8

/-- The working state of a compression, also the shape of a block: sixteen words. -/
abbrev Block := Vector UInt32 16

/-- The chaining value in front of the first block. -/
def initial : Chain :=
  #v[0x6A09E667, 0xBB67AE85, 0x3C6EF372, 0xA54FF53A, 0x510E527F, 0x9B05688C, 0x1F83D9AB, 0x5BE0CD19]

/-- Marks the first block of a chunk. -/
def chunkStart : UInt32 := 1

/-- Marks the last block of a chunk. -/
def chunkEnd : UInt32 := 2

/-- Marks the combination of two chaining values. -/
def parent : UInt32 := 4

/-- Marks the compression that yields the digest. -/
def root : UInt32 := 8

/-- A word rotated right by between 1 and 31 bits. -/
def rotateRight (word amount : UInt32) : UInt32 :=
  (word >>> amount) ||| (word <<< (32 - amount))

/-- Mixes two message words into four words of the state. -/
def mix (state : Block) (a b c d : Fin 16) (x y : UInt32) : Block :=
  let va := state.get a + state.get b + x
  let vd := rotateRight (state.get d ^^^ va) 16
  let vc := state.get c + vd
  let vb := rotateRight (state.get b ^^^ vc) 12
  let va := va + vb + y
  let vd := rotateRight (vd ^^^ va) 8
  let vc := vc + vd
  let vb := rotateRight (vb ^^^ vc) 7
  (((state.set a.val va a.isLt).set b.val vb b.isLt).set c.val vc c.isLt).set d.val vd d.isLt

/-- One round: the four columns, then the four diagonals. -/
def round (state message : Block) : Block :=
  let state := mix state 0 4 8 12 (message.get 0) (message.get 1)
  let state := mix state 1 5 9 13 (message.get 2) (message.get 3)
  let state := mix state 2 6 10 14 (message.get 4) (message.get 5)
  let state := mix state 3 7 11 15 (message.get 6) (message.get 7)
  let state := mix state 0 5 10 15 (message.get 8) (message.get 9)
  let state := mix state 1 6 11 12 (message.get 10) (message.get 11)
  let state := mix state 2 7 8 13 (message.get 12) (message.get 13)
  mix state 3 4 9 14 (message.get 14) (message.get 15)

/-- The order in which a round takes the message words of the round before. -/
def schedule : Vector (Fin 16) 16 := #v[2, 6, 3, 10, 7, 0, 4, 13, 1, 11, 12, 5, 9, 14, 15, 8]

/-- Runs rounds, permuting the message between two of them. -/
def rounds : (count : Nat) → (state message : Block) → Block
  | 0, state, _ => state
  | count + 1, state, message =>
    rounds count (round state message) (Vector.ofFn fun i => message.get (schedule.get i))

/-- The chaining value after a block of `length` bytes. -/
def compress (chain : Chain) (block : Block) (counter length : Nat) (flags : UInt32) : Chain :=
  let state : Block := chain ++ #v[0x6A09E667, 0xBB67AE85, 0x3C6EF372, 0xA54FF53A,
    UInt32.ofNat counter, UInt32.ofNat (counter / 0x100000000), UInt32.ofNat length, flags]
  let state := rounds 7 state block
  Vector.ofFn fun i => state.get (i.castLE (by decide)) ^^^ state.get ⟨i.val + 8, by omega⟩

/-- The words of at most 64 bytes, each spelled least significant byte first; missing bytes are zero. -/
def blockOfBytes (bytes : List UInt8) : Block :=
  let words := ((chunks 4 (by decide) bytes).map fun word =>
    UInt32.ofNat (natOfLittleEndian word)).toArray
  Vector.ofFn fun i => words.getD i 0

/-- The chaining value of the blocks of a chunk; `flags` are those of the next block. -/
def blocksChain (counter : Nat) (last : UInt32) : UInt32 → Chain → List (List UInt8) → Chain
  | flags, chain, [] => compress chain (blockOfBytes []) counter 0 (flags ||| chunkEnd ||| last)
  | flags, chain, [block] =>
    compress chain (blockOfBytes block) counter block.length (flags ||| chunkEnd ||| last)
  | flags, chain, block :: blocks =>
    blocksChain counter last 0 (compress chain (blockOfBytes block) counter block.length flags) blocks

/-- The chaining value of a chunk of at most 1024 bytes; `last` is added to its last block. -/
def chunkChain (counter : Nat) (last : UInt32) (chunk : List UInt8) : Chain :=
  blocksChain counter last chunkStart initial (chunks 64 (by decide) chunk)

/-- Combines two chaining values. -/
def combine (flags : UInt32) (left right : Chain) : Chain :=
  compress initial (left ++ right) 0 64 (parent ||| flags)

/-- Combines neighbours; an odd one at the end moves up as it is. -/
def level : List Chain → List Chain
  | left :: right :: chains => combine 0 left right :: level chains
  | chains => chains

theorem length_level_le : (chains : List Chain) → (level chains).length ≤ chains.length
  | [] => Nat.le_refl _
  | [_] => Nat.le_refl _
  | _ :: _ :: chains => by
    have := length_level_le chains
    simp only [level, List.length_cons]
    omega

/-- Combines the chaining values of at least two chunks down to one. -/
def tree : List Chain → Chain
  | [] => initial
  | [chain] => chain
  | [left, right] => combine root left right
  | left :: right :: next :: chains => tree (level (left :: right :: next :: chains))
termination_by chains => chains.length
decreasing_by
  have := length_level_le (next :: chains)
  simp only [level, List.length_cons] at *
  omega

/-- The digest of a byte string. -/
def digest (bytes : List UInt8) : Octets 32 :=
  let chain := match chunks 1024 (by decide) bytes with
    | [] => chunkChain 0 root []
    | [chunk] => chunkChain 0 root chunk
    | chunks => tree (chunks.mapIdx fun counter chunk => chunkChain counter 0 chunk)
  Octets.ofNat 32 (natOfBigEndian (chain.toList.flatMap fun word => littleEndian 4 word.toNat))

end LinkCommittee.Blake3
