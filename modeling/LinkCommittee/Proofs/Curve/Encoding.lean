import LinkCommittee.Curve.Encoding
import LinkCommittee.Proofs.Bytes
import LinkCommittee.Proofs.Curve.Order

/-!
# Reading encoded keys

The field prime leaves 3 modulo 4, so a square has the root that `squareRoot?` tries,
and the other root is the opposite one.  The two roots have different parities; hence
an abscissa and a parity name one key.  A key is read from its compressed form and from
one or two others (`PublicKey.decode?_eq_some_iff`); what is read under the tags `02` and
`03` is written back byte for byte.
-/

namespace LinkCommittee

namespace Residue

variable {m : Nat}

theorem ofNat?_eq_some_iff {number : Nat} {a : Residue m} :
    ofNat? number = some a ↔ a.val = number := by
  unfold ofNat?
  constructor
  · intro h
    split at h
    · cases h
      rfl
    · contradiction
  · intro h
    subst h
    exact dif_pos a.val_lt

/-- A residue is read from 32 bytes exactly when they are its own. -/
theorem ofNat?_natOfBigEndian_iff (hm : m ≤ 256 ^ 32) {bytes : List UInt8}
    (hlength : bytes.length = 32) {a : Residue m} :
    ofNat? (natOfBigEndian bytes) = some a ↔ (Octets.ofNat 32 a.val).toList = bytes := by
  rw [ofNat?_eq_some_iff]
  constructor
  · intro h
    rw [h, Octets.ofNat, ← hlength]
    exact bigEndian_natOfBigEndian bytes
  · intro h
    subst h
    exact (Octets.toNat_ofNat (Nat.lt_of_lt_of_le a.val_lt hm)).symm

end Residue

theorem Scalar.ofBytes?_eq_some_iff {bytes : List UInt8} (hlength : bytes.length = 32)
    {a : Scalar} : Scalar.ofBytes? bytes = some a ↔ a.toBytes.toList = bytes :=
  Residue.ofNat?_natOfBigEndian_iff (by decide) hlength

theorem Scalar.ofBytes?_toBytes (a : Scalar) : Scalar.ofBytes? a.toBytes.toList = some a :=
  (Scalar.ofBytes?_eq_some_iff a.toBytes.length_toList).2 rfl

namespace Coordinate

theorem ofBytes?_eq_some_iff {bytes : List UInt8} (hlength : bytes.length = 32)
    {a : Coordinate} : ofBytes? bytes = some a ↔ a.toBytes.toList = bytes :=
  Residue.ofNat?_natOfBigEndian_iff (by decide) hlength

theorem ofBytes?_toBytes (a : Coordinate) : ofBytes? a.toBytes.toList = some a :=
  (ofBytes?_eq_some_iff a.toBytes.length_toList).2 rfl

/-- A root that is found is one. -/
theorem sq_of_squareRoot? {a root : Coordinate} (h : squareRoot? a = some root) :
    root ^ 2 = a := by
  unfold squareRoot? at h
  split at h
  next hroot =>
    cases h
    rwa [← Residue.square_eq_pow]
  · contradiction

/-- The candidate is a root of every square. -/
theorem rootCandidate_sq (y : Coordinate) : (y ^ 2).rootCandidate ^ 2 = y ^ 2 := by
  rw [show (y ^ 2).rootCandidate = (y ^ 2) ^ ((fieldPrime + 1) / 4) from rfl]
  by_cases hy : y = 0
  · subst hy
    rw [zero_pow (by decide), zero_pow (by decide), zero_pow (by decide)]
  · calc ((y ^ 2) ^ ((fieldPrime + 1) / 4)) ^ 2
        = y ^ (fieldPrime - 1) * y ^ 2 := by
          rw [← pow_mul, ← pow_mul, ← pow_add]
          congr 1
      _ = y ^ 2 := by rw [Residue.pow_pred_eq_one hy, one_mul]

/-- A square has a root that is found, one of its two. -/
theorem exists_squareRoot?_sq (y : Coordinate) :
    ∃ root, squareRoot? (y ^ 2) = some root ∧ (root = y ∨ root = -y) := by
  refine ⟨_, if_pos ?_, sq_eq_sq_iff_eq_or_eq_neg.1 (rootCandidate_sq y)⟩
  rw [Residue.square_eq_pow, rootCandidate_sq]

end Coordinate

namespace PublicKey

/-- **An abscissa and a parity name one key.**  Of the ordinates over an abscissa one is the
opposite of the other, and opposites differ in parity. -/
theorem ofAbscissa?_eq_some_iff {x : Coordinate} {odd : Bool} {key : PublicKey} :
    ofAbscissa? x odd = some key ↔ key.x = x ∧ key.y.isOdd = odd := by
  unfold ofAbscissa?
  have hright : x.square * x + Coordinate.ofNat 7 = x ^ 3 + 7 := by
    rw [Residue.square_eq_pow, ← pow_succ]
    rfl
  rw [hright]
  constructor
  · intro h
    obtain ⟨root, hroot, h⟩ := Option.bind_eq_some_iff.1 h
    obtain ⟨hx, hy⟩ := ofCoordinates?_eq_some_iff.1 h
    refine ⟨hx, ?_⟩
    have hne : root ≠ 0 := by
      intro h
      subst h
      have hzero := Coordinate.sq_of_squareRoot? hroot
      rw [zero_pow two_ne_zero] at hzero
      exact cube_add_seven_ne_zero x hzero.symm
    rw [hy]
    split
    next hodd => exact hodd
    next heven =>
      rw [Coordinate.isOdd_neg hne]
      exact Bool.not_eq.2 heven
  · intro h
    obtain ⟨rfl, rfl⟩ := h
    obtain ⟨root, hroot, hcases⟩ := Coordinate.exists_squareRoot?_sq key.y
    rw [← key.equation, hroot]
    refine ofCoordinates?_eq_some_iff.2 ⟨rfl, ?_⟩
    rcases hcases with rfl | rfl
    · rw [if_pos rfl]
    · rw [Coordinate.isOdd_neg key.y_ne_zero, if_neg (by simp), neg_neg]

theorem ofAbscissaBytes?_eq_some_iff {bytes : List UInt8} {odd : Bool} {key : PublicKey} :
    ofAbscissaBytes? bytes odd = some key ↔ key.x.toBytes.toList = bytes ∧ key.y.isOdd = odd := by
  unfold ofAbscissaBytes?
  constructor
  · intro h
    obtain ⟨_, hguard, h⟩ := Option.bind_eq_some_iff.1 h
    have hlength : bytes.length = 32 := by
      by_contra hne
      simp [guard, hne] at hguard
    obtain ⟨x, hx, h⟩ := Option.bind_eq_some_iff.1 h
    obtain ⟨rfl, hodd⟩ := ofAbscissa?_eq_some_iff.1 h
    exact ⟨(Coordinate.ofBytes?_eq_some_iff hlength).1 hx, hodd⟩
  · intro h
    obtain ⟨rfl, hodd⟩ := h
    have hread : ofAbscissa? key.x odd = some key := ofAbscissa?_eq_some_iff.2 ⟨rfl, hodd⟩
    simp [key.x.toBytes.length_toList, Coordinate.ofBytes?_toBytes, hread]

theorem ofCoordinateBytes?_eq_some_iff {bytes : List UInt8} {key : PublicKey} :
    ofCoordinateBytes? bytes = some key ↔
      key.x.toBytes.toList ++ key.y.toBytes.toList = bytes := by
  unfold ofCoordinateBytes?
  constructor
  · intro h
    obtain ⟨_, hguard, h⟩ := Option.bind_eq_some_iff.1 h
    have hlength : bytes.length = 64 := by
      by_contra hne
      simp [guard, hne] at hguard
    obtain ⟨x, hx, h⟩ := Option.bind_eq_some_iff.1 h
    obtain ⟨y, hy, h⟩ := Option.bind_eq_some_iff.1 h
    obtain ⟨rfl, rfl⟩ := ofCoordinates?_eq_some_iff.1 h
    rw [(Coordinate.ofBytes?_eq_some_iff (by simp [hlength])).1 hx,
      (Coordinate.ofBytes?_eq_some_iff (by simp [hlength])).1 hy, List.take_append_drop]
  · intro h
    subst h
    have hread : ofCoordinates? key.x key.y = some key := ofCoordinates?_eq_some_iff.2 ⟨rfl, rfl⟩
    have hx := key.x.toBytes.length_toList
    have hy := key.y.toBytes.length_toList
    simp [hx, hy, List.take_left' hx, List.drop_left' hx, Coordinate.ofBytes?_toBytes, hread]

theorem compress_toList (key : PublicKey) :
    key.compress.toList = (if key.y.isOdd then 0x03 else 0x02) :: key.x.toBytes.toList := rfl

theorem uncompressed_toList (key : PublicKey) :
    key.uncompressed.toList = 0x04 :: (key.x.toBytes.toList ++ key.y.toBytes.toList) := rfl

/-- **A compressed key is read back.**  The tag tells the parity of the ordinate, and an abscissa is
below the field prime. -/
theorem decode?_compress (key : PublicKey) : decode? key.compress.toList = some key := by
  rw [compress_toList, decode?]
  cases hodd : key.y.isOdd with
  | false =>
    simp only [Bool.false_eq_true, if_false, true_or, if_true]
    exact ofAbscissaBytes?_eq_some_iff.2 ⟨rfl, hodd⟩
  | true =>
    simp only [if_true]
    exact ofAbscissaBytes?_eq_some_iff.2 ⟨rfl, hodd⟩

/-- **The encodings of a key.**  A key is read from its compressed form, from both of its
coordinates, and, if its ordinate is even, from its abscissa under a tag that does not tell the
parity. -/
theorem decode?_eq_some_iff {code : List UInt8} {key : PublicKey} :
    decode? code = some key ↔ code = key.compress.toList ∨
      key.y.isOdd = false ∧ code = 0x05 :: key.x.toBytes.toList ∨
        code = key.uncompressed.toList := by
  constructor
  · intro h
    cases code with
    | nil => contradiction
    | cons tag bytes =>
      rw [decode?] at h
      split at h
      next htag =>
        obtain ⟨hx, hodd⟩ := ofAbscissaBytes?_eq_some_iff.1 h
        rw [compress_toList, hx, hodd]
        rcases htag with rfl | rfl
        · exact .inl rfl
        · exact .inr (.inl ⟨rfl, rfl⟩)
      split at h
      next htag =>
        obtain ⟨hx, hodd⟩ := ofAbscissaBytes?_eq_some_iff.1 h
        rw [compress_toList, hx, hodd, htag]
        exact .inl rfl
      split at h
      next htag =>
        rw [← ofCoordinateBytes?_eq_some_iff.1 h, htag]
        exact .inr (.inr rfl)
      · contradiction
  · rintro (rfl | ⟨heven, rfl⟩ | rfl)
    · exact decode?_compress key
    · exact ofAbscissaBytes?_eq_some_iff.2 ⟨rfl, heven⟩
    · exact ofCoordinateBytes?_eq_some_iff.2 rfl

/-- **What is read under the tag of a compressed key is written back.** -/
theorem compress_of_decode? {code : List UInt8} {key : PublicKey}
    (htag : code.head? = some 0x02 ∨ code.head? = some 0x03) (h : decode? code = some key) :
    key.compress.toList = code := by
  rcases decode?_eq_some_iff.1 h with hcode | ⟨-, hcode⟩ | hcode
  · exact hcode.symm
  · rw [hcode, List.head?_cons] at htag
    exact absurd htag (by decide)
  · rw [hcode, uncompressed_toList, List.head?_cons] at htag
    exact absurd htag (by decide)

theorem compress_injective : Function.Injective compress := by
  intro a b h
  have hread := decode?_compress a
  rw [h, decode?_compress] at hread
  exact (Option.some.inj hread).symm

end PublicKey

end LinkCommittee
