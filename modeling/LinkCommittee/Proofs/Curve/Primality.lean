import LinkCommittee.Proofs.Curve.Residue
import Mathlib.NumberTheory.LucasPrimality
import Mathlib.Tactic.NormNum.Prime

/-!
# The two primes of secp256k1

A number is prime as soon as some residue modulo it has the order of a full group of
units.  Whether the order is full is decided from the prime factors of the number's
predecessor; these are certified in the same way, so that the certificates form a chain
that starts at small primes.  The main statements are `prime_fieldPrime` and
`prime_groupOrder`, which turn coordinates and scalars into fields.
-/

namespace LinkCommittee

/-- Evidence that a number is prime: the prime powers whose product is its predecessor, and a
residue that should have full order. -/
structure PrimeCertificate where
  base : Nat
  factors : List (Nat × Nat)

namespace PrimeCertificate

/-- The product of the prime powers. -/
def order (c : PrimeCertificate) : Nat := (c.factors.map fun f => f.1 ^ f.2).prod

/-- The number that is certified. -/
def modulus (c : PrimeCertificate) : Nat := c.order + 1

/-- A residue by its representative. -/
def residue (c : PrimeCertificate) (number : Nat) : Residue c.modulus :=
  .reduce (Nat.succ_pos c.order) number

/-- The base has the order of a full group of units. -/
def fullOrder (c : PrimeCertificate) : Bool :=
  (c.residue c.base).power c.order == c.residue 1 &&
    c.factors.all fun f => (c.residue c.base).power (c.order / f.1) != c.residue 1

/-- The residue of a number is its class modulo the number that is certified. -/
theorem toZMod_residue (c : PrimeCertificate) (number : Nat) :
    (c.residue number).toZMod = (number : ZMod c.modulus) :=
  Residue.toZMod_reduce _ number

/-- The check by squaring and multiplying is one of powers modulo the number that is certified. -/
theorem power_eq_one_iff (c : PrimeCertificate) (n : Nat) :
    (c.residue c.base).power n = c.residue 1 ↔ (c.base : ZMod c.modulus) ^ n = 1 := by
  rw [← Residue.toZMod_injective.eq_iff, Residue.toZMod_power, toZMod_residue, toZMod_residue,
    Nat.cast_one]

/-- A prime that divides the order is one of the factors. -/
theorem exists_factor_of_dvd (c : PrimeCertificate) (hprime : ∀ f ∈ c.factors, f.1.Prime) {q : Nat}
    (hq : q.Prime) (hdvd : q ∣ c.order) : ∃ f ∈ c.factors, q = f.1 := by
  obtain ⟨power, hmem, hpower⟩ := (Prime.dvd_prod_iff hq.prime).1 hdvd
  obtain ⟨f, hf, rfl⟩ := List.mem_map.1 hmem
  exact ⟨f, hf, (Nat.prime_dvd_prime_iff_eq hq (hprime f hf)).1 (hq.dvd_of_dvd_pow hpower)⟩

/-- **The order test.**  A modulus with a residue of full order is prime. -/
theorem prime_of_fullOrder (c : PrimeCertificate) (hfull : c.fullOrder = true)
    (hprime : ∀ f ∈ c.factors, f.1.Prime) : c.modulus.Prime := by
  simp only [fullOrder, Bool.and_eq_true, beq_iff_eq, List.all_eq_true, bne_iff_ne] at hfull
  obtain ⟨hone, hproper⟩ := hfull
  refine lucas_primality c.modulus (c.base : ZMod c.modulus) ((c.power_eq_one_iff _).1 hone) ?_
  intro q hq hdvd hpower
  obtain ⟨f, hf, rfl⟩ := c.exists_factor_of_dvd hprime hq hdvd
  exact hproper f hf ((c.power_eq_one_iff _).2 hpower)

/-- Each certificate of a chain has full order over factors that were known before it. -/
def chain (known : List Nat) : List PrimeCertificate → Bool
  | [] => true
  | c :: rest =>
    c.fullOrder && (c.factors.all fun f => known.contains f.1) && chain (c.modulus :: known) rest

/-- **Chains certify.**  A chain that starts from primes certifies primes only. -/
theorem prime_of_chain (certificates : List PrimeCertificate) (known : List Nat)
    (hknown : ∀ p ∈ known, p.Prime) (hchain : chain known certificates = true) :
    ∀ c ∈ certificates, c.modulus.Prime := by
  -- Every link enlarges the known primes, so the induction runs over all of them.
  induction certificates generalizing known with
  | nil => simp
  | cons c rest ih =>
    simp only [chain, Bool.and_eq_true, List.all_eq_true, List.contains_iff_mem] at hchain
    obtain ⟨⟨hfull, hfactors⟩, hrest⟩ := hchain
    have hprime : c.modulus.Prime :=
      c.prime_of_fullOrder hfull fun f hf => hknown f.1 (hfactors f hf)
    have hextended : ∀ p ∈ c.modulus :: known, p.Prime := List.forall_mem_cons.2 ⟨hprime, hknown⟩
    exact List.forall_mem_cons.2 ⟨hprime, ih (c.modulus :: known) hextended hrest⟩

end PrimeCertificate

/-! ### The field prime and the group order -/

/-- The prime factors at which the chain of certificates starts. -/
def smallPrimes : List Nat :=
  [2, 3, 5, 7, 11, 17, 29, 31, 41, 59, 109, 149, 293, 461, 631, 1627, 2621, 2657, 4051, 4423,
    5323, 7723, 13441, 16699, 24809, 28181, 41201, 85831, 96557, 120233, 305873, 1627771,
    4681609, 7240687, 13331831, 44706919, 107590001]

/-- The small primes are prime. -/
theorem prime_of_mem_smallPrimes : ∀ p ∈ smallPrimes, p.Prime := by
  simp only [smallPrimes, List.forall_mem_cons]
  norm_num

/-- The chain of certificates below the field prime and the group order. -/
def earlierCertificates : List PrimeCertificate :=
  [⟨5, [(2, 3), (41, 1), (59, 1), (28181, 1)]⟩,
    ⟨2, [(2, 2), (3, 2), (11, 1), (461, 1), (1627771, 1)]⟩,
    ⟨3, [(2, 4), (16699, 1), (85831, 1), (4681609, 1)]⟩,
    ⟨6, [(2, 3), (5, 2), (2621, 1), (24809, 1), (13331831, 1)]⟩,
    ⟨3, [(2, 3), (17, 1), (59, 1), (4051, 1), (120233, 1), (44706919, 1)]⟩,
    ⟨5, [(2, 3), (3, 1), (5323, 1), (173378833005251801, 1)]⟩,
    ⟨6, [(2, 1), (3, 1), (22149492674086928081353, 1)]⟩,
    ⟨2, [(2, 1), (293, 1), (305873, 1), (545358713, 1), (297159362677, 1)]⟩,
    ⟨2, [(2, 2), (3, 3), (109, 1), (29047611873442575647497758179, 1)]⟩,
    ⟨3, [(2, 3), (7, 2), (11, 1), (1627, 1), (2657, 1), (4423, 1), (41201, 1), (96557, 1),
      (7240687, 1), (107590001, 1)]⟩,
    ⟨10, [(2, 1), (3, 1), (5, 1), (29, 2), (31, 1), (7723, 1), (132896956044521568488119, 1),
      (255515944373312847190720520512484175977, 1)]⟩]

/-- The certificate of the prime that coordinates are taken modulo. -/
def fieldPrimeCertificate : PrimeCertificate where
  base := 3
  factors := [(2, 1), (3, 1), (7, 1), (13441, 1),
    (205115282021455665897114700593932402728804164701536103180137503955397371, 1)]

/-- The certificate of the prime that scalars are taken modulo. -/
def groupOrderCertificate : PrimeCertificate where
  base := 7
  factors := [(2, 6), (3, 1), (149, 1), (631, 1), (107361793816595537, 1),
    (174723607534414371449, 1), (341948486974166000522343609283189, 1)]

/-- The chain of certificates that ends at the two primes of secp256k1. -/
def primeCertificates : List PrimeCertificate :=
  earlierCertificates ++ [fieldPrimeCertificate, groupOrderCertificate]

/-- What is certified is prime: every certificate rests on those before it. -/
theorem prime_of_mem_primeCertificates : ∀ c ∈ primeCertificates, c.modulus.Prime :=
  PrimeCertificate.prime_of_chain primeCertificates smallPrimes prime_of_mem_smallPrimes
    (by decide +kernel)

/-- **The field of coordinates is one.** -/
theorem prime_fieldPrime : fieldPrime.Prime := by
  have hmodulus : fieldPrimeCertificate.modulus = fieldPrime := by decide
  rw [← hmodulus]
  exact prime_of_mem_primeCertificates fieldPrimeCertificate (by simp [primeCertificates])

/-- **The field of scalars is one.** -/
theorem prime_groupOrder : groupOrder.Prime := by
  have hmodulus : groupOrderCertificate.modulus = groupOrder := by decide
  rw [← hmodulus]
  exact prime_of_mem_primeCertificates groupOrderCertificate (by simp [primeCertificates])

instance : Fact fieldPrime.Prime := ⟨prime_fieldPrime⟩

instance : Fact groupOrder.Prime := ⟨prime_groupOrder⟩

instance : NeZero fieldPrime := ⟨prime_fieldPrime.ne_zero⟩

instance : NeZero groupOrder := ⟨prime_groupOrder.ne_zero⟩

instance : Fact (2 < fieldPrime) := ⟨by decide⟩

instance : Fact (2 < groupOrder) := ⟨by decide⟩

end LinkCommittee
