import LinkCommittee.Proofs.Address.AbAddress

/-!
# The addresses that denote two keys

The halves of an address are 33 bytes each.  A key is read from its compressed form, and if
its ordinate is even also from its abscissa under the tag `05` (`PublicKey.shortForms`); the
form with both coordinates is too long for a half.  So an address that denotes two keys
need not be the one that is made of them: it is exactly if both halves have the tag of a
compressed key, which the reader of signatures asks for and `decompress` does not.

Main statement: `AbAddress.decompress_exact`.
-/

namespace LinkCommittee

namespace PublicKey

variable {key : PublicKey} {code : Octets 33} {bytes : List UInt8}

/-- The abscissa under the tag that does not tell the parity of the ordinate. -/
def compact (key : PublicKey) : Octets 33 := Octets.append ⟨[0x05], rfl⟩ key.x.toBytes

/-- The 33 bytes from which a key is read. -/
def shortForms (key : PublicKey) : List (Octets 33) :=
  if key.y.isOdd then [key.compress] else [key.compress, key.compact]

/-- The bytes begin with the tag of a compressed key. -/
def CompressedTag (code : List UInt8) : Prop :=
  code.head? = some 0x02 ∨ code.head? = some 0x03

theorem mem_shortForms_iff :
    code ∈ key.shortForms ↔ code = key.compress ∨ key.y.isOdd = false ∧ code = key.compact := by
  unfold shortForms
  cases key.y.isOdd <;> simp

theorem compress_mem_shortForms (key : PublicKey) : key.compress ∈ key.shortForms :=
  mem_shortForms_iff.2 (.inl rfl)

theorem parse_eq_ok_iff : parse bytes = .ok key ↔ decode? bytes = some key := by
  unfold parse
  cases decode? bytes <;> simp

/-- **A key is read from 33 bytes exactly if these are one of its short forms.** -/
theorem parse_toList_eq_ok_iff : parse code.toList = .ok key ↔ code ∈ key.shortForms := by
  have hcompact : code.toList = 0x05 :: key.x.toBytes.toList ↔ code = key.compact :=
    ⟨fun h => Octets.ext h, fun h => h ▸ rfl⟩
  have hcompress : code.toList = key.compress.toList ↔ code = key.compress :=
    ⟨fun h => Octets.ext h, fun h => h ▸ rfl⟩
  have hlong : code.toList ≠ key.uncompressed.toList := by
    intro h
    have hlength := congrArg List.length h
    rw [code.length_toList, key.uncompressed.length_toList] at hlength
    contradiction
  rw [parse_eq_ok_iff, decode?_eq_some_iff, mem_shortForms_iff, hcompact, hcompress,
    or_iff_left hlong]

theorem compressedTag_compress (key : PublicKey) : CompressedTag key.compress.toList := by
  rw [CompressedTag, compress_toList, List.head?_cons]
  cases key.y.isOdd
  · exact .inl rfl
  · exact .inr rfl

theorem not_compressedTag_compact (key : PublicKey) : ¬CompressedTag key.compact.toList := by
  have hhead : key.compact.toList.head? = some 0x05 := rfl
  rw [CompressedTag, hhead]
  decide

/-- Of the short forms of a key the compressed one is told by its tag. -/
theorem eq_compress_iff (hform : code ∈ key.shortForms) :
    code = key.compress ↔ CompressedTag code.toList := by
  constructor
  · rintro rfl
    exact key.compressedTag_compress
  · intro htag
    rcases mem_shortForms_iff.1 hform with rfl | ⟨-, rfl⟩
    · rfl
    · exact absurd htag key.not_compressedTag_compact

/-- A key has one short form exactly if its ordinate is odd. -/
theorem forall_mem_shortForms_iff :
    (∀ code ∈ key.shortForms, code = key.compress) ↔ key.y.isOdd = true := by
  constructor
  · intro hone
    by_contra heven
    rw [Bool.not_eq_true] at heven
    have hcompact := hone key.compact (mem_shortForms_iff.2 (.inr ⟨heven, rfl⟩))
    exact key.not_compressedTag_compact (hcompact ▸ key.compressedTag_compress)
  · intro hodd code hform
    rcases mem_shortForms_iff.1 hform with h | ⟨heven, -⟩
    · exact h
    · rw [hodd] at heven
      contradiction

end PublicKey

namespace AbAddress

variable {first second : PublicKey} {a b : Octets 33} {address : AbAddress}

/-- The address with the given halves. -/
def ofParts (first second : Octets 33) : AbAddress := ⟨first.append second⟩

/-- Both halves have the tag of a compressed key. -/
def Compressed (address : AbAddress) : Prop :=
  PublicKey.CompressedTag address.first ∧ PublicKey.CompressedTag address.second

theorem first_ofParts (a b : Octets 33) : (ofParts a b).first = a.toList :=
  List.take_left' a.length_toList

theorem second_ofParts (a b : Octets 33) : (ofParts a b).second = b.toList :=
  List.drop_left' a.length_toList

/-- Every address has two halves. -/
theorem exists_ofParts (address : AbAddress) : ∃ a b, address = ofParts a b := by
  have hlength := address.bytes.length_toList
  have hfirst : address.first.length = 33 := by simp [first, hlength]
  have hsecond : address.second.length = 33 := by simp [second, hlength]
  refine ⟨⟨address.first, hfirst⟩, ⟨address.second, hsecond⟩, ?_⟩
  have hbytes : address.bytes.toList = address.first ++ address.second :=
    (List.take_append_drop 33 _).symm
  exact congrArg AbAddress.mk (Octets.ext hbytes)

theorem ofParts_inj {a' b' : Octets 33} : ofParts a b = ofParts a' b' ↔ a = a' ∧ b = b' := by
  constructor
  · intro h
    have hfirst := congrArg AbAddress.first h
    have hsecond := congrArg AbAddress.second h
    rw [first_ofParts, first_ofParts] at hfirst
    rw [second_ofParts, second_ofParts] at hsecond
    exact ⟨Octets.ext hfirst, Octets.ext hsecond⟩
  · rintro ⟨rfl, rfl⟩
    rfl

theorem compressed_ofParts :
    (ofParts a b).Compressed ↔
      PublicKey.CompressedTag a.toList ∧ PublicKey.CompressedTag b.toList := by
  rw [Compressed, first_ofParts, second_ofParts]

/-- **An address denotes two keys exactly if its halves are short forms of them.**  Each half is
parsed on its own, and what it may look like is listed apart from the parser. -/
theorem decompress_ofParts :
    (ofParts a b).decompress = .ok (first, second) ↔
      a ∈ first.shortForms ∧ b ∈ second.shortForms := by
  rw [← PublicKey.parse_toList_eq_ok_iff, ← PublicKey.parse_toList_eq_ok_iff, decompress,
    first_ofParts, second_ofParts]
  constructor
  · intro h
    obtain ⟨p, hp, h⟩ := Except.bind_eq_ok_iff.1 h
    obtain ⟨q, hq, h⟩ := Except.bind_eq_ok_iff.1 h
    cases h
    exact ⟨hp, hq⟩
  · rintro ⟨hfirst, hsecond⟩
    refine Except.bind_eq_ok_iff.2 ⟨first, hfirst, ?_⟩
    exact Except.bind_eq_ok_iff.2 ⟨second, hsecond, rfl⟩

/-- **An address is made of the keys that it denotes exactly if it is compressed.** -/
theorem ofKeys_eq_iff (hdenotes : address.decompress = .ok (first, second)) :
    ofKeys first second = address ↔ address.Compressed := by
  obtain ⟨a, b, rfl⟩ := address.exists_ofParts
  obtain ⟨ha, hb⟩ := decompress_ofParts.1 hdenotes
  rw [compressed_ofParts, ← PublicKey.eq_compress_iff ha, ← PublicKey.eq_compress_iff hb,
    eq_comm (a := a), eq_comm (a := b)]
  exact ofParts_inj

/-- Two keys are denoted by one address alone exactly if both have an odd ordinate. -/
theorem forall_decompress_iff :
    (∀ address : AbAddress, address.decompress = .ok (first, second) →
      address = ofKeys first second) ↔ first.y.isOdd = true ∧ second.y.isOdd = true := by
  rw [← PublicKey.forall_mem_shortForms_iff, ← PublicKey.forall_mem_shortForms_iff]
  constructor
  · intro hone
    constructor
    · intro a ha
      exact (ofParts_inj.1 (hone (ofParts a second.compress)
        (decompress_ofParts.2 ⟨ha, second.compress_mem_shortForms⟩))).1
    · intro b hb
      exact (ofParts_inj.1 (hone (ofParts first.compress b)
        (decompress_ofParts.2 ⟨first.compress_mem_shortForms, hb⟩))).2
  · rintro ⟨hfirst, hsecond⟩ address hdenotes
    obtain ⟨a, b, rfl⟩ := address.exists_ofParts
    obtain ⟨ha, hb⟩ := decompress_ofParts.1 hdenotes
    rw [hfirst a ha, hsecond b hb]
    rfl

/-- **Which addresses denote two keys.**  They are those whose halves are short forms of the keys.
An address among them is the one made of the keys exactly if it is compressed, and so is the address
whose text a token is; hence two compressed addresses that denote the same keys are the same.  The
keys are denoted by no other address than the one made of them exactly if both have an odd
ordinate. -/
theorem decompress_exact (first second : PublicKey) :
    (∀ a b, (ofParts a b).decompress = .ok (first, second) ↔
      a ∈ first.shortForms ∧ b ∈ second.shortForms) ∧
    (∀ address : AbAddress, address.decompress = .ok (first, second) →
      (ofKeys first second = address ↔ address.Compressed)) ∧
    (∀ (token : ScanToken) (address : AbAddress), token.toAddress = .ok address →
      address.decompress = .ok (first, second) →
      (token.toAddress = .ok (ofKeys first second) ↔ address.Compressed)) ∧
    (∀ address address' : AbAddress, address.decompress = .ok (first, second) →
      address'.decompress = .ok (first, second) → address.Compressed →
      (address = address' ↔ address'.Compressed)) ∧
    ((∀ address : AbAddress, address.decompress = .ok (first, second) →
      address = ofKeys first second) ↔ first.y.isOdd = true ∧ second.y.isOdd = true) := by
  refine ⟨fun a b => decompress_ofParts, fun address => ofKeys_eq_iff, ?_, ?_,
    forall_decompress_iff⟩
  · intro token address htoken hdenotes
    rw [htoken, Except.ok.injEq, eq_comm]
    exact ofKeys_eq_iff hdenotes
  · intro address address' hdenotes hdenotes' hcompressed
    rw [← (ofKeys_eq_iff hdenotes).2 hcompressed]
    exact ofKeys_eq_iff hdenotes'

/-- The generator has an even ordinate.  Two texts that differ in the tag of the first half are read
as two addresses, both of which denote the generator twice; only one of them is made of it. -/
theorem decompress_refuted :
    ∃ key : PublicKey, Point.finite key = Point.generator ∧
      let other := ofParts key.compact key.compress
      ofChars ("0279be667ef9dcbbac55a06295ce870b07029bfcdb2dce28d959f2815b16f81798".toList ++
        "0279be667ef9dcbbac55a06295ce870b07029bfcdb2dce28d959f2815b16f81798".toList) =
          .ok (ofKeys key key) ∧
      ofChars ("0579be667ef9dcbbac55a06295ce870b07029bfcdb2dce28d959f2815b16f81798".toList ++
        "0279be667ef9dcbbac55a06295ce870b07029bfcdb2dce28d959f2815b16f81798".toList) =
          .ok other ∧
      (ofKeys key key).decompress = .ok (key, key) ∧ other.decompress = .ok (key, key) ∧
        ofKeys key key ≠ other := by
  refine ⟨_, rfl, by decide +kernel, by decide +kernel, decompress_ofKeys _ _, ?_, by decide⟩
  refine decompress_ofParts.2 ⟨?_, PublicKey.compress_mem_shortForms _⟩
  exact PublicKey.mem_shortForms_iff.2 (.inr ⟨by decide, rfl⟩)

end AbAddress

end LinkCommittee
