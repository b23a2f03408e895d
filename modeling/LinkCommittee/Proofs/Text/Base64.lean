import LinkCommittee.Text.Base64
import LinkCommittee.Proofs.Bytes
import LinkCommittee.Proofs.Text.Basic
import Mathlib.Data.Nat.Digits.Lemmas

/-!
# Base64 text and bytes

The 64 symbols are ASCII, differ from the padding and have the values they stand for.
A byte string is read back from its text, group by group of three bytes, and since
reading is strict, only from this one text (`Base64.decode_eq_some_iff`).  Said without
the writer, the symbols spell in base 64 the number that the bytes spell in base 256, with
two zero bits behind it for each mark of padding (`Base64.decode_eq_some_iff_spells`).
-/

namespace LinkCommittee.Base64

/-- The symbol of a value has that value. -/
theorem symbolValue?_symbol {value : Nat} (h : value < 64) :
    symbolValue? (symbol value) = some value := by
  revert value
  decide

/-- The symbols are told apart from the padding. -/
theorem symbol_ne_padding {value : Nat} (h : value < 64) : symbol value ≠ '=' := by
  revert value
  decide

/-- The symbols are ASCII. -/
theorem isAscii_symbol {value : Nat} (h : value < 64) : isAscii (symbol value) = true := by
  revert value
  decide

/-- The six-bit values of a group of bytes are below 64. -/
theorem sextets_lt (a b c : UInt8) :
    a.toNat / 4 < 64 ∧ a.toNat % 4 * 16 + b.toNat / 16 < 64 ∧
      b.toNat % 16 * 4 + c.toNat / 64 < 64 ∧ c.toNat % 64 < 64 := by
  have ha : a.toNat < 256 := a.toNat_lt
  have hb : b.toNat < 256 := b.toNat_lt
  have hc : c.toNat < 256 := c.toNat_lt
  omega

/-- The first two values of a group hold its first byte. -/
theorem first_byte (a b : UInt8) :
    UInt8.ofNat (a.toNat / 4 * 4 + (a.toNat % 4 * 16 + b.toNat / 16) / 16) = a := by
  have hb : b.toNat < 256 := b.toNat_lt
  have hvalue : a.toNat / 4 * 4 + (a.toNat % 4 * 16 + b.toNat / 16) / 16 = a.toNat := by omega
  rw [hvalue, UInt8.ofNat_toNat]

/-- The middle two values of a group hold its second byte. -/
theorem second_byte (a b c : UInt8) :
    UInt8.ofNat ((a.toNat % 4 * 16 + b.toNat / 16) % 16 * 16 +
      (b.toNat % 16 * 4 + c.toNat / 64) / 4) = b := by
  have hb : b.toNat < 256 := b.toNat_lt
  have hc : c.toNat < 256 := c.toNat_lt
  have hvalue : (a.toNat % 4 * 16 + b.toNat / 16) % 16 * 16 +
      (b.toNat % 16 * 4 + c.toNat / 64) / 4 = b.toNat := by omega
  rw [hvalue, UInt8.ofNat_toNat]

/-- The last two values of a group hold its third byte. -/
theorem third_byte (b c : UInt8) :
    UInt8.ofNat ((b.toNat % 16 * 4 + c.toNat / 64) % 4 * 64 + c.toNat % 64) = c := by
  have hc : c.toNat < 256 := c.toNat_lt
  have hvalue : (b.toNat % 16 * 4 + c.toNat / 64) % 4 * 64 + c.toNat % 64 = c.toNat := by omega
  rw [hvalue, UInt8.ofNat_toNat]

/-- Four symbols of three bytes give the bytes back. -/
theorem decodeThree_symbols (a b c : UInt8) :
    decodeThree (symbol (a.toNat / 4)) (symbol (a.toNat % 4 * 16 + b.toNat / 16))
      (symbol (b.toNat % 16 * 4 + c.toNat / 64)) (symbol (c.toNat % 64)) = some [a, b, c] := by
  obtain ⟨h₁, h₂, h₃, h₄⟩ := sextets_lt a b c
  simp only [decodeThree, symbolValue?_symbol h₁, symbolValue?_symbol h₂, symbolValue?_symbol h₃,
    symbolValue?_symbol h₄, Option.bind_eq_bind, Option.bind_some, first_byte, second_byte,
    third_byte]
  rfl

/-- Three symbols of two bytes give the bytes back. -/
theorem decodeTwo_symbols (a b : UInt8) :
    decodeTwo (symbol (a.toNat / 4)) (symbol (a.toNat % 4 * 16 + b.toNat / 16))
      (symbol (b.toNat % 16 * 4)) = some [a, b] := by
  obtain ⟨h₁, h₂, h₃, -⟩ := sextets_lt a b 0
  have hpad : b.toNat % 16 * 4 % 4 = 0 := by omega
  have hlast := second_byte a b 0
  have hzero : b.toNat % 16 * 4 + UInt8.toNat 0 / 64 = b.toNat % 16 * 4 := rfl
  rw [hzero] at h₃ hlast
  simp only [decodeTwo, symbolValue?_symbol h₁, symbolValue?_symbol h₂, symbolValue?_symbol h₃,
    Option.bind_eq_bind, Option.bind_some, hpad, if_true, first_byte, hlast]

/-- Two symbols of one byte give the byte back. -/
theorem decodeOne_symbols (a : UInt8) :
    decodeOne (symbol (a.toNat / 4)) (symbol (a.toNat % 4 * 16)) = some [a] := by
  obtain ⟨h₁, h₂, -, -⟩ := sextets_lt a 0 0
  have hpad : a.toNat % 4 * 16 % 16 = 0 := by omega
  have hlast := first_byte a 0
  have hzero : a.toNat % 4 * 16 + UInt8.toNat 0 / 16 = a.toNat % 4 * 16 := rfl
  rw [hzero] at h₂ hlast
  simp only [decodeOne, symbolValue?_symbol h₁, symbolValue?_symbol h₂, Option.bind_eq_bind,
    Option.bind_some, hpad, if_true, hlast]

/-- **Bytes are read back from their text.** -/
theorem decode_encode (bytes : List UInt8) : decode (encode bytes) = some bytes := by
  induction bytes using encode.induct with
  | case1 => rfl
  | case2 a =>
    rw [encode, decode, if_pos ⟨rfl, rfl⟩, if_pos rfl]
    exact decodeOne_symbols a
  | case3 a b =>
    have hlast : symbol (b.toNat % 16 * 4) ≠ '=' := by
      apply symbol_ne_padding
      omega
    rw [encode, decode, if_pos ⟨rfl, rfl⟩, if_neg hlast]
    exact decodeTwo_symbols a b
  | case4 a b c bytes ih =>
    have hlast : symbol (c.toNat % 64) ≠ '=' := by
      apply symbol_ne_padding
      omega
    have hgroup : ¬(encode bytes = [] ∧ symbol (c.toNat % 64) = '=') := fun h => hlast h.2
    rw [encode, decode, if_neg hgroup, decodeThree_symbols, ih]
    rfl

/-- A character that has a value is its symbol. -/
theorem symbol_of_symbolValue? {c : Char} {value : Nat} (h : symbolValue? c = some value) :
    value < 64 ∧ symbol value = c := by
  unfold symbolValue? at h
  split at h
  next hupper =>
    obtain ⟨hlow, hhigh⟩ : 65 ≤ c.toNat ∧ c.toNat ≤ 90 := Char.toNat_bounds hupper
    cases h
    have hsymbol : symbol (c.toNat - 65) = Char.ofNat (65 + (c.toNat - 65)) := if_pos (by omega)
    exact ⟨by omega, hsymbol.trans (Char.eq_ofNat_add_sub hlow).symm⟩
  split at h
  next hlower =>
    obtain ⟨hlow, hhigh⟩ : 97 ≤ c.toNat ∧ c.toNat ≤ 122 := Char.toNat_bounds hlower
    cases h
    have hsymbol : symbol (c.toNat - 71) = Char.ofNat (71 + (c.toNat - 71)) := by
      rw [symbol, if_neg (by omega), if_pos (by omega)]
    exact ⟨by omega, hsymbol.trans (Char.eq_ofNat_add_sub (by omega)).symm⟩
  split at h
  next hdigit =>
    obtain ⟨hlow, hhigh⟩ : 48 ≤ c.toNat ∧ c.toNat ≤ 57 := Char.toNat_bounds hdigit
    cases h
    have hsymbol : symbol (c.toNat + 4) = Char.ofNat (c.toNat + 4 - 4) := by
      rw [symbol, if_neg (by omega), if_neg (by omega), if_pos (by omega)]
    exact ⟨by omega, by rw [hsymbol, Nat.add_sub_cancel, Char.ofNat_toNat]⟩
  split at h
  next hhyphen =>
    cases h
    exact ⟨by decide, hhyphen.symm⟩
  split at h
  next hunderscore =>
    cases h
    exact ⟨by decide, hunderscore.symm⟩
  · contradiction

/-- Four values below 64 are written as three bytes and cut out of these again. -/
theorem sextets_of_bytes {a b c d : Nat} (ha : a < 64) (hb : b < 64) (hc : c < 64) (hd : d < 64) :
    let x := (UInt8.ofNat (a * 4 + b / 16)).toNat
    let y := (UInt8.ofNat (b % 16 * 16 + c / 4)).toNat
    let z := (UInt8.ofNat (c % 4 * 64 + d)).toNat
    x / 4 = a ∧ x % 4 * 16 + y / 16 = b ∧ y % 16 * 4 + z / 64 = c ∧ z % 64 = d := by
  have hx : (UInt8.ofNat (a * 4 + b / 16)).toNat = a * 4 + b / 16 :=
    UInt8.toNat_ofNat_of_lt' (show a * 4 + b / 16 < 256 by omega)
  have hy : (UInt8.ofNat (b % 16 * 16 + c / 4)).toNat = b % 16 * 16 + c / 4 :=
    UInt8.toNat_ofNat_of_lt' (show b % 16 * 16 + c / 4 < 256 by omega)
  have hz : (UInt8.ofNat (c % 4 * 64 + d)).toNat = c % 4 * 64 + d :=
    UInt8.toNat_ofNat_of_lt' (show c % 4 * 64 + d < 256 by omega)
  simp only [hx, hy, hz]
  omega

/-- Four symbols that are decoded to bytes are how the bytes are encoded. -/
theorem encode_of_decodeThree {a b c d : Char} {bytes : List UInt8}
    (h : decodeThree a b c d = some bytes) (rest : List UInt8) :
    encode (bytes ++ rest) = a :: b :: c :: d :: encode rest := by
  obtain ⟨a', ha, h⟩ := Option.bind_eq_some_iff.1 h
  obtain ⟨b', hb, h⟩ := Option.bind_eq_some_iff.1 h
  obtain ⟨c', hc, h⟩ := Option.bind_eq_some_iff.1 h
  obtain ⟨d', hd, h⟩ := Option.bind_eq_some_iff.1 h
  cases h
  obtain ⟨ha64, rfl⟩ := symbol_of_symbolValue? ha
  obtain ⟨hb64, rfl⟩ := symbol_of_symbolValue? hb
  obtain ⟨hc64, rfl⟩ := symbol_of_symbolValue? hc
  obtain ⟨hd64, rfl⟩ := symbol_of_symbolValue? hd
  obtain ⟨h₁, h₂, h₃, h₄⟩ := sextets_of_bytes ha64 hb64 hc64 hd64
  rw [List.cons_append, List.cons_append, List.cons_append, List.nil_append, encode, h₁, h₂, h₃,
    h₄]

/-- Three symbols that are decoded to two bytes are how these are encoded at the end of a text. -/
theorem encode_of_decodeTwo {a b c : Char} {bytes : List UInt8}
    (h : decodeTwo a b c = some bytes) : encode bytes = [a, b, c, '='] := by
  obtain ⟨a', ha, h⟩ := Option.bind_eq_some_iff.1 h
  obtain ⟨b', hb, h⟩ := Option.bind_eq_some_iff.1 h
  obtain ⟨c', hc, h⟩ := Option.bind_eq_some_iff.1 h
  split at h
  next hunused =>
    cases h
    obtain ⟨ha64, rfl⟩ := symbol_of_symbolValue? ha
    obtain ⟨hb64, rfl⟩ := symbol_of_symbolValue? hb
    obtain ⟨hc64, rfl⟩ := symbol_of_symbolValue? hc
    -- the unused bits are zero, so the third value is all there is to write
    obtain ⟨h₁, h₂, h₃, -⟩ := sextets_of_bytes ha64 hb64 hc64 (d := 0) (by decide)
    have hzero : (UInt8.ofNat (c' % 4 * 64 + 0)).toNat / 64 = 0 := by rw [hunused]; rfl
    rw [hzero, Nat.add_zero] at h₃
    rw [encode, h₁, h₂, h₃]
  · contradiction

/-- Two symbols that are decoded to a byte are how it is encoded at the end of a text. -/
theorem encode_of_decodeOne {a b : Char} {bytes : List UInt8} (h : decodeOne a b = some bytes) :
    encode bytes = [a, b, '=', '='] := by
  obtain ⟨a', ha, h⟩ := Option.bind_eq_some_iff.1 h
  obtain ⟨b', hb, h⟩ := Option.bind_eq_some_iff.1 h
  split at h
  next hunused =>
    cases h
    obtain ⟨ha64, rfl⟩ := symbol_of_symbolValue? ha
    obtain ⟨hb64, rfl⟩ := symbol_of_symbolValue? hb
    obtain ⟨h₁, h₂, -, -⟩ := sextets_of_bytes ha64 hb64 (c := 0) (by decide) (d := 0) (by decide)
    have hzero : (UInt8.ofNat (b' % 16 * 16 + 0 / 4)).toNat / 16 = 0 := by rw [hunused]; rfl
    rw [hzero, Nat.add_zero] at h₂
    rw [encode, h₁, h₂]
  · contradiction

/-- **A text that can be read is the text of its bytes.** -/
theorem encode_of_decode {text : List Char} {bytes : List UInt8} (h : decode text = some bytes) :
    encode bytes = text := by
  induction text using decode.induct generalizing bytes with
  | case1 =>
    cases h
    rfl
  | case2 a b d text hlast =>
    obtain ⟨rfl, rfl⟩ := hlast
    rw [decode, if_pos ⟨rfl, rfl⟩, if_pos rfl] at h
    exact encode_of_decodeOne h
  | case3 a b c d text hlast hpadding =>
    obtain ⟨rfl, rfl⟩ := hlast
    rw [decode, if_pos ⟨rfl, rfl⟩, if_neg hpadding] at h
    exact encode_of_decodeTwo h
  | case4 a b c d text hmore ih =>
    rw [decode, if_neg hmore] at h
    obtain ⟨front, hfront, h⟩ := Option.bind_eq_some_iff.1 h
    obtain ⟨rest, hrest, h⟩ := Option.bind_eq_some_iff.1 h
    cases h
    rw [encode_of_decodeThree hfront, ih hrest]
  | case5 text hne hshort =>
    rw [decode] at h
    · contradiction
    · exact hne
    · exact hshort

/-- **Each byte string has one text.**  Unused bits have to be zero and padding has to stand, so no
other text is read. -/
theorem decode_eq_some_iff {text : List Char} {bytes : List UInt8} :
    decode text = some bytes ↔ encode bytes = text :=
  ⟨encode_of_decode, fun h => h ▸ decode_encode bytes⟩

/-- A text has four symbols for every group of three bytes, the last of which may be short. -/
theorem length_encode (bytes : List UInt8) :
    (encode bytes).length = 4 * ((bytes.length + 2) / 3) := by
  induction bytes using encode.induct with
  | case1 => rfl
  | case2 a => simp [encode]
  | case3 a b => simp [encode]
  | case4 a b c bytes ih =>
    simp only [encode, List.length_cons, ih]
    omega

/-- An encoded text is ASCII. -/
theorem all_isAscii_encode (bytes : List UInt8) : (encode bytes).all isAscii = true := by
  have hpadding : isAscii '=' = true := rfl
  induction bytes using encode.induct with
  | case1 => rfl
  | case2 a =>
    obtain ⟨h₁, h₂, -, -⟩ := sextets_lt a 0 0
    have hsecond : isAscii (symbol (a.toNat % 4 * 16)) = true := isAscii_symbol h₂
    simp [encode, isAscii_symbol h₁, hsecond, hpadding]
  | case3 a b =>
    obtain ⟨h₁, h₂, h₃, -⟩ := sextets_lt a b 0
    have hthird : isAscii (symbol (b.toNat % 16 * 4)) = true := isAscii_symbol h₃
    simp [encode, isAscii_symbol h₁, isAscii_symbol h₂, hthird, hpadding]
  | case4 a b c bytes ih =>
    obtain ⟨h₁, h₂, h₃, h₄⟩ := sextets_lt a b c
    simp only [encode, List.all_cons, isAscii_symbol h₁, isAscii_symbol h₂, isAscii_symbol h₃,
      isAscii_symbol h₄, ih, Bool.and_self]

/-! ### The number that symbols spell -/

/-- The symbols in the order of their values. -/
def alphabet : List Char :=
  "ABCDEFGHIJKLMNOPQRSTUVWXYZabcdefghijklmnopqrstuvwxyz0123456789-_".toList

/-- The value of a symbol is its place in the alphabet. -/
def weight (c : Char) : Nat := alphabet.idxOf c

/-- A text spells a number in `size` bytes.  It consists of symbols and of marks of padding, which
complete the last group of three bytes, and the symbols spell in base 64, the most significant
first, the number followed by two zero bits for each mark. -/
def Spells (text : List Char) (size number : Nat) : Prop :=
  ∃ (symbols : List Char) (padding : Nat), text = symbols ++ List.replicate padding '=' ∧
    padding < 3 ∧ 3 * symbols.length = 4 * size + padding ∧ (∀ c ∈ symbols, c ∈ alphabet) ∧
    Nat.ofDigits 64 (symbols.reverse.map weight) = number * 4 ^ padding

/-- The alphabet has the symbols in the order of their values. -/
theorem alphabet_eq : alphabet = (List.range 64).map symbol := by decide

/-- The place of a symbol in the alphabet is its value. -/
theorem getElem?_alphabet {value : Nat} (h : value < 64) :
    alphabet[value]? = some (symbol value) := by
  rw [alphabet_eq, List.getElem?_map, List.getElem?_range h, Option.map_some]

/-- The symbols are in the alphabet. -/
theorem symbol_mem_alphabet {value : Nat} (h : value < 64) : symbol value ∈ alphabet :=
  List.mem_of_getElem? (getElem?_alphabet h)

/-- A symbol is worth less than 64. -/
theorem weight_lt {c : Char} (h : c ∈ alphabet) : weight c < 64 := by
  have hlength : alphabet.length = 64 := by rw [alphabet_eq, List.length_map, List.length_range]
  exact hlength ▸ List.idxOf_lt_length_of_mem h

/-- A character of the alphabet is the symbol of what it is worth. -/
theorem symbol_weight {c : Char} (h : c ∈ alphabet) : symbol (weight c) = c := by
  have hplace : alphabet[weight c]? = some c := List.getElem?_idxOf h
  rw [getElem?_alphabet (weight_lt h)] at hplace
  exact Option.some.inj hplace

/-- The symbol of a value is worth that value. -/
theorem weight_symbol {value : Nat} (h : value < 64) : weight (symbol value) = value := by
  have hmem := symbol_mem_alphabet h
  have hread := symbolValue?_symbol (weight_lt hmem)
  rw [symbol_weight hmem, symbolValue?_symbol h] at hread
  exact (Option.some.inj hread).symm

/-- The four values of a group spell the number of its three bytes. -/
theorem group_value (a b c : UInt8) :
    a.toNat / 4 * 64 ^ 3 + (a.toNat % 4 * 16 + b.toNat / 16) * 64 ^ 2 +
        (b.toNat % 16 * 4 + c.toNat / 64) * 64 + c.toNat % 64 =
      a.toNat * 256 ^ 2 + b.toNat * 256 + c.toNat := by
  omega

/-- The symbols of a group of three bytes may be put in front of a text that spells a number. -/
theorem Spells.group {text : List Char} {size number : Nat} (h : Spells text size number)
    (a b c : UInt8) :
    Spells (symbol (a.toNat / 4) :: symbol (a.toNat % 4 * 16 + b.toNat / 16) ::
        symbol (b.toNat % 16 * 4 + c.toNat / 64) :: symbol (c.toNat % 64) :: text)
      (size + 3) ((a.toNat * 256 ^ 2 + b.toNat * 256 + c.toNat) * 256 ^ size + number) := by
  obtain ⟨h₁, h₂, h₃, h₄⟩ := sextets_lt a b c
  obtain ⟨symbols, padding, rfl, hpadding, hlength, hsymbols, hsum⟩ := h
  refine ⟨symbol (a.toNat / 4) :: symbol (a.toNat % 4 * 16 + b.toNat / 16) ::
    symbol (b.toNat % 16 * 4 + c.toNat / 64) :: symbol (c.toNat % 64) :: symbols, padding, rfl,
    hpadding, ?_, ?_, ?_⟩
  · simp only [List.length_cons]
    omega
  · simp only [List.forall_mem_cons]
    exact ⟨symbol_mem_alphabet h₁, symbol_mem_alphabet h₂, symbol_mem_alphabet h₃,
      symbol_mem_alphabet h₄, hsymbols⟩
  · have hunits : (64 : Nat) ^ symbols.length = 256 ^ size * 4 ^ padding := by
      have hsextets : (64 : Nat) ^ symbols.length = 4 ^ (3 * symbols.length) := by
        rw [pow_mul]
        rfl
      rw [hsextets, hlength, pow_add, pow_mul]
      rfl
    simp only [ofDigits_reverse_cons, weight_symbol h₁, weight_symbol h₂, weight_symbol h₃,
      weight_symbol h₄, hsum, List.length_cons]
    calc _ = (a.toNat / 4 * 64 ^ 3 + (a.toNat % 4 * 16 + b.toNat / 16) * 64 ^ 2 +
          (b.toNat % 16 * 4 + c.toNat / 64) * 64 + c.toNat % 64) * 64 ^ symbols.length +
            number * 4 ^ padding := by ring
      _ = _ := by rw [group_value, hunits]; ring

/-- **What is written for bytes spells their number.** -/
theorem spells_encode (bytes : List UInt8) :
    Spells (encode bytes) bytes.length (natOfBigEndian bytes) := by
  induction bytes using encode.induct with
  | case1 => exact ⟨[], 0, rfl, by decide, rfl, List.forall_mem_nil _, rfl⟩
  | case2 a =>
    obtain ⟨h₁, h₂, -, -⟩ := sextets_lt a 0 0
    refine ⟨[symbol (a.toNat / 4), symbol (a.toNat % 4 * 16)], 2, rfl, by decide, rfl, ?_, ?_⟩
    · rw [List.forall_mem_cons, List.forall_mem_singleton]
      exact ⟨symbol_mem_alphabet h₁, symbol_mem_alphabet h₂⟩
    · have hsecond : weight (symbol (a.toNat % 4 * 16)) = a.toNat % 4 * 16 := weight_symbol h₂
      rw [ofDigits_reverse_cons, ofDigits_reverse_cons, weight_symbol h₁, hsecond,
        natOfBigEndian_cons]
      show a.toNat / 4 * 64 + (a.toNat % 4 * 16 * 1 + 0) = (a.toNat * 1 + 0) * 16
      omega
  | case3 a b =>
    obtain ⟨h₁, h₂, h₃, -⟩ := sextets_lt a b 0
    refine ⟨[symbol (a.toNat / 4), symbol (a.toNat % 4 * 16 + b.toNat / 16),
      symbol (b.toNat % 16 * 4)], 1, rfl, by decide, rfl, ?_, ?_⟩
    · rw [List.forall_mem_cons, List.forall_mem_cons, List.forall_mem_singleton]
      exact ⟨symbol_mem_alphabet h₁, symbol_mem_alphabet h₂, symbol_mem_alphabet h₃⟩
    · have hthird : weight (symbol (b.toNat % 16 * 4)) = b.toNat % 16 * 4 := weight_symbol h₃
      rw [ofDigits_reverse_cons, ofDigits_reverse_cons, ofDigits_reverse_cons, weight_symbol h₁,
        weight_symbol h₂, hthird, natOfBigEndian_cons, natOfBigEndian_cons]
      show a.toNat / 4 * 64 ^ 2 + ((a.toNat % 4 * 16 + b.toNat / 16) * 64 +
        (b.toNat % 16 * 4 * 1 + 0)) = (a.toNat * 256 + (b.toNat * 1 + 0)) * 4
      omega
  | case4 a b c bytes ih =>
    have hnumber : natOfBigEndian (a :: b :: c :: bytes) =
        (a.toNat * 256 ^ 2 + b.toNat * 256 + c.toNat) * 256 ^ bytes.length +
          natOfBigEndian bytes := by
      simp only [natOfBigEndian_cons, List.length_cons]
      ring
    rw [hnumber]
    exact ih.group a b c

/-- A text of symbols is spelled by what its symbols are worth. -/
theorem map_symbol_weight {symbols : List Char} (h : ∀ c ∈ symbols, c ∈ alphabet) :
    (symbols.map weight).map symbol = symbols := by
  rw [List.map_map]
  calc symbols.map (symbol ∘ weight) = symbols.map id :=
        List.map_congr_left fun c hc => symbol_weight (h c hc)
    _ = symbols := List.map_id symbols

/-- What symbols are worth are digits to the base 64. -/
theorem weights_lt {symbols : List Char} (h : ∀ c ∈ symbols, c ∈ alphabet) :
    ∀ value ∈ symbols.reverse.map weight, value < 64 := by
  intro value hvalue
  obtain ⟨c, hc, rfl⟩ := List.mem_map.1 hvalue
  exact weight_lt (h c (List.mem_reverse.1 hc))

/-- **A number has one text** in a given number of bytes.  The symbols are digits to the base 64,
and so many digits of a number are told by it. -/
theorem Spells.text_unique {text text' : List Char} {size number : Nat}
    (h : Spells text size number) (h' : Spells text' size number) : text = text' := by
  obtain ⟨symbols, padding, rfl, hpadding, hlength, hsymbols, hsum⟩ := h
  obtain ⟨symbols', padding', rfl, hpadding', hlength', hsymbols', hsum'⟩ := h'
  obtain rfl : padding = padding' := by omega
  have hcount : (symbols.reverse.map weight).length = (symbols'.reverse.map weight).length := by
    rw [List.length_map, List.length_map, List.length_reverse, List.length_reverse]
    omega
  have hweights : symbols.map weight = symbols'.map weight := by
    apply List.reverse_injective
    rw [← List.map_reverse, ← List.map_reverse]
    exact Nat.ofDigits_inj_of_len_eq (by decide) hcount (weights_lt hsymbols)
      (weights_lt hsymbols') (hsum.trans hsum'.symm)
  rw [← map_symbol_weight hsymbols, hweights, map_symbol_weight hsymbols']

/-- **A text is read as the bytes that spell its number**, if their number is the one of the text. -/
theorem decode_eq_some_iff_spells {text : List Char} {bytes : List UInt8} :
    decode text = some bytes ↔ Spells text bytes.length (natOfBigEndian bytes) := by
  rw [decode_eq_some_iff]
  constructor
  · intro h
    subst h
    exact spells_encode bytes
  · intro h
    exact (spells_encode bytes).text_unique h

end LinkCommittee.Base64
