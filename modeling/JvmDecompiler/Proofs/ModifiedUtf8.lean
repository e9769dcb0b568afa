import JvmDecompiler.Text.ModifiedUtf8
import Mathlib.Data.Nat.Bitwise

/-!
# Which byte strings are modified UTF-8

Texts are stored in two steps, as code units and then as bytes, and either step can be given input that it
never puts out. Reading accepts all of it: a byte too few, a longer spelling than needed, a second byte of
the wrong form, a surrogate by itself. What was read in such a way is written differently.

The byte strings that come back as they were are described here without the functions that read and write:
`IsCanonical` is the one spelling of a code unit, `Spells` puts spellings behind each other, and `Paired` says
of the code units that surrogates come in pairs. Writing gives only such byte strings, and reading takes
apart what they are made of; so the round trip from a text and the round trip from a byte string come out of
the same lemmas (`roundTrip_iff_canonical`).

Masks and shifts are turned into arithmetic of natural numbers first, a mask being some ones moved to the
left; after that every step is linear.
-/

namespace JvmDecompiler.ModifiedUtf8

/-! ## The form of what is written -/

/-- The bytes behind the first one of a sequence. -/
def IsContinuation (b : UInt8) : Prop := 0x80 ≤ b.toNat ∧ b.toNat ≤ 0xBF

/-- The one sequence of bytes that spells a code unit: one byte from 1 to 7F, two bytes up to 7FF and for 0,
three bytes from 800 on. -/
inductive IsCanonical : Bytes → UInt16 → Prop where
  | one {a : UInt8} {u : UInt16} (low : 0x01 ≤ u.toNat) (high : u.toNat ≤ 0x7F)
    (value : a.toNat = u.toNat) : IsCanonical [a] u
  | nul : IsCanonical [0xC0, 0x80] 0
  | two {a b : UInt8} {u : UInt16} (low : 0x80 ≤ u.toNat) (high : u.toNat ≤ 0x7FF)
    (second : IsContinuation b)
    (value : a.toNat * 0x40 + b.toNat = 0xC0 * 0x40 + 0x80 + u.toNat) : IsCanonical [a, b] u
  | three {a b c : UInt8} {u : UInt16} (low : 0x800 ≤ u.toNat) (second : IsContinuation b)
    (third : IsContinuation c)
    (value : a.toNat * 0x1000 + b.toNat * 0x40 + c.toNat =
      0xE0 * 0x1000 + 0x80 * 0x40 + 0x80 + u.toNat) : IsCanonical [a, b, c] u

/-- A byte string made of the spellings of code units, one behind the other. -/
inductive Spells : Bytes → List UInt16 → Prop where
  | nil : Spells [] []
  | cons {bytes rest : Bytes} {u : UInt16} {us : List UInt16} (first : IsCanonical bytes u)
    (others : Spells rest us) : Spells (bytes ++ rest) (u :: us)

/-- Code units in which every half of a surrogate pair stands beside the other half. -/
inductive Paired : List UInt16 → Prop where
  | nil : Paired []
  | single {u : UInt16} {us : List UInt16} (basic : u.toNat < 0xD800 ∨ 0xDFFF < u.toNat)
    (rest : Paired us) : Paired (u :: us)
  | pair {high low : UInt16} {us : List UInt16} (first : 0xD800 ≤ high.toNat ∧ high.toNat ≤ 0xDBFF)
    (second : 0xDC00 ≤ low.toNat ∧ low.toNat ≤ 0xDFFF) (rest : Paired us) :
    Paired (high :: low :: us)

/-! ## Bits -/

/-- A test of the bits from place `k` on is a question about what is left of the number without the lower
ones. -/
theorem and_shiftLeft_ones_eq_iff {x n k : Nat} (hx : x < 2 ^ (k + n)) (v : Nat) :
    x &&& (2 ^ n - 1) <<< k = v * 2 ^ k ↔ x / 2 ^ k = v := by
  have hbits : x &&& (2 ^ n - 1) <<< k = (x >>> k &&& 2 ^ n - 1) <<< k := by
    refine Nat.eq_of_testBit_eq fun i => ?_
    simp only [Nat.testBit_and, Nat.testBit_shiftLeft, Nat.testBit_shiftRight]
    by_cases h : k ≤ i
    · simp [h]
    · simp [h]
  have hsmall : x / 2 ^ k < 2 ^ n := Nat.div_lt_of_lt_mul (by rwa [← Nat.pow_add])
  rw [hbits, Nat.and_two_pow_sub_one_eq_mod, Nat.shiftRight_eq_div_pow, Nat.mod_eq_of_lt hsmall,
    Nat.shiftLeft_eq]
  exact Nat.mul_left_inj (Nat.two_pow_pos k).ne'

/-- Bits that do not overlap add up. -/
theorem mul_two_pow_or (x : Nat) {y k : Nat} (hy : y < 2 ^ k) : x * 2 ^ k ||| y = x * 2 ^ k + y := by
  rw [← Nat.shiftLeft_eq, Nat.shiftLeft_add_eq_or_of_lt hy]

/-- A byte without the highest bit is below 80. -/
theorem and_0x80_eq_zero_iff (a : UInt8) : a &&& 0x80 = 0 ↔ a.toNat < 0x80 := by
  rw [← UInt8.toNat_inj, UInt8.toNat_and]
  exact (and_shiftLeft_ones_eq_iff (n := 1) (k := 7) a.toNat_lt 0).trans (by omega)

/-- A byte starts a sequence of two if its three highest bits say so. -/
theorem and_0xE0_eq_iff (a : UInt8) : a &&& 0xE0 = 0xC0 ↔ a.toNat / 0x20 = 6 := by
  rw [← UInt8.toNat_inj, UInt8.toNat_and]
  exact and_shiftLeft_ones_eq_iff (n := 3) (k := 5) a.toNat_lt 6

/-- A byte starts a sequence of three if its four highest bits say so. -/
theorem and_0xF0_eq_iff (a : UInt8) : a &&& 0xF0 = 0xE0 ↔ a.toNat / 0x10 = 14 := by
  rw [← UInt8.toNat_inj, UInt8.toNat_and]
  exact and_shiftLeft_ones_eq_iff (n := 4) (k := 4) a.toNat_lt 14

/-- The first halves of surrogate pairs are the units from D800 to DBFF. -/
theorem isHighSurrogate_iff (u : UInt16) :
    isHighSurrogate u ↔ 0xD800 ≤ u.toNat ∧ u.toNat ≤ 0xDBFF := by
  rw [isHighSurrogate, decide_eq_true_iff, ← UInt16.toNat_inj, UInt16.toNat_and]
  exact (and_shiftLeft_ones_eq_iff (n := 6) (k := 10) u.toNat_lt 0x36).trans (by omega)

/-- The second halves are those from DC00 to DFFF. -/
theorem isLowSurrogate_iff (u : UInt16) :
    isLowSurrogate u ↔ 0xDC00 ≤ u.toNat ∧ u.toNat ≤ 0xDFFF := by
  rw [isLowSurrogate, decide_eq_true_iff, ← UInt16.toNat_inj, UInt16.toNat_and]
  exact (and_shiftLeft_ones_eq_iff (n := 6) (k := 10) u.toNat_lt 0x37).trans (by omega)

/-- Two bytes hold eleven bits of a unit. -/
theorem toNat_unitOfTwo (a b : UInt8) :
    (unitOfTwo a b).toNat = a.toNat % 2 ^ 5 * 2 ^ 6 + b.toNat % 2 ^ 6 := by
  rw [unitOfTwo, UInt16.toNat_or, UInt16.toNat_shiftLeft, UInt16.toNat_and, UInt16.toNat_and]
  show (a.toNat &&& 2 ^ 5 - 1) <<< 6 % 2 ^ 16 ||| (b.toNat &&& 2 ^ 6 - 1) = _
  simp only [Nat.and_two_pow_sub_one_eq_mod, Nat.shiftLeft_eq]
  rw [Nat.mod_eq_of_lt (by omega), mul_two_pow_or _ (by omega)]

/-- Three bytes hold its sixteen bits. -/
theorem toNat_unitOfThree (a b c : UInt8) : (unitOfThree a b c).toNat =
    (a.toNat % 2 ^ 4 * 2 ^ 6 + b.toNat % 2 ^ 6) * 2 ^ 6 + c.toNat % 2 ^ 6 := by
  rw [unitOfThree, UInt16.toNat_or, UInt16.toNat_or, UInt16.toNat_shiftLeft, UInt16.toNat_shiftLeft,
    UInt16.toNat_and, UInt16.toNat_and, UInt16.toNat_and]
  show (a.toNat &&& 2 ^ 4 - 1) <<< 12 % 2 ^ 16 ||| (b.toNat &&& 2 ^ 6 - 1) <<< 6 % 2 ^ 16 |||
    (c.toNat &&& 2 ^ 6 - 1) = _
  simp only [Nat.and_two_pow_sub_one_eq_mod, Nat.shiftLeft_eq]
  rw [Nat.mod_eq_of_lt (by omega : a.toNat % 2 ^ 4 * 2 ^ 12 < 2 ^ 16),
    Nat.mod_eq_of_lt (by omega : b.toNat % 2 ^ 6 * 2 ^ 6 < 2 ^ 16), mul_two_pow_or _ (by omega),
    ← mul_two_pow_or _ (by omega : c.toNat % 2 ^ 6 < 2 ^ 6)]
  congr 1
  omega

/-- A byte that is written: some low bits of a number behind a tag that says what the byte is for. -/
theorem toNat_tagged {u mask tag : UInt16} {n t : Nat} (hmask : mask.toNat = 2 ^ n - 1)
    (htag : tag.toNat = t * 2 ^ n) (hbyte : (t + 1) * 2 ^ n ≤ 2 ^ 8) :
    (u &&& mask ||| tag).toUInt8.toNat = tag.toNat + u.toNat % 2 ^ n := by
  have hlow : u.toNat % 2 ^ n < 2 ^ n := Nat.mod_lt _ (Nat.two_pow_pos n)
  rw [UInt16.toNat_toUInt8, UInt16.toNat_or, UInt16.toNat_and, hmask, htag,
    Nat.and_two_pow_sub_one_eq_mod, Nat.or_comm, mul_two_pow_or t hlow, Nat.mod_eq_of_lt]
  rw [Nat.add_mul, Nat.one_mul] at hbyte
  omega

/-! ## Bytes and code units -/

/-- Every code unit is written in its one spelling. -/
theorem isCanonical_bytesOfUnit (u : UInt16) : IsCanonical (bytesOfUnit u) u := by
  have hu := u.toNat_lt
  have hshift : ∀ k : UInt16, (u >>> k).toNat = u.toNat / 2 ^ (k.toNat % 16) := fun k => by
    rw [UInt16.toNat_shiftRight, Nat.shiftRight_eq_div_pow]
  have hsix : (u >>> 6).toNat = u.toNat / 2 ^ 6 := hshift 6
  have htwelve : (u >>> 12).toNat = u.toNat / 2 ^ 12 := hshift 12
  -- each byte is a tag and six, five or four bits of the unit
  have hlast : (u &&& 0x3F ||| 0x80).toUInt8.toNat = 0x80 + u.toNat % 2 ^ 6 :=
    toNat_tagged (n := 6) (t := 2) rfl rfl (by decide)
  have hmiddle : (u >>> 6 &&& 0x3F ||| 0x80).toUInt8.toNat = 0x80 + (u >>> 6).toNat % 2 ^ 6 :=
    toNat_tagged (n := 6) (t := 2) rfl rfl (by decide)
  have hfirstOfTwo : (u >>> 6 &&& 0x1F ||| 0xC0).toUInt8.toNat = 0xC0 + (u >>> 6).toNat % 2 ^ 5 :=
    toNat_tagged (n := 5) (t := 6) rfl rfl (by decide)
  have hfirstOfThree :
      (u >>> 12 &&& 0x0F ||| 0xE0).toUInt8.toNat = 0xE0 + (u >>> 12).toNat % 2 ^ 4 :=
    toNat_tagged (n := 4) (t := 14) rfl rfl (by decide)
  unfold bytesOfUnit
  simp only [UInt16.le_iff_toNat_le, UInt16.reduceToNat]
  -- by the length of the encoding, with 0 among those of two bytes
  split
  · rename_i hone
    exact .one hone.1 hone.2 (by rw [UInt16.toNat_toUInt8]; omega)
  · rename_i hone
    split
    · rename_i htwo
      by_cases hzero : u = 0
      · subst hzero
        exact .nul
      · have hpos : u.toNat ≠ 0 := fun h => hzero (UInt16.toNat_inj.1 h)
        exact .two (by omega) htwo ⟨by omega, by omega⟩ (by omega)
    · exact .three (by omega) ⟨by omega, by omega⟩ ⟨by omega, by omega⟩ (by omega)

/-- A code unit has one spelling. -/
theorem IsCanonical.unique {bytes other : Bytes} {u : UInt16} (h : IsCanonical bytes u)
    (h' : IsCanonical other u) : bytes = other := by
  -- forms of different length are for different units, and in one form the bits are those of the unit
  cases h with
  | one low high value =>
    cases h' with
    | one _ _ value' => rw [UInt8.toNat_inj.1 (value.trans value'.symm)]
    | nul => simp at low
    | two | three => omega
  | nul =>
    cases h' with
    | nul => rfl
    | one low | two low | three low => simp at low
  | @two a b u low high second value =>
    cases h' with
    | @two a' b' u _ _ second' value' =>
      unfold IsContinuation at second second'
      have ha : a = a' := UInt8.toNat_inj.1 (by omega)
      have hb : b = b' := UInt8.toNat_inj.1 (by omega)
      rw [ha, hb]
    | nul => simp at low
    | one | three => omega
  | @three a b c u low second third value =>
    cases h' with
    | @three a' b' c' u _ second' third' value' =>
      unfold IsContinuation at second second' third third'
      have ha : a = a' := UInt8.toNat_inj.1 (by omega)
      have hb : b = b' := UInt8.toNat_inj.1 (by omega)
      have hc : c = c' := UInt8.toNat_inj.1 (by omega)
      rw [ha, hb, hc]
    | nul => simp at low
    | one | two => omega

/-- The spelling of a code unit in front of other bytes is read as the code unit. -/
theorem IsCanonical.unitsOfBytes_append {bytes : Bytes} {u : UInt16} (h : IsCanonical bytes u)
    (rest : Bytes) : unitsOfBytes (bytes ++ rest) = u :: unitsOfBytes rest := by
  rw [unitsOfBytes.eq_def]
  cases h with
  | @one a u low high value =>
    have ha : a &&& 0x80 = 0 := (and_0x80_eq_zero_iff a).2 (by omega)
    have hunit : a.toUInt16 = u := UInt16.toNat_inj.1 (by rw [UInt8.toNat_toUInt16, value])
    simp only [List.cons_append, List.nil_append, if_pos ha, hunit]
  | nul => rfl
  | @two a b u low high second value =>
    unfold IsContinuation at second
    have hone : ¬a &&& 0x80 = 0 := mt (and_0x80_eq_zero_iff a).1 (by omega)
    have htwo : a &&& 0xE0 = 0xC0 := (and_0xE0_eq_iff a).2 (by omega)
    have hunit : unitOfTwo a b = u := UInt16.toNat_inj.1 (by rw [toNat_unitOfTwo]; omega)
    simp only [List.cons_append, List.nil_append, if_neg hone, if_pos htwo, hunit]
  | @three a b c u low second third value =>
    have hu := u.toNat_lt
    unfold IsContinuation at second third
    have hone : ¬a &&& 0x80 = 0 := mt (and_0x80_eq_zero_iff a).1 (by omega)
    have htwo : ¬a &&& 0xE0 = 0xC0 := mt (and_0xE0_eq_iff a).1 (by omega)
    have hthree : a &&& 0xF0 = 0xE0 := (and_0xF0_eq_iff a).2 (by omega)
    have hunit : unitOfThree a b c = u := UInt16.toNat_inj.1 (by rw [toNat_unitOfThree]; omega)
    simp only [List.cons_append, List.nil_append, if_neg hone, if_neg htwo, if_pos hthree, hunit]

/-- The encoding of some code units spells them. -/
theorem spells_bytesOfUnits (us : List UInt16) : Spells (bytesOfUnits us) us := by
  induction us with
  | nil => exact .nil
  | cons u us ih => exact .cons (isCanonical_bytesOfUnit u) ih

/-- What spells some code units is decoded to them. -/
theorem Spells.unitsOfBytes_eq {bytes : Bytes} {us : List UInt16} (h : Spells bytes us) :
    unitsOfBytes bytes = us := by
  induction h with
  | nil => rfl
  | cons first others ih => rw [first.unitsOfBytes_append, ih]

/-- Code units have no other spelling than their encoding. -/
theorem Spells.eq_bytesOfUnits {bytes : Bytes} {us : List UInt16} (h : Spells bytes us) :
    bytes = bytesOfUnits us := by
  induction h with
  | nil => rfl
  | @cons bytes rest u us first others ih =>
    rw [bytesOfUnits, List.flatMap_cons, first.unique (isCanonical_bytesOfUnit u), ih]
    rfl

/-! ## Code units and characters -/

/-- A character that is made from its number has this number. -/
theorem toNat_ofNat_of_isValidChar {n : Nat} (h : n.isValidChar) : (Char.ofNat n).toNat = n := by
  rw [Char.ofNat, dif_pos h]
  rfl

/-- A unit that is no half of a pair is a character. -/
theorem charsOfUnits_cons_of_basic {u : UInt16} (h : u.toNat < 0xD800 ∨ 0xDFFF < u.toNat)
    (us : List UInt16) : charsOfUnits (u :: us) = Char.ofNat u.toNat :: charsOfUnits us := by
  have hhigh : isHighSurrogate u = false := by
    rw [← Bool.not_eq_true, isHighSurrogate_iff]
    omega
  have hlow : isLowSurrogate u = false := by
    rw [← Bool.not_eq_true, isLowSurrogate_iff]
    omega
  have hchar : charOfUnit u = Char.ofNat u.toNat := by simp [charOfUnit, hhigh, hlow]
  cases us with
  | nil => simp [charsOfUnits, hchar]
  | cons v us => simp [charsOfUnits, hhigh, hchar]

/-- Two halves of a pair are one character. -/
theorem charsOfUnits_cons_cons_of_pair {high low : UInt16}
    (first : 0xD800 ≤ high.toNat ∧ high.toNat ≤ 0xDBFF)
    (second : 0xDC00 ≤ low.toNat ∧ low.toNat ≤ 0xDFFF) (us : List UInt16) :
    charsOfUnits (high :: low :: us) = charOfPair high low :: charsOfUnits us := by
  rw [charsOfUnits, if_pos]
  rw [Bool.and_eq_true, isHighSurrogate_iff, isLowSurrogate_iff]
  exact ⟨first, second⟩

/-- The number of a character is put together from ten bits of each half. -/
theorem toNat_charOfPair (high low : UInt16) : (charOfPair high low).toNat =
    0x10000 + high.toNat % 0x400 * 0x400 + low.toNat % 0x400 :=
  toNat_ofNat_of_isValidChar (.inr (by omega))

/-- A character below 10000 is one unit. -/
theorem unitsOfChar_of_basic {c : Char} (h : c.toNat < 0x10000) :
    ∃ u, unitsOfChar c = [u] ∧ u.toNat = c.toNat :=
  ⟨_, by rw [unitsOfChar, if_pos h], UInt16.toNat_ofNat_of_lt' h⟩

/-- Any other is a pair of two halves. -/
theorem unitsOfChar_of_supplementary {c : Char} (h : 0x10000 ≤ c.toNat) :
    ∃ high low, unitsOfChar c = [high, low] ∧
      high.toNat = 0xD800 + (c.toNat - 0x10000) / 0x400 ∧
      low.toNat = 0xDC00 + (c.toNat - 0x10000) % 0x400 := by
  have hvalid : c.toNat < 0xD800 ∨ 0xDFFF < c.toNat ∧ c.toNat < 0x110000 := c.valid
  refine ⟨_, _, by rw [unitsOfChar, if_neg (by omega)], ?_, ?_⟩
  · exact UInt16.toNat_ofNat_of_lt' (by simp only [UInt16.size]; omega)
  · exact UInt16.toNat_ofNat_of_lt' (by simp only [UInt16.size]; omega)

/-- The characters that paired code units spell are written as these code units. -/
theorem Paired.unitsOfChars_charsOfUnits {us : List UInt16} (h : Paired us) :
    unitsOfChars (charsOfUnits us) = us := by
  induction h with
  | nil => rfl
  | @single u us basic rest ih =>
    have hu := u.toNat_lt
    have hvalue : (Char.ofNat u.toNat).toNat = u.toNat := toNat_ofNat_of_isValidChar (by omega)
    obtain ⟨v, hchar, hv⟩ := unitsOfChar_of_basic (c := Char.ofNat u.toNat) (by omega)
    obtain rfl : v = u := UInt16.toNat_inj.1 (hv.trans hvalue)
    rw [charsOfUnits_cons_of_basic basic, unitsOfChars, List.flatMap_cons, hchar]
    exact congrArg (v :: ·) ih
  | @pair high low us first second rest ih =>
    have hvalue := toNat_charOfPair high low
    obtain ⟨high', low', hchar, hhigh, hlow⟩ :=
      unitsOfChar_of_supplementary (c := charOfPair high low) (by omega)
    obtain rfl : high' = high := UInt16.toNat_inj.1 (by omega)
    obtain rfl : low' = low := UInt16.toNat_inj.1 (by omega)
    rw [charsOfUnits_cons_cons_of_pair first second, unitsOfChars, List.flatMap_cons, hchar]
    exact congrArg (high' :: low' :: ·) ih

/-- The code units of a character are read as the character in front of what follows, and they leave
paired what is paired. -/
theorem unitsOfChar_append (c : Char) (us : List UInt16) :
    charsOfUnits (unitsOfChar c ++ us) = c :: charsOfUnits us ∧
      (Paired us → Paired (unitsOfChar c ++ us)) := by
  have hvalid : c.toNat < 0xD800 ∨ 0xDFFF < c.toNat ∧ c.toNat < 0x110000 := c.valid
  rcases Nat.lt_or_ge c.toNat 0x10000 with hbasic | hsupplementary
  · obtain ⟨u, hchar, hu⟩ := unitsOfChar_of_basic hbasic
    rw [hchar, List.singleton_append, charsOfUnits_cons_of_basic (by omega), hu, Char.ofNat_toNat]
    exact ⟨rfl, .single (by omega)⟩
  · obtain ⟨high, low, hchar, hhigh, hlow⟩ := unitsOfChar_of_supplementary hsupplementary
    have hpair : charOfPair high low = c := by
      rw [← Char.toNat_inj, toNat_charOfPair]
      omega
    rw [hchar, List.cons_append, List.singleton_append,
      charsOfUnits_cons_cons_of_pair (by omega) (by omega), hpair]
    exact ⟨rfl, .pair (by omega) (by omega)⟩

/-- Characters are read back from their units. -/
theorem charsOfUnits_unitsOfChars (cs : List Char) : charsOfUnits (unitsOfChars cs) = cs := by
  induction cs with
  | nil => rfl
  | cons c cs ih =>
    rw [unitsOfChars, List.flatMap_cons, (unitsOfChar_append c _).1]
    exact congrArg (c :: ·) ih

/-- In the units of characters no half stands alone. -/
theorem paired_unitsOfChars (cs : List Char) : Paired (unitsOfChars cs) := by
  induction cs with
  | nil => exact .nil
  | cons c cs ih => exact (unitsOfChar_append c _).2 ih

/-! ## Texts -/

/-- What spells some code units is decoded to their characters. -/
theorem decode_bytesOfUnits (us : List UInt16) :
    decode (bytesOfUnits us) = String.ofList (charsOfUnits us) := by
  rw [decode, (spells_bytesOfUnits us).unitsOfBytes_eq]

/-- Every text is read back from what is written for it. A byte string is what is written for the text that
it is read as exactly if it consists of the spellings of paired code units. -/
theorem roundTrip_iff_canonical : (∀ text, decode (encode text) = text) ∧
    ∀ bytes, encode (decode bytes) = bytes ↔ ∃ us, Spells bytes us ∧ Paired us := by
  refine ⟨fun text => ?_, fun bytes => ⟨fun h => ?_, ?_⟩⟩
  · rw [encode, decode_bytesOfUnits, charsOfUnits_unitsOfChars, String.ofList_toList]
  · rw [← h]
    exact ⟨_, spells_bytesOfUnits _, paired_unitsOfChars _⟩
  · rintro ⟨us, hspells, hpaired⟩
    obtain rfl := hspells.eq_bytesOfUnits
    rw [decode_bytesOfUnits, encode, String.toList_ofList, hpaired.unitsOfChars_charsOfUnits]

/-- The three bytes of a high surrogate by itself are read as the replacement character. -/
example : encode (decode [0xED, 0xA0, 0x80]) = [0xEF, 0xBF, 0xBD] := by decide

end JvmDecompiler.ModifiedUtf8
