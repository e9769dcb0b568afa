import JvmDecompiler.Bytes

/-!
# Modified UTF-8

Text in a class file is stored as its UTF-16 code units, each unit spelled on one to three bytes. NUL
takes two bytes, so no zero byte occurs, and a character beyond the basic plane is a surrogate pair
of three bytes a half. Reading never fails: a byte that starts no unit and a surrogate without its
partner both read as the replacement character.

`decode` and `encode` are each the composition of a step between bytes and code units (`unitsOfBytes`,
`bytesOfUnits`) and a step between code units and characters (`charsOfUnits`, `unitsOfChars`).
-/

namespace JvmDecompiler.ModifiedUtf8

/-- The character that stands for what cannot be read, U+FFFD. -/
def replacement : Char := '\uFFFD'

/-- A code unit from the five and six payload bits of a two-byte sequence. -/
def unitOfTwo (a b : UInt8) : UInt16 :=
  (a.toUInt16 &&& 0x1F) <<< 6 ||| (b.toUInt16 &&& 0x3F)

/-- A code unit from the four, six and six payload bits of a three-byte sequence. -/
def unitOfThree (a b c : UInt8) : UInt16 :=
  (a.toUInt16 &&& 0x0F) <<< 12 ||| (b.toUInt16 &&& 0x3F) <<< 6 ||| (c.toUInt16 &&& 0x3F)

/-- Code units spelled by a byte string. The first byte of a sequence fixes its length; the others
give their low six bits whatever their high ones are. A byte that starts no sequence, or whose
sequence is cut short by the end, reads as the replacement character. -/
def unitsOfBytes : Bytes → List UInt16
  | [] => []
  | a :: rest =>
    if a &&& 0x80 = 0 then a.toUInt16 :: unitsOfBytes rest
    else if a &&& 0xE0 = 0xC0 then
      match rest with
      | b :: rest => unitOfTwo a b :: unitsOfBytes rest
      | [] => [0xFFFD]
    else if a &&& 0xF0 = 0xE0 then
      match rest with
      | b :: c :: rest => unitOfThree a b c :: unitsOfBytes rest
      | rest => 0xFFFD :: unitsOfBytes rest
    else 0xFFFD :: unitsOfBytes rest

/-- Whether a code unit is the first half of a surrogate pair. -/
def isHighSurrogate (u : UInt16) : Bool := u &&& 0xFC00 = 0xD800

/-- Whether a code unit is the second half of a surrogate pair. -/
def isLowSurrogate (u : UInt16) : Bool := u &&& 0xFC00 = 0xDC00

/-- The character of a code unit that is no surrogate, and the replacement character for one that
is. -/
def charOfUnit (u : UInt16) : Char :=
  if isHighSurrogate u || isLowSurrogate u then replacement else Char.ofNat u.toNat

/-- The character beyond the basic plane that a surrogate pair spells. -/
def charOfPair (high low : UInt16) : Char :=
  Char.ofNat (0x10000 + (high.toNat % 0x400) * 0x400 + low.toNat % 0x400)

/-- Characters spelled by code units. A surrogate without its partner reads as the replacement
character. -/
def charsOfUnits : List UInt16 → List Char
  | [] => []
  | [u] => [charOfUnit u]
  | u :: v :: rest =>
    if isHighSurrogate u && isLowSurrogate v then charOfPair u v :: charsOfUnits rest
    else charOfUnit u :: charsOfUnits (v :: rest)

/-- The text that a byte string spells. -/
def decode (bytes : Bytes) : String := String.ofList (charsOfUnits (unitsOfBytes bytes))

/-- Code units of one character: one in the basic plane, a surrogate pair beyond it. -/
def unitsOfChar (c : Char) : List UInt16 :=
  if c.toNat < 0x10000 then [c.toNat.toUInt16]
  else
    let n := c.toNat - 0x10000
    [(0xD800 + n / 0x400).toUInt16, (0xDC00 + n % 0x400).toUInt16]

/-- Code units of a sequence of characters. -/
def unitsOfChars (cs : List Char) : List UInt16 := cs.flatMap unitsOfChar

/-- The one spelling of a code unit that is written: on one byte from 1 to 0x7F, on two for 0 and up
to 0x7FF, on three from there. -/
def bytesOfUnit (u : UInt16) : Bytes :=
  if 1 ≤ u ∧ u ≤ 0x7F then [u.toUInt8]
  else if u ≤ 0x7FF then [(u >>> 6 &&& 0x1F ||| 0xC0).toUInt8, (u &&& 0x3F ||| 0x80).toUInt8]
  else
    [(u >>> 12 &&& 0x0F ||| 0xE0).toUInt8, (u >>> 6 &&& 0x3F ||| 0x80).toUInt8,
      (u &&& 0x3F ||| 0x80).toUInt8]

/-- The byte string written for code units. -/
def bytesOfUnits (us : List UInt16) : Bytes := us.flatMap bytesOfUnit

/-- The byte string written for a text. -/
def encode (text : String) : Bytes := bytesOfUnits (unitsOfChars text.toList)

end JvmDecompiler.ModifiedUtf8
