/-!
# Big-endian byte strings

A class file is a string of bytes in which every number is written most significant byte first. This
module holds the two directions of that layout: readers, which take a value off the front of a byte
string or say why they cannot, and writers, which produce the bytes that a reader takes back.

## Shape of the readers

A `Reader` maps the bytes ahead of it to a value together with the bytes it leaves. It never looks
past what it consumes, so the answer on an input does not change when more bytes are appended.
-/

namespace JvmDecompiler

/-- A byte string, in file order. -/
abbrev Bytes := List UInt8

/-- Why a value cannot be read from the front of a byte string. -/
inductive ReadFault where
  /-- The bytes end before the value does. -/
  | endOfInput
  /-- No alternative of a tagged value can be read: its tag is unknown, or its content is cut short. -/
  | noAlternative
  /-- No instruction starts with this opcode. -/
  | unknownOpcode
  /-- The instruction is known, but no instruction has these operands. -/
  | badOperand
  deriving DecidableEq, Repr, Inhabited

/-- A reader takes a value off the front of a byte string and leaves the rest. -/
abbrev Reader := StateT Bytes (Except ReadFault)

namespace Reader

/-- Refuse the input. -/
def fail {α : Type} (fault : ReadFault) : Reader α := fun _ => .error fault

/-- One byte. -/
def u1 : Reader UInt8
  | b :: rest => .ok (b, rest)
  | [] => .error .endOfInput

/-- An unsigned number of two bytes. -/
def u2 : Reader UInt16
  | a :: b :: rest => .ok (a.toUInt16 <<< 8 ||| b.toUInt16, rest)
  | _ => .error .endOfInput

/-- An unsigned number of four bytes. -/
def u4 : Reader UInt32
  | a :: b :: c :: d :: rest =>
    .ok (a.toUInt32 <<< 24 ||| b.toUInt32 <<< 16 ||| c.toUInt32 <<< 8 ||| d.toUInt32, rest)
  | _ => .error .endOfInput

/-- An unsigned number of eight bytes. -/
def u8 : Reader UInt64 := do
  let high ← u4
  let low ← u4
  return high.toUInt64 <<< 32 ||| low.toUInt64

/-- A signed number of one byte. -/
def s1 : Reader Int8 := do return (← u1).toInt8

/-- A signed number of two bytes. -/
def s2 : Reader Int16 := do return (← u2).toInt16

/-- A signed number of four bytes. -/
def s4 : Reader Int32 := do return (← u4).toInt32

/-- The next `n` bytes as they are. -/
def take (n : Nat) : Reader Bytes := fun input =>
  if n ≤ input.length then .ok (input.splitAt n) else .error .endOfInput

/-- `n` values read one after the other by `item`. -/
def times {α : Type} (item : Reader α) : Nat → Reader (List α)
  | 0 => return []
  | n + 1 => do
    let first ← item
    let others ← times item n
    return first :: others

/-- The value that `reader` finds in `input`, provided it uses all of it. -/
def all? {α : Type} (reader : Reader α) (input : Bytes) : Option α :=
  match reader input with
  | .ok (value, []) => some value
  | _ => none

end Reader

namespace Bytes

/-- The two bytes of a number. -/
def ofU2 (n : UInt16) : Bytes := [(n >>> 8).toUInt8, n.toUInt8]

/-- The four bytes of a number. -/
def ofU4 (n : UInt32) : Bytes :=
  [(n >>> 24).toUInt8, (n >>> 16).toUInt8, (n >>> 8).toUInt8, n.toUInt8]

/-- The eight bytes of a number. -/
def ofU8 (n : UInt64) : Bytes := ofU4 (n >>> 32).toUInt32 ++ ofU4 n.toUInt32

end Bytes

end JvmDecompiler
