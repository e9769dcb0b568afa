/-!
# Equality of floating-point numbers

Floating-point constants are kept as the bits they are stored in. As numbers, two of them are equal
when neither is NaN and the bits agree or both are zero.
-/

namespace JvmDecompiler.Ieee

/-- Whether 32 bits are a NaN: all exponent bits set and some fraction bit. -/
def isNaN32 (bits : UInt32) : Bool := 0x7F800000 < bits &&& 0x7FFFFFFF

/-- Whether 64 bits are a NaN: all exponent bits set and some fraction bit. -/
def isNaN64 (bits : UInt64) : Bool := 0x7FF0000000000000 < bits &&& 0x7FFFFFFFFFFFFFFF

/-- Whether two 32-bit numbers are equal; zero has two signs. -/
def equal32 (a b : UInt32) : Bool :=
  !isNaN32 a && !isNaN32 b && (a == b || (a ||| b) &&& 0x7FFFFFFF == 0)

/-- Whether two 64-bit numbers are equal; zero has two signs. -/
def equal64 (a b : UInt64) : Bool :=
  !isNaN64 a && !isNaN64 b && (a == b || (a ||| b) &&& 0x7FFFFFFFFFFFFFFF == 0)

end JvmDecompiler.Ieee
