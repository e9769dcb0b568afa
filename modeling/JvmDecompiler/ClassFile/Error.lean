/-!
# Faults of class files

The ways in which a byte string fails to be a class file, and the messages for them. The message for a
malformed constant ends with the place and the words of the library that reads it; here it ends before
them.
-/

namespace JvmDecompiler

/-- What is wrong with an index into the constant pool. -/
inductive ReferenceProblem where
  | pastTheEnd
  /-- Slot 0, or the second slot of a wide constant. -/
  | unusableSlot
  /-- The constant there is not of the kind that is asked for, in these words. -/
  | mismatch (problem : String)
  deriving DecidableEq, Repr, Inhabited

/-- The problem in words. -/
def ReferenceProblem.text : ReferenceProblem → String
  | .pastTheEnd => "past the end of the constant pool"
  | .unusableSlot => "an unusable slot"
  | .mismatch problem => problem

/-- Why a byte string is no class file. -/
inductive FormatError where
  | badMagic
  | unsupportedVersion (major minor : UInt16)
  | truncated
  /-- A constant has an unknown tag or is cut short. Where, and in which words, is said by the library that
  reads enumerations of constants; what it says goes into the message only, and is not kept here. -/
  | malformed
  /-- An index that `source` holds does not lead to the constant it has to. -/
  | badReference (source : String) (index : UInt16) (problem : ReferenceProblem)
  | trailingBytes (count : Nat)
  deriving DecidableEq, Repr, Inhabited

/-- The error in words. -/
def FormatError.message : FormatError → String
  | .badMagic => "not a class file: bad magic number"
  | .unsupportedVersion major minor => s!"unsupported class file version {major}.{minor}"
  | .truncated => "class file truncated"
  | .malformed => "malformed class file"
  | .badReference source index problem =>
    s!"constant #{index} referenced from {source} is {problem.text}"
  | .trailingBytes count => s!"{count} unexpected bytes after the end of the class file"

end JvmDecompiler
