import JvmDecompiler.ConstantPool
import JvmDecompiler.ClassFile.Error

/-!
# References between constants

Every index that a constant holds has to lead to a constant of the right kind. `validate` reports the
first index, in the order of slots and of the fields of a constant, that does not.
-/

namespace JvmDecompiler

/-- What an index has to lead to. -/
inductive ConstantKind.Target where
  | utf8
  | classRef
  | nameAndType
  /-- A field, a method or a method of an interface. -/
  | member
  deriving DecidableEq, Repr, Inhabited

namespace ConstantKind.Target

/-- The kinds of constants that serve as a target. -/
def accepts : Target → ConstantKind → Bool
  | .utf8, .utf8 => true
  | .classRef, .classRef => true
  | .nameAndType, .nameAndType => true
  | .member, .fieldref | .member, .methodref | .member, .interfaceMethodref => true
  | _, _ => false

/-- What is said of a constant that does not serve as the target. -/
def problem : Target → String
  | .utf8 => "not a Utf8"
  | .classRef => "not a Class"
  | .nameAndType => "not a NameAndType"
  | .member => "not a member reference"

end ConstantKind.Target

/-- The indices that a constant holds, and what each has to lead to. -/
def Constant.references : Constant → List (UInt16 × ConstantKind.Target)
  | .utf8 _ | .integer _ | .float _ | .long _ | .double _ => []
  | .classRef i | .string i | .methodType i | .moduleRef i | .packageRef i => [(i, .utf8)]
  | .nameAndType name descriptor => [(name, .utf8), (descriptor, .utf8)]
  | .fieldref owner pair | .methodref owner pair | .interfaceMethodref owner pair =>
    [(owner, .classRef), (pair, .nameAndType)]
  | .dynamic _ pair | .invokeDynamic _ pair => [(pair, .nameAndType)]
  | .methodHandle _ reference => [(reference, .member)]

namespace ConstantPool

/-- Report an index that `source` holds unless it leads to a constant that `accepts` holds of. -/
def checkIndex (pool : ConstantPool) (source : String) (index : UInt16) (accepts : Constant → Bool)
    (problem : String) : Except FormatError Unit :=
  match pool.slots[index.toNat]? with
  | none => throw (.badReference source index .pastTheEnd)
  | some none => throw (.badReference source index .unusableSlot)
  | some (some c) =>
    if accepts c then return () else throw (.badReference source index (.mismatch problem))

/-- Report an index that `source` holds unless it leads to the given kind of target. -/
def checkTarget (pool : ConstantPool) (source : String) (index : UInt16)
    (target : ConstantKind.Target) : Except FormatError Unit :=
  pool.checkIndex source index (target.accepts ·.kind) target.problem

/-- Report the first index held by a constant of the pool that leads to no constant of the right
kind. -/
def validate (pool : ConstantPool) : Except FormatError Unit :=
  pool.toList.forM fun (i, c) =>
    c.references.forM fun (index, target) =>
      pool.checkTarget s!"constant #{i} ({c.kind.name})" index target

end ConstantPool

end JvmDecompiler
