import JvmDecompiler.Constant
import JvmDecompiler.Names
import JvmDecompiler.Text.Quoted
import Std.Data.HashMap

/-!
# Constant pools

A constant pool is a row of slots, counted from zero. Slot 0 is never used, and a wide constant takes
its slot and the unusable one behind it. A pool only grows: constants are appended until it is frozen
or full, and a text, class, name-and-type pair, field or method that is already there is found instead
of appended.

`append` is the one way in which a slot is added. The other operations of `Build` look a constant up
by its content and append it where it is missing.
-/

namespace JvmDecompiler

/-- Why a constant cannot be appended to a pool. -/
inductive PoolError where
  | frozen
  /-- The constant would take the pool past its largest size. -/
  | overflow
  /-- The text cannot be a name or a descriptor. -/
  | invalidUtf8 (text : String)
  deriving DecidableEq, Repr, Inhabited

/-- The error in words. -/
def PoolError.message : PoolError → String
  | .frozen => "constant pool is frozen"
  | .overflow => "constant pool is full"
  | .invalidUtf8 text => "invalid utf8 constant " ++ Quoted.encode text

/-- A pool of constants. `index` finds the first slot with a given content, `knownTexts` and
`knownClasses` the slots of the known names that were asked for before. -/
structure ConstantPool where
  slots : Array (Option Constant)
  index : Std.HashMap Constant UInt16
  knownTexts : Std.HashMap KnownName UInt16
  knownClasses : Std.HashMap KnownName UInt16
  isFrozen : Bool

/-- Fields and methods that a constant refers to. -/
structure MemberRef where
  classIndex : UInt16
  className : String
  name : String
  descriptor : String
  deriving DecidableEq, Repr, Inhabited

namespace ConstantPool

/-- The largest number of slots that appending may reach. -/
def maxSize : Nat := 0xFFFF

/-- The pool with only the reserved slot. -/
def empty : ConstantPool := ⟨#[none], ∅, ∅, ∅, false⟩

instance : Inhabited ConstantPool := ⟨empty⟩

/-- The first slot of every content that a pool can find. -/
def indexOfSlots (slots : List (Option Constant)) : Std.HashMap Constant UInt16 :=
  slots.zipIdx.foldl
    (fun index (slot, i) =>
      match slot with
      | some c => if c.isIndexed then index.insertIfNew c i.toUInt16 else index
      | none => index)
    ∅

/-- The pool with given slots; the reserved slot is there even if none is given. -/
def ofSlots (slots : List (Option Constant)) : ConstantPool :=
  let slots := if slots.isEmpty then [none] else slots
  ⟨slots.toArray, indexOfSlots slots, ∅, ∅, false⟩

/-- The number of slots, the reserved one among them. -/
def size (pool : ConstantPool) : Nat := pool.slots.size

/-- Whether only the reserved slot is there. -/
def isEmpty (pool : ConstantPool) : Bool := pool.size ≤ 1

/-- Take no more constants. -/
def freeze (pool : ConstantPool) : ConstantPool := { pool with isFrozen := true }

/-- The constant in a slot. -/
def get? (pool : ConstantPool) (i : UInt16) : Option Constant := pool.slots[i.toNat]?.join

/-- Every constant with its slot, in order. -/
def toList (pool : ConstantPool) : List (Nat × Constant) :=
  pool.slots.toList.zipIdx.filterMap fun (slot, i) => slot.map (i, ·)

/-- Whether two pools hold equal constants in the same slots. -/
def equal (a b : ConstantPool) : Bool :=
  a.size == b.size && (a.slots.toList.zip b.slots.toList).all fun
    | (some c, some d) => c.equal d
    | (none, none) => true
    | _ => false

/-! ## What a slot stands for -/

/-- The text in a slot. -/
def utf8? (pool : ConstantPool) (i : UInt16) : Option String :=
  match pool.get? i with
  | some (.utf8 text) => some text
  | _ => none

/-- The slot of the name of the class in a slot. -/
def classNameIndex? (pool : ConstantPool) (i : UInt16) : Option UInt16 :=
  match pool.get? i with
  | some (.classRef name) => some name
  | _ => none

/-- The internal name of the class in a slot. -/
def className? (pool : ConstantPool) (i : UInt16) : Option String := do
  pool.utf8? (← pool.classNameIndex? i)

/-- The name and the descriptor in a slot. -/
def nameAndType? (pool : ConstantPool) (i : UInt16) : Option (String × String) :=
  match pool.get? i with
  | some (.nameAndType name descriptor) => do
    return (← pool.utf8? name, ← pool.utf8? descriptor)
  | _ => none

/-- The field or method in a slot. -/
def memberRef? (pool : ConstantPool) (i : UInt16) : Option MemberRef :=
  match pool.get? i with
  | some (.fieldref owner nameAndType) | some (.methodref owner nameAndType)
  | some (.interfaceMethodref owner nameAndType) => do
    let (name, descriptor) ← pool.nameAndType? nameAndType
    return ⟨owner, ← pool.className? owner, name, descriptor⟩
  | _ => none

/-- The name and the descriptor of a dynamically linked call site. -/
def callSite? (pool : ConstantPool) (i : UInt16) : Option (String × String) :=
  match pool.get? i with
  | some (.invokeDynamic _ nameAndType) => pool.nameAndType? nameAndType
  | _ => none

/-! ## Growing -/

/-- An operation that may add slots to a pool. What it added before it failed stays. -/
abbrev Build := ExceptT PoolError (StateM ConstantPool)

/-- The slot of a constant with this content. -/
def find? (pool : ConstantPool) (c : Constant) : Option UInt16 := pool.index[c]?

/-- The slots with a constant behind the last one. -/
def pushSlots (slots : Array (Option Constant)) (c : Constant) : Array (Option Constant) :=
  if c.isWide then (slots.push (some c)).push none else slots.push (some c)

/-- Add a constant behind the last slot and return its slot. -/
def append (c : Constant) : Build UInt16 := do
  let pool ← get
  if pool.isFrozen then throw .frozen
  else if pool.size + c.slots > maxSize then throw .overflow
  else
    let i := pool.size.toUInt16
    set { pool with slots := pushSlots pool.slots c }
    return i

/-- The slot that `look` finds. If it finds none, the one that `make` returns, which `note` makes the
pool remember. -/
def remembered (look : ConstantPool → Option UInt16) (make : Build UInt16)
    (note : UInt16 → ConstantPool → ConstantPool) : Build UInt16 := do
  match look (← get) with
  | some i => return i
  | none =>
    let i ← make
    modify (note i)
    return i

/-- Find a constant in a slot from now on. -/
def noteConstant (c : Constant) (i : UInt16) (pool : ConstantPool) : ConstantPool :=
  { pool with index := pool.index.insert c i }

/-- The slot of a constant, appended if no slot has its content yet. -/
def intern (c : Constant) : Build UInt16 := remembered (·.find? c) (append c) (noteConstant c)

/-- The slot of a text. A text that starts like a class descriptor around an array is refused. -/
def addUtf8 (text : String) : Build UInt16 :=
  match text.toList with
  | 'L' :: '[' :: _ => throw (.invalidUtf8 text)
  | _ => intern (.utf8 text)

/-- The slot of the class whose name is in a slot. -/
def addClassByNameIndex (name : UInt16) : Build UInt16 := intern (.classRef name)

/-- The slot of the class with an internal name. -/
def addClass (name : String) : Build UInt16 := do addClassByNameIndex (← addUtf8 name)

/-- The slot of a name with a descriptor. -/
def addNameAndType (name descriptor : String) : Build UInt16 := do
  let name ← addUtf8 name
  let descriptor ← addUtf8 descriptor
  intern (.nameAndType name descriptor)

/-- The slot of a field. -/
def addFieldref (className name descriptor : String) : Build UInt16 := do
  let owner ← addClass className
  let nameAndType ← addNameAndType name descriptor
  intern (.fieldref owner nameAndType)

/-- The slot of a method. -/
def addMethodref (className name descriptor : String) : Build UInt16 := do
  let owner ← addClass className
  let nameAndType ← addNameAndType name descriptor
  intern (.methodref owner nameAndType)

/-- The slot of a constant: texts and classes are looked up first, anything else is appended. -/
def addConstant : Constant → Build UInt16
  | .utf8 text => addUtf8 text
  | .classRef name => addClassByNameIndex name
  | c => append c

end ConstantPool

end JvmDecompiler
