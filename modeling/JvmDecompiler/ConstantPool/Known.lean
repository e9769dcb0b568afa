import JvmDecompiler.ConstantPool

/-!
# Known names in a pool

The slots of names with a fixed meaning, added to a pool on first use and remembered there.
-/

namespace JvmDecompiler.ConstantPool

/-- Find a known name in a slot from now on. -/
def noteKnown (name : KnownName) (i : UInt16) (pool : ConstantPool) : ConstantPool :=
  { pool with knownTexts := pool.knownTexts.insert name i }

/-- Find the class with a known name in a slot from now on. -/
def noteKnownClass (name : KnownName) (i : UInt16) (pool : ConstantPool) : ConstantPool :=
  { pool with knownClasses := pool.knownClasses.insert name i }

/-- The slot of a known name. -/
def known (name : KnownName) : Build UInt16 :=
  remembered (·.knownTexts[name]?) (addUtf8 name.text) (noteKnown name)

/-- The slot of the class with a known name. -/
def knownClass (name : KnownName) : Build UInt16 :=
  remembered (·.knownClasses[name]?) (do addClassByNameIndex (← known name)) (noteKnownClass name)

end JvmDecompiler.ConstantPool
