import JvmDecompiler.Instruction.Format
import JvmDecompiler.Proofs.ByteGrammar
import JvmDecompiler.Proofs.StableSort
import Mathlib.Data.Int.Order.Basic

/-!
# The encodings of an instruction

The format lists its instructions by opcode. The tables here are that list, one row for each opcode,
grouped by what stands behind the opcode: nothing, the number of a variable, an index into the constant
pool, or the distance of a branch. `Instruction.Encoding` is the grammar over them, with the
instructions that have operands of their own beside the tables. An instruction may have several
encodings: a variable with a small number has a short form and a wide one, a branch a near and a far
one, and the bytes that the format reserves may hold anything.

The reader computes kinds of operands and operators from the distance of an opcode to the first of its
group. It reads exactly this grammar (`Instruction.read_eq_ok_iff_encoding`): no group is off by one,
and no instruction is found in bytes that are not an encoding of it.
-/

namespace JvmDecompiler

namespace Instruction

/-! ## Opcodes -/

/-- The constants that have an opcode of their own. -/
def constantOpcodes : List (UInt8 × Instruction) :=
  [(0x00, .nop), (0x01, .aconstNull),
    (0x02, .push (-1) .iconst), (0x03, .push 0 .iconst), (0x04, .push 1 .iconst),
    (0x05, .push 2 .iconst), (0x06, .push 3 .iconst), (0x07, .push 4 .iconst),
    (0x08, .push 5 .iconst), (0x09, .longConst 0), (0x0A, .longConst 1),
    (0x0B, .floatConst 0x00000000), (0x0C, .floatConst 0x3F800000),
    (0x0D, .floatConst 0x40000000), (0x0E, .doubleConst 0x0000000000000000),
    (0x0F, .doubleConst 0x3FF0000000000000)]

/-- The accesses to one of the first four variables, and to the elements of arrays. -/
def accessOpcodes : List (UInt8 × Instruction) :=
  [(0x1A, .load .int 0), (0x1B, .load .int 1), (0x1C, .load .int 2), (0x1D, .load .int 3),
    (0x1E, .load .long 0), (0x1F, .load .long 1), (0x20, .load .long 2), (0x21, .load .long 3),
    (0x22, .load .float 0), (0x23, .load .float 1), (0x24, .load .float 2), (0x25, .load .float 3),
    (0x26, .load .double 0), (0x27, .load .double 1), (0x28, .load .double 2),
    (0x29, .load .double 3), (0x2A, .load .reference 0), (0x2B, .load .reference 1),
    (0x2C, .load .reference 2), (0x2D, .load .reference 3),
    (0x2E, .arrayLoad .int), (0x2F, .arrayLoad .long), (0x30, .arrayLoad .float),
    (0x31, .arrayLoad .double), (0x32, .arrayLoad .reference), (0x33, .arrayLoad .byte),
    (0x34, .arrayLoad .char), (0x35, .arrayLoad .short),
    (0x3B, .store .int 0), (0x3C, .store .int 1), (0x3D, .store .int 2), (0x3E, .store .int 3),
    (0x3F, .store .long 0), (0x40, .store .long 1), (0x41, .store .long 2), (0x42, .store .long 3),
    (0x43, .store .float 0), (0x44, .store .float 1), (0x45, .store .float 2),
    (0x46, .store .float 3), (0x47, .store .double 0), (0x48, .store .double 1),
    (0x49, .store .double 2), (0x4A, .store .double 3), (0x4B, .store .reference 0),
    (0x4C, .store .reference 1), (0x4D, .store .reference 2), (0x4E, .store .reference 3),
    (0x4F, .arrayStore .int), (0x50, .arrayStore .long), (0x51, .arrayStore .float),
    (0x52, .arrayStore .double), (0x53, .arrayStore .reference), (0x54, .arrayStore .byte),
    (0x55, .arrayStore .char), (0x56, .arrayStore .short)]

/-- The operations on the operand stack alone. -/
def stackOpcodes : List (UInt8 × Instruction) :=
  [(0x57, .stack .pop), (0x58, .stack .pop2), (0x59, .stack .dup), (0x5A, .stack .dupX1),
    (0x5B, .stack .dupX2), (0x5C, .stack .dup2), (0x5D, .stack .dup2X1), (0x5E, .stack .dup2X2),
    (0x5F, .stack .swap)]

/-- Arithmetic, conversions and three-way comparisons. -/
def arithmeticOpcodes : List (UInt8 × Instruction) :=
  [(0x60, .arith .add .int), (0x61, .arith .add .long), (0x62, .arith .add .float),
    (0x63, .arith .add .double), (0x64, .arith .sub .int), (0x65, .arith .sub .long),
    (0x66, .arith .sub .float), (0x67, .arith .sub .double), (0x68, .arith .mul .int),
    (0x69, .arith .mul .long), (0x6A, .arith .mul .float), (0x6B, .arith .mul .double),
    (0x6C, .arith .div .int), (0x6D, .arith .div .long), (0x6E, .arith .div .float),
    (0x6F, .arith .div .double), (0x70, .arith .rem .int), (0x71, .arith .rem .long),
    (0x72, .arith .rem .float), (0x73, .arith .rem .double),
    (0x74, .neg .int), (0x75, .neg .long), (0x76, .neg .float), (0x77, .neg .double),
    (0x78, .arith .shl .int), (0x79, .arith .shl .long), (0x7A, .arith .shr .int),
    (0x7B, .arith .shr .long), (0x7C, .arith .ushr .int), (0x7D, .arith .ushr .long),
    (0x7E, .arith .and .int), (0x7F, .arith .and .long), (0x80, .arith .or .int),
    (0x81, .arith .or .long), (0x82, .arith .xor .int), (0x83, .arith .xor .long),
    (0x85, .convert .int .long), (0x86, .convert .int .float), (0x87, .convert .int .double),
    (0x88, .convert .long .int), (0x89, .convert .long .float), (0x8A, .convert .long .double),
    (0x8B, .convert .float .int), (0x8C, .convert .float .long), (0x8D, .convert .float .double),
    (0x8E, .convert .double .int), (0x8F, .convert .double .long),
    (0x90, .convert .double .float), (0x91, .convert .int .byte), (0x92, .convert .int .char),
    (0x93, .convert .int .short),
    (0x94, .compare .long), (0x95, .compare .floatL), (0x96, .compare .floatG),
    (0x97, .compare .doubleL), (0x98, .compare .doubleG)]

/-- What leaves a method, and what works on the object on top of the stack. -/
def objectOpcodes : List (UInt8 × Instruction) :=
  [(0xAC, .return (some .int)), (0xAD, .return (some .long)), (0xAE, .return (some .float)),
    (0xAF, .return (some .double)), (0xB0, .return (some .reference)), (0xB1, .return none),
    (0xBE, .arrayLength), (0xBF, .throw), (0xC2, .monitorEnter), (0xC3, .monitorExit)]

/-- The instructions that are their opcode. -/
def plainOpcodes : List (UInt8 × Instruction) :=
  constantOpcodes ++ accessOpcodes ++ stackOpcodes ++ arithmeticOpcodes ++ objectOpcodes

/-- The instructions whose operand is the number of a variable. -/
def slotOpcodes : List (UInt8 × (UInt16 → Instruction)) :=
  [(0x15, .load .int), (0x16, .load .long), (0x17, .load .float), (0x18, .load .double),
    (0x19, .load .reference), (0x36, .store .int), (0x37, .store .long), (0x38, .store .float),
    (0x39, .store .double), (0x3A, .store .reference), (0xA9, .ret)]

/-- The instructions whose operand is an index into the constant pool. -/
def indexOpcodes : List (UInt8 × (UInt16 → Instruction)) :=
  [(0x13, .ldc), (0x14, .ldc), (0xB2, .field .getStatic), (0xB3, .field .putStatic),
    (0xB4, .field .getField), (0xB5, .field .putField), (0xB6, .invoke .virtual),
    (0xB7, .invoke .special), (0xB8, .invoke .static), (0xBB, .new), (0xBD, .anewArray),
    (0xC0, .checkCast), (0xC1, .instanceOf)]

/-- The branches by a distance of two bytes. -/
def nearOpcodes : List (UInt8 × (Address → Instruction)) :=
  [(0x99, .ifZero .eq), (0x9A, .ifZero .ne), (0x9B, .ifZero .lt), (0x9C, .ifZero .ge),
    (0x9D, .ifZero .gt), (0x9E, .ifZero .le), (0x9F, .ifCompare .eq false),
    (0xA0, .ifCompare .ne false), (0xA1, .ifCompare .lt false), (0xA2, .ifCompare .ge false),
    (0xA3, .ifCompare .gt false), (0xA4, .ifCompare .le false), (0xA5, .ifCompare .eq true),
    (0xA6, .ifCompare .ne true), (0xA7, .goto), (0xA8, .jsr), (0xC6, .ifNull true),
    (0xC7, .ifNull false)]

/-- The branches by a distance of four bytes. -/
def farOpcodes : List (UInt8 × (Address → Instruction)) := [(0xC8, .goto), (0xC9, .jsr)]

/-- The codes of the primitive types of array elements. -/
def arrayCodes : List (UInt8 × OperandType) :=
  [(4, .boolean), (5, .char), (6, .float), (7, .double), (8, .byte), (9, .short), (10, .int),
    (11, .long)]

/-! ## Operands -/

/-- Where a branch leads: to the address at its distance, or to the last one if there is no such
address. -/
inductive BranchTarget (address : Address) (distance : Int) : Address → Prop
  | inside {target : Address} (h : (target : Int) = address + distance) (hle : target ≤ Address.last) :
    BranchTarget address distance target
  | outside (h : address + distance < 0 ∨ (Address.last : Int) < address + distance) :
    BranchTarget address distance Address.last

/-- A target, as its distance on two bytes. -/
def Near (address : Address) : Grammar Address := fun target bytes =>
  ∃ distance : Int16, BranchTarget address distance.toInt target ∧ bytes = Bytes.ofU2 distance.toUInt16

/-- A target, as its distance on four bytes. -/
def Far (address : Address) : Grammar Address := fun target bytes =>
  ∃ distance : Int32, BranchTarget address distance.toInt target ∧ bytes = Bytes.ofU4 distance.toUInt32

/-- The fewest bytes that, behind the opcode, lead to an address divisible by four. -/
def Aligns (address : Address) (padding : Bytes) : Prop :=
  padding.length < 4 ∧ 4 ∣ address + 1 + padding.length

/-- The operands of a switch over a range of keys: the target if no key fits, the lowest key and the
highest, and the target of every key from the one to the other. -/
inductive TableSwitch (address : Address) : Grammar Instruction
  | intro {default : Address} {cases : List (Int32 × Address)} {padding first targets : Bytes}
    {low high : Int32} (hpadding : Aligns address padding) (hdefault : Far address default first)
    (hle : low ≤ high) (hlength : (cases.length : Int) = high.toInt - low.toInt + 1)
    (hkeys : ∀ k (hk : k < cases.length), cases[k].1.toInt = low.toInt + k)
    (htargets : Rows (Far address) (cases.map (·.2)) targets) :
    TableSwitch address (.switch default cases)
      (padding ++ (first ++ (Bytes.ofU4 low.toUInt32 ++ (Bytes.ofU4 high.toUInt32 ++ targets))))

/-- A key and its target. -/
def SwitchPair (address : Address) : Grammar (Int32 × Address) := fun pair bytes =>
  ∃ target, Far address pair.2 target ∧ bytes = Bytes.ofU4 pair.1.toUInt32 ++ target

/-- The operands of a switch over listed keys: the target if no key fits, the number of pairs and the
pairs of a key and its target. The switch has them in the order of their keys. -/
inductive LookupSwitch (address : Address) : Grammar Instruction
  | intro {default : Address} {pairs cases : List (Int32 × Address)} {padding first rows : Bytes}
    {count : Int32} (hpadding : Aligns address padding) (hdefault : Far address default first)
    (hcount : count.toInt = pairs.length) (hrows : Rows (SwitchPair address) pairs rows)
    (hcases : StablySorted (·.1.toInt) pairs cases) :
    LookupSwitch address (.switch default cases)
      (padding ++ (first ++ (Bytes.ofU4 count.toUInt32 ++ rows)))

/-- The byte strings that are an instruction at an address. -/
inductive Encoding (address : Address) : Grammar Instruction
  | plain {op : UInt8} {i : Instruction} (h : (op, i) ∈ plainOpcodes) : Encoding address i [op]
  | bipush (value : Int8) : Encoding address (.push value.toInt32 .bipush) [0x10, value.toUInt8]
  | sipush (value : Int16) :
    Encoding address (.push value.toInt32 .sipush) (0x11 :: Bytes.ofU2 value.toUInt16)
  | ldc (index : UInt8) : Encoding address (.ldc index.toUInt16) [0x12, index]
  | index {op : UInt8} {f : UInt16 → Instruction} (h : (op, f) ∈ indexOpcodes) (index : UInt16) :
    Encoding address (f index) (op :: Bytes.ofU2 index)
  | slot {op : UInt8} {f : UInt16 → Instruction} (h : (op, f) ∈ slotOpcodes) (slot : UInt8) :
    Encoding address (f slot.toUInt16) [op, slot]
  | wideSlot {op : UInt8} {f : UInt16 → Instruction} (h : (op, f) ∈ slotOpcodes) (slot : UInt16) :
    Encoding address (f slot) (0xC4 :: op :: Bytes.ofU2 slot)
  | iinc (slot : UInt8) (delta : Int8) :
    Encoding address (.iinc slot.toUInt16 delta.toInt16) [0x84, slot, delta.toUInt8]
  | wideIinc (slot : UInt16) (delta : Int16) :
    Encoding address (.iinc slot delta) (0xC4 :: 0x84 :: (Bytes.ofU2 slot ++ Bytes.ofU2 delta.toUInt16))
  | near {op : UInt8} {f : Address → Instruction} (h : (op, f) ∈ nearOpcodes) {target : Address}
    {distance : Bytes} (ht : Near address target distance) : Encoding address (f target) (op :: distance)
  | far {op : UInt8} {f : Address → Instruction} (h : (op, f) ∈ farOpcodes) {target : Address}
    {distance : Bytes} (ht : Far address target distance) : Encoding address (f target) (op :: distance)
  | tableSwitch {i : Instruction} {operands : Bytes} (h : TableSwitch address i operands) :
    Encoding address i (0xAA :: operands)
  | lookupSwitch {i : Instruction} {operands : Bytes} (h : LookupSwitch address i operands) :
    Encoding address i (0xAB :: operands)
  | interface (index : UInt16) {reserved : Bytes} (h : reserved.length = 2) :
    Encoding address (.invoke .interface index) (0xB9 :: (Bytes.ofU2 index ++ reserved))
  | invokeDynamic (index : UInt16) {reserved : Bytes} (h : reserved.length = 2) :
    Encoding address (.invokeDynamic index) (0xBA :: (Bytes.ofU2 index ++ reserved))
  | newArray {code : UInt8} {element : OperandType} (h : (code, element) ∈ arrayCodes) :
    Encoding address (.newArray element) [0xBC, code]
  | multiNewArray (index : UInt16) (dimensions : UInt8) :
    Encoding address (.multiNewArray index dimensions) (0xC5 :: (Bytes.ofU2 index ++ [dimensions]))

/-! ## Readers of operands -/

open Reader

variable {address : Address}

/-- A branch leads to the address that is computed from its distance. -/
theorem branchTarget_iff {distance : Int} {target : Address} :
    BranchTarget address distance target ↔ target = address.branch distance := by
  simp only [Address.branch]
  constructor
  · rintro (⟨h, hle⟩ | h)
    · have hle' : (target : Int) ≤ (Address.last : Int) := Int.ofNat_le.2 hle
      rw [← h, if_pos ⟨Int.natCast_nonneg _, hle'⟩]
      exact (Int.toNat_natCast target).symm
    · rw [if_neg (by omega)]
  · rintro rfl
    split
    · rename_i h
      have htarget := Int.toNat_of_nonneg h.1
      exact .inside htarget (Int.ofNat_le.1 (htarget ▸ h.2))
    · rename_i h
      exact .outside (by omega)

/-- A near target is read from its distance. -/
theorem reads_branch2 : Reads (branch2 address) (Near address) :=
  (reads_s2.map _).congr fun _ _ => exists_congr fun _ => and_congr_left' branchTarget_iff.symm

/-- So is a far one. -/
theorem reads_branch4 : Reads (branch4 address) (Far address) :=
  (reads_s4.map _).congr fun _ _ => exists_congr fun _ => and_congr_left' branchTarget_iff.symm

/-- A far target has four bytes. -/
theorem Far.length_eq {target : Address} {bytes : Bytes} (h : Far address target bytes) :
    bytes.length = 4 := by
  obtain ⟨distance, -, rfl⟩ := h
  rfl

/-- The padding is as long as is computed from the address. -/
theorem aligns_iff {padding : Bytes} :
    Aligns address padding ↔ padding.length = address.switchPadding := by
  have hpadding : ∀ a k : Nat, k < 4 ∧ 4 ∣ a + 1 + k ↔ k = (4 - (a + 1) % 4) % 4 := by omega
  exact hpadding address padding.length

/-- The padding is read whatever its bytes are. -/
theorem reads_padding : Reads (take address.switchPadding) fun padding bytes =>
    Aligns address padding ∧ bytes = padding :=
  (reads_take _).congr fun _ _ => and_congr_left' aligns_iff.symm

/-- Far targets have four bytes each. -/
theorem length_rows_far {targets : List Address} {bytes : Bytes} (h : Rows (Far address) targets bytes) :
    bytes.length = targets.length * 4 :=
  h.length_eq fun _ _ => Far.length_eq

/-- The pairs of a key and a target have eight bytes each. -/
theorem length_rows_switchPair {pairs : List (Int32 × Address)} {bytes : Bytes}
    (h : Rows (SwitchPair address) pairs bytes) : bytes.length = pairs.length * 8 := by
  refine h.length_eq fun pair bytes hpair => ?_
  obtain ⟨target, htarget, rfl⟩ := hpair
  rw [List.length_append, htarget.length_eq]
  rfl

/-- The targets are what is left of cases whose keys were counted. -/
theorem map_mapIdx_pair (key : Nat → Int32) (targets : List Address) :
    (targets.mapIdx fun k target => (key k, target)).map (·.2) = targets :=
  List.ext_getElem (by simp) (by simp)

/-- The keys of a switch over a range are numbers of four bytes, so none of them wraps around. -/
theorem cases_iff {low high : Int32} (hle : low ≤ high) {cases : List (Int32 × Address)} :
    (cases.length : Int) = high.toInt - low.toInt + 1 ∧
        (∀ k (hk : k < cases.length), cases[k].1.toInt = low.toInt + k) ↔
      cases.length = (high.toInt - low.toInt + 1).toNat ∧
        cases = (cases.map (·.2)).mapIdx fun k target => (Int32.ofInt (low.toInt + k), target) := by
  have hle' := Int32.le_iff_toInt_le.1 hle
  have hlow := low.le_toInt
  have hhigh := high.toInt_lt
  constructor
  · rintro ⟨hlength, hkeys⟩
    refine ⟨by omega, List.ext_getElem (by simp) fun k hk _ => ?_⟩
    rw [List.getElem_mapIdx, List.getElem_map]
    refine Prod.ext (Int32.toInt_inj.1 ?_) rfl
    rw [hkeys k hk, Int32.toInt_ofInt_of_le (by omega) (by omega)]
  · rintro ⟨hlength, hcases⟩
    refine ⟨by omega, fun k hk => ?_⟩
    have hkey : cases[k].1 = Int32.ofInt (low.toInt + k) := by
      have := List.getElem_of_eq hcases hk
      rw [this, List.getElem_mapIdx]
    rw [hkey, Int32.toInt_ofInt_of_le (by omega) (by omega)]

/-- A switch over a range is read by its grammar. -/
theorem reads_tableSwitch : Reads (readTableSwitch address) (TableSwitch address) := by
  refine (reads_padding.bind fun _ => reads_branch4.bind fun default => reads_s4.seq fun low =>
    reads_s4.seq fun high => Reads.unless (Reads.guarded ((reads_branch4.times _).map fun targets =>
      switch default (targets.mapIdx fun k target => (Int32.ofInt (low.toInt + k), target))) ?_ _)
      _ _).congr fun i bytes => ?_
  · rintro i bytes ⟨targets, -, hlength, hrows⟩
    rw [length_rows_far hrows, hlength]
  constructor
  · rintro ⟨padding, _, _, ⟨hpadding, rfl⟩, ⟨default, first, _, hdefault, ⟨low, _, ⟨high, _,
      ⟨hle, targets, rfl, hlength, hrows⟩, rfl⟩, rfl⟩, rfl⟩, rfl⟩
    have hle' := Int32.not_lt.1 hle
    have htargets := map_mapIdx_pair (fun k => Int32.ofInt (low.toInt + k)) targets
    obtain ⟨hlength', hkeys⟩ := (cases_iff hle').2
      ⟨List.length_mapIdx.trans hlength, by rw [htargets]⟩
    exact .intro hpadding hdefault hle' hlength' hkeys (htargets.symm ▸ hrows)
  · rintro ⟨hpadding, hdefault, hle, hlength, hkeys, htargets⟩
    obtain ⟨hlength', hcases⟩ := (cases_iff hle).1 ⟨hlength, hkeys⟩
    exact ⟨_, _, _, ⟨hpadding, rfl⟩, ⟨_, _, _, hdefault, ⟨_, _, ⟨_, _, ⟨Int32.not_lt.2 hle, _,
      congrArg _ hcases, by rw [List.length_map, hlength'], htargets⟩, rfl⟩, rfl⟩, rfl⟩, rfl⟩

/-- A pair is read as a key and a target. -/
theorem reads_switchPair : Reads (readSwitchCase address) (SwitchPair address) := by
  refine (reads_s4.seq fun key => reads_branch4.map fun target => (key, target)).congr
    fun pair bytes => ?_
  constructor
  · rintro ⟨key, back, ⟨target, rfl, htarget⟩, rfl⟩
    exact ⟨back, htarget, rfl⟩
  · rintro ⟨back, htarget, rfl⟩
    exact ⟨pair.1, back, ⟨pair.2, rfl, htarget⟩, rfl⟩

/-- Sorting the pairs by their keys keeps the order of those with the same key. -/
theorem stablySorted_byKey (pairs : List (Int32 × Address)) :
    StablySorted (·.1.toInt) pairs (pairs.mergeSort fun a b => a.1 ≤ b.1) :=
  stablySorted_mergeSort (fun a b => by rw [decide_eq_true_iff, Int32.le_iff_toInt_le]) pairs

/-- A switch over listed keys is read by its grammar. -/
theorem reads_lookupSwitch : Reads (readLookupSwitch address) (LookupSwitch address) := by
  refine (reads_padding.bind fun _ => reads_branch4.bind fun default => reads_s4.seq fun count =>
    Reads.unless (Reads.guarded ((reads_switchPair.times _).map fun pairs =>
      switch default (pairs.mergeSort fun a b => a.1 ≤ b.1)) ?_ _) _ _).congr fun i bytes => ?_
  · rintro i bytes ⟨pairs, -, hlength, hrows⟩
    rw [length_rows_switchPair hrows, hlength]
  constructor
  · rintro ⟨padding, _, _, ⟨hpadding, rfl⟩, ⟨default, first, _, hdefault, ⟨count, _,
      ⟨hcount, pairs, rfl, hlength, hrows⟩, rfl⟩, rfl⟩, rfl⟩
    have hcount' := Int32.le_iff_toInt_le.1 (Int32.not_lt.1 hcount)
    refine .intro hpadding hdefault ?_ hrows (stablySorted_byKey pairs)
    rw [hlength, Int.toNat_of_nonneg hcount']
  · rintro ⟨hpadding, hdefault, hcount, hrows, hcases⟩
    refine ⟨_, _, _, ⟨hpadding, rfl⟩, ⟨_, _, _, hdefault, ⟨_, _, ⟨?_, _,
      congrArg _ (hcases.unique (stablySorted_byKey _)), ?_, hrows⟩, rfl⟩, rfl⟩, rfl⟩
    · refine Int32.not_lt.2 (Int32.le_iff_toInt_le.2 ?_)
      rw [hcount]
      exact Int.natCast_nonneg _
    · rw [hcount, Int.toNat_natCast]

/-! ## The tables as readers

The reader finds the rows of the tables by counting from the first opcode of a group. Each row is
checked against it, and no opcode is missing.
-/

set_option maxRecDepth 1024 in
/-- Behind an opcode in the first table nothing is read. -/
theorem readOperands_plain : ∀ row ∈ plainOpcodes,
    readOperands address row.1.toNat = pure row.2 := by
  simp only [plainOpcodes, constantOpcodes, accessOpcodes, stackOpcodes, arithmeticOpcodes,
    objectOpcodes, List.forall_mem_append, List.forall_mem_cons, List.not_mem_nil, false_implies,
    implies_true, and_true]
  and_intros <;> rfl

set_option maxRecDepth 1024 in
/-- Behind one in the second an index is read. -/
theorem readOperands_index : ∀ row ∈ indexOpcodes,
    readOperands address row.1.toNat = do return row.2 (← u2) := by
  simp only [indexOpcodes, List.forall_mem_cons, List.not_mem_nil, false_implies, implies_true,
    and_true]
  and_intros <;> rfl

/-- Behind one in the third the number of a variable is read, on one byte. -/
theorem readOperands_slot : ∀ row ∈ slotOpcodes,
    readOperands address row.1.toNat = do return row.2 (← u1).toUInt16 := by
  simp only [slotOpcodes, List.forall_mem_cons, List.not_mem_nil, false_implies, implies_true,
    and_true]
  and_intros <;> rfl

/-- In its wide form the number has two bytes. -/
theorem readWide_slot (input : Bytes) : ∀ row ∈ slotOpcodes,
    readWide (row.1 :: input) = (do return row.2 (← u2) : Reader Instruction) input := by
  simp only [slotOpcodes, List.forall_mem_cons, List.not_mem_nil, false_implies, implies_true,
    and_true]
  and_intros <;> rfl

set_option maxRecDepth 1024 in
/-- Behind the opcode of a near branch its distance is read on two bytes. -/
theorem readOperands_near : ∀ row ∈ nearOpcodes,
    readOperands address row.1.toNat = do return row.2 (← branch2 address) := by
  simp only [nearOpcodes, List.forall_mem_cons, List.not_mem_nil, false_implies, implies_true,
    and_true]
  and_intros <;> rfl

/-- Behind that of a far branch it is read on four. -/
theorem readOperands_far : ∀ row ∈ farOpcodes,
    readOperands address row.1.toNat = do return row.2 (← branch4 address) := by
  simp only [farOpcodes, List.forall_mem_cons, List.not_mem_nil, false_implies, implies_true,
    and_true]
  and_intros <;> rfl

/-- The type of array elements is that of the code in the table. -/
theorem ofArrayCode?_eq_some_iff {code : UInt8} {element : OperandType} :
    OperandType.ofArrayCode? code = some element ↔ (code, element) ∈ arrayCodes := by
  unfold OperandType.ofArrayCode?
  split <;> simp_all [arrayCodes, eq_comm]

/-- The opcodes of the instructions that are not in the tables. -/
def otherOpcodes : List UInt8 :=
  [0x10, 0x11, 0x12, 0x84, 0xAA, 0xAB, 0xB9, 0xBA, 0xBC, 0xC4, 0xC5]

/-- An opcode of a table has a row there. -/
theorem exists_row {β : Type} {rows : List (UInt8 × β)} {op : UInt8}
    (h : op.toNat ∈ rows.map (·.1.toNat)) : ∃ b, (op, b) ∈ rows := by
  obtain ⟨⟨op', b⟩, hrow, hop⟩ := List.mem_map.1 h
  obtain rfl := UInt8.toNat_inj.1 hop
  exact ⟨b, hrow⟩

/-- Every opcode is in one of the tables, has operands of its own, or is unknown. -/
theorem opcode_cases (op : UInt8) :
    (∃ i, (op, i) ∈ plainOpcodes) ∨ (∃ f, (op, f) ∈ indexOpcodes) ∨ (∃ f, (op, f) ∈ slotOpcodes) ∨
      (∃ f, (op, f) ∈ nearOpcodes) ∨ (∃ f, (op, f) ∈ farOpcodes) ∨ op ∈ otherOpcodes ∨
      0xC9 < op.toNat := by
  -- over numbers, since those below a bound can be gone through one by one
  have hall : ∀ n < 0xCA, n ∈ plainOpcodes.map (·.1.toNat) ∨ n ∈ indexOpcodes.map (·.1.toNat) ∨
      n ∈ slotOpcodes.map (·.1.toNat) ∨ n ∈ nearOpcodes.map (·.1.toNat) ∨
      n ∈ farOpcodes.map (·.1.toNat) ∨ n ∈ otherOpcodes.map (·.toNat) := by
    decide +kernel
  rcases Nat.lt_or_ge op.toNat 0xCA with hop | hop
  · rcases hall _ hop with h | h | h | h | h | h
    · exact .inl (exists_row h)
    · exact .inr (.inl (exists_row h))
    · exact .inr (.inr (.inl (exists_row h)))
    · exact .inr (.inr (.inr (.inl (exists_row h))))
    · exact .inr (.inr (.inr (.inr (.inl (exists_row h)))))
    · obtain ⟨op', hmem, hop⟩ := List.mem_map.1 h
      exact .inr (.inr (.inr (.inr (.inr (.inl (UInt8.toNat_inj.1 hop ▸ hmem))))))
  · exact .inr (.inr (.inr (.inr (.inr (.inr hop)))))

/-- An opcode behind the last one is unknown. -/
theorem readOperands_unknown {opcode : Nat} (h : 0xC9 < opcode) :
    readOperands address opcode = fail .unknownOpcode := by
  have hne : ∀ k, k ≤ 0xC9 → opcode ≠ k := fun k hk => by omega
  have hle : ∀ k, k ≤ 0xC9 → ¬opcode ≤ k := fun k hk => by omega
  simp only [readOperands, hne, hle, Nat.reduceLeDiff, if_false]

/-- Only an instruction with the number of a variable has a wide form. -/
theorem wide_cases (op : UInt8) : (∃ f, (op, f) ∈ slotOpcodes) ∨ op = 0x84 ∨
    ∀ input, readWide (op :: input) = .error .unknownOpcode := by
  by_cases hop : op.toNat ∈ slotOpcodes.map (·.1.toNat)
  · exact .inl (exists_row hop)
  refine .inr (or_iff_not_imp_left.2 fun hiinc input => ?_)
  have hiinc' : op.toNat ≠ 0x84 := fun h => hiinc (UInt8.toNat_inj.1 h)
  simp only [slotOpcodes, List.map_cons, List.map_nil, List.mem_cons, List.not_mem_nil, or_false,
    not_or, UInt8.reduceToNat] at hop
  show (if _ then _ else _ : Reader Instruction) input = _
  rw [if_neg (by omega), if_neg (by omega), if_neg (by omega), if_neg (by omega)]
  rfl

/-! ## Instructions and their encodings -/

/-- An increment is read as the number of a variable and a signed byte. -/
theorem reads_iinc : Reads (readOperands address 0x84) fun i bytes =>
    ∃ (slot : UInt8) (delta : Int8), i = .iinc slot.toUInt16 delta.toInt16 ∧
      bytes = [slot, delta.toUInt8] := by
  refine (reads_u1.seq fun slot => reads_s1.map fun delta =>
    iinc slot.toUInt16 delta.toInt16).congr fun i bytes => ?_
  constructor
  · rintro ⟨slot, _, ⟨delta, rfl, rfl⟩, rfl⟩
    exact ⟨slot, delta, rfl, rfl⟩
  · rintro ⟨slot, delta, rfl, rfl⟩
    exact ⟨slot, _, ⟨delta, rfl, rfl⟩, rfl⟩

/-- Two bytes behind an index that the format reserves. -/
theorem reads_reserved (f : UInt16 → Instruction) : Reads (do
      let index ← u2
      let _ ← take 2
      return f index) fun i bytes =>
    ∃ (index : UInt16) (reserved : Bytes), reserved.length = 2 ∧ i = f index ∧
      bytes = Bytes.ofU2 index ++ reserved := by
  refine (reads_u2.seq fun index => (reads_take 2).map fun _ => f index).congr fun i bytes => ?_
  constructor
  · rintro ⟨index, _, ⟨reserved, rfl, hreserved, rfl⟩, rfl⟩
    exact ⟨index, _, hreserved, rfl, rfl⟩
  · rintro ⟨index, reserved, hreserved, rfl, rfl⟩
    exact ⟨index, _, ⟨reserved, rfl, hreserved, rfl⟩, rfl⟩

/-- The creation of nested arrays is read as an index and the number of dimensions. -/
theorem reads_multiNewArray : Reads (readOperands address 0xC5) fun i bytes =>
    ∃ (index : UInt16) (dimensions : UInt8), i = .multiNewArray index dimensions ∧
      bytes = Bytes.ofU2 index ++ [dimensions] := by
  refine (reads_u2.seq fun index => reads_u1.map fun dimensions =>
    multiNewArray index dimensions).congr fun i bytes => ?_
  constructor
  · rintro ⟨index, _, ⟨dimensions, rfl, rfl⟩, rfl⟩
    exact ⟨index, dimensions, rfl, rfl⟩
  · rintro ⟨index, dimensions, rfl, rfl⟩
    exact ⟨index, _, ⟨dimensions, rfl, rfl⟩, rfl⟩

/-- The creation of an array of primitive elements is read as the code of their type. -/
theorem reads_newArray : Reads (readOperands address 0xBC) fun i bytes =>
    ∃ code element, (code, element) ∈ arrayCodes ∧ i = .newArray element ∧ bytes = [code] := by
  -- the byte behind the opcode names the type of the elements, or the instruction is none
  have helement : ∀ code, Reads ((OperandType.ofArrayCode? code).elim (fail .badOperand)
      fun element => pure (newArray element)) fun i bytes =>
      ∃ element, (code, element) ∈ arrayCodes ∧ i = .newArray element ∧ bytes = [] := by
    intro code
    simp only [← ofArrayCode?_eq_some_iff]
    rcases OperandType.ofArrayCode? code with _ | element
    · exact (reads_fail _).congr fun i bytes => by simp
    · exact (reads_pure _).congr fun i bytes => by simp
  have hread : readOperands address 0xBC = (do
      (OperandType.ofArrayCode? (← u1)).elim (fail .badOperand) fun element =>
        pure (newArray element)) := by
    unfold readOperands
    refine congrArg (u1 >>= ·) (funext fun code => ?_)
    cases OperandType.ofArrayCode? code <;> rfl
  rw [hread]
  refine (reads_u1.seq helement).congr fun i bytes => ?_
  constructor
  · rintro ⟨code, _, ⟨element, hcode, rfl, rfl⟩, rfl⟩
    exact ⟨code, element, hcode, rfl, rfl⟩
  · rintro ⟨code, element, hcode, rfl, rfl⟩
    exact ⟨code, _, ⟨element, hcode, rfl, rfl⟩, rfl⟩

/-- A wide increment is read as two times two bytes. -/
theorem reads_wideIinc : Reads (do
      let slot ← u2
      let delta ← s2
      return iinc slot delta) fun i bytes =>
    ∃ (slot : UInt16) (delta : Int16), i = .iinc slot delta ∧
      bytes = Bytes.ofU2 slot ++ Bytes.ofU2 delta.toUInt16 := by
  refine (reads_u2.seq fun slot => reads_s2.map fun delta => iinc slot delta).congr fun i bytes => ?_
  constructor
  · rintro ⟨slot, _, ⟨delta, rfl, rfl⟩, rfl⟩
    exact ⟨slot, delta, rfl, rfl⟩
  · rintro ⟨slot, delta, rfl, rfl⟩
    exact ⟨slot, _, ⟨delta, rfl, rfl⟩, rfl⟩

/-- Behind the opcode that widens stands another opcode. -/
theorem exists_encoding_wide {input rest : Bytes} {i : Instruction}
    (h : readWide input = .ok (i, rest)) :
    ∃ operands, Encoding address i (0xC4 :: operands) ∧ input = operands ++ rest := by
  rcases input with _ | ⟨op, input⟩
  · cases h
  rcases wide_cases op with ⟨f, hrow⟩ | rfl | hunknown
  · rw [readWide_slot _ _ hrow] at h
    obtain ⟨_, ⟨slot, rfl, rfl⟩, rfl⟩ := (reads_u2.map f _ _ _).1 h
    exact ⟨_, .wideSlot hrow slot, rfl⟩
  · obtain ⟨_, ⟨slot, delta, rfl, rfl⟩, rfl⟩ := (reads_wideIinc _ _ _).1 h
    exact ⟨_, .wideIinc slot delta, rfl⟩
  · rw [hunknown] at h
    cases h

/-- What the reader finds behind an opcode is encoded there. -/
theorem exists_encoding {op : UInt8} {input rest : Bytes} {i : Instruction}
    (h : readOperands address op.toNat input = .ok (i, rest)) :
    ∃ operands, Encoding address i (op :: operands) ∧ input = operands ++ rest := by
  rcases opcode_cases op with ⟨j, hrow⟩ | ⟨f, hrow⟩ | ⟨f, hrow⟩ | ⟨f, hrow⟩ | ⟨f, hrow⟩ | hother | hop
  · rw [readOperands_plain _ hrow] at h
    obtain ⟨_, ⟨rfl, rfl⟩, rfl⟩ := (reads_pure _ _ _ _).1 h
    exact ⟨[], .plain hrow, rfl⟩
  · rw [readOperands_index _ hrow] at h
    obtain ⟨_, ⟨index, rfl, rfl⟩, rfl⟩ := (reads_u2.map f _ _ _).1 h
    exact ⟨_, .index hrow index, rfl⟩
  · rw [readOperands_slot _ hrow] at h
    obtain ⟨_, ⟨slot, rfl, rfl⟩, rfl⟩ := (reads_u1.map (fun n => f n.toUInt16) _ _ _).1 h
    exact ⟨_, .slot hrow slot, rfl⟩
  · rw [readOperands_near _ hrow] at h
    obtain ⟨_, ⟨target, rfl, htarget⟩, rfl⟩ := (reads_branch2.map f _ _ _).1 h
    exact ⟨_, .near hrow htarget, rfl⟩
  · rw [readOperands_far _ hrow] at h
    obtain ⟨_, ⟨target, rfl, htarget⟩, rfl⟩ := (reads_branch4.map f _ _ _).1 h
    exact ⟨_, .far hrow htarget, rfl⟩
  · -- the opcodes beside the tables, in their order
    simp only [otherOpcodes, List.mem_cons, List.not_mem_nil, or_false] at hother
    rcases hother with rfl | rfl | rfl | rfl | rfl | rfl | rfl | rfl | rfl | rfl | rfl
    · obtain ⟨_, ⟨value, rfl, rfl⟩, rfl⟩ := (reads_s1.map _ _ _ _).1 h
      exact ⟨_, .bipush value, rfl⟩
    · obtain ⟨_, ⟨value, rfl, rfl⟩, rfl⟩ := (reads_s2.map _ _ _ _).1 h
      exact ⟨_, .sipush value, rfl⟩
    · obtain ⟨_, ⟨index, rfl, rfl⟩, rfl⟩ := (reads_u1.map _ _ _ _).1 h
      exact ⟨_, .ldc index, rfl⟩
    · obtain ⟨_, ⟨slot, delta, rfl, rfl⟩, rfl⟩ := (reads_iinc _ _ _).1 h
      exact ⟨_, .iinc slot delta, rfl⟩
    · obtain ⟨operands, hoperands, rfl⟩ := (reads_tableSwitch _ _ _).1 h
      exact ⟨operands, .tableSwitch hoperands, rfl⟩
    · obtain ⟨operands, hoperands, rfl⟩ := (reads_lookupSwitch _ _ _).1 h
      exact ⟨operands, .lookupSwitch hoperands, rfl⟩
    · obtain ⟨_, ⟨index, reserved, hreserved, rfl, rfl⟩, rfl⟩ := (reads_reserved _ _ _ _).1 h
      exact ⟨_, .interface index hreserved, rfl⟩
    · obtain ⟨_, ⟨index, reserved, hreserved, rfl, rfl⟩, rfl⟩ := (reads_reserved _ _ _ _).1 h
      exact ⟨_, .invokeDynamic index hreserved, rfl⟩
    · obtain ⟨_, ⟨code, element, hcode, rfl, rfl⟩, rfl⟩ := (reads_newArray _ _ _).1 h
      exact ⟨_, .newArray hcode, rfl⟩
    · exact exists_encoding_wide h
    · obtain ⟨_, ⟨index, dimensions, rfl, rfl⟩, rfl⟩ := (reads_multiNewArray _ _ _).1 h
      exact ⟨_, .multiNewArray index dimensions, rfl⟩
  · rw [readOperands_unknown hop] at h
    cases h

/-- An instruction is found whatever comes behind its encoding. -/
theorem read_encoding {encoding : Bytes} {i : Instruction} (h : Encoding address i encoding)
    (rest : Bytes) : read address (encoding ++ rest) = .ok (i, rest) := by
  -- The first byte of an encoding is the opcode.
  have hread : ∀ op operands, read address (op :: operands ++ rest) =
      readOperands address op.toNat (operands ++ rest) := fun _ _ => rfl
  cases h with
  | plain hrow =>
    rw [hread, readOperands_plain _ hrow]
    rfl
  | bipush value =>
    rw [hread]
    exact (reads_s1.map _ _ _ _).2 ⟨_, ⟨value, rfl, rfl⟩, rfl⟩
  | sipush value =>
    rw [hread]
    exact (reads_s2.map _ _ _ _).2 ⟨_, ⟨value, rfl, rfl⟩, rfl⟩
  | ldc index =>
    rw [hread]
    exact (reads_u1.map _ _ _ _).2 ⟨_, ⟨index, rfl, rfl⟩, rfl⟩
  | index hrow index =>
    rw [hread, readOperands_index _ hrow]
    exact (reads_u2.map _ _ _ _).2 ⟨_, ⟨index, rfl, rfl⟩, rfl⟩
  | slot hrow slot =>
    rw [hread, readOperands_slot _ hrow]
    exact (reads_u1.map _ _ _ _).2 ⟨_, ⟨slot, rfl, rfl⟩, rfl⟩
  | wideSlot hrow slot =>
    have hwide := readWide_slot (Bytes.ofU2 slot ++ rest) _ hrow
    exact hwide.trans ((reads_u2.map _ _ _ _).2 ⟨_, ⟨slot, rfl, rfl⟩, rfl⟩)
  | iinc slot delta =>
    rw [hread]
    exact (reads_iinc _ _ _).2 ⟨_, ⟨slot, delta, rfl, rfl⟩, rfl⟩
  | wideIinc slot delta => exact (reads_wideIinc _ _ _).2 ⟨_, ⟨slot, delta, rfl, rfl⟩, rfl⟩
  | near hrow htarget =>
    rw [hread, readOperands_near _ hrow]
    exact (reads_branch2.map _ _ _ _).2 ⟨_, ⟨_, rfl, htarget⟩, rfl⟩
  | far hrow htarget =>
    rw [hread, readOperands_far _ hrow]
    exact (reads_branch4.map _ _ _ _).2 ⟨_, ⟨_, rfl, htarget⟩, rfl⟩
  | tableSwitch hoperands => exact (reads_tableSwitch _ _ _).2 ⟨_, hoperands, rfl⟩
  | lookupSwitch hoperands => exact (reads_lookupSwitch _ _ _).2 ⟨_, hoperands, rfl⟩
  | interface index hreserved =>
    exact (reads_reserved _ _ _ _).2 ⟨_, ⟨index, _, hreserved, rfl, rfl⟩, rfl⟩
  | invokeDynamic index hreserved =>
    exact (reads_reserved _ _ _ _).2 ⟨_, ⟨index, _, hreserved, rfl, rfl⟩, rfl⟩
  | newArray hcode =>
    rw [hread]
    exact (reads_newArray _ _ _).2 ⟨_, ⟨_, _, hcode, rfl, rfl⟩, rfl⟩
  | multiNewArray index dimensions =>
    rw [hread]
    exact (reads_multiNewArray _ _ _).2 ⟨_, ⟨index, dimensions, rfl, rfl⟩, rfl⟩

/-- Reading an instruction inverts its encodings: at every address, the reader finds an instruction
exactly if the input starts with an encoding of it, and leaves what comes behind. -/
theorem read_eq_ok_iff_encoding (address : Address) (input rest : Bytes) (i : Instruction) :
    read address input = .ok (i, rest) ↔
      ∃ encoding, Encoding address i encoding ∧ input = encoding ++ rest := by
  constructor
  · intro h
    rcases input with _ | ⟨op, input⟩
    · cases h
    obtain ⟨operands, hencoding, rfl⟩ := exists_encoding h
    exact ⟨op :: operands, hencoding, rfl⟩
  · rintro ⟨encoding, hencoding, rfl⟩
    exact read_encoding hencoding rest

end Instruction

end JvmDecompiler
