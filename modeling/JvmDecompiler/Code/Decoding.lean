import JvmDecompiler.Attribute
import JvmDecompiler.Code
import JvmDecompiler.ConstantPool
import JvmDecompiler.Instruction.Format

/-!
# Decoding the code of a method

`Code.sweep` cuts a byte string into instructions, each starting where the one before it ends, up to
the end or to the first byte at which no instruction starts. `Code.parse` lists the instructions at the
front of a byte string, and leaves the bytes behind them. `MethodCode.decode` decodes the code of a
method whole: it refuses bytes that cannot be cut into instructions, branches and exception ranges
that do not lead to instructions, and operands that do not lead to constants of the right kind.
-/

namespace JvmDecompiler

/-- What a sweep over code bytes finds: instructions with their addresses and lengths, and the bytes
that are left with the fault that stopped the sweep at them. -/
structure Sweep where
  instructions : List (Address × Nat × Instruction)
  rest : Bytes
  fault : Option ReadFault
  deriving DecidableEq, Repr, Inhabited

namespace Code

/-- At most `count` instructions from the front of the bytes that start at `address`. -/
def sweepFrom : (count : Nat) → Address → Bytes → Sweep
  | 0, _, input => ⟨[], input, none⟩
  | _ + 1, _, [] => ⟨[], [], none⟩
  | count + 1, address, input =>
    match Instruction.read address input with
    | .error fault => ⟨[], input, some fault⟩
    | .ok (i, rest) =>
      -- the length is what reading has taken off the input
      let length := input.length - rest.length
      let others := sweepFrom count (address + length) rest
      { others with instructions := (address, length, i) :: others.instructions }

/-- The instructions that a byte string consists of. Each takes at least one byte, so there are no more
of them than bytes. -/
def sweep (bytecode : Bytes) : Sweep := sweepFrom bytecode.length 0 bytecode

/-- The instructions at the front of a byte string, with their addresses, and the bytes that are left. -/
structure Parsed where
  instructions : List (Address × Instruction)
  rest : Bytes
  deriving DecidableEq, Repr, Inhabited

/-- At most `count` instructions from the front of `input`, which is the end of a byte string of `total`
bytes. The address of an instruction is the number of bytes in front of it. -/
def parseFrom (total : Nat) : (count : Nat) → Bytes → Parsed
  | 0, input => ⟨[], input⟩
  | _ + 1, [] => ⟨[], []⟩
  | count + 1, input =>
    let address := total - input.length
    match Instruction.read address input with
    | .error _ => ⟨[], input⟩
    | .ok (i, rest) =>
      let others := parseFrom total count rest
      { others with instructions := (address, i) :: others.instructions }

/-- The instructions at the front of a byte string, up to the first address at which none starts. -/
def parse (bytecode : Bytes) : Parsed := parseFrom bytecode.length bytecode.length bytecode

/-- The line of an address: that of the last row, in the order of their addresses, which does not start
behind it. Rows that start at the same address keep their order. -/
def lineAt (rows : List LineRow) (a : Address) : Option Nat :=
  (((rows.mergeSort fun r s => r.start ≤ s.start).takeWhile fun r => r.start.toNat ≤ a).getLast?).map
    (·.line.toNat)

/-- The index that an instruction holds, and whether a constant of a kind serves it. -/
def constantOperand? : Instruction → Option (UInt16 × (ConstantKind → Bool))
  | .ldc index =>
    some (index, fun kind =>
      kind ∈ [.integer, .float, .long, .double, .string, .classRef, .methodType, .methodHandle,
        .dynamic])
  | .field _ index => some (index, (· = .fieldref))
  | .invoke _ index => some (index, fun kind => kind ∈ [.methodref, .interfaceMethodref])
  | .invokeDynamic index => some (index, (· = .invokeDynamic))
  | .new index | .anewArray index | .checkCast index | .instanceOf index
  | .multiNewArray index _ => some (index, (· = .classRef))
  | _ => none

/-- Report an instruction that branches to an address at which no instruction starts, or whose operand
leads to no constant of a kind that serves it. -/
def checkInstruction (pool : ConstantPool) (starts : List Address) (address : Address)
    (i : Instruction) : Except CodeError Unit := do
  match i.branchTargets.find? (!starts.contains ·) with
  | some target => throw (.badBranchTarget address target)
  | none => pure ()
  match constantOperand? i with
  | some (index, accepts) =>
    if !(pool.get? index).any (accepts ·.kind) then throw (.badConstantIndex address index)
  | none => pure ()

/-- The range that a row of an exception table stands for. -/
def protectedRange (pool : ConstantPool) (starts : List Address) (length : Nat) (row : ExceptionRow) :
    Except CodeError ProtectedRange := do
  let start := row.start.toNat
  let stop := row.stop.toNat
  let handler := row.handler.toNat
  if !(start < stop && starts.contains start && starts.contains handler
      -- a range may go to the end of the code, where no instruction starts
      && (stop == length || starts.contains stop)) then
    throw (.badExceptionRange row.start row.stop row.handler)
  if row.catchType = 0 then return ⟨start, stop, handler, none⟩
  match pool.className? row.catchType with
  | some name => return ⟨start, stop, handler, some name⟩
  | none => throw (.badConstantIndex handler row.catchType)

/-- The error for the fault that stopped a sweep at `rest`. -/
def sweepError (address : Address) (rest : Bytes) : ReadFault → CodeError
  | .unknownOpcode => .unknownOpcode address (rest.headD 0)
  | .badOperand => .malformedInstruction address
  | .endOfInput | .noAlternative => .truncated address

end Code

/-- The decoded form of the code of a method. -/
def MethodCode.decode (pool : ConstantPool) (code : CodeAttribute) : Except CodeError MethodCode := do
  match Attributes.malformed? code.attributes with
  | some name => throw (.malformedAttribute name)
  | none => pure ()
  let swept := Code.sweep code.bytecode
  let length := code.bytecode.length
  match swept.fault with
  | some fault => throw (Code.sweepError (length - swept.rest.length) swept.rest fault)
  | none => pure ()
  let starts := swept.instructions.map (·.1)
  swept.instructions.forM fun (address, _, i) => Code.checkInstruction pool starts address i
  let ranges ← code.exceptionTable.mapM (Code.protectedRange pool starts length)
  let lines := Attributes.lineRows code.attributes
  return {
    instructions := swept.instructions.map fun (address, length, i) =>
      ⟨address, length, Code.lineAt lines address, i⟩
    ranges
    maxStack := code.maxStack
    maxLocals := code.maxLocals
    length }

end JvmDecompiler
