import JvmDecompiler.Code
import JvmDecompiler.ConstantPool
import JvmDecompiler.Ty.Descriptor

/-!
# What instructions do to the stack

How many values an instruction takes from the stack and puts there, where a wide value counts as one.
From these numbers alone follows where the computation of the value on top of the stack starts, and
whether some instructions compute a branch condition and do nothing else.
-/

namespace JvmDecompiler

/-- How many values an instruction takes from the stack, and how many it puts there. -/
structure StackEffect where
  pops : Nat
  pushes : Nat
  deriving DecidableEq, Repr, Inhabited

/-- The effect of a call by the descriptor of the method. -/
def StackEffect.ofCall? (descriptor : String) (receivers : Nat) : Option StackEffect := do
  let m ← MethodTy.ofDescriptor? descriptor
  return ⟨m.parameters.length + receivers, if m.result = .void then 0 else 1⟩

namespace Instruction

/-- The effect of an instruction on the stack. It is unknown where it depends on which values are wide,
and where a constant that the instruction refers to cannot be found. -/
def stackEffect? (pool : ConstantPool) : Instruction → Option StackEffect
  | .nop | .goto _ | .ret _ | .iinc .. => some ⟨0, 0⟩
  | .aconstNull | .push .. | .longConst _ | .floatConst _ | .doubleConst _ | .ldc _ | .load .. | .new _
  | .jsr _ => some ⟨0, 1⟩
  | .store .. | .ifZero .. | .ifNull .. | .switch .. | .throw | .monitorEnter | .monitorExit =>
    some ⟨1, 0⟩
  | .arrayLoad _ | .arith .. | .compare _ => some ⟨2, 1⟩
  | .arrayStore _ => some ⟨3, 0⟩
  | .neg _ | .convert .. | .newArray _ | .anewArray _ | .arrayLength | .checkCast _ | .instanceOf _ =>
    some ⟨1, 1⟩
  | .ifCompare .. => some ⟨2, 0⟩
  | .return none => some ⟨0, 0⟩
  | .return (some _) => some ⟨1, 0⟩
  | .stack .pop => some ⟨1, 0⟩
  | .stack .dup => some ⟨1, 2⟩
  | .stack .dupX1 => some ⟨2, 3⟩
  | .stack .swap => some ⟨2, 2⟩
  | .stack _ => none
  | .field .getStatic _ => some ⟨0, 1⟩
  | .field .putStatic _ => some ⟨1, 0⟩
  | .field .getField _ => some ⟨1, 1⟩
  | .field .putField _ => some ⟨2, 0⟩
  | .invoke kind index => do
    StackEffect.ofCall? (← pool.memberRef? index).descriptor (if kind = .static then 0 else 1)
  | .invokeDynamic index => do StackEffect.ofCall? (← pool.callSite? index).2 0
  | .multiNewArray _ dimensions => some ⟨dimensions.toNat, 1⟩

/-- Whether an instruction only computes a value: it writes nothing, drops nothing, and calls no method
without a result. -/
def isSideEffectFree (pool : ConstantPool) (i : Instruction) : Bool :=
  match i with
  | .monitorEnter | .monitorExit | .store .. | .iinc .. | .arrayStore _ => false
  | .stack op => op ≠ .pop && op ≠ .pop2
  | .field op _ => op = .getField || op = .getStatic
  | .invoke .. | .invokeDynamic _ => (i.stackEffect? pool).any (0 < ·.pushes)
  | _ => true

end Instruction

namespace PlacedInstruction

/-- Going backwards through `reversed`, with `needed` values still to be found on the stack: how many
instructions remain in front of the one from which on all of them are computed. -/
def expressionStartFrom (pool : ConstantPool) : (needed : Nat) → (reversed : List PlacedInstruction) →
    Option Nat
  | _, [] => none
  | needed, i :: rest =>
    match i.operation.stackEffect? pool with
    | none => none
    | some effect =>
      if needed < effect.pushes then none
      else
        let needed := needed - effect.pushes + effect.pops
        if needed = 0 then some rest.length else expressionStartFrom pool needed rest

/-- The position of the first instruction of the expression whose value is on top of the stack in front
of the instruction at position `stop`. -/
def expressionStart? (pool : ConstantPool) (instructions : List PlacedInstruction) (stop : Nat) :
    Option Nat :=
  expressionStartFrom pool 1 (instructions.take stop).reverse

/-- The height of the stack behind some instructions, if all of them only compute values and none takes
a value that was not put there by one of them. -/
def pureDepth? (pool : ConstantPool) : (depth : Nat) → List PlacedInstruction → Option Nat
  | depth, [] => some depth
  | depth, i :: rest =>
    if !i.operation.isSideEffectFree pool then none
    else
      match i.operation.stackEffect? pool with
      | none => none
      | some effect =>
        if depth < effect.pops then none
        else pureDepth? pool (depth - effect.pops + effect.pushes) rest

/-- Whether some instructions compute a branch condition from an empty stack and do nothing else. -/
def isPureCondition (pool : ConstantPool) (instructions : List PlacedInstruction) : Bool :=
  pureDepth? pool 0 instructions = some 0

end PlacedInstruction

end JvmDecompiler
