import JvmDecompiler.ConstantPool
import JvmDecompiler.FlowGraph
import JvmDecompiler.Tree.Stmt

/-!
# Running blocks on expressions

The instructions of a block are run on a stack of expressions instead of values. What has an effect
becomes a statement; what is left on the stack, and the condition or key that the block ends with, are
handed on.

Copies of a value that the machine duplicates carry a common mark. When one copy is stored, the other
becomes the assignment itself, so that a value is computed once.
-/

namespace JvmDecompiler

/-- What running a block has to know about the method around it. -/
structure SimContext where
  pool : ConstantPool
  isStatic : Bool
  maxStack : UInt16

/-- The outcome of running a block. -/
structure SimulatedBlock where
  statements : List SimpleStmt
  /-- The values left on the stack, the topmost last. -/
  exitStack : List Expr
  /-- The condition on which the branch at the end is taken. -/
  condition : Option Expr
  switchKey : Option Expr
  diagnostics : List String
  deriving Inhabited

/-- An entry of the stack. Copies of one value have the same mark. -/
structure StackValue where
  expr : Expr
  mark : Option Nat
  deriving Inhabited

/-- The state of a run. The stack is given from the top; statements and diagnostics are in order. -/
structure SimState where
  stack : List StackValue
  statements : List SimpleStmt
  condition : Option Expr
  switchKey : Option Expr
  diagnostics : List String
  nextMark : Nat
  depthReported : Bool
  deriving Inhabited

/-- A step of a run. -/
abbrev Sim := StateM SimState

namespace Sim

/-! ## The stack -/

/-- Report a problem. -/
def report (problem : String) : Sim Unit :=
  modify fun s => { s with diagnostics := s.diagnostics ++ [problem] }

/-- The value that stands for one missing from the stack. -/
def missing (line : SourceLine) : StackValue := ⟨.unresolved line "stack underflow", none⟩

/-- Take the topmost value with its mark. -/
def popValue (line : SourceLine) : Sim StackValue := do
  match (← get).stack with
  | v :: rest =>
    modify fun s => { s with stack := rest }
    return v
  | [] =>
    report "operand stack underflow"
    return missing line

/-- Take the topmost value. -/
def pop (line : SourceLine) : Sim Expr := do return (← popValue line).expr

/-- Put a value on the stack. -/
def pushValue (v : StackValue) : Sim Unit := modify fun s => { s with stack := v :: s.stack }

/-- Put a new value on the stack. -/
def push (e : Expr) : Sim Unit := pushValue ⟨e, none⟩

/-- Add a statement. -/
def emit (stmt : SimpleStmt) : Sim Unit :=
  modify fun s => { s with statements := s.statements ++ [stmt] }

/-- Take `n` values; the one taken last comes first. -/
def popArgs (line : SourceLine) : (n : Nat) → Sim (List Expr)
  | 0 => return []
  | n + 1 => do
    let last ← pop line
    let others ← popArgs line n
    return others ++ [last]

/-- Put another expression in the place of the topmost value with a mark. -/
def replaceIn (mark : Nat) (e : Expr) : List StackValue → Option (List StackValue)
  | [] => none
  | v :: rest =>
    if v.mark = some mark then some (⟨e, none⟩ :: rest) else (replaceIn mark e rest).map (v :: ·)

/-- Put an expression in the place of the other copy of a value. There is none if the value was not
copied or the copy is gone. -/
def replaceCopy (mark : Option Nat) (e : Expr) : Sim Bool := do
  let s ← get
  match mark.bind fun m => replaceIn m e s.stack with
  | some stack =>
    modify fun s => { s with stack }
    return true
  | none => return false

/-- The height of a stack in slots. -/
def depth : List StackValue → Nat
  | [] => 0
  | v :: rest => v.expr.type.width.toNat + depth rest

/-- Report a stack higher than the method allows, once. -/
def checkDepth (maxStack : UInt16) : Sim Unit := do
  let s ← get
  let height := depth s.stack
  if maxStack.toNat < height && !s.depthReported then
    report s!"operand stack depth {height} exceeds max_stack {maxStack}"
    modify fun s => { s with depthReported := true }

/-! ## Copies -/

/-- How many values, from the one with `skipped` values above it on, make up `slots` slots. The stack is
filled up from below where it ends too soon. -/
def spanning (line : SourceLine) (skipped : Nat) : (slots : Nat) → Sim Nat
  | 0 => return 0
  | slots + 1 => do
    match (← get).stack[skipped]? with
    | some v =>
      if v.expr.type.isWide then
        -- a wide value takes two slots at once, even if only one is left to take
        match slots with
        | 0 => return 1
        | slots + 1 => return 1 + (← spanning line (skipped + 1) slots)
      else return 1 + (← spanning line (skipped + 1) slots)
    | none =>
      report "operand stack underflow"
      -- as if the missing values were at the bottom of the stack
      modify fun s => { s with stack := s.stack ++ [missing line] }
      return 1 + (← spanning line (skipped + 1) slots)

/-- Values with a mark each; those without one get marks from `next` on. -/
def markAll (next : Nat) : List StackValue → List StackValue
  | [] => []
  | v :: rest =>
    match v.mark with
    | some _ => v :: markAll next rest
    | none => { v with mark := some next } :: markAll (next + 1) rest

/-- Copy the values in the topmost `copied` slots and put the copies below the `skipped` slots under
them. -/
def duplicate (line : SourceLine) (copied skipped : Nat) : Sim Unit := do
  let copied ← spanning line 0 copied
  let skipped ← spanning line copied skipped
  modify fun s =>
    -- the copies and what they are copies of have the same marks
    let copies := markAll s.nextMark (s.stack.take copied)
    let below := s.stack.drop copied
    { s with
      stack := copies ++ below.take skipped ++ copies ++ below.drop skipped
      nextMark := s.nextMark + copied }

/-! ## Effects -/

/-- Whether evaluating an expression does more than producing a value. -/
def hasEffect : Expr → Bool
  | .invoke .. | .invokeDynamic .. | .new .. | .assign .. | .increment .. | .unresolved .. => true
  | _ => false

/-- Drop a value. It stays as a statement if evaluating it has an effect. -/
def discard (line : SourceLine) (e : Expr) : Sim Unit := do
  if hasEffect e then emit (.expr line e)

/-- Store a value: as the other copy of the value if there is one, as a statement otherwise. -/
def assign (line : SourceLine) (target : Expr) (value : StackValue) : Sim Unit := do
  let assignment := Expr.assign line target value.expr
  if !(← replaceCopy value.mark assignment) then emit (.expr line assignment)

/-- A call is a value if the method has a result, and a statement otherwise. -/
def pushOrEmit (line : SourceLine) (result : Ty) (call : Expr) : Sim Unit :=
  if result = .void then emit (.expr line call) else push call

/-- The method type of a descriptor; a descriptor that is none counts as one without parameters. -/
def callType (descriptor : String) : MethodTy :=
  (MethodTy.ofDescriptor? descriptor).getD ⟨[], .unknown⟩

/-! ## Instructions -/

/-- The operations that only move values. -/
def stackOp (line : SourceLine) : StackOp → Sim Unit
  | .pop => do discard line (← pop line)
  | .pop2 => do
    let value ← pop line
    discard line value
    -- two narrow values, or one wide one
    if !value.type.isWide then discard line (← pop line)
  | .dup => duplicate line 1 0
  | .dupX1 => duplicate line 1 1
  | .dupX2 => duplicate line 1 2
  | .dup2 => duplicate line 2 0
  | .dup2X1 => duplicate line 2 1
  | .dup2X2 => duplicate line 2 2
  | .swap => do
    let a ← popValue line
    let b ← popValue line
    pushValue a
    pushValue b

/-- The constant that an index leads to, as an expression. -/
def constant (pool : ConstantPool) (line : SourceLine) (index : UInt16) : Expr :=
  let literal? : Option Literal :=
    match pool.get? index with
    | some (.integer value) => some (.int value none)
    | some (.float bits) => some (.float bits)
    | some (.long value) => some (.long value)
    | some (.double bits) => some (.double bits)
    | some (.string text) => (pool.utf8? text).map .string
    | some (.classRef name) => (pool.utf8? name).map fun name => .classOf (.ofClassConstant name)
    | _ => none
  match literal? with
  | some value => .literal line value
  | none => .unresolved line s!"constant#{index}"

/-- The class that an index leads to, or another one. -/
def className (pool : ConstantPool) (index : UInt16) (default : String) : String :=
  (pool.className? index).getD default

/-- An access to a field. -/
def field (pool : ConstantPool) (line : SourceLine) (op : FieldOp) (index : UInt16) : Sim Unit := do
  let (owner, name, type) ←
    match pool.memberRef? index with
    | some m => pure (m.className, m.name, (Ty.ofDescriptor? m.descriptor).getD .unknown)
    | none =>
      report s!"unresolvable field #{index}"
      pure ("", s!"field#{index}", Ty.unknown)
  match op with
  | .getStatic => push (.field line none owner name type)
  | .getField => push (.field line (some (← pop line)) owner name type)
  | .putStatic =>
    let value ← popValue line
    assign line (.field line none owner name type) value
  | .putField =>
    let value ← popValue line
    let object ← pop line
    assign line (.field line (some object) owner name type) value

/-- The constructor of a new object: the object becomes the expression that creates it. -/
def construct (line : SourceLine) (receiver : StackValue) (className descriptor : String)
    (args : List Expr) : Sim Unit := do
  let created := Expr.new (receiver.expr.line <|> line) className descriptor args
  -- the copy that is left on the stack is where the object is used
  if !(← replaceCopy receiver.mark created) then emit (.expr line created)

/-- A call of a method. -/
def invoke (pool : ConstantPool) (line : SourceLine) (kind : InvokeKind) (index : UInt16) :
    Sim Unit := do
  let (owner, name, descriptor) ←
    match pool.memberRef? index with
    | some m => pure (m.className, m.name, m.descriptor)
    | none =>
      report s!"unresolvable method #{index}"
      pure ("", s!"method#{index}", "()V")
  let type := callType descriptor
  let args ← popArgs line type.parameters.length
  if kind = .static then
    pushOrEmit line type.result (.invoke line kind none owner name descriptor args)
  else
    let receiver ← popValue line
    let call := Expr.invoke line kind (some receiver.expr) owner name descriptor args
    match receiver.expr with
    | .uninitNew _ className =>
      if name = "<init>" then construct line receiver className descriptor args
      else pushOrEmit line type.result call
    | _ => pushOrEmit line type.result call

/-- A call of a dynamically linked method. -/
def invokeDynamic (pool : ConstantPool) (line : SourceLine) (index : UInt16) : Sim Unit := do
  let (name, descriptor) ←
    match pool.callSite? index with
    | some site => pure site
    | none =>
      report s!"unresolvable invokedynamic #{index}"
      pure (s!"indy#{index}", "()Ljava/lang/Object;")
  let type := callType descriptor
  let args ← popArgs line type.parameters.length
  pushOrEmit line type.result (.invokeDynamic line name descriptor args)

/-- The element type behind `n` dimensions of an array type. -/
def elementBehind : (n : Nat) → Ty → Ty
  | n + 1, .array t => elementBehind n t
  | _, t => t

/-- The condition of a branch that compares an `int` with zero. The result of a three-way comparison
gives way to the comparison itself, and a truth value stands for itself. -/
def zeroTest (line : SourceLine) (op : CompareOp) (value : Expr) : Expr :=
  match value with
  | .threeWay _ _ left right => .compare line op left right
  | value =>
    if value.isBoolean && op = .ne then value
    else if value.isBoolean && op = .eq then value.negate
    else .compare line op value (.literal line (.int 0 none))

/-- Add a constant to a slot. If the slot has just been put on the stack, that becomes its value before
the addition. -/
def increment (line : SourceLine) (slot : UInt16) (delta : Int32) (pc : Address) : Sim Unit := do
  let target := Expr.localVar line (.ofSlot slot pc .int)
  match (← get).stack with
  | top :: rest =>
    if top.expr.isLocalSlot slot then
      -- the value is read before the increment: `x++`
      modify fun s => { s with stack := ⟨.increment line target delta false, top.mark⟩ :: rest }
    else emit (.expr line (.increment line target delta false))
  | [] => emit (.expr line (.increment line target delta false))

/-- Any instruction. -/
def step (ctx : SimContext) (i : PlacedInstruction) : Sim Unit := do
  let line := i.line
  let pool := ctx.pool
  match i.operation with
  | .nop | .goto _ | .ret _ => pure ()
  | .aconstNull => push (.literal line .null)
  | .push value form => push (.literal line (.int value (some form)))
  | .longConst value => push (.literal line (.long value))
  | .floatConst bits => push (.literal line (.float bits))
  | .doubleConst bits => push (.literal line (.double bits))
  | .ldc index => push (constant pool line index)
  | .load type slot =>
    -- the slot of the object in a method that has one
    if !ctx.isStatic && slot = 0 && type = .reference then push (.this line)
    else push (.localVar line (.ofSlot slot i.address (.ofOperand type)))
  | .store type slot =>
    let value ← popValue line
    assign line (.localVar line (.ofSlot slot i.next (.ofOperand type))) value
  | .iinc slot delta => increment line slot delta.toInt32 i.next
  | .arrayLoad _ =>
    let index ← pop line
    let array ← pop line
    push (.arrayLoad line array index)
  | .arrayStore _ =>
    let value ← popValue line
    let index ← pop line
    let array ← pop line
    assign line (.arrayLoad line array index) value
  | .stack op => stackOp line op
  | .arith op _ =>
    let right ← pop line
    let left ← pop line
    push (.binary line (.ofArith op) left right)
  | .neg _ => push (.neg line (← pop line))
  | .convert _ target => push (.cast line (.ofOperand target) (← pop line))
  | .compare kind =>
    let right ← pop line
    let left ← pop line
    push (.threeWay line kind left right)
  | .ifZero op _ =>
    let value ← pop line
    modify fun s => { s with condition := some (zeroTest line op value) }
  | .ifCompare op _ _ =>
    let right ← pop line
    let left ← pop line
    modify fun s => { s with condition := some (.compare line op left right) }
  | .ifNull null _ =>
    let value ← pop line
    let condition := Expr.compare line (if null then .eq else .ne) value (.literal line .null)
    modify fun s => { s with condition := some condition }
  | .switch .. =>
    let key ← pop line
    modify fun s => { s with switchKey := some key }
  | .jsr _ => push (.unresolved line "returnAddress")
  | .return none => emit (.return line none)
  | .return (some _) => emit (.return line (some (← pop line)))
  | .throw => emit (.throw line (← pop line))
  | .field op index => field pool line op index
  | .invoke kind index => invoke pool line kind index
  | .invokeDynamic index => invokeDynamic pool line index
  | .new index => push (.uninitNew line (className pool index "java/lang/Object"))
  | .newArray element =>
    let count ← pop line
    push (.newArray line (.ofOperand element) [count])
  | .anewArray index =>
    let count ← pop line
    push (.newArray line (.ofClassConstant (className pool index "java/lang/Object")) [count])
  | .multiNewArray index dimensions =>
    let counts ← popArgs line dimensions.toNat
    let type := Ty.ofClassConstant (className pool index "[Ljava/lang/Object;")
    push (.newArray line (elementBehind dimensions.toNat type) counts)
  | .arrayLength => push (.arrayLength line (← pop line))
  | .checkCast index =>
    let operand ← pop line
    push (.cast line (.ofClassConstant (className pool index "java/lang/Object")) operand)
  | .instanceOf index =>
    let operand ← pop line
    push (.instanceOf line operand (className pool index "java/lang/Object"))
  | .monitorEnter => emit (.monitorEnter line (← pop line))
  | .monitorExit => emit (.monitorExit line (← pop line))

/-- An addition to a slot that belongs to the load behind it, as the expression that does both: the load
comes next, and its value is part of a larger expression, stored elsewhere or returned. -/
def preIncrement? (stack : List StackValue) (i : PlacedInstruction) (rest : List PlacedInstruction) :
    Option Expr :=
  match i.operation, rest.map PlacedInstruction.operation with
  | .iinc slot delta, .load .int s :: rest =>
    -- a value that is dropped, or stored where it comes from, is no part of an expression
    let isUsed :=
      !stack.isEmpty ||
        match rest with
        | .store _ t :: _ => t ≠ slot
        | .return (some _) :: _ => true
        | _ => false
    if s = slot && isUsed then
      some (.increment i.line (.localVar i.line (.ofSlot slot i.next .int)) delta.toInt32 true)
    else none
  | _, _ => none

/-- The instructions of a block. An addition to a slot and the load of its new value become one
expression. -/
def run (ctx : SimContext) : List PlacedInstruction → Sim Unit
  | [] => return ()
  | [i] => do
    step ctx i
    checkDepth ctx.maxStack
  | i :: j :: rest => do
    match preIncrement? (← get).stack i (j :: rest) with
    | some e =>
      push e
      run ctx rest
    | none =>
      step ctx i
      checkDepth ctx.maxStack
      run ctx (j :: rest)

end Sim

/-- Run a block on a stack with the given values, the topmost last. -/
def Block.simulate (ctx : SimContext) (b : Block) (entryStack : List Expr) : SimulatedBlock :=
  let start : SimState :=
    { stack := entryStack.reverse.map (⟨·, none⟩), statements := [], condition := none,
      switchKey := none, diagnostics := [], nextMark := 0, depthReported := false }
  let final := (StateT.run (Sim.run ctx b.instructions) start).2
  { statements := final.statements, exitStack := (final.stack.map (·.expr)).reverse,
    condition := final.condition, switchKey := final.switchKey, diagnostics := final.diagnostics }

end JvmDecompiler
