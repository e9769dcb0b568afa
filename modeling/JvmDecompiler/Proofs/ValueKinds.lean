import JvmDecompiler.ConstantPool
import JvmDecompiler.Instruction.StackEffect
import JvmDecompiler.Tree.Expr
import Mathlib.Data.List.Basic

/-!
# Kinds of values on the stack of the machine

The machine counts a `long` and a `double` on the stack as two slots, and `pop2`, `dup2` and their relatives
move slots. This module has the machine's side of it: what verification says of the kinds of the values on
the stack (`Instruction.kindsAfter?`), and where the instructions that only move values move them, in the
forms in which the specification of the machine gives them (`StackOp.moved?`).
-/

namespace JvmDecompiler

/-! ## Kinds of values -/

/-- What the machine tells apart of the values on its stack. -/
inductive ValueKind where
  | int
  | long
  | float
  | double
  | reference
  deriving DecidableEq, Repr, Inhabited

/-- Values of kind `long` and `double` take two slots. -/
def ValueKind.isWide : ValueKind → Bool
  | .long | .double => true
  | _ => false

/-- The kind of value that an instruction works on. What is narrower than `int` is an `int` on the stack. -/
def OperandType.kind : OperandType → ValueKind
  | .int | .byte | .char | .short | .boolean => .int
  | .long => .long
  | .float => .float
  | .double => .double
  | .reference => .reference

/-- The kind of the values of a type. -/
def Ty.kind? : Ty → Option ValueKind
  | .int | .byte | .char | .short | .boolean => some .int
  | .long => some .long
  | .float => some .float
  | .double => some .double
  | .reference _ | .array _ | .null => some .reference
  | .void | .unknown => none

/-- What a call with a result of the type puts on the stack. -/
def Ty.resultKinds? : Ty → Option (List ValueKind)
  | .void => some []
  | t => t.kind?.map ([·])

/-- The kind of a dynamically computed constant. -/
def ConstantPool.dynamicKind? (pool : ConstantPool) (index : UInt16) : Option ValueKind :=
  match pool.get? index with
  | some (.dynamic _ nameAndType) => do
    (← Ty.ofDescriptor? (← pool.nameAndType? nameAndType).2).kind?
  | _ => none

/-- The kind of a constant that can be loaded. -/
def ConstantPool.constantKind? (pool : ConstantPool) (index : UInt16) : Option ValueKind :=
  match pool.get? index with
  | some (.integer _) => some .int
  | some (.float _) => some .float
  | some (.long _) => some .long
  | some (.double _) => some .double
  | some (.string _) | some (.classRef _) | some (.methodHandle ..) | some (.methodType _) =>
    some .reference
  | _ => pool.dynamicKind? index

/-- The kinds of values that an instruction takes from the stack and those that it puts there, from the
top. -/
structure KindEffect where
  takes : List ValueKind
  gives : List ValueKind
  deriving DecidableEq, Repr, Inhabited

/-- The effect of a call on the stack. -/
def KindEffect.ofCall? (descriptor : String) (receiver : List ValueKind) : Option KindEffect := do
  let type ← MethodTy.ofDescriptor? descriptor
  let parameters ← type.parameters.mapM Ty.kind?
  return ⟨parameters.reverse ++ receiver, ← type.result.resultKinds?⟩

namespace ArithOp

/-- Whether the right operand is a distance, which is an `int`. -/
def isShift : ArithOp → Bool
  | .shl | .shr | .ushr => true
  | _ => false

end ArithOp

/-- The kind of value that a three-way comparison compares. -/
def ThreeWay.kind : ThreeWay → ValueKind
  | .long => .long
  | .floatL | .floatG => .float
  | .doubleL | .doubleG => .double

/-- What an instruction does to the kinds on the stack, if it is none that only moves values and what it
refers to can be found. A constructor has no result. -/
def Instruction.kindEffect? (pool : ConstantPool) : Instruction → Option KindEffect
  | .nop | .goto _ | .ret _ | .iinc .. => some ⟨[], []⟩
  | .aconstNull | .new _ | .jsr _ => some ⟨[], [.reference]⟩
  | .push .. => some ⟨[], [.int]⟩
  | .longConst _ => some ⟨[], [.long]⟩
  | .floatConst _ => some ⟨[], [.float]⟩
  | .doubleConst _ => some ⟨[], [.double]⟩
  | .ldc index => do return ⟨[], [← pool.constantKind? index]⟩
  | .load type _ => some ⟨[], [type.kind]⟩
  | .store type _ => some ⟨[type.kind], []⟩
  | .arrayLoad type => some ⟨[.int, .reference], [type.kind]⟩
  | .arrayStore type => some ⟨[type.kind, .int, .reference], []⟩
  | .stack _ => none
  | .arith op type => some ⟨[if op.isShift then .int else type.kind, type.kind], [type.kind]⟩
  | .neg type => some ⟨[type.kind], [type.kind]⟩
  | .convert source target => some ⟨[source.kind], [target.kind]⟩
  | .compare comparison => some ⟨[comparison.kind, comparison.kind], [.int]⟩
  | .ifZero .. | .switch .. => some ⟨[.int], []⟩
  | .ifCompare _ onReferences _ =>
    let kind := if onReferences then .reference else .int
    some ⟨[kind, kind], []⟩
  | .ifNull .. | .throw | .monitorEnter | .monitorExit => some ⟨[.reference], []⟩
  | .return type => some ⟨(type.map OperandType.kind).toList, []⟩
  | .field op index => do
    let kind ← (← Ty.ofDescriptor? (← pool.memberRef? index).descriptor).kind?
    match op with
    | .getStatic => return ⟨[], [kind]⟩
    | .putStatic => return ⟨[kind], []⟩
    | .getField => return ⟨[.reference], [kind]⟩
    | .putField => return ⟨[kind, .reference], []⟩
  | .invoke kind index => do
    let m ← pool.memberRef? index
    let effect ← KindEffect.ofCall? m.descriptor (if kind = .static then [] else [.reference])
    if m.name = "<init>" ∧ effect.gives ≠ [] then none else return effect
  | .invokeDynamic index => do KindEffect.ofCall? (← pool.callSite? index).2 []
  | .newArray _ | .anewArray _ => some ⟨[.int], [.reference]⟩
  | .multiNewArray _ dimensions => some ⟨List.replicate dimensions.toNat .int, [.reference]⟩
  | .arrayLength => some ⟨[.reference], [.int]⟩
  | .checkCast _ => some ⟨[.reference], [.reference]⟩
  | .instanceOf _ => some ⟨[.reference], [.int]⟩

namespace StackOp

variable {α β : Type}

/-- What the machine does to a stack, given from the top, where `wide` says which values take two slots.
Each line is a form in which the specification of the machine gives the instruction. -/
def moved? (wide : α → Bool) : StackOp → List α → Option (List α)
  | .pop, v :: s => if wide v then none else some s
  | .pop2, v :: w :: s =>
    if wide v then some (w :: s) else if wide w then none else some s
  | .pop2, [v] => if wide v then some [] else none
  | .dup, v :: s => if wide v then none else some (v :: v :: s)
  | .dupX1, v :: w :: s => if wide v || wide w then none else some (v :: w :: v :: s)
  | .dupX2, v :: w :: s =>
    if wide v then none
    else if wide w then some (v :: w :: v :: s)
    else
      match s with
      | x :: s => if wide x then none else some (v :: w :: x :: v :: s)
      | [] => none
  | .dup2, v :: s =>
    if wide v then some (v :: v :: s)
    else
      match s with
      | w :: s => if wide w then none else some (v :: w :: v :: w :: s)
      | [] => none
  | .dup2X1, v :: w :: s =>
    if wide w then none
    else if wide v then some (v :: w :: v :: s)
    else
      match s with
      | x :: s => if wide x then none else some (v :: w :: x :: v :: w :: s)
      | [] => none
  | .dup2X2, v :: w :: s =>
    match wide v, wide w with
    | true, true => some (v :: w :: v :: s)
    | true, false =>
      match s with
      | x :: s => if wide x then none else some (v :: w :: x :: v :: s)
      | [] => none
    | false, true => none
    | false, false =>
      match s with
      | x :: s =>
        if wide x then some (v :: w :: x :: v :: w :: s)
        else
          match s with
          | y :: s => if wide y then none else some (v :: w :: x :: y :: v :: w :: s)
          | [] => none
      | [] => none
  | .swap, v :: w :: s => if wide v || wide w then none else some (w :: v :: s)
  | _, _ => none

/-- The values that the machine discards, from the top. -/
def dropped (wide : α → Bool) : StackOp → List α → List α
  | .pop, v :: _ => [v]
  | .pop2, v :: s => if wide v then [v] else v :: s.take 1
  | _, _ => []

/-- Which values are moved where does not depend on what they are, only on which of them are wide. -/
theorem moved?_map {f : α → β} {wide : β → Bool} {wide' : α → Bool} (op : StackOp) {s : List α}
    (h : ∀ v ∈ s, wide (f v) = wide' v) :
    op.moved? wide (s.map f) = (op.moved? wide' s).map (List.map f) := by
  rcases s with _ | ⟨v, _ | ⟨w, _ | ⟨x, _ | ⟨y, s⟩⟩⟩⟩ <;> cases op <;>
    simp only [List.mem_cons, forall_eq_or_imp, List.not_mem_nil] at h <;>
    simp only [moved?, List.map_nil, List.map_cons, h, Option.map_none] <;>
    (repeat' split) <;> simp_all

/-- What an operation drops does not depend on what else is known of the values. -/
theorem dropped_map {f : α → β} {wide : β → Bool} {wide' : α → Bool} (op : StackOp) {s : List α}
    (h : ∀ v ∈ s, wide (f v) = wide' v) : op.dropped wide (s.map f) = (op.dropped wide' s).map f := by
  rcases s with _ | ⟨v, s⟩ <;> cases op <;> try rfl
  simp only [dropped, List.map_cons, h v List.mem_cons_self]
  split <;> simp

end StackOp

/-- A stack of kinds behind an instruction, if the kinds that it takes are there. -/
def Instruction.kindsAfter? (pool : ConstantPool) (i : Instruction) (kinds : List ValueKind) :
    Option (List ValueKind) :=
  match i with
  | .stack op => op.moved? ValueKind.isWide kinds
  | i => do
    let effect ← i.kindEffect? pool
    if effect.takes.isPrefixOf kinds then return effect.gives ++ kinds.drop effect.takes.length
    else none

/-- A stack of kinds behind some instructions. -/
def PlacedInstruction.kindsAfter? (pool : ConstantPool) (is : List PlacedInstruction)
    (kinds : List ValueKind) : Option (List ValueKind) :=
  is.foldlM (fun kinds i => i.operation.kindsAfter? pool kinds) kinds

/-! ## Facts about kinds -/

/-- The type of an operand is wide if its kind is. -/
theorem isWide_ofOperand (type : OperandType) : (Ty.ofOperand type).isWide = type.kind.isWide := by
  cases type <;> rfl

/-- The same, asked of the operand itself. -/
theorem isWide_operandType (type : OperandType) : type.isWide = type.kind.isWide := by
  cases type <;> rfl

/-- The kind of a type tells whether it is wide. -/
theorem isWide_of_kind? {t : Ty} {k : ValueKind} (h : t.kind? = some k) : t.isWide = k.isWide := by
  cases t <;> simp only [Ty.kind?, Option.some.injEq, reduceCtorEq] at h <;> subst h <;> rfl

/-- A class is not wide. -/
theorem isWide_ofClassConstant (name : String) : (Ty.ofClassConstant name).isWide = false := by
  unfold Ty.ofClassConstant
  split
  · rename_i h
    unfold Ty.ofDescriptor?
    cases hname : name.toList with
    | nil => simp [hname] at h
    | cons c cs =>
      obtain rfl : c = '[' := by simpa [hname] using h
      simp only [Ty.read?]
      cases Ty.read? cs with
      | none => rfl
      | some r =>
        obtain ⟨t, rest⟩ := r
        cases rest <;> rfl
  · rfl

/-- An array is not wide. -/
theorem isWide_arrayOf (t : Ty) (n : Nat) : (t.arrayOf (max n 1)).isWide = false := by
  obtain ⟨k, hk⟩ : ∃ k, max n 1 = k + 1 := ⟨max n 1 - 1, by omega⟩
  rw [hk]
  rfl

/-- The result of an operation is as wide as its left operand. -/
theorem isWide_binary (line : SourceLine) (op : ArithOp) (left right : Expr) :
    (Expr.binary line (.ofArith op) left right).type.isWide = left.type.isWide := by
  have hop : (BinaryOp.ofArith op).isLogical = false := by cases op <;> rfl
  simp only [Expr.type, hop]
  cases left.type <;> rfl

/-- A list of values that are all found is as long as the list they are found for. -/
theorem length_of_mapM {α β : Type} {f : α → Option β} {l : List α} {m : List β}
    (h : l.mapM f = some m) : m.length = l.length := by
  induction l generalizing m with
  | nil =>
    obtain rfl := Option.some.inj h
    rfl
  | cons a l ih =>
    simp only [List.mapM_cons, Option.bind_eq_bind, Option.bind_eq_some_iff, Option.pure_def,
      Option.some.injEq] at h
    obtain ⟨b, -, bs, hbs, rfl⟩ := h
    simp [ih hbs]

/-- A call takes its parameters and its receiver, and gives its result. -/
theorem KindEffect.ofCall?_eq_some {descriptor : String} {receiver : List ValueKind}
    {effect : KindEffect} (h : KindEffect.ofCall? descriptor receiver = some effect) :
    ∃ type parameters, MethodTy.ofDescriptor? descriptor = some type ∧
      type.parameters.mapM Ty.kind? = some parameters ∧ effect.takes = parameters.reverse ++ receiver ∧
        type.result.resultKinds? = some effect.gives := by
  simp only [KindEffect.ofCall?, Option.bind_eq_bind, Option.bind_eq_some_iff, Option.pure_def,
    Option.some.injEq] at h
  obtain ⟨type, htype, parameters, hparameters, gives, hgives, rfl⟩ := h
  exact ⟨type, parameters, htype, hparameters, rfl, hgives⟩

/-- An instruction that does not only move values takes some kinds off the stack and puts others there. -/
theorem Instruction.kindsAfter?_eq_some_iff {pool : ConstantPool} {operation : Instruction}
    {kinds kinds' : List ValueKind} (hop : ∀ op, operation ≠ .stack op) :
    operation.kindsAfter? pool kinds = some kinds' ↔ ∃ effect rest,
      operation.kindEffect? pool = some effect ∧ kinds = effect.takes ++ rest ∧
        kinds' = effect.gives ++ rest := by
  have hunfold : operation.kindsAfter? pool kinds = (operation.kindEffect? pool).bind fun effect =>
      if effect.takes.isPrefixOf kinds then some (effect.gives ++ kinds.drop effect.takes.length)
      else none := by
    cases operation <;> first | rfl | exact absurd rfl (hop _)
  rw [hunfold, Option.bind_eq_some_iff]
  refine exists_congr fun effect => ⟨fun ⟨heffect, h⟩ => ?_, fun ⟨rest, heffect, hk, hk'⟩ => ⟨heffect, ?_⟩⟩
  · split at h
    · rename_i hprefix
      obtain ⟨rest, rfl⟩ := List.isPrefixOf_iff_prefix.1 hprefix
      exact ⟨rest, heffect, rfl, by simpa using (Option.some.inj h).symm⟩
    · cases h
  · subst hk hk'
    rw [if_pos (List.isPrefixOf_iff_prefix.2 (List.prefix_append _ _))]
    simp

/-- The kinds behind two rows of instructions are those behind the second. -/
theorem PlacedInstruction.kindsAfter?_append {pool : ConstantPool} {is js : List PlacedInstruction}
    {kinds : List ValueKind} :
    PlacedInstruction.kindsAfter? pool (is ++ js) kinds =
      (PlacedInstruction.kindsAfter? pool is kinds).bind (PlacedInstruction.kindsAfter? pool js) := by
  simp only [PlacedInstruction.kindsAfter?, List.foldlM_append]
  rfl

/-- The kinds behind a row of one instruction are those behind it. -/
theorem PlacedInstruction.kindsAfter?_singleton {pool : ConstantPool} {i : PlacedInstruction}
    {kinds : List ValueKind} :
    PlacedInstruction.kindsAfter? pool [i] kinds = i.operation.kindsAfter? pool kinds := by
  simp [PlacedInstruction.kindsAfter?]

end JvmDecompiler
