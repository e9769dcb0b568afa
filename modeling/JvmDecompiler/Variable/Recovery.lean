import JvmDecompiler.Attribute
import JvmDecompiler.ConstantPool
import JvmDecompiler.Tree.Nodes
import JvmDecompiler.Tree.Transform
import JvmDecompiler.Variable

/-!
# Recovering local variables

The variables of a method are its parameters, the rows of its tables of local variables, and variables
inferred for the uses of slots that neither of these covers. The ranges of one slot are made disjoint,
variables of one name and different types are renamed, and every use in the body of the method is bound
to the variable whose range it is in.
-/

namespace JvmDecompiler

/-- What the declaration of a method says about one of its parameters. -/
structure ParameterHint where
  name : Option String
  isFinal : Bool
  deriving DecidableEq, Repr, Inhabited

/-- What is known about the variables of a method apart from its body. -/
structure VariableSources where
  pool : ConstantPool
  rows : List LocalRow
  typeRows : List LocalRow
  parameters : List Ty
  hints : List ParameterHint
  isStatic : Bool
  codeLength : Nat
  /-- Whether overlapping rows of one name and type are one variable. -/
  mergeRows : Bool

namespace VariableSources

variable (src : VariableSources)

/-- The slot of the first parameter: an object has its own method's slot 0. -/
def firstSlot : UInt16 := if src.isStatic then 0 else 1

/-- The generic signature of a row. -/
def signature? (row : LocalRow) : Option String := do
  let r ← src.typeRows.find? fun r => r.slot = row.slot && r.start = row.start && r.length = row.length
  src.pool.utf8? r.descriptor

/-- The variable of the parameter at a position. Its name is that of the declaration, that of the first
row for the slot at the start of the code, or made up from the position. -/
def parameter (position : Nat) (slot : UInt16) (type : Ty) : LocalVariable :=
  let hint := src.hints[position]?
  let row := src.rows.find? fun r => r.slot = slot && r.start = 0
  let name := hint.bind (·.name) <|> row.bind (src.pool.utf8? ·.name)
  { slot, start := 0, length := max src.codeLength 1
    nameIndex := row.map (·.name), signatureIndex := none
    name := name.getD s!"param{position + 1}"
    type, signature := row.bind src.signature?
    flags := LocalVariable.declaredBit
      ||| if hint.any (·.isFinal) then LocalVariable.finalBit else 0
    origin := .parameter }

/-- The variables of the parameters. -/
def parameterVariables : List LocalVariable :=
  (src.parameters.zip (Ty.slotsFrom src.firstSlot src.parameters)).zipIdx.map
    fun ((type, slot), position) => src.parameter position slot type

/-- The variable of a row. -/
def rowVariable (row : LocalRow) : LocalVariable :=
  { slot := row.slot, start := row.start.toNat, length := row.length.toNat
    nameIndex := some row.name
    signatureIndex := (src.typeRows.find? fun r => r.slot = row.slot && r.start = row.start).map
      (·.descriptor)
    name := (src.pool.utf8? row.name).getD ""
    type := ((src.pool.utf8? row.descriptor).bind Ty.ofDescriptor?).getD .unknown
    signature := src.signature? row
    flags := 0
    origin := .table }

/-- Make a sorted list of variables disjoint, where `v` goes before it. Overlapping variables of one name
and type become one if `merge` holds; otherwise the earlier one ends where the later one starts. -/
def joinRows (merge : Bool) (v : LocalVariable) : List LocalVariable → List LocalVariable
  | [] => [v]
  | w :: rest =>
    if !v.overlaps w then v :: joinRows merge w rest
    else if merge && v.name = w.name && v.type = w.type then
      joinRows merge { v with length := max v.stop w.stop - v.start } rest
    else { v with length := w.start - v.start } :: joinRows merge w rest

/-- The variables of the rows, but for those that describe the object and the parameters. -/
def tableVariables : List LocalVariable :=
  let stop := Ty.slotsEnd src.firstSlot src.parameters
  -- the others are rows of the parameters, which have variables of their own
  let rows := src.rows.filter fun r => !(r.slot < stop && r.start = 0)
  let order (v w : LocalVariable) : Ordering :=
    (compare v.slot w.slot).then ((compare v.start w.start).then (compare v.length w.length))
  match (rows.map src.rowVariable).mergeSort fun v w => (order v w).isLE with
  | [] => []
  | v :: rest => (joinRows src.mergeRows v rest).filter (·.length > 0)

end VariableSources

/-! ## Uses of slots -/

/-- A use of a slot in the body of a method. -/
structure SlotUse where
  slot : UInt16
  pc : Address
  /-- The type that the instruction works with. -/
  type : Ty
  /-- The type of the value, if the use stores one. -/
  stored : Option Ty
  /-- Whether the use stores a caught exception. -/
  caught : Bool
  deriving DecidableEq, Repr, Inhabited

namespace SlotUse

/-- The use of a slot by a variable. -/
def ofRef (ref : LocalRef) (stored : Option Ty) (caught : Bool) : SlotUse :=
  ⟨ref.slot, ref.pc, ref.type, stored, caught⟩

/-- The exception that a catch clause stores. -/
def ofCatch (c : CatchClause) : Option SlotUse :=
  let type :=
    match c.classes with
    | [single] => Ty.reference single
    | _ => .throwable
  c.var.map (ofRef · (some type) true)

/-- Whether an expression is the caught exception. -/
def isCaught : Expr → Bool
  | .caught .. => true
  | _ => false

/-- The uses of slots that a node is. A catch clause and a loop through elements store into their
variables. -/
def ofNode : Node → List SlotUse
  | .stmt (.tryCatch _ catches _) => catches.filterMap ofCatch
  | .stmt (.forEach var iterable _) => [ofRef var (some (iterable.type.element?.getD var.type)) false]
  | .localVar ref none => [ofRef ref none false]
  | .localVar ref (some value) => [ofRef ref (some value.type) (isCaught value)]
  | _ => []

/-- The uses of slots in a statement list. -/
def ofBody (body : List Stmt) : List SlotUse := (Stmt.nodesOfList body).flatMap ofNode

end SlotUse

/-! ## Inferred variables -/

/-- What can be in a slot: the uses of one variable are of one storage class. -/
inductive StorageClass where
  | int
  | long
  | float
  | double
  | reference
  | unknown
  deriving DecidableEq, Repr, Inhabited

/-- The storage class of a type. -/
def StorageClass.ofTy : Ty → StorageClass
  | .int | .byte | .char | .short | .boolean => .int
  | .long => .long
  | .float => .float
  | .double => .double
  | .unknown => .unknown
  | .reference _ | .array _ | .null | .void => .reference

/-- How the name of an inferred variable starts. -/
def inferredPrefix (type : Ty) (caught : Bool) : String :=
  if caught then "ex"
  else
    match StorageClass.ofTy type with
    | .int => "i"
    | .long => "l"
    | .float => "f"
    | .double => "d"
    | .reference | .unknown => "obj"

/-- The type of the variable that a run of uses is. A reference has the type of the values stored, if
that is one type; so has an integer. -/
def runType (operand : Ty) (run : List SlotUse) : Ty :=
  let stored := ((run.filterMap (·.stored)).filter fun t => t ≠ .null && t ≠ .unknown).eraseDups
  if operand.isReference || operand = .unknown then
    match stored with
    | [t] => t
    | _ => .object
  else if operand.isIntLike then
    match stored with
    | [t] => if t.isIntLike then t else .int
    | _ => .int
  else operand

/-- The variable that a run of uses of one slot is; `position` is the number of runs of the slot before
it. -/
def runVariable (position : Nat) : List SlotUse → Option LocalVariable
  | [] => none
  | first :: rest =>
    let run := first :: rest
    let type := runType first.type run
    let caught := run.any (·.caught)
    let start := rest.foldl (fun pc u => min pc u.pc) first.pc
    let last := rest.foldl (fun pc u => max pc u.pc) first.pc
    let name := s!"{inferredPrefix type caught}{first.slot}"
    some
      { slot := first.slot, start, length := last + 1 - start
        nameIndex := none, signatureIndex := none
        name := if position = 0 then name else s!"{name}_{position}"
        type, signature := none
        flags := if caught then LocalVariable.exceptionBit else 0
        origin := .inferred }

/-- The variables of uses that no other variable covers: one for each run of uses of a slot, in the
order of their addresses, with one storage class. -/
def inferredVariables (uses : List SlotUse) : List LocalVariable :=
  let order (u v : SlotUse) : Ordering := (compare u.slot v.slot).then (compare u.pc v.pc)
  let slots := (uses.mergeSort fun u v => (order u v).isLE).splitBy fun u v => u.slot == v.slot
  -- runs are made slot by slot, so that the positions of names start anew
  slots.flatMap fun uses =>
    let runs := uses.splitBy fun u v => StorageClass.ofTy u.type == StorageClass.ofTy v.type
    runs.zipIdx.filterMap fun (run, position) => runVariable position run

/-! ## One variable at a time -/

/-- Make the rest of a sorted list of variables disjoint behind those that already are, which are given
backwards. Of two that overlap, an inferred one starts behind one that is not; otherwise the earlier
one ends where the later one starts. A variable of which nothing is left goes away. -/
def separate : (settled : List LocalVariable) → List LocalVariable → List LocalVariable
  | settled, [] => settled.reverse
  | [], v :: rest => separate [v] rest
  | prev :: settled, v :: rest =>
    if !prev.overlaps v then separate (v :: prev :: settled) rest
    else if prev.origin ≠ .inferred && v.origin = .inferred then
      let v := { v with start := prev.stop, length := v.stop - prev.stop }
      -- nothing may be left of it behind `prev`
      separate (if v.length = 0 then prev :: settled else v :: prev :: settled) rest
    else
      let prev := { prev with length := v.start - prev.start }
      -- nothing is left of a variable that starts where the next one does
      separate (if prev.length = 0 then v :: settled else v :: prev :: settled) rest

/-- Variables whose ranges are disjoint within each slot. -/
def makeDisjoint (vars : List LocalVariable) : List LocalVariable :=
  let order (v w : LocalVariable) : Ordering :=
    (compare v.slot w.slot).then <| (compare v.start w.start).then
      (compare v.origin.rank w.origin.rank)
  separate [] (vars.mergeSort fun v w => (order v w).isLE)

/-- The first of the names `base2`, `base3` and so on that is not taken. -/
def freshName (taken : List String) (base : String) : String :=
  let candidates := (List.range' 2 (taken.length + 1)).map fun k => s!"{base}{k}"
  (candidates.find? (!taken.contains ·)).getD base

/-- Rename the variables that have the name of an earlier one, but not its type. `taken` are the names
in use, and `seen` the names of earlier variables with their types. -/
def renameConflictsFrom (taken : List String) (seen : List (String × Ty)) :
    List LocalVariable → List LocalVariable
  | [] => []
  | v :: rest =>
    if seen.any (·.1 = v.name) && !seen.contains (v.name, v.type) then
      -- the new name is taken from now on
      let name := freshName taken v.name
      { v with name } :: renameConflictsFrom (name :: taken) ((name, v.type) :: seen) rest
    else v :: renameConflictsFrom taken ((v.name, v.type) :: seen) rest

/-- Variables of which no two have one name and different types. -/
def renameConflicts (vars : List LocalVariable) : List LocalVariable :=
  renameConflictsFrom (vars.map (·.name)) [] vars

/-! ## Binding -/

/-- The position of the variable of a slot nearest to an address, the first of them if there are
several. -/
def nearestVariable? (vars : List LocalVariable) (slot : UInt16) (pc : Address) : Option Nat :=
  let candidates := vars.zipIdx.filter fun (v, _) => v.slot = slot
  let distances := candidates.map fun (v, i) => (v.distance pc, i)
  distances.head?.map fun first =>
    (distances.tail.foldl (fun best d => if d.1 < best.1 then d else best) first).2

/-- The position of the variable that a use of a slot belongs to: the one whose range it is in, or the
nearest one of the slot. -/
def variableAt? (vars : List LocalVariable) (slot : UInt16) (pc : Address) : Option Nat :=
  vars.findIdx? (fun v => v.slot = slot && v.covers pc) <|> nearestVariable? vars slot pc

/-- A variable for a single use of a slot that has none. -/
def variableOfUse (ref : LocalRef) : LocalVariable :=
  let type := if ref.type = .unknown then .object else ref.type
  { slot := ref.slot, start := ref.pc, length := 1
    nameIndex := none, signatureIndex := none
    name := s!"{inferredPrefix type false}{ref.slot}"
    type, signature := none, flags := 0, origin := .inferred }

/-- The use with the name of its variable and, if it is known, its type. -/
def LocalRef.bindTo (ref : LocalRef) (v : LocalVariable) (position : Nat) : LocalRef :=
  { ref with
    name := v.name
    type := if v.type = .unknown then ref.type else v.type
    var := some position }

/-- Bind uses to variables, and add a variable for a use whose slot has none. -/
def binder : Transform (StateM (List LocalVariable)) where
  localVar ref := do
    let vars ← get
    match variableAt? vars ref.slot ref.pc with
    | some i => return ref.bindTo (vars[i]?.getD default) i
    | none =>
      let v := variableOfUse ref
      set (vars ++ [v])
      return ref.bindTo v vars.length

/-- The statements of a method with the variables that they use. -/
structure BoundBody where
  statements : List Stmt
  locals : List LocalVariable
  deriving Inhabited

/-- The variables of a method in their order, before uses are bound to them. -/
def VariableSources.locals (src : VariableSources) (body : List Stmt) : List LocalVariable :=
  let known := src.parameterVariables ++ src.tableVariables
  let uncovered := (SlotUse.ofBody body).filter fun u =>
    !known.any fun v => v.slot = u.slot && v.covers u.pc
  let vars := renameConflicts (makeDisjoint (known ++ inferredVariables uncovered))
  vars.mergeSort fun v w => (v.nameOrder w).isLE

/-- Recover the variables of a method and bind every use in its body to one of them. -/
def VariableSources.bind (src : VariableSources) (body : List Stmt) : BoundBody :=
  let (statements, locals) := (binder.onBody body).run (src.locals body)
  ⟨statements, locals⟩

end JvmDecompiler
