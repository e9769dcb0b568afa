import JvmDecompiler.FlowGraph.Jumps
import JvmDecompiler.Instruction.StackEffect

/-!
# The shapes of loops

Which kind of loop statement a natural loop came from. The most special shape is tried first: a loop
through the elements of an iterable object or of an array, one with an initialisation and an update,
one that tests before or behind its body, and a loop that tests nowhere. Retreating edges that close no
natural loop count as unstructured loops.

Initialisations and updates have to be blocks of their own. Where one is only a part of a block, the
block is cut and recognition starts again.
-/

namespace JvmDecompiler

/-- What is found out about a natural loop. -/
inductive LoopShape where
  | known (l : Loop)
  /-- The block has to be cut at an address first. -/
  | split (block : BlockId) (address : Address)
  deriving DecidableEq, Repr, Inhabited

namespace FlowGraph

variable (g : FlowGraph) (pool : ConstantPool) (l : NaturalLoop)

/-! ## Parts of a natural loop -/

/-- The two ways out of a conditional block, its target first. -/
def branches? (id : BlockId) : Option (BlockId × BlockId) :=
  match (g.block? id).map Block.terminator with
  | some (.branch _ ifTrue ifFalse) => some (ifTrue, ifFalse)
  | _ => none

/-- The blocks outside a loop to which control goes from inside, in increasing order. -/
def loopExits : List BlockId :=
  sortedSet ((l.body.flatMap g.successors).filter (!l.body.contains ·))

/-- The way out of a loop that a conditional block takes. -/
def conditionalExit? (id : BlockId) : Option BlockId := do
  let (ifTrue, ifFalse) ← g.branches? id
  [ifTrue, ifFalse].find? (!l.body.contains ·)

/-- The block that control goes to when a loop ends: where the condition in the header leads, or that in
the last latch, or the first exit behind the header, or any exit. -/
def loopExit? : Option BlockId :=
  (g.conditionalExit? l l.header)
    <|> (g.conditionalExit? l l.latch)
    <|> ((g.loopExits l).find? (l.header < ·))
    <|> (g.loopExits l).head?

/-- Whether the header evaluates just a condition that decides between the loop and its exit. -/
def hasHeaderTest : Bool :=
  match g.block? l.header, g.branches? l.header with
  | some header, some (ifTrue, ifFalse) =>
    l.body.contains ifTrue != l.body.contains ifFalse
      && PlacedInstruction.isPureCondition pool header.instructions
  | _, _ => false

/-- Whether the last latch ends with a condition that decides between the header and an exit. -/
def hasLatchTest : Bool :=
  match g.branches? l.latch with
  | some (ifTrue, ifFalse) =>
    (ifTrue = l.header && !l.body.contains ifFalse) || (ifFalse = l.header && !l.body.contains ifTrue)
  | none => false

/-- The only block outside a loop from which control comes to the header. -/
def preheader? : Option BlockId :=
  match (g.predecessors l.header).filter (!l.body.contains ·) with
  | [single] => some single
  | _ => none

/-- The block of the loop that control comes to when the test of the header passes. -/
def bodyEntry? : Option BlockId := do
  let (ifTrue, ifFalse) ← g.branches? l.header
  [ifFalse, ifTrue].find? l.body.contains

/-- The address at which the computation of a block's last stored value starts, if the value goes into
the given slot. -/
def initStart? (pre : BlockId) (slot : UInt16) : Option Address := do
  let body := (← g.block? pre).body
  match (← body.getLast?).operation with
  -- the last instruction stores the value, which is not a part of its computation
  | .store _ s => if s ≠ slot then none
  | _ => none
  let start ← PlacedInstruction.expressionStart? pool body (body.length - 1)
  return (← body[start]?).address

/-- The loop with nothing known about its shape. -/
def endlessLoop : Loop :=
  { header := l.header, kind := .endless, body := l.body, exit := g.loopExit? l, latch := l.latch,
    init := none, update := none }

/-! ## Loops with an initialisation -/

/-- The slot that an update at the end of a block changes, and the address at which the update starts.
An update adds a constant to the slot, or computes its new value from the old one and a constant. -/
def trailingUpdate? (body : List PlacedInstruction) : Option (UInt16 × Address) :=
  match body.reverse with
  | last :: rest =>
    match last.operation, rest with
    | .iinc slot _, _ => some (slot, last.address)
    | .store _ target, arith :: value :: load :: _ =>
      match load.operation, value.operation, arith.operation with
      | .load _ slot, .push .., .arith op _ | .load _ slot, .longConst _, .arith op _
      | .load _ slot, .ldc _, .arith op _ =>
        if slot = target && [ArithOp.add, .sub, .mul, .shl, .shr].contains op then
          some (slot, load.address)
        else none
      | _, _, _ => none
    | _, _ => none
  | [] => none

/-- The slots that a block loads. -/
def loadedSlots (b : Block) : List UInt16 :=
  b.instructions.filterMap fun i =>
    match i.operation with
    | .load _ slot => some slot
    | _ => none

/-- The shape of a loop with an initialisation and an update, if both are blocks of their own and the
initialisation goes straight to the header; until then, where to cut. -/
def settleInit (kind : LoopKind) (pre : BlockId) (initAt : Address)
    (update : Option (BlockId × Address)) : Option LoopShape :=
  -- the initialisation is to be a block of its own
  if initAt ≠ pre then some (.split pre initAt)
  else
    -- and so is the update
    match update.filter fun (block, updateAt) => updateAt ≠ block with
    | some (block, updateAt) => some (.split block updateAt)
    | none =>
      if g.successors pre = [l.header] then
        some (.known { g.endlessLoop l with kind, init := some pre, update := update.map (·.1) })
      else none

/-- A loop whose test reads the slot that the update changes and the initialisation sets. -/
def matchFor? : Option LoopShape := do
  let header ← g.block? l.header
  let latch ← g.block? l.latch
  match latch.terminator with
  | .goto _ | .fallThrough _ => pure ()
  | _ => none
  let (slot, updateAt) ← trailingUpdate? latch.body
  if !(loadedSlots header).contains slot then none
  let pre ← g.preheader? l
  let initAt ← g.initStart? pool pre slot
  g.settleInit l .for pre initAt (some (l.latch, updateAt))

/-! ## Loops through elements -/

/-- Whether an index leads to a method with a name and, if one is given, a descriptor. -/
def isMethod (index : UInt16) (name : String) (descriptor : Option String) : Bool :=
  (pool.memberRef? index).any fun m => m.name = name && descriptor.all (m.descriptor = ·)

/-- The slot of the iterator that a header asks for more elements. -/
def iteratorSlot? (header : Block) : Option UInt16 :=
  match header.instructions.map PlacedInstruction.operation with
  | [.load .reference slot, .invoke _ index, _] =>
    if isMethod pool index "hasNext" (some "()Z") then some slot else none
  | _ => none

/-- Whether a block starts with taking an element from the iterator in a slot and storing it. -/
def takesElement (slot : UInt16) (b : Block) : Bool :=
  match b.instructions.map PlacedInstruction.operation with
  | .load _ s :: .invoke _ index :: rest =>
    s = slot && isMethod pool index "next" (some "()Ljava/lang/Object;") &&
      -- the element may be cast before it is stored
      (match rest.find? fun | .checkCast _ => false | _ => true with
        | some (.store ..) => true
        | _ => false)
  | _ => false

/-- Whether a block ends with making an iterator and storing it in a slot. -/
def makesIterator (slot : UInt16) (b : Block) : Bool :=
  match (b.body.map PlacedInstruction.operation).reverse with
  | .store _ s :: .invoke _ index :: _ => s = slot && isMethod pool index "iterator" none
  | _ => false

/-- A loop through the elements of an iterable object: an iterator is made in front of it, asked for
more in the header, and gives an element where the body starts. -/
def matchIterator? : Option LoopShape := do
  let slot ← iteratorSlot? pool (← g.block? l.header)
  if !takesElement pool slot (← g.block? (← g.bodyEntry? l)) then none
  let pre ← g.preheader? l
  if !makesIterator pool slot (← g.block? pre) then none
  let initAt ← g.initStart? pool pre slot
  g.settleInit l .forEachIterator pre initAt none

/-- The slots of the index and the length that a header compares. -/
def indexSlots? (header : Block) : Option (UInt16 × UInt16) :=
  match header.instructions.map PlacedInstruction.operation with
  | [.load .int i, .load .int n, .ifCompare _ false _] => some (i, n)
  | _ => none

/-- The slot of the array from which a block first loads the element at an index. -/
def arraySlot? (index : UInt16) (b : Block) : Option UInt16 :=
  match b.instructions.map PlacedInstruction.operation with
  | .load .reference a :: .load _ i :: .arrayLoad _ :: .store .. :: _ =>
    if i = index then some a else none
  | _ => none

/-- The address at which a block ends with adding one to a slot. -/
def trailingCount? (slot : UInt16) (b : Block) : Option Address := do
  let last ← b.body.getLast?
  match last.operation with
  | .iinc s 1 => if s = slot then some last.address else none
  | _ => none

/-- Whether instructions end with storing an array, its length and the index zero, in this order. -/
def setsUpArray (array length index : UInt16) (body : List PlacedInstruction) : Bool :=
  match (body.map PlacedInstruction.operation).reverse with
  | .store .int i :: .push 0 _ :: .store .int n :: .arrayLength :: .load .reference a2
      :: .store .reference a1 :: _ => a1 = array && a2 = array && n = length && i = index
  | _ => false

/-- A loop through the elements of an array: the array, its length and an index are stored in front of
it, the header compares the last two, the body starts with loading an element, and the latch counts. -/
def matchArray? : Option LoopShape := do
  let (index, length) ← indexSlots? (← g.block? l.header)
  let array ← arraySlot? index (← g.block? (← g.bodyEntry? l))
  let updateAt ← trailingCount? index (← g.block? l.latch)
  let pre ← g.preheader? l
  let body := (← g.block? pre).body
  if body.length < 7 || !setsUpArray array length index body then none
  -- the array is computed in front of the six instructions that set up the loop
  let start ← PlacedInstruction.expressionStart? pool body (body.length - 6)
  let initAt := (← body[start]?).address
  g.settleInit l .forEachArray pre initAt (some (l.latch, updateAt))

/-! ## All loops -/

/-- The shape of a natural loop. -/
def shapeOf : LoopShape :=
  if l.latch ≠ l.header && g.hasHeaderTest pool l then
    ((g.matchIterator? pool l) <|> (g.matchArray? pool l) <|> (g.matchFor? pool l)).getD
      (.known { g.endlessLoop l with kind := .while })
  else if g.hasLatchTest l then .known { g.endlessLoop l with kind := .doWhile }
  else .known (g.endlessLoop l)

/-- The loops with their shapes, or the graph with the first block cut that has to be. A loop stays
endless where its block cannot be cut. -/
def shapesOf : List NaturalLoop → FlowGraph ⊕ List Loop
  | [] => .inr []
  | l :: rest =>
    match g.shapeOf pool l with
    | .known found => (shapesOf rest).map id (found :: ·)
    | .split block address =>
      match g.split? block address with
      | some cut => .inl cut
      -- no cut is possible there, so the loop keeps the shape that asks for none
      | none => (shapesOf rest).map id (g.endlessLoop l :: ·)

/-- The retreating edges that close no natural loop, as loops; one for each header that has none. -/
def unstructuredLoops (loops : List Loop) : List (BlockId × BlockId) → List Loop
  | [] => loops
  | (source, target) :: rest =>
    -- a loop for the header is there already
    if loops.any (·.header = target) then unstructuredLoops loops rest
    else
      unstructuredLoops
        (loops ++ [{ header := target, kind := .unstructured, body := sortedSet [target, source],
                     exit := none, latch := source, init := none, update := none }])
        rest

/-- The class of the jump from `source` to `target` once the shapes of the loops around it are known,
which are given from the inside with `depth` loops inside them: a jump to the update of a loop continues
it, and a jump to the exit of a loop breaks it. -/
def refineWithin (source target : BlockId) (depth : Nat) : List Loop → Option JumpClass
  | [] => none
  | l :: outer =>
    if l.update = some target && source ≠ l.latch && l.update ≠ some source then
      some (.continue l.header (0 < depth))
    else if l.exit = some target then some (.break l.header (0 < depth))
    else refineWithin source target (depth + 1) outer

/-- The class of the jump at the end of a block, with the shapes of loops taken into account. -/
def refineJump (loops : List Loop) (id : BlockId) (c : JumpClass) : JumpClass :=
  match (g.block? id).map Block.terminator with
  | some (.goto target) =>
    -- the smaller loop is inside the larger one
    let enclosing := (loops.filter (·.body.contains id)).mergeSort fun a b =>
      a.body.length ≤ b.body.length
    (refineWithin id target 0 enclosing).getD c
  | _ => c

/-- Recognise the loops of a graph, in at most `rounds` rounds. -/
def reduceLoopsWithin : (rounds : Nat) → FlowGraph → FlowGraph
  | 0, g => g
  | rounds + 1, g =>
    match g.shapesOf pool g.naturalLoops with
    | .inl cut => reduceLoopsWithin rounds cut
    | .inr loops =>
      let loops := unstructuredLoops loops g.irreducibleEdges
      { g with
        loops
        jumps := g.jumps.map fun (id, c) => (id, g.refineJump loops id c) }

/-- Recognise the loops of a graph. Every round but the last cuts a block, so there are no more rounds
than instructions, and one more. -/
def reduceLoops : FlowGraph :=
  reduceLoopsWithin pool ((g.blocks.flatMap Block.instructions).length + 1) g

end FlowGraph

end JvmDecompiler
