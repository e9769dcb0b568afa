import JvmDecompiler.Code
import JvmDecompiler.Digraph

/-!
# Flow graphs

The code of a method as a graph of basic blocks. A block is named by the address of its first
instruction; it ends in a terminator that says where control goes. Blocks are kept in the order of
their names, and sets of blocks are lists in increasing order.

A flow graph also records what later stages find out about it: the class of every jump, and the loops.
-/

namespace JvmDecompiler

/-- The name of a block: the address of its first instruction. -/
abbrev BlockId := Address

/-- What a conditional branch tests. -/
inductive BranchCondition where
  | intZero (op : CompareOp)
  | intCompare (op : CompareOp)
  | refCompare (op : CompareOp)
  | refNull (null : Bool)
  deriving DecidableEq, Repr, Inhabited

/-- Where control goes at the end of a block. -/
inductive Terminator where
  | fallThrough (target : BlockId)
  | goto (target : BlockId)
  | branch (condition : BranchCondition) (ifTrue ifFalse : BlockId)
  /-- The cases are sorted by key. -/
  | switch (default : BlockId) (cases : List (Int32 × BlockId))
  | return
  | throw
  | jsr (target returnTo : BlockId)
  | ret
  deriving DecidableEq, Repr, Inhabited

/-- A basic block. -/
structure Block where
  id : BlockId
  instructions : List PlacedInstruction
  terminator : Terminator
  deriving DecidableEq, Repr, Inhabited

namespace Terminator

/-- The blocks that control may go to, without repetition. The block behind a conditional branch comes
before its target. -/
def successors : Terminator → List BlockId
  | fallThrough target | goto target => [target]
  | branch _ ifTrue ifFalse => [ifFalse, ifTrue].eraseDups
  | switch default cases => (cases.map (·.2) ++ [default]).eraseDups
  | «return» | throw | ret => []
  | jsr target returnTo => [target, returnTo].eraseDups

end Terminator

namespace Block

/-- The instructions of a block, without the jump at its end. -/
def body (b : Block) : List PlacedInstruction :=
  match b.terminator, b.instructions.getLast? with
  | .goto _, some last => if last.operation.endsBlock then b.instructions.dropLast else b.instructions
  | _, _ => b.instructions

/-- Whether the block does nothing but pass control on. -/
def isGotoOnly (b : Block) : Bool :=
  match b.terminator with
  | .goto _ | .fallThrough _ => b.body.isEmpty
  | _ => false

end Block

/-- What an unconditional jump is for. -/
inductive JumpClass where
  /-- Leaves the loop with the given header. -/
  | break (header : BlockId) (labeled : Bool)
  /-- Starts the loop with the given header over. -/
  | continue (header : BlockId) (labeled : Bool)
  /-- Closes the loop with the given header. -/
  | backEdge (header : BlockId)
  /-- Goes on further down, as at the end of a branch. -/
  | forward
  /-- Has no counterpart in structured code. -/
  | residual
  deriving DecidableEq, Repr, Inhabited

/-- The shapes of loops. -/
inductive LoopKind where
  | forEachArray
  | forEachIterator
  | for
  | while
  | doWhile
  | endless
  /-- A way back to a block that does not dominate the block it comes from. -/
  | unstructured
  deriving DecidableEq, Repr, Inhabited

/-- Whether the loop goes through the elements of an array or of an iterable object. -/
def LoopKind.isForEach : LoopKind → Bool
  | .forEachArray | .forEachIterator => true
  | _ => false

/-- A loop with its shape. -/
structure Loop where
  header : BlockId
  kind : LoopKind
  body : List BlockId
  /-- The block that control goes to when the loop ends by itself. -/
  exit : Option BlockId
  /-- The last block that leads back to the header. -/
  latch : BlockId
  /-- The block that holds just the initialisation. -/
  init : Option BlockId
  /-- The block that holds just the update. -/
  update : Option BlockId
  deriving DecidableEq, Repr, Inhabited

namespace Loop

/-- The block that `continue` leads to. -/
def continueTarget (l : Loop) : BlockId :=
  if l.kind = .doWhile then l.latch else l.update.getD l.header

/-- The block at which the loop as a statement starts. -/
def entry (l : Loop) : BlockId := l.init.getD l.header

end Loop

/-- The graph of the blocks of a method. -/
structure FlowGraph where
  blocks : List Block
  entry : BlockId
  ranges : List ProtectedRange
  /-- The class of the jump at the end of a block, in the order of blocks. -/
  jumps : List (BlockId × JumpClass)
  loops : List Loop
  deriving DecidableEq, Repr, Inhabited

/-- Kinds of edges. -/
inductive EdgeKind where
  | fallThrough
  | branch
  | switchCase
  | exceptionHandler
  deriving DecidableEq, Repr, Inhabited

/-- An edge of a flow graph. -/
structure Edge where
  source : BlockId
  target : BlockId
  kind : EdgeKind
  deriving DecidableEq, Repr, Inhabited

/-- The set with the elements of a list: in increasing order, without repetition. -/
def sortedSet (ids : List BlockId) : List BlockId := ids.eraseDups.mergeSort (· ≤ ·)

namespace FlowGraph

/-- The names of the blocks, in increasing order. -/
def ids (g : FlowGraph) : List BlockId := g.blocks.map (·.id)

/-- The block with a name. -/
def block? (g : FlowGraph) (id : BlockId) : Option Block := g.blocks.find? (·.id = id)

/-- Whether there is a block with a name. -/
def contains (g : FlowGraph) (id : BlockId) : Bool := (g.block? id).isSome

/-- Change the block with a name. -/
def modify (g : FlowGraph) (id : BlockId) (f : Block → Block) : FlowGraph :=
  { g with blocks := g.blocks.map fun b => if b.id = id then f b else b }

/-- The blocks that control goes to without an exception. -/
def successors (g : FlowGraph) (id : BlockId) : List BlockId :=
  match g.block? id with
  | some b => b.terminator.successors
  | none => []

/-- The handlers of exceptions in any instruction of a block. -/
def exceptionSuccessors (g : FlowGraph) (id : BlockId) : List BlockId :=
  match g.block? id with
  | some b =>
    sortedSet ((g.ranges.filter fun r => b.instructions.any (r.covers ·.address)).map (·.handler))
  | none => []

/-- The blocks that control goes to, with an exception or without. -/
def allSuccessors (g : FlowGraph) (id : BlockId) : List BlockId :=
  let normal := g.successors id
  normal ++ (g.exceptionSuccessors id).filter (!normal.contains ·)

/-- The blocks from which control comes without an exception. -/
def predecessors (g : FlowGraph) (id : BlockId) : List BlockId :=
  g.ids.filter fun b => (g.successors b).contains id

/-- The edges from a block by its terminator, one for every case of a switch. -/
def terminatorEdges (b : Block) : List Edge :=
  match b.terminator with
  | .fallThrough target => [⟨b.id, target, .fallThrough⟩]
  | .goto target => [⟨b.id, target, .branch⟩]
  | .branch _ ifTrue ifFalse => [⟨b.id, ifFalse, .fallThrough⟩, ⟨b.id, ifTrue, .branch⟩]
  | .switch default cases =>
    cases.map (fun (_, target) => ⟨b.id, target, .switchCase⟩) ++ [⟨b.id, default, .switchCase⟩]
  | .jsr target returnTo => [⟨b.id, target, .branch⟩, ⟨b.id, returnTo, .fallThrough⟩]
  | .return | .throw | .ret => []

/-- All edges, in the order of the blocks that they leave. -/
def edges (g : FlowGraph) : List Edge :=
  g.blocks.flatMap fun b =>
    terminatorEdges b ++ (g.exceptionSuccessors b.id).map (⟨b.id, ·, .exceptionHandler⟩)

/-- The block that follows another in the order of addresses. -/
def nextBlock? (g : FlowGraph) (id : BlockId) : Option BlockId := g.ids.find? (id < ·)

/-- The addresses at which a protected range starts or ends, or a handler starts. -/
def boundaries (g : FlowGraph) : List BlockId :=
  sortedSet (g.ranges.flatMap fun r => [r.start, r.stop, r.handler])

/-- The graph of all edges. -/
def digraph (g : FlowGraph) : Digraph := ⟨g.ids, g.allSuccessors⟩

/-- The graph of the edges that no exception takes. -/
def normalDigraph (g : FlowGraph) : Digraph := ⟨g.ids, g.successors⟩

/-- The blocks that control may reach, in reverse postorder. -/
def reversePostorder (g : FlowGraph) : List BlockId := g.digraph.reversePostorder g.entry

/-- The blocks that control reaches from `start` without an exception and without entering a block of
`barrier`. -/
def reachableFrom (g : FlowGraph) (start : BlockId) (barrier : List BlockId) : List BlockId :=
  ((g.normalDigraph.without barrier).reversePostorder start).mergeSort (· ≤ ·)

/-- Insert a value under a key into a list ordered by keys. -/
def insertByKey {α : Type} (key : α → Nat) (a : α) : List α → List α
  | [] => [a]
  | b :: rest =>
    if key a < key b then a :: b :: rest
    else if key a = key b then a :: rest
    else b :: insertByKey key a rest

/-- Cut a block in two, so that a block starts at the instruction at address `at`. There is no result
if that is the start of the block or no instruction of it. The class of a jump moves to the second
half, with the jump. -/
def split? (g : FlowGraph) (id : BlockId) (address : Address) : Option FlowGraph := do
  if address = id then none
  let b ← g.block? id
  let i ← b.instructions.findIdx? (·.address = address)
  let first : Block := ⟨b.id, b.instructions.take i, .fallThrough address⟩
  let second : Block := ⟨address, b.instructions.drop i, b.terminator⟩
  let g := g.modify id fun _ => first
  let g := { g with blocks := insertByKey Block.id second g.blocks }
  match g.jumps.lookup id with
  | some c =>
    return { g with jumps := insertByKey Prod.fst (address, c) (g.jumps.filter (·.1 ≠ id)) }
  | none => return g

end FlowGraph

end JvmDecompiler
