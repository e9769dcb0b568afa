import JvmDecompiler.FlowGraph.Dominance

/-!
# Reducing jumps

Compiled code is full of jumps that the source does not have. `FlowGraph.reduceJumps` sends a jump to
another jump straight to its end, replaces a jump to a lone return by the return, drops jumps to the
next block, removes the blocks that control cannot reach any more, and says of every jump that is left
what it is for.

A block at which a protected range starts or ends, or a handler starts, keeps its place.
-/

namespace JvmDecompiler

/-- Where an instruction branches to after every target has been mapped by `f`. -/
def Instruction.mapTargets (f : Address → Address) : Instruction → Instruction
  | .goto target => .goto (f target)
  | .jsr target => .jsr (f target)
  | .ifZero op target => .ifZero op (f target)
  | .ifCompare op onReferences target => .ifCompare op onReferences (f target)
  | .ifNull null target => .ifNull null (f target)
  | .switch default cases => .switch (f default) (cases.map fun (key, target) => (key, f target))
  | i => i

/-- Where control goes after every block has been mapped by `f`. -/
def Terminator.mapTargets (f : BlockId → BlockId) : Terminator → Terminator
  | .fallThrough target => .fallThrough (f target)
  | .goto target => .goto (f target)
  | .branch condition ifTrue ifFalse => .branch condition (f ifTrue) (f ifFalse)
  | .switch default cases => .switch (f default) (cases.map fun (key, target) => (key, f target))
  | .jsr target returnTo => .jsr (f target) (f returnTo)
  | t@.return | t@.throw | t@.ret => t

/-- Change the last element of a list. -/
def mapLast {α : Type} (f : α → α) : List α → List α
  | [] => []
  | [a] => [f a]
  | a :: b :: rest => a :: mapLast f (b :: rest)

namespace Block

/-- Change what the last instruction does. -/
def modifyLast (b : Block) (f : Instruction → Instruction) : Block :=
  { b with instructions := mapLast (fun i => { i with operation := f i.operation }) b.instructions }

/-- The target of a jump or of a conditional branch. -/
def jumpTarget? (b : Block) : Option BlockId :=
  match b.terminator with
  | .goto target => some target
  | .branch _ ifTrue _ => some ifTrue
  | _ => none

/-- The block with another target of its jump or conditional branch. -/
def retarget (b : Block) (target : BlockId) : Block :=
  let instruction : Instruction → Instruction
    | .switch default cases => .switch default cases
    | .jsr t => .jsr t
    | i => i.mapTargets fun _ => target
  let b := b.modifyLast instruction
  match b.terminator with
  | .goto _ => { b with terminator := .goto target }
  | .branch condition _ ifFalse => { b with terminator := .branch condition target ifFalse }
  | _ => b

/-- The block with every edge to `source` led to `target` instead. -/
def redirect (b : Block) (source target : BlockId) : Block :=
  let swap (t : BlockId) := if t = source then target else t
  { b.modifyLast (·.mapTargets swap) with terminator := b.terminator.mapTargets swap }

end Block

namespace FlowGraph

/-! ## Threading -/

/-- Where a way through blocks that only pass control on ends, after at most `steps` of them. The way
stops at a boundary and before a block in `seen`. -/
def followFrom (g : FlowGraph) (boundaries : List BlockId) : (steps : Nat) → (seen : List BlockId) →
    BlockId → BlockId
  | 0, _, id => id
  | steps + 1, seen, id =>
    if boundaries.contains id then id
    else
      match g.block? id with
      | some b =>
        if b.isGotoOnly then
          match b.terminator with
          | .goto target | .fallThrough target =>
            -- a ring is not followed any further
            if target = id || seen.contains target then id
            else followFrom g boundaries steps (id :: seen) target
          | _ => id
        else id
      | none => id

/-- Where a jump to a block ends. No block is passed twice, so the way has no more steps than there are
blocks. -/
def follow (g : FlowGraph) (id : BlockId) : BlockId :=
  followFrom g g.boundaries (g.blocks.length + 1) [] id

/-- Lead the jump or the conditional branch of a block to where it ends. -/
def threadBlock (g : FlowGraph) (id : BlockId) : FlowGraph :=
  match g.block? id with
  | some b =>
    match b.terminator with
    | .goto target =>
      let resolved := g.follow target
      -- a jump to a ring through its own block stays as it is
      if resolved ≠ target ∧ resolved ≠ id then g.modify id (·.retarget resolved) else g
    | .branch _ ifTrue _ =>
      let resolved := g.follow ifTrue
      if resolved ≠ ifTrue then g.modify id (·.retarget resolved) else g
    | _ => g
  | none => g

/-- Lead every jump to where it ends, one block after the other. -/
def threadJumps (g : FlowGraph) : FlowGraph := g.ids.foldl threadBlock g

/-! ## Returns -/

/-- Whether an instruction puts one value on the stack that it has computed from nothing else. -/
def isLoneValue : Instruction → Bool
  | .push .. | .load .. | .aconstNull | .ldc _ | .longConst _ | .floatConst _ | .doubleConst _ => true
  | _ => false

/-- Whether the place where a jump leads to is still needed: the jump ends an arm of a conditional
value, or it goes around a handler as the jump behind a protected range does. -/
def keepsJoin (g : FlowGraph) (id target : BlockId) : Bool :=
  match g.block? id with
  | some b =>
    (match b.body with
      | [only] => isLoneValue only.operation
      | _ => false)
    || g.ranges.any fun r => id < r.handler && r.handler < target
  | none => false

/-- The return that a block consists of. -/
def loneReturn? (b : Block) : Option Instruction :=
  match b.instructions with
  | [only] =>
    match only.operation with
    | .return type => some (.return type)
    | _ => none
  | _ => none

/-- Replace the jump at the end of a block by the return that it leads to. -/
def inlineReturn (g : FlowGraph) (id : BlockId) : FlowGraph :=
  match g.block? id with
  | some b =>
    match b.terminator, b.instructions.getLast? with
    | .goto target, some last =>
      if g.boundaries.contains target || g.keepsJoin id target then g
      else
        -- the last instruction must be the jump itself, which makes room for the return
        match (g.block? target).bind loneReturn?, last.operation with
        | some «return», .goto _ =>
          g.modify id fun b => { b.modifyLast fun _ => «return» with terminator := .return }
        | _, _ => g
    | _, _ => g
  | none => g

/-- Replace every jump to a lone return, one block after the other. -/
def inlineReturns (g : FlowGraph) : FlowGraph := g.ids.foldl inlineReturn g

/-! ## Jumps to the next block -/

/-- The block without its jump, if that leads to the next block. -/
def dropJump (g : FlowGraph) (b : Block) : Block :=
  match b.terminator with
  | .goto target =>
    if g.nextBlock? b.id = some target then
      let instructions :=
        -- a block without a jump instruction falls through already
        match b.instructions.getLast?.map (·.operation) with
        | some (.goto _) => b.instructions.dropLast
        | _ => b.instructions
      { b with instructions, terminator := .fallThrough target }
    else b
  | _ => b

/-- The empty blocks that can be taken out, each with the block behind it. -/
def emptyBlocks (g : FlowGraph) : List (BlockId × BlockId) :=
  g.blocks.filterMap fun b =>
    if b.instructions.isEmpty && b.id ≠ g.entry && !g.boundaries.contains b.id then
      match b.terminator with
      | .fallThrough target => if target ≠ b.id then some (b.id, target) else none
      | _ => none
    else none

/-- Take a block out and lead the edges to it to another block. -/
def bypass (g : FlowGraph) (id target : BlockId) : FlowGraph :=
  let preds := g.predecessors id
  { g with blocks := (g.blocks.map fun b =>
      if preds.contains b.id then b.redirect id target else b).filter (·.id ≠ id) }

/-- Drop jumps to the next block and take out the blocks that this leaves empty, as long as there are
any, in at most `rounds` rounds. -/
def dropJumpsWithin : (rounds : Nat) → FlowGraph → FlowGraph
  | 0, g => g
  | rounds + 1, g =>
    let dropped := { g with blocks := g.blocks.map g.dropJump }
    let empties := dropped.emptyBlocks
    if dropped.blocks = g.blocks ∧ empties = [] then g
    else
      dropJumpsWithin rounds (empties.foldl (fun g (id, target) => g.bypass id target) dropped)

/-- Drop jumps to the next block and take out the blocks that this leaves empty. Every round removes a
jump or a block, so there are no more rounds than jumps and blocks together. -/
def dropJumps (g : FlowGraph) : FlowGraph := dropJumpsWithin (2 * g.blocks.length + 1) g

/-- Remove the blocks that control cannot reach. -/
def removeUnreachable (g : FlowGraph) : FlowGraph :=
  let reached := g.reversePostorder
  { g with blocks := g.blocks.filter fun b => reached.contains b.id }

/-! ## Classes of jumps -/

/-- Whether a block does nothing but lead out of a loop: it is not in the loop, and control comes to it
only from the loop. -/
def isExitStub (g : FlowGraph) (l : NaturalLoop) (id : BlockId) : Bool :=
  !l.body.contains id && (g.block? id).any Block.isGotoOnly && !(g.predecessors id).isEmpty
    && (g.predecessors id).all l.body.contains

/-- The class of a jump that no loop explains. -/
def plainJump (source target : BlockId) : JumpClass :=
  if source < target then .forward else .residual

/-- The class of a jump in terms of the loops around its source, given from the inside, where `depth`
loops inside them have been left. -/
def classifyWithin (source target : BlockId) (depth : Nat) : List NaturalLoop → JumpClass
  | [] => plainJump source target
  | l :: outer =>
    if target = l.header then
      if depth = 0 && l.latches.getLast? = some source then .backEdge l.header
      -- a jump to the header from elsewhere, or out of an inner loop, is a `continue`
      else .continue l.header (0 < depth)
    else if l.body.contains target then plainJump source target
    else
      match outer with
      | [] => .break l.header (0 < depth)
      | next :: _ =>
        -- the target is farther out than the next loop, or is its header
        if next.header = target || !next.body.contains target then
          classifyWithin source target (depth + 1) outer
        else .break l.header (0 < depth)

/-- The class of a jump. -/
def classifyJump (g : FlowGraph) (loops : List NaturalLoop) (source target : BlockId) : JumpClass :=
  classifyWithin source target 0
    (loops.filter fun l => l.body.contains source || g.isExitStub l source)

/-- Record the class of every jump. -/
def classifyJumps (g : FlowGraph) : FlowGraph :=
  let loops := g.naturalLoops
  { g with jumps := g.blocks.filterMap fun b =>
      match b.terminator with
      | .goto target => some (b.id, g.classifyJump loops b.id target)
      | _ => none }

/-- Reduce the jumps of a graph. -/
def reduceJumps (g : FlowGraph) (inlineReturns : Bool) : FlowGraph :=
  let g := g.threadJumps
  let g := if inlineReturns then g.inlineReturns else g
  g.dropJumps.removeUnreachable.classifyJumps

end FlowGraph

end JvmDecompiler
