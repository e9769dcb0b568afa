import JvmDecompiler.FlowGraph.LoopShapes
import JvmDecompiler.Simulation
import JvmDecompiler.Structuring.Cleanup
import JvmDecompiler.Structuring.TryRegion
import JvmDecompiler.Warning

/-!
# Structured statements from a flow graph

A reduced flow graph becomes nested statements. Blocks are taken in the order in which control goes
through them; a branch, a switch, a loop or a try statement opens new lists, and control that comes to
a place already taken care of becomes a `break`, a `continue`, or a jump to a label. Each block is run
once.

## Why it ends

Going on with a list takes an unvisited block, a loop that has not been started or a try statement that
has not been started, and uses it up. The depth of the recursion is therefore bounded by how many of
these there are (`Structurer.budget`). A run that would go deeper has no result.
-/

namespace JvmDecompiler

/-- An enclosing statement that can be left by `break` or, if it is a loop, started over by
`continue`. -/
structure Breakable where
  label : String
  /-- The header, if the statement is a loop. -/
  header : Option BlockId
  breakTarget : Option BlockId
  continueTarget : Option BlockId
  labelUsed : Bool
  deriving DecidableEq, Repr, Inhabited

/-- What structuring a method refers to. Loops are in the order of the blocks at which they start. -/
structure Structurer where
  graph : FlowGraph
  ctx : SimContext
  method : String
  stripFinallyCopies : Bool
  postDominators : List (BlockId × BlockId)
  loops : List Loop
  regions : List TryRegion

/-- What has been done so far. Enclosing statements are given from the inside. -/
structure Progress where
  visited : List BlockId
  /-- The headers of the loops that have been started. -/
  loopsDone : List BlockId
  /-- The positions of the try statements that have been started. -/
  triesDone : List Nat
  breakables : List Breakable
  usedLabels : List String
  warnings : List Warning
  deriving Inhabited

/-- A step of structuring. It has no result if it would have to go deeper than it may. -/
abbrev Structure := StateT Progress Option

/-- Where to go on: a block, with the values on the stack. -/
abbrev Continuation := Option (BlockId × List Expr)

/-- The statements of a list so far, and where to go on. -/
abbrev Partial := List Stmt × Continuation

/-- Write the rest of a list behind the statements that it has so far: from a block on, until control
comes to one of the blocks at which the list ends, leaves the method, or jumps. -/
abbrev ListWriter := List Stmt → Continuation → (stops : List BlockId) → Structure (List Stmt)

namespace Structurer

variable (st : Structurer)

/-! ## Reporting -/

/-- Warn that some control flow is not fully structured. -/
def warn (message : String) : Structure Unit :=
  modify fun p => { p with warnings := p.warnings ++ [⟨.reductionAmbiguity, st.method, message⟩] }

/-- Take a block as done. -/
def visit (id : BlockId) : Structure Unit := modify fun p => { p with visited := id :: p.visited }

/-- Run a block and pass its diagnostics on. -/
def simulate (b : Block) (entryStack : List Expr) : Structure SimulatedBlock := do
  let sim := b.simulate st.ctx entryStack
  sim.diagnostics.forM fun d => st.warn s!"block {b.id}: {d}"
  return sim

/-- The label of a block. -/
def blockLabel (id : BlockId) : String := s!"L{id}"

/-- The statement that marks where a block starts. -/
def labelOf (id : BlockId) : Stmt := .label (blockLabel id)

/-- The expression in the place of one that is not there. -/
def absent (what : String) : Expr := .unresolved none what

/-! ## Jumps -/

/-- Whether a `break` or `continue` leads to a block. -/
def isJumpTarget (breakables : List Breakable) (id : BlockId) : Bool :=
  breakables.any fun b => b.continueTarget = some id || b.breakTarget = some id

/-- The `break` or `continue` that leads to a block, and the enclosing statements with the label of the
one it names marked as used. `inner` are the statements inside those looked at. A label is needed when
a statement inside would catch the jump. -/
def jumpWithin (target : BlockId) (inner : List Breakable) :
    List Breakable → Option (Stmt × List Breakable)
  | [] => none
  | b :: outer =>
    let isContinue := b.continueTarget = some target
    if isContinue || b.breakTarget = some target then
      let labeled := if isContinue then inner.any (·.continueTarget.isSome) else !inner.isEmpty
      let label := if labeled then some b.label else none
      let b := if labeled then { b with labelUsed := true } else b
      some (if isContinue then .continueTo label else .breakTo label, inner.reverse ++ b :: outer)
    else jumpWithin target (b :: inner) outer

/-- The `break` or `continue` that leads to a block. -/
def jump? (target : BlockId) : Structure (Option Stmt) := do
  match jumpWithin target [] (← get).breakables with
  | some (stmt, breakables) =>
    modify fun p => { p with breakables }
    return some stmt
  | none => return none

/-- A jump to the label of a block. -/
def residualGoto (target : BlockId) : Structure Stmt := do
  modify fun p => { p with usedLabels := blockLabel target :: p.usedLabels }
  st.warn s!"jump to {target} has no structured form"
  return .gotoLabel (blockLabel target)

/-- What going to a block means here: nothing at the end of the list, a statement that jumps there, or
going on with the block. -/
def follow (target : BlockId) (stops : List BlockId) : Structure (List Stmt × Option BlockId) := do
  if stops.contains target then return ([], none)
  match ← jump? target with
  | some stmt => return ([stmt], none)
  | none =>
    if (← get).visited.contains target then return ([← st.residualGoto target], none)
    else return ([], some target)

/-- Go to a block behind the statements of a list so far. -/
def followFrom (out : List Stmt) (target : BlockId) (stops : List BlockId) (stack : List Expr) :
    Structure Partial := do
  let (jump, next) ← st.follow target stops
  return (out ++ jump, next.map ((·, stack)))

/-- Go to a block, if there is one, behind the statements of a list so far. -/
def followOption (out : List Stmt) (target : Option BlockId) (stops : List BlockId) :
    Structure Partial :=
  match target with
  | some target => st.followFrom out target stops []
  | none => return (out, none)

/-- The blocks at which a list inside a statement ends: the block behind the statement, and those at
which the list around it ends, unless a jump leads there anyway. -/
def nestedStops (join : Option BlockId) (stops : List BlockId) : Structure (List BlockId) := do
  match join with
  | some join =>
    let breakables := (← get).breakables
    return join :: stops.filter (!isJumpTarget breakables ·)
  | none => return stops

/-! ## Questions about the surroundings -/

/-- Whether a block is in the innermost loop around. -/
def inCurrentLoop (breakables : List Breakable) (id : BlockId) : Bool :=
  match breakables.findSome? (·.header) with
  | none => true
  | some header =>
    match st.loops.find? (·.header = header) with
    | some l => l.body.contains id
    | none => true

/-- The loop that starts at a block. -/
def loopAt? (id : BlockId) : Option Loop := st.loops.find? (·.entry = id)

/-- The loop that starts at a block and has not been started. -/
def pendingLoop? (p : Progress) (id : BlockId) : Option Loop :=
  (st.loopAt? id).filter fun l => !p.loopsDone.contains l.header

/-- The position of the outermost try statement that starts at a block and has not been started. A loop
that starts at the same block goes first if it reaches as far as a handler. -/
def pendingTry? (p : Progress) (id : BlockId) : Option Nat := do
  let (r, i) ← st.regions.zipIdx.find? fun (r, i) => r.start = id && !p.triesDone.contains i
  match st.pendingLoop? p id with
  | some l =>
    let firstHandler ← r.handlers.head?
    -- a loop that contains a handler is around the try statement, any other one inside it
    if l.body.any (firstHandler ≤ ·) then none else some i
  | none => some i

/-- Whether a loop or a try statement starts at a block. -/
def startsStatement (id : BlockId) : Bool :=
  (st.loopAt? id).isSome || st.regions.any (·.start = id)

/-! ## Conditions -/

/-- The condition of a block that does nothing but test it and is entered only from `members`, with the
blocks it leads to if it holds and if it does not. -/
def pureCondition? (p : Progress) (members : List BlockId) (id : BlockId) :
    Option (Expr × BlockId × BlockId) := do
  if p.visited.contains id || st.startsStatement id then none
  let b ← st.graph.block? id
  let (ifTrue, ifFalse) ← st.graph.branches? id
  -- nothing else leads there, and nothing is lost if the tests in front of it decide
  if !(st.graph.predecessors id).all members.contains
      || !PlacedInstruction.isPureCondition st.ctx.pool b.instructions then none
  let sim := b.simulate st.ctx []
  if !sim.statements.isEmpty || !sim.exitStack.isEmpty || !sim.diagnostics.isEmpty then none
  return (← sim.condition, ifTrue, ifFalse)

/-- A condition that is being put together, with the blocks it leads to. -/
structure Test where
  condition : Expr
  taken : BlockId
  fallthrough : BlockId

/-- Fold the block behind a failed test into it, if both tests lead to one block. -/
def foldFallthrough? (p : Progress) (members : List BlockId) (t : Test) : Option (Test × BlockId) := do
  let (c, ifTrue, ifFalse) ← st.pureCondition? p members t.fallthrough
  let merged (right : Expr) (fallthrough : BlockId) : Test :=
    ⟨.binary (t.condition.line <|> right.line) .or t.condition right, t.taken, fallthrough⟩
  -- both tests lead to one block if they hold, or the second one if it does not
  if ifTrue = t.taken then return (merged c ifFalse, t.fallthrough)
  else if ifFalse = t.taken then return (merged c.negate ifTrue, t.fallthrough)
  else none

/-- Fold the block behind a passed test into it, if both tests lead to one block. -/
def foldTaken? (p : Progress) (members : List BlockId) (t : Test) : Option (Test × BlockId) := do
  let (c, ifTrue, ifFalse) ← st.pureCondition? p members t.taken
  let merged (right : Expr) (taken : BlockId) : Test :=
    ⟨.binary (t.condition.line <|> right.line) .and t.condition right, taken, t.fallthrough⟩
  if ifFalse = t.fallthrough then return (merged c ifTrue, t.taken)
  else if ifTrue = t.fallthrough then return (merged c.negate ifFalse, t.taken)
  else none

/-- Fold blocks that only test a condition into a test, as long as there are any and at most `steps`
times. -/
def mergeTests : (steps : Nat) → (members : List BlockId) → Test → Structure Test
  | 0, _, _ => failure
  | steps + 1, members, t => do
    let p ← get
    match st.foldFallthrough? p members t <|> st.foldTaken? p members t with
    | some (t, folded) =>
      visit folded
      mergeTests steps (folded :: members) t
    | none => return t

/-- The value of a block that does nothing but compute one, and the block it goes to. -/
def valueBlock? (p : Progress) (id : BlockId) : Option (Expr × BlockId) := do
  if p.visited.contains id || st.startsStatement id || isJumpTarget p.breakables id then none
  let b ← st.graph.block? id
  let join ←
    match b.terminator with
    | .goto target | .fallThrough target => some target
    | _ => none
  let sim := b.simulate st.ctx []
  if !sim.statements.isEmpty || !sim.diagnostics.isEmpty then none
  match sim.exitStack with
  | [value] => return (value, join)
  | _ => none

/-- The two values of a conditional expression, and the block where its arms meet. -/
def conditionalValue? (p : Progress) (t : Test) : Option (Expr × Expr × BlockId) := do
  if t.taken = t.fallthrough then none
  let (thenValue, thenJoin) ← st.valueBlock? p t.taken
  let (elseValue, elseJoin) ← st.valueBlock? p t.fallthrough
  if thenJoin ≠ elseJoin then none
  return (thenValue, elseValue, thenJoin)

/-- A conditional expression. One that chooses between one and zero is the condition itself or its
negation. -/
def conditional (condition thenValue elseValue : Expr) : Expr :=
  match thenValue.intValue?, elseValue.intValue? with
  | some 1, some 0 => condition
  | some 0, some 1 => condition.negate
  | _, _ => .ternary condition.line condition thenValue elseValue

/-! ## Where branches meet -/

/-- The immediate post-dominator of a block, if control goes on there within the current loop. -/
def postDominator? (p : Progress) (head : BlockId) : Option BlockId :=
  (st.postDominators.lookup head).filter fun join =>
    join ≠ FlowGraph.exitNode && !p.visited.contains join && st.inCurrentLoop p.breakables join

/-- Whether control leaves a set of blocks for the end of the list around. -/
def leaks (p : Progress) (region stops : List BlockId) : Bool :=
  region.any fun b => (st.graph.successors b).any fun s =>
    stops.contains s && !isJumpTarget p.breakables s

/-- The block where the arms of a branch meet: the post-dominator of the branch; else one arm, if the
other leads to it; else the first block that both lead to; else one arm, if control does not come back
from the other. -/
def ifJoin? (p : Progress) (head taken fallthrough : BlockId) (stops : List BlockId) : Option BlockId :=
  let fromFallthrough := st.graph.reachableFrom fallthrough (head :: stops)
  let fromTaken := st.graph.reachableFrom taken (head :: stops)
  match st.postDominator? p head with
  | some join => some join
  | none =>
    -- one arm leads to the other, so there is only the one arm
    if fromFallthrough.contains taken then some taken
    else if fromTaken.contains fallthrough then some fallthrough
    else
      -- no post-dominator, for example since an arm returns: the arms may still meet
      match fromFallthrough.find? fun b =>
        fromTaken.contains b && !p.visited.contains b && st.inCurrentLoop p.breakables b with
      | some join => some join
      | none =>
        -- an arm that does not come back to the list leaves the other one as the way on
        if !st.leaks p fromFallthrough stops then some taken
        else if !st.leaks p fromTaken stops then some fallthrough
        else none

/-- Where control goes behind protected code: the first block behind the handlers that it leads to, or
its only exit. -/
def continuation? (r : TryRegion) : Option BlockId := do
  let handlers := r.handlers
  let firstHandler ← handlers.head?
  -- the handlers lie in front of the code they protect
  if firstHandler ≤ r.start then none
  let inside (b : BlockId) : Bool := r.start ≤ b && b < firstHandler
  let exits := sortedSet (((st.graph.ids.filter inside).flatMap st.graph.successors).filter fun s =>
    !inside s && !handlers.contains s)
  match exits.find? (firstHandler ≤ ·), exits with
  | some after, _ => some after
  | none, [single] => some single
  | none, _ => none

/-! ## Parts of loops -/

/-- The statements of a block that belongs to the head of a loop. -/
def headBlock (id : Option BlockId) : Structure (List Stmt) := do
  match id.bind st.graph.block? with
  | some b =>
    visit b.id
    return (← st.simulate b []).statements.map .simple
  | none => return []

/-- The condition on which a loop that tests in its header goes on, and the block it goes on with. -/
def loopCondition (l : Loop) : Structure (Expr × BlockId) := do
  visit l.header
  match st.graph.block? l.header with
  | none => return (absent "loop condition", l.header)
  | some b =>
    let condition := (← st.simulate b []).condition.getD (absent "loop condition")
    match b.terminator with
    | .branch _ ifTrue ifFalse =>
      -- the loop goes on with the target that is in it
      if l.body.contains ifTrue && some ifTrue ≠ l.exit then return (condition, ifTrue)
      else return (condition.negate, ifFalse)
    | _ => return (condition, l.header)

/-- The condition on which a loop that tests in its latch is repeated, behind the statements of the
latch. -/
def latchCondition (l : Loop) (body : List Stmt) : Structure (List Stmt × Expr) := do
  match st.graph.block? l.latch with
  | none => return (body, absent "loop condition")
  | some b =>
    visit l.latch
    let sim ← st.simulate b []
    -- the label of the latch is behind the body, so that jumps to the test find it
    let body := body ++ labelOf l.latch :: sim.statements.map .simple
    let condition := sim.condition.getD (absent "loop condition")
    match b.terminator with
    | .branch _ ifTrue _ => return (body, if ifTrue = l.header then condition else condition.negate)
    | _ => return (body, condition.negate)

/-- Enter a statement that can be left by `break`. -/
def enter (b : Breakable) : Structure Unit := modify fun p => { p with breakables := b :: p.breakables }

/-- Leave the innermost statement that can be left by `break`, and put its label in front of it if a
jump names it. -/
def leave (label : String) (stmt : Stmt) : Structure Stmt := do
  let used := (← get).breakables.head?.any (·.labelUsed)
  modify fun p => { p with breakables := p.breakables.tail }
  return if used then .labeled label stmt else stmt

/-- A loop through elements, or the loop with its hidden variables if the elements are not taken as
expected. -/
def forEachLoop (l : Loop) (init : List Stmt) (condition : Expr) (update body : List Stmt) :
    Structure Stmt := do
  let throughArray := l.kind = .forEachArray
  match iterable? throughArray init, takeElement? throughArray body with
  | some iterable, some (var, body) => return .forEach var iterable body
  | _, _ =>
    st.warn s!"for-each loop at {l.header} kept in its expanded form"
    return .forLoop init condition update body

/-- The arms of a switch in the order of their blocks, each with its labels. The default is left out if
it does nothing but go on behind the switch. -/
def switchArms (default : BlockId) (cases : List (Int32 × BlockId)) (join : Option BlockId) :
    List (BlockId × List (Option Int32)) :=
  let labels :=
    cases.map (fun (key, target) => (target, some key))
      ++ if join = some default then [] else [(default, none)]
  (sortedSet (labels.map (·.1))).map fun target =>
    (target, (labels.filter (·.1 = target)).map (·.2))

/-- The exception that a handler of some classes starts with. -/
def caughtBy : List String → Expr
  | [single] => .caught none (some single)
  | _ => .caught none none

/-! ## Statements -/

/-- A try statement from its parts. Copies of its `finally` code are removed if that is asked for, and a
statement that does nothing but leave a monitor in the end is a synchronized statement. -/
def tryStatement (out body : List Stmt) (catches : List CatchClause)
    (finallyBody : Option (List Stmt)) : List Stmt :=
  match finallyBody with
  | some (first :: rest) =>
    let code := first :: rest
    if st.stripFinallyCopies then
      let pattern := normalize code
      let body := stripCopies pattern true body
      let catches := catches.map fun c => { c with body := stripCopies pattern true c.body }
      match catches.isEmpty && isMonitorExit code, takeMonitorEnter? out with
      | true, some (object, out) => out ++ [.synchronized object body]
      | _, _ => out ++ [.tryCatch body catches finallyBody]
    else out ++ [.tryCatch body catches finallyBody]
  | _ => out ++ [.tryCatch body catches finallyBody]

/-! ## Lists of statements

The functions here say what a statement is made of, where `go` writes the rest of a list. -/

section Parts

variable (go : ListWriter)

/-- The list that a branch to a block opens. -/
def branchTo (target : BlockId) (stops : List BlockId) : Structure (List Stmt) := do
  let (out, next) ← st.followFrom [] target stops []
  go out next stops

/-- An `if`. The arm that comes first in the code is the first arm of the statement, under the negated
condition, unless it is where the arms meet; an arm without statements is never the first one. -/
def ifStatement (out : List Stmt) (head : BlockId) (t : Test) (stops : List BlockId) :
    Structure Partial := do
  let join := st.ifJoin? (← get) head t.taken t.fallthrough stops
  let inner ← nestedStops join stops
  -- the arm that lies first in the code is the one for which the jump is not taken
  let (condition, thenStart, elseStart) :=
    if join = some t.fallthrough then (t.condition, t.taken, t.fallthrough)
    else (t.condition.negate, t.fallthrough, t.taken)
  let thenBody ← st.branchTo go thenStart inner
  let elseBody ← st.branchTo go elseStart inner
  let stmt :=
    if (codeOf thenBody).isEmpty && !(codeOf elseBody).isEmpty then
      Stmt.ifElse condition.negate elseBody thenBody
    else Stmt.ifElse condition thenBody elseBody
  st.followOption (out ++ [stmt]) join stops

/-- The branch at the end of a block: part of a longer test, a conditional expression, or an `if`. -/
def conditionalBlock (out : List Stmt) (head : BlockId) (sim : SimulatedBlock)
    (ifTrue ifFalse : BlockId) (stops : List BlockId) : Structure Partial := do
  let test := ⟨sim.condition.getD (absent "condition"), ifTrue, ifFalse⟩
  let t ← st.mergeTests (st.graph.blocks.length + 1) [head] test
  match st.conditionalValue? (← get) t with
  | some (thenValue, elseValue, join) =>
    -- the arms are parts of the expression, and are not rendered again
    visit t.taken
    visit t.fallthrough
    st.followFrom out join stops (sim.exitStack ++ [conditional t.condition thenValue elseValue])
  | none =>
    if !sim.exitStack.isEmpty then
      st.warn s!"{sim.exitStack.length} value(s) live across the branch at block {head} were dropped"
    st.ifStatement go out head t stops

/-- The arms of a switch. Control that comes to the next arm falls into it; the last arm ends where the
switch does. -/
def switchArmsFrom (join : Option BlockId) (stops : List BlockId) :
    List (BlockId × List (Option Int32)) → Structure (List SwitchCase)
  | [] => return []
  | (target, labels) :: rest => do
    let next := rest.head?.map (·.1)
    let inner ← nestedStops (if next.isSome then next else join) stops
    let body ← st.branchTo go target inner
    -- an arm without a jump at its end falls into the next one
    let endsInJump := (codeOf body).getLast?.any Stmt.isJump
    let others ← switchArmsFrom join stops rest
    return ⟨labels, body, next.isSome && !endsInJump⟩ :: others

/-- A switch. -/
def switchBlock (out : List Stmt) (head : BlockId) (sim : SimulatedBlock) (default : BlockId)
    (cases : List (Int32 × BlockId)) (stops : List BlockId) : Structure Partial := do
  let key := sim.switchKey.getD (absent "switch key")
  let join := st.postDominator? (← get) head
  let label := s!"switch{head}"
  enter ⟨label, none, join, none, false⟩
  let arms ← st.switchArmsFrom go join stops (switchArms default cases join)
  let stmt ← leave label (.switch key arms)
  st.followOption (out ++ [stmt]) join stops

/-- One block behind the statements of a list so far. -/
def block (out : List Stmt) (id : BlockId) (stack : List Expr) (stops : List BlockId) :
    Structure Partial := do
  match st.graph.block? id with
  | none => return (out, none)
  | some b =>
    visit id
    let sim ← st.simulate b stack
    let out := out ++ labelOf id :: sim.statements.map .simple
    match b.terminator with
    | .return | .throw => return (out, none)
    | .fallThrough target | .goto target => st.followFrom out target stops sim.exitStack
    | .branch _ ifTrue ifFalse => st.conditionalBlock go out id sim ifTrue ifFalse stops
    | .switch default cases => st.switchBlock go out id sim default cases stops
    | .jsr target returnTo =>
      st.warn s!"subroutine call at block {id} kept as a comment"
      st.followFrom (out ++ [.comment s!"jsr L{target}"]) returnTo stops []
    | .ret =>
      st.warn s!"subroutine return at block {id} kept as a comment"
      return (out ++ [.comment "ret"], none)

/-- The statement that a loop is, by its shape. -/
def loopStatement (l : Loop) : Structure Stmt := do
  match l.kind with
  | .while =>
    let (condition, entry) ← st.loopCondition l
    let body ← st.branchTo go entry [l.header]
    return .whileLoop condition body
  | .for =>
    let init ← st.headBlock l.init
    let (condition, entry) ← st.loopCondition l
    let body ← st.branchTo go entry [l.continueTarget]
    let update ← st.headBlock l.update
    return .forLoop init condition update body
  | .forEachArray | .forEachIterator =>
    let init ← st.headBlock l.init
    let (condition, entry) ← st.loopCondition l
    let body ← st.branchTo go entry [l.continueTarget]
    let update ← st.headBlock l.update
    st.forEachLoop l init condition update body
  | .doWhile =>
    let body ← if l.latch = l.header then pure [] else go [] (some (l.header, [])) [l.latch]
    let (body, condition) ← st.latchCondition l body
    return .doWhile body condition
  | .endless | .unstructured =>
    let body ← go [] (some (l.header, [])) [l.header]
    return .whileLoop (.literal none (.boolean true)) body

/-- A loop. -/
def loop (out : List Stmt) (l : Loop) (stops : List BlockId) : Structure Partial := do
  modify fun p => { p with loopsDone := l.header :: p.loopsDone }
  let label := s!"loop{l.header}"
  -- the label of the loop is that of its first block, which is the initialisation if there is one
  let out := out ++ labelOf l.entry :: if l.init.isSome then [labelOf l.header] else []
  enter ⟨label, some l.header, l.exit, some l.continueTarget, false⟩
  let stmt ← st.loopStatement go l
  let stmt ← leave label stmt
  st.followOption (out ++ [stmt]) l.exit stops

/-- The catch clauses of the handlers that have not been visited. -/
def catchClauses (inner : List BlockId) :
    List (BlockId × List String) → Structure (List CatchClause)
  | [] => return []
  | (handler, classes) :: rest => do
    if (← get).visited.contains handler then catchClauses inner rest
    else
      let body ← go [] (some (handler, [caughtBy classes])) inner
      let (var, body) := takeCatchVar body
      let others ← catchClauses inner rest
      return ⟨classes, var, body⟩ :: others

/-- The `finally` part of a try statement, or the catch clause that its handler is instead. -/
def finallyPart (inner : List BlockId) (handler : Option BlockId) :
    Structure (List CatchClause × Option (List Stmt)) := do
  let p ← get
  match handler.filter (!p.visited.contains ·) with
  | none => return ([], none)
  | some handler =>
    let body ← go [] (some (handler, [.caught none none])) inner
    match finallyCode? body with
    | some code => return ([], some code)
    | none =>
      let (var, body) := takeCatchVar body
      return ([⟨[], var, body⟩], none)

/-- A try statement. -/
def tryRegion (out : List Stmt) (i : Nat) (stops : List BlockId) : Structure Partial := do
  modify fun p => { p with triesDone := i :: p.triesDone }
  match st.regions[i]? with
  | none => return (out, none)
  | some r =>
    let continuation := st.continuation? r
    let inner := r.handlers ++ (← nestedStops continuation stops)
    let body ← go [] (some (r.start, [])) inner
    let catches ← catchClauses go inner r.catches
    let (last, finallyBody) ← finallyPart go inner r.finally?
    st.followOption (st.tryStatement out body (catches ++ last) finallyBody) continuation stops

end Parts

/-- Write the rest of a list, at most `depth` deep. -/
def sequence : (depth : Nat) → ListWriter
  | _, out, none, _ => return out
  | 0, _, some _, _ => failure
  -- a block that has been rendered can only be jumped to
  | depth + 1, out, some (id, stack), stops => do
    let p ← get
    if p.visited.contains id then return out ++ [← st.residualGoto id]
    let (out, next) ←
      match st.pendingTry? p id, st.pendingLoop? p id with
      | some i, _ => st.tryRegion (sequence depth) out i stops
      | none, some l => st.loop (sequence depth) out l stops
      | none, none => st.block (sequence depth) out id stack stops
    sequence depth out next stops

/-- How deep structuring a method can go: as deep as there are blocks, loops and try statements, and one
step more. -/
def budget : Nat := st.graph.blocks.length + st.loops.length + st.regions.length + 1

/-- What structuring a method refers to. Where two loops start at one block, the later one counts. -/
def ofGraph (graph : FlowGraph) (ctx : SimContext) (method : String) (stripFinallyCopies : Bool) :
    Structurer :=
  { graph, ctx, method, stripFinallyCopies
    postDominators := graph.postDominators
    -- a later loop with the same first block takes the place of the earlier one
    loops := (graph.loops.filter (·.kind ≠ .unstructured)).foldl
      (fun loops l => FlowGraph.insertByKey Loop.entry l loops) []
    regions := TryRegion.ofRanges graph.ranges }

end Structurer

/-- The statements of a method, and what may be wrong with them. -/
structure StructuredBody where
  statements : List Stmt
  warnings : List Warning
  deriving Inhabited

namespace FlowGraph

/-- The statements of the method with a reduced flow graph. -/
def structured? (g : FlowGraph) (ctx : SimContext) (method : String) (stripFinallyCopies : Bool) :
    Option StructuredBody := do
  if g.blocks.isEmpty then return ⟨[], []⟩
  let st := Structurer.ofGraph g ctx method stripFinallyCopies
  let start : Progress := ⟨[], [], [], [], [], []⟩
  let (statements, p) ← StateT.run (st.sequence st.budget [] (some (g.entry, [])) []) start
  -- the try statements that no list has come to
  let unstarted := st.regions.zipIdx.filter fun (_, i) => !p.triesDone.contains i
  let late := unstarted.map fun (r, _) =>
    (⟨.reductionAmbiguity, method, s!"protected range at {r.start} was not structured"⟩ : Warning)
  return ⟨retainLabels p.usedLabels statements, p.warnings ++ late⟩

/-- The statements of the method with a reduced flow graph. -/
def structured (g : FlowGraph) (ctx : SimContext) (method : String) (stripFinallyCopies : Bool) :
    StructuredBody :=
  (g.structured? ctx method stripFinallyCopies).getD ⟨[], []⟩

end FlowGraph

end JvmDecompiler
