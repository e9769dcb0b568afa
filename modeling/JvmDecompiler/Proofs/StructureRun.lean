import JvmDecompiler.Proofs.Progress

/-!
# Runs of structuring

The functions that write lists of statements call each other, and pass on the progress made so far.
`Structurer.Runs` says what such a run consists of, with one rule for each way in which a piece of work
is done; what holds of all runs is shown by induction on it. `exists_runs_sequence` says that every run
has a result, as its depth is bounded by what is left to do (`Structurer.rest`).

A run comes with notes (`Note`) of what it writes: the jumps that become `break` or `continue`, and the
statements that can be left that way.
-/

namespace JvmDecompiler

namespace Structurer

/-- A piece of the work of structuring, with what comes out of it. -/
inductive Work where
  /-- The rest of a list. -/
  | list (out : List Stmt) (next : Continuation) (stops : List BlockId) (result : List Stmt)
  /-- What stands at a block: a try statement, a loop, or the block itself. -/
  | element (out : List Stmt) (id : BlockId) (stack : List Expr) (stops : List BlockId)
      (result : Partial)
  /-- What follows the statements of a block. -/
  | block (out : List Stmt) (b : Block) (sim : SimulatedBlock) (stops : List BlockId) (result : Partial)
  /-- An `if`. -/
  | ifElse (out : List Stmt) (head : BlockId) (t : Test) (stops : List BlockId) (result : Partial)
  /-- The list that a branch to a block opens. -/
  | branch (target : BlockId) (stops : List BlockId) (result : List Stmt)
  /-- Arms of a switch. -/
  | arms (join : Option BlockId) (stops : List BlockId) (arms : List (BlockId × List (Option Int32)))
      (result : List SwitchCase)
  /-- The statement that a loop is. -/
  | loop (l : Loop) (result : Stmt)
  /-- Catch clauses. -/
  | catches (inner : List BlockId) (handlers : List (BlockId × List String))
      (result : List CatchClause)
  /-- A `finally` part. -/
  | final (inner : List BlockId) (handler : Option BlockId)
      (result : List CatchClause × Option (List Stmt))

variable (st : Structurer)

/-- The test at the end of a block. -/
def testOf (sim : SimulatedBlock) (ifTrue ifFalse : BlockId) : Test :=
  ⟨sim.condition.getD (absent "condition"), ifTrue, ifFalse⟩

/-- The statement that a loop is known by. -/
def loopBreakable (l : Loop) : Breakable :=
  ⟨s!"loop{l.header}", some l.header, l.exit, some l.continueTarget, false⟩

/-- The statement that a switch is known by. -/
def switchBreakable (head : BlockId) (join : Option BlockId) : Breakable :=
  ⟨s!"switch{head}", none, join, none, false⟩

/-- The labels in front of a loop. -/
def loopLabels (l : Loop) : List Stmt :=
  labelOf l.entry :: if l.init.isSome then [labelOf l.header] else []

/-- The condition of an `if`, and where its arms start. -/
def armsOf (t : Test) (join : Option BlockId) : Expr × BlockId × BlockId :=
  if join = some t.fallthrough then (t.condition, t.taken, t.fallthrough)
  else (t.condition.negate, t.fallthrough, t.taken)

/-- An `if` from its arms. -/
def ifOf (condition : Expr) (thenBody elseBody : List Stmt) : Stmt :=
  if (codeOf thenBody).isEmpty && !(codeOf elseBody).isEmpty then
    .ifElse condition.negate elseBody thenBody
  else .ifElse condition thenBody elseBody

/-- The `finally` part that a handler is, or the catch clause that it is instead. -/
def finallyOf (body : List Stmt) : List CatchClause × Option (List Stmt) :=
  match finallyCode? body with
  | some code => ([], some code)
  | none => ([⟨[], (takeCatchVar body).1, (takeCatchVar body).2⟩], none)

/-- The progress when the values on the stack have been dropped. -/
def dropped (head : BlockId) (sim : SimulatedBlock) (p : Progress) : Progress :=
  if sim.exitStack.isEmpty then p
  else p.warned [st.ambiguity
    s!"{sim.exitStack.length} value(s) live across the branch at block {head} were dropped"]

/-- The runs of structuring, with notes of what they write. -/
inductive Runs : Work → Progress → Progress → List Note → Prop
  -- lists
  | done {p : Progress} {out : List Stmt} {stops : List BlockId} :
      Runs (.list out none stops out) p p []
  | again {p : Progress} {out : List Stmt} {id : BlockId} {stack : List Expr} {stops : List BlockId}
      (hv : id ∈ p.visited) :
      Runs (.list out (some (id, stack)) stops (out ++ [.gotoLabel (blockLabel id)])) p
        (st.residual id p) []
  | step {p q r : Progress} {out : List Stmt} {id : BlockId} {stack : List Expr}
      {stops : List BlockId} {reached : Partial} {result : List Stmt} {ns₁ ns₂ : List Note}
      (hv : id ∉ p.visited) (hfirst : Runs (.element out id stack stops reached) p q ns₁)
      (hrest : Runs (.list reached.1 reached.2 stops result) q r ns₂) :
      Runs (.list out (some (id, stack)) stops result) p r (ns₁ ++ ns₂)
  | branch {p q r : Progress} {target : BlockId} {stops : List BlockId} {jump : List Stmt}
      {next : Option BlockId} {result : List Stmt} {ns₁ ns₂ : List Note}
      (hgo : st.Goes p stops (some target) jump next q ns₁)
      (hrest : Runs (.list jump (next.map (·, [])) stops result) q r ns₂) :
      Runs (.branch target stops result) p r (ns₁ ++ ns₂)
  -- what stands at a block
  | missing {p : Progress} {out : List Stmt} {id : BlockId} {stack : List Expr} {stops : List BlockId}
      (ht : st.pendingTry? p id = none) (hl : st.pendingLoop? p id = none)
      (hb : st.graph.block? id = none) : Runs (.element out id stack stops (out, none)) p p []
  | run {p q : Progress} {out : List Stmt} {id : BlockId} {stack : List Expr} {stops : List BlockId}
      {b : Block} {result : Partial} {ns : List Note} (ht : st.pendingTry? p id = none)
      (hl : st.pendingLoop? p id = none) (hb : st.graph.block? id = some b)
      (hrest : Runs (.block (out ++ labelOf id :: (b.simulate st.ctx stack).statements.map .simple) b
        (b.simulate st.ctx stack) stops result) (st.ran b stack p) q ns) :
      Runs (.element out id stack stops result) p q ns
  | loop {p q r : Progress} {out : List Stmt} {id : BlockId} {stack : List Expr} {stops : List BlockId}
      {l : Loop} {stmt : Stmt} {jump : List Stmt} {next : Option BlockId} {ns₁ ns₂ : List Note}
      (ht : st.pendingTry? p id = none) (hl : st.pendingLoop? p id = some l)
      (hbody : Runs (.loop l stmt) ((p.started l.header).entered (loopBreakable l)) q ns₁)
      (hgo : st.Goes q.left stops l.exit jump next r ns₂) :
      Runs (.element out id stack stops (out ++ loopLabels l ++
        [labelIf (q.breakables.head?.any (·.labelUsed)) (loopBreakable l).label stmt] ++ jump,
        next.map (·, []))) p r (ns₁ ++ .enclosing (loopBreakable l) stmt :: ns₂)
  | tryCatch {p q₁ q₂ q₃ r : Progress} {out : List Stmt} {id : BlockId} {stack : List Expr}
      {stops : List BlockId} {i : Nat} {region : TryRegion} {body : List Stmt}
      {clauses : List CatchClause} {last : List CatchClause × Option (List Stmt)} {jump : List Stmt}
      {next : Option BlockId} {ns₁ ns₂ ns₃ ns₄ : List Note} (hi : st.pendingTry? p id = some i)
      (hr : st.regions[i]? = some region)
      (hbody : Runs (.list [] (some (region.start, []))
        (region.handlers ++ innerStops p (st.continuation? region) stops) body) (p.tried i) q₁ ns₁)
      (hcatches : Runs (.catches (region.handlers ++ innerStops p (st.continuation? region) stops)
        region.catches clauses) q₁ q₂ ns₂)
      (hfinal : Runs (.final (region.handlers ++ innerStops p (st.continuation? region) stops)
        region.finally? last) q₂ q₃ ns₃)
      (hgo : st.Goes q₃ stops (st.continuation? region) jump next r ns₄) :
      Runs (.element out id stack stops (st.tryStatement out body (clauses ++ last.1) last.2 ++ jump,
        next.map (·, []))) p r (ns₁ ++ ns₂ ++ ns₃ ++ ns₄)
  -- what follows the statements of a block
  | leaves {p : Progress} {out : List Stmt} {b : Block} {sim : SimulatedBlock} {stops : List BlockId}
      (hb : b.terminator = .return ∨ b.terminator = .throw) :
      Runs (.block out b sim stops (out, none)) p p []
  | goes {p q : Progress} {out : List Stmt} {b : Block} {sim : SimulatedBlock} {stops : List BlockId}
      {target : BlockId} {jump : List Stmt} {next : Option BlockId} {ns : List Note}
      (hb : b.terminator = .fallThrough target ∨ b.terminator = .goto target)
      (hgo : st.Goes p stops (some target) jump next q ns) :
      Runs (.block out b sim stops (out ++ jump, next.map (·, sim.exitStack))) p q ns
  | value {p q r : Progress} {out : List Stmt} {b : Block} {sim : SimulatedBlock}
      {stops : List BlockId} {k : BranchCondition} {ifTrue ifFalse join : BlockId} {t : Test}
      {thenValue elseValue : Expr} {jump : List Stmt} {next : Option BlockId} {ns : List Note}
      (hb : b.terminator = .branch k ifTrue ifFalse)
      (hm : st.Merges p [b.id] (testOf sim ifTrue ifFalse) t q)
      (hv : st.conditionalValue? q t = some (thenValue, elseValue, join))
      (hgo : st.Goes (q.rendered [t.fallthrough, t.taken]) stops (some join) jump next r ns) :
      Runs (.block out b sim stops (out ++ jump, next.map
        (·, sim.exitStack ++ [conditional t.condition thenValue elseValue]))) p r ns
  | test {p q r : Progress} {out : List Stmt} {b : Block} {sim : SimulatedBlock}
      {stops : List BlockId} {k : BranchCondition} {ifTrue ifFalse : BlockId} {t : Test}
      {result : Partial} {ns : List Note} (hb : b.terminator = .branch k ifTrue ifFalse)
      (hm : st.Merges p [b.id] (testOf sim ifTrue ifFalse) t q)
      (hv : st.conditionalValue? q t = none)
      (hrest : Runs (.ifElse out b.id t stops result) (st.dropped b.id sim q) r ns) :
      Runs (.block out b sim stops result) p r ns
  | switch {p q r : Progress} {out : List Stmt} {b : Block} {sim : SimulatedBlock}
      {stops : List BlockId} {default : BlockId} {cases : List (Int32 × BlockId)}
      {arms : List SwitchCase} {jump : List Stmt} {next : Option BlockId} {ns₁ ns₂ : List Note}
      (hb : b.terminator = .switch default cases)
      (harms : Runs (.arms (st.postDominator? p b.id) stops
        (switchArms default cases (st.postDominator? p b.id)) arms)
        (p.entered (switchBreakable b.id (st.postDominator? p b.id))) q ns₁)
      (hgo : st.Goes q.left stops (st.postDominator? p b.id) jump next r ns₂) :
      Runs (.block out b sim stops (out ++ [labelIf (q.breakables.head?.any (·.labelUsed))
        (switchBreakable b.id (st.postDominator? p b.id)).label
        (.switch (sim.switchKey.getD (absent "switch key")) arms)] ++ jump, next.map (·, []))) p r
        (ns₁ ++ .enclosing (switchBreakable b.id (st.postDominator? p b.id))
          (.switch (sim.switchKey.getD (absent "switch key")) arms) :: ns₂)
  | jsr {p q : Progress} {out : List Stmt} {b : Block} {sim : SimulatedBlock} {stops : List BlockId}
      {target returnTo : BlockId} {jump : List Stmt} {next : Option BlockId} {ns : List Note}
      (hb : b.terminator = .jsr target returnTo)
      (hgo : st.Goes
        (p.warned [st.ambiguity s!"subroutine call at block {b.id} kept as a comment"]) stops
        (some returnTo) jump next q ns) :
      Runs (.block out b sim stops (out ++ [.comment s!"jsr L{target}"] ++ jump, next.map (·, [])))
        p q ns
  | ret {p : Progress} {out : List Stmt} {b : Block} {sim : SimulatedBlock} {stops : List BlockId}
      (hb : b.terminator = .ret) :
      Runs (.block out b sim stops (out ++ [.comment "ret"], none)) p
        (p.warned [st.ambiguity s!"subroutine return at block {b.id} kept as a comment"]) []
  | ifElse {p q₁ q₂ r : Progress} {out : List Stmt} {head : BlockId} {t : Test} {stops : List BlockId}
      {join : Option BlockId} {thenBody elseBody : List Stmt} {jump : List Stmt}
      {next : Option BlockId} {ns₁ ns₂ ns₃ : List Note}
      (hjoin : st.ifJoin? p head t.taken t.fallthrough stops = join)
      (hthen : Runs (.branch (armsOf t join).2.1 (innerStops p join stops) thenBody) p q₁ ns₁)
      (helse : Runs (.branch (armsOf t join).2.2 (innerStops p join stops) elseBody) q₁ q₂ ns₂)
      (hgo : st.Goes q₂ stops join jump next r ns₃) :
      Runs (.ifElse out head t stops
        (out ++ [ifOf (armsOf t join).1 thenBody elseBody] ++ jump, next.map (·, []))) p r
        (ns₁ ++ ns₂ ++ ns₃)
  -- the arms of a switch
  | noArms {p : Progress} {join : Option BlockId} {stops : List BlockId} :
      Runs (.arms join stops [] []) p p []
  | arm {p q r : Progress} {join : Option BlockId} {stops : List BlockId} {target : BlockId}
      {labels : List (Option Int32)} {rest : List (BlockId × List (Option Int32))} {body : List Stmt}
      {others : List SwitchCase} {ns₁ ns₂ : List Note}
      (hbody : Runs (.branch target (innerStops p
        (if (rest.head?.map (·.1)).isSome then rest.head?.map (·.1) else join) stops) body) p q ns₁)
      (hrest : Runs (.arms join stops rest others) q r ns₂) :
      Runs (.arms join stops ((target, labels) :: rest)
        (⟨labels, body, (rest.head?.map (·.1)).isSome && !(codeOf body).getLast?.any Stmt.isJump⟩ ::
          others)) p r (ns₁ ++ ns₂)
  -- loops
  | whileLoop {p q r : Progress} {l : Loop} {condition : Expr} {entry : BlockId} {body : List Stmt}
      {ns : List Note} (hk : l.kind = .while)
      (hc : (st.loopCondition l).run p = some ((condition, entry), q))
      (hbody : Runs (.branch entry [l.header] body) q r ns) :
      Runs (.loop l (.whileLoop condition body)) p r ns
  | forLoop {p q₁ q₂ q₃ r : Progress} {l : Loop} {init update body : List Stmt} {condition : Expr}
      {entry : BlockId} {ns : List Note} (hk : l.kind = .for)
      (hi : (st.headBlock l.init).run p = some (init, q₁))
      (hc : (st.loopCondition l).run q₁ = some ((condition, entry), q₂))
      (hbody : Runs (.branch entry [l.continueTarget] body) q₂ q₃ ns)
      (hu : (st.headBlock l.update).run q₃ = some (update, r)) :
      Runs (.loop l (.forLoop init condition update body)) p r ns
  | forEach {p q₁ q₂ q₃ q₄ r : Progress} {l : Loop} {init update body : List Stmt} {condition : Expr}
      {entry : BlockId} {stmt : Stmt} {ns : List Note} (hk : l.kind.isForEach = true)
      (hi : (st.headBlock l.init).run p = some (init, q₁))
      (hc : (st.loopCondition l).run q₁ = some ((condition, entry), q₂))
      (hbody : Runs (.branch entry [l.continueTarget] body) q₂ q₃ ns)
      (hu : (st.headBlock l.update).run q₃ = some (update, q₄))
      (hs : (st.forEachLoop l init condition update body).run q₄ = some (stmt, r)) :
      Runs (.loop l stmt) p r ns
  | doWhileSelf {p q : Progress} {l : Loop} {body : List Stmt} {condition : Expr}
      (hk : l.kind = .doWhile) (hself : l.latch = l.header)
      (hc : (st.latchCondition l []).run p = some ((body, condition), q)) :
      Runs (.loop l (.doWhile body condition)) p q []
  | doWhile {p q r : Progress} {l : Loop} {first body : List Stmt} {condition : Expr} {ns : List Note}
      (hk : l.kind = .doWhile) (hself : l.latch ≠ l.header)
      (hbody : Runs (.list [] (some (l.header, [])) [l.latch] first) p q ns)
      (hc : (st.latchCondition l first).run q = some ((body, condition), r)) :
      Runs (.loop l (.doWhile body condition)) p r ns
  | endless {p q : Progress} {l : Loop} {body : List Stmt} {ns : List Note}
      (hk : l.kind = .endless ∨ l.kind = .unstructured)
      (hbody : Runs (.list [] (some (l.header, [])) [l.header] body) p q ns) :
      Runs (.loop l (.whileLoop (.literal none (.boolean true)) body)) p q ns
  -- try statements
  | noCatches {p : Progress} {inner : List BlockId} : Runs (.catches inner [] []) p p []
  | skipCatch {p q : Progress} {inner : List BlockId} {handler : BlockId} {classes : List String}
      {rest : List (BlockId × List String)} {others : List CatchClause} {ns : List Note}
      (hv : handler ∈ p.visited) (hrest : Runs (.catches inner rest others) p q ns) :
      Runs (.catches inner ((handler, classes) :: rest) others) p q ns
  | catchClause {p q r : Progress} {inner : List BlockId} {handler : BlockId} {classes : List String}
      {rest : List (BlockId × List String)} {body : List Stmt} {others : List CatchClause}
      {ns₁ ns₂ : List Note} (hv : handler ∉ p.visited)
      (hbody : Runs (.list [] (some (handler, [caughtBy classes])) inner body) p q ns₁)
      (hrest : Runs (.catches inner rest others) q r ns₂) :
      Runs (.catches inner ((handler, classes) :: rest)
        (⟨classes, (takeCatchVar body).1, (takeCatchVar body).2⟩ :: others)) p r (ns₁ ++ ns₂)
  | noFinally {p : Progress} {inner : List BlockId} {handler : Option BlockId}
      (hv : ∀ h ∈ handler, h ∈ p.visited) : Runs (.final inner handler ([], none)) p p []
  | finally {p q : Progress} {inner : List BlockId} {handler : BlockId} {body : List Stmt}
      {ns : List Note} (hv : handler ∉ p.visited)
      (hbody : Runs (.list [] (some (handler, [.caught none none])) inner body) p q ns) :
      Runs (.final inner (some handler) (finallyOf body)) p q ns

variable {st} {p q : Progress} {ns : List Note}

/-- To drop values takes nothing back. -/
theorem extends_dropped (head : BlockId) (sim : SimulatedBlock) : p.Extends (st.dropped head sim p) := by
  unfold dropped
  split
  · exact .refl p
  · exact p.extends_warned _

/-- A block in the head of a loop takes nothing back. -/
theorem extends_of_run_headBlock {id : Option BlockId} {stmts : List Stmt}
    (h : (st.headBlock id).run p = some (stmts, q)) : p.Extends q := by
  obtain ⟨stmts', q', hrun, hext⟩ := st.exists_run_headBlock (p := p) id
  cases h.symm.trans hrun
  exact hext

/-- Nor does the condition of a loop. -/
theorem extends_of_run_loopCondition {l : Loop} {c : Expr × BlockId}
    (h : (st.loopCondition l).run p = some (c, q)) : p.Extends q := by
  obtain ⟨c', q', hrun, hext⟩ := st.exists_run_loopCondition (p := p) l
  cases h.symm.trans hrun
  exact hext

/-- Nor does the condition behind a body. -/
theorem extends_of_run_latchCondition {l : Loop} {body : List Stmt} {r : List Stmt × Expr}
    (h : (st.latchCondition l body).run p = some (r, q)) : p.Extends q := by
  obtain ⟨r', q', hrun, hext⟩ := st.exists_run_latchCondition (p := p) l body
  cases h.symm.trans hrun
  exact hext

/-- Nor does a loop through elements. -/
theorem extends_of_run_forEachLoop {l : Loop} {init update body : List Stmt} {condition : Expr}
    {stmt : Stmt} (h : (st.forEachLoop l init condition update body).run p = some (stmt, q)) :
    p.Extends q := by
  obtain ⟨stmt', ws, hrun⟩ := st.exists_run_forEachLoop (p := p) l init condition update body
  cases h.symm.trans hrun
  exact p.extends_warned ws

/-- What has been done when a run starts is still done when it ends. -/
theorem Runs.extends {w : Work} (h : st.Runs w p q ns) : p.Extends q := by
  induction h with
  | done | missing | leaves | noArms | noCatches | noFinally => exact .refl _
  | again => exact st.extends_residual _
  | step _ _ _ ihfirst ihrest => exact ihfirst.trans ihrest
  | branch hgo _ ih => exact hgo.extends.trans ih
  | run _ _ _ _ ih => exact (st.extends_ran _ _).trans ih
  | loop _ _ _ hgo ih =>
    exact (Progress.extends_started _ _).trans (ih.left.trans hgo.extends)
  | tryCatch _ _ _ _ _ hgo ihbody ihcatches ihfinal =>
    exact (Progress.extends_tried _ _).trans
      (ihbody.trans (ihcatches.trans (ihfinal.trans hgo.extends)))
  | goes _ hgo => exact hgo.extends
  | value _ hm _ hgo =>
    exact hm.extends.trans ((Progress.extends_rendered _ _).trans hgo.extends)
  | test _ hm _ _ ih => exact hm.extends.trans ((extends_dropped _ _).trans ih)
  | switch _ _ hgo ih => exact ih.left.trans hgo.extends
  | jsr _ hgo => exact (Progress.extends_warned _ _).trans hgo.extends
  | ret => exact Progress.extends_warned _ _
  | ifElse _ _ _ hgo ihthen ihelse => exact ihthen.trans (ihelse.trans hgo.extends)
  | arm _ _ ihbody ihrest => exact ihbody.trans ihrest
  | whileLoop _ hc _ ih => exact (extends_of_run_loopCondition hc).trans ih
  | forLoop _ hi hc _ hu ih =>
    exact (extends_of_run_headBlock hi).trans
      ((extends_of_run_loopCondition hc).trans (ih.trans (extends_of_run_headBlock hu)))
  | forEach _ hi hc _ hu hs ih =>
    exact (extends_of_run_headBlock hi).trans ((extends_of_run_loopCondition hc).trans
      (ih.trans ((extends_of_run_headBlock hu).trans (extends_of_run_forEachLoop hs))))
  | doWhileSelf _ _ hc => exact extends_of_run_latchCondition hc
  | doWhile _ _ _ hc ih => exact ih.trans (extends_of_run_latchCondition hc)
  | endless _ _ ih => exact ih
  | skipCatch _ _ ih => exact ih
  | catchClause _ _ _ ihbody ihrest => exact ihbody.trans ihrest
  | «finally» _ _ ih => exact ih

/-! ## Every run has a result -/

variable (st)

/-- What is left to do: blocks that have not been rendered, and loops and try statements that have not
been started. -/
def rest (p : Progress) : Nat :=
  (st.unvisited p).length + (st.loops.filter fun l => !p.loopsDone.contains l.header).length
    + ((List.range st.regions.length).filter fun i => !p.triesDone.contains i).length

variable {st}

/-- Progress leaves no more to do. -/
theorem rest_le (st : Structurer) (h : p.Extends q) : st.rest q ≤ st.rest p := by
  have hblocks := st.length_unvisited_le h.visited.subset
  have hloops :=
    (@filter_sublist_of_subset _ _ _ _ Loop.header _ _ h.loopsDone.subset st.loops).length_le
  have htries := (@filter_sublist_of_subset _ _ _ _ (fun i => i) _ _ h.triesDone.subset
    (List.range st.regions.length)).length_le
  unfold rest
  omega

/-- Rendering a block uses it up. -/
theorem rest_ran_lt {id : BlockId} {b : Block} (hb : st.graph.block? id = some b)
    (hv : id ∉ p.visited) (stack : List Expr) : st.rest (st.ran b stack p) < st.rest p := by
  have hid : b.id = id := FlowGraph.id_of_block? hb
  have hlt : (st.unvisited (st.ran b stack p)).length < (st.unvisited p).length :=
    st.length_unvisited_lt (st.extends_ran b stack).visited.subset
      (FlowGraph.mem_ids_iff.2 ⟨b, hb⟩) hv (by simp [hid])
  unfold rest
  have : (st.ran b stack p).loopsDone = p.loopsDone := rfl
  have : (st.ran b stack p).triesDone = p.triesDone := rfl
  simp_all

/-- Starting a loop uses it up. -/
theorem rest_started_lt {id : BlockId} {l : Loop} (hl : st.pendingLoop? p id = some l) (b : Breakable) :
    st.rest ((p.started l.header).entered b) < st.rest p := by
  obtain ⟨hmem, hdone⟩ := (Option.filter_eq_some_iff).1 hl
  have hlt := @length_filter_lt _ _ _ _ Loop.header p.loopsDone (l.header :: p.loopsDone) st.loops l
    (List.subset_cons_self _ _) (List.mem_of_find?_eq_some hmem) (by simpa using hdone)
    List.mem_cons_self
  have hblocks : st.unvisited ((p.started l.header).entered b) = st.unvisited p := rfl
  have htries : ((p.started l.header).entered b).triesDone = p.triesDone := rfl
  have hloops : ((p.started l.header).entered b).loopsDone = l.header :: p.loopsDone := rfl
  unfold rest
  rw [hblocks, htries, hloops]
  omega

/-- A pending try statement has not been started, and starts at the block. -/
theorem of_pendingTry? {id : BlockId} {i : Nat} (h : st.pendingTry? p id = some i) :
    i ∉ p.triesDone ∧ ∃ r, st.regions[i]? = some r ∧ r.start = id := by
  simp only [pendingTry?, Option.bind_eq_bind, Option.bind_eq_some_iff] at h
  obtain ⟨⟨r, j⟩, hfind, h⟩ := h
  have hj : j = i := by
    split at h
    · obtain ⟨first, -, h⟩ := Option.bind_eq_some_iff.1 h
      split at h
      · cases h
      · exact Option.some.inj h
    · exact Option.some.inj h
  subst hj
  have hmem := List.mem_of_find?_eq_some hfind
  have hcond := List.find?_some hfind
  simp only [Bool.and_eq_true, decide_eq_true_eq, Bool.not_eq_true', List.contains_eq_mem,
    decide_eq_false_iff_not] at hcond
  exact ⟨hcond.2, r, List.mk_mem_zipIdx_iff_getElem?.1 hmem, hcond.1⟩

/-- Starting a try statement uses it up. -/
theorem rest_tried_lt {id : BlockId} {i : Nat} (h : st.pendingTry? p id = some i) :
    st.rest (p.tried i) < st.rest p := by
  obtain ⟨hnot, r, hr, -⟩ := of_pendingTry? h
  have hmem : i ∈ List.range st.regions.length :=
    List.mem_range.2 (List.getElem?_eq_some_iff.1 hr).1
  have hlt := @length_filter_lt _ _ _ _ (fun i => i) p.triesDone (i :: p.triesDone)
    (List.range st.regions.length) i (List.subset_cons_self _ _) hmem hnot List.mem_cons_self
  have hblocks : st.unvisited (p.tried i) = st.unvisited p := rfl
  have htries : (p.tried i).triesDone = i :: p.triesDone := rfl
  have hloops : (p.tried i).loopsDone = p.loopsDone := rfl
  unfold rest
  rw [hblocks, htries, hloops]
  omega

section Parts

variable {go : ListWriter} {n : Nat}

/-- Writing lists has a result as long as there is less left to do than `n`. -/
def Writes (st : Structurer) (go : ListWriter) (n : Nat) : Prop :=
  ∀ out next stops p, st.rest p < n →
    ∃ r q ns, (go out next stops).run p = some (r, q) ∧ st.Runs (.list out next stops r) p q ns

/-- An arm has a run. -/
theorem exists_runs_branchTo (hgo : st.Writes go n) (hp : st.rest p < n) (target : BlockId)
    (stops : List BlockId) : ∃ r q ns, (st.branchTo go target stops).run p = some (r, q) ∧
      st.Runs (.branch target stops r) p q ns := by
  obtain ⟨jump, next, q₁, ns, hfollow, hgoes⟩ := st.exists_goes_followFrom (p := p) [] target stops []
  have hq := st.rest_le hgoes.extends
  obtain ⟨r, q, ms, hrun, hlist⟩ := hgo jump (next.map (·, [])) stops q₁ (by omega)
  exact ⟨r, q, ns ++ ms, (run_bind hfollow).trans hrun, .branch hgoes hlist⟩

/-- A branch has a run. -/
theorem exists_runs_ifStatement (hgo : st.Writes go n) (hp : st.rest p < n) (out : List Stmt)
    (head : BlockId) (t : Test) (stops : List BlockId) :
    ∃ r q ns, (st.ifStatement go out head t stops).run p = some (r, q) ∧
      st.Runs (.ifElse out head t stops r) p q ns := by
  let join := st.ifJoin? p head t.taken t.fallthrough stops
  let inner := innerStops p join stops
  obtain ⟨thenBody, q₁, ns₁, hthen, hthenRuns⟩ :=
    exists_runs_branchTo hgo hp (armsOf t join).2.1 inner
  have hq₁ := st.rest_le hthenRuns.extends
  obtain ⟨elseBody, q₂, ns₂, helse, helseRuns⟩ :=
    exists_runs_branchTo hgo (show st.rest q₁ < n by omega) (armsOf t join).2.2 inner
  obtain ⟨jump, next, r, ns, hfollow, hgoes⟩ := st.exists_goes_followOption (p := q₂)
    (out ++ [ifOf (armsOf t join).1 thenBody elseBody]) join stops
  refine ⟨_, r, ns₁ ++ ns₂ ++ ns, ?_, .ifElse rfl hthenRuns helseRuns hgoes⟩
  unfold ifStatement
  rw [run_bind run_get, run_bind (run_nestedStops join stops)]
  exact (run_bind hthen).trans ((run_bind helse).trans hfollow)

/-- The arms of a switch have a run. -/
theorem exists_runs_switchArmsFrom (hgo : st.Writes go n) (join : Option BlockId)
    (stops : List BlockId) (arms : List (BlockId × List (Option Int32))) {p : Progress}
    (hp : st.rest p < n) : ∃ r q ns, (st.switchArmsFrom go join stops arms).run p = some (r, q) ∧
      st.Runs (.arms join stops arms r) p q ns := by
  induction arms generalizing p with
  | nil => exact ⟨[], p, [], rfl, .noArms⟩
  | cons arm rest ih =>
    obtain ⟨target, labels⟩ := arm
    let next := rest.head?.map (·.1)
    let inner := innerStops p (if next.isSome then next else join) stops
    obtain ⟨body, q₁, ns₁, hbody, hbodyRuns⟩ := exists_runs_branchTo hgo hp target inner
    have hq₁ := st.rest_le hbodyRuns.extends
    obtain ⟨others, q, ns₂, hrest, hrestRuns⟩ := @ih q₁ (by omega)
    refine ⟨_, q, ns₁ ++ ns₂, ?_, .arm hbodyRuns hrestRuns⟩
    unfold switchArmsFrom
    rw [run_bind (run_nestedStops (if next.isSome then next else join) stops), run_bind hbody,
      run_bind hrest]
    rfl

/-- A block that ends in a branch has a run. -/
theorem exists_runs_conditionalBlock (hgo : st.Writes go n) (hp : st.rest p < n) (out : List Stmt)
    {b : Block} {k : BranchCondition} {ifTrue ifFalse : BlockId}
    (hb : b.terminator = .branch k ifTrue ifFalse) (sim : SimulatedBlock) (stops : List BlockId) :
    ∃ r q ns, (st.conditionalBlock go out b.id sim ifTrue ifFalse stops).run p = some (r, q) ∧
      st.Runs (.block out b sim stops r) p q ns := by
  -- each merge takes a block out of what is left, so there are no more merges than blocks
  have hsteps : (st.unvisited p).length < st.graph.blocks.length + 1 := by
    have hle : (st.unvisited p).length ≤ st.graph.ids.length := List.length_filter_le _ _
    rw [FlowGraph.ids, List.length_map] at hle
    omega
  obtain ⟨t, q, hmerge, hmerges⟩ := st.exists_merges [b.id] (testOf sim ifTrue ifFalse)
    hsteps
  have hq := st.rest_le hmerges.extends
  unfold testOf at hmerge
  unfold conditionalBlock
  dsimp only
  rw [run_bind hmerge, run_bind run_get]
  cases hv : st.conditionalValue? q t with
  -- both arms are values: the choice goes on the stack
  | some r =>
    obtain ⟨thenValue, elseValue, join⟩ := r
    dsimp only
    rw [run_bind (run_visit t.taken), run_bind (run_visit t.fallthrough)]
    obtain ⟨jump, next, r, ns, hfollow, hgoes⟩ := st.exists_goes_followFrom
      (p := q.rendered [t.fallthrough, t.taken]) out join stops
      (sim.exitStack ++ [conditional t.condition thenValue elseValue])
    exact ⟨_, r, ns, hfollow, .value hb hmerges hv hgoes⟩
  | none =>
    -- they are not: what is left on the stack is dropped with a warning
    dsimp only
    have hext : q.Extends (st.dropped b.id sim q) := extends_dropped b.id sim
    have hdrop := st.rest_le hext
    obtain ⟨result, r, ns, hif, hifRuns⟩ :=
      exists_runs_ifStatement hgo (show st.rest (st.dropped b.id sim q) < n by omega) out b.id t stops
    refine ⟨result, r, ns, ?_, .test hb hmerges hv hifRuns⟩
    unfold dropped at hif
    cases hempty : sim.exitStack.isEmpty with
    | true =>
      simp only [hempty, if_true] at hif
      simpa using hif
    | false =>
      simp only [hempty, Bool.false_eq_true, if_false] at hif
      simp only [Bool.not_false, if_true]
      rw [run_bind (st.run_warn _)]
      exact hif

/-- A block that ends in a switch has a run. -/
theorem exists_runs_switchBlock (hgo : st.Writes go n) (hp : st.rest p < n) (out : List Stmt)
    {b : Block} {default : BlockId} {cases : List (Int32 × BlockId)}
    (hb : b.terminator = .switch default cases) (sim : SimulatedBlock) (stops : List BlockId) :
    ∃ r q ns, (st.switchBlock go out b.id sim default cases stops).run p = some (r, q) ∧
      st.Runs (.block out b sim stops r) p q ns := by
  let join := st.postDominator? p b.id
  let breakable := switchBreakable b.id join
  have hentered : st.rest (p.entered breakable) = st.rest p := rfl
  obtain ⟨arms, q, ms, harms, harmsRuns⟩ := exists_runs_switchArmsFrom hgo join stops
    (switchArms default cases join) (show st.rest (p.entered breakable) < n by omega)
  obtain ⟨jump, next, r, ns, hfollow, hgoes⟩ := st.exists_goes_followOption (p := q.left)
    (out ++ [labelIf (q.breakables.head?.any (·.labelUsed)) breakable.label
      (.switch (sim.switchKey.getD (absent "switch key")) arms)]) join stops
  refine ⟨_, r, _, ?_, .switch hb harmsRuns hgoes⟩
  unfold switchBlock
  dsimp only
  rw [run_bind run_get]
  exact (run_bind (run_enter breakable)).trans
    ((run_bind harms).trans ((run_bind (run_leave _ _)).trans hfollow))

/-- What stands at a block that is neither the start of a loop nor that of a try statement. -/
theorem exists_runs_block (hgo : st.Writes go n) {id : BlockId} (hp : st.rest p ≤ n)
    (hv : id ∉ p.visited) (ht : st.pendingTry? p id = none) (hl : st.pendingLoop? p id = none)
    (out : List Stmt) (stack : List Expr) (stops : List BlockId) :
    ∃ r q ns, (st.block go out id stack stops).run p = some (r, q) ∧
      st.Runs (.element out id stack stops r) p q ns ∧ (st.rest q < n ∨ r.2 = none) := by
  unfold block
  cases hb : st.graph.block? id with
  | none => exact ⟨_, p, [], rfl, .missing ht hl hb, .inr rfl⟩
  | some b =>
    have hid : b.id = id := FlowGraph.id_of_block? hb
    have hlt : st.rest (st.ran b stack p) < n := Nat.lt_of_lt_of_le (rest_ran_lt hb hv stack) hp
    have hran : st.ran b stack p = (p.rendered [id]).warned
        (st.blockWarnings b (b.simulate st.ctx stack)) := by rw [ran, hid]
    -- the progress is only needed to be small in front of what follows the statements of the block
    suffices h : ∃ r q ns, _ ∧ st.Runs (.block (out ++ labelOf id ::
        (b.simulate st.ctx stack).statements.map .simple) b (b.simulate st.ctx stack) stops r)
        (st.ran b stack p) q ns by
      obtain ⟨r, q, ns, hrun, hruns⟩ := h
      refine ⟨r, q, ns, ?_, .run ht hl hb hruns,
        .inl (Nat.lt_of_le_of_lt (st.rest_le hruns.extends) hlt)⟩
      dsimp only
      rw [run_bind (run_visit id), run_bind (st.run_simulate b stack), ← hran]
      exact hrun
    cases hterm : b.terminator with
    | «return» => exact ⟨_, _, [], rfl, .leaves (.inl hterm)⟩
    | throw => exact ⟨_, _, [], rfl, .leaves (.inr hterm)⟩
    | fallThrough target =>
      obtain ⟨jump, next, q, ns, hfollow, hgoes⟩ := st.exists_goes_followFrom (p := st.ran b stack p) _
        target stops _
      exact ⟨_, q, ns, hfollow, .goes (.inl hterm) hgoes⟩
    | goto target =>
      obtain ⟨jump, next, q, ns, hfollow, hgoes⟩ := st.exists_goes_followFrom (p := st.ran b stack p) _
        target stops _
      exact ⟨_, q, ns, hfollow, .goes (.inr hterm) hgoes⟩
    | branch k ifTrue ifFalse =>
      exact hid ▸ exists_runs_conditionalBlock hgo hlt _ hterm _ stops
    | switch default cases =>
      exact hid ▸ exists_runs_switchBlock hgo hlt _ hterm _ stops
    | jsr target returnTo =>
      obtain ⟨jump, next, q, ns, hfollow, hgoes⟩ := st.exists_goes_followFrom _ returnTo stops []
      exact ⟨_, q, ns, (run_bind (st.run_warn _)).trans hfollow, .jsr hterm (hid.symm ▸ hgoes)⟩
    | ret => exact ⟨_, _, [], (run_bind (st.run_warn _)).trans (hid ▸ rfl), .ret hterm⟩

/-- The statement of a loop has a run. -/
theorem exists_runs_loopStatement (hgo : st.Writes go n) (hp : st.rest p < n) (l : Loop) :
    ∃ stmt q ns, (st.loopStatement go l).run p = some (stmt, q) ∧ st.Runs (.loop l stmt) p q ns := by
  -- the loops with an initialisation and an update start alike
  have hparts : ∃ init q₁ c q₂ body q₃ update q₄ ns, (st.headBlock l.init).run p = some (init, q₁) ∧
      (st.loopCondition l).run q₁ = some (c, q₂) ∧
      (st.branchTo go c.2 [l.continueTarget]).run q₂ = some (body, q₃) ∧
      st.Runs (.branch c.2 [l.continueTarget] body) q₂ q₃ ns ∧
      (st.headBlock l.update).run q₃ = some (update, q₄) := by
    obtain ⟨init, q₁, hi, hext₁⟩ := st.exists_run_headBlock (p := p) l.init
    obtain ⟨c, q₂, hc, hext₂⟩ := st.exists_run_loopCondition (p := q₁) l
    have hq₂ := st.rest_le (hext₁.trans hext₂)
    obtain ⟨body, q₃, ns, hbody, hruns⟩ :=
      exists_runs_branchTo hgo (show st.rest q₂ < n by omega) c.2 [l.continueTarget]
    obtain ⟨update, q₄, hu, -⟩ := st.exists_run_headBlock (p := q₃) l.update
    exact ⟨init, q₁, c, q₂, body, q₃, update, q₄, ns, hi, hc, hbody, hruns, hu⟩
  unfold loopStatement
  cases hk : l.kind with
  | «while» =>
    obtain ⟨⟨condition, entry⟩, q, hc, hext⟩ := st.exists_run_loopCondition (p := p) l
    have hq := st.rest_le hext
    obtain ⟨body, r, ns, hbody, hruns⟩ :=
      exists_runs_branchTo hgo (show st.rest q < n by omega) entry [l.header]
    exact ⟨_, r, ns, (run_bind hc).trans ((run_bind hbody).trans rfl), .whileLoop hk hc hruns⟩
  | «for» =>
    obtain ⟨init, q₁, ⟨condition, entry⟩, q₂, body, q₃, update, q₄, ns, hi, hc, hbody, hruns, hu⟩ :=
      hparts
    exact ⟨_, q₄, ns, (run_bind hi).trans ((run_bind hc).trans ((run_bind hbody).trans
      ((run_bind hu).trans rfl))), .forLoop hk hi hc hruns hu⟩
  | forEachArray | forEachIterator =>
    obtain ⟨init, q₁, ⟨condition, entry⟩, q₂, body, q₃, update, q₄, ns, hi, hc, hbody, hruns, hu⟩ :=
      hparts
    obtain ⟨stmt, ws, hs⟩ := st.exists_run_forEachLoop (p := q₄) l init condition update body
    exact ⟨stmt, _, ns, (run_bind hi).trans ((run_bind hc).trans ((run_bind hbody).trans
      ((run_bind hu).trans hs))), .forEach (hk ▸ rfl) hi hc hruns hu hs⟩
  | doWhile =>
    by_cases hself : l.latch = l.header
    · obtain ⟨⟨body, condition⟩, q, hc, -⟩ := st.exists_run_latchCondition (p := p) l []
      refine ⟨_, q, [], ?_, .doWhileSelf hk hself hc⟩
      dsimp only
      rw [if_pos hself, pure_bind, run_bind hc]
      rfl
    · obtain ⟨first, q, ns, hbody, hruns⟩ := hgo [] (some (l.header, [])) [l.latch] p hp
      obtain ⟨⟨body, condition⟩, r, hc, -⟩ := st.exists_run_latchCondition (p := q) l first
      refine ⟨_, r, ns, ?_, .doWhile hk hself hruns hc⟩
      dsimp only
      rw [if_neg hself, run_bind hbody, run_bind hc]
      rfl
  | endless | unstructured =>
    obtain ⟨body, q, ns, hbody, hruns⟩ := hgo [] (some (l.header, [])) [l.header] p hp
    exact ⟨_, q, ns, (run_bind hbody).trans rfl, .endless (by simp [hk]) hruns⟩

/-- A pending loop has a run, and behind it there is less to do. -/
theorem exists_runs_loop (hgo : st.Writes go n) {id : BlockId} (hp : st.rest p ≤ n)
    (ht : st.pendingTry? p id = none) {l : Loop} (hl : st.pendingLoop? p id = some l)
    (out : List Stmt) (stack : List Expr) (stops : List BlockId) :
    ∃ r q ns, (st.loop go out l stops).run p = some (r, q) ∧
      st.Runs (.element out id stack stops r) p q ns ∧ st.rest q < n := by
  have hlt := Nat.lt_of_lt_of_le (rest_started_lt hl (loopBreakable l)) hp
  obtain ⟨stmt, q, ms, hstmt, hruns⟩ := exists_runs_loopStatement hgo hlt l
  obtain ⟨jump, next, r, ns, hfollow, hgoes⟩ := st.exists_goes_followOption (p := q.left)
    (out ++ loopLabels l ++ [labelIf (q.breakables.head?.any (·.labelUsed)) (loopBreakable l).label stmt])
    l.exit stops
  refine ⟨_, r, _, ?_, .loop ht hl hruns hgoes, ?_⟩
  · unfold loop
    exact (run_bind (p := p) rfl).trans ((run_bind (run_enter (loopBreakable l))).trans
      ((run_bind hstmt).trans ((run_bind (run_leave _ _)).trans hfollow)))
  · have hext := hgoes.extends
    have := st.rest_le hruns.extends
    have hleft : st.rest q.left = st.rest q := rfl
    have := st.rest_le hext
    omega

/-- Catch clauses have a run. -/
theorem exists_runs_catchClauses (hgo : st.Writes go n) (inner : List BlockId)
    (handlers : List (BlockId × List String)) {p : Progress} (hp : st.rest p < n) :
    ∃ r q ns, (catchClauses go inner handlers).run p = some (r, q) ∧
      st.Runs (.catches inner handlers r) p q ns := by
  induction handlers generalizing p with
  | nil => exact ⟨[], p, [], rfl, .noCatches⟩
  -- on the clauses: a handler that has been rendered is left out
  | cons h rest ih =>
    obtain ⟨handler, classes⟩ := h
    unfold catchClauses
    rw [run_bind run_get]
    by_cases hv : handler ∈ p.visited
    · obtain ⟨others, q, ns, hrest, hruns⟩ := ih hp
      exact ⟨others, q, ns, by rw [if_pos (by simpa using hv)]; exact hrest, .skipCatch hv hruns⟩
    · obtain ⟨body, q₁, ns₁, hbody, hbodyRuns⟩ := hgo [] (some (handler, [caughtBy classes])) inner p hp
      have hq₁ := st.rest_le hbodyRuns.extends
      obtain ⟨others, q, ns₂, hrest, hruns⟩ := @ih q₁ (by omega)
      refine ⟨_, q, ns₁ ++ ns₂, ?_, .catchClause hv hbodyRuns hruns⟩
      rw [if_neg (by simpa using hv), run_bind hbody]
      dsimp only
      rw [run_bind hrest]
      rfl

/-- A `finally` part has a run. -/
theorem exists_runs_finallyPart (hgo : st.Writes go n) (hp : st.rest p < n) (inner : List BlockId)
    (handler : Option BlockId) : ∃ r q ns, (finallyPart go inner handler).run p = some (r, q) ∧
      st.Runs (.final inner handler r) p q ns := by
  unfold finallyPart
  rw [run_bind run_get]
  cases hfilter : handler.filter (!p.visited.contains ·) with
  | none =>
    refine ⟨_, p, [], rfl, .noFinally fun h hh => ?_⟩
    simpa [Option.mem_def.1 hh] using hfilter
  | some handler =>
    obtain ⟨rfl, hv⟩ := Option.filter_eq_some_iff.1 hfilter
    obtain ⟨body, q, ns, hbody, hruns⟩ := hgo [] (some (handler, [.caught none none])) inner p hp
    refine ⟨_, q, ns, ?_, .finally (by simpa using hv) hruns⟩
    dsimp only
    rw [run_bind hbody]
    unfold finallyOf
    cases finallyCode? body <;> rfl

/-- A pending try statement has a run, and behind it there is less to do. -/
theorem exists_runs_tryRegion (hgo : st.Writes go n) {id : BlockId} (hp : st.rest p ≤ n) {i : Nat}
    (hi : st.pendingTry? p id = some i) (out : List Stmt) (stack : List Expr) (stops : List BlockId) :
    ∃ r q ns, (st.tryRegion go out i stops).run p = some (r, q) ∧
      st.Runs (.element out id stack stops r) p q ns ∧ st.rest q < n := by
  have hlt := Nat.lt_of_lt_of_le (rest_tried_lt hi) hp
  obtain ⟨-, region, hr, -⟩ := of_pendingTry? hi
  let join := st.continuation? region
  let inner := region.handlers ++ innerStops p join stops
  -- marking the region as done makes what is left smaller, which pays for all of its parts
  obtain ⟨body, q₁, ns₁, hbody, hbodyRuns⟩ := hgo [] (some (region.start, [])) inner (p.tried i) hlt
  have hq₁ := st.rest_le hbodyRuns.extends
  obtain ⟨clauses, q₂, ns₂, hcatches, hcatchesRuns⟩ :=
    exists_runs_catchClauses hgo inner region.catches (show st.rest q₁ < n by omega)
  have hq₂ := st.rest_le hcatchesRuns.extends
  obtain ⟨last, q₃, ns₃, hfinal, hfinalRuns⟩ :=
    exists_runs_finallyPart hgo (show st.rest q₂ < n by omega) inner region.finally?
  have hq₃ := st.rest_le hfinalRuns.extends
  obtain ⟨jump, next, r, ns, hfollow, hgoes⟩ := st.exists_goes_followOption (p := q₃)
    (st.tryStatement out body (clauses ++ last.1) last.2) join stops
  refine ⟨_, r, ns₁ ++ ns₂ ++ ns₃ ++ ns, ?_, .tryCatch hi hr hbodyRuns hcatchesRuns hfinalRuns hgoes, ?_⟩
  · unfold tryRegion
    have hstart : (modify fun p : Progress => { p with triesDone := i :: p.triesDone } :
        Structure PUnit).run p = some ((), p.tried i) := rfl
    rw [run_bind hstart, hr]
    exact (run_bind (run_nestedStops join stops)).trans ((run_bind hbody).trans
      ((run_bind hcatches).trans ((run_bind hfinal).trans hfollow)))
  · have := st.rest_le hgoes.extends
    omega

end Parts

/-- Writing the rest of a list goes no deeper than there is something left to do. -/
theorem writes_sequence (depth : Nat) : st.Writes (st.sequence depth) depth := by
  induction depth with
  | zero => exact fun _ _ _ _ hp => absurd hp (Nat.not_lt_zero _)
  | succ depth ih =>
    intro out next stops p hp
    cases next with
    | none => exact ⟨out, p, [], rfl, .done⟩
    | some at_ =>
      obtain ⟨id, stack⟩ := at_
      unfold sequence
      rw [run_bind run_get]
      by_cases hv : id ∈ p.visited
      · refine ⟨_, _, [], ?_, .again hv⟩
        rw [if_pos (by simpa using hv), run_bind (st.run_residualGoto id)]
        rfl
      · rw [if_neg (by simpa using hv)]
        have hle : st.rest p ≤ depth := Nat.le_of_lt_succ hp
        -- what stands at the block is written first, and uses something up
        have key : ∀ {first : Structure Partial} {r : Partial} {q : Progress} {ns₁ : List Note},
            first.run p = some (r, q) → st.Runs (.element out id stack stops r) p q ns₁ →
            st.rest q < depth ∨ r.2 = none →
            ∃ r' q' ns, (first >>= fun r => st.sequence depth r.1 r.2 stops).run p = some (r', q') ∧
              st.Runs (.list out (some (id, stack)) stops r') p q' ns := by
          intro first r q ns₁ hfirst hruns hless
          rcases hless with hless | hnone
          · obtain ⟨r', q', ns₂, hrest, hrestRuns⟩ := ih r.1 r.2 stops q hless
            exact ⟨r', q', ns₁ ++ ns₂, (run_bind hfirst).trans hrest, .step hv hruns hrestRuns⟩
          · have hdone : (st.sequence depth r.1 r.2 stops).run q = some (r.1, q) := by
              rw [hnone]
              cases depth <;> rfl
            exact ⟨r.1, q, ns₁ ++ [], (run_bind hfirst).trans hdone, .step hv hruns (hnone ▸ .done)⟩
        cases ht : st.pendingTry? p id with
        | some i =>
          obtain ⟨r, q, ns₁, hrun, hruns, hless⟩ := exists_runs_tryRegion ih hle ht out stack stops
          exact key hrun hruns (.inl hless)
        | none =>
          cases hl : st.pendingLoop? p id with
          | some l =>
            obtain ⟨r, q, ns₁, hrun, hruns, hless⟩ := exists_runs_loop ih hle ht hl out stack stops
            exact key hrun hruns (.inl hless)
          | none =>
            obtain ⟨r, q, ns₁, hrun, hruns, hless⟩ := exists_runs_block ih hle hv ht hl out stack stops
            exact key hrun hruns hless

end Structurer

/-- The progress when nothing has been done. -/
def Progress.start : Progress := ⟨[], [], [], [], [], []⟩

namespace FlowGraph

variable {g : FlowGraph} {ctx : SimContext} {method : String} {strip : Bool}

/-- The statements of a method before labels are removed, and the progress in the end. -/
def structuring? (g : FlowGraph) (ctx : SimContext) (method : String) (strip : Bool) :
    Option (List Stmt × Progress) :=
  let st := Structurer.ofGraph g ctx method strip
  (st.sequence st.budget [] (some (g.entry, [])) []).run .start

/-- Structuring a method always has a result, and this comes from a run. -/
theorem exists_runs_structuring (g : FlowGraph) (ctx : SimContext) (method : String) (strip : Bool) :
    ∃ statements p ns, g.structuring? ctx method strip = some (statements, p) ∧
      (Structurer.ofGraph g ctx method strip).Runs (.list [] (some (g.entry, [])) [] statements)
        .start p ns := by
  refine Structurer.writes_sequence _ [] (some (g.entry, [])) [] .start ?_
  have hblocks : ((Structurer.ofGraph g ctx method strip).unvisited .start).length ≤
      g.ids.length := List.length_filter_le _ _
  have hloops : ((Structurer.ofGraph g ctx method strip).loops.filter
      fun l => !Progress.start.loopsDone.contains l.header).length ≤
      (Structurer.ofGraph g ctx method strip).loops.length := List.length_filter_le _ _
  have htries : ((List.range (Structurer.ofGraph g ctx method strip).regions.length).filter
      fun i => !Progress.start.triesDone.contains i).length ≤
      (Structurer.ofGraph g ctx method strip).regions.length := by
    simpa using List.length_filter_le (fun i => !Progress.start.triesDone.contains i)
      (List.range (Structurer.ofGraph g ctx method strip).regions.length)
  have hids : g.ids.length = (Structurer.ofGraph g ctx method strip).graph.blocks.length := by
    simp [ids, Structurer.ofGraph]
  unfold Structurer.rest Structurer.budget
  omega

/-- The warnings of a run are among those of the method. -/
theorem warnings_structured_of_structuring? {statements : List Stmt} {p : Progress}
    (hne : g.blocks ≠ []) (h : g.structuring? ctx method strip = some (statements, p)) :
    (g.structured ctx method strip).statements = retainLabels p.usedLabels statements ∧
      p.warnings <+: (g.structured ctx method strip).warnings := by
  have hempty : g.blocks.isEmpty = false := by simpa using hne
  unfold structuring? Progress.start at h
  dsimp only at h
  unfold structured structured?
  simp only [hempty, Bool.false_eq_true, if_false, Option.bind_eq_bind, h, Option.bind_some,
    Option.pure_def, Option.getD_some]
  exact ⟨trivial, List.prefix_append _ _⟩

/-- The loops of a structurer are those of its graph that have a shape. -/
theorem of_mem_loops_ofGraph {l : Loop} (h : l ∈ (Structurer.ofGraph g ctx method strip).loops) :
    l ∈ g.loops ∧ l.kind ≠ .unstructured := by
  have key : ∀ (ls acc : List Loop), l ∈ ls.foldl (fun loops l => insertByKey Loop.entry l loops) acc →
      l ∈ ls ∨ l ∈ acc := by
    intro ls
    induction ls with
    | nil => exact fun acc h => .inr h
    | cons k ls ih =>
      intro acc h
      rcases ih _ h with h | h
      · exact .inl (List.mem_cons_of_mem k h)
      · rcases mem_insertByKey h with rfl | h
        · exact .inl List.mem_cons_self
        · exact .inr h
  rcases key _ _ h with h | h
  · simpa using h
  · cases h

end FlowGraph

end JvmDecompiler
