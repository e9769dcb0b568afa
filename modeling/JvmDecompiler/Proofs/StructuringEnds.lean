import JvmDecompiler.Proofs.Approximation
import JvmDecompiler.Proofs.StructureRun

/-!
# Structuring ends

The functions that write lists of statements call each other along the edges of the graph, and nothing in
their definitions says that they come to an end: `sequence` has a bound on the depth, and no result where it
would have to go deeper. Here they call each other without a bound. A writer `w` with `w = st.writeOnce w`
(`Unbounded`) does what they do, however deep that goes; if some run did not come to an end, there would be
one without a result there.

But there is exactly one such writer, and it has a result everywhere (`structuring_ends`). Two facts
are put together. What has a result within a bound has the same result without one, since every part of
structuring goes as far as the writer that it is given (`Approximates`); and the bounded writer has a result
as soon as its bound is above what is left to do (`writes_sequence`), which is blocks not rendered, and loops
and try statements not started. Nothing is asked of the graph, its loops or its protected ranges.

The loop that folds tests into one runs once for each block that it folds, and comes to an end in the same
way (`exists_run_mergeTests`).
-/

namespace JvmDecompiler

namespace Structurer

variable {st : Structurer}

/-! ## Parts that go as far as their writer -/

/-- A writer that goes at least as far as another one, everywhere. -/
def GoesAsFar (go go' : ListWriter) : Prop :=
  ∀ out next stops, Approximates (go out next stops) (go' out next stops)

section Parts

variable {go go' : ListWriter} (h : GoesAsFar go go')

include h

/-- An arm is written as far. -/
theorem approximates_branchTo (target : BlockId) (stops : List BlockId) :
    Approximates (st.branchTo go target stops) (st.branchTo go' target stops) :=
  .step _ fun _ => h _ _ _

/-- A branch is written as far. -/
theorem approximates_ifStatement (out : List Stmt) (head : BlockId) (t : Test) (stops : List BlockId) :
    Approximates (st.ifStatement go out head t stops) (st.ifStatement go' out head t stops) := by
  refine .step _ fun p => .step _ fun inner => ?_
  dsimp only
  split
  all_goals
    exact (approximates_branchTo h _ _).bind fun thenBody =>
      (approximates_branchTo h _ _).bind fun _ => .refl _

/-- The arms of a switch are written as far. -/
theorem approximates_switchArmsFrom (join : Option BlockId) (stops : List BlockId)
    (arms : List (BlockId × List (Option Int32))) :
    Approximates (st.switchArmsFrom go join stops arms) (st.switchArmsFrom go' join stops arms) := by
  induction arms with
  | nil => exact .refl _
  | cons arm rest ih =>
    exact .step _ fun inner => (approximates_branchTo h _ _).bind fun body =>
      ih.bind fun _ => .refl _

/-- A switch is written as far. -/
theorem approximates_switchBlock (out : List Stmt) (head : BlockId) (sim : SimulatedBlock)
    (default : BlockId) (cases : List (Int32 × BlockId)) (stops : List BlockId) :
    Approximates (st.switchBlock go out head sim default cases stops)
      (st.switchBlock go' out head sim default cases stops) :=
  .step _ fun _ => .step _ fun _ => (approximates_switchArmsFrom h _ _ _).bind fun _ => .refl _

/-- A block with a condition is written as far. -/
theorem approximates_conditionalBlock (out : List Stmt) (head : BlockId) (sim : SimulatedBlock)
    (ifTrue ifFalse : BlockId) (stops : List BlockId) :
    Approximates (st.conditionalBlock go out head sim ifTrue ifFalse stops)
      (st.conditionalBlock go' out head sim ifTrue ifFalse stops) := by
  refine .step _ fun t => .step _ fun p => ?_
  cases st.conditionalValue? p t with
  | some values => exact .refl _
  | none =>
    dsimp only
    split
    · exact .step _ fun _ => approximates_ifStatement h _ _ _ _
    · exact approximates_ifStatement h _ _ _ _

/-- Every block is written as far. -/
theorem approximates_block (out : List Stmt) (id : BlockId) (stack : List Expr) (stops : List BlockId) :
    Approximates (st.block go out id stack stops) (st.block go' out id stack stops) := by
  unfold block
  cases st.graph.block? id with
  | none => exact .refl _
  | some b =>
    refine .step _ fun _ => .step _ fun sim => ?_
    dsimp only
    cases b.terminator with
    | branch k ifTrue ifFalse => exact approximates_conditionalBlock h _ _ _ _ _ _
    | switch default cases => exact approximates_switchBlock h _ _ _ _ _ _
    | _ => exact .refl _

/-- The statement of a loop is written as far. -/
theorem approximates_loopStatement (l : Loop) :
    Approximates (st.loopStatement go l) (st.loopStatement go' l) := by
  unfold loopStatement
  cases l.kind with
  | «while» => exact .step _ fun c => (approximates_branchTo h _ _).bind fun _ => .refl _
  | «for» | forEachArray | forEachIterator =>
    exact .step _ fun init => .step _ fun c => (approximates_branchTo h _ _).bind fun _ => .refl _
  | doWhile =>
    dsimp only
    split
    · exact .refl _
    · exact (h _ _ _).bind fun _ => .refl _
  | endless | unstructured => exact (h _ _ _).bind fun _ => .refl _

/-- A loop with its labels is written as far. -/
theorem approximates_loop (out : List Stmt) (l : Loop) (stops : List BlockId) :
    Approximates (st.loop go out l stops) (st.loop go' out l stops) :=
  .step _ fun _ => .step _ fun _ => (approximates_loopStatement h l).bind fun _ => .refl _

/-- Catch clauses are written as far. -/
theorem approximates_catchClauses (inner : List BlockId) (handlers : List (BlockId × List String)) :
    Approximates (catchClauses go inner handlers) (catchClauses go' inner handlers) := by
  induction handlers with
  | nil => exact .refl _
  | cons handler rest ih =>
    refine .step _ fun p => ?_
    split
    · exact ih
    · exact (h _ _ _).bind fun body => ih.bind fun _ => .refl _

/-- A `finally` part is written as far. -/
theorem approximates_finallyPart (inner : List BlockId) (handler : Option BlockId) :
    Approximates (finallyPart go inner handler) (finallyPart go' inner handler) := by
  refine .step _ fun p => ?_
  split
  · exact .refl _
  · exact (h _ _ _).bind fun _ => .refl _

/-- A try statement is written as far. -/
theorem approximates_tryRegion (out : List Stmt) (i : Nat) (stops : List BlockId) :
    Approximates (st.tryRegion go out i stops) (st.tryRegion go' out i stops) := by
  refine .step _ fun _ => ?_
  cases st.regions[i]? with
  | none => exact .refl _
  | some r =>
    exact .step _ fun stops => (h _ _ _).bind fun body => (approximates_catchClauses h _ _).bind fun catches =>
      (approximates_finallyPart h _ _).bind fun _ => .refl _

end Parts

/-! ## Writers without a bound -/

/-- Write the rest of a list, where the writer `go` writes what comes up on the way and what is left
then. -/
def writeOnce (st : Structurer) (go : ListWriter) : ListWriter
  | out, none, _ => return out
  | out, some (id, stack), stops => do
    let p ← get
    if p.visited.contains id then return out ++ [← st.residualGoto id]
    let (out, next) ←
      match st.pendingTry? p id, st.pendingLoop? p id with
      | some i, _ => st.tryRegion go out i stops
      | none, some l => st.loop go out l stops
      | none, none => st.block go out id stack stops
    go out next stops

/-- A writer that goes as deep as it has to: whatever comes up on the way it writes itself. -/
def Unbounded (st : Structurer) (w : ListWriter) : Prop := st.writeOnce w = w

/-- With one more level to go, a list is written once, and what comes up on the way with one level less. -/
theorem sequence_succ (depth : Nat) : st.sequence (depth + 1) = st.writeOnce (st.sequence depth) := by
  funext out next stops
  cases next <;> rfl

/-- A writer that goes farther goes farther when it is used once. -/
theorem goesAsFar_writeOnce {go go' : ListWriter} (h : GoesAsFar go go') :
    GoesAsFar (st.writeOnce go) (st.writeOnce go') := by
  intro out next stops
  cases next with
  | none => exact .refl _
  | some place =>
    obtain ⟨id, stack⟩ := place
    refine .step _ fun p => ?_
    dsimp only
    split
    · exact .refl _
    · cases st.pendingTry? p id with
      | some i => exact (approximates_tryRegion h _ _ _).bind fun _ => h _ _ _
      | none =>
        cases st.pendingLoop? p id with
        | some l => exact (approximates_loop h _ _ _).bind fun _ => h _ _ _
        | none => exact (approximates_block h _ _ _ _).bind fun _ => h _ _ _

/-- Within the bound `0` there is a result only where nothing is left to write. -/
theorem goesAsFar_zero (go : ListWriter) : GoesAsFar (st.sequence 0) (st.writeOnce go) := by
  intro out next stops
  cases next with
  | none => exact .refl _
  | some place => exact .failure _

/-- A higher bound lets the writer go as far. -/
theorem goesAsFar_sequence {m n : Nat} (h : m ≤ n) : GoesAsFar (st.sequence m) (st.sequence n) := by
  induction m generalizing n with
  | zero =>
    cases n with
    | zero => exact fun _ _ _ => .refl _
    | succ n =>
      rw [sequence_succ]
      exact goesAsFar_zero _
  | succ m ih =>
    obtain ⟨n, rfl⟩ : ∃ k, n = k + 1 := ⟨n - 1, by omega⟩
    rw [sequence_succ, sequence_succ]
    exact goesAsFar_writeOnce (ih (Nat.le_of_succ_le_succ h))

/-- What has a result within a bound has the same result without one. -/
theorem Unbounded.goesAsFar {w : ListWriter} (hw : st.Unbounded w) (depth : Nat) :
    GoesAsFar (st.sequence depth) w := by
  have hstep : ∀ {go}, GoesAsFar go (st.writeOnce w) → GoesAsFar go w :=
    fun h => by rwa [show st.writeOnce w = w from hw] at h
  induction depth with
  | zero => exact hstep (goesAsFar_zero w)
  | succ depth ih =>
    rw [sequence_succ]
    exact hstep (goesAsFar_writeOnce ih)

/-- A bound above what is left to do is never reached, so without a bound there is the same result. -/
theorem Unbounded.exists_run {w : ListWriter} (hw : st.Unbounded w) (out : List Stmt) (next : Continuation)
    (stops : List BlockId) (p : Progress) :
    ∃ r q, (w out next stops).run p = some (r, q) ∧
      ∀ depth, st.rest p < depth → (st.sequence depth out next stops).run p = some (r, q) := by
  obtain ⟨r, q, ns, hrun, -⟩ := st.writes_sequence _ out next stops p (Nat.lt_succ_self _)
  exact ⟨r, q, hw.goesAsFar _ out next stops p _ hrun,
    fun depth hdepth => goesAsFar_sequence hdepth out next stops p _ hrun⟩

/-- Write the rest of a list with a bound that depends on what is left to do. -/
def write (st : Structurer) : ListWriter := fun out next stops p =>
  (st.sequence (st.rest p + 1) out next stops).run p

/-- The writer with a bound of its own goes as far as with any bound. -/
theorem goesAsFar_write (depth : Nat) : GoesAsFar (st.sequence depth) st.write := by
  intro out next stops p r hr
  obtain ⟨r', q, ns, hrun, -⟩ := st.writes_sequence _ out next stops p (Nat.lt_succ_self _)
  have hleft := goesAsFar_sequence (Nat.le_max_left depth (st.rest p + 1)) out next stops p r hr
  have hright := goesAsFar_sequence (Nat.le_max_right depth (st.rest p + 1)) out next stops p _ hrun
  rw [hleft.symm.trans hright]
  exact hrun

/-- The writer with a bound of its own goes as deep as it has to. -/
theorem unbounded_write (st : Structurer) : st.Unbounded st.write := by
  funext out next stops p
  obtain ⟨r, q, ns, hrun, -⟩ := st.writes_sequence _ out next stops p (Nat.lt_succ_self _)
  have hwrite : (st.write out next stops).run p = some (r, q) := hrun
  rw [sequence_succ] at hrun
  exact (goesAsFar_writeOnce (goesAsFar_write _) out next stops p _ hrun).trans hwrite.symm

/-- There is only one writer that does. -/
theorem Unbounded.unique {w w' : ListWriter} (hw : st.Unbounded w) (hw' : st.Unbounded w') : w = w' := by
  funext out next stops p
  obtain ⟨r, q, hrun, hsequence⟩ := hw.exists_run out next stops p
  exact hrun.trans (hw'.goesAsFar _ out next stops p _ (hsequence _ (Nat.lt_succ_self _))).symm

/-! ## Folding tests -/

/-- Folding with a higher bound goes as far. -/
theorem approximates_mergeTests {m n : Nat} (h : m ≤ n) (members : List BlockId) (t : Test) :
    Approximates (st.mergeTests m members t) (st.mergeTests n members t) := by
  induction m generalizing n members t with
  | zero => exact .failure _
  | succ m ih =>
    obtain ⟨n, rfl⟩ : ∃ k, n = k + 1 := ⟨n - 1, by omega⟩
    refine .step _ fun p => ?_
    split
    · exact .step _ fun _ => ih (Nat.le_of_succ_le_succ h) _ _
    · exact .refl _

/-- Folding tests comes to an end after at most as many rounds as there are blocks that have not been
rendered, and one more that finds nothing to fold. -/
theorem exists_run_mergeTests (st : Structurer) (members : List BlockId) (t : Test) (p : Progress) :
    ∃ u q, ∀ rounds, (st.unvisited p).length < rounds →
      (st.mergeTests rounds members t).run p = some (u, q) := by
  obtain ⟨u, q, hrun, -⟩ := st.exists_merges members t (Nat.lt_succ_self (st.unvisited p).length)
  exact ⟨u, q, fun rounds h => approximates_mergeTests h members t p _ hrun⟩

end Structurer

/-- Structuring the method with a flow graph ends, whatever its blocks, edges, loops and protected ranges
are. There is exactly one writer that goes as deep as it has to; from any block, with any values on the
stack and any progress, it has a result, which is that within every bound above what is left to do; folding
tests ends as well; and so the method has statements. -/
theorem FlowGraph.structuring_ends (g : FlowGraph) (ctx : SimContext) (method : String) (strip : Bool) :
    let st := Structurer.ofGraph g ctx method strip
    (∃! w, st.Unbounded w) ∧
    (∀ w, st.Unbounded w → ∀ out next stops p, ∃ r q, (w out next stops).run p = some (r, q) ∧
      ∀ depth, st.rest p < depth → (st.sequence depth out next stops).run p = some (r, q)) ∧
    (∀ members t p, ∃ u q, ∀ rounds, (st.unvisited p).length < rounds →
      (st.mergeTests rounds members t).run p = some (u, q)) ∧
    ∃ body, g.structured? ctx method strip = some body := by
  intro st
  refine ⟨⟨st.write, st.unbounded_write, fun w hw => hw.unique st.unbounded_write⟩,
    fun w hw => hw.exists_run, st.exists_run_mergeTests, ?_⟩
  unfold structured?
  split
  · exact ⟨_, rfl⟩
  · obtain ⟨statements, p, ns, hrun, -⟩ := exists_runs_structuring g ctx method strip
    have hrun : StateT.run (st.sequence st.budget [] (some (g.entry, [])) []) ⟨[], [], [], [], [], []⟩ =
      some (statements, p) := hrun
    simp only [Option.bind_eq_bind, Option.pure_def]
    rw [hrun]
    exact ⟨_, rfl⟩

end JvmDecompiler
