import JvmDecompiler.Proofs.JumpMarks
import JvmDecompiler.Proofs.JumpTargets
import JvmDecompiler.Proofs.Rendering

/-!
# Jumps that stay, and their labels

Where control comes to a block that has been rendered, and no `break` or `continue` leads there, a jump to
the label of the block stays. It should find that label exactly once.

It need not. Labels are written with the blocks that become statements, and a block that becomes part of an
expression or of the update of a loop has none; `finally` code is stripped of its labels. A loop that does
not test first has the label of its header in front of it, and the header, being the first block of the
body, has it again. The account is kept for labels and jumps alike (`Structurer.Tally`): what a run writes
is what it calls for, a label for every block that it renders and a jump for every label that it marks as
used, up to these cases (`Structurer.Runs.tally`). `MethodCode.residual_labels` says it of methods.
-/

namespace JvmDecompiler

open Stmt

/-! ## What is called for -/

/-- How often a mark is called for: a label by the blocks that have been rendered, and a jump by the labels
that are used. -/
def Progress.calls (m : Mark) (p : Progress) : Nat :=
  match m with
  | .label name => p.visited.countP (Structurer.blockLabel · = name)
  | .goto name => p.usedLabels.count name

namespace Structurer

variable {st : Structurer} {p q r : Progress} {ns : List Note} {m : Mark}

/-- What is called for depends only on the rendered blocks and the used labels. -/
theorem calls_congr (hv : q.visited = p.visited) (hu : q.usedLabels = p.usedLabels) :
    q.calls m = p.calls m := by
  cases m with
  | label => simp only [Progress.calls, hv]
  | goto => simp only [Progress.calls, hu]

/-- In front of a block stands its own label and no other mark. -/
theorem marks_labelOf (id : BlockId) :
    (labelOf id).marks m = if m = .label (blockLabel id) then 1 else 0 := marks_label _

/-- Rendering a block calls for its label. -/
theorem calls_cons {id : BlockId} (hv : q.visited = id :: p.visited)
    (hu : q.usedLabels = p.usedLabels) : q.calls m = (labelOf id).marks m + p.calls m := by
  rw [marks_labelOf]
  cases m with
  | label name => simp [Progress.calls, hv, List.countP_cons, Nat.add_comm, eq_comm]
  | goto => simp [Progress.calls, hu]

/-- Running a block calls for its label. -/
theorem calls_ran (b : Block) (stack : List Expr) :
    (st.ran b stack p).calls m = (labelOf b.id).marks m + p.calls m := calls_cons rfl rfl

/-- A jump that stays calls for itself. -/
theorem calls_residual (id : BlockId) :
    (st.residual id p).calls m = (gotoLabel (blockLabel id)).marks m + p.calls m := by
  rw [marks_gotoLabel]
  cases m with
  | label name => simp [Progress.calls]
  | goto name =>
    have hused : (st.residual id p).usedLabels = blockLabel id :: p.usedLabels := rfl
    rw [Progress.calls, Progress.calls, hused, List.count_cons]
    by_cases heq : blockLabel id = name
    · simp [heq, Nat.add_comm]
    · simp [heq, Ne.symm heq]

/-- A statement that leaves or continues a loop is no mark. -/
theorem marks_of_jumpRole {s : Stmt} (h : s.jumpRole = .jump) : s.marks m = 0 := by
  cases s <;> simp_all [jumpRole, marks_eq, mark?, childLists]

/-- What is written to go to a block is called for. -/
theorem calls_of_goes {stops : List BlockId} {target : Option BlockId} {jump : List Stmt}
    {next : Option BlockId} (h : st.Goes p stops target jump next q ns) :
    q.calls m = marksOfList m jump + p.calls m := by
  cases h with
  | nowhere | stop | next => simp
  | goto => simp [calls_residual]
  | jump ht hj =>
    rw [marksOfList_cons, marks_of_jumpRole (jumpRole_of_jumpWithin hj), marksOfList_nil, Nat.zero_add]
    exact calls_congr rfl rfl

/-! ## Parts of loops -/

/-- The condition of a loop uses no label. -/
theorem usedLabels_of_run_loopCondition {l : Loop} {c : Expr × BlockId}
    (h : (st.loopCondition l).run p = some (c, q)) : q.usedLabels = p.usedLabels := by
  unfold loopCondition at h
  rw [run_bind (run_visit l.header)] at h
  cases hb : st.graph.block? l.header with
  | none =>
    rw [hb] at h
    cases h
    rfl
  | some b =>
    rw [hb] at h
    dsimp only at h
    rw [run_bind (st.run_simulate b [])] at h
    split at h
    · split at h <;> cases h <;> rfl
    · cases h
      rfl

/-- The condition of a loop calls for the label of the header. -/
theorem calls_of_run_loopCondition {l : Loop} {c : Expr × BlockId}
    (h : (st.loopCondition l).run p = some (c, q)) :
    q.calls m = (labelOf l.header).marks m + p.calls m :=
  calls_cons (visited_of_run_loopCondition h) (usedLabels_of_run_loopCondition h)

/-- A block in the head of a loop uses no label. -/
theorem usedLabels_of_run_headBlock {id : Option BlockId} {stmts : List Stmt}
    (h : (st.headBlock id).run p = some (stmts, q)) : q.usedLabels = p.usedLabels := by
  cases hb : id.bind st.graph.block? with
  | none =>
    unfold headBlock at h
    rw [hb] at h
    cases h
    rfl
  | some b =>
    obtain ⟨i, rfl, hb⟩ := Option.bind_eq_some_iff.1 hb
    cases h.symm.trans (st.run_headBlock hb)
    rfl

/-- The initialisation or the update of a loop has no marks. -/
theorem marks_of_run_headBlock {id : Option BlockId} {stmts : List Stmt}
    (h : (st.headBlock id).run p = some (stmts, q)) : marksOfList m stmts = 0 := by
  cases hb : id.bind st.graph.block? with
  | none =>
    unfold headBlock at h
    rw [hb] at h
    cases h
    rfl
  | some b =>
    obtain ⟨i, rfl, hb⟩ := Option.bind_eq_some_iff.1 hb
    cases h.symm.trans (st.run_headBlock hb)
    exact marksOfList_simple _

/-- The condition in a latch uses no label. -/
theorem usedLabels_of_run_latchCondition {l : Loop} {body : List Stmt} {r : List Stmt × Expr}
    (h : (st.latchCondition l body).run p = some (r, q)) : q.usedLabels = p.usedLabels := by
  unfold latchCondition at h
  split at h
  · cases h
    rfl
  · rw [run_bind (run_visit l.latch), run_bind (st.run_simulate _ [])] at h
    dsimp only at h
    split at h <;> (cases h; rfl)

/-- What is written of the latch of a loop is called for. -/
theorem marks_of_run_latchCondition {l : Loop} {first body : List Stmt} {condition : Expr}
    (h : (st.latchCondition l first).run p = some ((body, condition), q)) :
    marksOfList m body + p.calls m = marksOfList m first + q.calls m := by
  unfold latchCondition at h
  split at h
  · cases h
    rfl
  · rename_i b hb
    rw [run_bind (run_visit l.latch), run_bind (st.run_simulate b [])] at h
    have hcalls : ∀ {ws : List Warning}, ((p.rendered [l.latch]).warned ws).calls m =
        (labelOf l.latch).marks m + p.calls m := calls_cons rfl rfl
    have hmarks : marksOfList m
        (first ++ labelOf l.latch :: (b.simulate st.ctx []).statements.map .simple) =
        marksOfList m first + (labelOf l.latch).marks m := by simp
    dsimp only at h
    split at h <;>
      · cases h
        rw [hcalls, hmarks]
        omega

/-- A loop through elements uses no label by itself. -/
theorem usedLabels_of_run_forEachLoop {l : Loop} {init update body : List Stmt} {condition : Expr}
    {stmt : Stmt} (h : (st.forEachLoop l init condition update body).run p = some (stmt, q)) :
    q.usedLabels = p.usedLabels := by
  obtain ⟨stmt', ws, hrun⟩ := st.exists_run_forEachLoop (p := p) l init condition update body
  cases h.symm.trans hrun
  rfl

/-- The marks in a `for` loop are those in its head and its body. -/
theorem marks_forLoop (init update body : List Stmt) (condition : Expr) :
    (forLoop init condition update body).marks m =
      marksOfList m init + marksOfList m update + marksOfList m body := by
  simp [marks_eq, mark?, childLists, Nat.add_assoc]

/-- The marks in a loop through elements are those in its body, if there are none in the head. -/
theorem marks_of_run_forEachLoop {l : Loop} {init update body : List Stmt} {condition : Expr}
    {stmt : Stmt} (h : (st.forEachLoop l init condition update body).run p = some (stmt, q))
    (hinit : marksOfList m init = 0) (hupdate : marksOfList m update = 0) :
    stmt.marks m = marksOfList m body := by
  unfold forEachLoop at h
  dsimp only at h
  split at h
  · rename_i htake
    cases h
    simp [marks_eq, mark?, childLists, marksOfList_of_takeElement? htake]
  · cases h
    rw [marks_forLoop, hinit, hupdate]
    omega

/-! ## What may be missing, and what may be there twice -/

/-- A block that starts no statement and does nothing but evaluate a condition or compute a value. -/
def Silent (st : Structurer) (t : BlockId) : Prop :=
  st.startsStatement t = false ∧ ∃ b, st.graph.block? t = some b ∧
    (b.simulate st.ctx []).statements = [] ∧
    ((b.simulate st.ctx []).condition.isSome ∨ ∃ value, (b.simulate st.ctx []).exitStack = [value])

/-- A mark that is called for may not be there: the label of a block that becomes part of an expression,
or of the update of a loop, and what is written in the handler of a `finally` part, or in a method from
which copies of `finally` code are removed. -/
inductive MayLose (st : Structurer) : Mark → Prop
  | silent {t : BlockId} (h : st.Silent t) : MayLose st (.label (blockLabel t))
  | update {l : Loop} {t : BlockId} (hl : l ∈ st.loops) (ht : l.update = some t) :
      MayLose st (.label (blockLabel t))
  | final {m : Mark} {region : TryRegion} {handler : BlockId} {p q : Progress} {inner : List BlockId}
      {body : List Stmt} {ns : List Note} (hr : region ∈ st.regions) (hh : region.finally? = some handler)
      (hrun : st.Runs (.list [] (some (handler, [.caught none none])) inner body) p q ns)
      (hm : 0 < marksOfList m body) : MayLose st m
  | copies {m : Mark} {region : TryRegion} (hstrip : st.stripFinallyCopies = true)
      (hr : region ∈ st.regions) (hh : region.finally?.isSome = true) : MayLose st m

/-- A mark may be there more often than it is called for: the label of the block at which a loop starts
that does not test first. -/
inductive MayRepeat (st : Structurer) : Mark → Prop
  | reopened {l : Loop} (hl : l ∈ st.loops) (hk : l.kind.testsFirst = false) :
      MayRepeat st (.label (blockLabel l.header))

/-- What is written is what is called for, up to what may be missing and what may be there twice. -/
def Tally (st : Structurer) (m : Mark) (written called : Nat) : Prop :=
  ∃ lost more, written + lost = called + more ∧
    (lost ≠ 0 → st.MayLose m) ∧ (more ≠ 0 → st.MayRepeat m)

namespace Tally

variable {a b c d : Nat}

/-- What is written is exactly what is called for. -/
theorem of_eq (h : a = b) : st.Tally m a b := ⟨0, 0, by omega, by simp, by simp⟩

/-- More is called for than is written, which is allowed for marks that may be lost. -/
theorem of_lost (h : b ≠ 0 → st.MayLose m) : st.Tally m a (b + a) :=
  ⟨b, 0, by omega, h, by simp⟩

/-- More is written than is called for, which is allowed for marks that may be repeated. -/
theorem of_more (h : b ≠ 0 → st.MayRepeat m) : st.Tally m (b + a) a :=
  ⟨0, b, by omega, by simp, h⟩

/-- Tallies of two parts add up. -/
theorem add (h₁ : st.Tally m a b) (h₂ : st.Tally m c d) : st.Tally m (a + c) (b + d) := by
  obtain ⟨lost₁, more₁, heq₁, hlost₁, hmore₁⟩ := h₁
  obtain ⟨lost₂, more₂, heq₂, hlost₂, hmore₂⟩ := h₂
  exact ⟨lost₁ + lost₂, more₁ + more₂, by omega,
    fun h => (show lost₁ ≠ 0 ∨ lost₂ ≠ 0 by omega).elim hlost₁ hlost₂,
    fun h => (show more₁ ≠ 0 ∨ more₂ ≠ 0 by omega).elim hmore₁ hmore₂⟩

/-- Only the difference between what is written and what is called for counts. -/
theorem shift (h : st.Tally m a b) (heq : c + b = d + a) : st.Tally m c d := by
  obtain ⟨lost, more, hsum, hlost, hmore⟩ := h
  exact ⟨lost, more, by omega, hlost, hmore⟩

end Tally

/-! ## Pieces of work -/

/-- If the label of a block may be lost, so may every mark in front of it. -/
theorem mayLose_labelOf {t : BlockId} (h : st.MayLose (.label (blockLabel t))) :
    (labelOf t).marks m ≠ 0 → st.MayLose m := by
  rw [marks_labelOf]
  split
  · rename_i hm
    exact fun _ => hm ▸ h
  · exact fun hne => absurd rfl hne

/-- A block that only tests is silent. -/
theorem TestsOnly.silent {t : BlockId} {b : Block} {condition : Expr}
    (h : st.TestsOnly p t b condition) : st.Silent t :=
  ⟨h.plain, b, h.block, h.statements, .inl (by rw [h.condition]; rfl)⟩

/-- A block that only computes a value is silent. -/
theorem ValueBlock.silent {t join : BlockId} {b : Block} {value : Expr}
    (h : st.ValueBlock p t join b value) : st.Silent t :=
  ⟨h.plain, b, h.block, h.statements, .inr ⟨value, h.exitStack⟩⟩

/-- The label of a block that becomes part of an expression is not written. -/
theorem tally_rendered {t : BlockId} (h : st.Silent t) :
    st.Tally m (p.calls m) ((p.rendered [t]).calls m) := by
  have hcalls : (p.rendered [t]).calls m = (labelOf t).marks m + p.calls m := calls_cons rfl rfl
  rw [hcalls]
  exact .of_lost (mayLose_labelOf (.silent h))

/-- Folding writes nothing, and calls for labels of silent blocks only. -/
theorem Merges.tally {members : List BlockId} {t u : Test} (h : st.Merges p members t u q) :
    st.Tally m (p.calls m) (q.calls m) := by
  induction h with
  | done => exact .of_eq rfl
  | @fold p _ _ _ _ _ folded hfold _ ih =>
    obtain ⟨b, condition, htests⟩ := (st.folds_of_fold? hfold).testsOnly
    have hfolded : st.Tally m (p.calls m) ((p.rendered [folded]).calls m) :=
      tally_rendered htests.silent
    exact (hfolded.add ih).shift (by omega)

/-- The warning that statements are dropped calls for nothing. -/
theorem calls_dropped (head : BlockId) (sim : SimulatedBlock) :
    (st.dropped head sim p).calls m = p.calls m := by
  unfold dropped
  split <;> rfl

/-- The label of a statement is no mark. -/
theorem marks_labelIf (used : Bool) (label : String) (stmt : Stmt) :
    (labelIf used label stmt).marks m = stmt.marks m := by
  unfold labelIf
  split
  · exact marks_labeled label
  · rfl

/-- The marks in a branch are those in its arms. -/
theorem marks_ifOf (condition : Expr) (thenBody elseBody : List Stmt) :
    (ifOf condition thenBody elseBody).marks m = marksOfList m thenBody + marksOfList m elseBody := by
  unfold ifOf
  split
  · simp [marks_eq, mark?, childLists, Nat.add_comm]
  · simp [marks_eq, mark?, childLists]

/-- The marks in a `while` loop are those in its body. -/
theorem marks_whileLoop (condition : Expr) (body : List Stmt) :
    (whileLoop condition body).marks m = marksOfList m body := by
  simp [marks_eq, mark?, childLists]

/-- The marks in a `do` loop are those in its body. -/
theorem marks_doWhile (condition : Expr) (body : List Stmt) :
    (doWhile body condition).marks m = marksOfList m body := by
  simp [marks_eq, mark?, childLists]

/-- The marks in a switch are those in its arms. -/
theorem marks_switch (key : Expr) (arms : List SwitchCase) :
    (Stmt.switch key arms).marks m = (arms.map fun c => marksOfList m c.body).sum := by
  simp [marks_eq, mark?, childLists, Function.comp_def]

/-- The marks in a try statement are those in its parts. -/
theorem marks_tryCatch (body : List Stmt) (catches : List CatchClause)
    (finallyBody : Option (List Stmt)) :
    (Stmt.tryCatch body catches finallyBody).marks m =
      marksOfList m body + (catches.map fun c => marksOfList m c.body).sum +
        marksOfList m (finallyBody.getD []) := by
  cases finallyBody <;> simp [marks_eq, mark?, childLists, Function.comp_def, Nat.add_assoc]

/-- A try statement has the marks of its parts, unless copies of `finally` code are removed. -/
theorem tally_tryStatement {out body : List Stmt} {catches : List CatchClause}
    {finallyBody : Option (List Stmt)}
    (h : st.stripFinallyCopies = true → finallyBody.isSome = true → st.MayLose m) :
    st.Tally m (marksOfList m (st.tryStatement out body catches finallyBody))
      (marksOfList m out + (marksOfList m body + (catches.map fun c => marksOfList m c.body).sum +
        marksOfList m (finallyBody.getD []))) := by
  have hplain : marksOfList m (out ++ [.tryCatch body catches finallyBody]) =
      marksOfList m out + (marksOfList m body + (catches.map fun c => marksOfList m c.body).sum +
        marksOfList m (finallyBody.getD [])) := by
    simp [marks_tryCatch]
  -- what is deleted as a copy is lost, which is allowed in a method with a `finally` part
  have hless : ∀ {a b : Nat}, a ≤ b → st.stripFinallyCopies = true → finallyBody.isSome = true →
      st.Tally m a b := fun {a b} hle hstrip hsome =>
    ⟨b - a, 0, by omega, fun _ => h hstrip hsome, by simp⟩
  unfold tryStatement
  split
  · rename_i first rest
    split
    · rename_i hstrip
      dsimp only
      have hbody : ∀ list, marksOfList m (stripCopies (normalize (first :: rest)) true list) ≤
          marksOfList m list := marksOfList_stripCopies_le _ true
      split
      -- the handler releases a lock, and the statement becomes a synchronized one
      · rename_i object kept _ htake
        refine hless ?_ hstrip rfl
        have hkept := marksOfList_of_takeMonitorEnter? (m := m) htake
        have hmarks : ∀ list, (Stmt.synchronized object list).marks m = marksOfList m list := fun list => by
          simp [marks_eq, mark?, childLists]
        rw [marksOfList_append, marksOfList_cons, marksOfList_nil, hmarks, hkept]
        have := hbody body
        omega
      · refine hless ?_ hstrip rfl
        rw [marksOfList_append, marksOfList_cons, marksOfList_nil, marks_tryCatch, List.map_map]
        have := hbody body
        have hcatches : (catches.map fun c => marksOfList m
            (stripCopies (normalize (first :: rest)) true c.body)).sum ≤
            (catches.map fun c => marksOfList m c.body).sum :=
          List.sum_le_sum fun c _ => hbody c.body
        simp only [Function.comp_def]
        omega
    · exact .of_eq hplain
  · exact .of_eq hplain

/-- How often a mark is in what a piece of work goes on from. -/
def Work.before (m : Mark) : Work → Nat
  | .list out .. | .element out .. | .block out .. | .ifElse out .. => marksOfList m out
  | _ => 0

/-- How often a mark is in what comes out of a piece of work. The labels in front of a loop that tests
first are those of its head. -/
def Work.after (m : Mark) : Work → Nat
  | .list _ _ _ result | .branch _ _ result => marksOfList m result
  | .element _ _ _ _ result | .block _ _ _ _ result | .ifElse _ _ _ _ result => marksOfList m result.1
  | .arms _ _ _ result => (result.map fun c => marksOfList m c.body).sum
  | .loop l result => (if l.kind.testsFirst then marksOfList m (loopLabels l) else 0) + result.marks m
  | .catches _ _ result => (result.map fun c => marksOfList m c.body).sum
  | .final _ _ result =>
    (result.1.map fun c => marksOfList m c.body).sum + marksOfList m (result.2.getD [])

/-- A piece of work is about a loop or a handler of the method. -/
def Work.Known (st : Structurer) : Work → Prop
  | .loop l _ => l ∈ st.loops
  | .final _ handler _ => ∀ h ∈ handler, ∃ region ∈ st.regions, region.finally? = some h
  | _ => True

/-- A `finally` part comes from a handler. -/
theorem finally_of_final {inner : List BlockId} {handler : Option BlockId}
    {last : List CatchClause × Option (List Stmt)} (h : st.Runs (.final inner handler last) p q ns)
    (hsome : last.2.isSome = true) : handler.isSome = true := by
  cases h with
  | noFinally => cases hsome
  | «finally» => rfl

/-- What a piece of work writes is what it calls for, up to what may be missing and what may be there
twice. -/
def Work.Tallies (st : Structurer) (m : Mark) (w : Work) (p q : Progress) : Prop :=
  st.Tally m (w.after m + p.calls m) (w.before m + q.calls m)

/-! ## What each rule writes

There is one lemma for each rule that writes something besides what its parts write. -/

namespace Work.Tallies

variable {q₁ q₂ q₃ q₄ : Progress} {out body jump init update : List Stmt} {stops inner : List BlockId}
  {stack : List Expr} {next : Option BlockId} {l : Loop} {pool : ConstantPool} {condition : Expr}
  {entry : BlockId}

/-- A block writes its label. -/
theorem run {id : BlockId} {b : Block} {result : Partial} (hb : st.graph.block? id = some b)
    (hrest : Work.Tallies st m (.block (out ++ labelOf id :: (b.simulate st.ctx stack).statements.map .simple)
      b (b.simulate st.ctx stack) stops result) (st.ran b stack p) q) :
    Work.Tallies st m (.element out id stack stops result) p q := by
  simp only [Tallies, after, before, marksOfList_append, marksOfList_cons, marksOfList_simple, calls_ran,
    FlowGraph.id_of_block? hb] at hrest ⊢
  exact hrest.shift (by omega)

/-- A loop of a kind that has no initialisation has the label of its header in front of it. -/
theorem loopLabels_eq (hfit : l.Fits st.graph pool) (hfor : l.kind ≠ .for)
    (heach : l.kind.isForEach = false) : loopLabels l = [labelOf l.header] := by
  simp [loopLabels, hfit.entry_eq hfor heach, (hfit.init_update_eq_none hfor heach).1]

/-- The label at the header of a loop that does not test first may be repeated. -/
theorem mayRepeat_labelOf (hl : l ∈ st.loops) (hk : l.kind.testsFirst = false) :
    (labelOf l.header).marks m ≠ 0 → st.MayRepeat m := by
  rw [marks_labelOf]
  split
  · rename_i hm
    exact fun _ => hm ▸ .reopened hl hk
  · exact fun hne => absurd rfl hne

/-- A loop that tests first has its labels for those of its head; the label in front of any other loop is
there again at its header. -/
theorem loop {id : BlockId} {stmt : Stmt} {used : Bool} (hl : l ∈ st.loops) (hfit : l.Fits st.graph pool)
    (hinside : Work.Tallies st m (.loop l stmt) ((p.started l.header).entered (loopBreakable l)) q)
    (hgo : st.Goes q.left stops l.exit jump next r ns) :
    Work.Tallies st m (.element out id stack stops (out ++ loopLabels l ++
      [labelIf used (loopBreakable l).label stmt] ++ jump, next.map (·, []))) p r := by
  have hjump := calls_of_goes (m := m) hgo
  have hstart : ((p.started l.header).entered (loopBreakable l)).calls m = p.calls m := rfl
  have hleft : q.left.calls m = q.calls m := rfl
  simp only [Tallies, after, before, marksOfList_append, marksOfList_cons, marksOfList_nil,
    marks_labelIf, hstart] at hinside ⊢
  cases htests : l.kind.testsFirst with
  | true =>
    rw [if_pos htests] at hinside
    exact hinside.shift (by omega)
  | false =>
    have htwice : st.Tally m ((labelOf l.header).marks m + 0) 0 :=
      .of_more (mayRepeat_labelOf hl htests)
    have hkind : l.kind ≠ .for ∧ l.kind.isForEach = false := by
      cases hk : l.kind <;> simp_all [LoopKind.testsFirst, LoopKind.isForEach]
    rw [if_neg (by simp [htests])] at hinside
    simp only [loopLabels_eq hfit hkind.1 hkind.2, marksOfList_cons, marksOfList_nil]
    exact (hinside.add htwice).shift (by omega)

/-- A try statement writes what its parts write, without the copies of `finally` code. -/
theorem tryCatch {id : BlockId} {i : Nat} {region : TryRegion} {clauses : List CatchClause}
    {last : List CatchClause × Option (List Stmt)} (hregion : region ∈ st.regions)
    (hlast : last.2.isSome = true → region.finally?.isSome = true)
    (hbody : Work.Tallies st m (.list [] (some (region.start, [])) inner body) (p.tried i) q₁)
    (hcatches : Work.Tallies st m (.catches inner region.catches clauses) q₁ q₂)
    (hfinal : Work.Tallies st m (.final inner region.finally? last) q₂ q₃)
    (hgo : st.Goes q₃ stops (st.continuation? region) jump next r ns) :
    Work.Tallies st m (.element out id stack stops
      (st.tryStatement out body (clauses ++ last.1) last.2 ++ jump, next.map (·, []))) p r := by
  have hparts := (hbody.add hcatches).add hfinal
  have hstmt : st.Tally m (marksOfList m (st.tryStatement out body (clauses ++ last.1) last.2)) _ :=
    tally_tryStatement fun hstrip hsome => .copies hstrip hregion (hlast hsome)
  have hstart : (p.tried i).calls m = p.calls m := rfl
  have hjump := calls_of_goes (m := m) hgo
  simp only [Tallies, after, before, marksOfList_append, marksOfList_nil, List.map_append,
    List.sum_append, hstart] at hparts hstmt ⊢
  exact (hparts.add hstmt).shift (by omega)

/-- The labels of the blocks that compute the values of a conditional expression are not written. -/
theorem value {b : Block} {sim : SimulatedBlock} {members : List BlockId} {t u : Test}
    {thenValue elseValue : Expr} {join : BlockId} (hm : st.Merges p members t u q)
    (hv : st.conditionalValue? q u = some (thenValue, elseValue, join))
    (hgo : st.Goes (q.rendered [u.fallthrough, u.taken]) stops (some join) jump next r ns) :
    Work.Tallies st m (.block out b sim stops (out ++ jump, next.map (·, stack))) p r := by
  obtain ⟨-, ⟨_, hthen⟩, _, helse⟩ := of_conditionalValue? hv
  have htaken : st.Tally m (q.calls m) ((q.rendered [u.taken]).calls m) := tally_rendered hthen.silent
  have hfallthrough : st.Tally m ((q.rendered [u.taken]).calls m)
      (((q.rendered [u.taken]).rendered [u.fallthrough]).calls m) := tally_rendered helse.silent
  have hboth : (q.rendered [u.fallthrough, u.taken]).calls m =
      ((q.rendered [u.taken]).rendered [u.fallthrough]).calls m := calls_congr rfl rfl
  have hjump := calls_of_goes (m := m) hgo
  have hsum := ((hm.tally (m := m)).add htaken).add hfallthrough
  simp only [Tallies, after, before, marksOfList_append]
  exact hsum.shift (by omega)

/-- A switch, if its arms and what comes behind it tally. -/
theorem switch {b : Block} {sim : SimulatedBlock} {join : Option BlockId} {key : Expr}
    {starts : List (BlockId × List (Option Int32))} {arms : List SwitchCase} {breakable : Breakable}
    {used : Bool} {label : String}
    (harms : Work.Tallies st m (.arms join stops starts arms) (p.entered breakable) q)
    (hgo : st.Goes q.left stops join jump next r ns) :
    Work.Tallies st m (.block out b sim stops
      (out ++ [labelIf used label (.switch key arms)] ++ jump, next.map (·, []))) p r := by
  have hjump := calls_of_goes (m := m) hgo
  have hstart : (p.entered breakable).calls m = p.calls m := rfl
  have hleft : q.left.calls m = q.calls m := rfl
  simp only [Tallies, after, before, marksOfList_append, marksOfList_cons, marksOfList_nil,
    marks_labelIf, marks_switch, hstart] at harms ⊢
  exact harms.shift (by omega)

/-- A subroutine call is kept as a comment, which is no mark. -/
theorem jsr {b : Block} {sim : SimulatedBlock} {target returnTo : BlockId} {ws : List Warning}
    (hgo : st.Goes (p.warned ws) stops (some returnTo) jump next q ns) :
    Work.Tallies st m (.block out b sim stops
      (out ++ [.comment s!"jsr L{target}"] ++ jump, next.map (·, stack))) p q := by
  have hjump := calls_of_goes (m := m) hgo
  have hstart : (p.warned ws).calls m = p.calls m := rfl
  rw [hstart] at hjump
  refine .of_eq ?_
  simp only [after, before, marksOfList_append, marksOfList_cons, marksOfList_nil, marks_comment]
  omega

/-- The head of a loop with an initialisation has as many marks as it is called for, but for the label of
the update. -/
theorem parts {c : Expr × BlockId} {inside : Nat} (hl : l ∈ st.loops) (hfit : l.Fits st.graph pool)
    (hinit : l.init.isSome = true) (hi : (st.headBlock l.init).run p = some (init, q₁))
    (hc : (st.loopCondition l).run q₁ = some (c, q₂))
    (hbody : st.Tally m (inside + q₂.calls m) (q₃.calls m))
    (hu : (st.headBlock l.update).run q₃ = some (update, q₄)) :
    st.Tally m (marksOfList m (loopLabels l) + inside + p.calls m) (q₄.calls m) := by
  obtain ⟨i, hi'⟩ := Option.isSome_iff_exists.1 hinit
  -- the initialisation is the entry of the loop, which has a label in front of it
  have hq₁ : q₁.calls m = (labelOf l.entry).marks m + p.calls m := by
    have hentry : l.entry = i := by rw [Loop.entry, hi', Option.getD_some]
    obtain ⟨b, hb⟩ : ∃ b, st.graph.block? i = some b := by
      have hsuccessors := hfit.init i hi'
      cases hb : st.graph.block? i with
      | some b => exact ⟨b, rfl⟩
      | none => simp [FlowGraph.successors, hb] at hsuccessors
    rw [hi'] at hi
    cases hi.symm.trans (st.run_headBlock hb)
    rw [calls_ran, FlowGraph.id_of_block? hb, hentry]
  have hq₂ := calls_of_run_loopCondition (m := m) hc
  have hq₄ : st.Tally m (q₃.calls m) (q₄.calls m) := by
    rcases visited_of_run_headBlock hu with hv | ⟨u, hu', hv⟩
    · exact .of_eq (calls_congr hv (usedLabels_of_run_headBlock hu)).symm
    · rw [calls_cons hv (usedLabels_of_run_headBlock hu)]
      exact .of_lost (mayLose_labelOf (.update hl hu'))
  have hlabels : marksOfList m (loopLabels l) = (labelOf l.entry).marks m + (labelOf l.header).marks m := by
    simp [loopLabels, hinit]
  exact (hbody.add hq₄).shift (by omega)

/-- A `while` loop, if its body tallies. -/
theorem whileLoop (hfit : l.Fits st.graph pool) (hk : l.kind = .while)
    (hc : (st.loopCondition l).run p = some ((condition, entry), q))
    (hbody : Work.Tallies st m (.branch entry stops body) q r) :
    Work.Tallies st m (.loop l (.whileLoop condition body)) p r := by
  have hlabels : marksOfList m (loopLabels l) = (labelOf l.header).marks m := by
    rw [loopLabels_eq hfit (by simp [hk]) (by rw [hk]; rfl)]
    simp
  have hhead := calls_of_run_loopCondition (m := m) hc
  simp only [Tallies, after, before, hk, LoopKind.testsFirst, hlabels, marks_whileLoop] at hbody ⊢
  exact hbody.shift (by simp; omega)

/-- A `for` loop, if its body tallies. -/
theorem forLoop (hl : l ∈ st.loops) (hfit : l.Fits st.graph pool) (hk : l.kind = .for)
    (hi : (st.headBlock l.init).run p = some (init, q₁))
    (hc : (st.loopCondition l).run q₁ = some ((condition, entry), q₂))
    (hbody : Work.Tallies st m (.branch entry stops body) q₂ q₃)
    (hu : (st.headBlock l.update).run q₃ = some (update, r)) :
    Work.Tallies st m (.loop l (.forLoop init condition update body)) p r := by
  have hinside : st.Tally m (marksOfList m body + q₂.calls m) (q₃.calls m) :=
    hbody.shift (by simp [after, before]; omega)
  have hparts := parts hl hfit (hfit.initOfKind (.inl hk)) hi hc hinside hu
  have hstmt : (Stmt.forLoop init condition update body).marks m = marksOfList m body := by
    rw [marks_forLoop, marks_of_run_headBlock hi, marks_of_run_headBlock hu]
    omega
  simp only [Tallies, after, before, hk, LoopKind.testsFirst, if_true, hstmt]
  exact hparts.shift (by omega)

/-- The statements that a loop through elements leaves out have no marks. -/
theorem forEach {stmt : Stmt} (hl : l ∈ st.loops) (hfit : l.Fits st.graph pool)
    (hk : l.kind.isForEach = true) (hi : (st.headBlock l.init).run p = some (init, q₁))
    (hc : (st.loopCondition l).run q₁ = some ((condition, entry), q₂))
    (hbody : Work.Tallies st m (.branch entry stops body) q₂ q₃)
    (hu : (st.headBlock l.update).run q₃ = some (update, q₄))
    (hs : (st.forEachLoop l init condition update body).run q₄ = some (stmt, r)) :
    Work.Tallies st m (.loop l stmt) p r := by
  have hinside : st.Tally m (marksOfList m body + q₂.calls m) (q₃.calls m) :=
    hbody.shift (by simp [after, before]; omega)
  have hparts := parts hl hfit (hfit.initOfKind (.inr hk)) hi hc hinside hu
  have hstmt := marks_of_run_forEachLoop (m := m) hs (marks_of_run_headBlock hi)
    (marks_of_run_headBlock hu)
  have htests : l.kind.testsFirst = true := by
    cases hkind : l.kind <;> simp_all [LoopKind.testsFirst, LoopKind.isForEach]
  have hcalls : r.calls m = q₄.calls m :=
    calls_congr (visited_of_run_forEachLoop hs) (usedLabels_of_run_forEachLoop hs)
  simp only [Tallies, after, before, htests, if_true, hstmt, hcalls]
  exact hparts.shift (by omega)

/-- A handler that becomes `finally` code loses the marks that stand in front of the code and behind it. -/
theorem «finally» {handler : BlockId} {region : TryRegion} (hregion : region ∈ st.regions)
    (hhandler : region.finally? = some handler)
    (hrun : st.Runs (.list [] (some (handler, [.caught none none])) inner body) p q ns)
    (hbody : Work.Tallies st m (.list [] (some (handler, [.caught none none])) inner body) p q) :
    Work.Tallies st m (.final inner (some handler) (finallyOf body)) p q := by
  simp only [Tallies, after, before, marksOfList_nil] at hbody ⊢
  unfold finallyOf
  cases hfinally : finallyCode? body with
  | some code =>
    have hle : marksOfList m code ≤ marksOfList m body :=
      marksOfList_le_of_sublist (sublist_of_finallyCode? hfinally)
    have hlost : st.Tally m 0 (marksOfList m body - marksOfList m code + 0) :=
      .of_lost fun _ => .final hregion hhandler hrun (by omega)
    exact (hbody.add hlost).shift (by simp; omega)
  | none => exact hbody.shift (by simp [marksOfList_takeCatchVar]; omega)

end Work.Tallies

/-! ## Runs -/

/-- What a run writes is what it calls for, up to what may be missing and what may be there twice. The
induction is on the run: the parts of a rule are added up, and a difference that the rule itself makes is
accounted for by the lemma about it. -/
theorem Runs.tally {w : Work} (h : st.Runs w p q ns)
    (hfits : ∀ l ∈ st.loops, ∃ pool, l.Fits st.graph pool) (hw : w.Known st) : w.Tallies st m p q := by
  -- one case for each piece of work, and the larger ones have lemmas of their own
  induction h with
  | done | missing | leaves | noArms | noCatches | noFinally => exact .of_eq rfl
  | again =>
    refine .of_eq ?_
    simp only [Work.after, Work.before, marksOfList_append, marksOfList_cons, marksOfList_nil,
      calls_residual]
    omega
  | step _ _ _ ihfirst ihrest =>
    have hsum := (ihfirst trivial).add (ihrest trivial)
    simp only [Work.Tallies, Work.after, Work.before] at hsum ⊢
    exact hsum.shift (by omega)
  | branch hgo _ ih =>
    have hrest := ih trivial
    simp only [Work.Tallies, Work.after, Work.before] at hrest ⊢
    exact hrest.shift (by have := calls_of_goes (m := m) hgo; omega)
  | run _ _ hb _ ih => exact .run hb (ih trivial)
  | loop _ hl _ hgo ih =>
    obtain ⟨hmem, -⟩ := of_pendingLoop? hl
    obtain ⟨pool, hfit⟩ := hfits _ hmem
    exact .loop hmem hfit (ih hmem) hgo
  | tryCatch _ hr _ _ hfinal hgo ihbody ihcatches ihfinal =>
    have hregion := List.mem_of_getElem? hr
    exact .tryCatch hregion (finally_of_final hfinal) (ihbody trivial) (ihcatches trivial)
      (ihfinal fun h hh => ⟨_, hregion, hh⟩) hgo
  | goes _ hgo =>
    refine .of_eq ?_
    simp only [Work.after, Work.before, marksOfList_append, calls_of_goes hgo]
    omega
  | value _ hm hv hgo => exact .value hm hv hgo
  | test _ hm _ _ ih =>
    have hsum := (hm.tally (m := m)).add (ih trivial)
    simp only [Work.Tallies, Work.after, Work.before, calls_dropped] at hsum ⊢
    exact hsum.shift (by omega)
  | switch _ _ hgo ih => exact .switch (ih trivial) hgo
  | jsr _ hgo => exact .jsr hgo
  | @ret p out b sim stops =>
    have hstart : ∀ ws, (p.warned ws).calls m = p.calls m := fun _ => rfl
    exact .of_eq (by simp [Work.after, Work.before, hstart])
  | ifElse _ _ _ hgo ihthen ihelse =>
    have hsum := (ihthen trivial).add (ihelse trivial)
    have hjump := calls_of_goes (m := m) hgo
    simp only [Work.Tallies, Work.after, Work.before, marksOfList_append, marksOfList_cons, marksOfList_nil,
      marks_ifOf] at hsum ⊢
    exact hsum.shift (by omega)
  | arm _ _ ihbody ihrest =>
    have hsum := (ihbody trivial).add (ihrest trivial)
    simp only [Work.Tallies, Work.after, Work.before, List.map_cons, List.sum_cons] at hsum ⊢
    exact hsum.shift (by omega)
  | whileLoop hk hc _ ih =>
    obtain ⟨pool, hfit⟩ := hfits _ hw
    exact .whileLoop hfit hk hc (ih trivial)
  | forLoop hk hi hc _ hu ih =>
    obtain ⟨pool, hfit⟩ := hfits _ hw
    exact .forLoop hw hfit hk hi hc (ih trivial) hu
  | forEach hk hi hc _ hu hs ih =>
    obtain ⟨pool, hfit⟩ := hfits _ hw
    exact .forEach hw hfit hk hi hc (ih trivial) hu hs
  | doWhileSelf hk _ hc =>
    refine .of_eq ?_
    simp only [Work.after, Work.before, hk, LoopKind.testsFirst, marks_doWhile]
    simpa using marks_of_run_latchCondition (m := m) hc
  | doWhile hk _ _ hc ih =>
    have hlatch := marks_of_run_latchCondition (m := m) hc
    have hbody := ih trivial
    simp only [Work.Tallies, Work.after, Work.before, hk, LoopKind.testsFirst, marks_doWhile] at hbody ⊢
    exact hbody.shift (by simp; omega)
  | @endless p q l body ns hk _ ih =>
    have htests : l.kind.testsFirst = false := by
      rcases hk with hk | hk <;> rw [hk] <;> rfl
    have hbody := ih trivial
    simp only [Work.Tallies, Work.after, Work.before, htests, marks_whileLoop] at hbody ⊢
    exact hbody.shift (by simp; omega)
  | skipCatch _ _ ih => exact ih trivial
  | catchClause _ _ _ ihbody ihrest =>
    have hsum := (ihbody trivial).add (ihrest trivial)
    simp only [Work.Tallies, Work.after, Work.before, List.map_cons, List.sum_cons, marksOfList_takeCatchVar,
      marksOfList_nil] at hsum ⊢
    exact hsum.shift (by omega)
  | «finally» _ hbody ih =>
    obtain ⟨region, hregion, hhandler⟩ := hw _ rfl
    exact .finally hregion hhandler hbody (ih trivial)

/-! ## Jumps lead to rendered blocks -/

/-- Every label that is used is that of a rendered block. -/
def Aimed (p : Progress) : Prop := ∀ name ∈ p.usedLabels, ∃ t ∈ p.visited, name = blockLabel t

/-- Labels stay those of rendered blocks, as long as no new ones are used. -/
theorem Aimed.extends (hp : Aimed p) (hext : p.Extends q) (hu : q.usedLabels = p.usedLabels) :
    Aimed q := by
  intro name hname
  obtain ⟨t, ht, hlabel⟩ := hp name (hu ▸ hname)
  exact ⟨t, hext.visited.subset ht, hlabel⟩

/-- A jump that stays may use the label of a rendered block. -/
theorem Aimed.residual {id : BlockId} (hp : Aimed p) (hv : id ∈ p.visited) :
    Aimed (st.residual id p) := by
  intro name hname
  rcases List.mem_cons.1 hname with rfl | hname
  · exact ⟨id, hv, rfl⟩
  · exact hp name hname

/-- Going somewhere uses only labels of rendered blocks. -/
theorem Aimed.goes {stops : List BlockId} {target : Option BlockId} {jump : List Stmt}
    {next : Option BlockId} (hp : Aimed p) (h : st.Goes p stops target jump next q ns) : Aimed q := by
  cases h with
  | nowhere | stop | next => exact hp
  | jump => exact hp
  | goto _ _ hv => exact hp.residual hv

/-- Folding uses no label. -/
theorem Merges.usedLabels_eq {members : List BlockId} {t u : Test} (h : st.Merges p members t u q) :
    q.usedLabels = p.usedLabels := by
  induction h with
  | done => rfl
  | fold _ _ ih => exact ih

/-- Every jump to a label leads to a block that has been rendered. -/
theorem Runs.aimed {w : Work} (h : st.Runs w p q ns) (hp : Aimed p) : Aimed q := by
  induction h with
  | done | missing | leaves | noArms | noCatches | noFinally => exact hp
  | again hv => exact hp.residual hv
  | step _ _ _ ihfirst ihrest => exact ihrest (ihfirst hp)
  | branch hgo _ ih => exact ih (hp.goes hgo)
  | run _ _ _ _ ih => exact ih (hp.extends (st.extends_ran _ _) rfl)
  | loop _ _ _ hgo ih =>
    exact Aimed.goes (p := Progress.left _) (ih hp) hgo
  | tryCatch _ _ _ _ _ hgo ihbody ihcatches ihfinal =>
    exact (ihfinal (ihcatches (ihbody hp))).goes hgo
  | goes _ hgo => exact hp.goes hgo
  | value _ hm _ hgo =>
    have hmerged := hp.extends hm.extends hm.usedLabels_eq
    exact (hmerged.extends (Progress.extends_rendered _ _) rfl).goes hgo
  | test _ hm _ _ ih =>
    refine ih ((hp.extends hm.extends hm.usedLabels_eq).extends (extends_dropped _ _) ?_)
    unfold dropped
    split <;> rfl
  | switch _ _ hgo ih => exact Aimed.goes (p := Progress.left _) (ih hp) hgo
  | jsr _ hgo => exact Aimed.goes (p := Progress.warned _ _) hp hgo
  | ret => exact hp
  | ifElse _ _ _ hgo ihthen ihelse => exact (ihelse (ihthen hp)).goes hgo
  | arm _ _ ihbody ihrest => exact ihrest (ihbody hp)
  | whileLoop _ hc _ ih =>
    exact ih (hp.extends (extends_of_run_loopCondition hc) (usedLabels_of_run_loopCondition hc))
  | forLoop _ hi hc _ hu ih =>
    have hinit := hp.extends (extends_of_run_headBlock hi) (usedLabels_of_run_headBlock hi)
    have hhead := hinit.extends (extends_of_run_loopCondition hc) (usedLabels_of_run_loopCondition hc)
    exact (ih hhead).extends (extends_of_run_headBlock hu) (usedLabels_of_run_headBlock hu)
  | forEach _ hi hc _ hu hs ih =>
    have hinit := hp.extends (extends_of_run_headBlock hi) (usedLabels_of_run_headBlock hi)
    have hhead := hinit.extends (extends_of_run_loopCondition hc) (usedLabels_of_run_loopCondition hc)
    have hupdate := (ih hhead).extends (extends_of_run_headBlock hu) (usedLabels_of_run_headBlock hu)
    exact hupdate.extends (extends_of_run_forEachLoop hs) (usedLabels_of_run_forEachLoop hs)
  | doWhileSelf _ _ hc =>
    exact hp.extends (extends_of_run_latchCondition hc) (usedLabels_of_run_latchCondition hc)
  | doWhile _ _ _ hc ih =>
    exact (ih hp).extends (extends_of_run_latchCondition hc) (usedLabels_of_run_latchCondition hc)
  | endless _ _ ih => exact ih hp
  | skipCatch _ _ ih => exact ih hp
  | catchClause _ _ _ ihbody ihrest => exact ihrest (ihbody hp)
  | «finally» _ _ ih => exact ih hp

end Structurer

/-! ## Methods -/

namespace MethodCode

variable {pool : ConstantPool} {attr : CodeAttribute} {code : MethodCode}

/-- Every jump to a label in a method is to the label of a block that is rendered. The label is there,
unless it is one that may be missing, and it is there only once, unless a loop that does not test first
starts at the block, or the block is a late part of a loop. -/
theorem residual_labels (h : MethodCode.decode pool attr = .ok code) (inlineReturns : Bool)
    (ctx : SimContext) (method : String) (strip : Bool) :
    let g := code.reduced pool inlineReturns
    let st := Structurer.ofGraph g ctx method strip
    let body := (g.structured ctx method strip).statements
    ∀ name, 0 < marksOfList (.goto name) body →
      ∃ t statements p, name = Structurer.blockLabel t ∧
        g.structuring? ctx method strip = some (statements, p) ∧ t ∈ p.visited ∧
        (¬st.MayLose (.label name) → 1 ≤ marksOfList (.label name) body) ∧
        (¬st.MayRepeat (.label name) → st.Plain t → marksOfList (.label name) body ≤ 1) := by
  intro g st body name hgoto
  obtain ⟨statements, p, ns, hrun, hruns⟩ := g.exists_runs_structuring ctx method strip
  have hfits := exists_fits_of_mem_loops h inlineReturns ctx method strip
  -- only unused labels are taken out in the end
  have hbody : body = retainLabels p.usedLabels statements := by
    by_cases hne : g.blocks = []
    · simp [body, FlowGraph.structured, FlowGraph.structured?, hne] at hgoto
    · exact (FlowGraph.warnings_structured_of_structuring? hne hrun).1
  have hstart : ∀ m, Progress.start.calls m = 0 := fun m => by cases m <;> rfl
  have htally : ∀ m, st.Tally m (marksOfList m statements) (p.calls m) := fun m =>
    (hruns.tally hfits trivial).shift (by
      simp only [Structurer.Work.after, Structurer.Work.before, marksOfList_nil, hstart]
      omega)
  -- jumps are never written twice, so the jump is in what structuring has written, and its label is used
  have hused : name ∈ p.usedLabels := by
    obtain ⟨lost, more, hsum, -, hmore⟩ := htally (.goto name)
    have hnone : more = 0 := by
      by_contra hne
      cases hmore hne
    have hkept : marksOfList (.goto name) body = marksOfList (.goto name) statements := by
      rw [hbody]
      exact marksOfList_retainLabels (by simp) statements
    rw [hkept] at hgoto
    rw [Progress.calls] at hsum
    exact List.count_pos_iff.1 (by omega)
  have haimed : Structurer.Aimed Progress.start := fun name hname => absurd hname List.not_mem_nil
  obtain ⟨t, ht, rfl⟩ := hruns.aimed haimed name hused
  -- the label of a block is called for as often as the block is rendered
  have hcalls : p.calls (.label (Structurer.blockLabel t)) = p.visited.count t := by
    rw [Progress.calls, List.count]
    refine List.countP_congr fun id _ => ?_
    simp only [decide_eq_true_eq, beq_iff_eq]
    exact ⟨Structurer.label_injective "L", fun heq => heq ▸ rfl⟩
  have hlabel : marksOfList (.label (Structurer.blockLabel t)) body =
      marksOfList (.label (Structurer.blockLabel t)) statements := by
    rw [hbody]
    exact marksOfList_retainLabels (fun name hname => Mark.label.inj hname ▸ hused) statements
  obtain ⟨lost, more, hsum, hlost, hmore⟩ := htally (.label (Structurer.blockLabel t))
  refine ⟨t, statements, p, rfl, hrun, ht, fun hkept => ?_, fun hone hplain => ?_⟩
  · have hzero : lost = 0 := not_not.1 fun hne => hkept (hlost hne)
    have := List.count_pos_iff.2 ht
    omega
  -- a plain block is rendered once
  · have hzero : more = 0 := not_not.1 fun hne => hone (hmore hne)
    have := hruns.once hfits trivial (fun b _ => by simp [Progress.start]) t hplain
    omega

/-- A cycle with two ways in. -/
def tangled : CodeAttribute :=
  ⟨1, 1, [0x1a, 0x99, 0x00, 0x06, 0x84, 0x00, 0x01, 0x84, 0x00, 0xff, 0x1a, 0x9d, 0xff, 0xf9, 0xb1], [], []⟩

/-- A jump into an endless loop. -/
def jumpIntoLoop : CodeAttribute :=
  ⟨1, 5, [0x1a, 0x99, 0x00, 0x0f, 0x84, 0x01, 0x01, 0xa7, 0x00, 0x0c, 0x84, 0x04, 0x01, 0xa7, 0x00, 0x06,
    0x84, 0x02, 0x01, 0x84, 0x03, 0x01, 0xa7, 0xff, 0xf4], [], []⟩

/-- A jump to an arm of a conditional expression. -/
def jumpToValue : CodeAttribute :=
  ⟨1, 4, [0x1a, 0x99, 0x00, 0x0e, 0x84, 0x02, 0x01, 0x1b, 0x99, 0x00, 0x07, 0x04, 0xa7, 0x00, 0x04, 0x03,
    0x3e, 0xb1], [], []⟩

/-- In a cycle with two ways in, the jump that stays has its label once. -/
theorem residual_labels_tangled :
    ∃ code, MethodCode.decode .empty tangled = .ok code ∧
      let body := ((code.reduced .empty true).structured plainContext "" false).statements
      0 < marksOfList (.goto "L4") body ∧ marksOfList (.label "L4") body = 1 := by
  have hdecode : ∃ code, MethodCode.decode .empty tangled = .ok code ∧
      0 < marksOfList (.goto "L4")
        ((code.reduced .empty true).structured plainContext "" false).statements ∧
      (Structurer.ofGraph (code.reduced .empty true) plainContext "" false).loops = [] ∧
      (Structurer.ofGraph (code.reduced .empty true) plainContext "" false).regions = [] ∧
      ((code.reduced .empty true).block? 4).map
        (fun b => (b.simulate plainContext []).statements.isEmpty) = some false :=
    ⟨_, rfl, by cbv, by cbv, by cbv, by cbv⟩
  obtain ⟨code, hcode, hgoto, hloops, hregions, hstatements⟩ := hdecode
  obtain ⟨t, statements, p, hname, -, -, hkept, hone⟩ :=
    residual_labels hcode true plainContext "" false "L4" hgoto
  have hlose : ¬(Structurer.ofGraph (code.reduced .empty true) plainContext "" false).MayLose
      (.label "L4") := by
    intro h
    generalize hm : Mark.label "L4" = m at h
    cases h with
    | @silent t hsilent =>
      obtain rfl : 4 = t := Structurer.label_injective "L" (Mark.label.inj hm)
      obtain ⟨-, b, hb, hnone, -⟩ := hsilent
      rw [show (code.reduced .empty true).block? 4 = some b from hb] at hstatements
      have hempty : (b.simulate plainContext []).statements = [] := hnone
      simp [hempty] at hstatements
    | update hl => simp [hloops] at hl
    | final hr => simp [hregions] at hr
    | copies _ hr => simp [hregions] at hr
  have hrepeat : ¬(Structurer.ofGraph (code.reduced .empty true) plainContext "" false).MayRepeat
      (.label "L4") := by
    intro h
    generalize Mark.label "L4" = m at h
    cases h with
    | reopened hl => simp [hloops] at hl
  have hplain : (Structurer.ofGraph (code.reduced .empty true) plainContext "" false).Plain t :=
    fun l hl => by simp [hloops] at hl
  exact ⟨code, hcode, hgoto, Nat.le_antisymm (hone hrepeat hplain) (hkept hlose)⟩

/-- A label can be there twice, and it can be missing. -/
theorem not_label_once :
    (∃ code, MethodCode.decode .empty jumpIntoLoop = .ok code ∧
      let body := ((code.reduced .empty true).structured plainContext "" false).statements
      marksOfList (.goto "L19") body = 1 ∧ marksOfList (.label "L19") body = 2) ∧
    ∃ code, MethodCode.decode .empty jumpToValue = .ok code ∧
      let body := ((code.reduced .empty true).structured plainContext "" false).statements
      marksOfList (.goto "L15") body = 1 ∧ marksOfList (.label "L15") body = 0 := by
  constructor
  · have hdecode : ∃ code, MethodCode.decode .empty jumpIntoLoop = .ok code ∧
        let body := ((code.reduced .empty true).structured plainContext "" false).statements
        (marksOfList (.goto "L19") body, marksOfList (.label "L19") body) = (1, 2) := ⟨_, rfl, by cbv⟩
    obtain ⟨code, hcode, hcounts⟩ := hdecode
    exact ⟨code, hcode, Prod.mk.inj hcounts⟩
  · have hdecode : ∃ code, MethodCode.decode .empty jumpToValue = .ok code ∧
        let body := ((code.reduced .empty true).structured plainContext "" false).statements
        (marksOfList (.goto "L15") body, marksOfList (.label "L15") body) = (1, 0) := ⟨_, rfl, by cbv⟩
    obtain ⟨code, hcode, hcounts⟩ := hdecode
    exact ⟨code, hcode, Prod.mk.inj hcounts⟩

end MethodCode

end JvmDecompiler
