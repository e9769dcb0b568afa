import JvmDecompiler.Proofs.LoopParts
import JvmDecompiler.Structuring
import Mathlib.Data.List.Forall2

/-!
# The progress of structuring

What the single steps of structuring do to the progress made so far, those that write no list of
statements. Each of them has a result, and none of them takes back what has been done
(`Progress.Extends`): blocks stay rendered, loops and try statements stay started, warnings stay, and
the enclosing statements are the same but for the marks on their labels.
-/

namespace JvmDecompiler

/-- The same enclosing statement, with its label marked as used or not. -/
def Breakable.Marks (b c : Breakable) : Prop := ∃ used, c = { b with labelUsed := b.labelUsed || used }

/-- The enclosing statement without the mark on its label. -/
def Breakable.unmarked (b : Breakable) : Breakable := { b with labelUsed := false }

/-- A mark is all that differs. -/
theorem Breakable.Marks.unmarked_eq {b c : Breakable} (h : b.Marks c) : c.unmarked = b.unmarked := by
  obtain ⟨used, rfl⟩ := h
  rfl

/-- A statement may stay as it is. -/
theorem Breakable.Marks.refl (b : Breakable) : b.Marks b := ⟨false, by simp⟩

/-- A statement that is marked stays marked. -/
theorem Breakable.Marks.trans {a b c : Breakable} (h₁ : a.Marks b) (h₂ : b.Marks c) : a.Marks c := by
  obtain ⟨u, rfl⟩ := h₁
  obtain ⟨v, rfl⟩ := h₂
  exact ⟨u || v, by simp [Bool.or_assoc]⟩

/-- Marking a statement under a condition is marking it or leaving it as it is. -/
theorem Breakable.Marks.ite (c : Prop) [Decidable c] (b : Breakable) :
    b.Marks (if c then { b with labelUsed := true } else b) := by
  split
  · exact ⟨true, by simp⟩
  · exact .refl b

namespace Progress

/-- What has been done is still done. -/
structure Extends (p q : Progress) : Prop where
  visited : p.visited <:+ q.visited
  loopsDone : p.loopsDone <:+ q.loopsDone
  triesDone : p.triesDone <:+ q.triesDone
  usedLabels : p.usedLabels <:+ q.usedLabels
  warnings : p.warnings <+: q.warnings
  breakables : List.Forall₂ Breakable.Marks p.breakables q.breakables

/-- Progress extends itself. -/
theorem Extends.refl (p : Progress) : p.Extends p :=
  ⟨List.suffix_rfl, List.suffix_rfl, List.suffix_rfl, List.suffix_rfl, List.prefix_rfl,
    List.forall₂_same.2 fun b _ => .refl b⟩

/-- Statements around can be marked in several steps. -/
theorem marks_trans {l₁ l₂ l₃ : List Breakable} (h₁ : List.Forall₂ Breakable.Marks l₁ l₂)
    (h₂ : List.Forall₂ Breakable.Marks l₂ l₃) : List.Forall₂ Breakable.Marks l₁ l₃ := by
  induction h₁ generalizing l₃ with
  | nil => exact h₂
  | cons hb _ ih =>
    cases h₂ with
    | cons hc hrest => exact .cons (hb.trans hc) (ih hrest)

/-- What is kept by two steps is kept by both together. -/
theorem Extends.trans {p q r : Progress} (h₁ : p.Extends q) (h₂ : q.Extends r) : p.Extends r :=
  ⟨h₁.visited.trans h₂.visited, h₁.loopsDone.trans h₂.loopsDone, h₁.triesDone.trans h₂.triesDone,
    h₁.usedLabels.trans h₂.usedLabels, h₁.warnings.trans h₂.warnings,
    marks_trans h₁.breakables h₂.breakables⟩

/-- If there is no warning in the end, there has been none before. -/
theorem Extends.of_warnings_eq_nil {p q : Progress} (h : p.Extends q) (hq : q.warnings = []) :
    p.warnings = [] := List.prefix_nil.1 (hq ▸ h.warnings)

/-- The progress with some more warnings. -/
def warned (p : Progress) (ws : List Warning) : Progress := { p with warnings := p.warnings ++ ws }

/-- The progress when blocks have been rendered as well, the first one last. -/
def rendered (p : Progress) (ids : List BlockId) : Progress := { p with visited := ids ++ p.visited }

/-- The progress when a loop has been started. -/
def started (p : Progress) (header : BlockId) : Progress :=
  { p with loopsDone := header :: p.loopsDone }

/-- The progress when a try statement has been started. -/
def tried (p : Progress) (i : Nat) : Progress := { p with triesDone := i :: p.triesDone }

/-- The progress inside a statement that can be left by `break`. -/
def entered (p : Progress) (b : Breakable) : Progress := { p with breakables := b :: p.breakables }

/-- The progress behind the innermost statement that can be left by `break`. -/
def left (p : Progress) : Progress := { p with breakables := p.breakables.tail }

/-- The progress when a label has been used. -/
def labelled (p : Progress) (label : String) : Progress :=
  { p with usedLabels := label :: p.usedLabels }

section Fields

variable (p : Progress) (ws : List Warning) (ids : List BlockId) (header : BlockId) (i : Nat)
  (b : Breakable)

@[simp] theorem visited_warned : (p.warned ws).visited = p.visited := rfl
@[simp] theorem visited_rendered : (p.rendered ids).visited = ids ++ p.visited := rfl
@[simp] theorem visited_started : (p.started header).visited = p.visited := rfl
@[simp] theorem visited_tried : (p.tried i).visited = p.visited := rfl
@[simp] theorem visited_entered : (p.entered b).visited = p.visited := rfl
@[simp] theorem visited_left : p.left.visited = p.visited := rfl
@[simp] theorem warnings_warned : (p.warned ws).warnings = p.warnings ++ ws := rfl
@[simp] theorem warnings_rendered : (p.rendered ids).warnings = p.warnings := rfl
@[simp] theorem warnings_started : (p.started header).warnings = p.warnings := rfl
@[simp] theorem warnings_tried : (p.tried i).warnings = p.warnings := rfl
@[simp] theorem warnings_entered : (p.entered b).warnings = p.warnings := rfl
@[simp] theorem warnings_left : p.left.warnings = p.warnings := rfl
@[simp] theorem breakables_warned : (p.warned ws).breakables = p.breakables := rfl
@[simp] theorem breakables_rendered : (p.rendered ids).breakables = p.breakables := rfl
@[simp] theorem breakables_started : (p.started header).breakables = p.breakables := rfl
@[simp] theorem breakables_tried : (p.tried i).breakables = p.breakables := rfl
@[simp] theorem breakables_entered : (p.entered b).breakables = b :: p.breakables := rfl
@[simp] theorem breakables_left : p.left.breakables = p.breakables.tail := rfl

/-- A warning only adds to the warnings. -/
theorem extends_warned : p.Extends (p.warned ws) :=
  { Extends.refl p with warnings := List.prefix_append _ _ }

/-- Rendering blocks only adds to the record of rendered blocks. -/
theorem extends_rendered : p.Extends (p.rendered ids) :=
  { Extends.refl p with visited := List.suffix_append _ _ }

/-- To start a loop takes nothing back. -/
theorem extends_started : p.Extends (p.started header) :=
  { Extends.refl p with loopsDone := List.suffix_cons _ _ }

/-- To start a try statement takes nothing back. -/
theorem extends_tried : p.Extends (p.tried i) :=
  { Extends.refl p with triesDone := List.suffix_cons _ _ }

/-- What extends the progress inside a statement extends, behind it, the progress in front of it. -/
theorem Extends.left {p q : Progress} {b : Breakable} (h : (p.entered b).Extends q) :
    p.Extends q.left := by
  have htail : List.Forall₂ Breakable.Marks p.breakables q.breakables.tail := by
    have hall : List.Forall₂ Breakable.Marks (b :: p.breakables) q.breakables := h.breakables
    cases hq : q.breakables with
    | nil => simp [hq] at hall
    | cons c rest => exact (List.forall₂_cons.1 (hq ▸ hall)).2
  exact { h with breakables := htail }

end Fields

end Progress

namespace Structurer

variable (st : Structurer) {p q : Progress}

/-! ## Steps that always do the same -/

/-- A warning about the method. -/
def ambiguity (message : String) : Warning := ⟨.reductionAmbiguity, st.method, message⟩

/-- A warning has no other effect. -/
@[simp] theorem run_warn (message : String) :
    (st.warn message).run p = some ((), p.warned [st.ambiguity message]) := rfl

/-- Visiting a block puts it into the record. -/
@[simp] theorem run_visit (id : BlockId) : (visit id).run p = some ((), p.rendered [id]) := rfl

/-- Looking at the progress changes nothing. -/
@[simp] theorem run_get : (get : Structure Progress).run p = some (p, p) := rfl

/-- A value that is given changes nothing. -/
@[simp] theorem run_pure {α : Type} (a : α) : (pure a : Structure α).run p = some (a, p) := rfl

/-- A computation that has a result goes on with it. -/
theorem run_bind {α β : Type} {x : Structure α} {f : α → Structure β} {a : α}
    (h : x.run p = some (a, q)) : (x >>= f).run p = (f a).run q := by
  rw [StateT.run_bind, h]
  rfl

/-- The warnings about a block that has been run. -/
def blockWarnings (b : Block) (sim : SimulatedBlock) : List Warning :=
  sim.diagnostics.map fun d => st.ambiguity s!"block {b.id}: {d}"

/-- Simulating a block gives its statements and warns of what the simulation reports. -/
@[simp] theorem run_simulate (b : Block) (stack : List Expr) :
    (st.simulate b stack).run p =
      some (b.simulate st.ctx stack, p.warned (st.blockWarnings b (b.simulate st.ctx stack))) := by
  have key : ∀ (ds : List String) (p : Progress),
      (ds.forM fun d => st.warn s!"block {b.id}: {d}").run p =
        some ((), p.warned (ds.map fun d => st.ambiguity s!"block {b.id}: {d}")) := by
    intro ds
    induction ds with
    | nil => intro p; simp [Progress.warned]
    | cons d ds ih =>
      intro p
      rw [List.forM, run_bind (st.run_warn _), ih]
      simp [Progress.warned]
  unfold simulate
  dsimp only
  rw [run_bind (key _ p)]
  rfl

/-- The progress when a jump to the label of a block has been written. -/
def residual (id : BlockId) (p : Progress) : Progress :=
  (p.labelled (blockLabel id)).warned [st.ambiguity s!"jump to {id} has no structured form"]

/-- A jump that stays renders nothing. -/
@[simp] theorem visited_residual (id : BlockId) : (st.residual id p).visited = p.visited := rfl

/-- A jump that stays marks no statement around. -/
@[simp] theorem breakables_residual (id : BlockId) : (st.residual id p).breakables = p.breakables := rfl

/-- A jump that stays is warned of. -/
theorem warnings_residual_ne_nil (id : BlockId) : (st.residual id p).warnings ≠ [] := by
  simp [residual]

/-- A jump that stays takes nothing back. -/
theorem extends_residual (id : BlockId) : p.Extends (st.residual id p) :=
  { Progress.Extends.refl p with
    usedLabels := List.suffix_cons _ _, warnings := List.prefix_append _ _ }

/-- What is written for a jump that stays, and what it does to the progress. -/
@[simp] theorem run_residualGoto (id : BlockId) :
    (st.residualGoto id).run p = some (.gotoLabel (blockLabel id), st.residual id p) := rfl

/-- To enter a statement puts it in front of those around. -/
@[simp] theorem run_enter (b : Breakable) : (enter b).run p = some ((), p.entered b) := rfl

/-- A statement with a label in front of it if the label is used. -/
def labelIf (used : Bool) (label : String) (stmt : Stmt) : Stmt :=
  if used then .labeled label stmt else stmt

/-- To leave a statement takes it from those around, and gives it its label if a jump has named it. -/
@[simp] theorem run_leave (label : String) (stmt : Stmt) :
    (leave label stmt).run p =
      some (labelIf (p.breakables.head?.any (·.labelUsed)) label stmt, p.left) := rfl

/-- The blocks at which a list inside a statement ends. -/
def innerStops (p : Progress) (join : Option BlockId) (stops : List BlockId) : List BlockId :=
  match join with
  | some join => join :: stops.filter (!isJumpTarget p.breakables ·)
  | none => stops

/-- The places where a list inside a statement ends do not change the progress. -/
@[simp] theorem run_nestedStops (join : Option BlockId) (stops : List BlockId) :
    (nestedStops join stops).run p = some (innerStops p join stops, p) := by
  cases join <;> rfl

/-! ## Going to a block -/

/-- What is noted about the statements that structuring writes. -/
inductive Note where
  /-- A `break` or `continue` in the place of a jump to a block, with the statements that it stands in,
  from the inside. -/
  | jump (target : BlockId) (stmt : Stmt) (around : List Breakable)
  /-- A loop or a switch, with what is known of it while it is written. -/
  | enclosing (b : Breakable) (stmt : Stmt)
  /-- The end of a list, in the place of a jump to a block, with the blocks at which the list may end. -/
  | stop (target : BlockId) (stops : List BlockId)

/-- What going to a block does at the end of a list with given ends: the statements that are written,
the block to go on with, the progress then, and the notes. -/
inductive Goes (p : Progress) (stops : List BlockId) :
    Option BlockId → List Stmt → Option BlockId → Progress → List Note → Prop
  | nowhere : Goes p stops none [] none p []
  | stop {t : BlockId} (ht : t ∈ stops) : Goes p stops (some t) [] none p [.stop t stops]
  | jump {t : BlockId} {stmt : Stmt} {bs : List Breakable} (ht : t ∉ stops)
      (hj : jumpWithin t [] p.breakables = some (stmt, bs)) :
      Goes p stops (some t) [stmt] none { p with breakables := bs }
        [.jump t stmt (p.breakables.map Breakable.unmarked)]
  | goto {t : BlockId} (ht : t ∉ stops) (hj : jumpWithin t [] p.breakables = none)
      (hv : t ∈ p.visited) :
      Goes p stops (some t) [.gotoLabel (blockLabel t)] none (st.residual t p) []
  | next {t : BlockId} (ht : t ∉ stops) (hj : jumpWithin t [] p.breakables = none)
      (hv : t ∉ p.visited) : Goes p stops (some t) [] (some t) p []

/-- Going to a block is one of the four ways of going there. -/
theorem exists_goes_follow (target : BlockId) (stops : List BlockId) :
    ∃ jump next q ns, (st.follow target stops).run p = some ((jump, next), q) ∧
      st.Goes p stops (some target) jump next q ns := by
  unfold follow
  -- the four ways of going, in the order in which they are tried
  by_cases ht : target ∈ stops
  · exact ⟨_, _, _, _, by rw [if_pos (by simpa using ht)]; rfl, .stop ht⟩
  · rw [if_neg (by simpa using ht)]
    cases hj : jumpWithin target [] p.breakables with
    | some r =>
      obtain ⟨stmt, bs⟩ := r
      have hrun : (jump? target).run p = some (some stmt, { p with breakables := bs }) := by
        unfold jump?
        rw [run_bind run_get, hj]
        rfl
      exact ⟨_, _, _, _, by rw [run_bind hrun]; rfl, .jump ht hj⟩
    | none =>
      have hrun : (jump? target).run p = some (none, p) := by
        unfold jump?
        rw [run_bind run_get, hj]
        rfl
      by_cases hv : target ∈ p.visited
      · refine ⟨_, _, _, _, ?_, .goto ht hj hv⟩
        rw [run_bind hrun]
        dsimp only
        rw [run_bind run_get, if_pos (by simpa using hv), run_bind (st.run_residualGoto target)]
        rfl
      · refine ⟨_, _, _, _, ?_, .next ht hj hv⟩
        rw [run_bind hrun]
        dsimp only
        rw [run_bind run_get, if_neg (by simpa using hv)]
        rfl

/-- Going to a block with values on the stack goes there as without them. -/
theorem exists_goes_followFrom (out : List Stmt) (target : BlockId) (stops : List BlockId)
    (stack : List Expr) : ∃ jump next q ns,
      (st.followFrom out target stops stack).run p = some ((out ++ jump, next.map (·, stack)), q) ∧
        st.Goes p stops (some target) jump next q ns := by
  obtain ⟨jump, next, q, ns, hrun, hgoes⟩ := st.exists_goes_follow (p := p) target stops
  exact ⟨jump, next, q, ns, by rw [followFrom, run_bind hrun]; rfl, hgoes⟩

/-- Going to a block that may be absent goes nowhere if it is. -/
theorem exists_goes_followOption (out : List Stmt) (target : Option BlockId) (stops : List BlockId) :
    ∃ jump next q ns,
      (st.followOption out target stops).run p = some ((out ++ jump, next.map (·, [])), q) ∧
        st.Goes p stops target jump next q ns := by
  cases target with
  | none => exact ⟨[], none, p, [], by simp [followOption], .nowhere⟩
  | some target => exact st.exists_goes_followFrom out target stops []

/-- Of the statements around, one in the middle may be marked. -/
theorem marks_reverse_append {inner bs : List Breakable} {b c : Breakable} (h : b.Marks c) :
    List.Forall₂ Breakable.Marks (inner ++ b :: bs) (inner ++ c :: bs) := by
  induction inner with
  | nil => exact .cons h (List.forall₂_same.2 fun b _ => .refl b)
  | cons d inner ih => exact .cons (.refl d) ih

/-- A jump changes nothing about the enclosing statements but the mark of the label that it names. -/
theorem marks_of_jumpWithin {t : BlockId} {inner outer bs : List Breakable} {stmt : Stmt}
    (h : jumpWithin t inner outer = some (stmt, bs)) :
    List.Forall₂ Breakable.Marks (inner.reverse ++ outer) bs := by
  induction outer generalizing inner with
  | nil => cases h
  | cons b outer ih =>
    unfold jumpWithin at h
    dsimp only at h
    split at h
    · obtain ⟨-, rfl⟩ := Prod.mk.inj (Option.some.inj h)
      exact marks_reverse_append (.ite _ b)
    · simpa using ih h

/-- Going somewhere takes nothing back. -/
theorem Goes.extends {st : Structurer} {stops : List BlockId} {target : Option BlockId}
    {jump : List Stmt} {next : Option BlockId} {ns : List Note}
    (h : st.Goes p stops target jump next q ns) :
    p.Extends q := by
  cases h with
  | nowhere | stop | next => exact .refl p
  | jump _ hj => exact { Progress.Extends.refl p with breakables := marks_of_jumpWithin hj }
  | goto => exact st.extends_residual _

/-! ## Folding tests -/

/-- Folding blocks that only test into a test, from one progress to another. -/
inductive Merges : Progress → List BlockId → Test → Test → Progress → Prop
  | done {p : Progress} {members : List BlockId} {t : Test}
      (h : (st.foldFallthrough? p members t <|> st.foldTaken? p members t) = none) :
      Merges p members t t p
  | fold {p q : Progress} {members : List BlockId} {t u v : Test} {folded : BlockId}
      (h : (st.foldFallthrough? p members t <|> st.foldTaken? p members t) = some (u, folded))
      (hrest : Merges (p.rendered [folded]) (folded :: members) u v q) : Merges p members t v q

section Filter

variable {α β : Type} [BEq α] [LawfulBEq α] {key : β → α} {done done' : List α}

/-- The more is done, the less is left. -/
theorem filter_sublist_of_subset (h : done ⊆ done') (l : List β) :
    (l.filter fun b => !done'.contains (key b)).Sublist (l.filter fun b => !done.contains (key b)) := by
  refine List.monotone_filter_right l fun b hb => ?_
  simp only [Bool.not_eq_true', List.contains_eq_mem, decide_eq_false_iff_not] at hb ⊢
  exact fun hmem => hb (h hmem)

/-- If something new is done, less is left to do. -/
theorem length_filter_lt {l : List β} {b : β} (h : done ⊆ done') (hb : b ∈ l) (hdone : key b ∉ done)
    (hdone' : key b ∈ done') :
    (l.filter fun b => !done'.contains (key b)).length <
      (l.filter fun b => !done.contains (key b)).length := by
  have hsub := @filter_sublist_of_subset _ _ _ _ key _ _ h l
  refine Nat.lt_of_le_of_ne hsub.length_le fun heq => ?_
  have hin : b ∈ l.filter fun b => !done.contains (key b) :=
    List.mem_filter.2 ⟨hb, by simpa using hdone⟩
  rw [← hsub.eq_of_length heq] at hin
  simp [hdone'] at hin

end Filter

/-- The blocks of the graph that have not been rendered. -/
def unvisited (p : Progress) : List BlockId := st.graph.ids.filter fun id => !p.visited.contains id

/-- Rendering more leaves no more blocks to render. -/
theorem length_unvisited_le (h : p.visited ⊆ q.visited) :
    (st.unvisited q).length ≤ (st.unvisited p).length :=
  (@filter_sublist_of_subset _ _ _ _ id _ _ h st.graph.ids).length_le

/-- Rendering a block of the graph that had not been rendered leaves fewer blocks to render. -/
theorem length_unvisited_lt {id : BlockId} (h : p.visited ⊆ q.visited) (hmem : id ∈ st.graph.ids)
    (hp : id ∉ p.visited) (hq : id ∈ q.visited) :
    (st.unvisited q).length < (st.unvisited p).length :=
  @length_filter_lt _ _ _ _ (fun id => id) _ _ _ _ h hmem hp hq

/-- The block goes to `ifHolds` if `c` holds and to `ifNot` otherwise, where it evaluates `condition` or
nothing. -/
def Decides (b : Block) (condition c : Expr) (ifHolds ifNot : BlockId) : Prop :=
  ∃ k, b.terminator = .branch k ifHolds ifNot ∧ c = condition ∨
    b.terminator = .branch k ifNot ifHolds ∧ c = condition.negate

/-- The block has not been rendered, starts no statement, and does nothing but evaluate a condition. -/
structure TestsOnly (p : Progress) (id : BlockId) (b : Block) (condition : Expr) : Prop where
  unvisited : id ∉ p.visited
  plain : st.startsStatement id = false
  block : st.graph.block? id = some b
  condition : (b.simulate st.ctx []).condition = some condition
  statements : (b.simulate st.ctx []).statements = []
  diagnostics : (b.simulate st.ctx []).diagnostics = []

/-- A pure condition is found in a block that does nothing but test. -/
theorem testsOnly_of_pureCondition? {members : List BlockId} {id ifTrue ifFalse : BlockId} {c : Expr}
    (h : st.pureCondition? p members id = some (c, ifTrue, ifFalse)) :
    ∃ b k, st.TestsOnly p id b c ∧ b.terminator = .branch k ifTrue ifFalse := by
  simp only [pureCondition?, Option.bind_eq_bind, Option.bind_none, Option.pure_def,
    Option.ite_none_left_eq_some, Option.bind_eq_some_iff, Bool.or_eq_true, Bool.not_eq_true',
    not_or, Bool.not_eq_true, Bool.not_eq_false, Option.some.injEq, Prod.mk.injEq] at h
  obtain ⟨⟨hv, hplain⟩, b, hb, ⟨x, y⟩, hbranches, -, ⟨⟨hs, -⟩, hd⟩, c', hc, rfl, rfl, rfl⟩ := h
  refine ⟨b, ?_⟩
  have hterm : ∃ k, b.terminator = .branch k x y := by
    unfold FlowGraph.branches? at hbranches
    rw [hb] at hbranches
    simp only [Option.map_some] at hbranches
    split at hbranches
    · rename_i k _ _ hk
      cases hbranches
      exact ⟨k, Option.some.inj hk⟩
    · cases hbranches
  obtain ⟨k, hk⟩ := hterm
  exact ⟨k, ⟨by simpa using hv, hplain, hb, hc, List.isEmpty_iff.1 hs, List.isEmpty_iff.1 hd⟩, hk⟩

/-- A block is folded into a test: behind the failed test with `||`, or behind the passed one with
`&&`. -/
inductive Folds (p : Progress) (t : Test) : Test → BlockId → Prop
  | fallthrough {b : Block} {condition c : Expr} {next : BlockId} {line : SourceLine}
      (hb : st.TestsOnly p t.fallthrough b condition) (hc : Decides b condition c t.taken next) :
      Folds p t ⟨.binary line .or t.condition c, t.taken, next⟩ t.fallthrough
  | taken {b : Block} {condition c : Expr} {next : BlockId} {line : SourceLine}
      (hb : st.TestsOnly p t.taken b condition) (hc : Decides b condition c next t.fallthrough) :
      Folds p t ⟨.binary line .and t.condition c, next, t.fallthrough⟩ t.taken

/-- Folding a block into a test is one of the two ways of folding. -/
theorem folds_of_fold? {members : List BlockId} {t u : Test} {folded : BlockId}
    (h : (st.foldFallthrough? p members t <|> st.foldTaken? p members t) = some (u, folded)) :
    st.Folds p t u folded := by
  have hor : st.foldFallthrough? p members t = some (u, folded) ∨
      st.foldTaken? p members t = some (u, folded) := by
    cases hf : st.foldFallthrough? p members t with
    | some r => exact .inl (by simpa [hf] using h)
    | none => exact .inr (by simpa [hf] using h)
  rcases hor with h | h
  · simp only [foldFallthrough?, Option.bind_eq_bind, Option.bind_eq_some_iff, Option.pure_def] at h
    obtain ⟨⟨c, ifTrue, ifFalse⟩, hpure, h⟩ := h
    obtain ⟨b, k, hb, hterm⟩ := st.testsOnly_of_pureCondition? hpure
    dsimp only at h
    split at h
    · rename_i htaken
      cases h
      exact .fallthrough hb ⟨k, .inl ⟨htaken ▸ hterm, rfl⟩⟩
    · split at h
      · rename_i htaken
        cases h
        exact .fallthrough hb ⟨k, .inr ⟨htaken ▸ hterm, rfl⟩⟩
      · cases h
  · simp only [foldTaken?, Option.bind_eq_bind, Option.bind_eq_some_iff, Option.pure_def] at h
    obtain ⟨⟨c, ifTrue, ifFalse⟩, hpure, h⟩ := h
    obtain ⟨b, k, hb, hterm⟩ := st.testsOnly_of_pureCondition? hpure
    dsimp only at h
    split at h
    · rename_i hnot
      cases h
      exact .taken hb ⟨k, .inl ⟨hnot ▸ hterm, rfl⟩⟩
    · split at h
      · rename_i hnot
        cases h
        exact .taken hb ⟨k, .inr ⟨hnot ▸ hterm, rfl⟩⟩
      · cases h

/-- A block that is folded into a test does nothing but test itself. -/
theorem Folds.testsOnly {st : Structurer} {t u : Test} {folded : BlockId}
    (h : st.Folds p t u folded) : ∃ b condition, st.TestsOnly p folded b condition := by
  cases h with
  | fallthrough hb | taken hb => exact ⟨_, _, hb⟩

/-- Folding ends: every round renders another block, and there are only as many as the graph has. -/
theorem exists_merges {steps : Nat} (members : List BlockId) (t : Test)
    (h : (st.unvisited p).length < steps) :
    ∃ u q, (st.mergeTests steps members t).run p = some (u, q) ∧ st.Merges p members t u q := by
  induction steps generalizing p members t with
  | zero => exact absurd h (Nat.not_lt_zero _)
  | succ steps ih =>
    unfold mergeTests
    rw [run_bind run_get]
    cases hfold : (st.foldFallthrough? p members t <|> st.foldTaken? p members t) with
    | none => exact ⟨t, p, rfl, .done hfold⟩
    | some r =>
      obtain ⟨u, folded⟩ := r
      obtain ⟨b, condition, htests⟩ := (st.folds_of_fold? hfold).testsOnly
      have hlt : (st.unvisited (p.rendered [folded])).length < (st.unvisited p).length :=
        st.length_unvisited_lt (fun _ => List.mem_cons_of_mem _)
          (FlowGraph.mem_ids_iff.2 ⟨b, htests.block⟩) htests.unvisited List.mem_cons_self
      obtain ⟨v, q, hrun, hmerges⟩ := @ih (p.rendered [folded]) (folded :: members) u (by omega)
      exact ⟨v, q, (run_bind (run_visit folded)).trans hrun, .fold hfold hmerges⟩

/-- Folding takes nothing back. -/
theorem Merges.extends {st : Structurer} {members : List BlockId} {t u : Test}
    (h : st.Merges p members t u q) : p.Extends q := by
  induction h with
  | done => exact .refl _
  | fold _ _ ih => exact (Progress.extends_rendered _ _).trans ih

/-! ## Parts of loops -/

/-- The progress when a block has been run on a stack. -/
def ran (b : Block) (stack : List Expr) (p : Progress) : Progress :=
  (p.rendered [b.id]).warned (st.blockWarnings b (b.simulate st.ctx stack))

/-- Running a block renders it. -/
@[simp] theorem visited_ran (b : Block) (stack : List Expr) :
    (st.ran b stack p).visited = b.id :: p.visited := rfl

/-- Running a block marks no statement around. -/
@[simp] theorem breakables_ran (b : Block) (stack : List Expr) :
    (st.ran b stack p).breakables = p.breakables := rfl

/-- Running a block takes nothing back. -/
theorem extends_ran (b : Block) (stack : List Expr) : p.Extends (st.ran b stack p) :=
  (p.extends_rendered _).trans (Progress.extends_warned _ _)

/-- The statements of a block that is run on an empty stack. -/
def statementsOf (b : Block) : List Stmt := (b.simulate st.ctx []).statements.map .simple

/-- A block in the head of a loop is simulated on an empty stack. -/
theorem run_headBlock {id : BlockId} {b : Block} (hb : st.graph.block? id = some b) :
    (st.headBlock (some id)).run p = some (st.statementsOf b, st.ran b [] p) := by
  unfold headBlock
  rw [Option.bind_some, hb]
  dsimp only
  rw [run_bind (run_visit b.id), run_bind (st.run_simulate b [])]
  rfl

/-- The initialisation or the update of a loop has a result, whether or not there is one. -/
theorem exists_run_headBlock (id : Option BlockId) :
    ∃ stmts q, (st.headBlock id).run p = some (stmts, q) ∧ p.Extends q := by
  cases hb : id.bind st.graph.block? with
  | none =>
    refine ⟨[], p, ?_, .refl p⟩
    unfold headBlock
    rw [hb]
    rfl
  | some b =>
    obtain ⟨id, rfl, hb⟩ := Option.bind_eq_some_iff.1 hb
    exact ⟨_, _, st.run_headBlock hb, st.extends_ran b []⟩

/-- The condition of a block that is run on an empty stack. -/
def conditionOf (b : Block) : Expr := (b.simulate st.ctx []).condition.getD (absent "loop condition")

/-- The condition in the header of a loop has a result, if only a placeholder for one. -/
theorem exists_run_loopCondition (l : Loop) :
    ∃ c q, (st.loopCondition l).run p = some (c, q) ∧ p.Extends q := by
  unfold loopCondition
  rw [run_bind (run_visit l.header)]
  cases hb : st.graph.block? l.header with
  | none => exact ⟨_, _, rfl, p.extends_rendered _⟩
  | some b =>
    dsimp only
    rw [run_bind (st.run_simulate b [])]
    have hext : p.Extends ((p.rendered [l.header]).warned _) :=
      (p.extends_rendered _).trans (Progress.extends_warned _ (st.blockWarnings b (b.simulate st.ctx [])))
    split
    · split <;> exact ⟨_, _, rfl, hext⟩
    · exact ⟨_, _, rfl, hext⟩

/-- The header of a loop that tests first decides between its body and its exit. -/
theorem run_loopCondition {l : Loop} {pool : ConstantPool} {b : Block} {inside outside : BlockId}
    (h : l.HeaderTest st.graph pool b inside outside) :
    ∃ c, (st.loopCondition l).run p = some ((c, inside), st.ran b [] p) ∧
      Decides b (st.conditionOf b) c inside outside := by
  have hid : b.id = l.header := FlowGraph.id_of_block? h.block
  obtain ⟨k, hk⟩ := h.branch
  have hrun : ∀ {f : Unit → Structure (Expr × BlockId)}, (visit l.header >>= f).run p =
      (f ()).run (p.rendered [b.id]) := fun {f} => by
    rw [run_bind (run_visit l.header), hid]
  unfold loopCondition
  rw [hrun, h.block]
  dsimp only
  rw [run_bind (st.run_simulate b [])]
  rcases hk with hk | hk
  · refine ⟨_, ?_, k, .inl ⟨hk, rfl⟩⟩
    have hne : some inside ≠ l.exit := fun he => h.outside ((Option.some.inj (he.trans h.exit)) ▸ h.inside)
    simp [hk, h.inside, hne, ran, conditionOf]
  · refine ⟨_, ?_, k, .inr ⟨hk, rfl⟩⟩
    simp [hk, h.outside, ran, conditionOf]

/-- The condition in the latch of a loop has a result, if only a placeholder for one. -/
theorem exists_run_latchCondition (l : Loop) (body : List Stmt) :
    ∃ r q, (st.latchCondition l body).run p = some (r, q) ∧ p.Extends q := by
  unfold latchCondition
  cases hb : st.graph.block? l.latch with
  | none => exact ⟨_, _, rfl, .refl p⟩
  | some b =>
    dsimp only
    rw [run_bind (run_visit l.latch), run_bind (st.run_simulate b [])]
    have hext : p.Extends ((p.rendered [l.latch]).warned _) :=
      (p.extends_rendered _).trans (Progress.extends_warned _ (st.blockWarnings b (b.simulate st.ctx [])))
    split <;> exact ⟨_, _, rfl, hext⟩

/-- The latch of a loop that tests behind its body decides between the header and another block. -/
theorem run_latchCondition {l : Loop} {b : Block} {outside : BlockId}
    (h : l.LatchTest st.graph b outside) (hheader : l.header ∈ l.body) (body : List Stmt) :
    ∃ c, (st.latchCondition l body).run p =
        some ((body ++ labelOf l.latch :: st.statementsOf b, c), st.ran b [] p) ∧
      Decides b (st.conditionOf b) c l.header outside := by
  have hid : b.id = l.latch := FlowGraph.id_of_block? h.block
  obtain ⟨k, hk⟩ := h.branch
  have hrun : ∀ {f : Unit → Structure (List Stmt × Expr)}, (visit l.latch >>= f).run p =
      (f ()).run (p.rendered [b.id]) := fun {f} => by
    rw [run_bind (run_visit l.latch), hid]
  unfold latchCondition
  rw [h.block]
  dsimp only
  rw [hrun, run_bind (st.run_simulate b [])]
  rcases hk with hk | hk
  · refine ⟨_, ?_, k, .inl ⟨hk, rfl⟩⟩
    simp [hk, ran, conditionOf, statementsOf]
  · refine ⟨_, ?_, k, .inr ⟨hk, rfl⟩⟩
    have hne : outside ≠ l.header := fun he => h.outside (he ▸ hheader)
    simp [hk, hne, ran, conditionOf, statementsOf]

/-- A loop through elements has a result: where no element is taken, the `for` loop that it stands for. -/
theorem exists_run_forEachLoop (l : Loop) (init : List Stmt) (condition : Expr)
    (update body : List Stmt) :
    ∃ stmt ws, (st.forEachLoop l init condition update body).run p = some (stmt, p.warned ws) := by
  unfold forEachLoop
  dsimp only
  split
  · exact ⟨_, [], by rw [run_pure, Progress.warned, List.append_nil]⟩
  · exact ⟨_, _, by rw [run_bind (st.run_warn _)]; rfl⟩

end Structurer

end JvmDecompiler
