import JvmDecompiler.Proofs.GraphExecution
import JvmDecompiler.Proofs.JumpTargets
import JvmDecompiler.Proofs.Rendering

/-!
# Pieces of structured statements

What a piece of structured statements shows is what the graph shows from the block on where it starts, and
where an execution leaves it, the graph has come to the block that this way out means (`Leads`): the one
behind the piece, or where an enclosing loop or switch leads that a jump names. This module proves it of
jumps, tests, blocks, switches and loops, one after the other. The rounds of a loop are put together by
`Tracks.loop`, whose number of rounds is bounded by the number of steps through the graph.

Structuring goes wrong in three ways without a warning, and `Straight` excludes these. A list may end in the
place of a jump to any of the blocks at which the lists around it end, although control then goes on at the
innermost of them only (`ends`). A `continue` stands for a jump to the latch of a loop that tests behind its
body, but skips the statements of the latch (`continues`). And a loop that tests behind its body is said to
end at the one block to which its header or its latch leads, although the latch may lead elsewhere (`exits`).

Two more conditions of `Straight` are none of these three. They are about code that no compiler writes, and
the statements are not right without them either. Control does not fall off the end of the code (`edges`):
where it does, the graph comes to an end, but no statement says so, and the execution of the statements goes
on behind the list. So `if (a != 0) { b++; return; } c++;` with no return behind it (the bytes
`1a990007 840101 b1 840201`) becomes `if (a == 0) { c++; } b++; return;`, which runs `b++` behind `c++`. And
a switch has no key twice (`keys`): of two cases of one key the graph takes the first, while the arms of the
statement stand in the order of their blocks.
-/

namespace JvmDecompiler

open Execution Structurer

namespace Enclosing

/-- The label that stands in front of a loop or switch. -/
def labels (e : Enclosing) : List String := if e.labeled then [e.frame.label] else []

/-- A jump that the loop or switch catches, without its label: it leads behind it, or to the next
round. -/
def catches (e : Enclosing) (x : Exit) : Bool := x.isBreak || e.isLoop && x.resumes e.labels

variable {e e' : Enclosing} {outer : List Enclosing} {name : String}

/-- A label that is not that of the innermost statement is found further out. -/
theorem named?_cons_of_not (h : e.isNamed name = false) :
    named? (e :: outer) name = named? outer name := by
  rw [named?, named?, List.filter_cons_of_neg (by simp [h])]

/-- A label of the innermost statement means this one. -/
theorem eq_of_named?_cons (hname : e.isNamed name = true) (h : named? (e :: outer) name = some e') :
    e' = e := by
  rw [named?, List.filter_cons_of_pos hname] at h
  split at h
  · rename_i heq
    cases h
    exact (List.cons.inj heq).1.symm
  · cases h

end Enclosing

namespace Structurer

variable {st : Structurer} {p q : Progress} {ns notes : List Note} {around outer : List Enclosing}
  {behind behind' : Option BlockId} {e : Enclosing} {x : Exit} {t : BlockId} {fuel low least : Nat}
  {s : GraphPosition}

/-! ## Where ways out of statements lead -/

/-- No loop that tests behind its body has the block as its latch, unless the latch does nothing but
test. -/
def TestsAlone (st : Structurer) (t : BlockId) : Prop :=
  ∀ l ∈ st.loops, l.kind = .doWhile → l.latch = t → ∀ b, st.graph.block? t = some b → b.runs st.ctx = []

/-- Where a way out of statements leads: to the block behind them, or where the loop or switch leads that
a jump means. -/
def Leads (st : Structurer) (around : List Enclosing) (behind : Option BlockId) : Exit → BlockId → Prop
  | .behind, t => behind = some t
  | .breakTo label, t =>
    ∃ e, (Stmt.breakTo label).meant? around = some e ∧ e.frame.breakTarget = some t
  | .continueTo label, t => st.TestsAlone t ∧
    ∃ e, (Stmt.continueTo label).meant? around = some e ∧ e.frame.continueTarget = some t

/-- What is behind some statements matters only to those that control gets behind. -/
theorem Leads.of_ne (h : st.Leads around behind x t) (hx : x ≠ .behind) :
    st.Leads around behind' x t := by
  cases x with
  | behind => exact absurd rfl hx
  | breakTo | continueTo => exact h

/-- A jump that leads out of a loop or switch, and is not caught there, leads to the same place from
outside. -/
theorem Leads.outside (h : st.Leads (e :: outer) behind x t) (hx : x ≠ .behind)
    (hcatch : e.catches x = false) (hlabel : e.labeled = true → x ≠ .breakTo (some e.frame.label)) :
    st.Leads outer behind' x t := by
  simp only [Enclosing.catches, Bool.or_eq_false_iff, Bool.and_eq_false_iff] at hcatch
  obtain ⟨hbreak, hloop⟩ := hcatch
  cases x with
  | behind => exact absurd rfl hx
  | breakTo label =>
    obtain ⟨d, hd, ht⟩ := h
    cases label with
    | none => simp [Exit.isBreak] at hbreak
    | some name =>
      have hname : e.isNamed name = false := by
        simp only [Enclosing.isNamed, Bool.and_eq_false_iff, decide_eq_false_iff_not]
        by_contra hnot
        simp only [not_or, not_not, Bool.not_eq_false] at hnot
        exact hlabel hnot.1 (by rw [hnot.2])
      exact ⟨d, (Enclosing.named?_cons_of_not hname).symm.trans hd, ht⟩
  | continueTo label =>
    obtain ⟨halone, d, hd, ht⟩ := h
    refine ⟨halone, d, ?_, ht⟩
    cases label with
    | none =>
      have hplain : e.isLoop = false := hloop.resolve_right (by simp [Exit.resumes])
      simpa [Stmt.meant?, hplain] using hd
    | some name =>
      cases hname : e.isNamed name with
      | false =>
        show (Enclosing.named? outer name).filter _ = some d
        rw [← Enclosing.named?_cons_of_not hname]
        exact hd
      | true =>
        -- the label is that of the statement, which would have to be a loop
        obtain ⟨hnamed, hdloop⟩ := Option.filter_eq_some_iff.1 hd
        obtain rfl := Enclosing.eq_of_named?_cons hname hnamed
        obtain ⟨hl, hn⟩ := Bool.and_eq_true_iff.1 hname
        rcases hloop with hno | hno
        · rw [hno] at hdloop
          cases hdloop
        · simp only [decide_eq_true_eq] at hn
          simp [Exit.resumes, Enclosing.labels, hl, hn] at hno

/-- What leaves a loop or switch, with its label in front of it or not, tracks the graph as what leaves
it inside does. -/
theorem Tracks.labelIf {stmt : Stmt} {vs : Values} {seen : List Event}
    (h : st.Tracks (fun x t => e.catches x = false ∧ st.Leads (e :: outer) behind x t) low least s
      ((Stmt.exec fuel e.labels stmt vs).after seen))
    (hbreak : ∀ t, e.frame.breakTarget = some t → behind = some t) :
    st.Tracks (st.Leads outer behind) low least s
      ((Stmt.exec fuel [] (labelIf e.labeled e.frame.label stmt) vs).after seen) := by
  -- a statement without a label catches only jumps without one
  cases hlabeled : e.labeled with
  | false =>
    have hlabels : e.labels = [] := by simp [Enclosing.labels, hlabeled]
    rw [hlabels] at h
    refine h.mono fun x t ⟨hcatch, hleads⟩ => ?_
    by_cases hx : x = .behind
    · subst hx
      exact hleads
    · exact hleads.outside hx hcatch (by simp [hlabeled])
  | true =>
    have hlabels : e.labels = [e.frame.label] := by simp [Enclosing.labels, hlabeled]
    rw [hlabels] at h
    -- a labelled statement catches those to its label in addition, which go behind it
    rw [Structurer.labelIf, if_pos rfl, Stmt.exec, ← catching_after]
    refine Tracks.catching h (fun x t hx ⟨hcatch, hleads⟩ => ?_) fun x t hx ⟨hcatch, hleads⟩ => ?_
    · obtain rfl : x = .breakTo (some e.frame.label) := by simpa using hx
      obtain ⟨d, hd, ht⟩ := hleads
      obtain rfl := Enclosing.eq_of_named?_cons (by simp [Enclosing.isNamed, hlabeled]) hd
      exact hbreak t ht
    · by_cases hbehind : x = .behind
      · subst hbehind
        exact hleads
      · exact hleads.outside hbehind hcatch fun _ => by simpa using hx

/-! ## What is compared -/

/-- What the comparison takes for granted: there are no exceptions to catch, the operand stack is empty
wherever control goes from one block to another, and no loop runs through the elements of something. -/
structure Comparable (st : Structurer) : Prop where
  regions : st.regions = []
  emptyStacks : ∀ b ∈ st.graph.blocks, b.terminator.successors ≠ [] →
    (b.simulate st.ctx []).exitStack = []
  loops : ∀ l ∈ st.loops, l.kind.isForEach = false
  fits : ∀ l ∈ st.loops, l.Fits st.graph st.ctx.pool
  sealed : st.graph.Sealed

/-- What structuring gets wrong does not occur. The last three fields exclude its three mistakes, the first two
code that fails verification. -/
structure Straight (st : Structurer) (notes : List Note) : Prop where
  /-- Control does not fall off the end of the code. The statements say nothing where it does, and go on with
  what stands behind the list. -/
  edges : ∀ b s, s ∈ st.graph.successors b → s ∈ st.graph.ids
  /-- A switch has no key twice. -/
  keys : ∀ b ∈ st.graph.blocks, ∀ default cases, b.terminator = .switch default cases →
    (cases.map (·.1)).Nodup
  /-- A loop that tests behind its body ends where its latch leaves it. -/
  exits : ∀ b s, s ∈ st.graph.successors b → ¬st.Astray b s
  /-- A list that ends in the place of a jump to a block is followed by that block. -/
  ends : ∀ t stops, Note.stop t stops ∈ notes → stops.head? = some t
  /-- A `continue` skips no statements that the jump in its place runs. -/
  continues : ∀ t label around, Note.jump t (.continueTo label) around ∈ notes → st.TestsAlone t

/-- Control goes only to blocks of the graph. -/
theorem Straight.mem_ids (hs : st.Straight notes) {id : BlockId} {b : Block}
    (hb : st.graph.block? id = some b) : ∀ s ∈ b.terminator.successors, s ∈ st.graph.ids :=
  fun s hmem => hs.edges id s (by rwa [successors_eq hb])

/-- The jump that is written for going somewhere leads there. -/
theorem Goes.tracks {stops : List BlockId} {target next : Option BlockId} {jump : List Stmt}
    (h : st.Goes p stops target jump next q ns) (hs : st.Straight notes) (hns : ns ⊆ notes)
    (hp : p.Framed) (hcov : Covers around q.breakables) (hq : q.warnings = []) (ht : t ∈ st.graph.ids)
    (htarget : target.or stops.head? = some t) (vs : Values) :
    st.Tracks (st.Leads around (next.or stops.head?)) 0 fuel (some (t, vs))
      (Stmt.execAll fuel jump vs) := by
  -- the ways of going: to the end of the list, by a jump to a statement around, or to the next piece
  cases h with
  | nowhere => exact .done ht htarget
  | stop =>
    have hhead := hs.ends _ _ (hns List.mem_cons_self)
    cases htarget
    exact .done ht hhead
  | @jump u stmt bs _ hj =>
    cases htarget
    obtain ⟨-, e, hmeant, hleads⟩ :=
      exists_meant?_of_jumpWithin hj hcov (fun b hb => hp.header_isSome hb) hp.nodup_labels
    rw [Stmt.execAll_singleton]
    -- `continue` leads to the head of the loop, `break` behind the statement
    obtain ⟨pre, b, post, labeled, -, -, ⟨-, rfl, -⟩ | ⟨-, rfl, -⟩⟩ := of_jumpWithin hj
    · rw [Stmt.exec]
      exact .leaves (Nat.le_refl 0) rfl ht
        ⟨hs.continues _ _ _ (hns List.mem_cons_self), e, hmeant, hleads⟩
    · rw [Stmt.exec]
      exact .leaves (Nat.le_refl 0) rfl ht ⟨e, hmeant, hleads⟩
  -- a labelled jump comes with a warning, and there is none
  | goto => exact absurd hq (st.warnings_residual_ne_nil _)
  | next =>
    cases htarget
    exact .done ht rfl

/-! ## Tests -/

/-- Where control goes from a test, and the values that are left. -/
def Test.next (t : Test) (vs : Values) : BlockId × Values :=
  (if (t.condition.test vs).holds then t.taken else t.fallthrough, (t.condition.test vs).rest)

/-- Two ways through the graph are one. -/
theorem Passes.trans {m n : Nat} {s t u : GraphPosition} {a b : List Event} (h₁ : st.Passes m s a t)
    (h₂ : st.Passes n t b u) : st.Passes (m + n) s (a ++ b) u := runSteps_trans h₁ h₂

/-- From a block on, the graph shows some events and then decides as the test does. -/
def TestsFrom (st : Structurer) (id : BlockId) (seen : List Event) (t : Test) : Prop :=
  ∀ vs, ∃ n, 1 ≤ n ∧
    st.Passes n (some (id, vs)) (seen ++ (t.condition.test vs).seen) (some (t.next vs))

/-- Through a block that only tests, control goes the way of its condition, and shows what testing shows. -/
theorem TestsOnly.passes {id ifHolds ifNot : BlockId} {b : Block} {condition c : Expr}
    (h : st.TestsOnly p id b condition) (hc : Decides b condition c ifHolds ifNot) (vs : Values) :
    st.Passes 1 (some (id, vs)) (c.test vs).seen
      (some (if (c.test vs).holds then ifHolds else ifNot, (c.test vs).rest)) := by
  have hrun := passes_decides h.block h.condition hc vs
  have hruns : b.runs st.ctx = [] := by simp [Block.runs, h.statements]
  rwa [hruns, List.nil_append] at hrun

/-- Folding a block into a test decides as the blocks do one after the other. -/
theorem Folds.testsFrom {t u : Test} {folded id : BlockId} {seen : List Event}
    (h : st.Folds p t u folded) (ht : st.TestsFrom id seen t) : st.TestsFrom id seen u := by
  intro vs
  obtain ⟨n, hn, hrun⟩ := ht vs
  cases h with
  | @fallthrough b condition c next line hb hc =>
    cases hholds : (t.condition.test vs).holds with
    | true => exact ⟨n, hn, by simpa [Test.next, Expr.test, hholds] using hrun⟩
    | false =>
      simp only [Test.next, hholds, Bool.false_eq_true, if_false] at hrun
      refine ⟨n + 1, by omega, ?_⟩
      simpa [Test.next, Expr.test, hholds] using hrun.trans (hb.passes hc _)
  | @taken b condition c next line hb hc =>
    cases hholds : (t.condition.test vs).holds with
    | true =>
      simp only [Test.next, hholds, if_true] at hrun
      refine ⟨n + 1, by omega, ?_⟩
      simpa [Test.next, Expr.test, hholds] using hrun.trans (hb.passes hc _)
    | false => exact ⟨n, hn, by simpa [Test.next, Expr.test, hholds] using hrun⟩

/-- So does folding any number of blocks. -/
theorem Merges.testsFrom {members : List BlockId} {t u : Test} {id : BlockId} {seen : List Event}
    (h : st.Merges p members t u q) (ht : st.TestsFrom id seen t) : st.TestsFrom id seen u := by
  induction h with
  | done => exact ht
  | fold hfold _ ih => exact ih ((st.folds_of_fold? hfold).testsFrom ht)

/-- The test that is made of a branch decides as its block does. -/
theorem testsFrom_of_branch {id ifTrue ifFalse : BlockId} {b : Block} {k : BranchCondition}
    (hb : st.graph.block? id = some b) (hterm : b.terminator = .branch k ifTrue ifFalse) :
    st.TestsFrom id (b.runs st.ctx) (testOf (b.simulate st.ctx []) ifTrue ifFalse) := by
  intro vs
  refine ⟨1, Nat.le_refl 1, ?_⟩
  have hrun := passes_one hb vs
  simp only [Block.execute, hterm] at hrun
  exact hrun

/-! ## Blocks -/

section Blocks

variable {b : Block} {id : BlockId}

/-- Every block of the graph is sealed. -/
theorem Comparable.sealed_of_block? (hc : st.Comparable) (hb : st.graph.block? id = some b) : b.Sealed :=
  hc.sealed b (FlowGraph.mem_of_block? hb)

/-- The statements of a block that leads somewhere. -/
theorem execAll_statementsOf (hb : b.Sealed) (hterm : b.terminator ≠ .return ∧ b.terminator ≠ .throw)
    (vs : Values) :
    Stmt.execAll fuel (st.statementsOf b) vs = (done vs).after (b.runs st.ctx) := by
  rw [statementsOf, Stmt.execAll_map_simple (hb.endsFlow_of_mem_statements hterm.1 hterm.2 st.ctx [])]
  simp [done, after, Block.runs]

/-- The statements of a block show its run, and control goes on behind them. -/
theorem execAll_append_statementsOf (hb : b.Sealed)
    (hterm : b.terminator ≠ .return ∧ b.terminator ≠ .throw) (rest : List Stmt) (vs : Values) :
    Stmt.execAll fuel (st.statementsOf b ++ rest) vs =
      (Stmt.execAll fuel rest vs).after (b.runs st.ctx) := by
  rw [Stmt.execAll_append, execAll_statementsOf hb hterm, andThen_after, andThen_done]

/-- The statements of a block with which the method ends. -/
theorem execAll_statementsOf_over (hb : b.Sealed)
    (hterm : b.terminator = .return ∨ b.terminator = .throw) (rest : List Stmt) (vs : Values) :
    Stmt.execAll fuel (st.statementsOf b ++ rest) vs = ⟨b.runs st.ctx, .over⟩ := by
  obtain ⟨front, stmt, hstatements, hfront, hstmt⟩ := hb.exists_statements hterm st.ctx []
  have hlast : Stmt.execAll fuel ([Stmt.simple stmt] ++ rest) = fun _ => ⟨[.run stmt], .over⟩ := by
    funext vs
    rw [List.singleton_append, Stmt.execAll, Stmt.exec, if_pos hstmt]
    rfl
  rw [statementsOf, Block.runs, hstatements, List.map_append, List.append_assoc, Stmt.execAll_append,
    Stmt.execAll_map_simple hfront, List.map_singleton, hlast, List.map_append, List.map_singleton]
  rfl

/-- The label of a block does nothing. -/
theorem execAll_labelOf (id : BlockId) (rest : List Stmt) (vs : Values) :
    Stmt.execAll fuel (labelOf id :: rest) vs = Stmt.execAll fuel rest vs := by
  rw [Stmt.execAll, Stmt.exec_of_isLabel rfl, andThen_done]

end Blocks

/-! ## Switches -/

section Switch

variable {default : BlockId} {cases : List (Int32 × BlockId)} {join : Option BlockId}
  {label : Option Int32}

/-- The labels of the arms of a switch, each with the block it leads to. -/
def armLabels (default : BlockId) (cases : List (Int32 × BlockId)) (join : Option BlockId) :
    List (BlockId × Option Int32) :=
  cases.map (fun c => (c.2, some c.1)) ++ if join = some default then [] else [(default, none)]

/-- The arms of a switch have the keys of its cases. -/
theorem mem_armLabels_some {key : Int32} :
    (t, some key) ∈ armLabels default cases join ↔ (key, t) ∈ cases := by
  unfold armLabels
  split <;> simp

/-- There is an arm for the default unless it is the join. -/
theorem mem_armLabels_none :
    (t, none) ∈ armLabels default cases join ↔ t = default ∧ join ≠ some default := by
  unfold armLabels
  split <;> simp_all

/-- The first arm with a label starts at a block to which the label leads. -/
theorem of_findIdx?_switchArms {i : Nat}
    (h : ((switchArms default cases join).map (·.2)).findIdx? (·.contains label) = some i) :
    ∃ t, ((switchArms default cases join)[i]?).map (·.1) = some t ∧
      (t, label) ∈ armLabels default cases join := by
  obtain ⟨hi, hlabel, -⟩ := List.findIdx?_eq_some_iff_getElem.1 h
  rw [List.length_map] at hi
  refine ⟨(switchArms default cases join)[i].1, by rw [List.getElem?_eq_getElem hi]; rfl, ?_⟩
  have hmem := List.getElem_mem hi
  rw [List.getElem_map] at hlabel
  generalize (switchArms default cases join)[i] = arm at hlabel hmem
  obtain ⟨target, -, rfl⟩ := List.mem_map.1 hmem
  simpa [armLabels] using hlabel

/-- A label that no arm has is that of no block. -/
theorem not_mem_of_findIdx?_switchArms
    (h : ((switchArms default cases join).map (·.2)).findIdx? (·.contains label) = none) (t : BlockId) :
    (t, label) ∉ armLabels default cases join := by
  intro hmem
  rw [List.findIdx?_eq_none_iff] at h
  have harm := h ((armLabels default cases join).filter (·.1 = t) |>.map (·.2)) ?_
  · simp [hmem] at harm
  · refine List.mem_map.2 ⟨(t, _), List.mem_map.2 ⟨t, ?_, rfl⟩, rfl⟩
    simp only [sortedSet, List.mem_mergeSort, List.mem_eraseDups]
    exact List.mem_map.2 ⟨_, hmem, rfl⟩

/-- A switch enters the arm that starts where the key leads, or none if the default is behind it. -/
theorem switchEntry?_switchArms (default : BlockId) (join : Option BlockId)
    (hkeys : (cases.map (·.1)).Nodup) (key : Int32) :
    (∃ i, switchEntry? key ((switchArms default cases join).map (·.2)) = some i ∧
      ((switchArms default cases join)[i]?).map (·.1) = some ((cases.lookup key).getD default)) ∨
    switchEntry? key ((switchArms default cases join).map (·.2)) = none ∧
      join = some ((cases.lookup key).getD default) := by
  unfold switchEntry?
  -- the arm that lists the key; else the one for all other keys; else behind the statement
  cases hkey : ((switchArms default cases join).map (·.2)).findIdx? (·.contains (some key)) with
  | some i =>
    obtain ⟨t, harm, ht⟩ := of_findIdx?_switchArms hkey
    have hlookup : cases.lookup key = some t := by
      obtain ⟨front, back, rfl⟩ := List.append_of_mem (mem_armLabels_some.1 ht)
      refine List.lookup_eq_some_iff.2 ⟨front, back, rfl, fun c hc => bne_iff_ne.2 fun heq => ?_⟩
      rw [List.map_append, List.nodup_append] at hkeys
      exact hkeys.2.2 c.1 (List.mem_map_of_mem hc) key (by simp) heq.symm
    -- the arm that is found first is the only one for the key
    exact .inl ⟨i, rfl, by rw [harm, hlookup, Option.getD_some]⟩
  | none =>
    have hlookup : cases.lookup key = none := by
      refine List.lookup_eq_none_iff.2 fun c hc => bne_iff_ne.2 fun heq => ?_
      exact not_mem_of_findIdx?_switchArms hkey c.2 (mem_armLabels_some.2 (heq ▸ hc))
    rw [hlookup, Option.getD_none]
    cases hdefault : ((switchArms default cases join).map (·.2)).findIdx? (·.contains none) with
    | some i =>
      obtain ⟨t, harm, ht⟩ := of_findIdx?_switchArms hdefault
      rw [mem_armLabels_none] at ht
      exact .inl ⟨i, rfl, by rw [harm, ht.1]⟩
    | none =>
      have hnot := not_mem_of_findIdx?_switchArms hdefault default
      rw [mem_armLabels_none] at hnot
      exact .inr ⟨rfl, by simpa using hnot⟩

end Switch

/-! ## Loops -/

section Loops

variable {l : Loop} {b : Block} {id ifHolds ifNot : BlockId} {c : Expr}
  {leads leads' : Exit → BlockId → Prop}

/-- A condition decides between two ways out of its block. -/
theorem Decides.mem_successors {condition : Expr} (h : Decides b condition c ifHolds ifNot) :
    ifHolds ∈ b.terminator.successors ∧ ifNot ∈ b.terminator.successors := by
  obtain ⟨k, ⟨hterm, -⟩ | ⟨hterm, -⟩⟩ := h <;> simp [hterm, Terminator.successors]

/-- A block that decides whether a loop goes on. -/
theorem tracks_guard {f : Values → Execution} (hb : st.graph.block? id = some b) (hsealed : b.Sealed)
    (hc : Decides b (st.conditionOf b) c ifHolds ifNot)
    (hids : ∀ s ∈ b.terminator.successors, s ∈ st.graph.ids)
    (hf : ∀ vs, st.Tracks leads 0 fuel (some (ifHolds, vs)) (f vs)) (hnot : leads (.breakTo none) ifNot)
    (vs : Values) :
    st.Tracks leads 1 fuel (some (id, vs)) (((guard c vs).andThen f).after (b.runs st.ctx)) := by
  obtain ⟨condition, hcondition⟩ : ∃ condition, (b.simulate st.ctx []).condition = some condition := by
    obtain ⟨k, ⟨hterm, -⟩ | ⟨hterm, -⟩⟩ := hc
    · exact Option.isSome_iff_exists.1 (hsealed.condition_isSome hterm st.ctx [])
    · exact Option.isSome_iff_exists.1 (hsealed.condition_isSome hterm st.ctx [])
  have hc' : Decides b condition c ifHolds ifNot := by
    simpa [conditionOf, hcondition] using hc
  have hrun := passes_decides hb hcondition hc' vs
  cases hholds : (c.test vs).holds with
  | true =>
    have hguard : guard c vs = (done (c.test vs).rest).after (c.test vs).seen := by
      simp [Execution.guard, hholds, done, after]
    rw [hguard, andThen_after, andThen_done, after_after]
    rw [hholds, if_pos rfl] at hrun
    exact ((hf _).after hrun).weaken (Nat.le_refl 1) (Nat.le_add_left fuel 1)
  | false =>
    have hguard : ((guard c vs).andThen f).after (b.runs st.ctx) =
        ⟨b.runs st.ctx ++ (c.test vs).seen, .leaves (.breakTo none) (c.test vs).rest⟩ := by
      simp [Execution.guard, hholds, andThen, after]
    rw [hguard]
    rw [hholds, if_neg Bool.false_ne_true] at hrun
    exact .leaves (Nat.le_refl 1) hrun (hids _ hc.mem_successors.2) hnot

/-- The statements of a block that goes on to another one. -/
theorem tracks_statementsOf {target : BlockId} {f : Values → Execution}
    (hb : st.graph.block? id = some b) (hsealed : b.Sealed)
    (hterm : b.terminator = .fallThrough target ∨ b.terminator = .goto target)
    (hf : ∀ vs, st.Tracks leads 0 fuel (some (target, vs)) (f vs)) (vs : Values) :
    st.Tracks leads 1 fuel (some (id, vs)) ((Stmt.execAll fuel (st.statementsOf b) vs).andThen f) := by
  have hgoes : b.terminator ≠ .return ∧ b.terminator ≠ .throw := by
    rcases hterm with hterm | hterm <;> simp [hterm]
  rw [execAll_statementsOf hsealed hgoes, andThen_after, andThen_done]
  exact ((hf vs).after (passes_goesOn hb hterm vs)).weaken (Nat.le_refl 1) (Nat.le_add_left fuel 1)

/-- A jump that goes on with the next round of a loop leads to its continue target. -/
theorem Leads.of_resumes (h : st.Leads (e :: outer) behind x t) (hloop : e.isLoop = true)
    (hx : x.resumes e.labels = true) : st.TestsAlone t ∧ e.frame.continueTarget = some t := by
  cases x with
  | behind | breakTo => simp [Exit.resumes] at hx
  | continueTo label =>
    obtain ⟨halone, d, hd, ht⟩ := h
    refine ⟨halone, ?_⟩
    cases label with
    | none =>
      obtain rfl : e = d := by simpa [Stmt.meant?, hloop] using hd
      exact ht
    | some name =>
      have hname : e.isNamed name = true := by
        cases hlabeled : e.labeled <;>
          simp_all [Exit.resumes, Enclosing.labels, Enclosing.isNamed]
      obtain ⟨hnamed, -⟩ := Option.filter_eq_some_iff.1 hd
      obtain rfl := Enclosing.eq_of_named?_cons hname hnamed
      exact ht

/-- The ways out of one round of a loop. -/
def LeavesRound (st : Structurer) (e : Enclosing) (outer : List Enclosing) (behind : Option BlockId)
    (x : Exit) (t : BlockId) : Prop :=
  x.resumes e.labels = false ∧ st.Leads (e :: outer) behind x t

/-- A jump to the next round comes behind the body of a loop. -/
theorem Tracks.resumed {y : Execution} (hframe : e.frame = loopBreakable l)
    (h : st.Tracks (st.Leads (e :: outer) (some l.continueTarget)) low fuel s y) :
    st.Tracks (st.LeavesRound e outer (some l.continueTarget)) low fuel s
      (y.catching (Exit.resumes e.labels)) := by
  refine h.catching (fun x t hx hleads => ?_) fun x t hx hleads => ⟨hx, hleads⟩
  have hloop : e.isLoop = true := by rw [Enclosing.isLoop, hframe]; rfl
  obtain ⟨-, htarget⟩ := hleads.of_resumes hloop hx
  rw [hframe] at htarget
  exact ⟨rfl, htarget⟩

/-- A loop each of whose rounds comes back to the header. -/
theorem tracks_loop {round : Values → Execution} (hframe : e.frame = loopBreakable l)
    (hround : ∀ vs, st.Tracks (st.LeavesRound e outer (some l.header)) 1 fuel (some (l.header, vs))
      (round vs)) (vs : Values) :
    st.Tracks (fun x t => e.catches x = false ∧ st.Leads (e :: outer) l.exit x t) 1 fuel
      (some (l.header, vs)) (Execution.loop fuel round vs) := by
  refine Tracks.loop hround (fun t ht => ?_) (fun t ht => ?_) (fun x t hx hbreak ht => ?_) vs
  · exact (Option.some.inj ht.2).symm
  · obtain ⟨-, d, hd, htarget⟩ := ht
    obtain rfl : e = d := Option.some.inj hd
    rw [hframe] at htarget
    exact ⟨by simp [Enclosing.catches, Exit.isBreak, Exit.resumes], htarget⟩
  · refine ⟨?_, ht.2.of_ne hx⟩
    have hnot : x.isBreak = false := by simpa [Exit.isBreak] using hbreak
    simp [Enclosing.catches, hnot, ht.1]

/-- A body that is left behind it, or by a jump to what comes behind it, with a test there. -/
theorem Tracks.catchingThen {r : Exit → Bool} {seen : List Event} {g : Values → Execution}
    {y : Execution} (h : st.Tracks leads low least s y) (hr : r .behind = false)
    (hbehind : ∀ t vs, t ∈ st.graph.ids → leads .behind t →
      st.Tracks leads' 0 least (some (t, vs)) ((g vs).after seen))
    (hcaught : ∀ e t vs, t ∈ st.graph.ids → r e = true → leads e t →
      st.Tracks leads' 0 least (some (t, vs)) (g vs))
    (hleads : ∀ e t, e ≠ .behind → r e = false → leads e t → leads' e t) :
    st.Tracks leads' low least s
      (((y.andThen fun vs => (Execution.done vs).after seen).catching r).andThen g) := by
  -- behind the body control goes on; by a caught jump it does as well; any other jump leaves
  cases h with
  | @leaves n shown e t vs hn hrun ht he =>
    by_cases hb : e = .behind
    · subst hb
      have hy : (((⟨shown, .leaves .behind vs⟩ : Execution).andThen fun vs =>
          (Execution.done vs).after seen).catching r).andThen g = ((g vs).after seen).after shown := by
        simp [Execution.andThen, Execution.catching, Execution.done, Execution.after, hr]
      rw [hy]
      exact ((hbehind t vs ht he).after hrun).weaken hn (Nat.le_add_left least n)
    · have hy : (⟨shown, .leaves e vs⟩ : Execution).andThen (fun vs => (Execution.done vs).after seen) =
          ⟨shown, .leaves e vs⟩ := by
        cases e <;> first | rfl | exact absurd rfl hb
      rw [hy]
      cases hc : r e with
      | true =>
        have hy : ((⟨shown, .leaves e vs⟩ : Execution).catching r).andThen g = (g vs).after shown := by
          simp [Execution.andThen, Execution.catching, hc]
        rw [hy]
        exact ((hcaught e t vs ht hc he).after hrun).weaken hn (Nat.le_add_left least n)
      | false =>
        have hy : ((⟨shown, .leaves e vs⟩ : Execution).catching r).andThen g =
            ⟨shown, .leaves e vs⟩ := by
          cases e <;> simp [Execution.andThen, Execution.catching, hc] at hb ⊢
        rw [hy]
        exact .leaves hn hrun ht (hleads e t hb hc he)
  | «over» hrun => exact .over hrun
  | unfinished hn hrun => exact .unfinished hn hrun

/-- Where no warning is given, the simulation of the block reports no problem. -/
theorem diagnostics_of_warnings_ran {stack : List Expr} (h : (st.ran b stack p).warnings = []) :
    (b.simulate st.ctx stack).diagnostics = [] := by
  simp only [ran, Progress.warnings_warned, Progress.warnings_rendered, List.append_eq_nil_iff,
    blockWarnings, List.map_eq_nil_iff] at h
  exact h.2

/-- The header of a loop that tests first shows nothing but the test. -/
theorem exists_header {entry : BlockId} (hcomp : st.Comparable) (hl : l ∈ st.loops)
    (hk : l.kind.testsFirst = true) (hc : (st.loopCondition l).run p = some ((c, entry), q))
    (hq : q.warnings = []) :
    ∃ b outside, st.graph.block? l.header = some b ∧ b.Sealed ∧
      Decides b (st.conditionOf b) c entry outside ∧ l.exit = some outside ∧ b.runs st.ctx = [] := by
  obtain ⟨-, b, inside, outside, htest⟩ := (hcomp.fits l hl).headerTest hk
  obtain ⟨c', hrun, hdecides⟩ := st.run_loopCondition (p := p) htest
  cases hc.symm.trans hrun
  have hsealed := hcomp.sealed_of_block? htest.block
  have hquiet := diagnostics_of_warnings_ran hq
  refine ⟨b, outside, htest.block, hsealed, hdecides, htest.exit, ?_⟩
  obtain ⟨k, ⟨hterm, -⟩ | ⟨hterm, -⟩⟩ := hdecides <;>
    simp [Block.runs, hsealed.statements_eq_nil hterm htest.pure hquiet]

/-- The latch of a loop that tests behind its body. -/
theorem exists_latch {first body : List Stmt} (hcomp : st.Comparable) (hs : st.Straight notes)
    (hl : l ∈ st.loops) (hk : l.kind = .doWhile)
    (hc : (st.latchCondition l first).run p = some ((body, c), q)) :
    ∃ b outside, st.graph.block? l.latch = some b ∧ b.Sealed ∧
      Decides b (st.conditionOf b) c l.header outside ∧ l.exit = some outside ∧
      body = first ++ labelOf l.latch :: st.statementsOf b := by
  have hfit := hcomp.fits l hl
  obtain ⟨b, outside, htest⟩ := hfit.latchTest hk
  obtain ⟨c', hrun, hdecides⟩ := st.run_latchCondition (p := p) htest hfit.header first
  cases hc.symm.trans hrun
  have hexit : l.exit = some outside := by
    -- the latch would go astray otherwise
    by_contra hne
    exact hs.exits l.latch outside (successors_eq htest.block ▸ hdecides.mem_successors.2)
      ⟨l, hl, hk, rfl, fun heq => htest.outside (heq ▸ hfit.header), hne⟩
  exact ⟨b, outside, htest.block, hcomp.sealed_of_block? htest.block, hdecides, hexit, rfl⟩

/-- A break out of a round leads to the exit of the loop. -/
theorem leavesRound_break (hframe : e.frame = loopBreakable l) (hexit : l.exit = some t) :
    st.LeavesRound e outer behind (.breakTo none) t :=
  ⟨rfl, e, rfl, by rw [hframe]; exact hexit⟩

/-- A loop that tests first goes through rounds that test and come back to the header. -/
theorem tracks_headerLoop {entry : BlockId} {f : Values → Execution} (hcomp : st.Comparable)
    (hs : st.Straight notes) (hl : l ∈ st.loops) (hk : l.kind.testsFirst = true)
    (hc : (st.loopCondition l).run p = some ((c, entry), q)) (hq : q.warnings = [])
    (hframe : e.frame = loopBreakable l)
    (hf : entry ∈ st.graph.ids → ∀ vs, st.Tracks (st.LeavesRound e outer (some l.header)) 0 fuel
      (some (entry, vs)) (f vs)) (vs : Values) :
    st.Tracks (fun x t => e.catches x = false ∧ st.Leads (e :: outer) l.exit x t) 1 fuel
      (some (l.header, vs)) (Execution.loop fuel (fun vs => (Execution.guard c vs).andThen f) vs) := by
  obtain ⟨b, outside, hb, hsealed, hdecides, hexit, hruns⟩ := exists_header hcomp hl hk hc hq
  have hids := hs.mem_ids hb
  refine tracks_loop hframe (fun vs => ?_) vs
  have hround := tracks_guard hb hsealed hdecides hids (hf (hids _ hdecides.mem_successors.1))
    (leavesRound_break hframe hexit) vs
  rwa [hruns, after_nil] at hround

/-- The statements and the test of the latch of a loop that tests behind its body. -/
theorem tracks_latch {outside : BlockId} (hs : st.Straight notes)
    (hb : st.graph.block? l.latch = some b) (hsealed : b.Sealed)
    (hdecides : Decides b (st.conditionOf b) c l.header outside) (hexit : l.exit = some outside)
    (hframe : e.frame = loopBreakable l) (vs : Values) :
    st.Tracks (st.LeavesRound e outer (some l.header)) 1 fuel (some (l.latch, vs))
      ((Execution.guard c vs).after (b.runs st.ctx)) := by
  have hids := hs.mem_ids hb
  rw [← andThen_done_right (Execution.guard c vs)]
  exact tracks_guard hb hsealed hdecides hids
    (fun vs => .done (hids _ hdecides.mem_successors.1) ⟨rfl, rfl⟩) (leavesRound_break hframe hexit) vs

/-- Behind a body the statements of the latch are run, if control gets there. -/
theorem execAll_latch {outside : BlockId} (hsealed : b.Sealed)
    (hdecides : Decides b (st.conditionOf b) c ifHolds outside) (first : List Stmt) (vs : Values) :
    Stmt.execAll fuel (first ++ labelOf l.latch :: st.statementsOf b) vs =
      (Stmt.execAll fuel first vs).andThen fun vs => (Execution.done vs).after (b.runs st.ctx) := by
  have hterm : b.terminator ≠ .return ∧ b.terminator ≠ .throw := by
    obtain ⟨k, ⟨hterm, -⟩ | ⟨hterm, -⟩⟩ := hdecides <;> simp [hterm]
  rw [Stmt.execAll_append]
  congr 1
  funext vs
  rw [execAll_labelOf, execAll_statementsOf hsealed hterm]

end Loops

end Structurer

end JvmDecompiler
