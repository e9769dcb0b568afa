import JvmDecompiler.Proofs.Progress

/-!
# Folded conditions

A branch whose target tests a further condition, with one target in common, becomes one branch on two
conditions joined by `&&` or `||`. This is repeated as long as such blocks are found.

What comes out is a combination of the conditions of the blocks (`Combination`): the head's first, and
behind it those of the folded blocks in the order in which they were folded, each as it is or negated.
Evaluating it for any truth values of the blocks asks the blocks that the way through the graph comes to,
in the same order, and decides for the block to which that way leads (`mergeTests_exact`). The invariant is
`Combines`, and one fold prolongs the way that leads to the folded block by one step.
-/

namespace JvmDecompiler

/-- The way through the graph from a block to another, where every block on it branches as its truth value
says. -/
inductive FlowGraph.Decided (g : FlowGraph) (truth : BlockId → Bool) :
    BlockId → List BlockId → BlockId → Prop
  | here {id : BlockId} : Decided g truth id [] id
  | branch {id ifTrue ifFalse target : BlockId} {rest : List BlockId}
      (hbranch : g.branches? id = some (ifTrue, ifFalse))
      (hrest : Decided g truth (if truth id then ifTrue else ifFalse) rest target) :
      Decided g truth id (id :: rest) target

theorem FlowGraph.Decided.trans {g : FlowGraph} {truth : BlockId → Bool} {a b c : BlockId}
    {asked more : List BlockId} (h : g.Decided truth a asked b) (h' : g.Decided truth b more c) :
    g.Decided truth a (asked ++ more) c := by
  induction h with
  | here => exact h'
  | branch hbranch _ ih => exact .branch hbranch (ih h')

namespace Structurer

/-- A condition that is put together from the conditions of blocks. -/
inductive Combination where
  /-- The condition of a block. -/
  | holds (id : BlockId)
  /-- Its negation. -/
  | fails (id : BlockId)
  | and (left right : Combination)
  | or (left right : Combination)

namespace Combination

/-- The blocks whose conditions occur, from the left. -/
def blocks : Combination → List BlockId
  | holds id | fails id => [id]
  | and left right | or left right => left.blocks ++ right.blocks

/-- Whether the combination holds, given which of the blocks' conditions do, and the blocks that are asked
to find out, in order. -/
def evaluate (truth : BlockId → Bool) : Combination → Bool × List BlockId
  | holds id => (truth id, [id])
  | fails id => (!truth id, [id])
  | and left right =>
    let (value, asked) := left.evaluate truth
    if value then ((right.evaluate truth).1, asked ++ (right.evaluate truth).2) else (value, asked)
  | or left right =>
    let (value, asked) := left.evaluate truth
    if value then (value, asked) else ((right.evaluate truth).1, asked ++ (right.evaluate truth).2)

/-- The expression is the combination, where blocks have the given conditions. -/
inductive Writes (condition : BlockId → Expr) : Combination → Expr → Prop
  | holds {id : BlockId} : Writes condition (holds id) (condition id)
  | fails {id : BlockId} : Writes condition (fails id) (condition id).negate
  | and {left right : Combination} {x y : Expr} {line : SourceLine} (hleft : Writes condition left x)
      (hright : Writes condition right y) : Writes condition (and left right) (.binary line .and x y)
  | or {left right : Combination} {x y : Expr} {line : SourceLine} (hleft : Writes condition left x)
      (hright : Writes condition right y) : Writes condition (or left right) (.binary line .or x y)

/-- No block is asked that does not occur, and none more often than it occurs. -/
theorem sublist_evaluate (truth : BlockId → Bool) (c : Combination) :
    (c.evaluate truth).2.Sublist c.blocks := by
  induction c with
  | holds | fails => exact .refl _
  | and left right ihl ihr | or left right ihl ihr =>
    simp only [evaluate, blocks]
    split
    · first | exact ihl.append ihr | exact ihl.trans (List.sublist_append_left _ _)
    · first | exact ihl.append ihr | exact ihl.trans (List.sublist_append_left _ _)

end Combination

variable (st : Structurer)

/-- The condition of a block that is run on an empty stack. -/
def blockCondition (id : BlockId) : Expr :=
  ((st.graph.block? id).bind fun b => (b.simulate st.ctx []).condition).getD (absent "condition")

/-- The condition of a test is the combination of the conditions of the head and of the folded blocks, and
decides as the way through these blocks does. -/
structure Combines (condition : BlockId → Expr) (head : BlockId) (folded : List BlockId) (t : Test)
    (c : Combination) : Prop where
  writes : c.Writes condition t.condition
  blocks : c.blocks = head :: folded
  decides : ∀ truth, st.graph.Decided truth head (c.evaluate truth).2
    (if (c.evaluate truth).1 then t.taken else t.fallthrough)

variable {st} {p q : Progress} {condition : BlockId → Expr} {head : BlockId} {folded : List BlockId}
  {t u : Test} {c : Combination}

theorem branches?_of_terminator {id ifTrue ifFalse : BlockId} {b : Block} {k : BranchCondition}
    (hb : st.graph.block? id = some b) (hterm : b.terminator = .branch k ifTrue ifFalse) :
    st.graph.branches? id = some (ifTrue, ifFalse) := by
  simp [FlowGraph.branches?, hb, hterm]

/-- A block that only tests is its condition, or the negation where the targets are exchanged. -/
theorem TestsOnly.exists_combination {id ifHolds ifNot : BlockId} {b : Block} {e x : Expr}
    (h : st.TestsOnly p id b e) (hx : Decides b e x ifHolds ifNot)
    (hcondition : condition id = st.blockCondition id) :
    ∃ c : Combination, c.Writes condition x ∧ c.blocks = [id] ∧
      ∀ truth, st.graph.Decided truth id (c.evaluate truth).2
        (if (c.evaluate truth).1 then ifHolds else ifNot) := by
  have he : condition id = e := by
    rw [hcondition, blockCondition, h.block, Option.bind_some, h.condition, Option.getD_some]
  obtain ⟨k, ⟨hterm, rfl⟩ | ⟨hterm, rfl⟩⟩ := hx
  · exact ⟨.holds id, he ▸ .holds, rfl, fun truth =>
      .branch (branches?_of_terminator h.block hterm) .here⟩
  · refine ⟨.fails id, he ▸ .fails, rfl, fun truth => .branch (branches?_of_terminator h.block hterm) ?_⟩
    cases htruth : truth id <;> simpa [Combination.evaluate, htruth] using .here

/-- One more block is folded. -/
theorem Folds.exists_combines {id : BlockId} (h : st.Folds p t u id)
    (hc : st.Combines condition head folded t c) (hcondition : condition id = st.blockCondition id) :
    ∃ c', st.Combines condition head (folded ++ [id]) u c' := by
  -- the block is evaluated if what is in front of it does not decide, which is what `||` and `&&` say
  cases h with
  | fallthrough hb hx =>
    obtain ⟨d, hwrites, hblocks, hdecides⟩ := hb.exists_combination hx hcondition
    refine ⟨.or c d, .or hc.writes hwrites, by rw [Combination.blocks, hc.blocks, hblocks]; rfl,
      fun truth => ?_⟩
    have hhead := hc.decides truth
    cases hvalue : (c.evaluate truth).1 with
    | true => simpa [Combination.evaluate, hvalue] using hhead
    | false =>
      rw [hvalue] at hhead
      simpa [Combination.evaluate, hvalue] using hhead.trans (hdecides truth)
  | taken hb hx =>
    obtain ⟨d, hwrites, hblocks, hdecides⟩ := hb.exists_combination hx hcondition
    refine ⟨.and c d, .and hc.writes hwrites, by rw [Combination.blocks, hc.blocks, hblocks]; rfl,
      fun truth => ?_⟩
    have hhead := hc.decides truth
    cases hvalue : (c.evaluate truth).1 with
    | true =>
      rw [hvalue] at hhead
      simpa [Combination.evaluate, hvalue] using hhead.trans (hdecides truth)
    | false => simpa [Combination.evaluate, hvalue] using hhead

/-- All blocks that are folded into the test of a head that has been rendered. -/
theorem Merges.exists_combines {members : List BlockId} (h : st.Merges p members t u q)
    (hhead : head ∈ p.visited) (hcondition : ∀ id, id ≠ head → condition id = st.blockCondition id)
    (hc : st.Combines condition head folded t c) :
    ∃ more c', st.Combines condition head (folded ++ more) u c' ∧
      q.visited = more.reverse ++ p.visited ∧ more.Nodup ∧ ∀ id ∈ more, id ∉ p.visited := by
  induction h generalizing folded c with
  | done => exact ⟨[], c, by simpa using hc, rfl, .nil, by simp⟩
  | @fold p q members t u v id hfold hrest ih =>
    have hfolds := st.folds_of_fold? hfold
    obtain ⟨b, e, htests⟩ := hfolds.testsOnly
    have hne : id ≠ head := fun heq => htests.unvisited (heq ▸ hhead)
    obtain ⟨c', hc'⟩ := hfolds.exists_combines hc (hcondition id hne)
    obtain ⟨more, c'', hc'', hvisited, hnodup, hnew⟩ := ih (List.mem_cons_of_mem id hhead) hc'
    refine ⟨id :: more, c'', by simpa using hc'', by simp [hvisited, Progress.rendered], ?_, ?_⟩
    · exact List.nodup_cons.2 ⟨fun hmem => hnew id hmem List.mem_cons_self, hnodup⟩
    · refine List.forall_mem_cons.2 ⟨htests.unvisited, fun id' hid' hmem => ?_⟩
      exact hnew id' hid' (List.mem_cons_of_mem id hmem)

/-- Folding conditions comes to an end. The folded condition is put together from the conditions of the
head and of the blocks that are taken as done, and for all truth values of these, it asks the blocks on the
way through the graph from the head, in their order, and decides for the block where that way ends. -/
theorem mergeTests_exact {ifTrue ifFalse : BlockId} (e : Expr)
    (hbranch : st.graph.branches? head = some (ifTrue, ifFalse)) (hhead : head ∈ p.visited) :
    ∃ (t : Test) (q : Progress) (folded : List BlockId) (c : Combination),
      (st.mergeTests (st.graph.blocks.length + 1) [head] ⟨e, ifTrue, ifFalse⟩).run p = some (t, q) ∧
      q.visited = folded.reverse ++ p.visited ∧ (head :: folded).Nodup ∧
      c.Writes (Function.update st.blockCondition head e) t.condition ∧ c.blocks = head :: folded ∧
      ∀ truth, (c.evaluate truth).2.Sublist (head :: folded) ∧
        st.graph.Decided truth head (c.evaluate truth).2
          (if (c.evaluate truth).1 then t.taken else t.fallthrough) := by
  have hbudget : (st.unvisited p).length < st.graph.blocks.length + 1 := by
    have hle := List.length_filter_le (fun id => !p.visited.contains id) st.graph.ids
    rw [FlowGraph.ids, List.length_map] at hle
    exact Nat.lt_succ_of_le hle
  obtain ⟨t, q, hrun, hmerges⟩ := st.exists_merges [head] ⟨e, ifTrue, ifFalse⟩ hbudget
  have hstart : st.Combines (Function.update st.blockCondition head e) head [] ⟨e, ifTrue, ifFalse⟩
      (.holds head) :=
    { writes := by
        have h : Combination.Writes (Function.update st.blockCondition head e) (.holds head) _ := .holds
        rwa [Function.update_self] at h
      blocks := rfl
      decides := fun truth => .branch hbranch .here }
  obtain ⟨folded, c, hc, hvisited, hnodup, hnew⟩ := hmerges.exists_combines hhead
    (fun id hid => Function.update_of_ne hid _ _) hstart
  refine ⟨t, q, folded, c, hrun, hvisited, ?_, hc.writes, hc.blocks, fun truth => ⟨?_, hc.decides truth⟩⟩
  · exact List.nodup_cons.2 ⟨fun hmem => hnew head hmem hhead, hnodup⟩
  · exact hc.blocks ▸ c.sublist_evaluate truth

/-- The graph of `return a != 0 && b != 0;`. -/
def bothNonzero : FlowGraph where
  blocks :=
    [⟨0, [⟨0, 1, none, .load .int 1⟩, ⟨1, 3, none, .ifZero .eq 12⟩], .branch (.intZero .eq) 12 4⟩,
      ⟨4, [⟨4, 1, none, .load .int 2⟩, ⟨5, 3, none, .ifZero .eq 12⟩], .branch (.intZero .eq) 12 8⟩,
      ⟨8, [⟨8, 1, none, .push 1 .iconst⟩, ⟨9, 3, none, .goto 13⟩], .goto 13⟩,
      ⟨12, [⟨12, 1, none, .push 0 .iconst⟩], .fallThrough 13⟩,
      ⟨13, [⟨13, 1, none, .return (some .int)⟩], .return⟩]
  entry := 0
  ranges := []
  jumps := []
  loops := []

/-- The second test is folded into the first one. -/
theorem mergeTests_exact_bothNonzero :
    let st := ofGraph bothNonzero ⟨.empty, true, 1⟩ "" false
    let p : Progress := ⟨[0], [], [], [], [], []⟩
    let e := Expr.compare none .eq (.localVar none (.ofSlot 1 0 .int)) (.literal none (.int 0 none))
    st.graph.branches? 0 = some (12, 4) ∧ 0 ∈ p.visited ∧
    ((st.mergeTests (st.graph.blocks.length + 1) [0] ⟨e, 12, 4⟩).run p).map (·.2.visited) = some [4, 0] ∧
    ∃ (t : Test) (q : Progress) (folded : List BlockId) (c : Combination),
      (st.mergeTests (st.graph.blocks.length + 1) [0] ⟨e, 12, 4⟩).run p = some (t, q) ∧
      q.visited = folded.reverse ++ p.visited ∧ (0 :: folded).Nodup ∧
      c.Writes (Function.update st.blockCondition 0 e) t.condition ∧ c.blocks = 0 :: folded ∧
      ∀ truth, (c.evaluate truth).2.Sublist (0 :: folded) ∧
        st.graph.Decided truth 0 (c.evaluate truth).2
          (if (c.evaluate truth).1 then t.taken else t.fallthrough) :=
  ⟨rfl, List.mem_singleton_self 0, by decide +kernel, mergeTests_exact _ rfl (List.mem_singleton_self 0)⟩

end Structurer

end JvmDecompiler
