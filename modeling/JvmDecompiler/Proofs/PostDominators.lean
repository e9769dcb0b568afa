import JvmDecompiler.Proofs.NaturalLoops

/-!
# Immediate post-dominators are exact

Post-dominators are the dominators of a graph with all edges turned round and a node behind all blocks at
which control leaves the method. So `Digraph.above_iff_dominatesAt` holds of them, and what is left to show
is that a path in the reversed graph from the exit node is a way from a block to the end, read backwards
(`FlowGraph.path_reversedDigraph_iff`).

The exit node has a number, which no block of the graph may have. An edge to that number leads to the exit
node: such a block is one at which control leaves the method (`FlowGraph.IsEnd`), whether or not other
edges lead on from it.
-/

namespace JvmDecompiler

namespace Digraph

variable {G H : Digraph} {start a b c : Nat} {p : List Nat}

/-! ## Paths backwards -/

/-- Where edges lead the other way, a path leads back. -/
theorem Path.reverse (hp : G.Path a b p) (hnodes : ∀ x ∈ p, x ∈ H.nodes)
    (hnext : ∀ x ∈ p, ∀ y ∈ p, y ∈ G.next x → x ∈ H.next y) : H.Path b a p.reverse := by
  induction hp with
  | single _ => exact .single (hnodes _ List.mem_cons_self)
  | @cons a b c p _ hab hrest ih =>
    have hback : H.Path c b p.reverse :=
      ih (fun x hx => hnodes x (List.mem_cons_of_mem _ hx)) fun x hx y hy =>
        hnext x (List.mem_cons_of_mem _ hx) y (List.mem_cons_of_mem _ hy)
    rw [List.reverse_cons]
    apply hback.snoc
    · exact hnext a List.mem_cons_self b (List.mem_cons_of_mem _ hrest.source_mem_path) hab
    · exact hnodes a List.mem_cons_self

/-! ## Going up a table by nodes -/

/-- `a` is met on the way from a node up a table of immediate dominators. -/
inductive OnChain (idoms : List (Nat × Nat)) (a : Nat) : Nat → Prop where
  | refl : OnChain idoms a a
  | up {b c : Nat} : idoms.lookup b = some c → OnChain idoms a c → OnChain idoms a b

/-- The way up by nodes is the way up by positions in reverse postorder. -/
theorem onChain_iff_above (h : start ∈ G.nodes) {i : Nat} (hb : (G.reversePostorder start)[i]? = some b) :
    OnChain (G.immediateDominators start) a b ↔
      ∃ d, (G.reversePostorder start)[d]? = some a ∧
        Above (G.dominatorTable (G.reversePostorder start)) d i := by
  constructor
  -- a step of the chain is a row of the table, and the other way round
  · intro hchain
    induction hchain generalizing i with
    | refl => exact ⟨i, hb, .refl⟩
    | @up b c hlookup _ ih =>
      obtain ⟨i', j, hi', hrow, hj⟩ := (lookup_immediateDominators h).1 hlookup
      obtain rfl : i' = i := position_inj hi' hb
      obtain ⟨d, hd, habove⟩ := ih hj
      exact ⟨d, hd, .up hrow habove⟩
  · rintro ⟨d, hd, habove⟩
    induction habove generalizing b with
    | refl =>
      rw [hd] at hb
      exact Option.some.inj hb ▸ .refl
    | @up i j hrow _ ih =>
      obtain ⟨hrefining, -⟩ := refining_dominatorTable h
      have hj : j < (G.reversePostorder start).length := by
        have hin := (List.getElem?_eq_some_iff.1 hb).1
        have hji := hrefining.rooted.row_le hrow
        omega
      have hget := List.getElem?_eq_getElem hj
      exact .up ((lookup_immediateDominators h).2 ⟨i, j, hb, hrow, hget⟩) (ih hget)

/-- On the chain of a node is what all paths from the start to the node go through. -/
theorem onChain_iff (h : start ∈ G.nodes) (hb : G.Reaches start b) :
    OnChain (G.immediateDominators start) a b ↔ G.Dominates start a b := by
  obtain ⟨i, hi⟩ := List.mem_iff_getElem?.1 (mem_reversePostorder_iff.2 hb)
  rw [onChain_iff_above h hi]
  constructor
  · rintro ⟨d, hd, habove⟩
    exact (above_iff_dominatesAt h hi hd).1 habove
  · intro hall
    obtain ⟨path, hpath⟩ := hb
    have ha : a ∈ G.reversePostorder start :=
      mem_reversePostorder_iff.2 (hpath.reaches_of_mem (hall path hpath))
    obtain ⟨d, hd⟩ := List.mem_iff_getElem?.1 ha
    exact ⟨d, hd, (above_iff_dominatesAt h hi hd).2 hall⟩

end Digraph

namespace FlowGraph

variable {g : FlowGraph} {b x : BlockId} {path : List BlockId}

/-- A block at which control leaves the method: no edge leads on from it, or one leads to the number of the
exit node. -/
def IsEnd (g : FlowGraph) (e : BlockId) : Prop :=
  e ∈ g.ids ∧ (g.successors e = [] ∨ exitNode ∈ g.successors e)

/-- Where the exit node leads in the reversed graph. -/
theorem mem_next_exitNode : b ∈ g.reversedDigraph.next exitNode ↔ g.IsEnd b := by
  rw [reversedDigraph]
  dsimp only
  rw [if_pos rfl, List.mem_filter, Bool.or_eq_true, List.isEmpty_iff, List.contains_iff_mem, IsEnd]

/-- Where a block leads in the reversed graph. -/
theorem mem_next_reversedDigraph (hb : b ≠ exitNode) :
    x ∈ g.reversedDigraph.next b ↔ x ∈ g.ids ∧ b ∈ g.successors x := by
  rw [reversedDigraph]
  dsimp only
  rw [if_neg hb, predecessors, List.mem_filter, List.contains_iff_mem]

/-- No path of the reversed graph comes back to the exit node. -/
theorem mem_ids_of_path (h : exitNode ∉ g.ids) {a : BlockId}
    (hpath : g.reversedDigraph.Path a b path) (ha : a ∈ g.ids) : ∀ x ∈ path, x ∈ g.ids := by
  induction hpath with
  | single _ => exact List.forall_mem_singleton.2 ha
  | cons _ hnext _ ih =>
    have hne := ne_of_mem_of_not_mem ha h
    exact List.forall_mem_cons.2 ⟨ha, ih ((mem_next_reversedDigraph hne).1 hnext).1⟩

/-- A path of the reversed graph from the exit node is a way to the end, backwards. -/
theorem path_reversedDigraph_iff (h : exitNode ∉ g.ids) (hb : b ∈ g.ids) :
    g.reversedDigraph.Path exitNode b path ↔
      ∃ e q, path = exitNode :: q.reverse ∧ g.IsEnd e ∧ g.normalDigraph.Path b e q := by
  constructor
  -- a way from the exit starts with an end of the graph; the rest is a way of the graph, backwards
  · intro hpath
    cases hpath with
    | single _ => exact absurd hb h
    | @cons _ e _ p _ hnext hrest =>
      have hend := mem_next_exitNode.1 hnext
      have hids := mem_ids_of_path h hrest hend.1
      refine ⟨e, p.reverse, by rw [List.reverse_reverse], hend, ?_⟩
      apply hrest.reverse hids
      intro x hx y _ hxy
      exact ((mem_next_reversedDigraph (ne_of_mem_of_not_mem (hids x hx) h)).1 hxy).2
  · rintro ⟨e, q, rfl, hend, hq⟩
    have hids : ∀ x ∈ q, x ∈ g.ids := hq.mem_nodes
    apply Digraph.Path.cons List.mem_cons_self (mem_next_exitNode.2 hend)
    apply hq.reverse
    · exact fun x hx => List.mem_cons_of_mem _ (hids x hx)
    · intro x hx y hy hxy
      exact (mem_next_reversedDigraph (ne_of_mem_of_not_mem (hids y hy) h)).2 ⟨hids x hx, hxy⟩

/-- Post-dominators are exact. The loops of the algorithm come to an end. A block has a row if some way
leads from it to a block at which control leaves the method, and the chain from such a block up to the exit
node has just the blocks that every such way goes through. -/
theorem postDominators_exact (h : exitNode ∉ g.ids) :
    let order := g.reversedDigraph.reversePostorder exitNode
    Digraph.Rounds (g.reversedDigraph.predecessorRows order)
      ((List.replicate order.length none).set 0 (some 0)) (g.reversedDigraph.dominatorTable order) ∧
    ∀ b ∈ g.ids,
      ((g.postDominators.lookup b).isSome = true ↔
        ∃ e, g.IsEnd e ∧ g.normalDigraph.Reaches b e) ∧
      ((g.postDominators.lookup b).isSome = true →
        Digraph.OnChain g.postDominators exitNode b ∧
        ∀ x ∈ g.ids, (Digraph.OnChain g.postDominators x b ↔
          ∀ e way, g.IsEnd e → g.normalDigraph.Path b e way → x ∈ way)) := by
  intro order
  have hexit : exitNode ∈ g.reversedDigraph.nodes := List.mem_cons_self
  refine ⟨Digraph.rounds_dominatorTable hexit, fun b hb => ?_⟩
  have hrow : (g.postDominators.lookup b).isSome = true ↔ g.reversedDigraph.Reaches exitNode b := by
    rw [← Digraph.mem_reversePostorder_iff, ← (Digraph.keys_immediateDominators hexit).mem_iff]
    simp only [postDominators, List.lookup_isSome_iff, List.mem_map, beq_iff_eq, eq_comm (a := b)]
  refine ⟨?_, fun hsome => ⟨?_, fun x hx => ?_⟩⟩
  · rw [hrow]
    constructor
    · rintro ⟨path, hpath⟩
      obtain ⟨e, q, -, hend, hq⟩ := (path_reversedDigraph_iff h hb).1 hpath
      exact ⟨e, hend, q, hq⟩
    · rintro ⟨e, hend, q, hq⟩
      exact ⟨_, (path_reversedDigraph_iff h hb).2 ⟨e, q, rfl, hend, hq⟩⟩
  · apply (Digraph.onChain_iff hexit (hrow.1 hsome)).2
    exact fun path hpath => hpath.source_mem_path
  -- the ways from the exit are those to the ends of the graph, backwards, with the exit in front
  · rw [postDominators, Digraph.onChain_iff hexit (hrow.1 hsome)]
    have hne : x ≠ exitNode := ne_of_mem_of_not_mem hx h
    constructor
    · intro hall e way hend hway
      have hmem := hall _ ((path_reversedDigraph_iff h hb).2 ⟨e, way, rfl, hend, hway⟩)
      rw [List.mem_cons, List.mem_reverse] at hmem
      exact hmem.resolve_left hne
    · intro hall path hpath
      obtain ⟨e, way, rfl, hend, hway⟩ := (path_reversedDigraph_iff h hb).1 hpath
      exact List.mem_cons_of_mem _ (List.mem_reverse.2 (hall e way hend hway))

/-- One arm of a branch comes to the return behind it, or goes round for ever. -/
def joiningArms : FlowGraph where
  blocks := [⟨0, [], .branch (.refNull true) 1 2⟩, ⟨1, [], .goto 3⟩,
    ⟨2, [], .branch (.refNull true) 3 4⟩, ⟨3, [], .return⟩, ⟨4, [], .goto 4⟩]
  entry := 0
  ranges := []
  jumps := []
  loops := []

theorem postDominators_exact_joiningArms :
    exitNode ∉ joiningArms.ids ∧
      joiningArms.postDominators = [(0, 3), (1, 3), (2, 3), (3, exitNode), (exitNode, exitNode)] ∧
      (∀ e way, joiningArms.IsEnd e → joiningArms.normalDigraph.Path 0 e way → 3 ∈ way) ∧
      ¬∃ e, joiningArms.IsEnd e ∧ joiningArms.normalDigraph.Reaches 4 e := by
  have hexit : exitNode ∉ joiningArms.ids := by decide
  have hrows : joiningArms.postDominators =
      [(0, 3), (1, 3), (2, 3), (3, exitNode), (exitNode, exitNode)] := by cbv
  obtain ⟨-, hexact⟩ := postDominators_exact hexit
  refine ⟨hexit, hrows, ?_, ?_⟩
  · apply (((hexact 0 (by decide)).2 (by rw [hrows]; rfl)).2 3 (by decide)).1
    rw [hrows]
    exact .up (c := 3) rfl .refl
  · rw [← (hexact 4 (by decide)).1, hrows]
    decide

/-- A block that jumps to the number of the exit node. -/
def jumpingOut : FlowGraph where
  blocks := [⟨0, [], .goto exitNode⟩]
  entry := 0
  ranges := []
  jumps := []
  loops := []

/-- Blocks without successors are not all the ends there are: a block may have a row though no way leads from
it to one of them. -/
theorem lookup_postDominators_jumpingOut :
    exitNode ∉ jumpingOut.ids ∧ 0 ∈ jumpingOut.ids ∧
      (jumpingOut.postDominators.lookup 0).isSome = true ∧
      ¬∃ e ∈ jumpingOut.ids, jumpingOut.successors e = [] ∧ jumpingOut.normalDigraph.Reaches 0 e := by
  have hrows : jumpingOut.postDominators = [(0, exitNode), (exitNode, exitNode)] := by cbv
  refine ⟨by decide, by decide, by rw [hrows]; rfl, ?_⟩
  rintro ⟨e, he, hnone, -⟩
  obtain rfl : e = 0 := List.mem_singleton.1 he
  exact absurd hnone (by decide)

end FlowGraph

end JvmDecompiler
