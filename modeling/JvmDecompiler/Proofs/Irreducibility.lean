import JvmDecompiler.Proofs.NaturalLoops

/-!
# Irreducibility is found exactly

An edge that goes against reverse postorder is a matter of the search: another order of the successors gives
other such edges. Whether one of them leads to a block that does not dominate its source is not: it is so if
and only if control can go round in a circle of blocks none of which dominates them all
(`FlowGraph.irreducibleEdges_eq_nil_iff`).

In one direction, the block of a circle that comes first in the order is the one to look at. In the other one,
the search has to be followed. The nodes that it still has to leave lie on a path from the start, the last one
entered at its end (`Digraph.Nested`), and when a node is left, its successors are left already or on that path
(`Digraph.SearchTree`). So an edge against the order leads to a node on a path to its source, and that path
closes the circle.
-/

namespace JvmDecompiler

namespace Digraph

variable {G : Digraph} {start a b c : Nat} {tasks : List Task} {seen done : List Nat}

/-- A path has two parts at every node that it goes through. -/
theorem Path.split {p q : List Nat} (h : G.Path a b (p ++ c :: q)) :
    G.Path a c (p ++ [c]) ∧ G.Path c b (c :: q) := by
  induction p generalizing a with
  | nil =>
    obtain ⟨_, heq⟩ := h.exists_tail
    obtain rfl := (List.cons.inj heq).1
    exact ⟨.single h.source_mem, h⟩
  | cons x p ih =>
    rw [List.cons_append] at h
    generalize hrest : p ++ c :: q = rest at h
    cases h with
    | single _ => simp at hrest
    | cons ha hn hpath =>
      obtain ⟨hfirst, hlast⟩ := ih (hrest ▸ hpath)
      exact ⟨.cons ha hn hfirst, hlast⟩

/-! ## What a search has entered and not left -/

/-- The nodes that are still to be left, the last one entered first. -/
def stack (tasks : List Task) : List Nat := tasks.filterMap Task.left?

theorem stack_leave : stack (.leave a :: tasks) = a :: stack tasks := rfl

theorem stack_enter_append (nodes : List Nat) : stack (nodes.map .enter ++ tasks) = stack tasks := by
  induction nodes with
  | nil => rfl
  | cons x nodes ih => exact ih

/-- A node comes next on the path that a stack stands for. -/
def Continues (G : Digraph) (start : Nat) : List Nat → Nat → Prop
  | [], a => a = start
  | top :: _, a => a ∈ G.next top

/-- Every task is about a successor of the node whose leaving is the next behind it. -/
def Nested (G : Digraph) (start : Nat) : List Task → Prop
  | [] => True
  | task :: tasks => Continues G start (stack tasks) task.node ∧ Nested G start tasks

/-- The nodes still to be left are a path from the start, backwards. -/
theorem Nested.path_stack (h : Nested G start tasks) (hnodes : ∀ x, Task.leave x ∈ tasks → x ∈ G.nodes)
    {rest : List Nat} (hstack : stack tasks = a :: rest) : G.Path start a (a :: rest).reverse := by
  -- along the tasks: what is to be left forms the way from the start to the node at hand
  induction tasks generalizing a rest with
  | nil => cases hstack
  | cons task tasks ih =>
    have hnodes' : ∀ x, Task.leave x ∈ tasks → x ∈ G.nodes := fun x hx =>
      hnodes x (List.mem_cons_of_mem _ hx)
    cases task with
    | enter _ => exact ih h.2 hnodes' hstack
    | leave x =>
      have hx : x ∈ G.nodes := hnodes x List.mem_cons_self
      have hnext : Continues G start (stack tasks) x := h.1
      rw [stack_leave] at hstack
      obtain ⟨rfl, hrest⟩ := List.cons.inj hstack
      rw [hrest] at hnext
      rw [List.reverse_cons]
      cases rest with
      | nil =>
        obtain rfl : x = start := hnext
        exact .single hx
      | cons top rest => exact (ih h.2 hnodes' hrest).snoc hnext hx

/-- The successors of the node that is left next may be entered. -/
theorem Nested.enter_successors (h : Nested G start (.leave a :: tasks)) (nodes : List Nat)
    (hnodes : ∀ x ∈ nodes, x ∈ G.next a) : Nested G start (nodes.map .enter ++ .leave a :: tasks) := by
  induction nodes with
  | nil => exact h
  | cons x nodes ih =>
    have htop : stack (nodes.map .enter ++ .leave a :: tasks) = a :: stack tasks :=
      stack_enter_append nodes
    refine ⟨?_, ih fun y hy => hnodes y (List.mem_cons_of_mem _ hy)⟩
    change Continues G start (stack (nodes.map .enter ++ .leave a :: tasks)) x
    rw [htop]
    exact hnodes x List.mem_cons_self

/-! ## Edges against the order -/

/-- A state in the middle of a search, as to the successors of the nodes that are left: they were left
before, or they are on a path to the node that does not come to any node twice. -/
structure SearchTree (G : Digraph) (start : Nat) (tasks : List Task) (seen done : List Nat) : Prop where
  nested : Nested G start tasks
  nodes : ∀ x, Task.leave x ∈ tasks → x ∈ G.nodes
  heeded : ∀ before x after, tasks = before ++ .leave x :: after →
    ∀ y ∈ G.next x, y ∈ G.nodes → y ∈ seen ∨ Task.enter y ∈ before
  closing : ∀ before x after, done = before ++ x :: after → ∀ y ∈ G.next x, y ∈ G.nodes →
    y ∈ after ∨ ∃ path, G.Path start x path ∧ path.Nodup ∧ y ∈ path

/-- At the start no node is waiting to be left. -/
theorem searchTree_start (G : Digraph) (start : Nat) : SearchTree G start [.enter start] [] [] where
  nested := ⟨rfl, trivial⟩
  nodes x hx := by simp at hx
  heeded before x after htasks := by
    have hmem : Task.leave x ∈ [Task.enter start] := htasks ▸ by simp
    simp at hmem
  closing before x after hdone := by simp at hdone

/-- Leaving a node keeps what is known of the successors. -/
theorem SearchTree.leave (h : SearchTree G start (.leave a :: tasks) seen done)
    (hinv : SearchInv G (.leave a :: tasks) seen done) (horder : SearchOrder G start (.leave a :: tasks) done) :
    SearchTree G start tasks seen (a :: done) where
  nested := h.nested.2
  nodes x hx := h.nodes x (List.mem_cons_of_mem _ hx)
  heeded before x after htasks y hy hn := by
    have hsplit : Task.leave a :: tasks = (.leave a :: before) ++ .leave x :: after := by
      rw [htasks, List.cons_append]
    simpa using h.heeded _ x after hsplit y hy hn
  closing before x after hdone y hy hn := by
    cases before with
    | cons _ before => exact h.closing before x after (List.cons.inj hdone).2 y hy hn
    | nil =>
      obtain ⟨rfl, rfl⟩ := List.cons.inj hdone
      -- no task is left to enter a successor of the node, so it is seen: left before, or on the stack
      have hseen : y ∈ seen := (h.heeded [] a tasks rfl y hy hn).resolve_right (by simp)
      refine ((hinv.seen_iff y).1 hseen).imp_right fun hleave => ?_
      refine ⟨(a :: stack tasks).reverse, h.nested.path_stack h.nodes rfl, ?_, ?_⟩
      · rw [List.nodup_reverse]
        exact horder.nodup.sublist (List.sublist_append_left _ _)
      · rw [List.mem_reverse]
        exact Task.mem_filterMap_left?.2 hleave

/-- Where a node is left, after the tasks for another node were put in front. -/
private theorem leave_of_enter_successors {nodes : List Nat} {before after : List Task}
    (h : nodes.map .enter ++ .leave a :: tasks = before ++ .leave b :: after) :
    before = nodes.map .enter ∧ b = a ∨
      ∃ between, before = nodes.map .enter ++ .leave a :: between ∧ tasks = between ++ .leave b :: after := by
  -- the tasks for the neighbours come first, and none of them is to leave a node
  induction nodes generalizing before with
  | nil =>
    cases before with
    | nil =>
      obtain ⟨rfl, -⟩ := by simpa using h
      exact .inl ⟨rfl, rfl⟩
    | cons task before =>
      obtain ⟨rfl, htasks⟩ := List.cons.inj h
      exact .inr ⟨before, rfl, htasks⟩
  | cons x nodes ih =>
    cases before with
    | nil => cases (List.cons.inj h).1
    | cons task before =>
      obtain ⟨rfl, hrest⟩ := List.cons.inj h
      rcases ih hrest with ⟨rfl, rfl⟩ | ⟨between, rfl, htasks⟩
      · exact .inl ⟨rfl, rfl⟩
      · exact .inr ⟨between, rfl, htasks⟩

/-- Entering a new node keeps it. -/
theorem SearchTree.enter_new (h : SearchTree G start (.enter a :: tasks) seen done) (ha : a ∈ G.nodes) :
    SearchTree G start ((G.next a).map .enter ++ .leave a :: tasks) (a :: seen) done where
  nested := Nested.enter_successors h.nested _ fun _ hx => hx
  nodes x hx := by
    simp only [List.mem_append, List.mem_map, reduceCtorEq, and_false, exists_const, false_or,
      List.mem_cons, Task.leave.injEq] at hx
    rcases hx with rfl | hx
    · exact ha
    · exact h.nodes x (List.mem_cons_of_mem _ hx)
  heeded before x after htasks y hy hn := by
    rcases leave_of_enter_successors htasks with ⟨rfl, rfl⟩ | ⟨between, rfl, hbehind⟩
    · exact .inr (List.mem_map_of_mem hy)
    · have hsplit : Task.enter a :: tasks = (.enter a :: between) ++ .leave x :: after := by
        rw [hbehind, List.cons_append]
      rcases h.heeded _ x after hsplit y hy hn with hs | ht
      · exact .inl (List.mem_cons_of_mem _ hs)
      · rcases List.mem_cons.1 ht with heq | ht
        · cases heq
          exact .inl List.mem_cons_self
        · exact .inr (List.mem_append_right _ (List.mem_cons_of_mem _ ht))
  closing := h.closing

/-- Passing over a node keeps it. -/
theorem SearchTree.enter_old (h : SearchTree G start (.enter a :: tasks) seen done)
    (ha : ¬(a ∈ G.nodes ∧ a ∉ seen)) : SearchTree G start tasks seen done where
  nested := h.nested.2
  nodes x hx := h.nodes x (List.mem_cons_of_mem _ hx)
  heeded before x after htasks y hy hn := by
    have hsplit : Task.enter a :: tasks = (.enter a :: before) ++ .leave x :: after := by
      rw [htasks, List.cons_append]
    rcases h.heeded _ x after hsplit y hy hn with hs | ht
    · exact .inl hs
    · rcases List.mem_cons.1 ht with heq | ht
      · cases heq
        exact .inl (not_not.1 fun hs => ha ⟨hn, hs⟩)
      · exact .inr ht
  closing := h.closing

/-- So it holds at the end of the search. -/
theorem SearchTree.search (h : SearchTree G start tasks seen done) (hinv : SearchInv G tasks seen done)
    (horder : SearchOrder G start tasks done) :
    ∃ seen', SearchTree G start [] seen' (G.search tasks seen done) := by
  induction tasks, seen, done using search_induction (G := G) with
  | finished seen done =>
    rw [Digraph.search]
    exact ⟨seen, h⟩
  | leave a tasks seen done ih =>
    rw [Digraph.search]
    exact ih (h.leave hinv horder) hinv.leave horder.leave
  | enterNew a tasks seen done ha ih =>
    rw [search_enter_new ha]
    exact ih (h.enter_new ha.1) hinv.enter_new (horder.enter_new hinv ha.2)
  | enterOld a tasks seen done ha ih =>
    rw [Digraph.search, dif_neg ha]
    exact ih (h.enter_old ha) (hinv.enter_old ha) horder.enter_old

/-- An edge that goes against reverse postorder leads to a node that some path to its source goes through, and
that path comes to no node twice. -/
theorem exists_path_of_idxOf_le (hb : b ∈ G.reversePostorder start) (hnext : c ∈ G.next b) (hc : c ∈ G.nodes)
    (hle : (G.reversePostorder start).idxOf c ≤ (G.reversePostorder start).idxOf b) :
    ∃ path, G.Path start b path ∧ path.Nodup ∧ c ∈ path := by
  obtain ⟨_, htree⟩ := (searchTree_start G start).search (searchInv_start G start) (searchOrder_start G start)
  have hnodup := nodup_reversePostorder G start
  obtain ⟨before, after, horder⟩ := List.append_of_mem hb
  refine (htree.closing before b after horder c hnext hc).resolve_left fun hafter => ?_
  rw [horder] at hnodup hle
  have hdisjoint := List.disjoint_of_nodup_append hnodup
  have hb' : b ∉ before := fun hmem => hdisjoint hmem List.mem_cons_self
  have hc' : c ∉ before := fun hmem => hdisjoint hmem (List.mem_cons_of_mem _ hafter)
  have hbc : b ≠ c := fun heq =>
    (List.nodup_cons.1 hnodup.of_append_right).1 (heq ▸ hafter)
  rw [List.idxOf_append_of_notMem hb', List.idxOf_append_of_notMem hc', List.idxOf_cons_self,
    List.idxOf_cons_ne _ hbc] at hle
  omega

/-- On a walk from a node that is not dominated to the one that does not dominate it, some edge comes to that
one from a node that is not dominated either. -/
theorem Path.exists_undominated {p : List Nat} (h : G.Path b c p) (ha : a ∈ p)
    (hb : ¬G.Dominates start a b) : ∃ u ∈ p, a ∈ G.next u ∧ ¬G.Dominates start a u := by
  induction h with
  | single _ => exact absurd .refl (List.mem_singleton.1 ha ▸ hb)
  | @cons b b' c p _ hnext hrest ih =>
    by_cases heq : a = b'
    · exact ⟨b, List.mem_cons_self, heq ▸ hnext, hb⟩
    · have hp : a ∈ p := (List.mem_cons.1 ha).resolve_left (Dominates.ne_of_not hb)
      obtain ⟨way, hway, haround⟩ := not_dominates_iff.1 hb
      have hb' : ¬G.Dominates start a b' := by
        apply not_dominates_iff.2
        refine ⟨way ++ [b'], hway.snoc hnext hrest.source_mem, ?_⟩
        rw [List.mem_append, List.mem_singleton]
        exact not_or.2 ⟨haround, heq⟩
      obtain ⟨u, hu, hedge, hdom⟩ := ih hp hb'
      exact ⟨u, List.mem_cons_of_mem _ hu, hedge, hdom⟩

/-- A closed walk leads from each of its nodes to all of them. -/
theorem Path.around {p : List Nat} (h : G.Path b b p) (ha : a ∈ p) :
    ∃ q, G.Path a b q ∧ ∀ x, x ∈ q ↔ x ∈ p := by
  obtain ⟨before, after, rfl⟩ := List.append_of_mem ha
  obtain ⟨rest, hrest⟩ := h.exists_tail
  have hlast := h.split.2
  refine ⟨(a :: after) ++ rest, hlast.append (hrest ▸ h), fun x => ?_⟩
  constructor
  · intro hx
    rcases List.mem_append.1 hx with hx | hx
    · exact List.mem_append_right _ hx
    · rw [hrest]
      exact List.mem_cons_of_mem _ hx
  · intro hx
    rw [hrest] at hx
    rcases List.mem_cons.1 hx with rfl | hx
    · exact List.mem_append_left _ hlast.target_mem_path
    · exact List.mem_append_right _ hx

end Digraph

namespace FlowGraph

variable {g : FlowGraph} {b s : BlockId}

/-- An irreducible edge leads back in the order to a block that does not dominate where it comes from. -/
theorem mem_irreducibleEdges_iff : (b, s) ∈ g.irreducibleEdges ↔
    g.digraph.Reaches g.entry b ∧ s ∈ g.successors b ∧ g.digraph.Reaches g.entry s ∧
      g.reversePostorder.idxOf s ≤ g.reversePostorder.idxOf b ∧ ¬g.digraph.Dominates g.entry s b := by
  have hedge : (b, s) ∈ g.irreducibleEdges ↔ b ∈ g.reversePostorder ∧ s ∈ g.successors b ∧
      s ∈ g.reversePostorder ∧ g.reversePostorder.idxOf s ≤ g.reversePostorder.idxOf b ∧
      ¬Digraph.dominates g.dominators s b = true := by
    unfold irreducibleEdges
    simp only [List.mem_flatMap, List.mem_map, List.mem_filter, Prod.mk.injEq, Bool.and_eq_true,
      List.contains_iff_mem, decide_eq_true_eq, Bool.not_eq_true', Bool.not_eq_true]
    constructor
    · rintro ⟨_, hb, _, ⟨hs, ⟨hmem, hle⟩, hdom⟩, rfl, rfl⟩
      exact ⟨hb, hs, hmem, hle, hdom⟩
    · rintro ⟨hb, hs, hmem, hle, hdom⟩
      exact ⟨b, hb, s, ⟨hs, ⟨hmem, hle⟩, hdom⟩, rfl, rfl⟩
  have hreach : ∀ c, c ∈ g.reversePostorder ↔ g.digraph.Reaches g.entry c := fun c =>
    Digraph.mem_reversePostorder_iff
  rw [hedge, hreach, hreach]
  refine and_congr_right fun hb => ?_
  have hentry : g.entry ∈ g.ids := hb.elim fun _ hpath => hpath.source_mem
  have hdom : Digraph.dominates g.dominators s b = true ↔ g.digraph.Dominates g.entry s b :=
    Digraph.dominates_iff hentry hb
  rw [hdom]

/-- The graph is found reducible if and only if control that goes round in a circle goes through a block that
dominates all blocks of the circle. -/
theorem irreducibleEdges_eq_nil_iff (hranges : g.ranges = []) :
    g.irreducibleEdges = [] ↔
      ∀ b walk, g.digraph.Path b b walk → walk ≠ [b] → (∀ c ∈ walk, g.digraph.Reaches g.entry c) →
        ∃ d ∈ walk, ∀ c ∈ walk, g.digraph.Dominates g.entry d c := by
  have hnext : g.digraph.next = g.successors := by
    rw [digraph_eq_normalDigraph hranges]
    rfl
  constructor
  · intro hnone b walk hwalk _ hreach
    obtain ⟨d, hd, hfirst⟩ := Finset.exists_min_image walk.toFinset g.reversePostorder.idxOf
      ⟨b, List.mem_toFinset.2 hwalk.source_mem_path⟩
    rw [List.mem_toFinset] at hd
    refine ⟨d, hd, fun c hc => ?_⟩
    by_contra hdom
    obtain ⟨around, haround, hsame⟩ := hwalk.around hc
    obtain ⟨u, hu, hedge, hundominated⟩ := haround.exists_undominated ((hsame d).2 hd) hdom
    have hu : u ∈ walk := (hsame u).1 hu
    have hmem : (u, d) ∈ g.irreducibleEdges := mem_irreducibleEdges_iff.2
      ⟨hreach u hu, hnext ▸ hedge, hreach d hd, hfirst u (List.mem_toFinset.2 hu), hundominated⟩
    rw [hnone] at hmem
    cases hmem
  · intro hwalks
    rw [List.eq_nil_iff_forall_not_mem]
    rintro ⟨b, s⟩ hedge
    obtain ⟨hb, hsucc, hs, hle, hdom⟩ := mem_irreducibleEdges_iff.1 hedge
    rw [← hnext] at hsucc
    have hs : s ∈ g.digraph.nodes := hs.elim fun _ hpath => hpath.target_mem
    obtain ⟨path, hpath, hnodup, hmem⟩ :=
      Digraph.exists_path_of_idxOf_le (Digraph.mem_reversePostorder_iff.2 hb) hsucc hs hle
    obtain ⟨before, after, rfl⟩ := List.append_of_mem hmem
    obtain ⟨hfirst, hlast⟩ := hpath.split
    have hwalk : g.digraph.Path b b (b :: s :: after) := .cons hpath.target_mem hsucc hlast
    obtain ⟨d, hd, hall⟩ := hwalks b _ hwalk (by simp) fun c hc => by
      obtain ⟨way, hway⟩ := hb
      obtain ⟨way', hway'⟩ := hwalk.reaches_of_mem hc
      obtain ⟨rest, rfl⟩ := hway'.exists_tail
      exact ⟨_, hway.append hway'⟩
    -- what dominates the whole circle is on the way to `s`, and on the circle: it can only be `s`
    have hd : d ∈ s :: after := by
      rcases List.mem_cons.1 hd with rfl | hd
      · exact hlast.target_mem_path
      · exact hd
    have hway : d ∈ before ++ [s] := hall s (by simp) _ hfirst
    have heq : d = s := by
      rcases List.mem_append.1 hway with hbefore | hs
      · exact absurd hd (List.disjoint_of_nodup_append hnodup hbefore)
      · exact List.mem_singleton.1 hs
    exact hdom (heq ▸ hall b List.mem_cons_self)

/-- Two nested loops have no such edge, and a loop with two entries has one. -/
theorem irreducibleEdges_eq_nil_iff_nestedLoops :
    nestedLoops.ranges = [] ∧ nestedLoops.irreducibleEdges = [] ∧
      (∃ d ∈ [1, 2, 3, 1], ∀ c ∈ [1, 2, 3, 1], nestedLoops.digraph.Dominates nestedLoops.entry d c) ∧
    crossing.ranges = [] ∧ crossing.irreducibleEdges = [(1, 2)] ∧
      ¬∀ b walk, crossing.digraph.Path b b walk → walk ≠ [b] →
        (∀ c ∈ walk, crossing.digraph.Reaches crossing.entry c) →
        ∃ d ∈ walk, ∀ c ∈ walk, crossing.digraph.Dominates crossing.entry d c := by
  have hnested : nestedLoops.irreducibleEdges = [] := by cbv
  have hcrossing : crossing.irreducibleEdges = [(1, 2)] := by cbv
  refine ⟨rfl, hnested, ?_, rfl, hcrossing, ?_⟩
  · have horder : nestedLoops.digraph.reversePostorder nestedLoops.entry = nestedLoops.ids := by cbv
    have hwalk : nestedLoops.digraph.Path 1 1 [1, 2, 3, 1] :=
      .cons (by decide) (by decide) (.cons (by decide) (by decide) (.cons (by decide) (by decide)
        (.single (by decide))))
    apply (irreducibleEdges_eq_nil_iff rfl).1 hnested 1 _ hwalk (by decide)
    exact fun c hc => Digraph.mem_reversePostorder_iff.1 (horder ▸ hwalk.mem_nodes c hc)
  · rw [← irreducibleEdges_eq_nil_iff rfl, hcrossing]
    exact List.cons_ne_nil _ _

end FlowGraph

end JvmDecompiler
