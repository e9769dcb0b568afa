import JvmDecompiler.Proofs.LoopCuts

/-!
# The natural loops of a graph with a block cut

A block that is cut becomes two nodes of the graph, and what led out of the block now leads out of one of the
two. A path of either graph is one of the other, with the second node put in or left out, so paths around
the old nodes lead to the same old nodes (`Digraph.Divides.reachesAround_iff`), and dominance among them is
the same.

The second half is not the header of a loop, as nothing but the first half leads to it. So the natural loops
have the same headers as before and the same blocks, up to the second half
(`FlowGraph.IsCut.exists_mem_naturalLoops`, `FlowGraph.IsCut.exists_uncut`).
-/

namespace JvmDecompiler

namespace Digraph

variable {G H : Digraph} {start b t d x y : Nat}

/-- The graph `H` is the graph `G` with a node `t` put behind the node `b`, which takes over edges of it. -/
structure Divides (G H : Digraph) (b t : Nat) : Prop where
  mem_nodes : ∀ x, x ∈ H.nodes ↔ x ∈ G.nodes ∨ x = t
  source : b ∈ G.nodes
  fresh : t ∉ G.nodes
  target_ne : ∀ x ∈ G.nodes, ∀ y ∈ G.next x, y ≠ t
  mem_next : ∀ x ∈ G.nodes, x ≠ b → ∀ y, y ∈ H.next x ↔ y ∈ G.next x
  mem_next_first : ∀ y ∈ H.next b, y = t ∨ y ∈ G.next b
  second_mem_next : t ∈ H.next b
  mem_next_second : ∀ y ∈ H.next t, y ∈ G.next b
  covered : ∀ y ∈ G.next b, y ∈ H.next b ∨ y ∈ H.next t

namespace Divides

variable (h : G.Divides H b t)

include h

/-- All nodes but the new one were there before. -/
theorem mem_nodes_of_ne (hx : x ∈ H.nodes) (hne : x ≠ t) : x ∈ G.nodes :=
  ((h.mem_nodes x).1 hx).resolve_right hne

/-- The new node was not there before. -/
theorem ne_second (hx : x ∈ G.nodes) : x ≠ t := fun heq => h.fresh (heq ▸ hx)

/-- Only the node that is divided leads to the new one. -/
theorem eq_of_second_mem_next (hx : x ∈ G.nodes) (hedge : t ∈ H.next x) : x = b := by
  by_contra hne
  exact h.target_ne x hx t ((h.mem_next x hx hne t).1 hedge) rfl

/-- An edge between old nodes was there before. -/
theorem mem_next_of_ne (hx : x ∈ G.nodes) (hy : y ∈ H.next x) (hne : y ≠ t) : y ∈ G.next x := by
  by_cases hb : x = b
  · exact hb ▸ (h.mem_next_first y (hb ▸ hy)).resolve_left hne
  · exact (h.mem_next x hx hb y).1 hy

/-- A path to an old node from an old one, or from the new one as if that were the node that was divided. -/
theorem reachesAround_of_path {path : List Nat} (hpath : H.Path x y path) (hd : d ∉ path)
    (hy : y ∈ G.nodes) : (x ∈ G.nodes → G.ReachesAround d x y) ∧ (x = t → d ≠ b → G.ReachesAround d b y) := by
  -- behind the node that was divided a path may go on from the new one, so both starts are needed
  induction hpath with
  | single =>
    exact ⟨fun hx => ⟨_, .single hx, hd⟩, fun hx => absurd (hx ▸ hy) h.fresh⟩
  | @cons x z y path _ hz _ ih =>
    obtain ⟨hold, hnew⟩ := ih (fun hmem => hd (List.mem_cons_of_mem _ hmem)) hy
    have hdx : d ≠ x := fun heq => hd (heq ▸ List.mem_cons_self)
    have hnode : z ≠ t → z ∈ G.nodes := h.mem_nodes_of_ne (by rename_i hrest; exact hrest.source_mem)
    constructor
    · intro hx
      by_cases hzt : z = t
      · obtain rfl := h.eq_of_second_mem_next hx (hzt ▸ hz)
        exact hnew hzt hdx
      · exact (hold (hnode hzt)).head hx (h.mem_next_of_ne hx hz hzt) hdx
    · rintro rfl hdb
      have hz := h.mem_next_second z hz
      exact (hold (hnode (h.target_ne b h.source z hz))).head h.source hz hdb

/-- Paths around an old node lead from old nodes to the old nodes they led to. -/
theorem reachesAround_iff (hd : d ∈ G.nodes) (hx : x ∈ G.nodes) (hy : y ∈ G.nodes) :
    H.ReachesAround d x y ↔ G.ReachesAround d x y := by
  constructor
  · rintro ⟨path, hpath, hmem⟩
    exact (h.reachesAround_of_path hpath hmem hy).1 hx
  · rintro ⟨path, hpath, hmem⟩
    clear hx
    induction hpath with
    | single hx => exact ⟨_, .single ((h.mem_nodes _).2 (.inl hx)), hmem⟩
    | @cons x z y path hx hz _ ih =>
      have hrest := ih hy fun hin => hmem (List.mem_cons_of_mem _ hin)
      have hdx : d ≠ x := fun heq => hmem (heq ▸ List.mem_cons_self)
      have hnode := (h.mem_nodes x).2 (.inl hx)
      by_cases hxb : x = b
      · subst hxb
        rcases h.covered z hz with hz | hz
        · exact hrest.head hnode hz hdx
        · -- the edge has become one of the new node
          exact (hrest.head ((h.mem_nodes t).2 (.inr rfl)) hz (h.ne_second hd)).head hnode
            h.second_mem_next hdx
      · exact hrest.head hnode ((h.mem_next x hx hxb z).2 hz) hdx

/-- To come to the new node is to come to the node that was divided. -/
theorem reachesAround_second_iff (hd : d ∈ G.nodes) (hx : x ∈ G.nodes) :
    H.ReachesAround d x t ↔ G.ReachesAround d x b := by
  constructor
  · rintro ⟨path, hpath, hmem⟩
    induction hpath with
    | single => exact absurd hx h.fresh
    | @cons x z t path _ hz hrest ih =>
      have hdx : d ≠ x := fun heq => hmem (heq ▸ List.mem_cons_self)
      by_cases hzt : z = t
      · obtain rfl := h.eq_of_second_mem_next hx (hzt ▸ hz)
        exact ⟨_, .single hx, fun hin => hdx (List.mem_singleton.1 hin)⟩
      · refine (ih h (h.mem_nodes_of_ne hrest.source_mem hzt) fun hin => ?_).head hx
          (h.mem_next_of_ne hx hz hzt) hdx
        exact hmem (List.mem_cons_of_mem _ hin)
  · intro hreach
    have hlast : H.ReachesAround d t t :=
      ⟨[t], .single ((h.mem_nodes t).2 (.inr rfl)), fun hin => h.ne_second hd (List.mem_singleton.1 hin)⟩
    exact ((h.reachesAround_iff hd hx h.source).2 hreach).trans
      (hlast.head ((h.mem_nodes b).2 (.inl h.source)) h.second_mem_next hreach.target_ne)

/-- Between the old nodes, dominance stays as it was. -/
theorem dominates_iff (hstart : start ∈ G.nodes) (hd : d ∈ G.nodes) (hx : x ∈ G.nodes) :
    H.Dominates start d x ↔ G.Dominates start d x := by
  rw [← not_iff_not, not_dominates_iff, not_dominates_iff, h.reachesAround_iff hd hstart hx]

/-- An old node dominates the second half of the block exactly if it dominated the block. -/
theorem dominates_second_iff (hstart : start ∈ G.nodes) (hd : d ∈ G.nodes) :
    H.Dominates start d t ↔ G.Dominates start d b := by
  rw [← not_iff_not, not_dominates_iff, not_dominates_iff, h.reachesAround_second_iff hd hstart]

/-- The new node dominates no old one that control comes to. -/
theorem not_second_dominates (hstart : start ∈ G.nodes) (hreach : H.Reaches start b) :
    ¬H.Dominates start t b := by
  intro hdom
  have hback : H.Dominates start b t := (h.dominates_second_iff hstart h.source).2 .refl
  exact h.ne_second h.source (hback.antisymm hreach hdom)

end Divides

end Digraph

/-- The same natural loop before a block is cut and behind it; `second` is the new half of the block `first`. -/
structure NaturalLoop.CutInto (l m : NaturalLoop) (first second : BlockId) : Prop where
  header : m.header = l.header
  mem_body : ∀ x ≠ second, x ∈ m.body ↔ x ∈ l.body
  second_mem : first ∈ l.latches → second ∈ m.body

namespace FlowGraph

section

variable {g : FlowGraph} {header x : BlockId} {l : NaturalLoop}

/-- The natural loop of a header. -/
def naturalLoopAt (g : FlowGraph) (header : BlockId) : NaturalLoop :=
  ⟨header, g.loopBody header (g.latchesOf header), g.latchesOf header⟩

/-- A header has a natural loop if it has a latch. -/
theorem naturalLoopAt_mem_iff : g.naturalLoopAt header ∈ g.naturalLoops ↔ g.latchesOf header ≠ [] :=
  mem_naturalLoops_iff.trans (and_iff_left ⟨rfl, rfl⟩)

/-- A natural loop is that of its header. -/
theorem eq_naturalLoopAt (hl : l ∈ g.naturalLoops) : l = g.naturalLoopAt l.header := by
  obtain ⟨-, hlatches, hbody⟩ := mem_naturalLoops_iff.1 hl
  rw [naturalLoopAt, ← hlatches, ← hbody]

/-- Where control comes to every block, a latch is a block with an edge to the header that dominates it. -/
theorem mem_latchesOf_iff_of_allReachable (hr : g.AllReachable) : x ∈ g.latchesOf header ↔
    header ∈ g.successors x ∧ g.digraph.Dominates g.entry header x := by
  rw [mem_latchesOf_iff]
  exact and_iff_right_of_imp fun hx => Digraph.mem_reversePostorder_iff.1 (hr x (source_mem_ids hx.1))

end

namespace IsCut

variable {g cut : FlowGraph} {stop : Address} {b : Block} {before after : List PlacedInstruction}
  {i : PlacedInstruction} {header x y : BlockId} {l : NaturalLoop}
  (h : IsCut g cut b before i after) (hg : g.Arranged stop)

include h hg

/-! ## Edges -/

/-- The first half leads to the second. -/
theorem successors_first : cut.successors b.id = [i.address] := by
  simp only [successors, h.block?_first hg, Terminator.successors]

/-- The second half leads where the block did. -/
theorem successors_second : cut.successors i.address = g.successors b.id := by
  simp only [successors, h.block?_second hg, h.block]

/-- All other blocks lead where they did. -/
theorem successors_of_ne (hb : x ≠ b.id) (hi : x ≠ i.address) : cut.successors x = g.successors x := by
  simp only [successors, h.block?_of_ne hg hb hi]

omit hg in
/-- The block that is cut is one of the graph. -/
theorem mem_ids_block : b.id ∈ g.ids := mem_ids_iff.2 ⟨b, h.block⟩

/-- The place of the cut is no block of the graph. -/
theorem ne_address (hx : x ∈ g.ids) : x ≠ i.address := fun heq => h.address_not_mem_ids hg (heq ▸ hx)

/-- Nor does an edge lead there. -/
theorem successor_ne (hy : y ∈ g.successors x) : y ≠ i.address := by
  unfold successors at hy
  split at hy
  · rename_i c hc
    exact h.target_ne hg (mem_of_block? hc) hy
  · cases hy

/-- To cut a block divides a node of the graph of normal edges. -/
theorem divides_normalDigraph : g.normalDigraph.Divides cut.normalDigraph b.id i.address where
  mem_nodes _ := h.mem_ids hg
  source := h.mem_ids_block
  fresh := h.address_not_mem_ids hg
  target_ne _ _ _ hy := h.successor_ne hg hy
  mem_next x hx hne y := by
    show y ∈ cut.successors x ↔ y ∈ g.successors x
    rw [h.successors_of_ne hg hne (h.ne_address hg hx)]
  mem_next_first y hy := by
    have hy : y ∈ cut.successors b.id := hy
    rw [h.successors_first hg] at hy
    exact .inl (List.mem_singleton.1 hy)
  second_mem_next := by
    show i.address ∈ cut.successors b.id
    rw [h.successors_first hg]
    exact List.mem_singleton_self _
  mem_next_second y hy := by
    show y ∈ g.successors b.id
    rwa [← h.successors_second hg]
  covered y hy := .inr (by
    show y ∈ cut.successors i.address
    rwa [h.successors_second hg])

/-- It divides a node of the graph with exceptions. -/
theorem divides_digraph : g.digraph.Divides cut.digraph b.id i.address where
  mem_nodes _ := h.mem_ids hg
  source := h.mem_ids_block
  fresh := h.address_not_mem_ids hg
  target_ne x _ y hy := by
    obtain ⟨c, hc, hy | ⟨r, hr, j, hj, hcov, rfl⟩⟩ := mem_allSuccessors_iff.1 hy
    · exact h.target_ne hg (mem_of_block? hc) hy
    · exact h.handler_ne hg (mem_of_block? hc) hj hr hcov
  mem_next x hx hne y := by
    show y ∈ cut.allSuccessors x ↔ y ∈ g.allSuccessors x
    rw [mem_allSuccessors_iff, mem_allSuccessors_iff, h.block?_of_ne hg hne (h.ne_address hg hx), h.ranges]
  mem_next_first y hy := by
    obtain ⟨c, hc, hy⟩ := mem_allSuccessors_iff.1 hy
    obtain rfl := Option.some.inj (hc.symm.trans (h.block?_first hg))
    rcases hy with hy | ⟨r, hr, j, hj, hcov, rfl⟩
    · exact .inl (List.mem_singleton.1 hy)
    · exact .inr (handler_mem_allSuccessors h.block (h.ranges ▸ hr)
        (h.instructions ▸ List.mem_append_left _ hj) hcov)
  second_mem_next :=
    mem_allSuccessors_iff.2 ⟨_, h.block?_first hg, .inl (List.mem_singleton_self _)⟩
  mem_next_second y hy := by
    obtain ⟨c, hc, hy⟩ := mem_allSuccessors_iff.1 hy
    obtain rfl := Option.some.inj (hc.symm.trans (h.block?_second hg))
    rcases hy with hy | ⟨r, hr, j, hj, hcov, rfl⟩
    · exact mem_allSuccessors_iff.2 ⟨b, h.block, .inl hy⟩
    · exact handler_mem_allSuccessors h.block (h.ranges ▸ hr)
        (h.instructions ▸ List.mem_append_right _ hj) hcov
  covered y hy := by
    obtain ⟨c, hc, hway⟩ := mem_allSuccessors_iff.1 hy
    obtain rfl := Option.some.inj (hc.symm.trans h.block)
    rcases hway with hy | ⟨r, hr, j, hj, hcov, rfl⟩
    · exact .inr (mem_allSuccessors_iff.2 ⟨_, h.block?_second hg, .inl hy⟩)
    -- a handler is one of the half that the instruction is in
    have hr : r ∈ cut.ranges := h.ranges ▸ hr
    rw [h.instructions] at hj
    rcases List.mem_append.1 hj with hj | hj
    · exact .inl (handler_mem_allSuccessors (h.block?_first hg) hr hj hcov)
    · exact .inr (handler_mem_allSuccessors (h.block?_second hg) hr hj hcov)

/-! ## Loops -/

variable {m : NaturalLoop} (hr : g.AllReachable)

include hr

/-- An edge back from the block that is cut becomes one from the second half. -/
theorem mem_latchesOf_iff (hheader : header ∈ g.ids) : x ∈ cut.latchesOf header ↔
    x ∈ g.latchesOf header ∧ x ≠ b.id ∨ x = i.address ∧ b.id ∈ g.latchesOf header := by
  have hdivides := h.divides_digraph hg
  have hentry : g.entry ∈ g.ids := hg.wf.entry (List.ne_nil_of_mem (mem_of_block? h.block))
  rw [mem_latchesOf_iff_of_allReachable hr, mem_latchesOf_iff_of_allReachable hr,
    mem_latchesOf_iff_of_allReachable (h.allReachable hg hr), h.entry]
  -- the new block, which has taken over the edges of the old one
  by_cases hi : x = i.address
  · have hnone : header ∉ g.successors x := fun hx =>
      h.address_not_mem_ids hg (hi ▸ source_mem_ids hx)
    rw [hi] at hnone ⊢
    rw [h.successors_second hg, hdivides.dominates_second_iff hentry hheader]
    simp [hnone]
  -- the old block, whose one edge leads to the new one and not to the header
  by_cases hb : x = b.id
  · rw [hb, h.successors_first hg]
    simp [h.ne_address hg hheader, h.inner.symm]
  · rw [h.successors_of_ne hg hb hi]
    have hdom : header ∈ g.successors x →
        (cut.digraph.Dominates g.entry header x ↔ g.digraph.Dominates g.entry header x) := fun hx =>
      hdivides.dominates_iff hentry hheader (source_mem_ids hx)
    simp [hb, hi, and_congr_right hdom]

/-- Of the old blocks the same are in the body of a loop. -/
theorem mem_loopBody_iff (hheader : header ∈ g.ids) (hx : x ∈ g.ids) :
    x ∈ cut.loopBody header (cut.latchesOf header) ↔ x ∈ g.loopBody header (g.latchesOf header) := by
  have hdivides := h.divides_normalDigraph hg
  have hlatches := fun {x} => h.mem_latchesOf_iff hg hr (x := x) hheader
  have hids : ∀ {latch}, latch ∈ g.latchesOf header → latch ∈ g.ids := fun hlatch =>
    (latchesOf_sublist_ids header).subset hlatch
  rw [FlowGraph.mem_loopBody_iff, FlowGraph.mem_loopBody_iff]
  refine or_congr Iff.rfl ⟨fun ⟨latch, hlatch, hway⟩ => ?_, fun ⟨latch, hlatch, hway⟩ => ?_⟩
  · rcases hlatches.1 hlatch with ⟨hold, -⟩ | ⟨rfl, hfirst⟩
    · exact ⟨latch, hold, (hdivides.reachesAround_iff hheader hx (hids hold)).1 hway⟩
    · exact ⟨b.id, hfirst, (hdivides.reachesAround_second_iff hheader hx).1 hway⟩
  · by_cases hb : latch = b.id
    · subst hb
      exact ⟨i.address, hlatches.2 (.inr ⟨rfl, hlatch⟩),
        (hdivides.reachesAround_second_iff hheader hx).2 hway⟩
    · exact ⟨latch, hlatches.2 (.inl ⟨hlatch, hb⟩),
        (hdivides.reachesAround_iff hheader hx (hids hlatch)).2 hway⟩

/-- The same headers have latches. -/
theorem latchesOf_ne_nil_iff (hheader : header ∈ g.ids) :
    cut.latchesOf header ≠ [] ↔ g.latchesOf header ≠ [] := by
  simp only [ne_eq, List.eq_nil_iff_forall_not_mem, h.mem_latchesOf_iff hg hr hheader]
  grind

/-- The natural loop of a header is the same, but for the cut. -/
theorem cutInto_naturalLoopAt (hheader : header ∈ g.ids) (hloop : g.latchesOf header ≠ []) :
    (g.naturalLoopAt header).CutInto (cut.naturalLoopAt header) b.id i.address where
  header := rfl
  mem_body x hx := by
    by_cases hmem : x ∈ g.ids
    · exact h.mem_loopBody_iff hg hr hheader hmem
    · have hcut : x ∉ cut.ids := fun hin => ((h.mem_ids hg).1 hin).elim hmem hx
      have hmem' := naturalLoopAt_mem_iff.2 ((h.latchesOf_ne_nil_iff hg hr hheader).2 hloop)
      exact iff_of_false (fun hin => hcut (mem_ids_of_mem_body hmem' hin))
        fun hin => hmem (mem_ids_of_mem_body (naturalLoopAt_mem_iff.2 hloop) hin)
  second_mem hlatch := by
    have hmem := naturalLoopAt_mem_iff.2 ((h.latchesOf_ne_nil_iff hg hr hheader).2 hloop)
    exact mem_body_of_mem_latches hmem ((h.mem_latchesOf_iff hg hr hheader).2 (.inr ⟨rfl, hlatch⟩))

/-- The natural loops of a graph are there when a block is cut. -/
theorem exists_mem_naturalLoops (hl : l ∈ g.naturalLoops) :
    ∃ m ∈ cut.naturalLoops, l.CutInto m b.id i.address := by
  have hheader := mem_ids_of_mem_body hl ((mem_body_iff hl).2 (.inl rfl))
  have hloop := (mem_naturalLoops_iff.1 hl).1
  rw [eq_naturalLoopAt hl]
  exact ⟨_, naturalLoopAt_mem_iff.2 ((h.latchesOf_ne_nil_iff hg hr hheader).2 hloop),
    h.cutInto_naturalLoopAt hg hr hheader hloop⟩

omit hr in
/-- The second half of a block is the header of no loop. -/
theorem header_mem_ids (hm : m ∈ cut.naturalLoops) : m.header ∈ g.ids := by
  refine ((h.mem_ids hg).1 (mem_ids_of_mem_body hm ((mem_body_iff hm).2 (.inl rfl)))).resolve_right
    fun heq => ?_
  obtain ⟨hreach, hedge, hdom⟩ := (mem_latches_iff hm).1 (latch_mem_latches hm)
  rw [heq] at hedge hdom
  rw [h.entry] at hreach hdom
  have hentry : g.entry ∈ g.ids := hg.wf.entry (List.ne_nil_of_mem (mem_of_block? h.block))
  -- only the first half leads to it
  have hlatch : m.latch = b.id := by
    by_contra hb
    by_cases hi : m.latch = i.address
    · rw [hi, h.successors_second hg] at hedge
      exact h.successor_ne hg hedge rfl
    · rw [h.successors_of_ne hg hb hi] at hedge
      exact h.successor_ne hg hedge rfl
  rw [hlatch] at hreach hdom
  exact (h.divides_digraph hg).not_second_dominates hentry hreach hdom

/-- The natural loops of a graph with a block cut were there before. -/
theorem exists_uncut (hm : m ∈ cut.naturalLoops) : ∃ l ∈ g.naturalLoops, l.CutInto m b.id i.address := by
  have hheader := h.header_mem_ids hg hm
  have hloop := (h.latchesOf_ne_nil_iff hg hr hheader).1 (mem_naturalLoops_iff.1 hm).1
  rw [eq_naturalLoopAt hm]
  exact ⟨_, naturalLoopAt_mem_iff.2 hloop, h.cutInto_naturalLoopAt hg hr hheader hloop⟩

/-- What can be said of a loop without regard to the cut holds of one before if it holds of one behind. -/
theorem exists_naturalLoop_iff {P Q : NaturalLoop → Prop}
    (hiff : ∀ l m, l.CutInto m b.id i.address → (Q m ↔ P l)) :
    (∃ m ∈ cut.naturalLoops, Q m) ↔ ∃ l ∈ g.naturalLoops, P l := by
  constructor
  · rintro ⟨m, hm, hQ⟩
    obtain ⟨l, hl, hcut⟩ := h.exists_uncut hg hr hm
    exact ⟨l, hl, (hiff l m hcut).1 hQ⟩
  · rintro ⟨l, hl, hP⟩
    obtain ⟨m, hm, hcut⟩ := h.exists_mem_naturalLoops hg hr hl
    exact ⟨m, hm, (hiff l m hcut).2 hP⟩

end IsCut

end FlowGraph

end JvmDecompiler
