import JvmDecompiler.Proofs.Dominators
import JvmDecompiler.Proofs.GraphShape

/-!
# Natural loops are exact

A natural loop belongs to a block that control comes back to along an edge from a block that it dominates.
`FlowGraph.naturalLoops` computes dominance by a table and bodies by a search backwards from the latches.
Here both are said in terms of paths: what is dominated cannot be reached around the header, and a block is
in the body if it leads to a latch around the header (`FlowGraph.mem_loopBody_iff`).

Two loops that share a block have headers that both dominate it, so one header dominates the other
(`Digraph.Dominates.total`). If control can only go where edges lead that no exception takes, then the loop
of the other header lies in that of the first one, and it is smaller: it stands in front of it in the list
(`FlowGraph.naturalLoops_exact`).
-/

namespace JvmDecompiler

namespace Digraph

variable {G H : Digraph} {start a b c d : Nat} {p q : List Nat}

/-! ## Paths around a node -/

/-- Two paths that meet are one. -/
theorem Path.append (hp : G.Path a b p) (hq : G.Path b c (b :: q)) : G.Path a c (p ++ q) := by
  induction hp with
  | single _ => exact hq
  | cons ha hn _ ih => exact .cons ha hn (ih hq)

/-- A path begins at its start. -/
theorem Path.exists_tail (hp : G.Path a b p) : ∃ q, p = a :: q := by
  cases hp <;> exact ⟨_, rfl⟩

/-- The part of a path behind the last node with a property. -/
theorem Path.exists_last {P : Nat → Prop} (hp : G.Path a b p) (hP : ∃ x ∈ p, P x) :
    ∃ x q, P x ∧ G.Path x b (x :: q) ∧ x :: q <:+ p ∧ ∀ y ∈ q, ¬P y := by
  induction hp with
  | @single a ha =>
    obtain ⟨x, hx, hPx⟩ := hP
    obtain rfl := List.mem_singleton.1 hx
    exact ⟨x, [], hPx, .single ha, List.suffix_rfl, nofun⟩
  | @cons a _ _ p ha hn hrest ih =>
    by_cases hlater : ∃ x ∈ p, P x
    · obtain ⟨x, q, hPx, hq, hsuffix, hnone⟩ := ih hlater
      exact ⟨x, q, hPx, hq, hsuffix.trans (List.suffix_cons a p), hnone⟩
    · obtain ⟨x, hx, hPx⟩ := hP
      rcases List.mem_cons.1 hx with rfl | hx
      · exact ⟨x, p, hPx, .cons ha hn hrest, List.suffix_rfl, fun y hy hPy => hlater ⟨y, hy, hPy⟩⟩
      · exact absurd ⟨x, hx, hPx⟩ hlater

/-- The part of a path up to the first node with a property. -/
theorem Path.exists_first {P : Nat → Prop} (hp : G.Path a b p) (hP : ∃ x ∈ p, P x) :
    ∃ x q, P x ∧ G.Path a x (q ++ [x]) ∧ ∀ y ∈ q, ¬P y := by
  induction hp with
  | @single a ha =>
    obtain ⟨x, hx, hPx⟩ := hP
    obtain rfl := List.mem_singleton.1 hx
    exact ⟨x, [], hPx, .single ha, nofun⟩
  | @cons a _ _ p ha hn hrest ih =>
    by_cases hPa : P a
    · exact ⟨a, [], hPa, .single ha, nofun⟩
    · obtain ⟨x, hx, hPx⟩ := hP
      rcases List.mem_cons.1 hx with rfl | hx
      · exact absurd hPx hPa
      · obtain ⟨y, q, hPy, hq, hnone⟩ := ih ⟨x, hx, hPx⟩
        exact ⟨y, a :: q, hPy, .cons ha hn hq, List.forall_mem_cons.2 ⟨hPa, hnone⟩⟩

/-- Some path leads from `a` to `b` and goes around `d`. -/
def ReachesAround (G : Digraph) (d a b : Nat) : Prop := ∃ path, G.Path a b path ∧ d ∉ path

namespace ReachesAround

/-- A path that goes around a node does not end there. -/
theorem target_ne (h : G.ReachesAround d a b) : d ≠ b := by
  obtain ⟨path, hpath, hd⟩ := h
  exact fun heq => hd (heq ▸ hpath.target_mem_path)

/-- Two paths around a node are one. -/
theorem trans (h : G.ReachesAround d a b) (h' : G.ReachesAround d b c) : G.ReachesAround d a c := by
  obtain ⟨p, hp, hdp⟩ := h
  obtain ⟨q, hq, hdq⟩ := h'
  obtain ⟨q, rfl⟩ := hq.exists_tail
  refine ⟨p ++ q, hp.append hq, fun hd => ?_⟩
  rcases List.mem_append.1 hd with hd | hd
  · exact hdp hd
  · exact hdq (List.mem_cons_of_mem _ hd)

/-- A path around a node can be lengthened at its start by another node. -/
theorem head (h : G.ReachesAround d b c) (ha : a ∈ G.nodes) (hab : b ∈ G.next a) (hd : d ≠ a) :
    G.ReachesAround d a c := by
  obtain ⟨p, hp, hdp⟩ := h
  exact ⟨a :: p, .cons ha hab hp, fun hmem => (List.mem_cons.1 hmem).elim hd hdp⟩

end ReachesAround

/-- To go around a node is to go where it is not there. -/
theorem reaches_without_iff : (G.without [d]).Reaches a b ↔ G.ReachesAround d a b := by
  have hnode : ∀ x, x ∈ (G.without [d]).nodes ↔ x ∈ G.nodes ∧ x ≠ d := fun x => by
    simp [without]
  constructor
  · rintro ⟨p, hp⟩
    induction hp with
    | single ha =>
      obtain ⟨ha, hne⟩ := (hnode _).1 ha
      exact ⟨_, .single ha, fun hd => hne (List.mem_singleton.1 hd).symm⟩
    | cons ha hn _ ih =>
      obtain ⟨ha, hne⟩ := (hnode _).1 ha
      exact ih.head ha hn hne.symm
  · rintro ⟨p, hp, hd⟩
    induction hp with
    | single ha => exact .refl ((hnode _).2 ⟨ha, fun heq => hd (heq ▸ List.mem_cons_self)⟩)
    | cons ha hn _ ih =>
      obtain ⟨q, hq⟩ := ih fun hmem => hd (List.mem_cons_of_mem _ hmem)
      exact ⟨_, .cons ((hnode _).2 ⟨ha, fun heq => hd (heq ▸ List.mem_cons_self)⟩) hn hq⟩

/-- Where edges lead the other way, so do paths. -/
theorem Reaches.reverse (h : G.Reaches a b) (hnodes : ∀ x ∈ G.nodes, x ∈ H.nodes)
    (hnext : ∀ x ∈ G.nodes, ∀ y ∈ G.nodes, y ∈ G.next x → x ∈ H.next y) : H.Reaches b a := by
  have ha : a ∈ G.nodes := by
    obtain ⟨p, hp⟩ := h
    exact hp.source_mem
  refine h.induction (P := fun x => H.Reaches x a) (.refl (hnodes a ha)) fun x y hx hback hxy hy => ?_
  have hx : x ∈ G.nodes := by
    obtain ⟨p, hp⟩ := hx
    exact hp.target_mem
  obtain ⟨p, hp⟩ := hback
  exact ⟨y :: p, .cons (hnodes y hy) (hnext x hx y hy hxy) hp⟩

/-! ## Dominance -/

/-- All paths from the start to `b` go through `a`. -/
def Dominates (G : Digraph) (start a b : Nat) : Prop := ∀ path, G.Path start b path → a ∈ path

/-- A node does not dominate another if some path goes around it. -/
theorem not_dominates_iff : ¬G.Dominates start a b ↔ G.ReachesAround a start b := by
  simp only [Dominates, not_forall, ReachesAround, exists_prop]

namespace Dominates

/-- Every node dominates itself. -/
theorem refl : G.Dominates start a a := fun _ hpath => hpath.target_mem_path

/-- A node that does not dominate another is not that node. -/
theorem ne_of_not (h : ¬G.Dominates start a b) : a ≠ b := fun heq => h (heq ▸ refl)

/-- Of two nodes that dominate the same one, one dominates the other. -/
theorem total (hc : G.Reaches start c) (ha : G.Dominates start a c) (hb : G.Dominates start b c) :
    G.Dominates start a b ∨ G.Dominates start b a := by
  by_contra hnot
  obtain ⟨hab, hba⟩ := not_or.1 hnot
  have hne := ne_of_not hab
  obtain ⟨path, hpath⟩ := hc
  -- behind the last of the two a path goes around the other one, and so it does all the way
  obtain ⟨x, q, hx, hq, -, hlast⟩ := hpath.exists_last (P := fun x => x = a ∨ x = b) ⟨a, ha path hpath, .inl rfl⟩
  rcases hx with rfl | rfl
  · have hrest : G.ReachesAround b x c :=
      ⟨x :: q, hq, fun hmem => (List.mem_cons.1 hmem).elim (hne ·.symm) fun hmem => hlast b hmem (.inr rfl)⟩
    exact not_dominates_iff.2 ((not_dominates_iff.1 hba).trans hrest) hb
  · have hrest : G.ReachesAround a x c :=
      ⟨x :: q, hq, fun hmem => (List.mem_cons.1 hmem).elim hne fun hmem => hlast a hmem (.inl rfl)⟩
    exact not_dominates_iff.2 ((not_dominates_iff.1 hab).trans hrest) ha

/-- From a dominated node control goes on around the one that dominates it. -/
theorem reachesAround (hc : G.Reaches start c) (hb : G.Dominates start b c) (hba : ¬G.Dominates start b a) :
    G.ReachesAround a b c := by
  have hne := ne_of_not hba
  obtain ⟨path, hpath⟩ := hc
  obtain ⟨x, q, hx, hq, -, hlast⟩ := hpath.exists_last (P := fun x => x = a ∨ x = b) ⟨b, hb path hpath, .inr rfl⟩
  rcases hx with rfl | rfl
  · have hrest : G.ReachesAround b x c :=
      ⟨x :: q, hq, fun hmem => (List.mem_cons.1 hmem).elim hne fun hmem => hlast b hmem (.inr rfl)⟩
    exact absurd hb (not_dominates_iff.2 ((not_dominates_iff.1 hba).trans hrest))
  · exact ⟨x :: q, hq, fun hmem => (List.mem_cons.1 hmem).elim (hne ·.symm) fun hmem => hlast a hmem (.inl rfl)⟩

/-- Of two nodes that control comes to only one can dominate the other. -/
theorem antisymm (ha : G.Reaches start a) (hab : G.Dominates start a b) (hba : G.Dominates start b a) :
    a = b := by
  obtain ⟨path, hpath⟩ := ha
  -- a path cannot come to one of the two before it has come to the other one
  obtain ⟨x, q, hx, hq, hfirst⟩ := hpath.exists_first (P := fun x => x = a ∨ x = b)
    ⟨a, hpath.target_mem_path, .inl rfl⟩
  rcases hx with rfl | rfl
  · rcases List.mem_append.1 (hba _ hq) with hmem | hmem
    · exact absurd (.inr rfl) (hfirst b hmem)
    · exact (List.mem_singleton.1 hmem).symm
  · rcases List.mem_append.1 (hab _ hq) with hmem | hmem
    · exact absurd (.inl rfl) (hfirst a hmem)
    · exact List.mem_singleton.1 hmem

/-- What control comes to from a dominated node around the one that dominates it is dominated as well, if
control comes to it at all; and the other way round. -/
theorem of_reachesAround (hac : G.Dominates start a c) (hbc : G.ReachesAround a b c) : G.Dominates start a b := by
  by_contra hab
  exact not_dominates_iff.2 ((not_dominates_iff.1 hab).trans hbc) hac

end Dominates

end Digraph

/-! ## Edges back -/

/-- A list without its duplicates has none. -/
theorem nodup_eraseDups (ids : List BlockId) : ids.eraseDups.Nodup := by
  cases ids with
  | nil => exact .nil
  | cons id rest =>
    rw [List.eraseDups_cons, List.nodup_cons, List.mem_eraseDups]
    exact ⟨by simp, nodup_eraseDups _⟩
termination_by ids.length
decreasing_by exact Nat.lt_succ_of_le (List.length_filter_le ..)

/-- No successor of a terminator is listed twice. -/
theorem Terminator.nodup_successors (t : Terminator) : t.successors.Nodup := by
  cases t <;> first | exact nodup_eraseDups _ | simp [Terminator.successors]

/-- No successor of a block is listed twice. -/
theorem FlowGraph.nodup_successors (g : FlowGraph) (id : BlockId) : (g.successors id).Nodup := by
  unfold successors
  split
  · exact Terminator.nodup_successors _
  · exact .nil

/-- A sorted set has the elements it is made of. -/
theorem mem_sortedSet {ids : List BlockId} {id : BlockId} : id ∈ sortedSet ids ↔ id ∈ ids := by
  simp [sortedSet]

/-- A sorted set goes up. -/
theorem pairwise_sortedSet (ids : List BlockId) : (sortedSet ids).Pairwise (· < ·) := by
  have hsorted : (sortedSet ids).Pairwise (· ≤ ·) := List.pairwise_mergeSort' (· ≤ ·) _
  have hnodup : (sortedSet ids).Nodup := (List.mergeSort_perm _ _).nodup_iff.2 (nodup_eraseDups ids)
  exact hsorted.imp₂ (fun a b hle hne => Nat.lt_of_le_of_ne hle hne) hnodup

/-- What a natural loop is, in terms of paths. -/
structure NaturalLoop.IsExact (l : NaturalLoop) (g : FlowGraph) : Prop where
  latches : ∀ b, b ∈ l.latches ↔
    b ∈ g.ids ∧ l.header ∈ g.successors b ∧ g.digraph.Dominates g.entry l.header b
  latches_sorted : l.latches.Pairwise (· < ·)
  body : ∀ b, b ∈ l.body ↔
    b = l.header ∨ ∃ latch ∈ l.latches, g.normalDigraph.ReachesAround l.header b latch
  body_sorted : l.body.Pairwise (· < ·)
  dominated : ∀ b ∈ l.body, g.digraph.Dominates g.entry l.header b

/-- One of two loops lies in the other, and leaves out its header. -/
structure NaturalLoop.Inside (l m : NaturalLoop) : Prop where
  subset : l.body ⊆ m.body
  header : m.header ∈ m.body
  header_not_mem : m.header ∉ l.body

/-- A loop in another is shorter. -/
theorem NaturalLoop.Inside.length_lt {l m : NaturalLoop} (h : l.Inside m) (hl : l.body.Nodup) :
    l.body.length < m.body.length := by
  have hnodup : (m.header :: l.body).Nodup := List.nodup_cons.2 ⟨h.header_not_mem, hl⟩
  exact (hnodup.subperm (List.cons_subset.2 ⟨h.header, h.subset⟩)).length_le

namespace FlowGraph

variable {g : FlowGraph} {header b : BlockId} {l : NaturalLoop}

/-- The edges back to a block from one that it dominates, the target first. -/
def backEdges (g : FlowGraph) : List (BlockId × BlockId) :=
  g.ids.flatMap fun b =>
    if (g.dominators.lookup b).isSome then
      ((g.successors b).filter (Digraph.dominates g.dominators · b)).map ((·, b))
    else []

/-- The blocks from which edges go back to a header. -/
def latchesOf (g : FlowGraph) (header : BlockId) : List BlockId :=
  (g.backEdges.filter (·.1 = header)).map (·.2)

/-- A block has a dominator in the table if control may come to it. -/
theorem isSome_lookup_dominators_iff : (g.dominators.lookup b).isSome = true ↔ g.digraph.Reaches g.entry b := by
  have hkey : (g.dominators.lookup b).isSome = true ↔ b ∈ g.dominators.map (·.1) := by
    simp only [List.lookup_isSome_iff, List.mem_map, beq_iff_eq, eq_comm (a := b)]
  rw [hkey]
  constructor
  · intro hb
    obtain ⟨row, hrow, rfl⟩ := List.mem_map.1 hb
    obtain ⟨i, -, hi, -⟩ := Digraph.mem_immediateDominators.1 hrow
    exact Digraph.mem_reversePostorder_iff.1 (List.mem_of_getElem? hi)
  · intro hb
    have hentry : g.entry ∈ g.ids := hb.elim fun _ hpath => hpath.source_mem
    exact (Digraph.keys_immediateDominators (G := g.digraph) hentry).mem_iff.2
      (Digraph.mem_reversePostorder_iff.2 hb)

/-- A back edge leads from a block that control comes to, to one that dominates it. -/
theorem mem_backEdges_iff : (header, b) ∈ g.backEdges ↔
    g.digraph.Reaches g.entry b ∧ header ∈ g.successors b ∧ g.digraph.Dominates g.entry header b := by
  -- the list of edges, with the dominators as the program looks them up
  have hedge : (header, b) ∈ g.backEdges ↔ b ∈ g.ids ∧ (g.dominators.lookup b).isSome = true ∧
      header ∈ g.successors b ∧ Digraph.dominates g.dominators header b = true := by
    unfold backEdges
    rw [List.mem_flatMap]
    constructor
    · rintro ⟨c, hc, hmem⟩
      split at hmem
      · rename_i hrow
        obtain ⟨t, ht, heq⟩ := List.mem_map.1 hmem
        obtain ⟨rfl, rfl⟩ := Prod.mk.inj heq
        exact ⟨hc, hrow, List.mem_filter.1 ht⟩
      · cases hmem
    · rintro ⟨hb, hrow, hmem⟩
      refine ⟨b, hb, ?_⟩
      rw [if_pos hrow]
      exact List.mem_map_of_mem (List.mem_filter.2 hmem)
  rw [hedge, isSome_lookup_dominators_iff]
  constructor
  · rintro ⟨-, hb, hsucc, hdom⟩
    have hentry : g.entry ∈ g.ids := hb.elim fun _ hpath => hpath.source_mem
    exact ⟨hb, hsucc, (Digraph.dominates_iff hentry hb).1 hdom⟩
  · rintro ⟨hb, hsucc, hdom⟩
    have hentry : g.entry ∈ g.ids := hb.elim fun _ hpath => hpath.source_mem
    exact ⟨hb.elim fun _ hpath => hpath.target_mem, hb, hsucc, (Digraph.dominates_iff hentry hb).2 hdom⟩

/-- A latch of a header is a block that control comes to, from which an edge leads back to the header, which
dominates it. -/
theorem mem_latchesOf_iff : b ∈ g.latchesOf header ↔
    g.digraph.Reaches g.entry b ∧ header ∈ g.successors b ∧ g.digraph.Dominates g.entry header b := by
  rw [← mem_backEdges_iff]
  simp [latchesOf]

/-- The edges back to one header leave blocks in the order of these. -/
theorem latchesOf_sublist_ids (header : BlockId) : (g.latchesOf header).Sublist g.ids := by
  -- at most one entry for each block, so that the order of blocks is kept
  have key : ∀ {f : BlockId → List BlockId}, (∀ b, (f b).Sublist [b]) →
      ∀ ids : List BlockId, (ids.flatMap f).Sublist ids := by
    intro f hf ids
    induction ids with
    | nil => exact .slnil
    | cons b rest ih => exact (hf b).append ih
  rw [latchesOf, backEdges, List.filter_flatMap, List.map_flatMap]
  refine key (fun b => ?_) g.ids
  split
  · -- a block has at most one edge to the header
    have hcount : ((g.successors b).filter (Digraph.dominates g.dominators · b)).count header ≤ 1 :=
      List.nodup_iff_count_le_one.1 ((g.nodup_successors b).filter _) header
    rw [List.filter_map, List.map_map]
    show (List.map (fun _ => b) _).Sublist (List.replicate 1 b)
    rw [List.map_const', List.replicate_sublist_replicate, ← List.countP_eq_length_filter]
    exact hcount
  · exact List.nil_sublist _

/-! ## Bodies -/

/-- The body of a loop is its header and all blocks from which a path leads to a latch around the header. -/
theorem mem_loopBody_iff {latches : List BlockId} : b ∈ g.loopBody header latches ↔
    b = header ∨ ∃ latch ∈ latches, g.normalDigraph.ReachesAround header b latch := by
  have hreverse : ∀ latch, (g.predecessorDigraph.without [header]).Reaches latch b ↔
      (g.normalDigraph.without [header]).Reaches b latch := by
    intro latch
    constructor <;> intro h <;> refine h.reverse (fun x hx => hx) fun x hx y hy hxy => ?_
    · exact List.contains_iff_mem.1 (List.mem_filter.1 hxy).2
    · exact List.mem_filter.2 ⟨(List.mem_filter.1 hx).1, List.contains_iff_mem.2 hxy⟩
  rw [loopBody, mem_sortedSet, List.mem_cons, List.mem_flatMap]
  simp only [Digraph.mem_reversePostorder_iff, hreverse, Digraph.reaches_without_iff]

/-- There is a natural loop for each header that has a latch. -/
theorem mem_naturalLoops_iff : l ∈ g.naturalLoops ↔ g.latchesOf l.header ≠ [] ∧
    l.latches = g.latchesOf l.header ∧ l.body = g.loopBody l.header l.latches := by
  have hmem : l ∈ g.naturalLoops ↔ ∃ header ∈ sortedSet (g.backEdges.map (·.1)),
      ⟨header, g.loopBody header (g.latchesOf header), g.latchesOf header⟩ = l := by
    unfold naturalLoops
    exact List.mem_mergeSort.trans List.mem_map
  have hheader : ∀ header, header ∈ sortedSet (g.backEdges.map (·.1)) ↔ g.latchesOf header ≠ [] := by
    intro header
    simp [mem_sortedSet, latchesOf, List.filter_eq_nil_iff]
  rw [hmem]
  constructor
  · rintro ⟨header, hin, rfl⟩
    exact ⟨(hheader header).1 hin, rfl, rfl⟩
  · rintro ⟨hne, hlatches, hbody⟩
    refine ⟨l.header, (hheader _).2 hne, ?_⟩
    rw [← hlatches, ← hbody]

/-! ## Natural loops -/

variable {m : NaturalLoop}

/-- The latches of a natural loop are those of its header. -/
theorem mem_latches_iff (hl : l ∈ g.naturalLoops) : b ∈ l.latches ↔
    g.digraph.Reaches g.entry b ∧ l.header ∈ g.successors b ∧ g.digraph.Dominates g.entry l.header b := by
  rw [(mem_naturalLoops_iff.1 hl).2.1, mem_latchesOf_iff]

/-- The body of a natural loop is its header and what leads to a latch around it. -/
theorem mem_body_iff (hl : l ∈ g.naturalLoops) : b ∈ l.body ↔
    b = l.header ∨ ∃ latch ∈ l.latches, g.normalDigraph.ReachesAround l.header b latch := by
  rw [(mem_naturalLoops_iff.1 hl).2.2, mem_loopBody_iff]

/-- Only blocks of the graph have successors. -/
theorem source_mem_ids {i : BlockId} (hb : i ∈ g.successors b) : b ∈ g.ids := by
  unfold successors at hb
  split at hb
  · rename_i block hblock
    exact mem_ids_iff.2 ⟨block, hblock⟩
  · cases hb

/-- The last latch of a natural loop is one of its latches. -/
theorem latch_mem_latches (hl : l ∈ g.naturalLoops) : l.latch ∈ l.latches := by
  obtain ⟨hne, hlatches, -⟩ := mem_naturalLoops_iff.1 hl
  rw [NaturalLoop.latch, List.getLast?_eq_getLast_of_ne_nil (hlatches ▸ hne)]
  exact List.getLast_mem _

/-- The latches of a loop are in its body. -/
theorem mem_body_of_mem_latches (hl : l ∈ g.naturalLoops) (hb : b ∈ l.latches) : b ∈ l.body := by
  refine (mem_body_iff hl).2 ?_
  by_cases hheader : b = l.header
  · exact .inl hheader
  · have hmem : b ∈ g.ids := source_mem_ids ((mem_latches_iff hl).1 hb).2.1
    exact .inr ⟨b, hb, [b], .single hmem, fun h => hheader (List.mem_singleton.1 h).symm⟩

/-- A path along normal edges is one of the graph with exceptions. -/
theorem reachesAround_digraph {d a : BlockId} (h : g.normalDigraph.ReachesAround d a b) :
    g.digraph.ReachesAround d a b := by
  obtain ⟨path, hpath, hd⟩ := h
  refine ⟨path, ?_, hd⟩
  clear hd
  induction hpath with
  | single ha => exact .single ha
  | cons ha hn _ ih => exact .cons ha (List.mem_append_left _ hn) ih

/-- The header dominates the blocks of its loop. -/
theorem dominates_of_mem_body (hl : l ∈ g.naturalLoops) (hb : b ∈ l.body) :
    g.digraph.Dominates g.entry l.header b := by
  rcases (mem_body_iff hl).1 hb with rfl | ⟨latch, hlatch, haround⟩
  · exact .refl
  · exact ((mem_latches_iff hl).1 hlatch).2.2.of_reachesAround (reachesAround_digraph haround)

/-- The blocks of a loop with an edge to the header are the latches, and those that control never comes to. -/
theorem mem_latches_of_mem_body (hl : l ∈ g.naturalLoops) (hb : b ∈ l.body)
    (hedge : l.header ∈ g.successors b) :
    b ∈ l.latches ↔ g.digraph.Reaches g.entry b :=
  ⟨fun h => ((mem_latches_iff hl).1 h).1,
    fun h => (mem_latches_iff hl).2 ⟨h, hedge, dominates_of_mem_body hl hb⟩⟩

/-- No latch is listed twice. -/
theorem nodup_latches (hs : g.ids.Pairwise (· < ·)) (hl : l ∈ g.naturalLoops) : l.latches.Nodup := by
  rw [(mem_naturalLoops_iff.1 hl).2.1]
  exact (hs.imp Nat.ne_of_lt).sublist (latchesOf_sublist_ids _)

/-- Control comes to the header of a loop. -/
theorem reaches_header (hl : l ∈ g.naturalLoops) : g.digraph.Reaches g.entry l.header := by
  obtain ⟨hne, hlatches, -⟩ := mem_naturalLoops_iff.1 hl
  obtain ⟨latch, hlatch⟩ := List.exists_mem_of_ne_nil _ hne
  obtain ⟨⟨path, hpath⟩, -, hdom⟩ := mem_latchesOf_iff.1 hlatch
  exact hpath.reaches_of_mem (hdom path hpath)

/-- There is one loop for each header. -/
theorem nodup_headers (g : FlowGraph) : (g.naturalLoops.map (·.header)).Nodup := by
  have hperm : (g.naturalLoops.map (·.header)).Perm (sortedSet (g.backEdges.map (·.1))) := by
    unfold naturalLoops
    refine ((List.mergeSort_perm _ _).map _).trans (List.Perm.of_eq ?_)
    rw [List.map_map]
    exact List.map_id _
  exact hperm.nodup_iff.2 ((pairwise_sortedSet _).imp Nat.ne_of_lt)

/-- Smaller loops come first. -/
theorem pairwise_length_body (g : FlowGraph) :
    g.naturalLoops.Pairwise fun l m => l.body.length ≤ m.body.length := by
  unfold naturalLoops
  refine (List.pairwise_mergeSort (fun a b c hab hbc => ?_) (fun a b => ?_) _).imp fun hle => ?_
  · simp only [Bool.or_eq_true, Bool.and_eq_true, decide_eq_true_eq] at *
    have := @Nat.le_trans a.header b.header c.header
    grind
  · simp only [Bool.or_eq_true, Bool.and_eq_true, decide_eq_true_eq]
    have := Nat.le_total a.header b.header
    grind
  · simp only [Bool.or_eq_true, Bool.and_eq_true, decide_eq_true_eq] at hle
    omega

/-! ## Nesting -/

/-- Without handlers control only goes where no exception leads. -/
theorem digraph_eq_normalDigraph (hranges : g.ranges = []) : g.digraph = g.normalDigraph := by
  have hnext : g.allSuccessors = g.successors := by
    funext b
    have hnone : g.exceptionSuccessors b = [] := by
      unfold exceptionSuccessors
      split <;> simp [hranges, sortedSet]
    simp [allSuccessors, hnone]
  rw [digraph, hnext, normalDigraph]

/-- Where two loops share a block and the header of one dominates that of the other, the other one lies
inside. -/
theorem inside_of_dominates (hranges : g.ranges = []) (hl : l ∈ g.naturalLoops) (hm : m ∈ g.naturalLoops)
    (hreach : g.digraph.Reaches g.entry b) (hbl : b ∈ l.body) (hbm : b ∈ m.body) (hne : m.header ≠ l.header)
    (hdom : g.digraph.Dominates g.entry m.header l.header) : l.Inside m := by
  have hdigraph := digraph_eq_normalDigraph hranges
  have hnot : ¬g.digraph.Dominates g.entry l.header m.header := fun hback =>
    hne (hdom.antisymm (reaches_header hm) hback)
  -- from the header of `l` control gets through `b` to a latch of `m`, around the header of `m`
  have haround : g.digraph.ReachesAround m.header l.header b :=
    (dominates_of_mem_body hl hbl).reachesAround hreach hnot
  obtain ⟨latch, hlatch, hway⟩ : ∃ latch ∈ m.latches, g.digraph.ReachesAround m.header l.header latch := by
    rcases (mem_body_iff hm).1 hbm with rfl | ⟨latch, hlatch, hrest⟩
    · exact absurd rfl haround.target_ne
    · exact ⟨latch, hlatch, haround.trans (reachesAround_digraph hrest)⟩
  refine ⟨fun c hc => (mem_body_iff hm).2 ?_, (mem_body_iff hm).2 (.inl rfl),
    fun hc => hnot (dominates_of_mem_body hl hc)⟩
  right
  refine ⟨latch, hlatch, hdigraph ▸ ?_⟩
  rcases (mem_body_iff hl).1 hc with rfl | ⟨back, hback, hrest⟩
  · exact hway
  -- any other block of `l` leads to a latch of `l` first, which goes around the header of `m` as well
  obtain ⟨hback, hedge, hdomback⟩ := (mem_latches_iff hl).1 hback
  obtain ⟨path, hpath, hmem⟩ := reachesAround_digraph hrest
  have hclear : m.header ∉ path := by
    intro hin
    obtain ⟨x, q, rfl, hq, hsuffix, -⟩ := hpath.exists_last (P := (· = m.header)) ⟨_, hin, rfl⟩
    have htail : g.digraph.ReachesAround l.header m.header back := ⟨_, hq, fun h => hmem (hsuffix.subset h)⟩
    exact Digraph.not_dominates_iff.2 ((Digraph.not_dominates_iff.1 hnot).trans htail) hdomback
  have hedge : l.header ∈ g.digraph.next back := List.mem_append_left _ hedge
  have hne : m.header ≠ back := fun heq => hclear (heq ▸ hpath.target_mem_path)
  exact Digraph.ReachesAround.trans ⟨path, hpath, hclear⟩ (hway.head hpath.target_mem hedge hne)

/-- The body of a loop is listed in order. -/
theorem pairwise_body (hl : l ∈ g.naturalLoops) : l.body.Pairwise (· < ·) := by
  rw [(mem_naturalLoops_iff.1 hl).2.2]
  exact pairwise_sortedSet _

/-- The body of a loop consists of blocks of the graph. -/
theorem mem_ids_of_mem_body (hl : l ∈ g.naturalLoops) (hb : b ∈ l.body) : b ∈ g.ids := by
  rcases (mem_body_iff hl).1 hb with rfl | ⟨_, -, path, hpath, -⟩
  · exact (reaches_header hl).elim fun _ hpath => hpath.target_mem
  · exact hpath.source_mem

/-- Natural loops are disjoint or nested, and inner ones come first. -/
theorem pairwise_disjoint_or_inside (hreach : ∀ b ∈ g.ids, g.digraph.Reaches g.entry b)
    (hranges : g.ranges = []) :
    g.naturalLoops.Pairwise fun l m => l.body.Disjoint m.body ∨ l.Inside m := by
  have hheaders : g.naturalLoops.Pairwise fun l m => l.header ≠ m.header :=
    List.pairwise_map.1 (nodup_headers g)
  refine (hheaders.and (pairwise_length_body g)).imp_of_mem fun {l m} hl hm ⟨hne, hle⟩ => ?_
  by_cases hdisjoint : l.body.Disjoint m.body
  · exact .inl hdisjoint
  right
  obtain ⟨b, hbl, hbm⟩ : ∃ b, b ∈ l.body ∧ b ∈ m.body := by
    simpa [List.Disjoint] using hdisjoint
  have hb := hreach b (mem_ids_of_mem_body hl hbl)
  -- the header that dominates the other one belongs to the larger loop
  rcases Digraph.Dominates.total hb (dominates_of_mem_body hl hbl) (dominates_of_mem_body hm hbm)
    with hdom | hdom
  · have hinside := inside_of_dominates hranges hm hl hb hbm hbl hne hdom
    have hlt := hinside.length_lt ((pairwise_body hm).imp Nat.ne_of_lt)
    omega
  · exact inside_of_dominates hranges hl hm hb hbl hbm hne.symm hdom

/-- Natural loops are exact: in a graph in which control comes to every block there is one for each block with
an edge from a block that it dominates, with the sources of these edges as latches and what leads to a
latch around the header as body. Without handlers two loops are disjoint, or the first lies in the second. -/
theorem naturalLoops_exact (hs : g.ids.Pairwise (· < ·)) (hreach : ∀ b ∈ g.ids, g.digraph.Reaches g.entry b) :
    (∀ header, (∃ l ∈ g.naturalLoops, l.header = header) ↔
      ∃ b ∈ g.ids, header ∈ g.successors b ∧ g.digraph.Dominates g.entry header b) ∧
    (g.naturalLoops.map (·.header)).Nodup ∧
    (∀ l ∈ g.naturalLoops, l.IsExact g) ∧
    (g.ranges = [] → g.naturalLoops.Pairwise fun l m => l.body.Disjoint m.body ∨ l.Inside m) := by
  have hids : ∀ b, g.digraph.Reaches g.entry b ↔ b ∈ g.ids := fun b =>
    ⟨fun h => h.elim fun _ hpath => hpath.target_mem, hreach b⟩
  refine ⟨fun header => ?_, nodup_headers g, fun l hl => ?_, pairwise_disjoint_or_inside hreach⟩
  · constructor
    · rintro ⟨l, hl, rfl⟩
      obtain ⟨hne, -⟩ := mem_naturalLoops_iff.1 hl
      obtain ⟨b, hb⟩ := List.exists_mem_of_ne_nil _ hne
      obtain ⟨hb, hedge⟩ := mem_latchesOf_iff.1 hb
      exact ⟨b, (hids b).1 hb, hedge⟩
    · rintro ⟨b, hb, hedge⟩
      have hlatch := mem_latchesOf_iff.2 ⟨hreach b hb, hedge⟩
      exact ⟨⟨header, g.loopBody header (g.latchesOf header), g.latchesOf header⟩,
        mem_naturalLoops_iff.2 ⟨List.ne_nil_of_mem hlatch, rfl, rfl⟩, rfl⟩
  · refine ⟨fun b => ?_, ?_, fun b => mem_body_iff hl, pairwise_body hl, fun b => dominates_of_mem_body hl⟩
    · rw [mem_latches_iff hl, hids]
    · rw [(mem_naturalLoops_iff.1 hl).2.1]
      exact hs.sublist (latchesOf_sublist_ids _)

/-- A loop in a loop, with one block that leads back to both headers. -/
def nestedLoops : FlowGraph where
  blocks := [⟨0, [], .fallThrough 1⟩, ⟨1, [], .branch (.refNull true) 2 4⟩, ⟨2, [], .goto 3⟩,
    ⟨3, [], .branch (.refNull true) 2 1⟩, ⟨4, [], .return⟩]
  entry := 0
  ranges := []
  jumps := []
  loops := []

/-- Two loops, one in the other, with one latch between them. -/
theorem naturalLoops_exact_nestedLoops :
    nestedLoops.ids.Pairwise (· < ·) ∧
      (∀ b ∈ nestedLoops.ids, nestedLoops.digraph.Reaches nestedLoops.entry b) ∧ nestedLoops.ranges = [] ∧
      nestedLoops.naturalLoops = [⟨2, [2, 3], [3]⟩, ⟨1, [1, 2, 3], [3]⟩] ∧
      nestedLoops.digraph.Dominates nestedLoops.entry 1 3 ∧
      NaturalLoop.Inside ⟨2, [2, 3], [3]⟩ ⟨1, [1, 2, 3], [3]⟩ := by
  have hloops : nestedLoops.naturalLoops = [⟨2, [2, 3], [3]⟩, ⟨1, [1, 2, 3], [3]⟩] := by cbv
  have horder : nestedLoops.digraph.reversePostorder nestedLoops.entry = nestedLoops.ids := by cbv
  have hs : nestedLoops.ids.Pairwise (· < ·) := by decide
  have hreach : ∀ b ∈ nestedLoops.ids, nestedLoops.digraph.Reaches nestedLoops.entry b := fun b hb =>
    Digraph.mem_reversePostorder_iff.1 (horder ▸ hb)
  obtain ⟨-, -, hexact, hnested⟩ := naturalLoops_exact hs hreach
  rw [hloops] at hexact hnested
  refine ⟨hs, hreach, rfl, hloops,
    (hexact _ (List.mem_cons_of_mem _ List.mem_cons_self)).dominated 3 (by decide), ?_⟩
  rcases List.rel_of_pairwise_cons (hnested rfl) List.mem_cons_self with hdisjoint | hinside
  · exact absurd (List.mem_cons_of_mem _ List.mem_cons_self) (hdisjoint (a := 2) List.mem_cons_self)
  · exact hinside

end FlowGraph

end JvmDecompiler
