import JvmDecompiler.Proofs.BlockOrder
import JvmDecompiler.Proofs.Dominators
import JvmDecompiler.Proofs.LoopExits

/-!
# No cycle without a loop

Natural loops are found by dominance, and what they leave is found by the order of the search: an edge that
goes against it, to a block that does not dominate its source, makes an unstructured loop. Together they
cover every cycle. On a cycle there is a block that comes first in the order, and the edge to it from the
block in front of it on the cycle goes against the order. So the block is the header of a natural loop or of
an unstructured one (`MethodCode.header_on_cycle`).

This needs that the search comes to all blocks, also to the second halves of those that have been cut. It
does not need that the dominators are right.
-/

namespace JvmDecompiler

namespace Digraph

variable {G : Digraph} {a b x : Nat} {path : List Nat}

/-- A path comes to all its nodes but the first from one of its nodes. -/
theorem Path.eq_or_exists_pred (h : G.Path a b path) (hx : x ∈ path) : x = a ∨ ∃ y ∈ path, x ∈ G.next y := by
  induction h with
  | single => exact .inl (List.mem_singleton.1 hx)
  | @cons a c b path ha hnext hrest ih =>
    rcases List.mem_cons.1 hx with rfl | hx
    · exact .inl rfl
    · right
      rcases ih hx with rfl | ⟨y, hy, hxy⟩
      · exact ⟨a, List.mem_cons_self, hnext⟩
      · exact ⟨y, List.mem_cons_of_mem _ hy, hxy⟩

/-- On every cycle there is an edge that goes against an order. -/
theorem Path.exists_retreating (h : G.Path a b path) (hback : a ∈ G.next b) (order : List Nat) :
    ∃ x ∈ path, ∃ y ∈ path, x ∈ G.next y ∧ order.idxOf x ≤ order.idxOf y := by
  obtain ⟨x, hx, hmin⟩ := path.toFinset.exists_min_image order.idxOf
    ⟨a, List.mem_toFinset.2 h.source_mem_path⟩
  simp only [List.mem_toFinset] at hx hmin
  rcases h.eq_or_exists_pred hx with rfl | ⟨y, hy, hxy⟩
  · exact ⟨x, hx, b, h.target_mem_path, hback, hmin b h.target_mem_path⟩
  · exact ⟨x, hx, y, hy, hxy, hmin y hy⟩

end Digraph

namespace FlowGraph

variable {g h : FlowGraph} {pool : ConstantPool} {x y : BlockId}

/-- An edge to a block that dominates its source closes a natural loop. -/
theorem exists_naturalLoop (hr : g.AllReachable) (hentry : g.entry ∈ g.ids) (hy : y ∈ g.ids)
    (hxy : x ∈ g.successors y) (hdominates : Digraph.dominates g.dominators x y = true) :
    ∃ l ∈ g.naturalLoops, l.header = x := by
  have hrow : (g.dominators.lookup y).isSome = true := by
    have hmem : y ∈ g.dominators.map (·.1) :=
      (Digraph.keys_immediateDominators (G := g.digraph) hentry).mem_iff.2 (hr y hy)
    obtain ⟨row, hrow, rfl⟩ := List.mem_map.1 hmem
    exact List.lookup_isSome_iff.2 ⟨row, hrow, beq_self_eq_true _⟩
  unfold naturalLoops
  simp only [List.mem_mergeSort, List.mem_map, sortedSet, List.mem_eraseDups]
  refine ⟨_, ⟨x, ⟨(x, y), List.mem_flatMap.2 ⟨y, hy, ?_⟩, rfl⟩, rfl⟩, rfl⟩
  rw [if_pos hrow]
  exact List.mem_map_of_mem (List.mem_filter.2 ⟨hxy, hdominates⟩)

/-- Any other edge against the order of the search is irreducible. -/
theorem mem_irreducibleEdges (hr : g.AllReachable) (hx : x ∈ g.ids) (hy : y ∈ g.ids)
    (hxy : x ∈ g.successors y) (hle : g.reversePostorder.idxOf x ≤ g.reversePostorder.idxOf y)
    (hdominates : Digraph.dominates g.dominators x y = false) : (y, x) ∈ g.irreducibleEdges := by
  refine List.mem_flatMap.2 ⟨y, hr y hy, List.mem_map_of_mem (List.mem_filter.2 ⟨hxy, ?_⟩)⟩
  simp [hr x hx, hle, hdominates]

theorem subset_unstructuredLoops (loops : List Loop) (edges : List (BlockId × BlockId)) :
    loops ⊆ unstructuredLoops loops edges := by
  induction edges generalizing loops with
  | nil => exact List.Subset.refl _
  | cons e edges ih =>
    unfold unstructuredLoops
    split
    · exact ih loops
    · exact List.Subset.trans (List.subset_append_left _ _) (ih _)

/-- An irreducible edge leads to the header of a loop. -/
theorem exists_header_unstructuredLoops (loops : List Loop) {edges : List (BlockId × BlockId)}
    (h : (y, x) ∈ edges) : ∃ l ∈ unstructuredLoops loops edges, l.header = x := by
  induction edges generalizing loops with
  | nil => cases h
  | cons e edges ih =>
    rcases List.mem_cons.1 h with rfl | h
    · unfold unstructuredLoops
      split
      · rename_i hany
        obtain ⟨l, hl, hheader⟩ := List.any_eq_true.1 hany
        exact ⟨l, subset_unstructuredLoops _ _ hl, of_decide_eq_true hheader⟩
      · exact ⟨_, subset_unstructuredLoops _ _ (List.mem_append_right _ (List.mem_singleton_self _)), rfl⟩
    · unfold unstructuredLoops
      split <;> exact ih _ h

/-- Of every natural loop something is recorded. -/
theorem exists_header_of_forall₂ {loops : List NaturalLoop} {found : List Loop}
    (h : List.Forall₂ (IsShape g pool) loops found) : ∀ l ∈ loops, ∃ f ∈ found, f.header = l.header := by
  induction h with
  | nil => nofun
  | cons hshape _ ih =>
    obtain ⟨kind, init, update, rfl⟩ := hshape.isRecordOf.eq
    refine List.forall_mem_cons.2 ⟨⟨_, List.mem_cons_self, rfl⟩, fun l hl => ?_⟩
    obtain ⟨f, hf, hheader⟩ := ih l hl
    exact ⟨f, List.mem_cons_of_mem _ hf, hheader⟩

/-- Where control reaches all blocks, a header is on every cycle. -/
theorem Settles.exists_header_on_cycle {found : List Loop} {result : FlowGraph}
    (hsettles : Settles pool g h found result) (hr : h.AllReachable) (hentry : h.blocks ≠ [] → h.entry ∈ h.ids)
    {a b : BlockId} {path : List BlockId} (hpath : h.normalDigraph.Path a b path) (hback : a ∈ h.successors b) :
    ∃ l ∈ result.loops, l.header ∈ path := by
  obtain ⟨x, hx, y, hy, hxy, hle⟩ := hpath.exists_retreating hback h.reversePostorder
  have hxids : x ∈ h.ids := hpath.mem_nodes x hx
  have hyids : y ∈ h.ids := hpath.mem_nodes y hy
  have hentry : h.entry ∈ h.ids := hentry fun hnil => by simp [ids, hnil] at hxids
  rw [hsettles.result]
  show ∃ l ∈ unstructuredLoops found h.irreducibleEdges, l.header ∈ path
  -- the edge from `y` to `x` goes back in a natural loop, or it is irreducible
  cases hdominates : Digraph.dominates h.dominators x y with
  | true =>
    obtain ⟨natural, hnatural, rfl⟩ := exists_naturalLoop hr hentry hyids hxy hdominates
    obtain ⟨l, hl, hheader⟩ :=
      exists_header_of_forall₂ (shapesOf_eq_inr_iff.1 hsettles.shapes) natural hnatural
    exact ⟨l, subset_unstructuredLoops _ _ hl, hheader ▸ hx⟩
  | false =>
    obtain ⟨l, hl, rfl⟩ := exists_header_unstructuredLoops found
      (mem_irreducibleEdges hr hxids hyids hxy hle hdominates)
    exact ⟨l, hl, hx⟩

end FlowGraph

namespace MethodCode

open FlowGraph

/-- Every cycle of the graph of decoded code, over edges that no exception takes, contains the header of a
loop that is recorded. -/
theorem header_on_cycle {pool : ConstantPool} {attr : CodeAttribute} {code : MethodCode}
    (h : MethodCode.decode pool attr = .ok code) (inlineReturns : Bool) (names : ConstantPool)
    {a b : BlockId} {path : List BlockId}
    (hpath : (code.reduced names inlineReturns).normalDigraph.Path a b path)
    (hback : a ∈ (code.reduced names inlineReturns).successors b) :
    ∃ l ∈ (code.reduced names inlineReturns).loops, l.header ∈ path := by
  have hcode := MethodCode.wellFormed_of_decode h
  obtain ⟨g, found, hsettles⟩ := exists_settles names
    (arranged_reduceJumps hcode inlineReturns).wf.sorted
  obtain ⟨harranged, hreachable⟩ := hsettles.arranged hcode
  have hresult : code.reduced names inlineReturns = g.recording found := hsettles.result
  rw [hresult] at hpath hback
  exact hsettles.exists_header_on_cycle hreachable harranged.wf.entry hpath hback

/-- The code of a loop that is entered at both of its blocks. -/
def loopEnteredTwice : CodeAttribute :=
  ⟨1, 2, [0x1a, 0x99, 0x00, 0x06, 0x84, 0x01, 0x01, 0x1b, 0x9a, 0xff, 0xfc, 0xb1], [], []⟩

theorem header_on_cycle_loopEnteredTwice :
    ∃ code, MethodCode.decode .empty loopEnteredTwice = .ok code ∧
      (code.reduced .empty true).normalDigraph.Path 4 7 [4, 7] ∧
      4 ∈ (code.reduced .empty true).successors 7 ∧
      ∃ l ∈ (code.reduced .empty true).loops, l.header ∈ [4, 7] := by
  have hdecode : ∃ code, MethodCode.decode .empty loopEnteredTwice = .ok code ∧
      (code.reduced .empty true).ids = [0, 4, 7, 11] ∧
      (code.reduced .empty true).successors 4 = [7] ∧
      (code.reduced .empty true).successors 7 = [11, 4] := ⟨_, rfl, by cbv, by cbv, by cbv⟩
  obtain ⟨code, hcode, hids, hfour, hseven⟩ := hdecode
  have hnodes : ∀ id ∈ [4, 7], id ∈ (code.reduced .empty true).normalDigraph.nodes := by
    show ∀ id ∈ [4, 7], id ∈ (code.reduced .empty true).ids
    rw [hids]
    decide
  have hedge : 7 ∈ (code.reduced .empty true).successors 4 := by
    rw [hfour]
    decide
  have hback : 4 ∈ (code.reduced .empty true).successors 7 := by
    rw [hseven]
    decide
  have hpath : (code.reduced .empty true).normalDigraph.Path 4 7 [4, 7] :=
    .cons (hnodes 4 (by decide)) hedge (.single (hnodes 7 (by decide)))
  exact ⟨code, hcode, hpath, hback, header_on_cycle hcode true .empty hpath hback⟩

end MethodCode

end JvmDecompiler
