import JvmDecompiler.Proofs.DividedBlocks
import JvmDecompiler.Proofs.JumpFixpoint
import JvmDecompiler.Proofs.LoopInitialisation

/-!
# Where rounds cut

A round cuts a block to make a block of the initialisation or the update of a loop that tests in its header.
Both are at the end of a block that goes on to that header and nowhere else, in front of the jump
(`FlowGraph.CutPlace`, `FlowGraph.exists_cutPlace_of_shapeOf`). So the part that is cut off does something, and the
header does not just hand control on.

If there is a jump at the end of the block, its row moves to the part that is cut off, and all rows stay in
their order (`FlowGraph.IsRoundCut.jumps_eq`).
-/

namespace JvmDecompiler

/-- The body of a block is a part of its instructions. -/
theorem Block.body_subset (b : Block) : b.body ⊆ b.instructions := by
  unfold body
  split
  · split
    · exact List.dropLast_subset _
    · exact List.Subset.refl _
  · exact List.Subset.refl _

namespace FlowGraph

variable {g cut : FlowGraph} {pool : ConstantPool} {l : NaturalLoop} {pre header : BlockId}
  {address : Address} {stop : Address}

/-! ## Places -/

/-- The block goes on to the header of a loop, and does something at the address in front of that. -/
structure CutPlace (g : FlowGraph) (id : BlockId) (address : Address) (header : BlockId) : Prop where
  goesOn : g.GoesOnTo id header
  instruction : ∃ b, g.block? id = some b ∧ ∃ i ∈ b.body, i.address = address

/-- The start of an initialisation is a place for a cut. -/
theorem cutPlace_of_initStart? {slot : UInt16} (hs : g.Sealed)
    (hinit : g.initStart? pool pre slot = some address) (hheader : header ∈ g.successors pre) :
    g.CutPlace pre address header := by
  refine ⟨goesOnTo_of_initStart? hs hinit hheader, ?_⟩
  simp only [initStart?, Option.bind_eq_bind, Option.bind_none, Option.bind_eq_some_iff] at hinit
  obtain ⟨b, hb, last, -, hinit⟩ := hinit
  split at hinit
  · simp only [Option.ite_none_left_eq_some, Option.bind_eq_some_iff] at hinit
    obtain ⟨-, start, -, i, hi, haddress⟩ := hinit
    exact ⟨b, hb, i, List.mem_of_getElem? hi, Option.some.inj haddress⟩
  · cases hinit

/-- The start of an update is an instruction of the body. -/
theorem exists_mem_of_trailingUpdate? {body : List PlacedInstruction} {slot : UInt16}
    (h : trailingUpdate? body = some (slot, address)) : ∃ i ∈ body, i.address = address := by
  unfold trailingUpdate? at h
  split at h
  · rename_i last rest hreverse
    -- the update is the last instruction, or the load in front of the three that make it up
    have hmem : ∀ i ∈ last :: rest, i ∈ body := fun i hi => List.mem_reverse.1 (hreverse ▸ hi)
    split at h
    · obtain ⟨-, rfl⟩ := Prod.mk.inj (Option.some.inj h)
      exact ⟨last, hmem last List.mem_cons_self, rfl⟩
    · rename_i arith value load more _
      have hload : load ∈ last :: arith :: value :: load :: more := by simp
      split at h <;> first
        | cases h
        | (obtain ⟨-, heq⟩ := Option.ite_none_right_eq_some.1 h
           obtain ⟨-, rfl⟩ := Prod.mk.inj (Option.some.inj heq)
           exact ⟨load, hmem load hload, rfl⟩)
    · cases h
  · cases h

/-- The update of a `for` loop is a place for a cut. -/
theorem ForPattern.cutPlace_latch {slot : UInt16} {initAt updateAt : Address}
    (hpattern : g.ForPattern pool l slot pre initAt updateAt) (hl : l.Fits g) :
    g.CutPlace l.latch updateAt l.header := by
  obtain ⟨b, hb, hupdate, -⟩ := hpattern.latch
  exact ⟨hpattern.goesOnTo hl, b, hb, exists_mem_of_trailingUpdate? hupdate⟩

namespace ArrayPattern

variable {array length index : UInt16} {initAt updateAt : Address}
  (hpattern : g.ArrayPattern pool l array length index pre initAt updateAt) (hs : g.Sealed)

include hpattern hs

/-- In the shape of a loop, the start of the update is a place for a cut. -/
theorem cutPlace_latch (hl : l.Fits g) : g.CutPlace l.latch updateAt l.header := by
  refine ⟨hpattern.goesOnTo hs hl, ?_⟩
  obtain ⟨b, hb, hcount⟩ := hpattern.latch
  simp only [trailingCount?, Option.bind_eq_bind, Option.bind_eq_some_iff] at hcount
  obtain ⟨last, hlast, hcount⟩ := hcount
  split at hcount
  · obtain ⟨-, heq⟩ := Option.ite_none_right_eq_some.1 hcount
    exact ⟨b, hb, last, List.mem_of_getLast? hlast, Option.some.inj heq⟩
  · cases hcount

/-- So is the start of the initialisation. -/
theorem cutPlace_init (hheader : l.header ∈ g.successors pre) : g.CutPlace pre initAt l.header := by
  obtain ⟨b, hb, hsets, start, first, -, hfirst, rfl⟩ := hpattern.setUp
  refine ⟨goesOnTo_of_mem_successors hb ?_ hheader, b, hb, first, List.mem_of_getElem? hfirst, rfl⟩
  -- the last of the three is the index
  unfold setsUpArray at hsets
  split at hsets
  · rename_i i _ _ _ _ _ hreverse
    rw [List.reverse_eq_cons_iff] at hreverse
    obtain ⟨last, hlast, hop⟩ : ∃ last, b.body.getLast? = some last ∧ last.operation = .store .int i := by
      have hmap := congrArg List.getLast? hreverse
      rw [List.getLast?_concat, List.getLast?_map] at hmap
      exact Option.map_eq_some_iff.1 hmap
    exact (hs b (mem_of_block? hb)).exists_goesOn hlast (by rw [hop]; rfl)
  · cases hsets

end ArrayPattern

/-- A loop is cut at its initialisation or at its update. -/
theorem split_of_settleInit {id : BlockId} {kind : LoopKind} {initAt : Address} {update : Option (BlockId × Address)}
    (h : g.settleInit l kind pre initAt update = some (.split id address)) :
    (id = pre ∧ address = initAt) ∨ update = some (id, address) := by
  unfold settleInit at h
  split at h
  · obtain ⟨rfl, rfl⟩ := LoopShape.split.inj (Option.some.inj h)
    exact .inl ⟨rfl, rfl⟩
  · split at h
    · rename_i block updateAt hupdate
      obtain ⟨rfl, rfl⟩ := LoopShape.split.inj (Option.some.inj h)
      exact .inr (Option.filter_eq_some_iff.1 hupdate).1
    · split at h <;> cases h

/-- The shape of a loop asks for a cut only if its header tests, and for one in front of the header. -/
theorem exists_cutPlace_of_shapeOf {id : BlockId} (hs : g.Sealed) (hl : l ∈ g.naturalLoops)
    (h : g.shapeOf pool l = .split id address) :
    g.hasHeaderTest pool l = true ∧ g.CutPlace id address l.header := by
  have hfits := fits_of_mem_naturalLoops hl
  have hcases := g.shapeOf_cases pool l
  rw [h] at hcases
  rcases hcases with ⟨⟨-, htest⟩, hmatch | hmatch | hmatch | hshape⟩ | ⟨-, hshape⟩ | hshape
  · obtain ⟨slot, pre, initAt, hpattern, hsettle⟩ := exists_pattern_of_matchIterator? hmatch
    obtain ⟨rfl, rfl⟩ | hnone := split_of_settleInit hsettle
    · exact ⟨htest, cutPlace_of_initStart? hs hpattern.init (of_preheader? hpattern.preheader).2.1⟩
    · cases hnone
  · obtain ⟨array, length, index, pre, initAt, updateAt, hpattern, hsettle⟩ :=
      exists_pattern_of_matchArray? hmatch
    obtain ⟨rfl, rfl⟩ | hupdate := split_of_settleInit hsettle
    · exact ⟨htest, hpattern.cutPlace_init hs (of_preheader? hpattern.preheader).2.1⟩
    · obtain ⟨rfl, rfl⟩ := Prod.mk.inj (Option.some.inj hupdate)
      exact ⟨htest, hpattern.cutPlace_latch hs hfits⟩
  · obtain ⟨slot, pre, initAt, updateAt, hpattern, hsettle⟩ := exists_pattern_of_matchFor? hmatch
    obtain ⟨rfl, rfl⟩ | hupdate := split_of_settleInit hsettle
    · exact ⟨htest, cutPlace_of_initStart? hs hpattern.init (of_preheader? hpattern.preheader).2.1⟩
    · obtain ⟨rfl, rfl⟩ := Prod.mk.inj (Option.some.inj hupdate)
      exact ⟨htest, hpattern.cutPlace_latch hfits⟩
  · cases hshape
  · cases hshape
  · cases hshape

/-! ## Cuts at these places -/

/-- The graph `cut` is the graph `g` with a block cut as a round does it. -/
structure IsRoundCut (g cut : FlowGraph) (b : Block) (before : List PlacedInstruction)
    (i : PlacedInstruction) (after : List PlacedInstruction) (header : BlockId) : Prop where
  isCut : IsCut g cut b before i after
  split : g.split? b.id i.address = some cut
  place : g.CutPlace b.id i.address header
  test : (g.block? header).any Block.isGotoOnly = false

/-- A round cuts one block in front of what leads to a header. -/
theorem Recuts.exists_isRoundCut (h : Recuts pool g cut) (hs : g.Sealed) :
    ∃ b before i after header, IsRoundCut g cut b before i after header := by
  obtain ⟨l, hl, id, address, hshape, hsplit⟩ := exists_split?_of_shapesOf h
  obtain ⟨b, before, i, after, hcut, rfl, rfl⟩ := FlowGraph.exists_isCut hsplit
  obtain ⟨htest, hplace⟩ := exists_cutPlace_of_shapeOf hs hl hshape
  refine ⟨b, before, i, after, l.header, hcut, hsplit, hplace, ?_⟩
  obtain ⟨c, s, t, hheader⟩ : ∃ c s t, (g.endlessLoop l).HeaderTest g pool c s t :=
    headerTest_of_hasHeaderTest htest rfl rfl rfl
  have hc : g.block? l.header = some c := hheader.block
  obtain ⟨condition, hterm | hterm⟩ := hheader.branch <;> simp [hc, Block.isGotoOnly, hterm]

/-- The block that ends as a block did, when `first` is cut and its second half is `second`. -/
def endOf (first second id : BlockId) : BlockId := if id = first then second else id

/-- The first half of a block ends where the second does. -/
theorem endOf_first (first second : BlockId) : endOf first second first = second := if_pos rfl

/-- All other blocks end where they did. -/
theorem endOf_of_ne {first second id : BlockId} (hne : id ≠ first) : endOf first second id = id := if_neg hne

/-- Where the block does not occur, nothing is replaced. -/
theorem map_endOf_eq_self {first second : BlockId} {ids : List BlockId} (hne : ∀ id ∈ ids, id ≠ first) :
    ids.map (endOf first second) = ids := by
  conv_rhs => rw [← List.map_id ids]
  exact List.map_congr_left fun id hid => endOf_of_ne (hne id hid)

/-- Nor is it in the rows of jumps. -/
theorem map_rows_endOf_eq_self {first second : BlockId} {rows : List (BlockId × JumpClass)}
    (hne : ∀ row ∈ rows, row.1 ≠ first) : rows.map (Prod.map (endOf first second) id) = rows := by
  conv_rhs => rw [← List.map_id rows]
  exact List.map_congr_left fun row hrow => Prod.ext (endOf_of_ne (hne row hrow)) rfl

/-- Rows in the order of their keys stay in order when a row gets a higher key, below those of the rows behind
it. -/
theorem insertByKey_endOf {first second : BlockId} {c : JumpClass} {rows : List (BlockId × JumpClass)}
    (hsorted : (rows.map Prod.fst).Pairwise (· < ·)) (hlt : first < second)
    (hbehind : ∀ row ∈ rows, first < row.1 → second < row.1) (hlookup : rows.lookup first = some c) :
    insertByKey Prod.fst (second, c) (rows.filter (·.1 ≠ first)) = rows.map (Prod.map (endOf first second) id) := by
  obtain ⟨front, back, rfl, -⟩ := List.lookup_eq_some_iff.1 hlookup
  rw [List.map_append, List.map_cons, List.pairwise_append, List.pairwise_cons] at hsorted
  obtain ⟨-, ⟨hback, -⟩, hfront⟩ := hsorted
  have hfront : ∀ row ∈ front, row.1 < first := fun row hrow =>
    hfront row.1 (List.mem_map_of_mem hrow) first List.mem_cons_self
  have hback : ∀ row ∈ back, first < row.1 := fun row hrow => hback row.1 (List.mem_map_of_mem hrow)
  have hfrontNe : ∀ row ∈ front, row.1 ≠ first := fun row hrow => Nat.ne_of_lt (hfront row hrow)
  have hbackNe : ∀ row ∈ back, row.1 ≠ first := fun row hrow => Nat.ne_of_gt (hback row hrow)
  rw [List.filter_append, List.filter_cons_of_neg (by simp),
    List.filter_eq_self.2 fun row hrow => decide_eq_true (hfrontNe row hrow),
    List.filter_eq_self.2 fun row hrow => decide_eq_true (hbackNe row hrow),
    insertByKey_append (fun row hrow => Nat.lt_trans (hfront row hrow) hlt)
      (fun row hrow => hbehind row (by simp [hrow]) (hback row hrow)),
    List.map_append, List.map_cons, map_rows_endOf_eq_self hfrontNe, map_rows_endOf_eq_self hbackNe,
    Prod.map_apply, endOf_first, id_eq]

namespace IsRoundCut

variable {b : Block} {before after : List PlacedInstruction} {i : PlacedInstruction}
  (h : IsRoundCut g cut b before i after header) (hg : g.Arranged stop)

include h

/-- The block that is cut leads to the header only. -/
theorem successors_eq : g.successors b.id = [header] := h.place.goesOn.successors_eq

/-- The block that is cut does not just hand control on. -/
theorem not_isGotoOnly : (g.block? b.id).any Block.isGotoOnly = false := by
  obtain ⟨c, hc, j, hj, -⟩ := h.place.instruction
  have hbody : c.body.isEmpty = false := List.isEmpty_eq_false_iff.2 (List.ne_nil_of_mem hj)
  rw [hc, Option.any_some]
  unfold Block.isGotoOnly
  split <;> first | exact hbody | rfl

include hg

/-- The place of the cut is in the body of the block. -/
theorem mem_body : i ∈ b.body := by
  have hcut := h.isCut
  obtain ⟨c, hc, j, hj, haddress⟩ := h.place.instruction
  obtain rfl := Option.some.inj (hc.symm.trans hcut.block)
  -- no two instructions of the block are at one address
  have hnodup : c.addresses.Nodup := (hg.order.blocks c (mem_of_block? hc)).sorted.imp Nat.ne_of_lt
  have hi : i ∈ c.instructions := by simp [hcut.instructions]
  exact List.inj_on_of_nodup_map hnodup (c.body_subset hj) hi haddress ▸ hj

/-- Neither does the part that is cut off. -/
theorem not_isGotoOnly_second (hs : g.Sealed) : (cut.block? i.address).any Block.isGotoOnly = false := by
  have hcut := h.isCut
  have hsecond := hcut.block?_second hg
  rw [hsecond, Option.any_some]
  refine Bool.eq_false_iff.2 fun hgoto => ?_
  obtain ⟨t, ⟨hterm, hlength⟩ | ⟨-, hnil⟩⟩ :=
    (hs.split? h.split _ (mem_of_block? hsecond)).exists_handsTo.1 hgoto
  · -- then the instruction would be the jump, which is not in the body
    obtain rfl : after = [] := List.length_eq_zero_iff.1 (by simpa using hlength)
    have hb := hs b (mem_of_block? hcut.block)
    have hlast : b.instructions.getLast? = some i := by simp [hcut.instructions]
    have hends : i.operation.endsBlock = true := by
      have hends := hb.last i hlast
      simp only at hterm
      cases hop : i.operation <;> simp [hterm, hop, Terminator.endsWith] at hends
      rfl
    have hmem := h.mem_body hg
    simp only at hterm
    simp only [Block.body, hterm, hlast, hends, if_true] at hmem
    rw [hb.inner i hmem] at hends
    cases hends
  · cases hnil

omit hg in
/-- A cut passes the class of the block on to its second half. -/
theorem jumps_eq_insertByKey : cut.jumps =
    match g.jumps.lookup b.id with
    | some c => insertByKey Prod.fst (i.address, c) (g.jumps.filter (·.1 ≠ b.id))
    | none => g.jumps := by
  have hsplit := h.split
  unfold FlowGraph.split? at hsplit
  rw [if_neg h.isCut.inner, h.isCut.block] at hsplit
  simp only [Option.pure_def, Option.bind_eq_bind, Option.bind_some, Option.bind_eq_some_iff] at hsplit
  obtain ⟨n, -, hsplit⟩ := hsplit
  have hmodify : (g.modify b.id fun _ =>
    ⟨b.id, b.instructions.take n, .fallThrough i.address⟩).jumps = g.jumps := rfl
  rw [hmodify] at hsplit
  cases hlookup : g.jumps.lookup b.id with
  | none | some =>
    rw [hlookup] at hsplit
    exact Option.some.inj hsplit ▸ rfl

/-- Where there is at most one row for each block, in their order, the row of the block that is cut gets the
name of the second half. -/
theorem jumps_eq (hrows : (g.jumps.map Prod.fst).Sublist g.ids) :
    cut.jumps = g.jumps.map (Prod.map (endOf b.id i.address) id) := by
  have hcut := h.isCut
  rw [h.jumps_eq_insertByKey]
  cases hlookup : g.jumps.lookup b.id with
  | none =>
    rw [List.lookup_eq_none_iff] at hlookup
    exact (map_rows_endOf_eq_self fun row hrow heq => by simpa [heq] using hlookup row hrow).symm
  | some c =>
    obtain ⟨-, -, -, -, hlt⟩ := hcut.exists_before hg
    refine insertByKey_endOf (hg.wf.sorted.sublist hrows) hlt (fun row hrow hbehind => ?_) hlookup
    -- the row is for a block behind the one that is cut
    exact hg.address_lt (mem_of_block? hcut.block) (.inl (hrows.subset (List.mem_map_of_mem hrow))) hbehind
      i.address (by simp [Block.addresses, hcut.instructions])

/-- Rows for the jumps of a graph become rows for those of the graph that is cut. -/
theorem keys_jumps
    (hkeys : g.jumps.map Prod.fst = (g.blocks.filter isJump).map (·.id)) :
    cut.jumps.map Prod.fst = (cut.blocks.filter isJump).map (·.id) := by
  have hrows : (g.jumps.map Prod.fst).Sublist g.ids := hkeys ▸ List.filter_sublist.map _
  obtain ⟨front, back, hblocks, hcut, hfront, hlt, hback⟩ := h.isCut.exists_blocks hg
  have hkept : ∀ blocks : List Block, (∀ c ∈ blocks, c.id ≠ b.id) →
      ((blocks.filter isJump).map (·.id)).map (endOf b.id i.address) = (blocks.filter isJump).map (·.id) :=
    fun blocks hne => map_endOf_eq_self (List.forall_mem_map.2 fun c hc => hne c (List.mem_filter.1 hc).1)
  -- the jump at the end of the block is at the second half now, which stands where the block stood
  have hends : (cut.blocks.filter isJump).map (·.id) =
      ((g.blocks.filter isJump).map (·.id)).map (endOf b.id i.address) := by
    have hfirst : isJump ⟨b.id, before, .fallThrough i.address⟩ = false := rfl
    rw [hcut, hblocks]
    simp only [List.filter_append, List.map_append, List.filter_cons, hfirst]
    rw [hkept front fun c hc => Nat.ne_of_lt (hfront c hc)]
    have hsecond : isJump ⟨i.address, i :: after, b.terminator⟩ = isJump b := rfl
    rw [hsecond]
    have hback := hkept back fun c hc => Nat.ne_of_gt (Nat.lt_trans hlt (hback c hc))
    cases isJump b with
    | true => simp [hback, endOf_first]
    | false => simp [hback]
  rw [h.jumps_eq hg hrows, hends, ← hkeys, List.map_map, List.map_map]
  rfl

end IsRoundCut

end FlowGraph

end JvmDecompiler
