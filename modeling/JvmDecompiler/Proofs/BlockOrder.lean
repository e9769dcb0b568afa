import JvmDecompiler.Proofs.InstructionFlow
import JvmDecompiler.Proofs.JumpFixpoint
import JvmDecompiler.Proofs.LoopRounds

/-!
# Blocks in the order of addresses

A block lies in front of the next one: its first instruction is at the address that it is named after, the
others follow in order, and the next block starts behind all of them. This holds of the flow graph of
decoded code, and it is kept when jumps are reduced: a block then loses at most its last instruction, and
no instruction moves (`inOrder_reduceJumps`).

In such a graph a block that is cut has its two halves in its place, and the second one has a name that no
block had before. So a cut keeps the order and the shape of the graph (`IsCut.arranged`), and what control
can reach (`IsCut.allReachable`).
-/

namespace JvmDecompiler

/-- The addresses of the instructions of a block. -/
def Block.addresses (b : Block) : List Address := b.instructions.map (·.address)

/-- The instructions of a block start where the block does and lie one behind the other. -/
structure Block.InOrder (b : Block) : Prop where
  head : ∀ a ∈ b.addresses.head?, a = b.id
  sorted : b.addresses.Pairwise (· < ·)

/-- A block with a part of the instructions of another one, up to what these do. -/
structure Block.Trims (c b : Block) : Prop where
  id : c.id = b.id
  addresses : c.addresses <+: b.addresses

namespace Block

variable {b c : Block}

/-- A block is a part of itself. -/
theorem Trims.refl (b : Block) : b.Trims b := ⟨rfl, List.prefix_refl _⟩

/-- A block with the same instructions, up to what they do, is a part of the other. -/
theorem Trims.of_eq (hid : c.id = b.id) (h : c.addresses = b.addresses) : c.Trims b :=
  ⟨hid, h ▸ List.prefix_refl _⟩

/-- A part of a block that is in order is in order. -/
theorem Trims.inOrder (h : c.Trims b) (hb : b.InOrder) : c.InOrder := by
  refine ⟨fun a ha => ?_, hb.sorted.sublist h.addresses.sublist⟩
  obtain ⟨rest, hrest⟩ := h.addresses
  rw [h.id]
  refine hb.head a ?_
  rw [← hrest, List.head?_append, ha]
  rfl

/-- To change the last instruction leaves all addresses. -/
theorem addresses_modifyLast (b : Block) (f : Instruction → Instruction) :
    (b.modifyLast f).addresses = b.addresses := by
  have hsame := filterMap_mapLast (f := fun i : PlacedInstruction => { i with operation := f i.operation })
    (p := fun i => some i.address) (fun _ => rfl) b.instructions
  rwa [List.filterMap_eq_map'] at hsame

/-- A block whose jump is moved has the same instructions, up to what they do. -/
theorem trims_retarget (b : Block) (t : BlockId) : (b.retarget t).Trims b := by
  refine .of_eq (b.id_retarget t) ?_
  rw [addresses, b.instructions_retarget]
  exact b.addresses_modifyLast _

end Block

namespace FlowGraph

open Block (Trims)

variable {g cut : FlowGraph} {stop : Address}

/-- The blocks of a graph of code that ends at `stop` lie one behind the other. -/
structure InOrder (g : FlowGraph) (stop : Address) : Prop where
  blocks : ∀ b ∈ g.blocks, b.InOrder
  apart : g.blocks.Pairwise fun b c => ∀ a ∈ b.addresses, a < c.id
  below : ∀ b ∈ g.blocks, ∀ a ∈ b.addresses, a < stop

/-! ## Decoded code -/

/-- The blocks of decoded code are in order, as its instructions are. -/
theorem inOrder_ofCode {code : MethodCode} (h : code.WellFormed) : (ofCode code).InOrder code.length := by
  obtain ⟨hsorted, hbounds⟩ := h.tiles.pairwise_address
  have hhead : ∀ b ∈ (ofCode code).blocks, b.addresses.head? = some b.id := fun b hb => by
    obtain ⟨i, tail, hinstructions, hid⟩ := exists_head_of_mem_blocks hb
    rw [Block.addresses, hinstructions, List.map_cons, List.head?_cons, hid]
  rw [← flatMap_instructions_ofCode code, ← List.pairwise_map (f := PlacedInstruction.address),
    List.map_flatMap, List.pairwise_flatMap] at hsorted
  refine ⟨fun b hb => ⟨fun a ha => ?_, hsorted.1 b hb⟩, ?_, fun b hb a ha => ?_⟩
  · rw [hhead b hb] at ha
    exact (Option.some.inj ha).symm
  · refine hsorted.2.imp_of_mem fun {b c} _ hc hbc a ha => ?_
    exact hbc a ha c.id (List.mem_of_mem_head? (hhead c hc))
  · obtain ⟨i, hi, rfl⟩ := List.mem_map.1 ha
    exact (hbounds i ((infix_of_mem_blocks hb).subset hi)).2

/-! ## Reduced jumps -/

/-- If every block becomes a part of itself, the graph stays in order. -/
theorem InOrder.mapBlocks (hg : g.InOrder stop) {f : Block → Block} (hf : ∀ b ∈ g.blocks, (f b).Trims b) :
    (g.mapBlocks f).InOrder stop := by
  refine ⟨List.forall_mem_map.2 fun b hb => (hf b hb).inOrder (hg.blocks b hb), ?_,
    List.forall_mem_map.2 fun b hb a ha => hg.below b hb a ((hf b hb).addresses.subset ha)⟩
  refine List.pairwise_map.2 (hg.apart.imp_of_mem fun {b c} hb hc hbc a ha => ?_)
  rw [(hf c hc).id]
  exact hbc a ((hf b hb).addresses.subset ha)

/-- Some of the blocks are in order. -/
theorem InOrder.keepIds (hg : g.InOrder stop) (p : BlockId → Bool) : (g.keepIds p).InOrder stop :=
  ⟨fun b hb => hg.blocks b (List.mem_filter.1 hb).1, hg.apart.sublist List.filter_sublist,
    fun b hb => hg.below b (List.mem_filter.1 hb).1⟩

/-- If one block becomes a part of itself, the graph stays in order. -/
theorem InOrder.modify (hg : g.InOrder stop) (id : BlockId) {f : Block → Block} (hf : ∀ b, (f b).Trims b) :
    (g.modify id f).InOrder stop := by
  refine hg.mapBlocks fun b _ => ?_
  split
  · exact hf b
  · exact .refl b

/-- Threading jumps leaves the blocks in order. -/
theorem InOrder.threadJumps (hg : g.InOrder stop) : g.threadJumps.InOrder stop := by
  refine List.foldlRecOn (motive := fun g : FlowGraph => g.InOrder stop) g.ids threadBlock hg
    fun h hh id _ => ?_
  rcases h.threadBlock_eq id with heq | ⟨b, t, -, -, heq⟩
  · exact heq.symm ▸ hh
  · exact heq.symm ▸ hh.modify id fun b => b.trims_retarget _

/-- Inlining returns leaves them in order. -/
theorem InOrder.inlineReturns (hg : g.InOrder stop) : g.inlineReturns.InOrder stop := by
  refine List.foldlRecOn (motive := fun g : FlowGraph => g.InOrder stop) g.ids inlineReturn hg
    fun h hh id _ => ?_
  rcases h.inlineReturn_eq id with heq | ⟨_, _, _, _, _, type, -, -, -, -, -, -, heq⟩
  · exact heq.symm ▸ hh
  · exact heq.symm ▸ hh.modify id fun b =>
      .of_eq rfl (b.addresses_modifyLast fun _ => .return type)

/-- A block without its jump to the next one is a part of itself. -/
theorem trims_dropJump (g : FlowGraph) (b : Block) : (g.dropJump b).Trims b := by
  refine ⟨id_dropJump b, ?_⟩
  unfold dropJump
  split
  · split
    · split
      · exact (List.dropLast_prefix _).map _
      · exact List.prefix_refl _
    · exact List.prefix_refl _
  · exact List.prefix_refl _

/-- A block with moved targets has the same instructions, up to what they do. -/
theorem trims_bypassed (g : FlowGraph) (source target : BlockId) (b : Block) :
    (g.bypassed source target b).Trims b := by
  unfold bypassed
  split
  · exact .of_eq rfl (b.addresses_modifyLast _)
  · exact .refl b

/-- To go round a block leaves the others in order. -/
theorem InOrder.bypass (hg : g.InOrder stop) (source target : BlockId) :
    (g.bypass source target).InOrder stop := by
  rw [bypass_eq]
  exact (hg.mapBlocks fun b _ => g.trims_bypassed source target b).keepIds _

/-- Dropping jumps leaves them in order, round for round. -/
theorem InOrder.dropJumpsWithin (hg : g.InOrder stop) (rounds : Nat) :
    (dropJumpsWithin rounds g).InOrder stop := by
  induction rounds generalizing g with
  | zero => exact hg
  | succ rounds ih =>
    unfold FlowGraph.dropJumpsWithin
    dsimp only
    split
    · exact hg
    · exact ih (List.foldlRecOn (motive := fun g : FlowGraph => g.InOrder stop) _ _
        (hg.mapBlocks fun b _ => g.trims_dropJump b) fun h hh e _ => hh.bypass e.1 e.2)

/-- The reduction of jumps leaves the blocks in order. -/
theorem inOrder_reduceJumps (hg : g.InOrder stop) (inlineReturns : Bool) :
    (g.reduceJumps inlineReturns).InOrder stop := by
  have hinlined : (if inlineReturns then g.threadJumps.inlineReturns else g.threadJumps).InOrder stop := by
    split
    · exact hg.threadJumps.inlineReturns
    · exact hg.threadJumps
  have hreduced : ∀ {h : FlowGraph}, h.InOrder stop → (h.dropJumps.removeUnreachable).InOrder stop :=
    fun hh => (hh.dropJumpsWithin _).keepIds _
  exact ⟨(hreduced hinlined).blocks, (hreduced hinlined).apart, (hreduced hinlined).below⟩

/-! ## Cut blocks -/

/-- Control goes from a block where its terminator says, and to the handlers of its instructions. -/
theorem mem_allSuccessors_iff {id t : BlockId} : t ∈ g.allSuccessors id ↔
    ∃ b, g.block? id = some b ∧ (t ∈ b.terminator.successors ∨
      ∃ r ∈ g.ranges, ∃ i ∈ b.instructions, r.covers i.address = true ∧ r.handler = t) := by
  cases hb : g.block? id with
  | none => simp [allSuccessors, successors, exceptionSuccessors, hb]
  | some b =>
    have hexception : t ∈ g.exceptionSuccessors id ↔
        ∃ r ∈ g.ranges, ∃ i ∈ b.instructions, r.covers i.address = true ∧ r.handler = t := by
      simp only [exceptionSuccessors, hb, sortedSet, List.mem_mergeSort, List.mem_eraseDups, List.mem_map,
        List.mem_filter, List.any_eq_true]
      grind
    simp only [allSuccessors, List.mem_append, List.mem_filter, hexception]
    simp only [successors, hb]
    grind

/-- A well-formed graph whose blocks lie one behind the other. -/
structure Arranged (g : FlowGraph) (stop : Address) : Prop where
  wf : g.WellFormed stop
  order : g.InOrder stop

/-- The reduced graph of a method is well-formed and in order. -/
theorem arranged_reduceJumps {code : MethodCode} (h : code.WellFormed) (inlineReturns : Bool) :
    ((ofCode code).reduceJumps inlineReturns).Arranged code.length :=
  ⟨(reduceJumps_spec inlineReturns (wellFormed_ofCode h) (returnsEnd_ofCode code)).1,
    inOrder_reduceJumps (inOrder_ofCode h) inlineReturns⟩

/-- Where control can go on further down is behind all instructions of a block. -/
theorem Arranged.address_lt (hg : g.Arranged stop) {b : Block} (hb : b ∈ g.blocks) {t : BlockId}
    (ht : t ∈ g.ids ∨ t = stop) (hlt : b.id < t) : ∀ a ∈ b.addresses, a < t := by
  rcases ht with ht | rfl
  · obtain ⟨c, hc, rfl⟩ := List.mem_map.1 ht
    obtain ⟨front, back, hblocks, hfront, -⟩ := exists_blocks_around hg.wf.sorted hb
    have hapart := hg.order.apart
    rw [hblocks, List.pairwise_append, List.pairwise_cons] at hapart
    rw [hblocks] at hc
    rcases List.mem_append.1 hc with hc | hc
    · exact absurd (hfront c hc) (Nat.lt_asymm hlt)
    rcases List.mem_cons.1 hc with rfl | hc
    · exact absurd hlt (Nat.lt_irrefl _)
    · exact hapart.2.1.1 c hc
  · exact hg.order.below b hb

/-- A key between those of two rows is put between the rows. -/
theorem insertByKey_append {α : Type} {key : α → Nat} {a : α} {l r : List α}
    (hl : ∀ b ∈ l, key b < key a) (hr : ∀ b ∈ r, key a < key b) :
    insertByKey key a (l ++ r) = l ++ a :: r := by
  induction l with
  | nil =>
    cases r with
    | nil => rfl
    | cons b r => exact if_pos (hr b List.mem_cons_self)
  | cons b l ih =>
    obtain ⟨hb, hl⟩ := List.forall_mem_cons.1 hl
    rw [List.cons_append, insertByKey, if_neg (Nat.lt_asymm hb), if_neg (Nat.ne_of_gt hb), ih hl]
    rfl

namespace IsCut

variable {b c : Block} {before after : List PlacedInstruction} {i : PlacedInstruction}
  (h : IsCut g cut b before i after) (hg : g.Arranged stop)

include h hg

/-- The part of a block in front of a cut starts where the block does. -/
theorem exists_before : ∃ j rest, before = j :: rest ∧ j.address = b.id ∧ b.id < i.address := by
  have hb := hg.order.blocks b (mem_of_block? h.block)
  have hsorted := hb.sorted
  rw [Block.addresses, h.instructions] at hsorted
  cases before with
  | nil => exact absurd (hb.head i.address (by rw [Block.addresses, h.instructions]; rfl)) h.inner
  | cons j rest =>
    have hj := hb.head j.address (by rw [Block.addresses, h.instructions]; rfl)
    refine ⟨j, rest, rfl, hj, hj ▸ ?_⟩
    exact (List.pairwise_cons.1 hsorted).1 i.address (by simp)

/-- The halves of a block that is cut are in its place, and between the names around it. -/
theorem exists_blocks : ∃ front back, g.blocks = front ++ b :: back ∧
    cut.blocks = front ++ ⟨b.id, before, .fallThrough i.address⟩ ::
      ⟨i.address, i :: after, b.terminator⟩ :: back ∧
    (∀ c ∈ front, c.id < b.id) ∧ b.id < i.address ∧ ∀ c ∈ back, i.address < c.id := by
  obtain ⟨front, back, hblocks, hfront, -, hmodify⟩ := exists_blocks_modify hg.wf.sorted h.block
    fun _ => ⟨b.id, before, .fallThrough i.address⟩
  obtain ⟨-, -, -, -, hlt⟩ := h.exists_before hg
  have hapart := hg.order.apart
  rw [hblocks, List.pairwise_append, List.pairwise_cons] at hapart
  have hback : ∀ c ∈ back, i.address < c.id := fun c hc =>
    hapart.2.1.1 c hc i.address (by simp [Block.addresses, h.instructions])
  refine ⟨front, back, hblocks, ?_, hfront, hlt, hback⟩
  rw [h.blocks, hmodify, List.append_cons, insertByKey_append (List.forall_mem_append.2 ⟨?_, ?_⟩) hback,
    List.append_assoc]
  · rfl
  · exact fun c hc => Nat.lt_trans (hfront c hc) hlt
  · exact List.forall_mem_singleton.2 hlt

/-- The name of the second half is new. -/
theorem address_not_mem_ids : i.address ∉ g.ids := by
  obtain ⟨front, back, hblocks, -, hfront, hlt, hback⟩ := h.exists_blocks hg
  intro hmem
  obtain ⟨c, hc, hid⟩ := List.mem_map.1 hmem
  rw [hblocks] at hc
  rcases List.mem_append.1 hc with hc | hc
  · exact Nat.ne_of_lt (Nat.lt_trans (hfront c hc) hlt) hid
  rcases List.mem_cons.1 hc with rfl | hc
  · exact h.inner hid.symm
  · exact Nat.ne_of_gt (hback c hc) hid

/-- Behind a cut there are the two parts, and all other blocks. -/
theorem mem_blocks : c ∈ cut.blocks ↔ c = ⟨b.id, before, .fallThrough i.address⟩ ∨
    c = ⟨i.address, i :: after, b.terminator⟩ ∨ c ∈ g.blocks ∧ c.id ≠ b.id := by
  obtain ⟨front, back, hblocks, hcut, hfront, hlt, hback⟩ := h.exists_blocks hg
  have hfront' : c ∈ front → c.id ≠ b.id := fun hc => Nat.ne_of_lt (hfront c hc)
  have hback' : c ∈ back → c.id ≠ b.id := fun hc => Nat.ne_of_gt (Nat.lt_trans hlt (hback c hc))
  rw [hcut, hblocks]
  simp only [List.mem_append, List.mem_cons]
  grind

/-- The first part is found where the block was, and falls through to the second. -/
theorem block?_first : cut.block? b.id = some ⟨b.id, before, .fallThrough i.address⟩ :=
  block?_eq_some (h.sorted hg.wf.sorted) ((h.mem_blocks hg).2 (.inl rfl))

/-- The second part is found at its first instruction, and has the terminator of the block. -/
theorem block?_second : cut.block? i.address = some ⟨i.address, i :: after, b.terminator⟩ :=
  block?_eq_some (h.sorted hg.wf.sorted) ((h.mem_blocks hg).2 (.inr (.inl rfl)))

/-- All other blocks are left as they are. -/
theorem block?_of_ne {id : BlockId} (hb : id ≠ b.id) (hi : id ≠ i.address) :
    cut.block? id = g.block? id := by
  refine Option.ext fun c => ⟨fun hc => ?_, fun hc => ?_⟩
  · obtain rfl := id_of_block? hc
    rcases (h.mem_blocks hg).1 (mem_of_block? hc) with rfl | rfl | ⟨hmem, -⟩
    · exact absurd rfl hb
    · exact absurd rfl hi
    · exact block?_eq_some hg.wf.sorted hmem
  · obtain rfl := id_of_block? hc
    exact block?_eq_some (h.sorted hg.wf.sorted) ((h.mem_blocks hg).2 (.inr (.inr ⟨mem_of_block? hc, hb⟩)))

/-- The cut adds one number. -/
theorem mem_ids {id : BlockId} : id ∈ cut.ids ↔ id ∈ g.ids ∨ id = i.address := by
  simp only [mem_ids_iff]
  by_cases hb : id = b.id
  · simp [hb, h.block?_first hg, h.block]
  by_cases hi : id = i.address
  · simp [hi, h.block?_second hg]
  · simp [h.block?_of_ne hg hb hi, hi]

/-- The blocks of the graph that is cut fit into it. -/
theorem fits (hc : c ∈ cut.blocks) : c.Fits cut stop := by
  have hfits : ∀ {d : Block}, d ∈ g.blocks → d.Fits cut stop := fun hd => by
    have hfits := hg.wf.blocks _ hd
    refine ⟨fun t ht => (hfits.targets t ht).imp_left fun hmem => (h.mem_ids hg).2 (.inl hmem),
      hfits.downward, hfits.jumps, fun r hr j hj hcov => (h.mem_ids hg).2 (.inl ?_)⟩
    exact hfits.handlers r (h.ranges ▸ hr) j hj hcov
  have hb := hfits (mem_of_block? h.block)
  obtain ⟨-, -, -, -, hlt⟩ := h.exists_before hg
  -- the second half keeps the terminator, which the first one had no place for
  rcases (h.mem_blocks hg).1 hc with rfl | rfl | ⟨hc, -⟩
  · refine ⟨fun t ht => .inl ((h.mem_ids hg).2 (.inr (by simpa [Terminator.successors] using ht))),
      fun t ht => ?_, nofun, fun r hr j hj => hb.handlers r hr j ?_⟩
    · obtain rfl := Terminator.fallThrough.inj ht
      exact hlt
    · rw [h.instructions]
      exact List.mem_append_left _ hj
  · refine ⟨hb.targets, fun t ht => ?_, fun t ht => ?_, fun r hr j hj => hb.handlers r hr j ?_⟩
    · have hmem := mem_of_block? h.block
      have htarget := (hg.wf.blocks b hmem).targets t (by rw [ht]; exact List.mem_singleton_self t)
      exact hg.address_lt hmem htarget ((hg.wf.blocks b hmem).downward t ht) i.address
        (by simp [Block.addresses, h.instructions])
    · have hlast := hb.jumps t ht
      rwa [h.instructions, List.getLast?_append_of_ne_nil _ (List.cons_ne_nil i after)] at hlast
    · rw [h.instructions]
      exact List.mem_append_right _ hj
  · exact hfits hc

/-- The graph with the cut is in order. -/
theorem inOrder : cut.InOrder stop := by
  obtain ⟨front, back, hblocks, hcut, -⟩ := h.exists_blocks hg
  obtain ⟨j, rest, rfl, hj, hlt⟩ := h.exists_before hg
  have haddresses : b.addresses =
      (j :: rest).map (·.address) ++ (i :: after).map (·.address) := by
    rw [Block.addresses, h.instructions, List.map_append]
  have hsorted := (hg.order.blocks b (mem_of_block? h.block)).sorted
  have hbelow := hg.order.below b (mem_of_block? h.block)
  have hapart := hg.order.apart
  rw [haddresses, List.pairwise_append] at hsorted
  rw [haddresses, List.forall_mem_append] at hbelow
  rw [hblocks, List.pairwise_append, List.pairwise_cons] at hapart
  obtain ⟨hfront, ⟨hb, hback⟩, hfrontBack⟩ := hapart
  refine ⟨fun c hc => ?_, ?_, fun c hc => ?_⟩
  · rcases (h.mem_blocks hg).1 hc with rfl | rfl | ⟨hc, -⟩
    · exact ⟨fun a ha => Option.some.inj ha ▸ hj, hsorted.1⟩
    · exact ⟨fun a ha => (Option.some.inj ha).symm, hsorted.2.1⟩
    · exact hg.order.blocks c hc
  · rw [hcut, List.pairwise_append, List.pairwise_cons, List.pairwise_cons]
    simp only [List.forall_mem_cons]
    simp only [haddresses, List.forall_mem_append] at hb
    refine ⟨hfront, ⟨⟨fun a ha => hsorted.2.2 a ha i.address List.mem_cons_self,
      fun c hc => (hb c hc).1⟩, fun c hc => (hb c hc).2, hback⟩, fun c hc => ⟨?_, ?_, ?_⟩⟩
    · exact hfrontBack c hc b List.mem_cons_self
    · exact fun a ha => Nat.lt_trans (hfrontBack c hc b List.mem_cons_self a ha) hlt
    · exact fun d hd => hfrontBack c hc d (List.mem_cons_of_mem _ hd)
  · rcases (h.mem_blocks hg).1 hc with rfl | rfl | ⟨hc, -⟩
    · exact hbelow.1
    · exact hbelow.2
    · exact hg.order.below c hc

/-- A cut keeps the shape and the order of a graph. -/
theorem arranged : cut.Arranged stop := by
  have hb := mem_of_block? h.block
  have hentry : g.entry ∈ g.ids := hg.wf.entry (List.ne_nil_of_mem hb)
  refine ⟨⟨h.sorted hg.wf.sorted, fun id hid => ?_, fun _ => ?_, fun c hc => h.fits hg hc⟩, h.inOrder hg⟩
  · rcases (h.mem_ids hg).1 hid with hid | rfl
    · exact hg.wf.bounded id hid
    · exact hg.order.below b hb i.address (by simp [Block.addresses, h.instructions])
  · rw [h.entry]
    exact (h.mem_ids hg).2 (.inl hentry)

/-- Control reaches what it reached, and the second half behind the first one. -/
theorem allReachable (hr : g.AllReachable) : cut.AllReachable := by
  have hentry : g.entry ∈ g.ids := hg.wf.entry (List.ne_nil_of_mem (mem_of_block? h.block))
  have hnew : cut.digraph.Reaches g.entry b.id → cut.digraph.Reaches g.entry i.address := fun hreach =>
    hreach.tail (mem_allSuccessors_iff.2 ⟨_, h.block?_first hg, .inl (List.mem_singleton_self _)⟩)
      ((h.mem_ids hg).2 (.inr rfl))
  have hold : ∀ id ∈ g.ids, cut.digraph.Reaches g.entry id := by
    intro id hid
    have hreach : g.digraph.Reaches g.entry id := Digraph.mem_reversePostorder_iff.1 (hr id hid)
    refine hreach.induction (.refl ((h.mem_ids hg).2 (.inl hentry))) fun x y hx hreached hxy hy => ?_
    have hy : y ∈ cut.ids := (h.mem_ids hg).2 (.inl hy)
    obtain ⟨c, hc, hway⟩ := mem_allSuccessors_iff.1 hxy
    by_cases hxb : x = b.id
    · rw [hxb] at hreached hc
      obtain rfl := Option.some.inj (hc.symm.trans h.block)
      rcases hway with hway | ⟨r, hrange, k, hk, hcov, rfl⟩
      · exact (hnew hreached).tail (mem_allSuccessors_iff.2 ⟨_, h.block?_second hg, .inl hway⟩) hy
      have hrange : r ∈ cut.ranges := h.ranges ▸ hrange
      -- the instruction is in one of the halves
      rw [h.instructions] at hk
      rcases List.mem_append.1 hk with hk | hk
      · exact hreached.tail (handler_mem_allSuccessors (h.block?_first hg) hrange hk hcov) hy
      · exact (hnew hreached).tail (handler_mem_allSuccessors (h.block?_second hg) hrange hk hcov) hy
    · have hxi : x ≠ i.address := by
        rintro rfl
        exact h.address_not_mem_ids hg (mem_ids_iff.2 ⟨c, hc⟩)
      refine hreached.tail (mem_allSuccessors_iff.2 ⟨c, (h.block?_of_ne hg hxb hxi).trans hc, ?_⟩) hy
      rwa [h.ranges]
  intro id hid
  rw [reversePostorder, Digraph.mem_reversePostorder_iff, h.entry]
  rcases (h.mem_ids hg).1 hid with hid | rfl
  · exact hold id hid
  · exact hnew (hold b.id (mem_ids_iff.2 ⟨b, h.block⟩))

end IsCut

/-- The reduction of jumps leaves only blocks to which control comes. -/
theorem allReachable_reduceJumps (g : FlowGraph) (inlineReturns : Bool) :
    (g.reduceJumps inlineReturns).AllReachable :=
  allReachable_removeUnreachable (FlowGraph.dropJumps
    (if inlineReturns then g.threadJumps.inlineReturns else g.threadJumps))

/-- The graph in which the loops of decoded code are found. -/
theorem Settles.arranged {pool : ConstantPool} {code : MethodCode} {inlineReturns : Bool} {h result : FlowGraph}
    {found : List Loop} (hcode : code.WellFormed)
    (hsettles : Settles pool ((ofCode code).reduceJumps inlineReturns) h found result) :
    h.Arranged code.length ∧ h.AllReachable :=
  hsettles.induction (P := fun g => g.Arranged code.length ∧ g.AllReachable)
    ⟨arranged_reduceJumps hcode inlineReturns, allReachable_reduceJumps _ inlineReturns⟩
    fun _ _ _ _ _ _ hcut hg => ⟨hcut.arranged hg.1, hcut.allReachable hg.1 hg.2⟩

end FlowGraph

end JvmDecompiler
