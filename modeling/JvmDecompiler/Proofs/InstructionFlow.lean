import JvmDecompiler.Proofs.BlockEnds

/-!
# The flow of instructions and the flow graph

Control goes from an instruction to the addresses that it branches to, and to the next instruction
unless it is a jump, a switch or the end of a method or a subroutine (`PlacedInstruction.LeadsTo`). The
flow graph of decoded code says the same of blocks: `FlowGraph.IsQuotient` says that the blocks are the
code cut into pieces, that control comes into a block at its first instruction only and leaves it at its
last only, and that a block has the edges that its last instruction has ways on.

Cutting is a recursion over the code, and so are the facts on groups: what they are put together to, and
where no leader is. All else follows from these and from the order of addresses, since an instruction is
told from all others by its address.
-/

namespace JvmDecompiler

/-- Whether control may go on with the instruction behind this one. It comes back there from a subroutine
that is called. -/
def Instruction.goesOn : Instruction → Bool
  | .goto _ | .switch .. | .return _ | .throw | .ret _ => false
  | _ => true

/-- Control may go from the instruction to an address without an exception. -/
def PlacedInstruction.LeadsTo (i : PlacedInstruction) (a : Address) : Prop :=
  a ∈ i.operation.branchTargets ∨ i.operation.goesOn = true ∧ a = i.next

/-- The code is cut into the blocks of the graph, and the edges of the graph are the ways that control
takes from the last instruction of one block to the first of another. -/
structure FlowGraph.IsQuotient (g : FlowGraph) (code : MethodCode) : Prop where
  /-- The blocks one after the other are the code. -/
  concat : g.blocks.flatMap (·.instructions) = code.instructions
  ordered : g.ids.Pairwise (· < ·)
  /-- A block is found by the address of its first instruction. -/
  named : ∀ b ∈ g.blocks, g.block? b.id = some b ∧ b.instructions.head?.map (·.address) = some b.id
  entry : code.instructions ≠ [] →
    ∃ b, g.block? g.entry = some b ∧ b.instructions.head? = code.instructions.head?
  /-- Only the last instruction ends a block. -/
  left : ∀ b ∈ g.blocks, ∀ i ∈ b.instructions.dropLast, i.operation.endsBlock = false
  /-- Only the first instruction is branched to. -/
  branches : ∀ b ∈ g.blocks, ∀ i ∈ b.instructions.tail, ∀ j ∈ code.instructions,
    i.address ∉ j.operation.branchTargets
  /-- Only the first instruction is a handler or one of the ends of a protected range. -/
  bounds : ∀ b ∈ g.blocks, ∀ i ∈ b.instructions.tail, ∀ r ∈ code.ranges,
    i.address ≠ r.handler ∧ i.address ≠ r.start ∧ i.address ≠ r.stop
  /-- A protected range contains a block or has nothing in common with it. -/
  ranges : ∀ r ∈ code.ranges, ∀ b ∈ g.blocks,
    (∀ i ∈ b.instructions, r.covers i.address = true) ∨
      ∀ i ∈ b.instructions, r.covers i.address = false
  /-- Control goes from one instruction to another inside a block, or along an edge. -/
  flow : ∀ i ∈ code.instructions, ∀ j ∈ code.instructions, i.LeadsTo j.address ↔
    (∃ b ∈ g.blocks, [i, j] <:+: b.instructions) ∨
    ∃ b ∈ g.blocks, ∃ c ∈ g.blocks, b.instructions.getLast? = some i ∧
      c.instructions.head? = some j ∧ c.id ∈ g.successors b.id
  /-- The edge that leads to no block is the one behind the end of the code. -/
  out : ∀ b ∈ g.blocks, ∀ t, t ∈ g.successors b.id ∧ t ∉ g.ids ↔
    t = code.length ∧ ∃ last, b.instructions.getLast? = some last ∧
      code.instructions.getLast? = some last ∧ last.operation.goesOn = true

/-! ## Instructions and terminators -/

theorem Instruction.goesOn_of_endsBlock {i : Instruction} (h : i.endsBlock = false) :
    i.goesOn = true ∧ i.branchTargets = [] := by
  cases i <;> first
    | exact ⟨rfl, rfl⟩
    | cases h

/-- Inside a block control goes on with the next instruction. -/
theorem PlacedInstruction.leadsTo_of_endsBlock {i : PlacedInstruction} {a : Address}
    (h : i.operation.endsBlock = false) : i.LeadsTo a ↔ a = i.next := by
  obtain ⟨hgoes, htargets⟩ := Instruction.goesOn_of_endsBlock h
  simp [LeadsTo, hgoes, htargets]

/-- The ways on from a block are those of its last instruction. -/
theorem Terminator.mem_successors_ofInstruction {i : PlacedInstruction} {a : Address} :
    a ∈ (Terminator.ofInstruction i).successors ↔ i.LeadsTo a := by
  unfold ofInstruction PlacedInstruction.LeadsTo
  cases i.operation with
  | ifCompare op onReferences target =>
    cases onReferences <;>
      simp [successors, Instruction.branchTargets, Instruction.goesOn, or_comm]
  | _ => simp [successors, Instruction.branchTargets, Instruction.goesOn, or_comm]

/-! ## Instructions one behind the other -/

namespace Tiles

variable {start stop : Address} {instructions : List PlacedInstruction} {i j : PlacedInstruction}

/-- The instructions are in the order of their addresses. -/
theorem pairwise_address (h : Tiles start instructions stop) :
    instructions.Pairwise (·.address < ·.address) ∧
      ∀ i ∈ instructions, start ≤ i.address ∧ i.address < stop := by
  induction instructions generalizing start with
  | nil => simp
  | cons i rest ih =>
    obtain ⟨hstart, hlt, -⟩ := h.bounds
    obtain ⟨-, hpos, hrest⟩ := h
    obtain ⟨hsorted, hbounds⟩ := ih hrest
    have hnext : i.address < i.next := Nat.lt_add_of_pos_right hpos
    refine ⟨List.pairwise_cons.2 ⟨fun j hj => Nat.lt_of_lt_of_le hnext (hbounds j hj).1, hsorted⟩, ?_⟩
    refine List.forall_mem_cons.2 ⟨⟨Nat.le_of_eq hstart.symm, hstart ▸ hlt⟩, fun j hj => ?_⟩
    exact ⟨hstart ▸ Nat.le_trans (Nat.le_of_lt hnext) (hbounds j hj).1, (hbounds j hj).2⟩

/-- An instruction is told from all others by its address. -/
theorem eq_of_address (h : Tiles start instructions stop) (hi : i ∈ instructions)
    (hj : j ∈ instructions) (ha : i.address = j.address) : i = j :=
  List.inj_on_of_nodup_map (List.pairwise_map.2 (h.pairwise_address.1.imp Nat.ne_of_lt)) hi hj ha

/-- An instruction starts where the one in front of it ends. -/
theorem address_eq_next (h : Tiles start instructions stop) (hij : [i, j] <:+: instructions) :
    j.address = i.next := by
  induction instructions generalizing start with
  | nil => simp at hij
  | cons k rest ih =>
    obtain ⟨-, -, hrest⟩ := h
    rcases List.infix_cons_iff.1 hij with hfront | hpiece
    · obtain ⟨rfl, tail, rfl⟩ := List.cons_prefix_cons.1 hfront
      exact hrest.1
    · exact ih hrest hpiece

/-- Only the last instruction ends where the code does. -/
theorem next_eq_iff (h : Tiles start instructions stop) (hi : i ∈ instructions) :
    i.next = stop ↔ instructions.getLast? = some i := by
  induction instructions generalizing start with
  | nil => cases hi
  | cons k rest ih =>
    obtain ⟨-, hpos, hrest⟩ := h
    cases rest with
    | nil =>
      obtain rfl := List.mem_singleton.1 hi
      exact ⟨fun _ => rfl, fun _ => hrest⟩
    | cons l rest =>
      have hlt := hrest.bounds.2.1
      rw [List.getLast?_cons_cons]
      rcases List.mem_cons.1 hi with rfl | hi
      · refine ⟨fun hstop => absurd hlt (hstop ▸ Nat.lt_irrefl _), fun hlast => ?_⟩
        -- the instruction would lie behind itself
        have hbehind := (hrest.pairwise_address.2 i (List.mem_of_getLast? hlast)).1
        exact absurd (Nat.lt_add_of_pos_right hpos) (Nat.not_lt_of_le hbehind)
      · exact ih hrest hi

end Tiles

namespace FlowGraph

/-! ## Groups between leaders -/

section Cut

variable {leaders : List Address}

/-- The groups one after the other are what is cut. -/
theorem flatten_cut (instructions : List PlacedInstruction) :
    (cut leaders instructions).flatten = instructions := by
  induction instructions with
  | nil => rfl
  | cons i rest ih =>
    cases rest with
    | nil => rfl
    | cons j rest =>
      obtain ⟨tail, groups, hcut⟩ := @exists_cut_cons leaders j rest
      rw [hcut] at ih
      rw [cut_cons_cons hcut]
      split
      · exact congrArg (i :: ·) ih
      · exact congrArg (i :: ·) ih

/-- In a group, only the first instruction is a leader. -/
theorem not_mem_leaders_of_mem_tail_cut {instructions group : List PlacedInstruction}
    (hg : group ∈ cut leaders instructions) : ∀ i ∈ group.tail, i.address ∉ leaders := by
  -- along the instructions: `j` joins the group in front of it only if it is no leader
  induction instructions generalizing group with
  | nil => cases hg
  | cons i rest ih =>
    cases rest with
    | nil =>
      obtain rfl : group = [i] := by simpa [cut] using hg
      simp
    | cons j rest =>
      obtain ⟨tail, groups, hcut⟩ := @exists_cut_cons leaders j rest
      rw [hcut] at ih
      rw [cut_cons_cons hcut] at hg
      split at hg
      · rcases List.mem_cons.1 hg with rfl | hg
        · simp
        · exact ih hg
      · rename_i hj
        rcases List.mem_cons.1 hg with rfl | hg
        · exact List.forall_mem_cons.2 ⟨by simpa using hj, ih List.mem_cons_self⟩
        · exact ih (List.mem_cons_of_mem _ hg)

/-- A block has the instructions of the group that it stands for, and the address of the first of
them. -/
theorem of_blockOf? {group : List PlacedInstruction} {b : Block} (h : blockOf? group = some b) :
    b.instructions = group ∧ group.head?.map (·.address) = some b.id ∧
      ∃ last, group.getLast? = some last ∧ b.terminator = .ofInstruction last := by
  unfold blockOf? at h
  split at h
  · rename_i first last hfirst hlast
    cases h
    exact ⟨rfl, by rw [hfirst]; rfl, last, hlast, rfl⟩
  · cases h

/-- Every group becomes a block. -/
theorem flatMap_filterMap_blockOf? (groups : List (List PlacedInstruction)) :
    (groups.filterMap blockOf?).flatMap (·.instructions) = groups.flatten := by
  induction groups with
  | nil => rfl
  | cons group groups ih =>
    rw [List.filterMap_cons]
    cases hb : blockOf? group with
    | none =>
      have hnil : group = [] := by
        cases group with
        | nil => rfl
        | cons i rest => simp [blockOf?, List.getLast?_cons] at hb
      simpa [hnil] using ih
    | some b => simp [ih, (of_blockOf? hb).1]

end Cut

variable {code : MethodCode} {b : Block} {i j : PlacedInstruction}

/-! ## The blocks of decoded code -/

/-- A block of the flow graph stands for a group between leaders. -/
theorem of_mem_blocks_ofCode (hb : b ∈ (ofCode code).blocks) :
    b.instructions ∈ cut (leaders code) code.instructions ∧
      b.instructions.head?.map (·.address) = some b.id ∧
        ∃ last, b.instructions.getLast? = some last ∧ b.terminator = .ofInstruction last := by
  obtain ⟨group, hgroup, hblock⟩ := List.mem_filterMap.1 hb
  obtain ⟨rfl, hhead, hlast⟩ := of_blockOf? hblock
  exact ⟨hgroup, hhead, hlast⟩

theorem flatMap_instructions_ofCode (code : MethodCode) :
    (ofCode code).blocks.flatMap (·.instructions) = code.instructions :=
  (flatMap_filterMap_blockOf? _).trans (flatten_cut _)

/-- An instruction of the code is in a block. -/
theorem exists_block_of_mem (hi : i ∈ code.instructions) :
    ∃ b ∈ (ofCode code).blocks, i ∈ b.instructions := by
  rw [← flatMap_instructions_ofCode code] at hi
  exact List.mem_flatMap.1 hi

/-- A block is a piece of the code. -/
theorem infix_of_mem_blocks (hb : b ∈ (ofCode code).blocks) : b.instructions <:+: code.instructions := by
  obtain ⟨before, after, heq⟩ := List.append_of_mem hb
  refine ⟨before.flatMap (·.instructions), after.flatMap (·.instructions), ?_⟩
  rw [← flatMap_instructions_ofCode code, heq]
  simp

/-- A block starts at its first instruction. -/
theorem exists_head_of_mem_blocks (hb : b ∈ (ofCode code).blocks) :
    ∃ i tail, b.instructions = i :: tail ∧ i.address = b.id := by
  obtain ⟨i, hi, haddress⟩ := Option.map_eq_some_iff.1 (of_mem_blocks_ofCode hb).2.1
  obtain ⟨tail, htail⟩ := List.head?_eq_some_iff.1 hi
  exact ⟨i, tail, htail, haddress⟩

/-- No leader lies between the start of a block and one of its instructions. -/
theorem le_address_iff_of_leader (h : code.WellFormed) (hb : b ∈ (ofCode code).blocks)
    (hi : i ∈ b.instructions) {a : Address} (hs : a ∈ code.starts) (hl : a ∈ leaders code) :
    a ≤ i.address ↔ a ≤ b.id := by
  obtain ⟨k, tail, hinstructions, hid⟩ := exists_head_of_mem_blocks hb
  obtain ⟨before, after, hcode⟩ := infix_of_mem_blocks hb
  obtain ⟨m, hm, rfl⟩ := List.mem_map.1 hs
  have hsorted := h.tiles.pairwise_address.1
  rw [← hcode, List.pairwise_append, List.pairwise_append] at hsorted
  obtain ⟨⟨-, hinside, hfront⟩, -, hback⟩ := hsorted
  have hle : b.id ≤ i.address := by
    rw [hinstructions] at hi hinside
    rcases List.mem_cons.1 hi with rfl | hi
    · exact Nat.le_of_eq hid.symm
    · exact hid ▸ Nat.le_of_lt ((List.pairwise_cons.1 hinside).1 i hi)
  refine ⟨fun hmi => Nat.le_of_not_lt fun hlt => ?_, fun hmb => Nat.le_trans hmb hle⟩
  -- an instruction behind the start and not behind `i` is in the block, and not its first one
  have hmem : m ∈ b.instructions := by
    rw [← hcode, List.mem_append, List.mem_append] at hm
    rcases hm with (hm | hm) | hm
    · have hmk : m.address < k.address := hfront m hm k (hinstructions ▸ List.mem_cons_self)
      exact absurd (hid ▸ hmk) (Nat.lt_asymm hlt)
    · exact hm
    · have him : i.address < m.address := hback i (List.mem_append_right _ hi) m hm
      exact absurd him (Nat.not_lt_of_le hmi)
  have htail : m ∈ b.instructions.tail := by
    rw [hinstructions] at hmem ⊢
    rcases List.mem_cons.1 hmem with rfl | hmem
    · exact absurd hid (Nat.ne_of_gt hlt)
    · exact hmem
  exact not_mem_leaders_of_mem_tail_cut (of_mem_blocks_ofCode hb).1 m htail hl

/-- A protected range covers an instruction if it covers the start of the block. -/
theorem covers_iff_covers_id (h : code.WellFormed) {r : ProtectedRange} (hr : r ∈ code.ranges)
    (hfits : r.Fits code.starts code.length) (hb : b ∈ (ofCode code).blocks)
    (hi : i ∈ b.instructions) : r.covers i.address = r.covers b.id := by
  have hleader : ∀ a ∈ [r.handler, r.start, r.stop], a ∈ leaders code := fun a ha =>
    List.mem_append_left _ (List.mem_cons_of_mem _ (List.mem_flatMap.2 ⟨r, hr, ha⟩))
  have hstart : r.start ≤ i.address ↔ r.start ≤ b.id :=
    le_address_iff_of_leader h hb hi hfits.start (hleader _ (by simp))
  have hstop : i.address < r.stop ↔ b.id < r.stop := by
    rcases hfits.stop with hs | hs
    · have hle := le_address_iff_of_leader h hb hi hs (hleader _ (by simp))
      simpa only [Nat.not_le] using not_congr hle
    · have hi := (h.tiles.pairwise_address.2 i ((infix_of_mem_blocks hb).subset hi)).2
      have hid := (wellFormed_ofCode h).bounded b.id (mem_ids hb)
      exact hs ▸ ⟨fun _ => hid, fun _ => hi⟩
  simp only [ProtectedRange.covers, hstart, hstop]

/-! ## Ways on and edges -/

/-- The edges of a block are the ways on from its last instruction. -/
theorem mem_successors_iff (h : code.WellFormed) (hb : b ∈ (ofCode code).blocks)
    (hi : b.instructions.getLast? = some i) {a : Address} :
    a ∈ (ofCode code).successors b.id ↔ i.LeadsTo a := by
  obtain ⟨-, -, last, hlast, hterm⟩ := of_mem_blocks_ofCode hb
  obtain rfl : last = i := Option.some.inj (hlast.symm.trans hi)
  rw [successors, block?_eq_some (wellFormed_ofCode h).sorted hb]
  show a ∈ b.terminator.successors ↔ _
  rw [hterm, Terminator.mem_successors_ofInstruction]

/-- Inside a block control goes on with the next instruction, and nowhere else. -/
theorem leadsTo_iff_of_dropLast (h : code.WellFormed) (hb : b ∈ (ofCode code).blocks)
    (hi : i ∈ b.instructions.dropLast) {a : Address} : i.LeadsTo a ↔ a = i.next :=
  PlacedInstruction.leadsTo_of_endsBlock ((sealed_ofCode h b hb).inner i hi)

/-- An instruction is the last one of its block, or another one of the block follows. -/
theorem getLast?_or_exists_next {instructions : List PlacedInstruction} (hi : i ∈ instructions) :
    instructions.getLast? = some i ∨ i ∈ instructions.dropLast ∧ ∃ k, [i, k] <:+: instructions := by
  obtain ⟨before, after, rfl⟩ := List.append_of_mem hi
  cases after with
  | nil => exact .inl (by simp)
  | cons k after =>
    refine .inr ⟨?_, k, before, after, by simp⟩
    rw [List.dropLast_append_of_ne_nil (List.cons_ne_nil _ _), List.dropLast_cons_cons]
    simp

/-- Control goes from one instruction of the code to another inside a block, or along an edge. -/
theorem leadsTo_iff (h : code.WellFormed) (hi : i ∈ code.instructions) (hj : j ∈ code.instructions) :
    i.LeadsTo j.address ↔
      (∃ b ∈ (ofCode code).blocks, [i, j] <:+: b.instructions) ∨
      ∃ b ∈ (ofCode code).blocks, ∃ c ∈ (ofCode code).blocks, b.instructions.getLast? = some i ∧
        c.instructions.head? = some j ∧ c.id ∈ (ofCode code).successors b.id := by
  constructor
  · intro hleads
    obtain ⟨b, hb, hib⟩ := exists_block_of_mem hi
    rcases getLast?_or_exists_next hib with hlast | ⟨hdrop, k, hik⟩
    · -- a way out of the block leads to the start of a block, and `j` is what starts there
      right
      have hedge := (mem_successors_iff h hb hlast).2 hleads
      have hlt := (h.tiles.pairwise_address.2 j hj).2
      have hwell := wellFormed_ofCode h
      have htarget : j.address ∈ (ofCode code).ids := by
        rw [successors, block?_eq_some hwell.sorted hb] at hedge
        exact ((hwell.blocks b hb).targets _ hedge).resolve_right (Nat.ne_of_lt hlt)
      obtain ⟨c, hc, hid⟩ := List.mem_map.1 htarget
      obtain ⟨m, tail, hinstructions, hm⟩ := exists_head_of_mem_blocks hc
      have hmem : m ∈ code.instructions :=
        (infix_of_mem_blocks hc).subset (hinstructions ▸ List.mem_cons_self)
      obtain rfl : m = j := h.tiles.eq_of_address hmem hj (hm.trans hid)
      exact ⟨b, hb, c, hc, hlast, by rw [hinstructions]; rfl, hid.symm ▸ hedge⟩
    · left
      have hnext := (leadsTo_iff_of_dropLast h hb hdrop).1 hleads
      have hpiece := hik.trans (infix_of_mem_blocks hb)
      have hk : k ∈ code.instructions := hpiece.subset (by simp)
      obtain rfl : k = j :=
        h.tiles.eq_of_address hk hj ((h.tiles.address_eq_next hpiece).trans hnext.symm)
      exact ⟨b, hb, hik⟩
  -- and back: in a block control goes on to the next instruction, at its end along an edge
  · rintro (⟨b, hb, hpiece⟩ | ⟨b, hb, c, hc, hlast, hhead, hedge⟩)
    · obtain ⟨before, after, hinstructions⟩ := id hpiece
      have hdrop : i ∈ b.instructions.dropLast := by
        rw [← hinstructions, List.append_assoc,
          List.dropLast_append_of_ne_nil (by simp)]
        simp [List.dropLast_cons_cons]
      exact (leadsTo_iff_of_dropLast h hb hdrop).2
        (h.tiles.address_eq_next (hpiece.trans (infix_of_mem_blocks hb)))
    · obtain ⟨m, tail, hinstructions, hm⟩ := exists_head_of_mem_blocks hc
      obtain rfl : m = j := by simpa [hinstructions] using hhead
      exact (mem_successors_iff h hb hlast).1 (hm ▸ hedge)

/-- The edge that leads to no block is the one behind the end of the code. -/
theorem mem_successors_not_mem_ids_iff (h : code.WellFormed) (hb : b ∈ (ofCode code).blocks)
    {t : Address} :
    t ∈ (ofCode code).successors b.id ∧ t ∉ (ofCode code).ids ↔
      t = code.length ∧ ∃ last, b.instructions.getLast? = some last ∧
        code.instructions.getLast? = some last ∧ last.operation.goesOn = true := by
  have hwell := wellFormed_ofCode h
  obtain ⟨-, -, last, hlast, -⟩ := of_mem_blocks_ofCode hb
  have hmem : last ∈ code.instructions :=
    (infix_of_mem_blocks hb).subset (List.mem_of_getLast? hlast)
  constructor
  · rintro ⟨hedge, hout⟩
    have hstop : t = code.length := by
      have ht := hedge
      rw [successors, block?_eq_some hwell.sorted hb] at ht
      exact ((hwell.blocks b hb).targets t ht).resolve_left hout
    rcases (mem_successors_iff h hb hlast).1 hedge with htarget | ⟨hgoes, hnext⟩
    · -- branches lead to instructions, and none starts where the code ends
      obtain ⟨k, hk, hkt⟩ := List.mem_map.1 (h.targets last hmem t htarget)
      exact absurd (hkt.trans hstop) (Nat.ne_of_lt (h.tiles.pairwise_address.2 k hk).2)
    · exact ⟨hstop, last, hlast, (h.tiles.next_eq_iff hmem).1 (hnext.symm.trans hstop), hgoes⟩
  · rintro ⟨rfl, i, hi, hend, hgoes⟩
    refine ⟨(mem_successors_iff h hb hi).2 (.inr ⟨hgoes, ?_⟩), fun hid => ?_⟩
    · exact ((h.tiles.next_eq_iff (List.mem_of_getLast? hend)).2 hend).symm
    · exact Nat.lt_irrefl _ (hwell.bounded _ hid)

/-- The first block of the code is the entry. -/
theorem exists_entry_ofCode (h : code.WellFormed) (hne : code.instructions ≠ []) :
    ∃ b, (ofCode code).block? (ofCode code).entry = some b ∧
      b.instructions.head? = code.instructions.head? := by
  obtain ⟨i, rest, hcode⟩ := List.exists_cons_of_ne_nil hne
  have hstart : i.address = 0 := (hcode ▸ h.tiles).1
  obtain ⟨b, hb, hid⟩ := List.mem_map.1 (@mem_ids_ofCode code 0
    (List.mem_map.2 ⟨i, hcode ▸ List.mem_cons_self, hstart⟩) List.mem_cons_self)
  obtain ⟨m, tail, hinstructions, hm⟩ := exists_head_of_mem_blocks hb
  have hmem : m ∈ code.instructions :=
    (infix_of_mem_blocks hb).subset (hinstructions ▸ List.mem_cons_self)
  obtain rfl : m = i := h.tiles.eq_of_address hmem (hcode ▸ List.mem_cons_self)
    (hm.trans (hid.trans hstart.symm))
  refine ⟨b, ?_, by rw [hinstructions, hcode]; rfl⟩
  have hblock := block?_eq_some (wellFormed_ofCode h).sorted hb
  rwa [hid] at hblock

end FlowGraph

/-- The flow graph of decoded code is the code, cut into blocks, with the ways that control takes between
them. -/
theorem MethodCode.isQuotient_ofCode {pool : ConstantPool} {attr : CodeAttribute} {code : MethodCode}
    (h : MethodCode.decode pool attr = .ok code) : (FlowGraph.ofCode code).IsQuotient code := by
  have hcode := MethodCode.wellFormed_of_decode h
  have hfits := MethodCode.fits_of_decode h
  have hwell := FlowGraph.wellFormed_ofCode hcode
  have hinner : ∀ b ∈ (FlowGraph.ofCode code).blocks, ∀ i ∈ b.instructions.tail,
      i.address ∉ FlowGraph.leaders code := fun b hb =>
    FlowGraph.not_mem_leaders_of_mem_tail_cut (FlowGraph.of_mem_blocks_ofCode hb).1
  -- each field of a quotient, with the three that need an argument of their own below
  refine
    { concat := FlowGraph.flatMap_instructions_ofCode code
      ordered := hwell.sorted
      named := fun b hb => ⟨FlowGraph.block?_eq_some hwell.sorted hb,
        (FlowGraph.of_mem_blocks_ofCode hb).2.1⟩
      entry := FlowGraph.exists_entry_ofCode hcode
      left := fun b hb => (FlowGraph.sealed_ofCode hcode b hb).inner
      branches := fun b hb i hi j hj htarget => hinner b hb i hi ?branch
      bounds := fun b hb i hi r hr => ?bounds
      ranges := fun r hr b hb => ?ranges
      flow := fun i hi j hj => FlowGraph.leadsTo_iff hcode hi hj
      out := fun b hb t => FlowGraph.mem_successors_not_mem_ids_iff hcode hb }
  case branch =>
    exact List.mem_append_right _
      (List.mem_flatMap.2 ⟨j, hj, List.mem_append_left _ htarget⟩)
  case bounds =>
    have hleader : ∀ a ∈ [r.handler, r.start, r.stop], i.address ≠ a := by
      rintro a ha rfl
      exact hinner b hb i hi (List.mem_append_left _ (List.mem_cons_of_mem _
        (List.mem_flatMap.2 ⟨r, hr, ha⟩)))
    exact ⟨hleader _ (by simp), hleader _ (by simp), hleader _ (by simp)⟩
  case ranges =>
    have hcovers : ∀ i ∈ b.instructions, r.covers i.address = r.covers b.id := fun i hi =>
      FlowGraph.covers_iff_covers_id hcode hr (hfits r hr) hb hi
    cases hid : r.covers b.id with
    | true => exact .inl fun i hi => (hcovers i hi).trans hid
    | false => exact .inr fun i hi => (hcovers i hi).trans hid

/-- A loop that tests first, and a range around its body whose handler is behind the loop. -/
def guardedLoop : CodeAttribute :=
  ⟨1, 2, [0x1A, 0x99, 0x00, 0x09, 0x84, 0x01, 0x01, 0xA7, 0xFF, 0xF9, 0xB1], [⟨4, 10, 10, 0⟩], []⟩

theorem MethodCode.isQuotient_ofCode_guardedLoop :
    ∃ code, MethodCode.decode .empty guardedLoop = .ok code ∧
      (FlowGraph.ofCode code).ids = [0, 4, 10] ∧ (FlowGraph.ofCode code).IsQuotient code := by
  have hdecode : ∃ code, MethodCode.decode .empty guardedLoop = .ok code ∧
      (FlowGraph.ofCode code).ids = [0, 4, 10] := ⟨_, rfl, rfl⟩
  obtain ⟨code, hcode, hids⟩ := hdecode
  exact ⟨code, hcode, hids, MethodCode.isQuotient_ofCode hcode⟩

end JvmDecompiler
