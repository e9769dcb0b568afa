import JvmDecompiler.FlowGraph.Build
import JvmDecompiler.Proofs.Decoding
import Mathlib.Data.List.Nodup

/-!
# The shape of flow graphs

`FlowGraph.WellFormed` says what holds of the flow graph of decoded code from its construction through
all reductions: blocks are in the order of their addresses, control goes to blocks of the graph or to
the end of the code, it falls through downwards only, a block that ends in a jump has a jump as its last
instruction, and the handlers of the instructions of a block are blocks.
-/

namespace JvmDecompiler

/-- A block that fits into a flow graph of code that ends at `stop`. -/
structure Block.Fits (b : Block) (g : FlowGraph) (stop : Address) : Prop where
  targets : ∀ t ∈ b.terminator.successors, t ∈ g.ids ∨ t = stop
  downward : ∀ t, b.terminator = .fallThrough t → b.id < t
  jumps : ∀ t, b.terminator = .goto t →
    ∃ last u, b.instructions.getLast? = some last ∧ last.operation = .goto u
  handlers : ∀ r ∈ g.ranges, ∀ i ∈ b.instructions, r.covers i.address = true → r.handler ∈ g.ids

namespace FlowGraph

/-- A flow graph of code that ends at `stop`. -/
structure WellFormed (g : FlowGraph) (stop : Address) : Prop where
  sorted : g.ids.Pairwise (· < ·)
  bounded : ∀ id ∈ g.ids, id < stop
  entry : g.blocks ≠ [] → g.entry ∈ g.ids
  blocks : ∀ b ∈ g.blocks, b.Fits g stop

variable {g : FlowGraph} {id : BlockId} {b : Block}

theorem mem_of_block? (h : g.block? id = some b) : b ∈ g.blocks := List.mem_of_find?_eq_some h

theorem id_of_block? (h : g.block? id = some b) : b.id = id := by
  simpa using List.find?_some h

theorem mem_ids_iff : id ∈ g.ids ↔ ∃ b, g.block? id = some b := by
  rw [← Option.isSome_iff_exists, block?, List.find?_isSome]
  simp only [ids, List.mem_map, decide_eq_true_eq]

theorem mem_ids (h : b ∈ g.blocks) : b.id ∈ g.ids := List.mem_map_of_mem h

/-- Blocks that are in the order of their names are found by their names. -/
theorem block?_eq_some (hs : g.ids.Pairwise (· < ·)) (hb : b ∈ g.blocks) : g.block? b.id = some b := by
  obtain ⟨c, hc⟩ := mem_ids_iff.1 (mem_ids hb)
  have hnd : (g.blocks.map (·.id)).Nodup := hs.imp Nat.ne_of_lt
  have heq : c = b := List.inj_on_of_nodup_map hnd (mem_of_block? hc) hb (id_of_block? hc)
  exact heq ▸ hc

/-- An edge of a well-formed graph leads to a block or to the end of the code. -/
theorem WellFormed.target_of_mem_edges {stop : Address} (h : g.WellFormed stop) {e : Edge}
    (he : e ∈ g.edges) : e.target ∈ g.ids ∨ e.target = stop := by
  obtain ⟨b, hb, he⟩ := List.mem_flatMap.1 he
  have hfits := h.blocks b hb
  rcases List.mem_append.1 he with he | he
  · refine hfits.targets _ ?_
    revert he
    unfold terminatorEdges Terminator.successors
    cases b.terminator <;> simp <;> grind
  · obtain ⟨x, hx, rfl⟩ := List.mem_map.1 he
    rw [exceptionSuccessors, block?_eq_some h.sorted hb] at hx
    simp only [sortedSet, List.mem_mergeSort, List.mem_eraseDups, List.mem_map, List.mem_filter,
      List.any_eq_true] at hx
    obtain ⟨r, ⟨hr, i, hi, hcov⟩, rfl⟩ := hx
    exact .inl (hfits.handlers r hr i hi hcov)

end FlowGraph

/-! ## Terminators -/

/-- A block ends where its last instruction branches to, or at the next instruction. -/
theorem Terminator.mem_targets_of_mem_successors {last : PlacedInstruction} {t : Address}
    (h : t ∈ (Terminator.ofInstruction last).successors) :
    t ∈ last.operation.branchTargets ∨ t = last.next := by
  revert h
  unfold Terminator.ofInstruction
  split <;> rename_i heq <;>
    simp only [Terminator.successors, List.mem_eraseDups, heq, Instruction.branchTargets] <;> simp <;>
    grind

/-- Only at an instruction that does not branch does control fall through to the next one. -/
theorem Terminator.eq_next_of_fallThrough {last : PlacedInstruction} {t : Address}
    (h : Terminator.ofInstruction last = .fallThrough t) : t = last.next := by
  revert h
  unfold Terminator.ofInstruction
  split <;> simp +contextual [eq_comm]

/-- A block that ends in a jump has a jump as its last instruction. -/
theorem Terminator.operation_of_goto {last : PlacedInstruction} {t : Address}
    (h : Terminator.ofInstruction last = .goto t) : last.operation = .goto t := by
  revert h
  unfold Terminator.ofInstruction
  split <;> simp_all

/-! ## Groups of instructions -/

/-- Instructions that lie one behind the other start at their first one and end behind their last. -/
theorem Tiles.bounds {start stop : Address} {i : PlacedInstruction} {rest : List PlacedInstruction}
    (h : Tiles start (i :: rest) stop) :
    i.address = start ∧ start < stop ∧ ∃ last, (i :: rest).getLast? = some last ∧ last.next = stop := by
  induction rest generalizing i start with
  | nil =>
    obtain ⟨rfl, hpos, rfl⟩ := h
    exact ⟨rfl, Nat.lt_add_of_pos_right hpos, i, rfl, rfl⟩
  | cons j rest ih =>
    obtain ⟨rfl, hpos, hrest⟩ := h
    obtain ⟨-, hlt, last, hlast, hnext⟩ := ih hrest
    have hnext_lt : i.address < i.next := Nat.lt_add_of_pos_right hpos
    exact ⟨rfl, Nat.lt_trans hnext_lt hlt, last, by rw [List.getLast?_cons_cons, hlast], hnext⟩

namespace FlowGraph

section Cut

variable {leaders : List Address}

/-- An instruction in front of others starts a group of its own exactly if the next one is a leader. -/
theorem cut_cons_cons {i j : PlacedInstruction} {rest group : List PlacedInstruction}
    {groups : List (List PlacedInstruction)} (h : cut leaders (j :: rest) = group :: groups) :
    cut leaders (i :: j :: rest) =
      if leaders.contains j.address then [i] :: group :: groups else (i :: group) :: groups := by
  conv_lhs => unfold cut
  simp only [h]

/-- A group starts at the first instruction. -/
theorem exists_cut_cons (i : PlacedInstruction) (rest : List PlacedInstruction) :
    ∃ tail groups, cut leaders (i :: rest) = (i :: tail) :: groups := by
  induction rest generalizing i with
  | nil => exact ⟨[], [], rfl⟩
  | cons j rest ih =>
    obtain ⟨tail, groups, hcut⟩ := ih j
    rw [cut_cons_cons hcut]
    split
    · exact ⟨[], _, rfl⟩
    · exact ⟨_, _, rfl⟩

/-- A group starts at every leader. -/
theorem exists_mem_cut_of_leader {i j : PlacedInstruction} {rest : List PlacedInstruction}
    (hj : j ∈ rest) (hl : j.address ∈ leaders) : ∃ tail, (j :: tail) ∈ cut leaders (i :: rest) := by
  -- `cut` starts a group at every leader, so that the one of `j` starts when `j` is met
  induction rest generalizing i with
  | nil => cases hj
  | cons k rest ih =>
    obtain ⟨tail, groups, hcut⟩ := @exists_cut_cons leaders k rest
    rw [cut_cons_cons hcut]
    rcases List.mem_cons.1 hj with rfl | hj
    · have hcontains : leaders.contains j.address = true := by simpa using hl
      rw [if_pos hcontains]
      exact ⟨tail, by simp⟩
    · obtain ⟨tail', ht⟩ := @ih k hj
      rw [hcut] at ht
      split
      · exact ⟨tail', List.mem_cons_of_mem _ ht⟩
      · rename_i hk
        rcases List.mem_cons.1 ht with he | ht
        · cases he
          exact absurd hl (by simpa using hk)
        · exact ⟨tail', List.mem_cons_of_mem _ ht⟩

/-- Nonempty groups of instructions that lie one behind the other. -/
def TilesInGroups : (start : Address) → List (List PlacedInstruction) → (stop : Address) → Prop
  | start, [], stop => start = stop
  | start, group :: groups, stop =>
    group ≠ [] ∧ ∃ mid, Tiles start group mid ∧ TilesInGroups mid groups stop

theorem tilesInGroups_cut {start stop : Address} {instructions : List PlacedInstruction}
    (h : Tiles start instructions stop) : TilesInGroups start (cut leaders instructions) stop := by
  induction instructions generalizing start with
  | nil => exact h
  | cons i rest ih =>
    obtain ⟨hstart, hpos, hrest⟩ := h
    have hgroups := ih hrest
    have hone : Tiles start [i] i.next := ⟨hstart, hpos, rfl⟩
    cases rest with
    | nil => exact ⟨List.cons_ne_nil _ _, i.next, hone, hrest⟩
    | cons j rest =>
      obtain ⟨tail, groups, hcut⟩ := @exists_cut_cons leaders j rest
      rw [hcut] at hgroups
      rw [cut_cons_cons hcut]
      split
      · exact ⟨List.cons_ne_nil _ _, i.next, hone, hgroups⟩
      · obtain ⟨-, mid, hgroup, htail⟩ := hgroups
        exact ⟨List.cons_ne_nil _ _, mid, ⟨hstart, hpos, hgroup⟩, htail⟩

/-- What a block is that stands for a group of instructions from `start` to `stop`. -/
structure IsBlockOf (start : Address) (group : List PlacedInstruction) (stop : Address) (b : Block) :
    Prop where
  id : b.id = start
  lt : start < stop
  instructions : b.instructions = group
  last : ∃ last, group.getLast? = some last ∧ last.next = stop ∧
    b.terminator = .ofInstruction last

theorem exists_isBlockOf {start stop : Address} {group : List PlacedInstruction} (hne : group ≠ [])
    (h : Tiles start group stop) : ∃ b, blockOf? group = some b ∧ IsBlockOf start group stop b := by
  cases group with
  | nil => exact absurd rfl hne
  | cons i rest =>
    obtain ⟨hstart, hlt, last, hlast, hnext⟩ := h.bounds
    refine ⟨⟨i.address, i :: rest, .ofInstruction last⟩, ?_, hstart, hlt, rfl, last, hlast, hnext, rfl⟩
    simp [blockOf?, hlast]

/-- The blocks of groups: they are in order, and each ends where the next one starts. -/
theorem blocks_of_tilesInGroups {start stop : Address} {groups : List (List PlacedInstruction)}
    (h : TilesInGroups start groups stop) :
    (∀ b ∈ groups.filterMap blockOf?, start ≤ b.id ∧ b.id < stop) ∧
    ((groups.filterMap blockOf?).map (·.id)).Pairwise (· < ·) ∧
    ((groups.filterMap blockOf?).head?.map (·.id) = some start ∨ start = stop) ∧
    ∀ b ∈ groups.filterMap blockOf?, ∃ group ∈ groups, ∃ mid, IsBlockOf b.id group mid b ∧
      (mid ∈ (groups.filterMap blockOf?).map (·.id) ∨ mid = stop) := by
  -- the blocks of the other groups lie behind `mid`, where the first group ends
  induction groups generalizing start with
  | nil =>
    obtain rfl : start = stop := h
    simp
  | cons group groups ih =>
    obtain ⟨hne, mid, hgroup, hrest⟩ := h
    obtain ⟨b, hb, hblock⟩ := exists_isBlockOf hne hgroup
    obtain ⟨hbounds, hsorted, hhead, hends⟩ := ih hrest
    have hmid : mid ≤ stop := by
      rcases hhead with hh | rfl
      · obtain ⟨c, hc, rfl⟩ := Option.map_eq_some_iff.1 hh
        exact Nat.le_of_lt (hbounds c (List.mem_of_mem_head? hc)).2
      · exact Nat.le_refl _
    have hstart : start < mid := hblock.lt
    rw [List.filterMap_cons_some hb]
    refine ⟨?_, ?_, .inl (by simp [hblock.id]), ?_⟩
    · intro c hc
      rcases List.mem_cons.1 hc with rfl | hc
      · exact ⟨Nat.le_of_eq hblock.id.symm, hblock.id ▸ Nat.lt_of_lt_of_le hstart hmid⟩
      · have := hbounds c hc
        exact ⟨Nat.le_trans (Nat.le_of_lt hstart) this.1, this.2⟩
    · rw [List.map_cons, List.pairwise_cons]
      refine ⟨fun x hx => ?_, hsorted⟩
      obtain ⟨c, hc, rfl⟩ := List.mem_map.1 hx
      exact hblock.id ▸ Nat.lt_of_lt_of_le hstart (hbounds c hc).1
    · intro c hc
      rcases List.mem_cons.1 hc with rfl | hc
      · refine ⟨group, List.mem_cons_self, mid, hblock.id.symm ▸ hblock, ?_⟩
        rcases hhead with hh | rfl
        · obtain ⟨c', hc', rfl⟩ := Option.map_eq_some_iff.1 hh
          exact .inl (List.mem_map_of_mem (List.mem_cons_of_mem _ (List.mem_of_mem_head? hc')))
        · exact .inr rfl
      · obtain ⟨group', hg', mid', hb', hm'⟩ := hends c hc
        refine ⟨group', List.mem_cons_of_mem _ hg', mid', hb', ?_⟩
        rcases hm' with hm' | rfl
        · exact .inl (by rw [List.map_cons]; exact List.mem_cons_of_mem _ hm')
        · exact .inr rfl

theorem mem_of_mem_cut {instructions group : List PlacedInstruction} {i : PlacedInstruction}
    (hg : group ∈ cut leaders instructions) (hi : i ∈ group) : i ∈ instructions := by
  induction instructions generalizing group with
  | nil => cases hg
  | cons j rest ih =>
    cases rest with
    | nil =>
      obtain rfl : group = [j] := by simpa [cut] using hg
      exact hi
    | cons k rest =>
      obtain ⟨tail, groups, hcut⟩ := @exists_cut_cons leaders k rest
      rw [hcut] at ih
      rw [cut_cons_cons hcut] at hg
      split at hg
      · rcases List.mem_cons.1 hg with rfl | hg
        · obtain rfl : i = j := by simpa using hi
          exact List.mem_cons_self
        · exact List.mem_cons_of_mem _ (ih hg hi)
      · rcases List.mem_cons.1 hg with rfl | hg
        · rcases List.mem_cons.1 hi with rfl | hi
          · exact List.mem_cons_self
          · exact List.mem_cons_of_mem _ (ih List.mem_cons_self hi)
        · exact List.mem_cons_of_mem _ (ih (List.mem_cons_of_mem _ hg) hi)

end Cut

variable {code : MethodCode}

/-- A block starts at every leader that is the start of an instruction. -/
theorem mem_ids_ofCode {a : Address} (hs : a ∈ code.starts) (hl : a ∈ leaders code) :
    a ∈ (ofCode code).ids := by
  obtain ⟨j, hj, rfl⟩ := List.mem_map.1 hs
  have hgroup : ∃ tail, (j :: tail) ∈ cut (leaders code) code.instructions := by
    cases hcode : code.instructions with
    | nil => simp [hcode] at hj
    | cons i rest =>
      rw [hcode] at hj
      rcases List.mem_cons.1 hj with rfl | hj
      · obtain ⟨tail, groups, hcut⟩ := @exists_cut_cons (leaders code) j rest
        exact ⟨tail, hcut ▸ List.mem_cons_self⟩
      · exact exists_mem_cut_of_leader hj hl
  obtain ⟨tail, htail⟩ := hgroup
  obtain ⟨last, hlast⟩ : ∃ last, (j :: tail).getLast? = some last :=
    ⟨_, List.getLast?_eq_some_getLast (List.cons_ne_nil _ _)⟩
  have hblock : blockOf? (j :: tail) = some ⟨j.address, j :: tail, .ofInstruction last⟩ := by
    simp [blockOf?, hlast]
  exact List.mem_map_of_mem (f := Block.id) (List.mem_filterMap.2 ⟨_, htail, hblock⟩)

/-- Handlers in well-formed code are blocks of its flow graph. -/
theorem handler_mem_ids_ofCode (h : code.WellFormed) {r : ProtectedRange} (hr : r ∈ code.ranges) :
    r.handler ∈ (ofCode code).ids := by
  refine mem_ids_ofCode (h.handlers r hr) ?_
  refine List.mem_append_left _ (List.mem_cons_of_mem _ (List.mem_flatMap.2 ⟨r, hr, ?_⟩))
  exact List.mem_cons_self

/-- The flow graph of well-formed code is well formed. -/
theorem wellFormed_ofCode (h : code.WellFormed) : (ofCode code).WellFormed code.length := by
  obtain ⟨hbounds, hsorted, hhead, hends⟩ :=
    blocks_of_tilesInGroups (@tilesInGroups_cut (leaders code) _ _ _ h.tiles)
  refine ⟨hsorted, fun id hid => ?_, fun hne => ?_, fun b hb => ?_⟩
  · obtain ⟨b, hb, rfl⟩ := List.mem_map.1 hid
    exact (hbounds b hb).2
  · rcases hhead with hh | hstop
    · obtain ⟨c, hc, hid⟩ := Option.map_eq_some_iff.1 hh
      exact List.mem_map.2 ⟨c, List.mem_of_mem_head? hc, hid⟩
    · obtain ⟨b, hb⟩ := List.exists_mem_of_ne_nil _ hne
      have hb := hbounds b hb
      exact absurd (Nat.lt_of_le_of_lt hb.1 hb.2) (hstop ▸ Nat.lt_irrefl _)
  · obtain ⟨group, hgroup, mid, hblock, hmid⟩ := hends b hb
    obtain ⟨last, hlast, hnext, hterm⟩ := hblock.last
    refine ⟨fun t ht => ?_, fun t ht => ?_, fun t ht => ?_, fun r hr _ _ _ => ?_⟩
    · rw [hterm] at ht
      rcases Terminator.mem_targets_of_mem_successors ht with ht | rfl
      · have hi : last ∈ code.instructions := mem_of_mem_cut hgroup (List.mem_of_getLast? hlast)
        refine .inl (mem_ids_ofCode (h.targets last hi t ht) ?_)
        refine List.mem_append_right _ (List.mem_flatMap.2 ⟨last, hi, ?_⟩)
        exact List.mem_append_left _ ht
      · exact hnext ▸ hmid
    · rw [hterm] at ht
      rw [Terminator.eq_next_of_fallThrough ht, hnext]
      exact hblock.lt
    · rw [hterm] at ht
      exact ⟨last, t, hblock.instructions ▸ hlast, Terminator.operation_of_goto ht⟩
    · exact handler_mem_ids_ofCode h hr

end FlowGraph

end JvmDecompiler
