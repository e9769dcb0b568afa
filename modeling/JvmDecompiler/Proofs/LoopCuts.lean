import JvmDecompiler.Proofs.BlockOrder
import JvmDecompiler.Proofs.LoopParts

/-!
# Recognising loops only cuts blocks

The blocks of a graph are rows of instructions, and its edges lead from the last instruction of a block to
the first of another one, past blocks without instructions (`FlowGraph.ComesTo`). So the graph says which
instruction control can come to from which (`FlowGraph.Leads`).

A block that is cut has the same instructions in two rows, and control goes on from the first to the second
as it did inside the block; nothing else leads to the second (`IsCut.leads_iff`). Hence nothing but the rows
changes when loops are recognised (`MethodCode.reduceLoops_only_cuts`). When it is done again nothing
changes at all: in the last round nothing had to be cut, and what is recorded of jumps and loops has no
influence on what is found (`Settles.reduceLoops_result`).
-/

namespace JvmDecompiler

namespace FlowGraph

/-- The first instruction that control comes to at a block. Blocks without instructions are passed. -/
inductive ComesTo (g : FlowGraph) : BlockId → PlacedInstruction → Prop
  | first {id b i rest} (hb : g.block? id = some b) (hi : b.instructions = i :: rest) : ComesTo g id i
  | passed {id b t i} (hb : g.block? id = some b) (hempty : b.instructions = [])
    (ht : t ∈ b.terminator.successors) (h : ComesTo g t i) : ComesTo g id i

end FlowGraph

/-- Control goes from an instruction of the block to another instruction of the graph: to the next one in
the block, from the last one along an edge, or to a handler. -/
def Block.Leads (b : Block) (g : FlowGraph) (i j : PlacedInstruction) : Prop :=
  [i, j] <:+: b.instructions ∨
    (b.instructions.getLast? = some i ∧ ∃ t ∈ b.terminator.successors, g.ComesTo t j) ∨
    i ∈ b.instructions ∧ ∃ r ∈ g.ranges, r.covers i.address = true ∧ g.ComesTo r.handler j

/-- Control goes from one instruction of the graph to another one. -/
def FlowGraph.Leads (g : FlowGraph) (i j : PlacedInstruction) : Prop := ∃ b ∈ g.blocks, b.Leads g i j

/-- Neighbours in two rows are neighbours in one of them, or where they meet. -/
theorem infix_append_iff {α : Type} {a b : α} {l r : List α} : [a, b] <:+: l ++ r ↔
    [a, b] <:+: l ∨ (l.getLast? = some a ∧ r.head? = some b) ∨ [a, b] <:+: r := by
  induction l with
  | nil => simp
  | cons c l ih =>
    rw [List.cons_append, List.infix_cons_iff, ih, List.infix_cons_iff, List.cons_prefix_cons]
    cases l with
    | nil =>
      have hhead : [b] <+: r ↔ r.head? = some b := by
        cases r <;> simp [List.cons_prefix_cons, @eq_comm _ b]
      simp [hhead, @eq_comm _ a]
    | cons d l => simp [List.cons_prefix_cons, or_assoc]

namespace FlowGraph

variable {g cut : FlowGraph} {stop : Address}

/-! ## One cut -/

namespace IsCut

variable {b c : Block} {before after : List PlacedInstruction} {i x y : PlacedInstruction} {id : BlockId}
  (h : IsCut g cut b before i after) (hg : g.Arranged stop)

include h hg

/-- Nothing led to the place of the cut before. -/
theorem target_ne (hc : c ∈ g.blocks) {t : BlockId} (ht : t ∈ c.terminator.successors) : t ≠ i.address := by
  rintro rfl
  rcases (hg.wf.blocks c hc).targets _ ht with hmem | hstop
  · exact h.address_not_mem_ids hg hmem
  · refine Nat.ne_of_lt (hg.order.below b (mem_of_block? h.block) i.address ?_) hstop
    simp [Block.addresses, h.instructions]

/-- The place of the cut is no handler of an instruction. -/
theorem handler_ne (hc : c ∈ g.blocks) (hx : x ∈ c.instructions) {r : ProtectedRange} (hr : r ∈ g.ranges)
    (hcov : r.covers x.address = true) : r.handler ≠ i.address := fun heq =>
  h.address_not_mem_ids hg (heq ▸ (hg.wf.blocks c hc).handlers r hr x hx hcov)

/-- At the second half control comes to the instruction of the cut. -/
theorem comesTo_second : cut.ComesTo i.address y ↔ y = i := by
  constructor
  · rintro (⟨hb, hi⟩ | ⟨hb, hempty, -, -⟩)
    · rw [h.block?_second hg] at hb
      obtain rfl := Option.some.inj hb
      exact (List.cons.inj hi).1.symm
    · rw [h.block?_second hg] at hb
      obtain rfl := Option.some.inj hb
      cases hempty
  · rintro rfl
    exact .first (h.block?_second hg) rfl

/-- At all other blocks it comes to what it came to before. -/
theorem comesTo_of_comesTo_cut (hy : cut.ComesTo id y) (hid : id ≠ i.address) : g.ComesTo id y := by
  -- the first half has an instruction, so only blocks that are left as they are can be passed
  obtain ⟨j, rest, rfl, -⟩ := h.exists_before hg
  induction hy with
  | @first id c y tail hc hy =>
    by_cases hb : id = b.id
    · subst hb
      rw [h.block?_first hg] at hc
      obtain rfl := Option.some.inj hc
      obtain ⟨rfl, rfl⟩ := List.cons.inj hy
      exact .first h.block h.instructions
    · exact .first ((h.block?_of_ne hg hb hid).symm.trans hc) hy
  | @passed id c t y hc hempty ht _ ih =>
    have hb : id ≠ b.id := by
      rintro rfl
      rw [h.block?_first hg] at hc
      obtain rfl := Option.some.inj hc
      cases hempty
    have hc := (h.block?_of_ne hg hb hid).symm.trans hc
    exact .passed hc hempty ht (ih (h.target_ne hg (mem_of_block? hc) ht))

/-- What it came to before it comes to still. -/
theorem comesTo_cut_of_comesTo (hy : g.ComesTo id y) : cut.ComesTo id y := by
  obtain ⟨j, rest, rfl, -⟩ := h.exists_before hg
  have hne : ∀ {id c}, g.block? id = some c → id ≠ i.address := fun hc heq =>
    h.address_not_mem_ids hg (heq ▸ mem_ids_iff.2 ⟨_, hc⟩)
  induction hy with
  | @first id c y tail hc hy =>
    by_cases hb : id = b.id
    · subst hb
      obtain rfl := Option.some.inj (hc.symm.trans h.block)
      rw [h.instructions] at hy
      obtain ⟨rfl, -⟩ := List.cons.inj hy
      exact .first (h.block?_first hg) rfl
    · exact .first ((h.block?_of_ne hg hb (hne hc)).trans hc) hy
  | @passed id c t y hc hempty ht _ ih =>
    have hb : id ≠ b.id := by
      rintro rfl
      obtain rfl := Option.some.inj (hc.symm.trans h.block)
      rw [h.instructions] at hempty
      cases hempty
    exact .passed ((h.block?_of_ne hg hb (hne hc)).trans hc) hempty ht ih

/-- Where control came to before, it comes to the same instruction. -/
theorem comesTo_iff (hid : id ≠ i.address) : cut.ComesTo id y ↔ g.ComesTo id y :=
  ⟨fun hy => h.comesTo_of_comesTo_cut hg hy hid, fun hy => h.comesTo_cut_of_comesTo hg hy⟩

/-- From a block that is left as it is, control goes where it did. -/
theorem block_leads_iff (hc : c ∈ g.blocks) : c.Leads cut x y ↔ c.Leads g x y := by
  unfold Block.Leads
  rw [h.ranges]
  refine or_congr Iff.rfl (or_congr (and_congr_right fun _ => exists_congr fun t =>
    and_congr_right fun ht => h.comesTo_iff hg (h.target_ne hg hc ht)) (and_congr_right fun hx =>
      exists_congr fun r => and_congr_right fun hr => and_congr_right fun hcov => ?_))
  exact h.comesTo_iff hg (h.handler_ne hg hc hx hr hcov)

/-- From the halves of a block control goes where it did from the block. -/
theorem halves_lead_iff : (⟨b.id, before, .fallThrough i.address⟩ : Block).Leads cut x y ∨
    (⟨i.address, i :: after, b.terminator⟩ : Block).Leads cut x y ↔ b.Leads g x y := by
  have hb := h.block_leads_iff hg (x := x) (y := y) (mem_of_block? h.block)
  rw [← hb]
  have hsecond := h.comesTo_second hg (y := y)
  unfold Block.Leads
  rw [h.instructions, infix_append_iff, List.getLast?_append_of_ne_nil _ (List.cons_ne_nil i after),
    List.mem_append]
  simp only [Terminator.successors, List.mem_singleton, exists_eq_left, hsecond, List.head?_cons,
    Option.some.injEq, eq_comm (a := y)]
  grind

/-- A cut does not change where control goes from instruction to instruction. -/
theorem leads_iff : cut.Leads x y ↔ g.Leads x y := by
  have hhalves := h.halves_lead_iff hg (x := x) (y := y)
  constructor
  · rintro ⟨c, hc, hleads⟩
    rcases (h.mem_blocks hg).1 hc with rfl | rfl | ⟨hc, -⟩
    · exact ⟨b, mem_of_block? h.block, hhalves.1 (.inl hleads)⟩
    · exact ⟨b, mem_of_block? h.block, hhalves.1 (.inr hleads)⟩
    · exact ⟨c, hc, (h.block_leads_iff hg hc).1 hleads⟩
  · rintro ⟨c, hc, hleads⟩
    by_cases hid : c.id = b.id
    · obtain rfl := Option.some.inj ((hid ▸ block?_eq_some hg.wf.sorted hc).symm.trans h.block)
      rcases hhalves.2 hleads with hleads | hleads
      · exact ⟨_, (h.mem_blocks hg).2 (.inl rfl), hleads⟩
      · exact ⟨_, (h.mem_blocks hg).2 (.inr (.inl rfl)), hleads⟩
    · exact ⟨c, (h.mem_blocks hg).2 (.inr (.inr ⟨hc, hid⟩)), (h.block_leads_iff hg hc).2 hleads⟩

/-- A cut moves no instruction. -/
theorem flatMap_instructions :
    cut.blocks.flatMap Block.instructions = g.blocks.flatMap Block.instructions := by
  obtain ⟨front, back, hblocks, hcut, -⟩ := h.exists_blocks hg
  rw [hblocks, hcut]
  simp [List.flatMap_append, h.instructions]

end IsCut

/-! ## All rounds -/

variable {last result : FlowGraph} {pool : ConstantPool} {found : List Loop}

/-- What the rounds do to the instructions of a graph: they cut blocks. -/
structure SameFlow (g h : FlowGraph) : Prop where
  instructions : h.blocks.flatMap Block.instructions = g.blocks.flatMap Block.instructions
  leads : ∀ i j, h.Leads i j ↔ g.Leads i j

/-- Over all rounds control goes from one instruction to the next as before. -/
theorem Settles.sameFlow (hsettles : Settles pool g last found result) (hg : g.Arranged stop) :
    last.Arranged stop ∧ SameFlow g last := by
  refine hsettles.induction (P := fun h => h.Arranged stop ∧ SameFlow g h)
    ⟨hg, rfl, fun _ _ => Iff.rfl⟩ fun h cut b before i after hcut ⟨hh, hsame⟩ => ?_
  exact ⟨hcut.arranged hh, (hcut.flatMap_instructions hh).trans hsame.instructions,
    fun x y => (hcut.leads_iff hh).trans (hsame.leads x y)⟩

/-! ## What is recorded -/

/-- Recording loops does not change what control comes to. -/
theorem comesTo_recording {id : BlockId} {i : PlacedInstruction} :
    (g.recording found).ComesTo id i ↔ g.ComesTo id i := by
  constructor
  · intro h
    induction h with
    | first hb hi => exact .first hb hi
    | passed hb hempty ht _ ih => exact .passed hb hempty ht ih
  · intro h
    induction h with
    | first hb hi => exact .first hb hi
    | passed hb hempty ht _ ih => exact .passed hb hempty ht ih

/-- Nor where it goes. -/
theorem leads_recording {i j : PlacedInstruction} : (g.recording found).Leads i j ↔ g.Leads i j := by
  simp only [Leads, Block.Leads, comesTo_recording]
  exact Iff.rfl

/-- A block cannot be cut at its start, and where it has no instruction. -/
theorem split?_eq_none_iff {id : BlockId} {address : Address} : g.split? id address = none ↔
    address = id ∨ ∀ b, g.block? id = some b → ∀ i ∈ b.instructions, i.address ≠ address := by
  unfold split?
  by_cases hid : address = id
  · simp [hid]
  cases hb : g.block? id with
  | none => simp [hid]
  | some b =>
    cases hi : b.instructions.findIdx? (·.address = address) with
    | none =>
      have hnone := List.findIdx?_eq_none_iff.1 hi
      simpa [hid, hi] using hnone
    | some n =>
      obtain ⟨hlt, hat, -⟩ := List.findIdx?_eq_some_iff_getElem.1 hi
      simp only [hid, if_false, Option.bind_eq_bind, Option.bind_some, hi, false_or]
      constructor
      · intro h
        split at h <;> cases h
      · intro h
        exact absurd (of_decide_eq_true hat) (h b rfl _ (List.getElem_mem hlt))

/-- Nor the shape of a loop. -/
theorem isShape_recording {l : NaturalLoop} {f : Loop} :
    IsShape (g.recording found) pool l f ↔ IsShape g pool l f := by
  unfold IsShape
  simp only [split?_eq_none_iff]
  exact Iff.rfl

/-- The class of a jump is replaced by another one or left as it is, whatever it is. -/
theorem exists_refineJump_eq (loops : List Loop) (id : BlockId) :
    ∃ refined : Option JumpClass, ∀ c, g.refineJump loops id c = refined.getD c := by
  unfold refineJump
  split
  · exact ⟨_, fun c => rfl⟩
  · exact ⟨none, fun c => rfl⟩

/-- To refine a class twice is to refine it once. -/
theorem refineJump_refineJump (loops : List Loop) (id : BlockId) (c : JumpClass) :
    g.refineJump loops id (g.refineJump loops id c) = g.refineJump loops id c := by
  obtain ⟨refined, hrefined⟩ := g.exists_refineJump_eq loops id
  simp only [hrefined]
  cases refined <;> rfl

/-- To record loops twice is to record them once. -/
theorem recording_recording : (g.recording found).recording found = g.recording found := by
  have hjumps : ((g.recording found).recording found).jumps = (g.recording found).jumps := by
    show (g.jumps.map _).map _ = g.jumps.map _
    rw [List.map_map]
    exact List.map_congr_left fun jump _ => Prod.ext rfl (refineJump_refineJump _ _ _)
  exact congrArg (FlowGraph.mk g.blocks g.entry g.ranges · (g.recording found).loops) hjumps

/-- Recognising loops again finds the same. -/
theorem Settles.reduceLoops_result (hsettles : Settles pool g last found result) :
    result.reduceLoops pool = result := by
  rw [hsettles.result]
  -- natural loops and their shapes only depend on what `recording` leaves as it is
  have hshapes : (last.recording found).shapesOf pool (last.recording found).naturalLoops = .inr found := by
    rw [shapesOf_eq_inr_iff]
    exact (shapesOf_eq_inr_iff.1 hsettles.shapes).imp fun _ _ => isShape_recording.2
  unfold reduceLoops reduceLoopsWithin
  rw [hshapes]
  exact recording_recording

end FlowGraph

namespace MethodCode

open FlowGraph

/-- From the graph of decoded code with its jumps reduced, the rounds of recognising loops come to an end.
They leave the instructions in their order, and control goes from each to the same others. Recognising loops
again changes nothing. -/
theorem reduceLoops_only_cuts {pool : ConstantPool} {attr : CodeAttribute} {code : MethodCode}
    (h : MethodCode.decode pool attr = .ok code) (inlineReturns : Bool) (names : ConstantPool) :
    let g := (ofCode code).reduceJumps inlineReturns
    let result := g.reduceLoops names
    (∃ last found, Settles names g last found result) ∧
      result.ids.Pairwise (· < ·) ∧
      result.blocks.flatMap Block.instructions = g.blocks.flatMap Block.instructions ∧
      (∀ i j, result.Leads i j ↔ g.Leads i j) ∧
      result.reduceLoops names = result := by
  intro g result
  have harranged := arranged_reduceJumps (MethodCode.wellFormed_of_decode h) inlineReturns
  obtain ⟨last, found, hsettles⟩ := exists_settles names harranged.wf.sorted
  obtain ⟨hlast, hsame⟩ := hsettles.sameFlow harranged
  have hresult : result = last.recording found := hsettles.result
  refine ⟨⟨last, found, hsettles⟩, ?_, ?_, fun i j => ?_, hsettles.reduceLoops_result⟩
  · exact hresult ▸ hlast.wf.sorted
  · exact hresult ▸ hsame.instructions
  · rw [hresult, leads_recording]
    exact hsame.leads i j

/-- The code of `j++; for (i = 0; i < 10; i++) j++; return;`. -/
def countedSteps : CodeAttribute :=
  ⟨2, 2, [0x84, 0x01, 0x01, 0x03, 0x3b, 0x1a, 0x10, 0x0a, 0xa2, 0x00, 0x0c, 0x84, 0x01, 0x01, 0x84, 0x00,
    0x01, 0xa7, 0xff, 0xf4, 0xb1], [], []⟩

/-- Its initialisation and its update are cut off from what is in front of them. -/
theorem reduceLoops_only_cuts_countedSteps :
    ∃ code, MethodCode.decode .empty countedSteps = .ok code ∧
      ((ofCode code).reduceJumps true).ids = [0, 5, 11, 20] ∧
      (code.reduced .empty true).ids = [0, 3, 5, 11, 14, 20] ∧
      (code.reduced .empty true).blocks.flatMap Block.instructions =
        ((ofCode code).reduceJumps true).blocks.flatMap Block.instructions ∧
      (∀ i j, (code.reduced .empty true).Leads i j ↔ ((ofCode code).reduceJumps true).Leads i j) ∧
      (code.reduced .empty true).reduceLoops .empty = code.reduced .empty true := by
  have hdecode : ∃ code, MethodCode.decode .empty countedSteps = .ok code ∧
      ((ofCode code).reduceJumps true).ids = [0, 5, 11, 20] ∧
      (code.reduced .empty true).ids = [0, 3, 5, 11, 14, 20] := ⟨_, rfl, by cbv, by cbv⟩
  obtain ⟨code, hcode, hbefore, hafter⟩ := hdecode
  obtain ⟨-, -, hinstructions, hleads, hagain⟩ := reduceLoops_only_cuts hcode true .empty
  exact ⟨code, hcode, hbefore, hafter, hinstructions, hleads, hagain⟩

end MethodCode

end JvmDecompiler
