import JvmDecompiler.Proofs.BlockEnds
import Mathlib

/-!
# The rounds of recognising loops

`FlowGraph.reduceLoops` goes in rounds. A round looks at all natural loops; it ends with the shapes of all
of them, or with one block cut in two, and then the next round starts from scratch.

Every cut makes one more block that starts at the address it is named after. `FlowGraph.cuts` counts the
instructions that no block starts with in this way; a cut leaves fewer of them, whichever block is cut and
whatever the graph looks like otherwise (`IsCut.cuts_lt`). So the rounds come to an end before they are
used up, and what is recorded is what a round has found in which nothing had to be cut
(`exists_settles`).
-/

namespace JvmDecompiler

open Relation (ReflTransGen)

/-- The instructions of a block in front of which it can still be cut: all but a first one at the address
that the block is named after. -/
def Block.cuts (b : Block) : Nat :=
  match b.instructions with
  | [] => 0
  | i :: rest => if i.address = b.id then rest.length else rest.length + 1

/-- A block can be cut no more often than it has instructions. -/
theorem Block.cuts_le (b : Block) : b.cuts ≤ b.instructions.length := by
  unfold cuts
  split
  · exact Nat.zero_le _
  · rename_i i rest hinstructions
    rw [hinstructions, List.length_cons]
    split <;> omega

namespace FlowGraph

variable {g h cut : FlowGraph} {pool : ConstantPool}

/-! ## Cuts -/

/-- The graph `cut` is the graph `g` with the block `b` cut in front of its instruction `i`. -/
structure IsCut (g cut : FlowGraph) (b : Block) (before : List PlacedInstruction)
    (i : PlacedInstruction) (after : List PlacedInstruction) : Prop where
  block : g.block? b.id = some b
  inner : i.address ≠ b.id
  instructions : b.instructions = before ++ i :: after
  blocks : cut.blocks = insertByKey Block.id ⟨i.address, i :: after, b.terminator⟩
    (g.modify b.id fun _ => ⟨b.id, before, .fallThrough i.address⟩).blocks
  entry : cut.entry = g.entry
  ranges : cut.ranges = g.ranges

/-- To split a block is to cut it in front of one of its instructions. -/
theorem exists_isCut {id : BlockId} {address : Address} (h : g.split? id address = some cut) :
    ∃ b before i after, IsCut g cut b before i after ∧ b.id = id ∧ i.address = address := by
  obtain ⟨hentry, hranges⟩ := frame_split? h
  unfold FlowGraph.split? at h
  split at h
  · cases h
  rename_i hne
  simp only [Option.pure_def, Option.bind_eq_bind, Option.bind_eq_some_iff] at h
  obtain ⟨b, hb, n, hn, h⟩ := h
  obtain rfl := id_of_block? hb
  obtain ⟨hlt, hat, -⟩ := List.findIdx?_eq_some_iff_getElem.1 hn
  obtain rfl : b.instructions[n].address = address := by simpa using hat
  have hdrop : b.instructions.drop n = b.instructions[n] :: b.instructions.drop (n + 1) :=
    List.drop_eq_getElem_cons hlt
  -- the second half is put in by its address, the first half takes the place of the block
  have hblocks : cut.blocks = insertByKey Block.id
      ⟨b.instructions[n].address, b.instructions.drop n, b.terminator⟩
      (g.modify b.id fun _ =>
        ⟨b.id, b.instructions.take n, .fallThrough b.instructions[n].address⟩).blocks := by
    split at h <;> exact Option.some.inj h ▸ rfl
  exact ⟨b, b.instructions.take n, b.instructions[n], b.instructions.drop (n + 1),
    ⟨hb, hne, by rw [← hdrop, List.take_append_drop], hdrop ▸ hblocks, hentry, hranges⟩, rfl, rfl⟩

/-- The blocks in front of a block have lower names than it has, and those behind it have higher ones. -/
theorem exists_blocks_around (hs : g.ids.Pairwise (· < ·)) {b : Block} (hb : b ∈ g.blocks) :
    ∃ front back, g.blocks = front ++ b :: back ∧ (∀ c ∈ front, c.id < b.id) ∧
      ∀ c ∈ back, b.id < c.id := by
  obtain ⟨front, back, hblocks⟩ := List.append_of_mem hb
  rw [ids, hblocks, List.pairwise_map, List.pairwise_append, List.pairwise_cons] at hs
  obtain ⟨-, ⟨hback, -⟩, hfront⟩ := hs
  exact ⟨front, back, hblocks, fun c hc => hfront c hc b List.mem_cons_self, hback⟩

/-- Changing a block changes one element of the list of blocks. -/
theorem exists_blocks_modify (hs : g.ids.Pairwise (· < ·)) {b : Block} (hb : g.block? b.id = some b)
    (f : Block → Block) :
    ∃ front back, g.blocks = front ++ b :: back ∧ (∀ c ∈ front, c.id < b.id) ∧
      (∀ c ∈ back, b.id < c.id) ∧ (g.modify b.id f).blocks = front ++ f b :: back := by
  obtain ⟨front, back, hblocks, hfront, hback⟩ := exists_blocks_around hs (mem_of_block? hb)
  have hkept : ∀ l : List Block, (∀ c ∈ l, c.id ≠ b.id) →
      l.map (fun c => if c.id = b.id then f c else c) = l := fun l hl =>
    (List.map_congr_left fun c hc => if_neg (hl c hc)).trans (List.map_id _)
  refine ⟨front, back, hblocks, hfront, hback, ?_⟩
  show g.blocks.map _ = _
  rw [hblocks, List.map_append, List.map_cons, if_pos rfl,
    hkept front fun c hc => Nat.ne_of_lt (hfront c hc), hkept back fun c hc => Nat.ne_of_gt (hback c hc)]

/-- An insertion by key keeps a list in the order of keys. -/
theorem sorted_insertByKey {α : Type} {key : α → Nat} {a : α} {l : List α}
    (hs : (l.map key).Pairwise (· < ·)) : ((insertByKey key a l).map key).Pairwise (· < ·) := by
  induction l with
  | nil => simp [insertByKey]
  | cons b rest ih =>
    obtain ⟨hb, hrest⟩ := List.pairwise_cons.1 hs
    unfold insertByKey
    split
    · rename_i hlt
      refine List.pairwise_cons.2 ⟨fun k hk => ?_, hs⟩
      rcases List.mem_cons.1 hk with rfl | hk
      · exact hlt
      · exact Nat.lt_trans hlt (hb k hk)
    · split
      · rename_i heq
        exact List.pairwise_cons.2 ⟨fun k hk => heq ▸ hb k hk, hrest⟩
      · refine List.pairwise_cons.2 ⟨fun k hk => ?_, ih hrest⟩
        obtain ⟨c, hc, rfl⟩ := List.mem_map.1 hk
        rcases mem_insertByKey hc with rfl | hc
        · omega
        · exact hb _ (List.mem_map_of_mem hc)

/-- An insertion adds no more to a sum than what is inserted. -/
theorem sum_insertByKey_le {α : Type} (key f : α → Nat) (a : α) (l : List α) :
    ((insertByKey key a l).map f).sum ≤ f a + (l.map f).sum := by
  induction l with
  | nil => simp [insertByKey]
  | cons b rest ih =>
    unfold insertByKey
    split
    · simp
    · split
      · simp
      · simp only [List.map_cons, List.sum_cons]
        omega

/-- A cut keeps the order of blocks. -/
theorem IsCut.sorted {b : Block} {before after : List PlacedInstruction} {i : PlacedInstruction}
    (h : IsCut g cut b before i after) (hs : g.ids.Pairwise (· < ·)) : cut.ids.Pairwise (· < ·) := by
  obtain ⟨front, back, hblocks, -, -, hmodify⟩ := exists_blocks_modify hs h.block
    fun _ => ⟨b.id, before, .fallThrough i.address⟩
  rw [FlowGraph.ids, h.blocks]
  refine sorted_insertByKey ?_
  rw [FlowGraph.ids, hblocks] at hs
  rw [hmodify]
  simpa using hs

/-! ## The end of the rounds -/

/-- The instructions in front of which a block can still be cut, in all blocks. -/
def cuts (g : FlowGraph) : Nat := (g.blocks.map Block.cuts).sum

/-- A graph can be cut no more often than it has instructions. -/
theorem cuts_le (g : FlowGraph) : g.cuts ≤ (g.blocks.flatMap Block.instructions).length := by
  unfold cuts
  rw [List.length_flatMap]
  exact List.sum_le_sum fun b _ => b.cuts_le

/-- Every cut uses up one of them. -/
theorem IsCut.cuts_lt {b : Block} {before after : List PlacedInstruction} {i : PlacedInstruction}
    (h : IsCut g cut b before i after) (hs : g.ids.Pairwise (· < ·)) : cut.cuts < g.cuts := by
  let first : Block := ⟨b.id, before, .fallThrough i.address⟩
  let second : Block := ⟨i.address, i :: after, b.terminator⟩
  obtain ⟨front, back, hblocks, -, -, hmodify⟩ := exists_blocks_modify hs h.block fun _ => first
  -- each half has fewer places for a cut than the block, since the place of this one is gone
  have hhalves : first.cuts + second.cuts < b.cuts := by
    have hsecond : second.cuts = after.length := by simp [second, Block.cuts]
    rw [hsecond]
    cases before with
    | nil => simp [first, Block.cuts, h.instructions, h.inner]
    | cons j before =>
      simp only [first, Block.cuts, h.instructions, List.cons_append, List.length_append,
        List.length_cons]
      split <;> omega
  have hinsert := sum_insertByKey_le Block.id Block.cuts second (g.modify b.id fun _ => first).blocks
  calc cut.cuts ≤ second.cuts + ((g.modify b.id fun _ => first).blocks.map Block.cuts).sum := by
        rw [cuts, h.blocks]
        exact hinsert
    _ < g.cuts := by
        rw [hmodify, cuts, hblocks]
        simp only [List.map_append, List.map_cons, List.sum_append, List.sum_cons]
        omega

/-- A round that starts with the graph `g` ends with the graph `h`, in which one more block is cut. -/
def Recuts (pool : ConstantPool) (g h : FlowGraph) : Prop := g.shapesOf pool g.naturalLoops = .inl h

/-- A round that goes on has cut a block. -/
theorem Recuts.exists_isCut (h : Recuts pool g cut) : ∃ b before i after, IsCut g cut b before i after := by
  obtain ⟨-, -, id, address, -, hsplit⟩ := exists_split?_of_shapesOf h
  obtain ⟨b, before, i, after, hcut, -⟩ := FlowGraph.exists_isCut hsplit
  exact ⟨b, before, i, after, hcut⟩

/-- The graph with the loops of a round in which nothing is cut. -/
def recording (g : FlowGraph) (found : List Loop) : FlowGraph :=
  { g with
    loops := unstructuredLoops found g.irreducibleEdges
    jumps := g.jumps.map fun (id, c) => (id, g.refineJump (unstructuredLoops found g.irreducibleEdges) id c) }

/-- After some cuts a round finds the shapes of all loops, and the result records them. -/
structure Settles (pool : ConstantPool) (g h : FlowGraph) (found : List Loop) (result : FlowGraph) :
    Prop where
  rounds : ReflTransGen (Recuts pool) g h
  shapes : h.shapesOf pool h.naturalLoops = .inr found
  result : result = h.recording found

/-- With more rounds than there are cuts the rounds settle. -/
theorem exists_settles_within {rounds : Nat} (hs : g.ids.Pairwise (· < ·)) (hrounds : g.cuts < rounds) :
    ∃ h found, Settles pool g h found (reduceLoopsWithin pool rounds g) := by
  -- a round that goes on has one place less to cut for one round less
  induction rounds generalizing g with
  | zero => omega
  | succ rounds ih =>
    unfold reduceLoopsWithin
    cases hshapes : g.shapesOf pool g.naturalLoops with
    | inl cut =>
      have hcut : Recuts pool g cut := hshapes
      obtain ⟨b, before, i, after, hiscut⟩ := hcut.exists_isCut
      have hlt := hiscut.cuts_lt hs
      obtain ⟨h, found, hsettles⟩ := ih (hiscut.sorted hs) (by omega)
      exact ⟨h, found, .head hcut hsettles.rounds, hsettles.shapes, hsettles.result⟩
    | inr found => exact ⟨g, found, .refl, hshapes, rfl⟩

/-- The rounds come to an end before they are used up. -/
theorem exists_settles (pool : ConstantPool) (hs : g.ids.Pairwise (· < ·)) :
    ∃ h found, Settles pool g h found (g.reduceLoops pool) :=
  exists_settles_within hs (Nat.lt_succ_of_le g.cuts_le)

/-- What a cut keeps is kept by all rounds. -/
theorem Settles.induction {P : FlowGraph → Prop} {found : List Loop} {result : FlowGraph}
    (hsettles : Settles pool g h found result) (hg : P g)
    (hcut : ∀ g cut b before i after, IsCut g cut b before i after → P g → P cut) : P h := by
  have hrounds := hsettles.rounds
  clear hsettles
  induction hrounds with
  | refl => exact hg
  | tail _ hround ih =>
    obtain ⟨b, before, i, after, hiscut⟩ := hround.exists_isCut
    exact hcut _ _ b before i after hiscut ih

/-! ## What a round finds -/

/-- What is recorded of a natural loop: its shape, or no shape if that asks for a cut that cannot be
made. -/
def IsShape (g : FlowGraph) (pool : ConstantPool) (l : NaturalLoop) (found : Loop) : Prop :=
  g.shapeOf pool l = .known found ∨
    ∃ id address, g.shapeOf pool l = .split id address ∧ g.split? id address = none ∧
      found = g.endlessLoop l

/-- If no block has to be cut, each natural loop gets a shape. -/
theorem shapesOf_eq_inr_iff {loops : List NaturalLoop} {found : List Loop} :
    g.shapesOf pool loops = .inr found ↔ List.Forall₂ (IsShape g pool) loops found := by
  induction loops generalizing found with
  | nil => simp [shapesOf, eq_comm]
  | cons l rest ih =>
    -- where one thing is recorded of the first loop, it stands in front of what the others give
    have key : ∀ {first : Loop}, (∀ f, IsShape g pool l f ↔ f = first) →
        ((g.shapesOf pool rest).map id (first :: ·) = .inr found ↔
          List.Forall₂ (IsShape g pool) (l :: rest) found) := by
      intro first hfirst
      rw [List.forall₂_cons_left_iff]
      simp only [hfirst]
      cases hrest : g.shapesOf pool rest with
      | inl cut =>
        have hnone : ∀ others, ¬List.Forall₂ (IsShape g pool) rest others := fun others hothers => by
          rw [← ih, hrest] at hothers
          cases hothers
        simp [hnone]
      | inr others =>
        have hothers : ∀ others', List.Forall₂ (IsShape g pool) rest others' ↔ others = others' := by
          intro others'
          rw [← ih, hrest, Sum.inr.injEq]
        simp [hothers, eq_comm]
    unfold shapesOf
    split
    · rename_i first hshape
      exact key fun f => by simp [IsShape, hshape, eq_comm]
    · rename_i id address hshape
      split
      · rename_i cut hcut
        have hnone : ∀ f, ¬IsShape g pool l f := fun f => by simp [IsShape, hshape, hcut]
        rw [List.forall₂_cons_left_iff]
        simp [hnone]
      · rename_i hcut
        exact key fun f => by simp [IsShape, hshape, hcut]

/-- What a round finds is found of one of the natural loops. -/
theorem exists_isShape_of_mem {loops : List NaturalLoop} {found : List Loop}
    (h : g.shapesOf pool loops = .inr found) : ∀ f ∈ found, ∃ l ∈ loops, IsShape g pool l f := by
  rw [shapesOf_eq_inr_iff] at h
  induction h with
  | nil => nofun
  | cons hshape _ ih =>
    refine List.forall_mem_cons.2 ⟨⟨_, List.mem_cons_self, hshape⟩, fun f hf => ?_⟩
    obtain ⟨l, hl, hf⟩ := ih f hf
    exact ⟨l, List.mem_cons_of_mem _ hl, hf⟩

end FlowGraph

end JvmDecompiler
