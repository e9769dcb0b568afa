import JvmDecompiler.Proofs.Search
import JvmDecompiler.Proofs.Walk

/-!
# Reducing jumps keeps walks

`reduceJumps` rewrites a graph block by block and round by round. Each rewrite keeps the graph well
formed and, as a step of the new graph is one or more steps of the old one, shows the same walks.

## The rewrites

* `threadBlock` leads a jump past blocks in which nothing is seen.
* `inlineReturn` does two steps in one: the jump and the return behind it.
* `dropJump` turns a jump into falling through to the same block.
* `bypass` takes out an empty block; a walk that would come to it comes to the block behind it.
* `removeUnreachable` keeps every block that a walk comes to.
-/

namespace JvmDecompiler

/-! ## Mapped targets -/

/-- Where an instruction branches to is not seen. -/
theorem Instruction.seen_mapTargets (f : Address → Address) (i : Instruction) :
    (i.mapTargets f).seen = i.seen := by
  cases i <;> simp [mapTargets, seen]

/-- The instruction with another target, if it is a jump or a conditional branch. -/
def Instruction.withTarget (target : Address) : Instruction → Instruction
  | .switch default cases => .switch default cases
  | .jsr t => .jsr t
  | i => i.mapTargets fun _ => target

/-- Another target is not seen. -/
theorem Instruction.seen_withTarget (t : Address) (i : Instruction) : (i.withTarget t).seen = i.seen := by
  unfold withTarget
  split
  · rfl
  · rfl
  · exact seen_mapTargets _ _

/-- Only a return is a return with another target. -/
theorem Instruction.eq_return_of_withTarget {t : Address} {i : Instruction} {type : Option OperandType}
    (h : i.withTarget t = .return type) : i = .return type := by
  cases i <;> simp_all [withTarget, mapTargets]

namespace Terminator

/-- A walk goes to the image of the block that it would go to. -/
theorem next_mapTargets (f : BlockId → BlockId) (t : Terminator) (ds : Decisions) :
    (t.mapTargets f).next ds = (t.next ds).map fun w => (f w.1, w.2) := by
  cases t with
  | branch condition ifTrue ifFalse =>
    simp only [mapTargets, next, Option.map_some]
    split <;> rfl
  | switch default cases =>
    have hcases : (cases.map fun c => (c.1, f c.2)).map (·.2) = (cases.map (·.2)).map f := by simp
    simp only [mapTargets, next, Option.map_some, hcases]
    rw [List.getElem?_map]
    cases (cases.map (·.2))[ds.head]? <;> rfl
  | jsr target returnTo =>
    simp only [mapTargets, next, Option.map_some]
    split <;> rfl
  | _ => rfl

/-- A walk goes to a successor. -/
theorem mem_successors_of_next {t : Terminator} {ds : Decisions} {w : BlockId × Decisions}
    (h : t.next ds = some w) : w.1 ∈ t.successors := by
  cases t with
  | branch condition ifTrue ifFalse =>
    obtain rfl : _ = w := Option.some.inj h
    simp only [successors, List.mem_eraseDups]
    split <;> simp
  | switch default cases =>
    obtain rfl : _ = w := Option.some.inj h
    simp only [successors, List.mem_eraseDups]
    cases hget : (cases.map (·.2))[ds.head]? with
    | none => simp
    | some id => exact List.mem_append_left _ (List.mem_of_getElem? hget)
  | jsr target returnTo =>
    obtain rfl : _ = w := Option.some.inj h
    simp only [successors, List.mem_eraseDups]
    split <;> simp
  | fallThrough target | goto target =>
    obtain rfl : _ = w := Option.some.inj h
    exact List.mem_singleton_self _
  | «return» | throw | ret => cases h

/-- The ways out of a changed terminator are the changed ways out. -/
theorem exists_of_mem_successors_mapTargets {f : BlockId → BlockId} {t : Terminator} {id : BlockId}
    (h : id ∈ (t.mapTargets f).successors) : ∃ u ∈ t.successors, id = f u := by
  cases t <;> simp only [mapTargets, successors, List.mem_eraseDups] at h ⊢ <;> simp at h ⊢ <;> grind

/-- A change that leaves all ways out alone leaves the terminator alone. -/
theorem mapTargets_eq_self {f : BlockId → BlockId} {t : Terminator}
    (h : ∀ u ∈ t.successors, f u = u) : t.mapTargets f = t := by
  cases t with
  | switch default cases =>
    simp only [successors, List.mem_eraseDups] at h
    have hcases : (cases.map fun c => (c.1, f c.2)) = cases := by
      refine (List.map_congr_left fun c hc => ?_).trans (List.map_id cases)
      exact Prod.ext rfl (h c.2 (List.mem_append_left _ (List.mem_map_of_mem hc)))
    simp only [mapTargets, hcases, h default (List.mem_append_right _ List.mem_cons_self)]
  | _ => simp_all [mapTargets, successors]

end Terminator

/-! ## The last instruction -/

section MapLast

variable {α β : Type} {f : α → α}

/-- Only the last element of a list is changed. -/
theorem mapLast_append_singleton (l : List α) (a : α) : mapLast f (l ++ [a]) = l ++ [f a] := by
  induction l with
  | nil => rfl
  | cons b l ih =>
    cases l with
    | nil => rfl
    | cons c l => exact congrArg (b :: ·) ih

/-- The last element of the changed list is the changed last element. -/
theorem getLast?_mapLast (l : List α) : (mapLast f l).getLast? = l.getLast?.map f := by
  rcases List.eq_nil_or_concat l with rfl | ⟨l, a, rfl⟩
  · rfl
  · simp [mapLast_append_singleton]

/-- What `f` does not change of an element is found in the same places. -/
theorem filterMap_mapLast {p : α → Option β} (h : ∀ a, p (f a) = p a) (l : List α) :
    (mapLast f l).filterMap p = l.filterMap p := by
  rcases List.eq_nil_or_concat l with rfl | ⟨l, a, rfl⟩
  · rfl
  · have hone : [f a].filterMap p = [a].filterMap p := by simp only [List.filterMap_cons, h]
    rw [List.concat_eq_append, mapLast_append_singleton, List.filterMap_append,
      List.filterMap_append, hone]

end MapLast

namespace Block

variable {b : Block} {f : Instruction → Instruction}

/-- Changing the last instruction moves no instruction. -/
theorem exists_of_mem_modifyLast {i : PlacedInstruction} (h : i ∈ (b.modifyLast f).instructions) :
    ∃ j ∈ b.instructions, j.address = i.address := by
  have hsame : (b.modifyLast f).instructions.filterMap (fun i => some i.address) =
      b.instructions.filterMap fun i => some i.address :=
    @filterMap_mapLast PlacedInstruction _ (fun i => { i with operation := f i.operation }) _
      (fun _ => rfl) _
  have hmem : i.address ∈ (b.modifyLast f).instructions.filterMap fun i => some i.address :=
    List.mem_filterMap.2 ⟨i, h, rfl⟩
  rw [hsame] at hmem
  obtain ⟨j, hj, heq⟩ := List.mem_filterMap.1 hmem
  exact ⟨j, hj, Option.some.inj heq⟩

/-- The last instruction of a changed block is the changed last instruction, in the same place. -/
theorem getLast?_modifyLast (b : Block) (f : Instruction → Instruction) :
    (b.modifyLast f).instructions.getLast? =
      b.instructions.getLast?.map fun i => { i with operation := f i.operation } :=
  getLast?_mapLast _

/-- A change of the last instruction that is not seen is not seen in the block. -/
theorem seen_modifyLast (h : ∀ i, (f i).seen = i.seen) (b : Block) : (b.modifyLast f).seen = b.seen :=
  filterMap_mapLast (fun i => by simp only [h]) _

/-- Another target changes the target of the last instruction only. -/
theorem instructions_retarget (b : Block) (t : BlockId) :
    (b.retarget t).instructions = (b.modifyLast (·.withTarget t)).instructions := by
  obtain ⟨id, instructions, terminator⟩ := b
  cases terminator <;> rfl

/-- A block that jumps elsewhere is known by the same name. -/
theorem id_retarget (b : Block) (t : BlockId) : (b.retarget t).id = b.id := by
  obtain ⟨id, instructions, terminator⟩ := b
  cases terminator <;> rfl

/-- A block with another target shows what it showed. -/
theorem seen_retarget (b : Block) (t : BlockId) : (b.retarget t).seen = b.seen := by
  rw [← seen_modifyLast (Instruction.seen_withTarget t) b, seen, seen, instructions_retarget]

/-- Where a block jumps to is not seen. -/
theorem seen_redirect (b : Block) (s t : BlockId) : (b.redirect s t).seen = b.seen :=
  seen_modifyLast (fun i => Instruction.seen_mapTargets _ i) b

/-- A block that does nothing but pass control on shows nothing. -/
theorem seen_of_isGotoOnly {g : FlowGraph} {stop : Address} (hb : b.Fits g stop)
    (h : b.isGotoOnly = true) : b.seen = [] := by
  unfold isGotoOnly body at h
  cases hterm : b.terminator with
  | goto t =>
    obtain ⟨last, u, hlast, hop⟩ := hb.jumps t hterm
    obtain ⟨rest, hrest⟩ := List.getLast?_eq_some_iff.1 hlast
    have hnil : rest = [] := by simpa [hterm, hlast, hop, Instruction.endsBlock,
      Instruction.isUnconditionalTransfer, hrest] using h
    simp [seen, hrest, hnil, hop, Instruction.seen]
  | fallThrough t =>
    have hnil : b.instructions = [] := by simpa [hterm] using h
    simp [seen, hnil]
  | _ => simp [hterm] at h

end Block

namespace FlowGraph

variable {g h : FlowGraph} {stop : Address}

/-- A block whose ways on lead past nothing that is seen follows another one. -/
theorem follows_of_next {b c : Block} {f : BlockId → BlockId} (hseen : c.seen = b.seen)
    (hnext : ∀ ds, c.terminator.next ds = (b.terminator.next ds).map fun w => (f w.1, w.2))
    (hf : ∀ t ∈ b.terminator.successors, Passes g t (f t) ∧ Kept g h (f t)) : Follows g h b c := by
  refine ⟨hseen, fun ds => ?_⟩
  rw [hnext]
  cases hb : b.terminator.next ds with
  | none => trivial
  | some w => exact ⟨rfl, hf w.1 (Terminator.mem_successors_of_next hb)⟩

/-- A block that is left alone follows itself, if its ways out are kept. -/
theorem Follows.refl {b : Block} (hk : ∀ t ∈ b.terminator.successors, Kept g h t) : Follows g h b b :=
  follows_of_next (f := fun t => t) rfl (fun ds => by simp) fun t ht => ⟨.refl t, hk t ht⟩

/-! ## Changing and removing blocks -/

/-- The graph with every block changed. -/
def mapBlocks (g : FlowGraph) (f : Block → Block) : FlowGraph := { g with blocks := g.blocks.map f }

/-- The graph with the blocks whose names `p` accepts. -/
def keepIds (g : FlowGraph) (p : BlockId → Bool) : FlowGraph :=
  { g with blocks := g.blocks.filter fun b => p b.id }

section MapBlocks

variable {f : Block → Block} (hid : ∀ b, (f b).id = b.id)

include hid

/-- Changing blocks changes no names. -/
theorem ids_mapBlocks : (g.mapBlocks f).ids = g.ids := by
  simp [mapBlocks, ids, Function.comp_def, hid]

/-- A changed block keeps its name, so it is found in the place of the old one. -/
theorem block?_mapBlocks (id : BlockId) : (g.mapBlocks f).block? id = (g.block? id).map f := by
  have hsame : (fun b : Block => decide (b.id = id)) ∘ f = fun b => decide (b.id = id) :=
    funext fun b => by rw [Function.comp_apply, hid]
  rw [block?, mapBlocks, List.find?_map, hsame, block?]

/-- A graph stays well formed if all its blocks still fit into it. -/
theorem WellFormed.mapBlocks (hg : g.WellFormed stop) (hf : ∀ b ∈ g.blocks, (f b).Fits g stop) :
    (g.mapBlocks f).WellFormed stop := by
  have hids : (g.mapBlocks f).ids = g.ids := ids_mapBlocks hid
  refine ⟨hids ▸ hg.sorted, hids ▸ hg.bounded, fun hne => hids ▸ hg.entry ?_, fun c hc => ?_⟩
  · rintro hnil
    exact hne (by simp [FlowGraph.mapBlocks, hnil])
  · obtain ⟨b, hb, rfl⟩ := List.mem_map.1 hc
    have hfit := hf b hb
    exact ⟨hids ▸ hfit.targets, hfit.downward, hfit.jumps, hids ▸ hfit.handlers⟩

/-- Changing blocks takes none away. -/
theorem kept_mapBlocks (id : BlockId) : Kept g (g.mapBlocks f) id := fun hmem => by
  rw [ids_mapBlocks hid]
  exact hmem

/-- If every block is followed by what becomes of it, the walks are the same. -/
theorem sameWalks_mapBlocks (hf : ∀ b ∈ g.blocks, Follows g (g.mapBlocks f) b (f b)) :
    SameWalks g (g.mapBlocks f) := by
  refine Condenses.sameWalks (condenses_of_follows rfl (kept_mapBlocks hid _) ?_)
  intro id c hc ds
  have hmap := hc
  rw [block?_mapBlocks hid] at hmap
  obtain ⟨b, hb, rfl⟩ := Option.map_eq_some_iff.1 hmap
  exact (hf b (mem_of_block? hb)).step hb hc ds

end MapBlocks

section Modify

variable {f : Block → Block} {id : BlockId} {b : Block}

/-- Looking up a block finds the changed one under the name of the block that is changed. -/
theorem block?_modify (hid : ∀ b, (f b).id = b.id) {id' : BlockId} :
    (g.modify id f).block? id' = (g.block? id').map fun b => if b.id = id then f b else b :=
  block?_mapBlocks (fun b => by split <;> simp [hid]) id'

/-- Changing one block takes none away. -/
theorem kept_modify (hid : ∀ b, (f b).id = b.id) (id' : BlockId) : Kept g (g.modify id f) id' :=
  kept_mapBlocks (fun b => by split <;> simp [hid]) id'

/-- A graph stays well formed if the changed block still fits into it. -/
theorem WellFormed.modify (hg : g.WellFormed stop) (hid : ∀ b, (f b).id = b.id)
    (hb : g.block? id = some b) (hf : (f b).Fits g stop) : (g.modify id f).WellFormed stop := by
  refine hg.mapBlocks (fun b => by split <;> simp [hid]) fun c hc => ?_
  split
  · rename_i hcid
    have hcb : g.block? id = some c := hcid ▸ block?_eq_some hg.sorted hc
    exact Option.some.inj (hb.symm.trans hcb) ▸ hf
  · exact hg.blocks c hc

/-- If the changed block follows the one it replaces, the walks are the same. -/
theorem sameWalks_modify (hg : g.WellFormed stop) (hid : ∀ b, (f b).id = b.id)
    (hb : g.block? id = some b) (hf : Follows g (g.modify id f) b (f b)) :
    SameWalks g (g.modify id f) := by
  refine sameWalks_mapBlocks (fun b => by split <;> simp [hid]) fun c hc => ?_
  split
  · rename_i hcid
    have hcb : g.block? id = some c := hcid ▸ block?_eq_some hg.sorted hc
    exact Option.some.inj (hb.symm.trans hcb) ▸ hf
  · exact .refl fun t _ => kept_modify hid t

end Modify

section KeepIds

variable {p : BlockId → Bool}

/-- The blocks that are kept are those with the property. -/
theorem mem_ids_keepIds {id : BlockId} : id ∈ (g.keepIds p).ids ↔ id ∈ g.ids ∧ p id = true := by
  simp only [keepIds, ids, List.mem_map, List.mem_filter]
  constructor
  · rintro ⟨b, ⟨hb, hp⟩, rfl⟩
    exact ⟨⟨b, hb, rfl⟩, hp⟩
  · rintro ⟨⟨b, hb, rfl⟩, hp⟩
    exact ⟨b, ⟨hb, hp⟩, rfl⟩

/-- A block that is kept is found as before. -/
theorem block?_keepIds {id : BlockId} (hp : p id = true) : (g.keepIds p).block? id = g.block? id := by
  simp only [keepIds, block?, List.find?_filter]
  refine congrArg (fun q => g.blocks.find? q) (funext fun b => ?_)
  by_cases hb : b.id = id <;> simp [hb, hp]

/-- What is found among the blocks that are kept was there before. -/
theorem block?_of_keepIds {id : BlockId} {b : Block} (hb : (g.keepIds p).block? id = some b) :
    p id = true ∧ g.block? id = some b := by
  have hp : p id = true := (mem_ids_keepIds.1 (mem_ids_iff.2 ⟨b, hb⟩)).2
  exact ⟨hp, block?_keepIds hp ▸ hb⟩

/-- A graph stays well formed if the entry is kept and the blocks that are kept lead only to such. -/
theorem WellFormed.keepIds (hg : g.WellFormed stop) (hentry : g.entry ∈ g.ids → p g.entry = true)
    (hp : ∀ b ∈ g.blocks, p b.id = true → b.Fits (g.keepIds p) stop) :
    (g.keepIds p).WellFormed stop := by
  refine ⟨?_, fun id hmem => hg.bounded id (mem_ids_keepIds.1 hmem).1, fun hne => ?_, fun b hb => ?_⟩
  · exact hg.sorted.sublist (List.filter_sublist.map Block.id)
  · have hin : g.entry ∈ g.ids := hg.entry fun hnil => hne (by simp [FlowGraph.keepIds, hnil])
    exact mem_ids_keepIds.2 ⟨hin, hentry hin⟩
  · obtain ⟨hb, hpb⟩ := List.mem_filter.1 hb
    exact hp b hb hpb

end KeepIds

/-! ## Threading -/

/-- The way through blocks that only pass control on is passed by a walk. -/
theorem passes_followFrom (hg : g.WellFormed stop) (boundaries : List BlockId) (steps : Nat)
    (seen : List BlockId) (id : BlockId) : Passes g id (g.followFrom boundaries steps seen id) := by
  induction steps generalizing seen id with
  | zero => exact .refl id
  | succ steps ih =>
    unfold followFrom
    split
    · exact .refl id
    · split
      · rename_i b hb
        split
        · rename_i hgoto
          have hseen := Block.seen_of_isGotoOnly (hg.blocks b (mem_of_block? hb)) hgoto
          split
          · rename_i target hterm
            split
            · exact .refl id
            · exact (passes_of_seen_eq_nil hb hseen (.inl hterm)).trans (ih _ target)
          · rename_i target hterm
            split
            · exact .refl id
            · exact (passes_of_seen_eq_nil hb hseen (.inr hterm)).trans (ih _ target)
          · exact .refl id
        · exact .refl id
      · exact .refl id

/-- The way through blocks that only pass control on ends at a block or at the end of the code. -/
theorem followFrom_mem (hg : g.WellFormed stop) (boundaries : List BlockId) (steps : Nat)
    (seen : List BlockId) {id : BlockId} (hid : id ∈ g.ids ∨ id = stop) :
    g.followFrom boundaries steps seen id ∈ g.ids ∨ g.followFrom boundaries steps seen id = stop := by
  -- following only goes to targets of blocks, which are blocks or the end
  induction steps generalizing seen id with
  | zero => exact hid
  | succ steps ih =>
    unfold followFrom
    split
    · exact hid
    · split
      · rename_i b hb
        have htargets := (hg.blocks b (mem_of_block? hb)).targets
        split
        · split
          · rename_i target hterm
            split
            · exact hid
            · exact ih _ (htargets target (by simp [hterm, Terminator.successors]))
          · rename_i target hterm
            split
            · exact hid
            · exact ih _ (htargets target (by simp [hterm, Terminator.successors]))
          · exact hid
        · exact hid
      · exact hid

/-- A block fits with another target that fits. -/
theorem fits_retarget {b : Block} {t r : BlockId} (hb : b.Fits g stop) (ht : b.jumpTarget? = some t)
    (hr : r ∈ g.ids ∨ r = stop) : (b.retarget r).Fits g stop := by
  have hhandlers : ∀ p ∈ g.ranges, ∀ i ∈ (b.retarget r).instructions, p.covers i.address = true →
      p.handler ∈ g.ids := by
    intro p hp i hi hcov
    rw [Block.instructions_retarget] at hi
    obtain ⟨j, hj, haddr⟩ := Block.exists_of_mem_modifyLast hi
    exact hb.handlers p hp j hj (haddr ▸ hcov)
  unfold Block.jumpTarget? at ht
  split at ht
  · rename_i target hterm
    have hterm' : (b.retarget r).terminator = .goto r := by simp [Block.retarget, Block.modifyLast, hterm]
    refine ⟨?_, ?_, ?_, hhandlers⟩
    · intro u hu
      simp only [hterm', Terminator.successors, List.mem_singleton] at hu
      exact hu ▸ hr
    · intro u hu
      simp [hterm'] at hu
    · intro u _
      obtain ⟨last, v, hlast, hop⟩ := hb.jumps target hterm
      refine ⟨{ last with operation := last.operation.withTarget r }, r, ?_, ?_⟩
      · rw [Block.instructions_retarget, Block.getLast?_modifyLast, hlast]
        rfl
      · rw [hop]
        rfl
  · rename_i condition ifTrue ifFalse hterm
    have hterm' : (b.retarget r).terminator = .branch condition r ifFalse := by
      simp [Block.retarget, Block.modifyLast, hterm]
    refine ⟨?_, ?_, ?_, hhandlers⟩
    · intro u hu
      simp only [hterm', Terminator.successors, List.mem_eraseDups, List.mem_cons, List.not_mem_nil,
        or_false] at hu
      rcases hu with rfl | rfl
      · exact hb.targets u (by simp [hterm, Terminator.successors])
      · exact hr
    · intro u hu
      simp [hterm'] at hu
    · intro u hu
      simp [hterm'] at hu
  · cases ht

/-- A block follows with its jump led to where a walk comes to from the target. -/
theorem follows_retarget {b : Block} {t r : BlockId} (ht : b.jumpTarget? = some t) (hp : Passes g t r)
    (hk : ∀ id, Kept g h id) : Follows g h b (b.retarget r) := by
  refine ⟨b.seen_retarget r, fun ds => ?_⟩
  unfold Block.jumpTarget? at ht
  split at ht
  · rename_i target hterm
    obtain rfl := Option.some.inj ht
    have hterm' : (b.retarget r).terminator = .goto r := by simp [Block.retarget, Block.modifyLast, hterm]
    simp only [hterm, hterm', Terminator.next]
    exact ⟨trivial, hp, hk r⟩
  · rename_i condition ifTrue ifFalse hterm
    obtain rfl := Option.some.inj ht
    have hterm' : (b.retarget r).terminator = .branch condition r ifFalse := by
      simp [Block.retarget, Block.modifyLast, hterm]
    simp only [hterm, hterm', Terminator.next]
    split
    · exact ⟨trivial, hp, hk r⟩
    · exact ⟨trivial, .refl ifFalse, hk ifFalse⟩
  · cases ht

/-- Threading a block gives it another target or leaves it as it is. -/
theorem threadBlock_eq (g : FlowGraph) (id : BlockId) : g.threadBlock id = g ∨
    ∃ b t, g.block? id = some b ∧ b.jumpTarget? = some t ∧
      g.threadBlock id = g.modify id (·.retarget (g.follow t)) := by
  unfold threadBlock
  split
  · rename_i b hb
    split
    · rename_i t hterm
      by_cases hc : g.follow t ≠ t ∧ g.follow t ≠ id
      · exact .inr ⟨b, t, hb, by simp [Block.jumpTarget?, hterm], if_pos hc⟩
      · exact .inl (if_neg hc)
    · rename_i condition t ifFalse hterm
      by_cases hc : g.follow t ≠ t
      · exact .inr ⟨b, t, hb, by simp [Block.jumpTarget?, hterm], if_pos hc⟩
      · exact .inl (if_neg hc)
    · exact .inl rfl
  · exact .inl rfl

/-- Where the jump of a block ends. -/
theorem follow_spec (hg : g.WellFormed stop) {id t : BlockId} {b : Block} (hb : g.block? id = some b)
    (ht : b.jumpTarget? = some t) :
    Passes g t (g.follow t) ∧ (g.follow t ∈ g.ids ∨ g.follow t = stop) := by
  refine ⟨passes_followFrom hg _ _ _ t, followFrom_mem hg _ _ _ ?_⟩
  refine (hg.blocks b (mem_of_block? hb)).targets t ?_
  unfold Block.jumpTarget? at ht
  split at ht
  · rename_i hterm
    simpa [hterm, Terminator.successors] using ht.symm
  · rename_i hterm
    simp [hterm, Terminator.successors, Option.some.inj ht]
  · cases ht

/-! ## Returns -/

/-- The block is a single return. -/
def IsLoneReturn (b : Block) (type : Option OperandType) : Prop :=
  ∃ only, b.instructions = [only] ∧ only.operation = .return type

/-- What is found as a lone return is one. -/
theorem exists_isLoneReturn_of_loneReturn? {b : Block} {r : Instruction} (h : loneReturn? b = some r) :
    ∃ type, r = .return type ∧ IsLoneReturn b type := by
  unfold loneReturn? at h
  split at h
  · rename_i only honly
    split at h
    · rename_i type htype
      exact ⟨type, (Option.some.inj h).symm, only, honly, htype⟩
    · cases h
  · cases h

/-- Control does not go on behind a return. -/
def ReturnsEnd (g : FlowGraph) : Prop :=
  ∀ b ∈ g.blocks, ∀ type, IsLoneReturn b type → b.terminator = .return

/-- A change keeps that lone returns end the method, if it does so for the changed block. -/
theorem ReturnsEnd.modify {f : Block → Block} {id : BlockId} (hg : g.ReturnsEnd)
    (hf : ∀ b ∈ g.blocks, b.id = id → ∀ type, IsLoneReturn (f b) type → (f b).terminator = .return) :
    (g.modify id f).ReturnsEnd := by
  intro c hc type htype
  obtain ⟨b, hb, rfl⟩ := List.mem_map.1 hc
  split at htype
  · rename_i hbid
    rw [if_pos hbid]
    exact hf b hb hbid type htype
  · rename_i hbid
    rw [if_neg hbid]
    exact hg b hb type htype

/-- A block that jumps elsewhere is a lone return only if it was one. -/
theorem IsLoneReturn.of_retarget {b : Block} {t : BlockId} {type : Option OperandType}
    (h : IsLoneReturn (b.retarget t) type) : IsLoneReturn b type := by
  obtain ⟨only, honly, htype⟩ := h
  rw [Block.instructions_retarget] at honly
  rcases List.eq_nil_or_concat b.instructions with hnil | ⟨rest, last, hlast⟩
  · simp [Block.modifyLast, hnil, mapLast] at honly
  · simp only [Block.modifyLast, hlast, List.concat_eq_append, mapLast_append_singleton] at honly
    have hrest : rest = [] := by simpa using congrArg List.length honly
    subst hrest
    obtain rfl := List.singleton_inj.1 honly
    exact ⟨last, by simpa using hlast, Instruction.eq_return_of_withTarget htype⟩

/-- Threading one block keeps the shape of the graph and its walks. -/
theorem threadBlock_spec (hg : g.WellFormed stop) (hr : g.ReturnsEnd) (id : BlockId) :
    ((g.threadBlock id).WellFormed stop ∧ (g.threadBlock id).ReturnsEnd) ∧
      SameWalks g (g.threadBlock id) := by
  rcases g.threadBlock_eq id with heq | ⟨b, t, hb, ht, heq⟩
  · exact heq.symm ▸ ⟨⟨hg, hr⟩, .refl g⟩
  · obtain ⟨hpasses, hmem⟩ := follow_spec hg hb ht
    have hid : ∀ b : Block, (b.retarget (g.follow t)).id = b.id := fun b => b.id_retarget _
    have hfits : (b.retarget (g.follow t)).Fits g stop :=
      fits_retarget (hg.blocks b (mem_of_block? hb)) ht hmem
    rw [heq]
    refine ⟨⟨hg.modify hid hb hfits, hr.modify fun c hc hcid type htype => ?_⟩, ?_⟩
    · have hcb : c = b := by
        have hc' : g.block? id = some c := hcid ▸ block?_eq_some hg.sorted hc
        exact Option.some.inj (hc'.symm.trans hb)
      subst hcb
      have hterm := hr c hc type htype.of_retarget
      simp [Block.jumpTarget?, hterm] at ht
    · exact sameWalks_modify hg hid hb (follows_retarget ht hpasses (kept_modify hid))

/-- What every step keeps is kept by a sequence of steps. -/
theorem foldl_spec {α : Type} {P : FlowGraph → Prop} {f : FlowGraph → α → FlowGraph}
    (hf : ∀ g a, P g → P (f g a) ∧ SameWalks g (f g a)) (l : List α) (hg : P g) :
    P (l.foldl f g) ∧ SameWalks g (l.foldl f g) := by
  induction l generalizing g with
  | nil => exact ⟨hg, .refl g⟩
  | cons a l ih =>
    obtain ⟨hP, hwalks⟩ := hf g a hg
    obtain ⟨hP', hwalks'⟩ := ih hP
    exact ⟨hP', hwalks.trans hwalks'⟩

/-- Leading jumps past jumps keeps the graph well formed and its walks the same. -/
theorem threadJumps_spec (hg : g.WellFormed stop) (hr : g.ReturnsEnd) :
    (g.threadJumps.WellFormed stop ∧ g.threadJumps.ReturnsEnd) ∧ SameWalks g g.threadJumps :=
  @foldl_spec g _ (fun g => g.WellFormed stop ∧ g.ReturnsEnd) threadBlock
    (fun _ id h => threadBlock_spec h.1 h.2 id) g.ids ⟨hg, hr⟩

/-- The block with a return in the place of its last instruction. -/
def withReturn (type : Option OperandType) (b : Block) : Block :=
  { b.modifyLast fun _ => .return type with terminator := .return }

/-- Putting a return in the place of a jump replaces a jump to a lone return. -/
theorem inlineReturn_eq (g : FlowGraph) (id : BlockId) : g.inlineReturn id = g ∨
    ∃ b t u last c type, g.block? id = some b ∧ b.terminator = .goto t ∧
      b.instructions.getLast? = some last ∧ last.operation = .goto u ∧
      g.block? t = some c ∧ IsLoneReturn c type ∧
      g.inlineReturn id = g.modify id (withReturn type) := by
  unfold inlineReturn
  split
  · rename_i b hb
    split
    · rename_i t last hterm hlast
      by_cases hkeep : (g.boundaries.contains t || g.keepsJoin id t) = true
      · exact .inl (if_pos hkeep)
      · rw [if_neg hkeep]
        split
        · rename_i r u hr hu
          obtain ⟨c, hc, hlone⟩ := Option.bind_eq_some_iff.1 hr
          obtain ⟨type, rfl, htype⟩ := exists_isLoneReturn_of_loneReturn? hlone
          exact .inr ⟨b, t, u, last, c, type, hb, hterm, hlast, hu, hc, htype, rfl⟩
        · exact .inl rfl
    · exact .inl rfl
  · exact .inl rfl

/-- A block fits with a return in place of its jump. -/
theorem fits_withReturn {b : Block} {type : Option OperandType} (hb : b.Fits g stop) :
    (withReturn type b).Fits g stop := by
  refine ⟨?_, ?_, ?_, fun r hr j hj hcov => ?_⟩
  · intro t ht
    cases ht
  · intro t ht
    cases ht
  · intro t ht
    cases ht
  · obtain ⟨k, hk, haddr⟩ : ∃ k ∈ b.instructions, k.address = j.address :=
      @Block.exists_of_mem_modifyLast b (fun _ => .return type) j hj
    exact hb.handlers r hr k hk (haddr ▸ hcov)

/-- A jump and the return behind it show what the return shows in the place of the jump. -/
theorem seen_withReturn {b c : Block} {last : PlacedInstruction} {u : Address}
    {type : Option OperandType} (hlast : b.instructions.getLast? = some last)
    (hu : last.operation = .goto u) (hc : IsLoneReturn c type) :
    (withReturn type b).seen = b.seen ++ c.seen := by
  obtain ⟨rest, hrest⟩ := List.getLast?_eq_some_iff.1 hlast
  obtain ⟨only, honly, htype⟩ := hc
  simp [withReturn, Block.seen, Block.modifyLast, hrest, honly, htype, hu, mapLast_append_singleton,
    Instruction.seen]

/-- Copying a return into one block keeps the graph well formed and its walks the same. -/
theorem inlineReturn_spec (hg : g.WellFormed stop) (hr : g.ReturnsEnd) (id : BlockId) :
    ((g.inlineReturn id).WellFormed stop ∧ (g.inlineReturn id).ReturnsEnd) ∧
      SameWalks g (g.inlineReturn id) := by
  -- nothing is changed, or the jump of block `id` to a lone return becomes a return
  rcases g.inlineReturn_eq id with heq | ⟨b, t, u, last, c, type, hb, hterm, hlast, hu, hc, htype, heq⟩
  · exact heq.symm ▸ ⟨⟨hg, hr⟩, .refl g⟩
  · have hid : ∀ b, (withReturn type b).id = b.id := fun _ => rfl
    have hkept : ∀ i, Kept g (g.modify id (withReturn type)) i := kept_modify hid
    rw [heq]
    refine ⟨⟨hg.modify hid hb (fits_withReturn (hg.blocks b (mem_of_block? hb))),
      hr.modify fun _ _ _ _ _ => rfl⟩, ?_⟩
    refine Condenses.sameWalks (condenses_of_follows rfl (hkept _) fun id' d hd ds => ?_)
    have hmap := hd
    rw [block?_modify hid] at hmap
    obtain ⟨b', hb', rfl⟩ := Option.map_eq_some_iff.1 hmap
    have hbid : b'.id = id' := id_of_block? hb'
    -- at the block itself, the step to the return and over is one step now
    by_cases hsame : b'.id = id
    · obtain rfl : id' = id := hbid.symm.trans hsame
      obtain rfl : b' = b := Option.some.inj (hb'.symm.trans hb)
      rw [if_pos hsame] at hd
      have hcterm : c.terminator = .return := hr c (mem_of_block? hc) type htype
      have hstep : (g.modify id' (withReturn type)).step (some (id', ds)) =
          ((withReturn type b').seen ++ [.over], none) := by
        simp only [FlowGraph.step, hd]
        rfl
      rw [hstep]
      refine ⟨⟨1, ?_⟩, trivial⟩
      simp [runSteps, FlowGraph.step, hb, hterm, hc, hcterm, Terminator.next,
        seen_withReturn hlast hu htype]
    · rw [if_neg hsame] at hd
      exact (Follows.refl fun t _ => hkept t).step hb' hd ds

/-- Copying returns into all blocks keeps the graph well formed and its walks the same. -/
theorem inlineReturns_spec (hg : g.WellFormed stop) (hr : g.ReturnsEnd) :
    (g.inlineReturns.WellFormed stop ∧ g.inlineReturns.ReturnsEnd) ∧ SameWalks g g.inlineReturns :=
  @foldl_spec g _ (fun g => g.WellFormed stop ∧ g.ReturnsEnd) inlineReturn
    (fun _ id h => inlineReturn_spec h.1 h.2 id) g.ids ⟨hg, hr⟩

/-! ## Jumps to the next block -/

/-- A block whose jump is dropped falls through to the target of the jump. -/
structure FallsInstead (g : FlowGraph) (b c : Block) (t : BlockId) : Prop where
  goto : b.terminator = .goto t
  next : g.nextBlock? b.id = some t
  id : c.id = b.id
  terminator : c.terminator = .fallThrough t
  seen : c.seen = b.seen
  instructions : ∀ i ∈ c.instructions, i ∈ b.instructions

/-- Taking a jump away leaves the block as it is, or has it fall to where it jumped. -/
theorem dropJump_eq (g : FlowGraph) (b : Block) :
    g.dropJump b = b ∨ ∃ t, FallsInstead g b (g.dropJump b) t := by
  unfold dropJump
  split
  · rename_i t hterm
    split
    · rename_i hnext
      right
      refine ⟨t, hterm, hnext, rfl, rfl, ?_, ?_⟩
      · unfold Block.seen
        split
        · rename_i u hu
          obtain ⟨last, hlast, hop⟩ := Option.map_eq_some_iff.1 hu
          obtain ⟨rest, hrest⟩ := List.getLast?_eq_some_iff.1 hlast
          simp [hrest, hop, Instruction.seen]
        · rfl
      · intro i hi
        simp only at hi
        split at hi
        · exact List.dropLast_subset _ hi
        · exact hi
    · exact .inl rfl
  · exact .inl rfl

/-- A block without its jump is known by the same name. -/
theorem id_dropJump (b : Block) : (g.dropJump b).id = b.id := by
  rcases g.dropJump_eq b with heq | ⟨t, hfalls⟩
  · rw [heq]
  · exact hfalls.id

/-- The next block is further down. -/
theorem lt_of_nextBlock? {id t : BlockId} (h : g.nextBlock? id = some t) : id < t := by
  simpa using List.find?_some h

/-- A block fits without a jump to the next block. -/
theorem fits_dropJump {b : Block} (hb : b.Fits g stop) : (g.dropJump b).Fits g stop := by
  rcases g.dropJump_eq b with heq | ⟨t, hfalls⟩
  · exact heq.symm ▸ hb
  · refine ⟨?_, ?_, ?_, fun r hr i hi hcov => hb.handlers r hr i (hfalls.instructions i hi) hcov⟩
    · intro u hu
      refine hb.targets u ?_
      simpa [hfalls.terminator, hfalls.goto, Terminator.successors] using hu
    · intro u hu
      obtain rfl : t = u := by simpa [hfalls.terminator] using hu
      rw [hfalls.id]
      exact lt_of_nextBlock? hfalls.next
    · intro u hu
      simp [hfalls.terminator] at hu

/-- A block without a jump to the next block goes where it went. -/
theorem follows_dropJump {b : Block} (hk : ∀ id, Kept g h id) : Follows g h b (g.dropJump b) := by
  rcases g.dropJump_eq b with heq | ⟨t, hfalls⟩
  · rw [heq]
    exact .refl fun t _ => hk t
  · refine follows_of_next (f := fun t => t) hfalls.seen (fun ds => ?_) fun t _ => ⟨.refl t, hk t⟩
    simp [hfalls.terminator, hfalls.goto, Terminator.next]

/-! ## Empty blocks -/

/-- An empty block other than the entry, and the block behind it. No handler starts there. -/
structure IsEmptyBlock (g : FlowGraph) (id target : BlockId) : Prop where
  block : ∃ b, g.block? id = some b ∧ b.instructions = [] ∧ b.terminator = .fallThrough target
  ne_entry : id ≠ g.entry
  ne_handler : ∀ r ∈ g.ranges, r.handler ≠ id

/-- What is listed as an empty block does nothing but go on to the block that it is listed with. -/
theorem isEmptyBlock_of_mem_emptyBlocks (hs : g.ids.Pairwise (· < ·)) {e : BlockId × BlockId}
    (he : e ∈ g.emptyBlocks) : IsEmptyBlock g e.1 e.2 := by
  obtain ⟨b, hb, he⟩ := List.mem_filterMap.1 he
  split at he
  · rename_i hc
    simp only [Bool.and_eq_true, List.isEmpty_iff, decide_eq_true_eq, Bool.not_eq_true',
      List.contains_eq_mem, decide_eq_false_iff_not] at hc
    obtain ⟨⟨hempty, hentry⟩, hboundary⟩ := hc
    split at he
    · rename_i t hterm
      split at he
      · obtain rfl := Option.some.inj he
        refine ⟨⟨b, block?_eq_some hs hb, hempty, hterm⟩, hentry, fun r hr heq => hboundary ?_⟩
        simp only [boundaries, sortedSet, List.mem_mergeSort, List.mem_eraseDups, List.mem_flatMap]
        exact ⟨r, hr, by simp [heq]⟩
      · cases he
    · cases he
  · cases he

/-- Empty blocks are listed in their order. -/
theorem pairwise_emptyBlocks (hs : g.ids.Pairwise (· < ·)) :
    (g.emptyBlocks.map (·.1)).Pairwise (· < ·) := by
  have hsub : (g.emptyBlocks.map (·.1)).Sublist g.ids := by
    unfold emptyBlocks ids
    induction g.blocks with
    | nil => exact .slnil
    | cons b blocks ih =>
      rw [List.filterMap_cons, List.map_cons]
      split
      · exact ih.cons _
      · rename_i e he
        have hid : e.1 = b.id := by grind
        rw [List.map_cons, hid]
        exact ih.cons_cons _
  exact hs.sublist hsub

/-- Where an edge leads after `source` has been bypassed. -/
def swap (source target t : BlockId) : BlockId := if t = source then target else t

/-- The blocks of a graph after an empty block has been bypassed, the empty block among them. -/
def bypassed (g : FlowGraph) (source target : BlockId) (b : Block) : Block :=
  if (g.predecessors source).contains b.id then b.redirect source target else b

/-- An empty block is bypassed by changing all jumps to it and taking it away. -/
theorem bypass_eq (g : FlowGraph) (source target : BlockId) : g.bypass source target =
    (g.mapBlocks (g.bypassed source target)).keepIds (· ≠ source) := rfl

/-- A block that jumps past an empty block is known by the same name. -/
theorem id_bypassed {source target : BlockId} (b : Block) :
    (g.bypassed source target b).id = b.id := by
  unfold bypassed
  split <;> rfl

section Bypass

variable {source target : BlockId}

/-- Every edge to a block that is bypassed leads to the block behind it instead. -/
theorem terminator_bypassed (hs : g.ids.Pairwise (· < ·)) {b : Block} (hb : b ∈ g.blocks) :
    (g.bypassed source target b).terminator = b.terminator.mapTargets (swap source target) := by
  unfold bypassed
  split
  · rfl
  · rename_i hpred
    refine (Terminator.mapTargets_eq_self fun u hu => if_neg ?_).symm
    rintro rfl
    refine hpred ?_
    simp only [predecessors, List.contains_eq_mem, List.mem_filter, decide_eq_true_eq]
    refine ⟨mem_ids hb, ?_⟩
    simpa [successors, block?_eq_some hs hb] using hu

/-- Jumping past an empty block is not seen. -/
theorem seen_bypassed (b : Block) : (g.bypassed source target b).seen = b.seen := by
  unfold bypassed
  split
  · exact b.seen_redirect source target
  · rfl

/-- Bypassing leaves every instruction in its place. -/
theorem exists_of_mem_bypassed {b : Block} {i : PlacedInstruction}
    (hi : i ∈ (g.bypassed source target b).instructions) :
    ∃ j ∈ b.instructions, j.address = i.address := by
  unfold bypassed at hi
  split at hi
  · exact @Block.exists_of_mem_modifyLast b (·.mapTargets _) i hi
  · exact ⟨i, hi, rfl⟩

/-- A block that ends in a jump still does when the jump leads past an empty block. -/
theorem getLast?_bypassed {b : Block} {last : PlacedInstruction} {u : Address}
    (hlast : b.instructions.getLast? = some last) (hu : last.operation = .goto u) :
    ∃ last' u', (g.bypassed source target b).instructions.getLast? = some last' ∧
      last'.operation = .goto u' := by
  unfold bypassed
  split
  · refine ⟨{ last with operation := last.operation.mapTargets (swap source target) },
      swap source target u, ?_, ?_⟩
    · exact (Block.getLast?_modifyLast b _).trans (by rw [hlast]; rfl)
    · rw [hu]
      rfl
  · exact ⟨last, u, hlast, hu⟩

/-- The block behind an empty block. -/
theorem IsEmptyBlock.target_spec (hg : g.WellFormed stop) (he : IsEmptyBlock g source target) :
    source < target ∧ (target ∈ g.ids ∨ target = stop) ∧ Passes g source target := by
  obtain ⟨b, hb, hempty, hterm⟩ := he.block
  have hfits := hg.blocks b (mem_of_block? hb)
  refine ⟨id_of_block? hb ▸ hfits.downward target hterm, hfits.targets target ?_, ?_⟩
  · simp [hterm, Terminator.successors]
  · exact passes_of_seen_eq_nil hb (by simp [Block.seen, hempty]) (.inr hterm)

/-- Only the empty block goes. -/
theorem mem_ids_bypass {id : BlockId} : id ∈ (g.bypass source target).ids ↔ id ∈ g.ids ∧ id ≠ source := by
  rw [bypass_eq, mem_ids_keepIds, ids_mapBlocks id_bypassed, decide_eq_true_iff]

/-- An edge that leads to a block or to the end of the code does so after it has been led past an empty
block. -/
theorem swap_mem (he : IsEmptyBlock g source target) (hg : g.WellFormed stop) {t : BlockId}
    (ht : t ∈ g.ids ∨ t = stop) :
    swap source target t ∈ (g.bypass source target).ids ∨ swap source target t = stop := by
  obtain ⟨hlt, htarget, -⟩ := he.target_spec hg
  rw [mem_ids_bypass]
  unfold swap
  split
  · rcases htarget with hmem | hstop
    · exact .inl ⟨hmem, (Nat.ne_of_lt hlt).symm⟩
    · exact .inr hstop
  · rename_i hne
    rcases ht with hmem | hstop
    · exact .inl ⟨hmem, hne⟩
    · exact .inr hstop

/-- A block that jumps past an empty block fits into the graph without that block. -/
theorem fits_bypassed (he : IsEmptyBlock g source target) (hg : g.WellFormed stop) {b : Block}
    (hb : b ∈ g.blocks) : (g.bypassed source target b).Fits (g.bypass source target) stop := by
  have hfits := hg.blocks b hb
  have hterm : (g.bypassed source target b).terminator = b.terminator.mapTargets (swap source target) :=
    terminator_bypassed hg.sorted hb
  refine ⟨fun t ht => ?_, fun t ht => ?_, fun t ht => ?_, fun r hr i hi hcov => ?_⟩
  · rw [hterm] at ht
    obtain ⟨u, hu, rfl⟩ := Terminator.exists_of_mem_successors_mapTargets ht
    exact swap_mem he hg (hfits.targets u hu)
  -- falling through leads down: the target of an empty block is below it
  · rw [id_bypassed]
    cases hbt : b.terminator with
    | fallThrough u =>
      have hlt := hfits.downward u hbt
      obtain rfl : swap source target u = t := by simpa [hbt, hterm, Terminator.mapTargets] using ht
      unfold swap
      split
      · rename_i hu
        exact Nat.lt_trans hlt (hu ▸ (he.target_spec hg).1)
      · exact hlt
    | _ => simp [hbt, hterm, Terminator.mapTargets] at ht
  · cases hbt : b.terminator with
    | goto u =>
      obtain ⟨last, v, hlast, hv⟩ := hfits.jumps u hbt
      exact getLast?_bypassed hlast hv
    | _ => simp [hbt, hterm, Terminator.mapTargets] at ht
  -- no handler is the empty block
  · obtain ⟨j, hj, haddr⟩ := exists_of_mem_bypassed hi
    exact mem_ids_bypass.2 ⟨hfits.handlers r hr j hj (haddr ▸ hcov), he.ne_handler r hr⟩

/-- A graph stays well formed without an empty block. -/
theorem wellFormed_bypass (he : IsEmptyBlock g source target) (hg : g.WellFormed stop) :
    (g.bypass source target).WellFormed stop := by
  have hids : (g.mapBlocks (g.bypassed source target)).ids = g.ids := ids_mapBlocks id_bypassed
  have hsub : (g.bypass source target).ids.Sublist g.ids := by
    rw [← hids]
    exact List.filter_sublist.map Block.id
  refine ⟨hg.sorted.sublist hsub, fun id hid => hg.bounded id (hsub.subset hid), fun hne => ?_,
    fun c hc => ?_⟩
  · refine mem_ids_bypass.2 ⟨hg.entry fun hnil => hne ?_, he.ne_entry.symm⟩
    simp [bypass, hnil]
  · obtain ⟨hc, -⟩ := List.mem_filter.1 hc
    obtain ⟨b, hb, rfl⟩ := List.mem_map.1 hc
    exact fits_bypassed he hg hb

/-- A walk that would come to an empty block comes to the block behind it. -/
theorem sameWalks_bypass (he : IsEmptyBlock g source target) (hg : g.WellFormed stop) :
    SameWalks g (g.bypass source target) := by
  obtain ⟨hlt, -, hpasses⟩ := he.target_spec hg
  have hkept : ∀ id, id ≠ source → Kept g (g.bypass source target) id :=
    fun id hid hmem => mem_ids_bypass.2 ⟨hmem, hid⟩
  refine Condenses.sameWalks (condenses_of_follows rfl (hkept _ he.ne_entry.symm) fun id c hc ds => ?_)
  obtain ⟨-, hmap⟩ := block?_of_keepIds (bypass_eq g source target ▸ hc)
  rw [block?_mapBlocks id_bypassed] at hmap
  obtain ⟨b, hb, rfl⟩ := Option.map_eq_some_iff.1 hmap
  have hterm : (g.bypassed source target b).terminator = b.terminator.mapTargets (swap source target) :=
    terminator_bypassed hg.sorted (mem_of_block? hb)
  -- every way that came to the source goes on to its target without a trace
  refine (follows_of_next (f := swap source target) (seen_bypassed b) (fun ds => ?_)
    fun t _ => ?_).step hb hc ds
  · rw [hterm, Terminator.next_mapTargets]
  · unfold swap
    split
    · rename_i ht
      exact ⟨ht ▸ hpasses, hkept target (Nat.ne_of_lt hlt).symm⟩
    · rename_i hne
      exact ⟨.refl t, hkept t hne⟩

/-- An empty block further down is still there after a block has been bypassed. -/
theorem IsEmptyBlock.bypass {id t : BlockId} (hg : g.WellFormed stop) (h : IsEmptyBlock g id t)
    (hlt : source < id) :
    IsEmptyBlock (g.bypass source target) id t := by
  obtain ⟨b, hb, hempty, hterm⟩ := h.block
  have hne : id ≠ source := (Nat.ne_of_lt hlt).symm
  refine ⟨⟨g.bypassed source target b, ?_, ?_, ?_⟩, h.ne_entry, h.ne_handler⟩
  · rw [bypass_eq, block?_keepIds (by simpa using hne), block?_mapBlocks id_bypassed, hb]
    rfl
  · refine List.eq_nil_iff_forall_not_mem.2 fun i hi => ?_
    obtain ⟨j, hj, -⟩ := exists_of_mem_bypassed hi
    simp [hempty] at hj
  · have hlt' : source < t := Nat.lt_trans hlt (h.target_spec hg).1
    have hswap : swap source target t = t := if_neg (Nat.ne_of_lt hlt').symm
    rw [terminator_bypassed hg.sorted (mem_of_block? hb), hterm, Terminator.mapTargets, hswap]

end Bypass

/-- Taking out empty blocks, one after the other, keeps the shape of the graph and its walks. -/
theorem foldl_bypass_spec {empties : List (BlockId × BlockId)} (hg : g.WellFormed stop)
    (hsorted : (empties.map (·.1)).Pairwise (· < ·))
    (he : ∀ e ∈ empties, IsEmptyBlock g e.1 e.2) :
    (empties.foldl (fun g (id, target) => g.bypass id target) g).WellFormed stop ∧
      SameWalks g (empties.foldl (fun g (id, target) => g.bypass id target) g) := by
  induction empties generalizing g with
  | nil => exact ⟨hg, .refl g⟩
  | cons e empties ih =>
    obtain ⟨hlt, hsorted⟩ := List.pairwise_cons.1 hsorted
    have hfirst := he e List.mem_cons_self
    obtain ⟨hg', hwalks⟩ := ih (wellFormed_bypass hfirst hg) hsorted fun e' he' =>
      (he e' (List.mem_cons_of_mem _ he')).bypass hg (hlt e'.1 (List.mem_map_of_mem he'))
    exact ⟨hg', (sameWalks_bypass hfirst hg).trans hwalks⟩

/-- One round of dropping jumps and taking out empty blocks. -/
theorem dropJumpsWithin_spec (rounds : Nat) (hg : g.WellFormed stop) :
    (dropJumpsWithin rounds g).WellFormed stop ∧ SameWalks g (dropJumpsWithin rounds g) := by
  induction rounds generalizing g with
  | zero => exact ⟨hg, .refl g⟩
  | succ rounds ih =>
    unfold dropJumpsWithin
    have hdropped : (g.mapBlocks g.dropJump).WellFormed stop :=
      hg.mapBlocks id_dropJump fun b hb => fits_dropJump (hg.blocks b hb)
    have hwalks : SameWalks g (g.mapBlocks g.dropJump) :=
      sameWalks_mapBlocks id_dropJump fun b _ => follows_dropJump (kept_mapBlocks id_dropJump)
    obtain ⟨hbypassed, hwalks'⟩ := foldl_bypass_spec hdropped (pairwise_emptyBlocks hdropped.sorted)
      fun e he => isEmptyBlock_of_mem_emptyBlocks hdropped.sorted he
    obtain ⟨hrest, hwalks''⟩ := ih hbypassed
    dsimp only
    split
    · exact ⟨hg, .refl g⟩
    · exact ⟨hrest, (hwalks.trans hwalks').trans hwalks''⟩

/-- Dropping jumps to the next block keeps the graph well formed and its walks the same. -/
theorem dropJumps_spec (hg : g.WellFormed stop) :
    g.dropJumps.WellFormed stop ∧ SameWalks g g.dropJumps :=
  dropJumpsWithin_spec _ hg

/-! ## Unreachable blocks -/

/-- A block that control comes to in one step from a reachable block is reachable. -/
theorem mem_reversePostorder_of_mem_allSuccessors {a b : BlockId} (ha : a ∈ g.reversePostorder)
    (hb : b ∈ g.allSuccessors a) (hmem : b ∈ g.ids) : b ∈ g.reversePostorder :=
  Digraph.next_mem_reversePostorder (G := g.digraph) ha hb hmem

/-- Control reaches the entry. -/
theorem entry_mem_reversePostorder (h : g.entry ∈ g.ids) : g.entry ∈ g.reversePostorder :=
  Digraph.start_mem_reversePostorder (G := g.digraph) h

/-- A handler of an instruction of a block is a successor of the block. -/
theorem handler_mem_allSuccessors {b : Block} {r : ProtectedRange} {i : PlacedInstruction} {id : BlockId}
    (hb : g.block? id = some b) (hr : r ∈ g.ranges) (hi : i ∈ b.instructions)
    (hcov : r.covers i.address = true) : r.handler ∈ g.allSuccessors id := by
  have hexc : r.handler ∈ g.exceptionSuccessors id := by
    simp only [exceptionSuccessors, hb, sortedSet, List.mem_mergeSort, List.mem_eraseDups,
      List.mem_map, List.mem_filter, List.any_eq_true]
    exact ⟨r, ⟨hr, i, hi, hcov⟩, rfl⟩
  by_cases hmem : r.handler ∈ g.successors id
  · exact List.mem_append_left _ hmem
  · exact List.mem_append_right _ (List.mem_filter.2 ⟨hexc, by simpa using hmem⟩)

/-- Only the blocks that control reaches are kept. -/
theorem removeUnreachable_eq (g : FlowGraph) :
    g.removeUnreachable = g.keepIds g.reversePostorder.contains := rfl

/-- Dropping blocks that control does not reach keeps the graph well formed and its walks the same. -/
theorem removeUnreachable_spec (hg : g.WellFormed stop) :
    g.removeUnreachable.WellFormed stop ∧ SameWalks g g.removeUnreachable := by
  have hkept : ∀ id ∈ g.reversePostorder, Kept g g.removeUnreachable id := by
    intro id hid hmem
    rw [removeUnreachable_eq, mem_ids_keepIds]
    exact ⟨hmem, by simpa using hid⟩
  -- what a reachable block leads to is reachable, so that it is not removed either
  have hclosed : ∀ id b t, g.block? id = some b → id ∈ g.reversePostorder →
      t ∈ b.terminator.successors → Kept g g.removeUnreachable t := by
    intro id b t hb hid ht hmem
    refine hkept t (mem_reversePostorder_of_mem_allSuccessors hid ?_ hmem) hmem
    exact List.mem_append_left _ (by simpa only [successors, hb] using ht)
  constructor
  · rw [removeUnreachable_eq]
    refine hg.keepIds (fun h => by simpa using entry_mem_reversePostorder h) fun b hb hp => ?_
    rw [← removeUnreachable_eq]
    have hfits := hg.blocks b hb
    have hid : b.id ∈ g.reversePostorder := by simpa using hp
    have hb' : g.block? b.id = some b := block?_eq_some hg.sorted hb
    refine ⟨fun t ht => ?_, hfits.downward, hfits.jumps, fun r hr i hi hcov => ?_⟩
    · exact (hfits.targets t ht).imp_left (hclosed b.id b t hb' hid ht)
    · have hmem := hfits.handlers r hr i hi hcov
      have hsucc := handler_mem_allSuccessors hb' hr hi hcov
      exact hkept _ (mem_reversePostorder_of_mem_allSuccessors hid hsucc hmem) hmem
  · refine Condenses.sameWalks (condenses_of_follows rfl
      (fun h => hkept _ (entry_mem_reversePostorder h) h) fun id c hc ds => ?_)
    obtain ⟨hp, hb⟩ := block?_of_keepIds (removeUnreachable_eq g ▸ hc)
    exact (Follows.refl fun t ht => hclosed id c t hb (by simpa using hp) ht).step hb hc ds

/-! ## All of it -/

/-- What jumps are for has no influence on walks. -/
theorem classifyJumps_spec (hg : g.WellFormed stop) :
    g.classifyJumps.WellFormed stop ∧ SameWalks g g.classifyJumps := by
  refine ⟨⟨hg.sorted, hg.bounded, hg.entry, fun b hb => ?_⟩, ?_⟩
  · have hfits := hg.blocks b hb
    exact ⟨hfits.targets, hfits.downward, hfits.jumps, hfits.handlers⟩
  · refine Condenses.sameWalks (condenses_of_follows rfl (fun h => h) fun id c hc ds => ?_)
    have hb : g.block? id = some c := hc
    exact (Follows.refl fun t _ h => h).step hb hc ds

/-- All rewrites of jumps together keep the graph well formed and its walks the same. -/
theorem reduceJumps_spec (inlineReturns : Bool) (hg : g.WellFormed stop) (hr : g.ReturnsEnd) :
    (g.reduceJumps inlineReturns).WellFormed stop ∧ SameWalks g (g.reduceJumps inlineReturns) := by
  obtain ⟨⟨h₁, hr₁⟩, w₁⟩ := threadJumps_spec hg hr
  have h₂ : (if inlineReturns then g.threadJumps.inlineReturns else g.threadJumps).WellFormed stop ∧
      SameWalks g.threadJumps
        (if inlineReturns then g.threadJumps.inlineReturns else g.threadJumps) := by
    split
    · obtain ⟨⟨h, -⟩, w⟩ := inlineReturns_spec h₁ hr₁
      exact ⟨h, w⟩
    · exact ⟨h₁, .refl _⟩
  obtain ⟨h₂, w₂⟩ := h₂
  obtain ⟨h₃, w₃⟩ := dropJumps_spec h₂
  obtain ⟨h₄, w₄⟩ := removeUnreachable_spec h₃
  obtain ⟨h₅, w₅⟩ := classifyJumps_spec h₄
  exact ⟨h₅, w₁.trans (w₂.trans (w₃.trans (w₄.trans w₅)))⟩

/-- In a graph of code, control does not go on behind a return. -/
theorem returnsEnd_ofCode (code : MethodCode) : (ofCode code).ReturnsEnd := by
  intro b hb type ⟨only, honly, htype⟩
  obtain ⟨group, -, hblock⟩ := List.mem_filterMap.1 hb
  unfold blockOf? at hblock
  split at hblock
  · rename_i first last hfirst hlast
    obtain rfl := Option.some.inj hblock
    obtain rfl : group = [only] := honly
    obtain rfl : only = last := by simpa using hlast
    simp [Terminator.ofInstruction, htype]
  · cases hblock

/-- Reducing the jumps of decoded code keeps its walks, and every edge of the reduced graph leads to one
of its blocks or to the end of the code. -/
theorem sameWalks_reduceJumps {pool : ConstantPool} {attr : CodeAttribute} {code : MethodCode}
    (h : MethodCode.decode pool attr = .ok code) (inlineReturns : Bool) :
    SameWalks (ofCode code) ((ofCode code).reduceJumps inlineReturns) ∧
      ∀ e ∈ ((ofCode code).reduceJumps inlineReturns).edges,
        e.target ∈ ((ofCode code).reduceJumps inlineReturns).ids ∨ e.target = code.length := by
  have hcode : (ofCode code).WellFormed code.length :=
    wellFormed_ofCode (MethodCode.wellFormed_of_decode h)
  obtain ⟨hreduced, hwalks⟩ := reduceJumps_spec inlineReturns hcode (returnsEnd_ofCode code)
  exact ⟨hwalks, fun e he => hreduced.target_of_mem_edges he⟩

/-- Code in which a jump leads to a lone return. -/
def jumpToReturn : CodeAttribute :=
  ⟨1, 1, [0x1a, 0x99, 0x00, 0x06, 0xa7, 0x00, 0x04, 0x00, 0xb1], [], []⟩

/-- A method that jumps to a return has the same walks when the return is copied in place of the jump. -/
theorem sameWalks_reduceJumps_jumpToReturn :
    ∃ code, MethodCode.decode .empty jumpToReturn = .ok code ∧
      SameWalks (ofCode code) ((ofCode code).reduceJumps true) ∧
      ∀ e ∈ ((ofCode code).reduceJumps true).edges,
        e.target ∈ ((ofCode code).reduceJumps true).ids ∨ e.target = code.length := by
  have hdecode : ∃ code, MethodCode.decode .empty jumpToReturn = .ok code := ⟨_, rfl⟩
  obtain ⟨code, hcode⟩ := hdecode
  exact ⟨code, hcode, sameWalks_reduceJumps hcode true⟩

end FlowGraph

end JvmDecompiler
