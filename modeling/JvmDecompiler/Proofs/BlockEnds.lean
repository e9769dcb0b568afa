import JvmDecompiler.FlowGraph.LoopShapes
import JvmDecompiler.Proofs.JumpReduction
import Mathlib.Data.List.TakeDrop

/-!
# How blocks end

A block is sealed if the instruction at its end is one that its terminator can stand for, and no
instruction before it ends a block. The blocks of decoded code are sealed, and they stay sealed when
jumps are reduced and when blocks are cut to recognise loops.
-/

namespace JvmDecompiler

/-- Whether a block with the terminator can end in the instruction. -/
def Terminator.endsWith : Terminator → Instruction → Bool
  | .fallThrough _, i => !i.endsBlock
  | .goto _, .goto _ => true
  | .branch .., i => i.isConditionalBranch
  | .switch .., .switch .. => true
  | .return, .return _ => true
  | .throw, .throw => true
  | .jsr .., .jsr _ => true
  | .ret, .ret _ => true
  | _, _ => false

/-- A block that ends as its terminator says, and not before. -/
structure Block.Sealed (b : Block) : Prop where
  inner : ∀ i ∈ b.instructions.dropLast, i.operation.endsBlock = false
  last : ∀ i, b.instructions.getLast? = some i → b.terminator.endsWith i.operation = true
  empty : b.instructions = [] → ∃ t, b.terminator = .fallThrough t

/-- The terminator that is made of an instruction lets the block end with it. -/
theorem Terminator.endsWith_ofInstruction (last : PlacedInstruction) :
    (Terminator.ofInstruction last).endsWith last.operation = true := by
  unfold Terminator.ofInstruction
  split <;> rename_i h <;> try simp [Terminator.endsWith, h, Instruction.isConditionalBranch]
  rename_i h₁ h₂ h₃ h₄ h₅ h₆ h₇ h₈ h₉ h₁₀
  cases hop : last.operation <;> simp_all [Instruction.endsBlock, Instruction.isConditionalBranch,
    Instruction.isUnconditionalTransfer]

/-- To move the targets of both leaves them fitting. -/
theorem Terminator.endsWith_mapTargets (f : Address → Address) (t : Terminator) (i : Instruction) :
    (t.mapTargets f).endsWith (i.mapTargets f) = t.endsWith i := by
  cases t <;> cases i <;> rfl

namespace Block.Sealed

variable {b c : Block}

/-- A sealed block stays sealed when its last instruction and its terminator are changed alike. -/
theorem of_modifyLast {f : Instruction → Instruction} (hb : b.Sealed)
    (hi : c.instructions = (b.modifyLast f).instructions)
    (hlast : ∀ i, b.terminator.endsWith i = true → c.terminator.endsWith (f i) = true)
    (hempty : ∀ t, b.terminator = .fallThrough t → ∃ u, c.terminator = .fallThrough u) : c.Sealed := by
  rcases List.eq_nil_or_concat b.instructions with hnil | ⟨rest, last, hconcat⟩
  · have hc : c.instructions = [] := by simp [hi, modifyLast, hnil, mapLast]
    obtain ⟨t, ht⟩ := hb.empty hnil
    exact ⟨by simp [hc], by simp [hc], fun _ => hempty t ht⟩
  · rw [List.concat_eq_append] at hconcat
    have hc : c.instructions = rest ++ [{ last with operation := f last.operation }] := by
      simp only [hi, modifyLast, hconcat, mapLast_append_singleton]
    refine ⟨fun i hmem => hb.inner i ?_, fun i hmem => ?_, fun hnil => ?_⟩
    · simpa [hc, hconcat] using hmem
    · obtain rfl : { last with operation := f last.operation } = i := by simpa [hc] using hmem
      exact hlast _ (hb.last last (by simp [hconcat]))
    · simp [hc] at hnil

/-- A block whose body ends with an instruction that ends no block goes on to one other block. -/
theorem exists_goesOn (hb : b.Sealed) {last : PlacedInstruction} (hlast : b.body.getLast? = some last)
    (hop : last.operation.endsBlock = false) :
    ∃ t, b.terminator = .fallThrough t ∨ b.terminator = .goto t := by
  cases hterm : b.terminator with
  | fallThrough t => exact ⟨t, .inl rfl⟩
  | goto t => exact ⟨t, .inr rfl⟩
  | _ =>
    have hbody : b.body = b.instructions := by simp [Block.body, hterm]
    have hends := hb.last last (hbody ▸ hlast)
    cases hi : last.operation <;> simp_all [Terminator.endsWith, Instruction.endsBlock,
      Instruction.isConditionalBranch, Instruction.isUnconditionalTransfer]

/-- A block whose jump is moved is still sealed. -/
theorem retarget (hb : b.Sealed) {t target : BlockId} (ht : b.jumpTarget? = some t) :
    (b.retarget target).Sealed := by
  obtain ⟨id, instructions, terminator⟩ := b
  refine hb.of_modifyLast (instructions_retarget _ target) (fun i hi => ?_) fun u hu => ?_
  · cases terminator <;> simp only [jumpTarget?, reduceCtorEq] at ht <;> cases i <;>
      first | rfl | cases hi
  · simp only at hu
    simp [jumpTarget?, hu] at ht

/-- So is one whose targets are moved. -/
theorem redirect (hb : b.Sealed) (source target : BlockId) : (b.redirect source target).Sealed := by
  refine hb.of_modifyLast rfl (fun i hi => ?_) fun t ht => ?_
  · exact (Terminator.endsWith_mapTargets _ _ _).trans hi
  · exact ⟨if t = source then target else t, by simp [Block.redirect, ht, Terminator.mapTargets]⟩

/-- So is one that gets a return in the place of its jump. -/
theorem withReturn (hb : b.Sealed) {last : PlacedInstruction} {u : Address}
    (hlast : b.instructions.getLast? = some last) (hu : last.operation = .goto u)
    (type : Option OperandType) : (FlowGraph.withReturn type b).Sealed := by
  refine hb.of_modifyLast (f := fun _ => .return type) rfl (fun _ _ => rfl) fun t ht => ?_
  have := hb.last last hlast
  simp [ht, hu, Terminator.endsWith, Instruction.endsBlock, Instruction.isUnconditionalTransfer] at this

/-- So is one that falls through instead of jumping to the next block. -/
theorem dropJump (hb : b.Sealed) (g : FlowGraph) : (g.dropJump b).Sealed := by
  unfold FlowGraph.dropJump
  split
  · rename_i t hterm
    split
    · split
      · rename_i u hu
        obtain ⟨last, hlast, hop⟩ := Option.map_eq_some_iff.1 hu
        obtain ⟨rest, hrest⟩ := List.getLast?_eq_some_iff.1 hlast
        refine ⟨fun i hi => hb.inner i ?_, fun i hi => ?_, fun _ => ⟨t, rfl⟩⟩
        · exact List.dropLast_subset _ hi
        · have := hb.inner i (List.mem_of_getLast? hi)
          simp [Terminator.endsWith, this]
      · rename_i hne
        -- a sealed block with this terminator has a jump at its end
        cases hlast : b.instructions.getLast? with
        | none =>
          obtain ⟨u, hu⟩ := hb.empty (List.getLast?_eq_none_iff.1 hlast)
          simp [hu] at hterm
        | some last =>
          have hends := hb.last last hlast
          cases hop : last.operation <;> simp [hterm, hop, Terminator.endsWith] at hends
          rename_i u
          exact absurd (by simp [hlast, hop]) (hne u)
    · exact hb
  · exact hb

/-- Both halves of a sealed block are sealed. -/
theorem split (hb : b.Sealed) {n : Nat} (hn : n < b.instructions.length) (address : Address) :
    (⟨b.id, b.instructions.take n, .fallThrough address⟩ : Block).Sealed ∧
      (⟨address, b.instructions.drop n, b.terminator⟩ : Block).Sealed := by
  have htake : ∀ i ∈ b.instructions.take n, i.operation.endsBlock = false := by
    intro i hi
    refine hb.inner i ?_
    rw [List.dropLast_eq_take]
    exact List.take_subset_take_left _ (by omega) hi
  refine ⟨⟨fun i hi => htake i (List.dropLast_subset _ hi), fun i hi => ?_, fun _ => ⟨_, rfl⟩⟩, ?_⟩
  · simp [Terminator.endsWith, htake i (List.mem_of_getLast? hi)]
  · refine ⟨fun i hi => hb.inner i ?_, fun i hi => hb.last i ?_, fun hnil => ?_⟩
    · rw [List.dropLast_drop_eq_drop_dropLast] at hi
      exact List.drop_subset _ _ hi
    · rwa [List.getLast?_drop, if_neg (by omega)] at hi
    · simp at hnil
      omega

end Block.Sealed

namespace FlowGraph

/-- Every block of the graph is sealed. -/
def Sealed (g : FlowGraph) : Prop := ∀ b ∈ g.blocks, b.Sealed

variable {g : FlowGraph} {code : MethodCode}

/-! ## Decoded code -/

/-- In a group of instructions between leaders, only the last one ends a block. -/
theorem endsBlock_of_mem_dropLast_cut {leaders : List Address} {instructions : List PlacedInstruction}
    {start stop : Address} (htiles : Tiles start instructions stop)
    (hleaders : ∀ i ∈ instructions, i.operation.endsBlock = true → i.next ∈ leaders)
    {group : List PlacedInstruction} (hg : group ∈ cut leaders instructions) :
    ∀ i ∈ group.dropLast, i.operation.endsBlock = false := by
  -- along the instructions: `cut` starts a new group at a leader, and else puts `i` in front of the first group
  induction instructions generalizing group start with
  | nil => cases hg
  | cons i rest ih =>
    cases rest with
    | nil =>
      obtain rfl : group = [i] := by simpa [cut] using hg
      simp
    | cons j rest =>
      obtain ⟨-, -, hrest⟩ := htiles
      have ih := fun {group} (hg : group ∈ cut leaders (j :: rest)) =>
        ih hrest (fun k hk => hleaders k (List.mem_cons_of_mem _ hk)) hg
      obtain ⟨tail, groups, hcut⟩ := @exists_cut_cons leaders j rest
      rw [cut_cons_cons hcut] at hg
      split at hg
      -- `j` is a leader: `i` is a group of its own, in which it is the last
      · rcases List.mem_cons.1 hg with rfl | hg
        · simp
        · exact ih (hcut ▸ hg)
      -- `j` is no leader, so `i` cannot end its block: what is behind such an instruction is one
      · rename_i hnot
        rcases List.mem_cons.1 hg with rfl | hg
        · intro k hk
          rw [List.dropLast_cons_cons] at hk
          rcases List.mem_cons.1 hk with rfl | hk
          · have hj : j.address = k.next := hrest.bounds.1
            rw [hj] at hnot
            cases hends : k.operation.endsBlock with
            | false => rfl
            | true => exact absurd (hleaders k List.mem_cons_self hends) (by simpa using hnot)
          · exact ih (hcut ▸ List.mem_cons_self) k hk
        · exact ih (hcut ▸ List.mem_cons_of_mem _ hg)

/-- The graph of a method is sealed. -/
theorem sealed_ofCode (h : code.WellFormed) : (ofCode code).Sealed := by
  intro b hb
  obtain ⟨group, hgroup, hblock⟩ := List.mem_filterMap.1 hb
  unfold blockOf? at hblock
  split at hblock
  · rename_i first last hfirst hlast
    obtain rfl := Option.some.inj hblock
    -- nothing in front of the last instruction ends the block, the terminator is made of it, and there is one
    refine ⟨?_, fun i hi => ?_, fun hnil => ?_⟩
    · refine endsBlock_of_mem_dropLast_cut h.tiles (fun i hi hends => ?_) hgroup
      refine List.mem_append_right _ (List.mem_flatMap.2 ⟨i, hi, List.mem_append_right _ ?_⟩)
      simp [hends]
    · obtain rfl : last = i := Option.some.inj (hlast.symm.trans hi)
      exact Terminator.endsWith_ofInstruction last
    · simp only at hnil
      simp [hnil] at hlast
  · cases hblock

/-! ## Reduced jumps -/

/-- A change that leaves one block sealed leaves the graph sealed. -/
theorem Sealed.modify (hg : g.Sealed) {id : BlockId} {b : Block} {f : Block → Block}
    (hs : g.ids.Pairwise (· < ·)) (hb : g.block? id = some b) (hf : (f b).Sealed) :
    (g.modify id f).Sealed := by
  intro c hc
  obtain ⟨d, hd, rfl⟩ := List.mem_map.1 hc
  split
  · rename_i hid
    have hdb : g.block? id = some d := hid ▸ block?_eq_some hs hd
    exact Option.some.inj (hb.symm.trans hdb) ▸ hf
  · exact hg d hd

/-- Threading a block leaves the graph sealed. -/
theorem Sealed.threadBlock {stop : Address} (hg : g.Sealed) (hw : g.WellFormed stop) (id : BlockId) :
    (g.threadBlock id).Sealed := by
  rcases g.threadBlock_eq id with heq | ⟨b, t, hb, ht, heq⟩
  · exact heq.symm ▸ hg
  · exact heq.symm ▸ hg.modify hw.sorted hb ((hg b (mem_of_block? hb)).retarget ht)

/-- So does threading all of them. -/
theorem Sealed.threadJumps {stop : Address} (hg : g.Sealed) (hw : g.WellFormed stop)
    (hr : g.ReturnsEnd) : g.threadJumps.Sealed := by
  have hfold := @foldl_spec g BlockId (fun g => g.Sealed ∧ g.WellFormed stop ∧ g.ReturnsEnd)
    FlowGraph.threadBlock (fun g id ⟨hg, hw, hr⟩ => ?_) g.ids ⟨hg, hw, hr⟩
  · exact hfold.1.1
  · obtain ⟨hkept, hwalks⟩ := threadBlock_spec hw hr id
    exact ⟨⟨hg.threadBlock hw id, hkept⟩, hwalks⟩

/-- Inlining a return leaves the graph sealed. -/
theorem Sealed.inlineReturn {stop : Address} (hg : g.Sealed) (hw : g.WellFormed stop) (id : BlockId) :
    (g.inlineReturn id).Sealed := by
  rcases g.inlineReturn_eq id with heq | ⟨b, t, u, last, c, type, hb, hterm, hlast, hu, hc, htype, heq⟩
  · exact heq.symm ▸ hg
  · exact heq.symm ▸ hg.modify hw.sorted hb ((hg b (mem_of_block? hb)).withReturn hlast hu type)

/-- So does inlining all of them. -/
theorem Sealed.inlineReturns {stop : Address} (hg : g.Sealed) (hw : g.WellFormed stop)
    (hr : g.ReturnsEnd) : g.inlineReturns.Sealed := by
  have hfold := @foldl_spec g BlockId (fun g => g.Sealed ∧ g.WellFormed stop ∧ g.ReturnsEnd)
    FlowGraph.inlineReturn (fun g id ⟨hg, hw, hr⟩ => ?_) g.ids ⟨hg, hw, hr⟩
  · exact hfold.1.1
  · obtain ⟨hkept, hwalks⟩ := inlineReturn_spec hw hr id
    exact ⟨⟨hg.inlineReturn hw id, hkept⟩, hwalks⟩

/-- Only a block whose terminator is a return is a lone return. -/
theorem Sealed.returnsEnd (hg : g.Sealed) : g.ReturnsEnd := by
  intro b hb type ⟨only, honly, htype⟩
  have hends := (hg b hb).last only (by rw [honly]; rfl)
  cases hterm : b.terminator <;> simp [hterm, htype, Terminator.endsWith, Instruction.endsBlock,
    Instruction.isUnconditionalTransfer, Instruction.isConditionalBranch] at hends
  rfl

/-- To go round a block leaves the graph sealed. -/
theorem Sealed.bypass (hg : g.Sealed) (id target : BlockId) : (g.bypass id target).Sealed := by
  intro c hc
  obtain ⟨d, hd, rfl⟩ := List.mem_map.1 (List.mem_filter.1 hc).1
  split
  · exact (hg d hd).redirect id target
  · exact hg d hd

/-- So does going round several. -/
theorem Sealed.foldl_bypass (hg : g.Sealed) (empties : List (BlockId × BlockId)) :
    (empties.foldl (fun g (id, target) => g.bypass id target) g).Sealed := by
  induction empties generalizing g with
  | nil => exact hg
  | cons e empties ih => exact ih (hg.bypass e.1 e.2)

/-- Dropping jumps leaves the graph sealed, round for round. -/
theorem Sealed.dropJumpsWithin (rounds : Nat) (hg : g.Sealed) : (dropJumpsWithin rounds g).Sealed := by
  induction rounds generalizing g with
  | zero => exact hg
  | succ rounds ih =>
    unfold FlowGraph.dropJumpsWithin
    dsimp only
    split
    · exact hg
    · refine ih (Sealed.foldl_bypass (fun c hc => ?_) _)
      obtain ⟨b, hb, rfl⟩ := List.mem_map.1 hc
      exact (hg b hb).dropJump g

/-- Removing blocks leaves the others sealed. -/
theorem Sealed.removeUnreachable (hg : g.Sealed) : g.removeUnreachable.Sealed :=
  fun b hb => hg b (List.mem_filter.1 hb).1

/-- The reduction of jumps leaves the graph sealed. -/
theorem sealed_reduceJumps {stop : Address} (inlineReturns : Bool) (hg : g.Sealed)
    (hw : g.WellFormed stop) (hr : g.ReturnsEnd) : (g.reduceJumps inlineReturns).Sealed := by
  obtain ⟨⟨hw', hr'⟩, -⟩ := threadJumps_spec hw hr
  have hthreaded := hg.threadJumps hw hr
  have hinlined : (if inlineReturns then g.threadJumps.inlineReturns else g.threadJumps).Sealed := by
    split
    · exact hthreaded.inlineReturns hw' hr'
    · exact hthreaded
  exact (hinlined.dropJumpsWithin _).removeUnreachable

/-- Two graphs that differ only in their blocks and the classes of jumps. -/
structure SameFrame (g h : FlowGraph) : Prop where
  entry : h.entry = g.entry
  ranges : h.ranges = g.ranges
  loops : h.loops = g.loops

/-- Two steps that change only blocks and classes do so together. -/
theorem SameFrame.trans {g₁ g₂ g₃ : FlowGraph} (h₁ : SameFrame g₁ g₂) (h₂ : SameFrame g₂ g₃) :
    SameFrame g₁ g₃ :=
  ⟨h₂.entry.trans h₁.entry, h₂.ranges.trans h₁.ranges, h₂.loops.trans h₁.loops⟩

/-- So do any number of steps. -/
theorem sameFrame_foldl {α : Type} {f : FlowGraph → α → FlowGraph} (hf : ∀ g a, SameFrame g (f g a))
    (l : List α) (g : FlowGraph) : SameFrame g (l.foldl f g) := by
  induction l generalizing g with
  | nil => exact ⟨rfl, rfl, rfl⟩
  | cons a l ih => exact (hf g a).trans (ih (f g a))

/-- Dropping jumps changes only blocks and classes. -/
theorem sameFrame_dropJumpsWithin (rounds : Nat) (g : FlowGraph) :
    SameFrame g (dropJumpsWithin rounds g) := by
  induction rounds generalizing g with
  | zero => exact ⟨rfl, rfl, rfl⟩
  | succ rounds ih =>
    unfold FlowGraph.dropJumpsWithin
    dsimp only
    split
    · exact ⟨rfl, rfl, rfl⟩
    · have hdropped : SameFrame g { g with blocks := g.blocks.map g.dropJump } := ⟨rfl, rfl, rfl⟩
      have hbypass : ∀ (g : FlowGraph) (e : BlockId × BlockId), SameFrame g (g.bypass e.1 e.2) :=
        fun _ _ => ⟨rfl, rfl, rfl⟩
      exact (hdropped.trans (sameFrame_foldl hbypass _ _)).trans (ih _)

/-- Reducing jumps changes nothing but blocks and the classes of jumps. -/
theorem sameFrame_reduceJumps (g : FlowGraph) (inlineReturns : Bool) :
    SameFrame g (g.reduceJumps inlineReturns) := by
  have hthread : SameFrame g g.threadJumps := sameFrame_foldl (fun g id => by
    rcases g.threadBlock_eq id with heq | ⟨b, t, -, -, heq⟩ <;> exact heq.symm ▸ ⟨rfl, rfl, rfl⟩) _ g
  have hinline : SameFrame g.threadJumps
      (if inlineReturns then g.threadJumps.inlineReturns else g.threadJumps) := by
    split
    · refine sameFrame_foldl (fun g id => ?_) _ _
      rcases g.inlineReturn_eq id with heq | ⟨b, t, u, last, c, type, -, -, -, -, -, -, heq⟩ <;>
        exact heq.symm ▸ ⟨rfl, rfl, rfl⟩
    · exact ⟨rfl, rfl, rfl⟩
  exact (hthread.trans hinline).trans ((sameFrame_dropJumpsWithin _ _).trans ⟨rfl, rfl, rfl⟩)

/-! ## Recognised loops -/

/-- What is in a list after an insertion was there or has been inserted. -/
theorem mem_insertByKey {α : Type} {key : α → Nat} {a b : α} {l : List α}
    (h : b ∈ insertByKey key a l) : b = a ∨ b ∈ l := by
  induction l with
  | nil => simpa [insertByKey] using h
  | cons c rest ih =>
    unfold insertByKey at h
    split at h
    · simpa using h
    · split at h
      · simp only [List.mem_cons] at h ⊢
        tauto
      · rcases List.mem_cons.1 h with rfl | h
        · exact .inr List.mem_cons_self
        · exact (ih h).imp_right (List.mem_cons_of_mem c)

/-- An insertion loses no key. -/
theorem keys_subset_insertByKey {α : Type} {key : α → Nat} {a : α} {l : List α} :
    l.map key ⊆ (insertByKey key a l).map key := by
  induction l with
  | nil => exact List.nil_subset _
  | cons c l ih =>
    unfold insertByKey
    split
    · exact List.subset_cons_self _ _
    · split
      · rename_i heq
        rw [List.map_cons, List.map_cons, heq]
        exact List.Subset.refl _
      · exact List.cons_subset_cons _ ih

/-- Cutting a block puts its two halves in its place. -/
theorem blocks_split? {id : BlockId} {address : Address} {cut : FlowGraph}
    (h : g.split? id address = some cut) : ∃ b i, g.block? id = some b ∧ i < b.instructions.length ∧
      cut.blocks = insertByKey Block.id ⟨address, b.instructions.drop i, b.terminator⟩
        (g.modify id fun _ => ⟨b.id, b.instructions.take i, .fallThrough address⟩).blocks := by
  unfold FlowGraph.split? at h
  split at h
  · cases h
  · simp only [Option.pure_def, Option.bind_eq_bind, Option.bind_eq_some_iff] at h
    obtain ⟨b, hb, i, hi, h⟩ := h
    refine ⟨b, i, hb, (List.findIdx?_eq_some_iff_getElem.1 hi).1, ?_⟩
    split at h <;> exact Option.some.inj h ▸ rfl

/-- The two parts of a block are sealed: the first falls through to the second. -/
theorem Sealed.split? (hg : g.Sealed) {id : BlockId} {address : Address} {cut : FlowGraph}
    (h : g.split? id address = some cut) : cut.Sealed := by
  obtain ⟨b, i, hb, hlt, hblocks⟩ := blocks_split? h
  obtain ⟨hfirst, hsecond⟩ := (hg b (mem_of_block? hb)).split hlt address
  intro c hc
  rw [hblocks] at hc
  rcases mem_insertByKey hc with rfl | hc
  · exact hsecond
  · obtain ⟨d, hd, rfl⟩ := List.mem_map.1 hc
    split
    · exact hfirst
    · exact hg d hd

/-- To split a block leaves the loops as they are. -/
theorem loops_split? {id : BlockId} {address : Address} {cut : FlowGraph}
    (h : g.split? id address = some cut) : cut.loops = g.loops := by
  unfold FlowGraph.split? at h
  split at h
  · cases h
  · simp only [Option.pure_def, Option.bind_eq_bind, Option.bind_eq_some_iff] at h
    obtain ⟨b, -, i, -, h⟩ := h
    split at h <;> exact Option.some.inj h ▸ rfl

/-- To split a block leaves the entry and the exception ranges as they are. -/
theorem frame_split? {id : BlockId} {address : Address} {cut : FlowGraph}
    (h : g.split? id address = some cut) : cut.entry = g.entry ∧ cut.ranges = g.ranges := by
  unfold FlowGraph.split? at h
  split at h
  · cases h
  · simp only [Option.pure_def, Option.bind_eq_bind, Option.bind_eq_some_iff] at h
    obtain ⟨b, -, i, -, h⟩ := h
    split at h <;> exact Option.some.inj h ▸ ⟨rfl, rfl⟩

/-- Cutting a block adds a name. -/
theorem ids_subset_split? {id : BlockId} {address : Address} {cut : FlowGraph}
    (h : g.split? id address = some cut) : g.ids ⊆ cut.ids := by
  obtain ⟨b, i, hb, -, hblocks⟩ := blocks_split? h
  intro a ha
  obtain ⟨c, hc, rfl⟩ := List.mem_map.1 ha
  rw [FlowGraph.ids, hblocks]
  refine keys_subset_insertByKey (List.mem_map.2 ⟨_, List.mem_map_of_mem hc, ?_⟩)
  split
  · rename_i hid
    exact (id_of_block? hb).trans hid.symm
  · rfl

/-- A graph that has to be cut is cut where the shape of one of its loops asks for it. -/
theorem exists_split?_of_shapesOf {pool : ConstantPool} {loops : List NaturalLoop} {cut : FlowGraph}
    (h : g.shapesOf pool loops = .inl cut) : ∃ l ∈ loops, ∃ id address,
      g.shapeOf pool l = .split id address ∧ g.split? id address = some cut := by
  induction loops with
  | nil => cases h
  | cons l rest ih =>
    have hrest : g.shapesOf pool rest = .inl cut → ∃ k ∈ l :: rest, ∃ id address,
        g.shapeOf pool k = .split id address ∧ g.split? id address = some cut := fun h => by
      obtain ⟨k, hk, hcut⟩ := ih h
      exact ⟨k, List.mem_cons_of_mem l hk, hcut⟩
    unfold shapesOf at h
    split at h
    · cases hshapes : g.shapesOf pool rest with
      | inl c => exact hrest (by simpa [hshapes] using h)
      | inr found => simp [hshapes] at h
    · rename_i id address hshape
      -- `l` is to be cut: at once, unless the place is not one for a cut
      split at h
      · rename_i c hc
        obtain rfl := Sum.inl.inj h
        exact ⟨l, List.mem_cons_self, id, address, hshape, hc⟩
      · cases hshapes : g.shapesOf pool rest with
        | inl c => exact hrest (by simpa [hshapes] using h)
        | inr found => simp [hshapes] at h

/-- What cutting blocks keeps, and does not depend on what is recorded of jumps and loops, is kept when
loops are recognised. -/
theorem reduceLoops_induction {P : FlowGraph → Prop} (pool : ConstantPool)
    (hcut : ∀ g cut id address, g.split? id address = some cut → P g → P cut)
    (hrecord : ∀ g loops jumps, P g → P { g with loops, jumps }) (hg : P g) : P (g.reduceLoops pool) := by
  suffices h : ∀ rounds (g : FlowGraph), P g → P (reduceLoopsWithin pool rounds g) from h _ g hg
  intro rounds
  induction rounds with
  | zero => exact fun g hg => hg
  | succ rounds ih =>
    intro g hg
    unfold reduceLoopsWithin
    split
    · rename_i cut hshapes
      obtain ⟨-, -, id, address, -, hsplit⟩ := exists_split?_of_shapesOf hshapes
      exact ih cut (hcut g cut id address hsplit hg)
    · exact hrecord g _ _ hg

/-- The reduction of loops leaves the graph sealed. -/
theorem sealed_reduceLoops (pool : ConstantPool) (hg : g.Sealed) : (g.reduceLoops pool).Sealed :=
  reduceLoops_induction pool (fun _ _ _ _ hsplit hg => hg.split? hsplit)
    (fun _ _ _ hg b hb => hg b hb) hg

/-- Recognising loops leaves the entry, the protected ranges and all names of blocks. -/
theorem frame_reduceLoops (pool : ConstantPool) (g : FlowGraph) :
    (g.reduceLoops pool).entry = g.entry ∧ (g.reduceLoops pool).ranges = g.ranges ∧
      g.ids ⊆ (g.reduceLoops pool).ids := by
  refine reduceLoops_induction (P := fun h => h.entry = g.entry ∧ h.ranges = g.ranges ∧ g.ids ⊆ h.ids)
    pool (fun h cut id address hsplit hh => ?_) (fun _ _ _ hh => hh) ⟨rfl, rfl, List.Subset.refl _⟩
  obtain ⟨hentry, hranges⟩ := frame_split? hsplit
  exact ⟨hentry.trans hh.1, hranges.trans hh.2.1, List.Subset.trans hh.2.2 (ids_subset_split? hsplit)⟩

end FlowGraph

end JvmDecompiler
