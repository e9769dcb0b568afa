import JvmDecompiler.Proofs.JumpSettling
import Mathlib

/-!
# Reducing jumps a second time

When a second run of `FlowGraph.reduceJumps` finds something left to do: exactly if a jump leads to the
next block, or from outside onto a ring of blocks that hand control on. All other phases are at rest
after one run.

The first is found because blocks that control cannot reach are removed after jumps to the next block
have been dropped.
-/

namespace JvmDecompiler

open Relation (ReflTransGen TransGen)

namespace FlowGraph

variable {g h : FlowGraph} {a e r t u x y : BlockId} {b c : Block} {stop : Address} {inlined : Bool}

/-! ## Dropping jumps comes to an end -/


/-- Whether a block ends in a jump. -/
def isJump (b : Block) : Bool :=
  match b.terminator with
  | .goto _ => true
  | _ => false

/-- The jumps and the blocks of a graph together. -/
def weight (g : FlowGraph) : Nat := g.blocks.countP isJump + g.blocks.length

/-- No empty block keeps its place because of an exception range. -/
theorem not_mem_boundaries_of_mem_emptyBlocks {source target : BlockId}
    (he : (source, target) ∈ g.emptyBlocks) : source ∉ g.boundaries := by
  obtain ⟨b, hb, he⟩ := List.mem_filterMap.1 he
  by_cases hc : (b.instructions.isEmpty && b.id ≠ g.entry && !g.boundaries.contains b.id) = true
  · rw [if_pos hc] at he
    have hbound : b.id ∉ g.boundaries := by
      simp only [Bool.and_eq_true, Bool.not_eq_true', List.contains_eq_mem, decide_eq_false_iff_not] at hc
      exact hc.2
    split at he
    · split at he
      · cases he
        exact hbound
      · cases he
    · cases he
  · rw [if_neg hc] at he
    cases he

section Bypass

variable {source target : BlockId}

/-- To go round a block takes one block away. -/
theorem length_bypass_lt (hmem : source ∈ g.ids) :
    (g.bypass source target).blocks.length < g.blocks.length := by
  obtain ⟨b, hb, hid⟩ := List.mem_map.1 hmem
  have hlength : (g.mapBlocks (g.bypassed source target)).blocks.length = g.blocks.length :=
    List.length_map ..
  rw [← hlength]
  refine Nat.lt_of_le_of_ne (List.length_filter_le ..) fun heq => ?_
  have hne : (g.bypassed source target b).id ≠ source :=
    of_decide_eq_true (List.length_filter_eq_length_iff.1 heq _ (List.mem_map_of_mem hb))
  rw [id_bypassed] at hne
  exact hne hid

/-- A block with moved targets ends in a jump exactly if it did before. -/
theorem isJump_bypassed (b : Block) : isJump (g.bypassed source target b) = isJump b := by
  unfold bypassed
  split
  · cases hterm : b.terminator <;> simp [isJump, Block.redirect, Terminator.mapTargets, hterm]
  · rfl

/-- To go round a block adds no jump. -/
theorem countP_bypass_le : (g.bypass source target).blocks.countP isJump ≤ g.blocks.countP isJump := by
  have hmap : (g.blocks.map (g.bypassed source target)).countP isJump = g.blocks.countP isJump := by
    rw [List.countP_map]
    exact List.countP_congr fun b _ => by rw [Function.comp_apply, isJump_bypassed]
  rw [← hmap]
  exact List.filter_sublist.countP_le

/-- To go round a block makes the graph lighter. -/
theorem weight_bypass_lt (hmem : source ∈ g.ids) : (g.bypass source target).weight < g.weight :=
  Nat.add_lt_add_of_le_of_lt countP_bypass_le (length_bypass_lt hmem)

end Bypass

/-- An empty block is one of the graph. -/
theorem IsEmptyBlock.mem_ids {source target : BlockId} (he : IsEmptyBlock g source target) :
    source ∈ g.ids := by
  obtain ⟨b, hb, -⟩ := he.block
  exact mem_ids_iff.2 ⟨b, hb⟩

/-- Empty blocks that are in the order of their addresses are taken out one after the other. -/
theorem Settling.foldl_bypass {empties : List (BlockId × BlockId)} (hg : g.Settling stop inlined)
    (hsorted : (empties.map (·.1)).Pairwise (· < ·))
    (he : ∀ e ∈ empties, IsEmptyBlock g e.1 e.2 ∧ e.1 ∉ g.boundaries) :
    (empties.foldl (fun g (id, target) => g.bypass id target) g).Settling stop inlined ∧
    (empties = [] ∨
      (empties.foldl (fun g (id, target) => g.bypass id target) g).blocks.length < g.blocks.length ∧
      (empties.foldl (fun g (id, target) => g.bypass id target) g).weight < g.weight) := by
  induction empties generalizing g with
  | nil => exact ⟨hg, .inl rfl⟩
  | cons e empties ih =>
    rw [List.map_cons, List.pairwise_cons] at hsorted
    obtain ⟨hempty, hbound⟩ := he e List.mem_cons_self
    have hlength : (g.bypass e.1 e.2).blocks.length < g.blocks.length := length_bypass_lt hempty.mem_ids
    have hweight : (g.bypass e.1 e.2).weight < g.weight := weight_bypass_lt hempty.mem_ids
    obtain ⟨hrest, hless⟩ := ih (hg.bypass hempty hbound) hsorted.2 fun f hf =>
      have hlt := hsorted.1 f.1 (List.mem_map_of_mem hf)
      ⟨(he f (List.mem_cons_of_mem _ hf)).1.bypass hg.wf hlt, (he f (List.mem_cons_of_mem _ hf)).2⟩
    refine ⟨hrest, .inr ?_⟩
    rw [List.foldl_cons]
    rcases hless with rfl | ⟨hlength', hweight'⟩
    · exact ⟨hlength, hweight⟩
    · exact ⟨Nat.lt_trans hlength' hlength, Nat.lt_trans hweight' hweight⟩

/-- What the search for empty blocks finds are empty blocks of which none keeps its place. -/
theorem isEmptyBlock_spec (hg : g.Settling stop inlined) :
    ∀ e ∈ g.emptyBlocks, IsEmptyBlock g e.1 e.2 ∧ e.1 ∉ g.boundaries := fun _ he =>
  ⟨isEmptyBlock_of_mem_emptyBlocks hg.wf.sorted he, not_mem_boundaries_of_mem_emptyBlocks he⟩

/-- If a change to all blocks makes no jump and takes one away, fewer blocks end in a jump. -/
theorem countP_map_lt {blocks : List Block} {f : Block → Block}
    (hle : ∀ b ∈ blocks, isJump (f b) = true → isJump b = true) (hb : b ∈ blocks)
    (hjump : isJump b = true) (hno : isJump (f b) = false) :
    (blocks.map f).countP isJump < blocks.countP isJump := by
  obtain ⟨front, back, rfl⟩ := List.append_of_mem hb
  have hfront : front.countP (isJump ∘ f) ≤ front.countP isJump :=
    List.countP_mono_left fun c hc => hle c (List.mem_append_left _ hc)
  have hback : back.countP (isJump ∘ f) ≤ back.countP isJump :=
    List.countP_mono_left fun c hc => hle c (List.mem_append_right _ (List.mem_cons_of_mem _ hc))
  rw [List.countP_map, List.countP_append, List.countP_append, List.countP_cons_of_pos hjump,
    List.countP_cons_of_neg (by simp [hno])]
  omega

/-- Dropping jumps leaves the blocks as they are, or there is a jump less. -/
theorem mapBlocks_dropJump_eq_or (hs : g.Sealed) : g.mapBlocks g.dropJump = g ∨
    (g.mapBlocks g.dropJump).weight < g.weight := by
  have hle : ∀ b ∈ g.blocks, isJump (g.dropJump b) = true → isJump b = true := by
    intro b hb hjump
    rcases g.dropJump_cases (hs b hb) with ⟨heq, -⟩ | ⟨t, hterm, -, -⟩
    · rwa [heq] at hjump
    · simp [isJump, hterm]
  by_cases hall : ∀ b ∈ g.blocks, g.dropJump b = b
  · left
    have hmap : g.blocks.map g.dropJump = g.blocks := by
      rw [List.map_congr_left hall, List.map_id']
    rw [mapBlocks, hmap]
  · right
    simp only [not_forall] at hall
    obtain ⟨b, hb, hne⟩ := hall
    obtain ⟨t, hterm, -, heq⟩ := (g.dropJump_cases (hs b hb)).resolve_left fun h => hne h.1
    have hcount := countP_map_lt hle hb (by simp [isJump, hterm]) (by simp [isJump, heq])
    have hlength : (g.blocks.map g.dropJump).length = g.blocks.length := List.length_map ..
    exact Nat.add_lt_add_of_lt_of_le hcount (Nat.le_of_eq hlength)

/-- One round takes the jumps to the next block away and goes round the empty blocks; it is the last if
neither changes anything. -/
theorem dropJumpsWithin_succ (rounds : Nat) (g : FlowGraph) : dropJumpsWithin (rounds + 1) g =
    if (g.mapBlocks g.dropJump).blocks = g.blocks ∧ (g.mapBlocks g.dropJump).emptyBlocks = [] then g
    else dropJumpsWithin rounds ((g.mapBlocks g.dropJump).emptyBlocks.foldl
      (fun g (id, target) => g.bypass id target) (g.mapBlocks g.dropJump)) := rfl

/-- Dropping jumps leaves what threading and inlining have left, and no empty blocks if there are rounds
enough. -/
theorem Settling.dropJumpsWithin {rounds : Nat} (hg : g.Settling stop inlined) :
    (dropJumpsWithin rounds g).Settling stop inlined ∧
    (g.weight < rounds → (FlowGraph.dropJumpsWithin rounds g).emptyBlocks = []) := by
  -- on the rounds: a round that changes anything makes the weight smaller
  induction rounds generalizing g with
  | zero => exact ⟨hg, fun h => by omega⟩
  | succ rounds ih =>
    rw [dropJumpsWithin_succ]
    have hdropped := hg.mapBlocks_dropJump
    have hless := mapBlocks_dropJump_eq_or hg.ends
    by_cases hdone : (g.mapBlocks g.dropJump).blocks = g.blocks ∧
        (g.mapBlocks g.dropJump).emptyBlocks = []
    · rw [if_pos hdone]
      refine ⟨hg, fun _ => ?_⟩
      have hsame : g.mapBlocks g.dropJump = g := by
        rw [mapBlocks, show g.blocks.map g.dropJump = g.blocks from hdone.1]
      rw [← hsame]
      exact hdone.2
    · rw [if_neg hdone]
      obtain ⟨hnext, hfewer⟩ := hdropped.foldl_bypass (pairwise_emptyBlocks hdropped.wf.sorted)
        (isEmptyBlock_spec hdropped)
      obtain ⟨hrest, hempty⟩ := ih hnext
      refine ⟨hrest, fun hweight => hempty ?_⟩
      rcases hfewer with hnone | ⟨-, hlt⟩
      · rw [hnone, List.foldl_nil]
        rcases hless with hsame | hlt
        · exact absurd ⟨congrArg FlowGraph.blocks hsame, hnone⟩ hdone
        · omega
      · rcases hless with hsame | hlt'
        · rw [hsame] at hlt ⊢
          omega
        · omega

/-- A graph has no more jumps than blocks. -/
theorem weight_le (g : FlowGraph) : g.weight ≤ 2 * g.blocks.length := by
  have := List.countP_le_length (p := isJump) (l := g.blocks)
  unfold weight
  omega

/-- Dropping jumps keeps what threading and inlining leave, and leaves no empty block. -/
theorem Settling.dropJumps (hg : g.Settling stop inlined) :
    g.dropJumps.Settling stop inlined ∧ g.dropJumps.emptyBlocks = [] := by
  obtain ⟨hdropped, hempty⟩ := hg.dropJumpsWithin
  exact ⟨hdropped, hempty (Nat.lt_succ_of_le g.weight_le)⟩

/-! ## Unreachable blocks -/

/-- Control comes to every block. -/
def AllReachable (g : FlowGraph) : Prop := ∀ id ∈ g.ids, id ∈ g.reversePostorder

/-- If control comes to every block, none is removed. -/
theorem removeUnreachable_of_allReachable (hg : g.AllReachable) : g.removeUnreachable = g := by
  have hfilter : g.blocks.filter (fun b => g.reversePostorder.contains b.id) = g.blocks :=
    List.filter_eq_self.2 fun b hb => by simpa using hg b.id (mem_ids hb)
  rw [removeUnreachable, hfilter]

/-- A block that is kept leads to those it led to. -/
theorem allSuccessors_keepIds {p : BlockId → Bool} (hx : p x = true) :
    (g.keepIds p).allSuccessors x = g.allSuccessors x := by
  unfold allSuccessors successors exceptionSuccessors
  rw [block?_keepIds hx]
  rfl

/-- When the blocks that control cannot come to are gone, it comes to all. -/
theorem allReachable_removeUnreachable (g : FlowGraph) : g.removeUnreachable.AllReachable := by
  have hmem : ∀ {id}, id ∈ g.removeUnreachable.ids ↔ id ∈ g.ids ∧ id ∈ g.reversePostorder := by
    intro id
    rw [removeUnreachable_eq, mem_ids_keepIds]
    simp
  intro id hid
  have hreach : g.digraph.Reaches g.entry id := Digraph.mem_reversePostorder_iff.1 (hmem.1 hid).2
  have hentry : g.entry ∈ g.removeUnreachable.ids := by
    obtain ⟨path, hpath⟩ := hreach
    exact hmem.2 ⟨hpath.source_mem, entry_mem_reversePostorder hpath.source_mem⟩
  refine Digraph.mem_reversePostorder_iff.2 ?_
  show g.removeUnreachable.digraph.Reaches g.entry id
  refine hreach.induction (.refl hentry) fun x y hx hreach' hy hymem => ?_
  have hxorder : x ∈ g.reversePostorder := Digraph.mem_reversePostorder_iff.2 hx
  have hyorder : y ∈ g.reversePostorder := mem_reversePostorder_of_mem_allSuccessors hxorder hy hymem
  refine hreach'.tail ?_ (hmem.2 ⟨hymem, hyorder⟩)
  show y ∈ g.removeUnreachable.allSuccessors x
  rw [removeUnreachable_eq, allSuccessors_keepIds (by simpa using hxorder)]
  exact hy

/-- Of the blocks that hand control on, those that are kept do so still. -/
theorem handsOn_keepIds {p : BlockId → Bool} : (g.keepIds p).HandsOn x y ↔ p x = true ∧ g.HandsOn x y := by
  constructor
  · rintro ⟨hbound, b, hb, hy⟩
    obtain ⟨hx, hb⟩ := block?_of_keepIds hb
    exact ⟨hx, hbound, b, hb, hy⟩
  · rintro ⟨hx, hbound, b, hb, hy⟩
    exact ⟨hbound, b, (block?_keepIds hx).symm ▸ hb, hy⟩

/-- Where a block hands control on to is one of its successors. -/
theorem mem_allSuccessors_of_handsOn (h : g.HandsOn x y) : y ∈ g.allSuccessors x := by
  obtain ⟨-, b, hb, hy⟩ := h
  refine List.mem_append_left _ ?_
  unfold successors
  rw [hb]
  rcases hy with ⟨hterm, -⟩ | ⟨hterm, -⟩ <;> simp [hterm, Terminator.successors]

/-- So is the target of its jump. -/
theorem mem_successors_of_jumpTarget? (ht : b.jumpTarget? = some t) : t ∈ b.terminator.successors := by
  unfold Block.jumpTarget? at ht
  cases hterm : b.terminator <;> simp [hterm] at ht <;> simp [ht, Terminator.successors]

section RemoveUnreachable

/-- A block that control may come to, if it is one of the graph. -/
def MayReach (g : FlowGraph) (id : BlockId) : Prop := id ∈ g.ids → id ∈ g.reversePostorder

/-- From a block that control may come to, handing on leads to another such block, and stays in the graph. -/
theorem MayReach.step (hx : g.MayReach x) (hxy : g.HandsOn x y) :
    g.removeUnreachable.HandsOn x y ∧ g.MayReach y := by
  have horder := hx hxy.mem_ids
  refine ⟨?_, fun hy => mem_reversePostorder_of_mem_allSuccessors horder
    (mem_allSuccessors_of_handsOn hxy) hy⟩
  rw [removeUnreachable_eq, handsOn_keepIds]
  exact ⟨by simpa using horder, hxy⟩

/-- So does a whole way through blocks that hand control on. -/
theorem MayReach.way (hx : g.MayReach x) (hxy : ReflTransGen g.HandsOn x y) :
    ReflTransGen g.removeUnreachable.HandsOn x y ∧ g.MayReach y := by
  induction hxy with
  | refl => exact ⟨.refl, hx⟩
  | tail _ hyz ih =>
    obtain ⟨hstep, hz⟩ := ih.2.step hyz
    exact ⟨ih.1.tail hstep, hz⟩

/-- A ring that control may come to is not removed. -/
theorem MayReach.onRing (hx : g.MayReach x) (hring : g.OnRing x) : g.removeUnreachable.OnRing x := by
  obtain ⟨y, hxy, hyx⟩ := TransGen.head'_iff.1 hring
  obtain ⟨hstep, hy⟩ := hx.step hxy
  exact TransGen.head' hstep (hy.way hyx).1

/-- Where control rests it does so when blocks are removed. -/
theorem rests_removeUnreachable (hx : g.Rests x) : g.removeUnreachable.Rests x := by
  intro y hxy
  rw [removeUnreachable_eq, handsOn_keepIds] at hxy
  exact hx y hxy.2

/-- Removing what control cannot reach keeps what threading and inlining leave. -/
theorem Settling.removeUnreachable (hg : g.Settling stop inlined) :
    g.removeUnreachable.Settling stop inlined := by
  have hmem : ∀ b ∈ g.removeUnreachable.blocks, b ∈ g.blocks ∧ b.id ∈ g.reversePostorder := by
    intro b hb
    obtain ⟨hb, horder⟩ := List.mem_filter.1 hb
    exact ⟨hb, by simpa using horder⟩
  refine ⟨(removeUnreachable_spec hg.wf).1, hg.ends.removeUnreachable, fun b hb t ht => ?_,
    fun hinl b hb t ht => ?_⟩
  · obtain ⟨hb, horder⟩ := hmem b hb
    have hmay : g.MayReach t := by
      refine fun hmemt => mem_reversePostorder_of_mem_allSuccessors horder (List.mem_append_left _ ?_) hmemt
      unfold successors
      rw [block?_eq_some hg.wf.sorted hb]
      exact mem_successors_of_jumpTarget? ht
    exact (hg.settled b hb t ht).mono rests_removeUnreachable hmay.onRing fun hterm hend =>
      ⟨hterm, (hmay.way hend.way).1, rests_removeUnreachable hend.rests⟩
  -- a return that was kept is kept for the same reason, unless its block is gone
  · obtain ⟨hb, horder⟩ := hmem b hb
    have hblock : g.removeUnreachable.block? b.id = g.block? b.id := by
      rw [removeUnreachable_eq, block?_keepIds (by simpa using horder)]
    rcases hg.kept hinl b hb t ht with hbound | hjoin | hnone
    · exact .inl hbound
    · refine .inr (.inl ?_)
      unfold keepsJoin at hjoin ⊢
      rw [hblock]
      exact hjoin
    · refine .inr (.inr ?_)
      rw [removeUnreachable_eq]
      by_cases ht : t ∈ g.reversePostorder
      · rw [block?_keepIds (by simpa using ht)]
        exact hnone
      · have hnot : (g.keepIds g.reversePostorder.contains).block? t = none := by
          cases hc : (g.keepIds g.reversePostorder.contains).block? t with
          | none => rfl
          | some c => exact absurd (by simpa using (block?_of_keepIds hc).1) ht
        rw [hnot]
        rfl

/-- Removing blocks makes none of the others empty. -/
theorem emptyBlocks_removeUnreachable (hg : g.emptyBlocks = []) :
    g.removeUnreachable.emptyBlocks = [] := by
  have hsub : g.removeUnreachable.emptyBlocks.Sublist g.emptyBlocks :=
    List.filter_sublist.filterMap _
  rw [hg] at hsub
  exact List.sublist_nil.1 hsub

end RemoveUnreachable

/-- Sorting the jumps keeps what threading and inlining leave. -/
theorem Settling.classifyJumps (hg : g.Settling stop inlined) : g.classifyJumps.Settling stop inlined where
  wf := (classifyJumps_spec hg.wf).1
  ends := hg.ends
  settled b hb t ht := by
    have hcarries : Carries g g.classifyJumps := carries_of_handsOn_iff fun _ _ => Iff.rfl
    exact hcarries.settled hb (hg.settled b hb t ht)
  kept hinl b hb t ht := hg.kept hinl b hb t ht

/-- What one run leaves. -/
structure Reduced (g : FlowGraph) (stop : Address) (inlined : Bool) : Prop where
  settling : g.Settling stop inlined
  empties : g.emptyBlocks = []
  reachable : g.AllReachable
  classified : g.classifyJumps = g

/-- One run leaves a reduced graph. -/
theorem reduced_reduceJumps (hw : g.WellFormed stop) (hs : g.Sealed) (inlined : Bool) :
    (g.reduceJumps inlined).Reduced stop inlined := by
  have hthreaded := settling_threadJumps hw hs
  have hinlined : (if inlined then g.threadJumps.inlineReturns else g.threadJumps).Settling stop
      inlined := by
    cases inlined with
    | true => exact hthreaded.inlineReturns
    | false => exact hthreaded
  obtain ⟨hdropped, hempty⟩ := hinlined.dropJumps
  exact ⟨hdropped.removeUnreachable.classifyJumps, emptyBlocks_removeUnreachable hempty,
    allReachable_removeUnreachable _, rfl⟩

/-! ## What a second run finds -/

/-- Steps that change nothing change nothing one after the other. -/
theorem foldl_eq_self {f : FlowGraph → BlockId → FlowGraph} {ids : List BlockId}
    (hf : ∀ id, f g id = g) : ids.foldl f g = g := by
  induction ids with
  | nil => rfl
  | cons id ids ih => rw [List.foldl_cons, hf, ih]

/-- No jump leads to the next block. -/
def NoJumpToNext (g : FlowGraph) : Prop :=
  ∀ b ∈ g.blocks, ∀ t, b.terminator = .goto t → g.nextBlock? b.id ≠ some t

/-- No jump leads from outside onto a ring of two or more blocks that hand control on. -/
def NoJumpOntoRing (g : FlowGraph) : Prop :=
  ∀ b ∈ g.blocks, ∀ t, b.jumpTarget? = some t → g.OnRing t → g.HandsOn t t ∨ g.OnRing b.id

/-- Threading changes nothing if all jumps are settled and none leads onto a ring. -/
theorem threadJumps_eq_self (hs : g.Sealed)
    (hsettled : ∀ b ∈ g.blocks, ∀ t, b.jumpTarget? = some t → g.Settled b t)
    (hring : g.NoJumpOntoRing) : g.threadJumps = g := by
  refine foldl_eq_self fun id => ?_
  by_cases hjump : ∃ b t, g.block? id = some b ∧ b.jumpTarget? = some t
  · obtain ⟨b, t, hb, ht⟩ := hjump
    have hid := id_of_block? hb
    rcases threadBlock_cases hb ht with ⟨heq, -⟩ | ⟨-, hne, hself⟩
    · exact heq
    · exfalso
      rcases hsettled b (mem_of_block? hb) t ht with hrests | honring | ⟨hterm, hend⟩
      · exact hne (hrests.follow_eq hs)
      · rcases hring b (mem_of_block? hb) t ht honring with htt | hbring
        · exact hne (honring.follow_eq hs htt)
        · obtain ⟨hterm, -, hfollow⟩ := follow_eq_of_onRing hb ht hs (hid ▸ hbring)
          exact hself hterm hfollow
      · exact hself hterm ((hend.follow_eq hs).trans hid)
  · refine threadBlock_of_jumpTarget?_eq_none fun b hb => ?_
    by_contra hne
    obtain ⟨t, ht⟩ := Option.ne_none_iff_exists'.1 hne
    exact hjump ⟨b, t, hb, ht⟩

/-- Inlining changes nothing if there is a reason to keep every jump. -/
theorem inlineReturns_eq_self (hs : g.Sealed)
    (hkept : ∀ b ∈ g.blocks, ∀ t, b.terminator = .goto t → g.ReturnKept b t) : g.inlineReturns = g := by
  refine foldl_eq_self fun id => ?_
  by_cases hjump : ∃ b t, g.block? id = some b ∧ b.terminator = .goto t
  · obtain ⟨b, t, hb, hterm⟩ := hjump
    rcases inlineReturn_cases hs hb hterm with ⟨heq, -⟩ | ⟨hnot, -⟩
    · exact heq
    · exact absurd (hkept b (mem_of_block? hb) t hterm) hnot
  · exact inlineReturn_of_not_goto fun b hb t hterm => hjump ⟨b, t, hb, hterm⟩

/-- Dropping jumps changes nothing if no jump leads to the next block and no block is empty. -/
theorem dropJumps_eq_self (hs : g.Sealed) (hnext : g.NoJumpToNext) (hempty : g.emptyBlocks = []) :
    g.dropJumps = g := by
  have hsame : g.mapBlocks g.dropJump = g := by
    have hmap : g.blocks.map g.dropJump = g.blocks := by
      refine (List.map_congr_left fun b hb => ?_).trans (List.map_id _)
      rcases g.dropJump_cases (hs b hb) with ⟨heq, -⟩ | ⟨t, hterm, hnext', -⟩
      · exact heq
      · exact absurd hnext' (hnext b hb t hterm)
    rw [mapBlocks, hmap]
  rw [dropJumps, dropJumpsWithin_succ, hsame, if_pos ⟨rfl, hempty⟩]

/-- A second run changes nothing if no jump leads to the next block or from outside onto a ring. -/
theorem Reduced.reduceJumps_eq_self (hg : g.Reduced stop inlined) (hnext : g.NoJumpToNext)
    (hring : g.NoJumpOntoRing) : g.reduceJumps inlined = g := by
  obtain ⟨⟨hw, hs, hsettled, hkept⟩, hempty, hreach, hclass⟩ := hg
  have hinline : (if inlined then g.inlineReturns else g) = g := by
    by_cases hinl : inlined = true
    · rw [if_pos hinl, inlineReturns_eq_self hs (hkept hinl)]
    · rw [if_neg hinl]
  unfold reduceJumps
  dsimp only
  rw [threadJumps_eq_self hs hsettled hring, hinline, dropJumps_eq_self hs hnext hempty,
    removeUnreachable_of_allReachable hreach, hclass]

/-! ## What a second run changes -/

/-- The block of a ring is left as it is. -/
theorem threadBlock_of_onRing {id : BlockId} (hs : g.Sealed) (hring : g.OnRing id) :
    g.threadBlock id = g := by
  by_cases hjump : ∃ b t, g.block? id = some b ∧ b.jumpTarget? = some t
  · obtain ⟨b, t, hb, ht⟩ := hjump
    obtain ⟨hterm, -, hfollow⟩ := follow_eq_of_onRing hb ht hs hring
    rcases threadBlock_cases hb ht with ⟨heq, -⟩ | ⟨-, -, hself⟩
    · exact heq
    · exact absurd hfollow (hself hterm)
  · refine threadBlock_of_jumpTarget?_eq_none fun b hb => ?_
    by_contra hne
    obtain ⟨t, ht⟩ := Option.ne_none_iff_exists'.1 hne
    exact hjump ⟨b, t, hb, ht⟩

/-- Threading a block leaves the others as they are. -/
theorem block?_threadBlock_of_ne {id : BlockId} (hx : x ≠ id) :
    (g.threadBlock id).block? x = g.block? x := by
  rcases g.threadBlock_eq id with heq | ⟨b, t, -, -, heq⟩
  · rw [heq]
  · rw [heq, block?_modify_of_ne (fun b => b.id_retarget _) hx]

/-- Threading some blocks leaves all others as they are. -/
theorem block?_foldl_threadBlock {ids : List BlockId} (hx : x ∉ ids) :
    (ids.foldl threadBlock g).block? x = g.block? x := by
  induction ids generalizing g with
  | nil => rfl
  | cons id ids ih =>
    rw [List.mem_cons, not_or] at hx
    rw [List.foldl_cons, ih hx.2, block?_threadBlock_of_ne hx.1]

/-- Where the jump of the block `b` comes onto a ring: the ring goes from `p` to the target of the jump. -/
structure EntersRing (g : FlowGraph) (b : Block) (p t : BlockId) : Prop where
  block : g.block? b.id = some b
  jump : b.jumpTarget? = some t
  step : g.HandsOn p t
  ring : g.OnRing p

/-- A jump that comes onto a ring still does when another block is threaded. -/
theorem EntersRing.threadBlock {id p : BlockId} (hg : g.EntersRing b p t) (hs : g.Sealed)
    (hid : b.id ≠ id) : (g.threadBlock id).EntersRing b p t := by
  by_cases hring : g.OnRing id
  · rw [threadBlock_of_onRing hs hring]
    exact hg
  · have hp : p ≠ id := fun h => hring (h ▸ hg.ring)
    refine ⟨(block?_threadBlock_of_ne hid).trans hg.block, hg.jump, ?_, ?_⟩
    · obtain ⟨hbound, c, hc, hct⟩ := hg.step
      have hsame : (g.threadBlock id).ranges = g.ranges := by
        rcases g.threadBlock_eq id with heq | ⟨_, _, -, -, heq⟩
        · rw [heq]
        · rw [heq]
          rfl
      refine ⟨?_, c, (block?_threadBlock_of_ne hp).trans hc, hct⟩
      unfold boundaries at hbound ⊢
      rwa [hsame]
    · rcases g.threadBlock_eq id with heq | ⟨c, u, hc, hu, heq⟩
      · rw [heq]
        exact hg.ring
      · rw [heq]
        exact (carries_retarget hc hu hs hring).ring hg.ring

/-- It still does when several others are. -/
theorem EntersRing.foldl {ids : List BlockId} {p : BlockId} (hg : g.EntersRing b p t)
    (hw : g.WellFormed stop) (hs : g.Sealed) (hb : b.id ∉ ids) :
    (ids.foldl FlowGraph.threadBlock g).EntersRing b p t ∧
    (ids.foldl FlowGraph.threadBlock g).Sealed := by
  induction ids generalizing g with
  | nil => exact ⟨hg, hs⟩
  | cons id ids ih =>
    rw [List.mem_cons, not_or] at hb
    exact ih (hg.threadBlock hs hb.1) (threadBlock_spec hw hs.returnsEnd id).1.1 (hs.threadBlock hw id) hb.2

/-- A jump from outside onto a ring of two or more blocks goes one block further back. -/
theorem EntersRing.threadJumps {p : BlockId} (hg : g.EntersRing b p t) (hw : g.WellFormed stop)
    (hs : g.Sealed) (hpt : p ≠ t) (hpb : p ≠ b.id) :
    g.threadJumps.block? b.id = some (b.retarget p) := by
  obtain ⟨front, back, hids⟩ := List.append_of_mem (mem_ids_iff.2 ⟨b, hg.block⟩)
  have hnodup : g.ids.Nodup := hw.sorted.imp Nat.ne_of_lt
  rw [hids, List.nodup_middle, List.nodup_cons, List.mem_append, not_or] at hnodup
  obtain ⟨⟨hfront, hback⟩, -⟩ := hnodup
  obtain ⟨hturn, hsturn⟩ := hg.foldl hw hs hfront
  unfold FlowGraph.threadJumps
  rw [hids, List.foldl_append, List.foldl_cons, block?_foldl_threadBlock hback]
  have hfollow := hturn.ring.follow_eq hsturn hturn.step
  rcases threadBlock_cases hturn.block hturn.jump with ⟨-, hsame⟩ | ⟨heq, -, -⟩
  · rw [hfollow] at hsame
    rcases hsame with hsame | ⟨-, hsame⟩
    · exact absurd hsame hpt
    · exact absurd hsame hpb
  · rw [heq, hfollow]
    exact block?_modify_self (fun c => c.id_retarget p) hturn.block

/-- The jumps that inlining leaves are those of blocks that it leaves. -/
theorem mem_blocks_inlineReturns (ht : b.jumpTarget? = some t) (hb : b ∈ g.inlineReturns.blocks) :
    b ∈ g.blocks := by
  have key : ∀ (ids : List BlockId) (g : FlowGraph), b ∈ (ids.foldl inlineReturn g).blocks → b ∈ g.blocks := by
    intro ids
    induction ids with
    | nil => exact fun _ h => h
    | cons id ids ih =>
      intro g hmem
      have hmem := ih _ hmem
      rcases g.inlineReturn_eq id with heq | ⟨_, _, _, _, _, type, -, -, -, -, -, -, heq⟩
      · rwa [heq] at hmem
      · rw [heq] at hmem
        rcases mem_blocks_modify hmem with ⟨hmem, -⟩ | ⟨c, -, -, rfl⟩
        · exact hmem
        · simp [Block.jumpTarget?, withReturn] at ht
  exact key g.ids g hb

/-- Dropping jumps adds no block, and keeps the order of those that stay. -/
theorem ids_dropJumpsWithin_sublist (rounds : Nat) (g : FlowGraph) :
    (FlowGraph.dropJumpsWithin rounds g).ids.Sublist g.ids := by
  -- a round bypasses empty blocks, each of which takes one block away
  have hbypass : ∀ (empties : List (BlockId × BlockId)) (g : FlowGraph),
      (empties.foldl (fun g (id, target) => g.bypass id target) g).ids.Sublist g.ids := by
    intro empties
    induction empties with
    | nil => exact fun _ => List.Sublist.refl _
    | cons e empties ih =>
      intro g
      have hids : (g.mapBlocks (g.bypassed e.1 e.2)).ids = g.ids := ids_mapBlocks id_bypassed
      refine (ih _).trans ?_
      rw [← hids]
      exact List.filter_sublist.map Block.id
  induction rounds generalizing g with
  | zero => exact List.Sublist.refl _
  | succ rounds ih =>
    rw [dropJumpsWithin_succ]
    by_cases hdone : (g.mapBlocks g.dropJump).blocks = g.blocks ∧
        (g.mapBlocks g.dropJump).emptyBlocks = []
    · rw [if_pos hdone]
    · rw [if_neg hdone]
      have hids : (g.mapBlocks g.dropJump).ids = g.ids := ids_mapBlocks id_dropJump
      exact (ih _).trans (hids ▸ hbypass _ _)

/-- There is one number for each block. -/
theorem length_ids (g : FlowGraph) : g.ids.length = g.blocks.length := List.length_map ..

/-- If no block is taken out, a round does nothing but drop jumps. -/
theorem dropJumpsWithin_of_ids {rounds : Nat} (hg : g.Settling stop inlined)
    (hids : (FlowGraph.dropJumpsWithin (rounds + 1) g).ids = g.ids) :
    FlowGraph.dropJumpsWithin (rounds + 1) g = g ∧ g.mapBlocks g.dropJump = g ∨
    FlowGraph.dropJumpsWithin (rounds + 1) g =
      FlowGraph.dropJumpsWithin rounds (g.mapBlocks g.dropJump) := by
  rw [dropJumpsWithin_succ] at hids ⊢
  -- unless the round has found nothing to do, it has taken empty blocks out or there were none
  by_cases hdone : (g.mapBlocks g.dropJump).blocks = g.blocks ∧
      (g.mapBlocks g.dropJump).emptyBlocks = []
  · rw [if_pos hdone]
    refine .inl ⟨rfl, ?_⟩
    rw [mapBlocks, show g.blocks.map g.dropJump = g.blocks from hdone.1]
  · rw [if_neg hdone] at hids ⊢
    have hdropped := hg.mapBlocks_dropJump
    obtain ⟨-, hnone | ⟨hlt, -⟩⟩ := hdropped.foldl_bypass (pairwise_emptyBlocks hdropped.wf.sorted)
      (isEmptyBlock_spec hdropped)
    · rw [hnone, List.foldl_nil]
      exact .inr rfl
    · -- a block that was taken out does not come back
      exfalso
      have hle := (ids_dropJumpsWithin_sublist rounds ((g.mapBlocks g.dropJump).emptyBlocks.foldl
        (fun g (id, target) => g.bypass id target) (g.mapBlocks g.dropJump))).length_le
      have hlength : (g.mapBlocks g.dropJump).blocks.length = g.blocks.length := List.length_map ..
      rw [hids, length_ids, length_ids] at hle
      omega

/-- A block that still has its jump after one round is as it was, and its jump leads not to the next
block. -/
theorem mem_blocks_mapBlocks_dropJump (hs : g.Sealed) (hb : b ∈ (g.mapBlocks g.dropJump).blocks)
    (ht : b.jumpTarget? = some t) :
    b ∈ g.blocks ∧ (b.terminator = .goto t → g.nextBlock? b.id ≠ some t) := by
  obtain ⟨c, hc, rfl⟩ := List.mem_map.1 hb
  rcases g.dropJump_cases (hs c hc) with ⟨heq, hnext⟩ | ⟨u, -, -, heq⟩
  · rw [heq]
    exact ⟨hc, hnext t⟩
  · rw [heq] at ht
    cases ht

/-- If dropping jumps removes no block, the blocks that still have a jump are as they were. -/
theorem mem_blocks_dropJumpsWithin {rounds : Nat} (hg : g.Settling stop inlined)
    (hids : (FlowGraph.dropJumpsWithin rounds g).ids = g.ids)
    (hb : b ∈ (FlowGraph.dropJumpsWithin rounds g).blocks) (ht : b.jumpTarget? = some t) :
    b ∈ g.blocks := by
  induction rounds generalizing g with
  | zero => exact hb
  | succ rounds ih =>
    have hdropped : (g.mapBlocks g.dropJump).ids = g.ids := ids_mapBlocks id_dropJump
    rcases dropJumpsWithin_of_ids hg hids with ⟨heq, -⟩ | heq
    · rwa [heq] at hb
    · rw [heq] at hb hids
      have hmem := ih hg.mapBlocks_dropJump (hids.trans hdropped.symm) hb
      exact (mem_blocks_mapBlocks_dropJump hg.ends hmem ht).1

/-- If dropping jumps takes no block out, the jumps that are left are those of blocks that are left as they
were, and they lead not to the next block. -/
theorem mem_blocks_dropJumps (hg : g.Settling stop inlined) (hids : g.dropJumps.ids = g.ids)
    (hb : b ∈ g.dropJumps.blocks) (ht : b.jumpTarget? = some t) :
    b ∈ g.blocks ∧ (b.terminator = .goto t → g.nextBlock? b.id ≠ some t) := by
  have hdropped : (g.mapBlocks g.dropJump).ids = g.ids := ids_mapBlocks id_dropJump
  rcases dropJumpsWithin_of_ids hg hids with ⟨heq, hsame⟩ | heq
  · rw [dropJumps, heq] at hb
    exact mem_blocks_mapBlocks_dropJump hg.ends (hsame.symm ▸ hb) ht
  · rw [dropJumps, heq] at hb hids
    have hmem := mem_blocks_dropJumpsWithin hg.mapBlocks_dropJump (hids.trans hdropped.symm) hb ht
    exact mem_blocks_mapBlocks_dropJump hg.ends hmem ht

/-- The jumps of a graph that a run does not change: they were not threaded, and they lead not to the next
block. -/
theorem mem_blocks_threadJumps (hw : g.WellFormed stop) (hs : g.Sealed)
    (hsame : g.reduceJumps inlined = g) (hb : b ∈ g.blocks) (ht : b.jumpTarget? = some t) :
    b ∈ g.threadJumps.blocks ∧ (b.terminator = .goto t → g.nextBlock? b.id ≠ some t) := by
  have hthreaded := settling_threadJumps hw hs
  obtain ⟨g', hg'⟩ : ∃ g', g' = if inlined then g.threadJumps.inlineReturns else g.threadJumps :=
    ⟨_, rfl⟩
  have hinlined : ∃ i, g'.Settling stop i := by
    rw [hg']
    split
    · exact ⟨true, hthreaded.inlineReturns⟩
    · exact ⟨false, hthreaded⟩
  have hids : g'.ids = g.ids := by
    have hthread : g.threadJumps.ids = g.ids := ids_foldl ids_threadBlock _
    rw [hg']
    split
    · exact (ids_foldl ids_inlineReturn _).trans hthread
    · exact hthread
  have hresult : g'.dropJumps.removeUnreachable.blocks = g.blocks := by
    have := congrArg FlowGraph.blocks hsame
    rwa [reduceJumps, ← hg'] at this
  -- no block is taken out, and none is unreachable
  have hsub : g'.dropJumps.ids.Sublist g'.ids := ids_dropJumpsWithin_sublist _ _
  have hfilter : g'.dropJumps.removeUnreachable.blocks.Sublist g'.dropJumps.blocks := List.filter_sublist
  have hlength : g'.dropJumps.ids.length ≤ g'.dropJumps.removeUnreachable.blocks.length := by
    rw [hresult, ← length_ids, ← hids]
    exact hsub.length_le
  rw [length_ids] at hlength
  have hblocks := hfilter.eq_of_length_le hlength
  have hdropids : g'.dropJumps.ids = g'.ids := by
    refine hsub.eq_of_length_le ?_
    rw [hids, length_ids, length_ids, ← hblocks, hresult]
  obtain ⟨i, hi⟩ := hinlined
  obtain ⟨hmem, hnext⟩ := mem_blocks_dropJumps hi hdropids (hblocks ▸ hresult.symm ▸ hb) ht
  refine ⟨?_, fun hterm => ?_⟩
  · rw [hg'] at hmem
    split at hmem
    · exact mem_blocks_inlineReturns ht hmem
    · exact hmem
  · have hnext := hnext hterm
    unfold nextBlock? at hnext ⊢
    rwa [hids] at hnext

/-- A run that changes nothing leaves no jump to the next block and none from outside onto a ring. -/
theorem of_reduceJumps_eq_self (hw : g.WellFormed stop) (hs : g.Sealed)
    (hsame : g.reduceJumps inlined = g) : g.NoJumpToNext ∧ g.NoJumpOntoRing := by
  refine ⟨fun b hb t hterm => (mem_blocks_threadJumps hw hs hsame hb (jumpTarget?_of_goto hterm)).2 hterm,
    fun b hb t ht hring => ?_⟩
  obtain ⟨p, hp, htp⟩ : ∃ p, g.HandsOn p t ∧ ReflTransGen g.HandsOn t p := by
    obtain ⟨p, htp, hpt⟩ := TransGen.tail'_iff.1 hring
    exact ⟨p, hpt, htp⟩
  have hpring := hring.of_way htp
  by_cases hpt : p = t
  · exact .inl (hpt ▸ hp)
  by_cases hpb : p = b.id
  · exact .inr (hpb ▸ hpring)
  -- otherwise threading leads the jump one block back
  have henters : g.EntersRing b p t := ⟨block?_eq_some hw.sorted hb, ht, hp, hpring⟩
  have hblock := henters.threadJumps hw hs hpt hpb
  have hmem := (mem_blocks_threadJumps hw hs hsame hb ht).1
  have hthreaded := settling_threadJumps hw hs
  rw [block?_eq_some hthreaded.wf.sorted hmem] at hblock
  have htarget := jumpTarget?_retarget (r := p) ht
  rw [← Option.some.inj hblock, ht] at htarget
  exact absurd (Option.some.inj htarget).symm hpt

/-- After one run on decoded code a second one changes nothing exactly if no jump leads to the next block,
or from outside onto a ring of blocks that hand control on. -/
theorem reduceJumps_reduceJumps_iff {pool : ConstantPool} {attr : CodeAttribute} {code : MethodCode}
    (h : MethodCode.decode pool attr = .ok code) (inlineReturns : Bool) :
    let reduced := (ofCode code).reduceJumps inlineReturns
    reduced.reduceJumps inlineReturns = reduced ↔ reduced.NoJumpToNext ∧ reduced.NoJumpOntoRing := by
  intro reduced
  have hcode := MethodCode.wellFormed_of_decode h
  have hreduced : reduced.Reduced code.length inlineReturns :=
    reduced_reduceJumps (wellFormed_ofCode hcode) (sealed_ofCode hcode) inlineReturns
  constructor
  · exact of_reduceJumps_eq_self hreduced.settling.wf hreduced.settling.ends
  · rintro ⟨hnext, hring⟩
    exact hreduced.reduceJumps_eq_self hnext hring

/-- A jump around a block that control cannot reach. -/
def jumpAroundDead : CodeAttribute :=
  ⟨0, 1, [0xa7, 0x00, 0x04, 0xb1, 0x84, 0x01, 0x01, 0xb1], [], []⟩

/-- The condition says of a method with a jump to its return whether a second run changes it. -/
theorem reduceJumps_reduceJumps_iff_jumpToReturn :
    ∃ code, MethodCode.decode .empty jumpToReturn = .ok code ∧
      (((ofCode code).reduceJumps true).reduceJumps true = (ofCode code).reduceJumps true ↔
        ((ofCode code).reduceJumps true).NoJumpToNext ∧
          ((ofCode code).reduceJumps true).NoJumpOntoRing) := by
  have hdecode : ∃ code, MethodCode.decode .empty jumpToReturn = .ok code := ⟨_, rfl⟩
  obtain ⟨code, hcode⟩ := hdecode
  exact ⟨code, hcode, reduceJumps_reduceJumps_iff hcode true⟩

/-- When the block is removed, the jump leads to the next block. -/
theorem reduceJumps_reduceJumps_ne :
    ∃ code, MethodCode.decode .empty jumpAroundDead = .ok code ∧
      ((ofCode code).reduceJumps true).reduceJumps true ≠ (ofCode code).reduceJumps true := by
  have hdecode : ∃ code, MethodCode.decode .empty jumpAroundDead = .ok code ∧
      ((ofCode code).reduceJumps true).jumps = [(0, .forward)] ∧
      (((ofCode code).reduceJumps true).reduceJumps true).jumps = [] := ⟨_, rfl, by cbv, by cbv⟩
  obtain ⟨code, hcode, hfirst, hsecond⟩ := hdecode
  refine ⟨code, hcode, fun hsame => ?_⟩
  rw [hsame, hfirst] at hsecond
  cases hsecond

end FlowGraph

end JvmDecompiler
