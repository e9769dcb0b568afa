import JvmDecompiler.Proofs.Rings

/-!
# What reducing jumps leaves to be reduced

`FlowGraph.reduceJumps` runs its phases once, one after the other. `Settling` says what the phases leave
behind, and that a later phase does not undo what an earlier one has done: a jump leads to a block that
holds control, to a ring of blocks that hand it on, or back to its own block, and no jump that can be
replaced by a return is left.

Two things are not settled in one run. Blocks that control cannot reach are removed last, and then a jump
may lead to the next block; and a jump onto a ring from outside goes one block further back at every run.
-/

namespace JvmDecompiler

open Relation (ReflTransGen TransGen)

namespace FlowGraph

variable {g h : FlowGraph} {a e r t u x y : BlockId} {b c : Block} {stop : Address}

/-! ## Ways in changed graphs -/

/-- A way that ends stays a way to the same block if every step of it is left or cut short to its end. -/
theorem EndsAt.mono (ha : g.EndsAt a e) (hrests : h.Rests e)
    (hstep : ∀ x y, g.HandsOn x y → g.EndsAt y e → h.HandsOn x y ∨ h.HandsOn x e) : h.EndsAt a e := by
  obtain ⟨hway, hend⟩ := ha
  induction hway using ReflTransGen.head_induction_on with
  | refl => exact hrests.endsAt
  | head hxy hrest ih =>
    rcases hstep _ _ hxy ⟨hrest, hend⟩ with hxy' | hxe
    · exact ih.head hxy'
    · exact hrests.endsAt.head hxe

/-- A jump of the block `b` to `t` that threading has nothing more to do with, unless it leads onto a
ring from outside. -/
def Settled (g : FlowGraph) (b : Block) (t : BlockId) : Prop :=
  g.Rests t ∨ g.OnRing t ∨ b.terminator = .goto t ∧ g.EndsAt t b.id

/-! ## One changed block -/

section Modify

variable {id : BlockId} {f : Block → Block} (hid : ∀ b, (f b).id = b.id)

include hid

/-- A block that is changed in place is found changed. -/
theorem block?_modify_self (hb : g.block? id = some b) : (g.modify id f).block? id = some (f b) := by
  rw [block?_modify hid, hb, Option.map_some, if_pos (id_of_block? hb)]

/-- All other blocks are found as they were. -/
theorem block?_modify_of_ne (hx : x ≠ id) : (g.modify id f).block? x = g.block? x := by
  rw [block?_modify hid]
  cases hc : g.block? x with
  | none => rfl
  | some c => rw [Option.map_some, if_neg fun h => hx ((id_of_block? hc).symm.trans h)]

/-- A change to one block leaves what the others hand control on to. -/
theorem handsOn_modify_of_ne (hx : x ≠ id) : (g.modify id f).HandsOn x y ↔ g.HandsOn x y := by
  unfold HandsOn
  rw [block?_modify_of_ne hid hx]
  rfl

/-- What a changed block hands control on to is read off the new block alone. -/
theorem handsOn_modify_self (hb : g.block? id = some b) :
    (g.modify id f).HandsOn id y ↔ id ∉ g.boundaries ∧ (f b).HandsTo y := by
  unfold HandsOn
  rw [block?_modify_self hid hb]
  simp [boundaries, modify]

end Modify

/-- The blocks of a graph in which one was changed. -/
theorem mem_blocks_modify {id : BlockId} {f : Block → Block} (hc : c ∈ (g.modify id f).blocks) :
    (c ∈ g.blocks ∧ c.id ≠ id) ∨ ∃ b ∈ g.blocks, b.id = id ∧ c = f b := by
  obtain ⟨b, hb, rfl⟩ := List.mem_map.1 hc
  by_cases hbid : b.id = id
  · rw [if_pos hbid]
    exact .inr ⟨b, hb, hbid, rfl⟩
  · rw [if_neg hbid]
    exact .inl ⟨hb, hbid⟩

/-- A graph has one block under each number. -/
theorem eq_of_block? {id : BlockId} (hs : g.ids.Pairwise (· < ·)) (hb : g.block? id = some b)
    (hc : c ∈ g.blocks) (hid : c.id = id) : c = b := by
  have hcb := block?_eq_some hs hc
  rw [hid, hb] at hcb
  exact (Option.some.inj hcb).symm

/-! ## Threading -/

/-- The target of a jump is that of the block's terminator. -/
theorem jumpTarget?_of_goto (hb : b.terminator = .goto t) : b.jumpTarget? = some t := by
  simp [Block.jumpTarget?, hb]

/-- A block with a jump to move ends with it, and hands control on to its target or to nothing. -/
theorem goto_of_handsTo (ht : b.jumpTarget? = some t) (hu : b.HandsTo u) :
    b.terminator = .goto t ∧ u = t := by
  rcases hu with ⟨hterm, -⟩ | ⟨hterm, -⟩
  · rw [jumpTarget?_of_goto hterm] at ht
    cases ht
    exact ⟨hterm, rfl⟩
  · simp [Block.jumpTarget?, hterm] at ht

/-- To change the last instruction takes none away. -/
theorem length_modifyLast (b : Block) (f : Instruction → Instruction) :
    (b.modifyLast f).instructions.length = b.instructions.length := by
  rcases List.eq_nil_or_concat b.instructions with hnil | ⟨rest, last, hconcat⟩
  · simp [Block.modifyLast, hnil, mapLast]
  · simp [Block.modifyLast, hconcat, mapLast_append_singleton]

/-- A block whose jump is moved hands control on exactly if it did so before, and then to the new target. -/
theorem handsTo_retarget (ht : b.jumpTarget? = some t) :
    (b.retarget r).HandsTo u ↔ u = r ∧ b.HandsTo t := by
  have hlength : (b.retarget r).instructions.length = b.instructions.length := by
    rw [Block.instructions_retarget, length_modifyLast]
  cases hterm : b.terminator with
  | goto v =>
    rw [jumpTarget?_of_goto hterm] at ht
    cases ht
    have hterm' : (b.retarget r).terminator = .goto r := by
      simp [Block.retarget, Block.modifyLast, hterm]
    simp only [Block.HandsTo, hterm, hterm', hlength, Terminator.goto.injEq, reduceCtorEq, false_and,
      or_false, true_and]
    exact and_congr_left fun _ => eq_comm
  | branch condition v w =>
    have hterm' : ∃ v, (b.retarget r).terminator = .branch condition v w := by
      simp [Block.retarget, Block.modifyLast, hterm]
    obtain ⟨v', hterm'⟩ := hterm'
    simp [Block.HandsTo, hterm, hterm']
  | fallThrough | switch | «return» | throw | jsr | ret => simp [Block.jumpTarget?, hterm] at ht

/-- The jump is still there when its target has been moved. -/
theorem jumpTarget?_retarget (ht : b.jumpTarget? = some t) : (b.retarget r).jumpTarget? = some r := by
  cases hterm : b.terminator with
  | goto v => simp [Block.jumpTarget?, Block.retarget, Block.modifyLast, hterm]
  | branch condition v w => simp [Block.jumpTarget?, Block.retarget, Block.modifyLast, hterm]
  | fallThrough | switch | «return» | throw | jsr | ret => simp [Block.jumpTarget?, hterm] at ht

/-- Threading changes a block exactly if its jump ends elsewhere, and not at the block itself. -/
theorem threadBlock_cases {id : BlockId} (hb : g.block? id = some b) (ht : b.jumpTarget? = some t) :
    (g.threadBlock id = g ∧ (g.follow t = t ∨ b.terminator = .goto t ∧ g.follow t = id)) ∨
    (g.threadBlock id = g.modify id (·.retarget (g.follow t)) ∧ g.follow t ≠ t ∧
      (b.terminator = .goto t → g.follow t ≠ id)) := by
  unfold threadBlock
  rw [hb]
  dsimp only
  -- a jump may also be to a ring through its own block, where it stays as it is
  cases hterm : b.terminator with
  | goto v =>
    rw [jumpTarget?_of_goto hterm] at ht
    cases ht
    dsimp only
    by_cases hc : g.follow t ≠ t ∧ g.follow t ≠ id
    · rw [if_pos hc]
      exact .inr ⟨rfl, hc.1, fun _ => hc.2⟩
    · rw [if_neg hc]
      refine .inl ⟨rfl, ?_⟩
      tauto
  | branch condition v w =>
    obtain rfl : v = t := by simpa [Block.jumpTarget?, hterm] using ht
    dsimp only
    by_cases hc : g.follow v ≠ v
    · rw [if_pos hc]
      exact .inr ⟨rfl, hc, fun h => by cases h⟩
    · rw [if_neg hc]
      exact .inl ⟨rfl, .inl (not_not.1 hc)⟩
  | fallThrough | switch | «return» | throw | jsr | ret => simp [Block.jumpTarget?, hterm] at ht

/-- Threading passes over a block without a jump to move. -/
theorem threadBlock_of_jumpTarget?_eq_none {id : BlockId}
    (h : ∀ b, g.block? id = some b → b.jumpTarget? = none) : g.threadBlock id = g := by
  rcases g.threadBlock_eq id with heq | ⟨b, t, hb, ht, -⟩
  · exact heq
  · rw [h b hb] at ht
    cases ht

section ThreadBlock

variable {id : BlockId} (hb : g.block? id = some b) (ht : b.jumpTarget? = some t)

include hb ht

/-- Moving the jump of one block changes where this block hands control on to, and nothing else. -/
theorem handsOn_retarget : (g.modify id (·.retarget r)).HandsOn x y ↔
    x ≠ id ∧ g.HandsOn x y ∨ x = id ∧ y = r ∧ g.HandsOn id t := by
  have hid : ∀ b : Block, (b.retarget r).id = b.id := fun b => b.id_retarget r
  by_cases hx : x = id
  · subst hx
    rw [handsOn_modify_self hid hb, handsTo_retarget ht]
    unfold HandsOn
    rw [hb]
    simp
    tauto
  · rw [handsOn_modify_of_ne hid hx]
    simp [hx]

omit hb ht in
/-- A block that ends in a jump or branches hands on to the target of the jump, if at all. -/
theorem HandsOn.eq_target (hb : g.block? id = some b) (ht : b.jumpTarget? = some t)
    (hu : g.HandsOn id u) : b.terminator = .goto t ∧ u = t := by
  obtain ⟨-, c, hc, hcu⟩ := hu
  rw [hb] at hc
  cases hc
  exact goto_of_handsTo ht hcu

/-- The block of a ring is left as it is. -/
theorem follow_eq_of_onRing (hs : g.Sealed) (hring : g.OnRing id) :
    b.terminator = .goto t ∧ g.HandsOn id t ∧ g.follow t = id := by
  obtain ⟨u, hu⟩ := hring.exists_handsOn
  obtain ⟨hterm, rfl⟩ := hu.eq_target hb ht
  exact ⟨hterm, hu, hring.follow_eq hs hu⟩

end ThreadBlock

/-- What a block leads to through blocks that hand control on, it leads to in the other graph as well. -/
structure Carries (g h : FlowGraph) : Prop where
  rests : ∀ {x}, g.Rests x → h.Rests x
  ring : ∀ {x}, g.OnRing x → h.OnRing x
  ends : ∀ {b t x}, b ∈ g.blocks → b.terminator = .goto t → g.EndsAt x b.id → h.EndsAt x b.id

/-- A settled jump stays settled in a graph that keeps the blocks that rest, the rings, and where the way of a
jump ends. -/
theorem Settled.mono {b' : Block} {t' : BlockId} (hg : g.Settled b t)
    (hrests : g.Rests t → h.Rests t') (hring : g.OnRing t → h.OnRing t')
    (hends : b.terminator = .goto t → g.EndsAt t b.id → b'.terminator = .goto t' ∧ h.EndsAt t' b'.id) :
    h.Settled b' t' := by
  rcases hg with hr | hr | ⟨hterm, he⟩
  · exact .inl (hrests hr)
  · exact .inr (.inl (hring hr))
  · exact .inr (.inr (hends hterm he))

/-- A graph that carries control to the same ends has the same jumps settled. -/
theorem Carries.settled (hgh : Carries g h) (hb : b ∈ g.blocks) (hg : g.Settled b t) : h.Settled b t :=
  hg.mono hgh.rests hgh.ring fun hterm he => ⟨hterm, hgh.ends hb hterm he⟩

/-- Threading a block that is on no ring leaves rings as they are and cuts ways short to their ends. -/
theorem carries_retarget {id : BlockId} (hb : g.block? id = some b) (ht : b.jumpTarget? = some t)
    (hs : g.Sealed) (hnot : ¬g.OnRing id) : Carries g (g.modify id (·.retarget (g.follow t))) := by
  have hhands : ∀ {x y}, (g.modify id (·.retarget (g.follow t))).HandsOn x y ↔
      x ≠ id ∧ g.HandsOn x y ∨ x = id ∧ y = g.follow t ∧ g.HandsOn id t := handsOn_retarget hb ht
  have hrests : ∀ {x}, g.Rests x → (g.modify id (·.retarget (g.follow t))).Rests x := by
    intro x hx y hxy
    rcases hhands.1 hxy with ⟨-, hxy⟩ | ⟨rfl, -, hxy⟩
    · exact hx y hxy
    · exact hx t hxy
  refine ⟨hrests, fun {x} hx => hx.mono fun y z hy hyz => hhands.2 (.inl ⟨?_, hyz⟩),
    fun {c v x} _ _ he => he.mono (hrests he.rests) fun y z hyz hz => ?_⟩
  · rintro rfl
    exact hnot hy
  · by_cases hy : y = id
    · subst hy
      obtain ⟨-, rfl⟩ := hyz.eq_target hb ht
      exact .inr (hhands.2 (.inr ⟨rfl, (hz.follow_eq hs).symm, hyz⟩))
    · exact .inl (hhands.2 (.inl ⟨hy, hyz⟩))

/-- The jumps of the blocks in `done` are settled. -/
def Threaded (g : FlowGraph) (done : List BlockId) : Prop :=
  ∀ b ∈ g.blocks, b.id ∈ done → ∀ t, b.jumpTarget? = some t → g.Settled b t

/-- A jump that threading leaves as it is, is settled. -/
theorem settled_of_follow {id : BlockId} (hs : g.Sealed) (hb : g.block? id = some b)
    (ht : b.jumpTarget? = some t)
    (hsame : g.follow t = t ∨ b.terminator = .goto t ∧ g.follow t = id) : g.Settled b t := by
  have hfollow := endsAt_or_onRing_follow hs t
  rcases hsame with hsame | ⟨hterm, hsame⟩ <;> rw [hsame] at hfollow
  · rcases hfollow with hend | ⟨-, hring⟩
    · exact .inl hend.rests
    · exact .inr (.inl hring)
  · rcases hfollow with hend | ⟨-, hring⟩
    · exact .inr (.inr ⟨hterm, (id_of_block? hb).symm ▸ hend⟩)
    · exact .inr (.inl (hring.step (follow_eq_of_onRing hb ht hs hring).2.1))

/-- Threading a block settles its jump, and leaves those settled that had been before. -/
theorem Threaded.threadBlock {id : BlockId} {done : List BlockId} (hg : g.Threaded done)
    (hw : g.WellFormed stop) (hs : g.Sealed) : (g.threadBlock id).Threaded (id :: done) := by
  -- a block that does not end in a jump is not threaded
  by_cases hjump : ∃ b t, g.block? id = some b ∧ b.jumpTarget? = some t
  · obtain ⟨b, t, hb, ht⟩ := hjump
    rcases threadBlock_cases hb ht with ⟨heq, hsame⟩ | ⟨heq, hne, hself⟩
    -- the jump stays: it is settled, since following leads nowhere else, or back to the block itself
    · rw [heq]
      intro c hc hdone u hu
      rcases List.mem_cons.1 hdone with hid | hdone
      · obtain rfl := eq_of_block? hw.sorted hb hc hid
        rw [ht] at hu
        cases hu
        exact settled_of_follow hs hb ht hsame
      · exact hg c hc hdone u hu
    -- the jump moves on, so its block is on no ring, and rings and ends of ways stay what they were
    · have hnot : ¬g.OnRing id := fun hring => by
        obtain ⟨hterm, -, hid⟩ := follow_eq_of_onRing hb ht hs hring
        exact hself hterm hid
      have hcarries := carries_retarget hb ht hs hnot
      rw [heq]
      intro c hc hdone u hu
      rcases mem_blocks_modify hc with ⟨hc, hcid⟩ | ⟨d, hd, hdid, rfl⟩
      · exact hcarries.settled hc (hg c hc ((List.mem_cons.1 hdone).resolve_left hcid) u hu)
      · obtain rfl := eq_of_block? hw.sorted hb hd hdid
        rw [jumpTarget?_retarget ht] at hu
        cases hu
        rcases endsAt_or_onRing_follow hs t with hend | ⟨-, hring⟩
        · exact .inl (hcarries.rests hend.rests)
        · exact .inr (.inl (hcarries.ring hring))
  · have hnone : ∀ b, g.block? id = some b → b.jumpTarget? = none := by
      intro b hb
      by_contra hne
      obtain ⟨t, ht⟩ := Option.ne_none_iff_exists'.1 hne
      exact hjump ⟨b, t, hb, ht⟩
    rw [threadBlock_of_jumpTarget?_eq_none hnone]
    intro c hc hdone u hu
    rcases List.mem_cons.1 hdone with hid | hdone
    · rw [hnone c (hid ▸ block?_eq_some hw.sorted hc)] at hu
      cases hu
    · exact hg c hc hdone u hu

/-- What holds of a graph from which jumps are being threaded. -/
structure Threading (g : FlowGraph) (stop : Address) (done : List BlockId) : Prop where
  wf : g.WellFormed stop
  ends : g.Sealed
  threaded : g.Threaded done

/-- What holds while jumps are being threaded is kept, with one more block done. -/
theorem Threading.threadBlock {id : BlockId} {done : List BlockId} (hg : g.Threading stop done) :
    (g.threadBlock id).Threading stop (id :: done) where
  wf := (threadBlock_spec hg.wf hg.ends.returnsEnd id).1.1
  ends := hg.ends.threadBlock hg.wf id
  threaded := hg.threaded.threadBlock hg.wf hg.ends

/-- Threading the jumps of several blocks settles all of them. -/
theorem Threading.foldl {ids done : List BlockId} (hg : g.Threading stop done) :
    (ids.foldl FlowGraph.threadBlock g).Threading stop (ids.reverse ++ done) := by
  induction ids generalizing g done with
  | nil => exact hg
  | cons id ids ih =>
    rw [List.foldl_cons, List.reverse_cons, List.append_assoc]
    exact ih hg.threadBlock

/-! ## Returns -/

/-- A reason why the jump of a block to `t` is not replaced by a return. -/
def ReturnKept (g : FlowGraph) (b : Block) (t : BlockId) : Prop :=
  t ∈ g.boundaries ∨ g.keepsJoin b.id t = true ∨ (g.block? t).bind loneReturn? = none

/-- A block whose terminator is not a return is no lone return. -/
theorem loneReturn?_eq_none (hg : g.ReturnsEnd) (hc : c ∈ g.blocks) (hterm : c.terminator ≠ .return) :
    loneReturn? c = none := by
  by_contra hne
  obtain ⟨r, hr⟩ := Option.ne_none_iff_exists'.1 hne
  obtain ⟨type, -, hlone⟩ := exists_isLoneReturn_of_loneReturn? hr
  exact hterm (hg c hc type hlone)

/-- A block that does not return is no lone return. -/
theorem bind_loneReturn?_eq_none (hg : g.ReturnsEnd)
    (hterm : ∀ c, g.block? t = some c → c.terminator ≠ .return) :
    (g.block? t).bind loneReturn? = none := by
  cases hc : g.block? t with
  | none => rfl
  | some c => exact loneReturn?_eq_none hg (mem_of_block? hc) (hterm c hc)

/-- What hands control on is no lone return. -/
theorem HandsOn.bind_loneReturn? (hg : g.ReturnsEnd) (ht : g.HandsOn t u) :
    (g.block? t).bind FlowGraph.loneReturn? = none := by
  obtain ⟨-, b, hb, hbu⟩ := ht
  refine bind_loneReturn?_eq_none hg fun c hc hterm => ?_
  rw [hb] at hc
  cases hc
  rcases hbu with ⟨hgoto, -⟩ | ⟨hfall, -⟩
  · rw [hterm] at hgoto
    cases hgoto
  · rw [hterm] at hfall
    cases hfall

/-- A block that ends in a jump is changed exactly if nothing keeps the jump. -/
theorem inlineReturn_cases {id : BlockId} (hs : g.Sealed) (hb : g.block? id = some b)
    (hterm : b.terminator = .goto t) :
    (g.inlineReturn id = g ∧ g.ReturnKept b t) ∨
    ¬g.ReturnKept b t ∧ ∃ c type, g.block? t = some c ∧ IsLoneReturn c type ∧
      g.inlineReturn id = g.modify id (withReturn type) := by
  have hbid := id_of_block? hb
  -- a block with a jump for its terminator ends in the instruction of the jump
  obtain ⟨last, u, hlast, hop⟩ : ∃ last u, b.instructions.getLast? = some last ∧
      last.operation = .goto u := by
    cases hlast : b.instructions.getLast? with
    | none =>
      obtain ⟨v, hv⟩ := (hs b (mem_of_block? hb)).empty (List.getLast?_eq_none_iff.1 hlast)
      rw [hterm] at hv
      cases hv
    | some last =>
      have hends := (hs b (mem_of_block? hb)).last last hlast
      cases hop : last.operation <;> simp [hterm, hop, Terminator.endsWith] at hends
      exact ⟨last, _, rfl, hop⟩
  unfold inlineReturn
  rw [hb]
  dsimp only
  rw [hterm, hlast]
  dsimp only
  -- the two tests of the definition: the target is bound or joins, or else whether it is a lone return
  by_cases hkeep : (g.boundaries.contains t || g.keepsJoin id t) = true
  · rw [if_pos hkeep]
    refine .inl ⟨rfl, ?_⟩
    rw [Bool.or_eq_true] at hkeep
    rcases hkeep with hbound | hjoin
    · exact .inl (by simpa using hbound)
    · exact .inr (.inl (hbid.symm ▸ hjoin))
  · rw [if_neg hkeep, hop]
    cases hr : (g.block? t).bind loneReturn? with
    | none => exact .inl ⟨rfl, .inr (.inr hr)⟩
    | some r =>
      obtain ⟨c, hc, hlone⟩ := Option.bind_eq_some_iff.1 hr
      obtain ⟨type, rfl, htype⟩ := exists_isLoneReturn_of_loneReturn? hlone
      refine .inr ⟨?_, c, type, hc, htype, rfl⟩
      rw [Bool.or_eq_true, not_or] at hkeep
      -- none of the three reasons for keeping the jump is left
      rintro (hbound | hjoin | hnone)
      · exact hkeep.1 (by simpa using hbound)
      · exact hkeep.2 (hbid ▸ hjoin)
      · rw [hr] at hnone
        cases hnone

/-- Only a block that ends with a jump can get a return in its place. -/
theorem inlineReturn_of_not_goto {id : BlockId}
    (h : ∀ b, g.block? id = some b → ∀ t, b.terminator ≠ .goto t) : g.inlineReturn id = g := by
  rcases g.inlineReturn_eq id with heq | ⟨b, t, u, last, c, type, hb, hterm, -⟩
  · exact heq
  · exact absurd hterm (h b hb t)

section InlineReturn

variable {id : BlockId} {type : Option OperandType}

/-- A block that returns hands control on to nothing, and the others to what they did. -/
theorem handsOn_withReturn (hb : g.block? id = some b) :
    (g.modify id (withReturn type)).HandsOn x y ↔ x ≠ id ∧ g.HandsOn x y := by
  have hid : ∀ b, (withReturn type b).id = b.id := fun _ => rfl
  by_cases hx : x = id
  · subst hx
    rw [handsOn_modify_self hid hb]
    simp [withReturn, Block.HandsTo]
  · rw [handsOn_modify_of_ne hid hx]
    simp [hx]

/-- Control rests at a return. -/
theorem rests_of_return (hc : g.block? t = some c) (hterm : c.terminator = .return) : g.Rests t := by
  rintro v ⟨-, d, hd, hdv⟩
  rw [hc] at hd
  cases hd
  rcases hdv with ⟨hgoto, -⟩ | ⟨hfall, -⟩
  · rw [hterm] at hgoto
    cases hgoto
  · rw [hterm] at hfall
    cases hfall

/-- A return in the place of a jump to a return breaks no ring, and cuts only ways to that return. -/
theorem carries_withReturn (hs : g.ids.Pairwise (· < ·)) (hr : g.ReturnsEnd) (hb : g.block? id = some b)
    (hterm : b.terminator = .goto t) (hc : g.block? t = some c) (hlone : IsLoneReturn c type) :
    Carries g (g.modify id (withReturn type)) := by
  have hcterm : c.terminator = .return := hr c (mem_of_block? hc) type hlone
  have hrests : g.Rests t := rests_of_return hc hcterm
  have htarget : ∀ {v}, g.HandsOn id v → v = t := fun hv =>
    (hv.eq_target hb (jumpTarget?_of_goto hterm)).2
  have hhands : ∀ {x y}, (g.modify id (withReturn type)).HandsOn x y ↔ x ≠ id ∧ g.HandsOn x y :=
    handsOn_withReturn hb
  refine ⟨fun hx y hxy => hx y (hhands.1 hxy).2, fun hx => hx.mono fun y z hy hyz => ?_,
    fun {d v x} hd hdterm he => he.mono (fun y hy => he.rests y (hhands.1 hy).2) fun y z hyz hz => ?_⟩
  · refine hhands.2 ⟨?_, hyz⟩
    rintro rfl
    have hzt := hy.step hyz
    rw [htarget hyz] at hzt
    exact hzt.not_rests hrests
  · refine .inl (hhands.2 ⟨?_, hyz⟩)
    rintro rfl
    -- the way from here ends at the return, which is no jump
    rw [htarget hyz] at hz
    obtain rfl := eq_of_block? hs hc hd (hz.unique hrests.endsAt).symm
    rw [hcterm] at hdterm
    cases hdterm

end InlineReturn

/-- Every jump that is left is settled, and those of the blocks in `done` are not to be replaced by a
return. -/
structure Inlining (g : FlowGraph) (stop : Address) (done : List BlockId) : Prop where
  wf : g.WellFormed stop
  ends : g.Sealed
  settled : ∀ b ∈ g.blocks, ∀ t, b.jumpTarget? = some t → g.Settled b t
  kept : ∀ b ∈ g.blocks, b.id ∈ done → ∀ t, b.terminator = .goto t → g.ReturnKept b t

/-- A jump to a block that hands control on to a lone return does not stay behind threading, unless the
block keeps its place. -/
theorem Settled.not_handsOn_return (hg : g.Settled b t) (hb : g.block? b.id = some b)
    (ht : g.HandsOn t u) (hc : g.block? u = some c) (hterm : c.terminator = .return)
    (hgoto : b.terminator = .goto x) : False := by
  have hrests := rests_of_return hc hterm
  rcases hg with hr | hring | ⟨-, he⟩
  · exact hr u ht
  · exact (hring.step ht).not_rests hrests
  · have hid : u = b.id := (he.of_handsOn ht).unique hrests.endsAt
    rw [hid, hb] at hc
    cases hc
    rw [hterm] at hgoto
    cases hgoto

/-- Whether a block keeps its jump to a join depends on that block, not on its neighbours. -/
theorem keepsJoin_modify_of_ne {id : BlockId} {f : Block → Block} (hid : ∀ b, (f b).id = b.id)
    (hx : x ≠ id) : (g.modify id f).keepsJoin x t = g.keepsJoin x t := by
  unfold keepsJoin
  rw [block?_modify_of_ne hid hx]
  rfl

/-- Another block's return leaves what keeps a jump. -/
theorem ReturnKept.withReturn {id : BlockId} {type : Option OperandType} (hg : g.ReturnKept b t)
    (hs : g.ids.Pairwise (· < ·)) (hb : b ∈ g.blocks) (hbid : b.id ≠ id)
    (hgoto : b.terminator = .goto t) (hsettled : g.Settled b t) {d : Block} (hd : g.block? id = some d)
    (hdterm : d.terminator = .goto u) (hc : g.block? u = some c) (hterm : c.terminator = .return) :
    (g.modify id (FlowGraph.withReturn type)).ReturnKept b t := by
  have hid : ∀ b, (FlowGraph.withReturn type b).id = b.id := fun _ => rfl
  rcases hg with hbound | hjoin | hnone
  · exact .inl hbound
  · exact .inr (.inl ((keepsJoin_modify_of_ne hid hbid).trans hjoin))
  · by_cases htid : t = id
    · subst htid
      by_cases hbound : t ∈ g.boundaries
      · exact .inl hbound
      -- the block that becomes a return is more than its jump, since a jump to it is left
      refine .inr (.inr ?_)
      rw [block?_modify_self hid hd, Option.bind_some]
      by_contra hne
      obtain ⟨r, hr⟩ := Option.ne_none_iff_exists'.1 hne
      obtain ⟨_, -, only, honly, -⟩ := exists_isLoneReturn_of_loneReturn? hr
      have hlength : d.instructions.length = 1 := by
        have := length_modifyLast d fun _ => .return type
        rw [← this]
        exact (congrArg List.length honly).trans rfl
      have hhands : g.HandsOn t u := ⟨hbound, d, hd, .inl ⟨hdterm, hlength⟩⟩
      exact hsettled.not_handsOn_return (block?_eq_some hs hb) hhands hc hterm hgoto
    · refine .inr (.inr ?_)
      rw [block?_modify_of_ne hid htid]
      exact hnone

/-- What holds while returns are being inlined is kept, with one more block done. -/
theorem Inlining.inlineReturn {id : BlockId} {done : List BlockId} (hg : g.Inlining stop done) :
    (g.inlineReturn id).Inlining stop (id :: done) := by
  have hr := hg.ends.returnsEnd
  have hw := (inlineReturn_spec hg.wf hr id).1.1
  have hs := hg.ends.inlineReturn hg.wf id
  by_cases hjump : ∃ b t, g.block? id = some b ∧ b.terminator = .goto t
  · obtain ⟨b, t, hb, hterm⟩ := hjump
    rcases inlineReturn_cases hg.ends hb hterm with ⟨heq, hkept⟩ | ⟨-, c, type, hc, hlone, heq⟩
    · rw [heq]
      refine ⟨hg.wf, hg.ends, hg.settled, fun d hd hdone u hu => ?_⟩
      rcases List.mem_cons.1 hdone with hid | hdone
      · obtain rfl := eq_of_block? hg.wf.sorted hb hd hid
        rw [hterm] at hu
        cases hu
        exact hkept
      · exact hg.kept d hd hdone u hu
    · have hcterm : c.terminator = .return := hr c (mem_of_block? hc) type hlone
      have hcarries := carries_withReturn hg.wf.sorted hr hb hterm hc hlone
      rw [heq] at hw hs ⊢
      refine ⟨hw, hs, fun d hd u hu => ?_, fun d hd hdone u hu => ?_⟩
      -- settled jumps stay settled, since the block that is changed was on no ring
      · rcases mem_blocks_modify hd with ⟨hd, -⟩ | ⟨d', -, -, rfl⟩
        · exact hcarries.settled hd (hg.settled d hd u hu)
        · simp [Block.jumpTarget?, withReturn] at hu
      -- and kept ones stay kept: the new return is no target of theirs
      · rcases mem_blocks_modify hd with ⟨hd, hdid⟩ | ⟨d', -, -, rfl⟩
        · have hdone := (List.mem_cons.1 hdone).resolve_left hdid
          exact (hg.kept d hd hdone u hu).withReturn hg.wf.sorted hd hdid hu
            (hg.settled d hd u (jumpTarget?_of_goto hu)) hb hterm hc hcterm
        · cases hu
  · have hnone : ∀ b, g.block? id = some b → ∀ t, b.terminator ≠ .goto t :=
      fun b hb t hterm => hjump ⟨b, t, hb, hterm⟩
    rw [inlineReturn_of_not_goto hnone]
    refine ⟨hg.wf, hg.ends, hg.settled, fun d hd hdone u hu => ?_⟩
    rcases List.mem_cons.1 hdone with hid | hdone
    · exact absurd hu (hnone d (hid ▸ block?_eq_some hg.wf.sorted hd) u)
    · exact hg.kept d hd hdone u hu

/-- Inlining into several blocks leaves none of them with a jump to replace. -/
theorem Inlining.foldl {ids done : List BlockId} (hg : g.Inlining stop done) :
    (ids.foldl FlowGraph.inlineReturn g).Inlining stop (ids.reverse ++ done) := by
  induction ids generalizing g done with
  | nil => exact hg
  | cons id ids ih =>
    rw [List.foldl_cons, List.reverse_cons, List.append_assoc]
    exact ih hg.inlineReturn

/-! ## What the phases leave -/

/-- What threading and inlining leave, and the phases behind them keep. -/
structure Settling (g : FlowGraph) (stop : Address) (inlined : Bool) : Prop where
  wf : g.WellFormed stop
  ends : g.Sealed
  settled : ∀ b ∈ g.blocks, ∀ t, b.jumpTarget? = some t → g.Settled b t
  kept : inlined = true → ∀ b ∈ g.blocks, ∀ t, b.terminator = .goto t → g.ReturnKept b t

/-- Steps that keep the numbers of the blocks keep them one after the other. -/
theorem ids_foldl {f : FlowGraph → BlockId → FlowGraph} (hf : ∀ g id, (f g id).ids = g.ids)
    (ids : List BlockId) : (ids.foldl f g).ids = g.ids := by
  induction ids generalizing g with
  | nil => rfl
  | cons id ids ih => rw [List.foldl_cons, ih, hf]

/-- Threading a block keeps the numbers of all blocks. -/
theorem ids_threadBlock (g : FlowGraph) (id : BlockId) : (g.threadBlock id).ids = g.ids := by
  rcases g.threadBlock_eq id with heq | ⟨b, t, -, -, heq⟩
  · rw [heq]
  · rw [heq]
    exact ids_mapBlocks fun b => by split <;> simp [Block.id_retarget]

/-- So does inlining a return. -/
theorem ids_inlineReturn (g : FlowGraph) (id : BlockId) : (g.inlineReturn id).ids = g.ids := by
  rcases g.inlineReturn_eq id with heq | ⟨b, t, u, last, c, type, -, -, -, -, -, -, heq⟩
  · rw [heq]
  · rw [heq]
    exact ids_mapBlocks fun b => by split <;> rfl

/-- What threading leaves. -/
theorem settling_threadJumps (hw : g.WellFormed stop) (hs : g.Sealed) :
    g.threadJumps.Settling stop false := by
  have hstart : g.Threading stop [] := ⟨hw, hs, fun b _ hdone => by cases hdone⟩
  obtain ⟨hw', hs', hthreaded⟩ : g.threadJumps.Threading stop (g.ids.reverse ++ []) := hstart.foldl
  refine ⟨hw', hs', fun b hb t ht => hthreaded b hb ?_ t ht, nofun⟩
  have hid := mem_ids hb
  rw [threadJumps, ids_foldl ids_threadBlock] at hid
  simpa using hid

/-- What inlining leaves. -/
theorem Settling.inlineReturns {inlined : Bool} (hg : g.Settling stop inlined) :
    g.inlineReturns.Settling stop true := by
  have hstart : g.Inlining stop [] := ⟨hg.wf, hg.ends, hg.settled, fun b _ hdone => by cases hdone⟩
  obtain ⟨hw', hs', hsettled, hkept⟩ : g.inlineReturns.Inlining stop (g.ids.reverse ++ []) :=
    hstart.foldl
  refine ⟨hw', hs', hsettled, fun _ b hb t ht => hkept b hb ?_ t ht⟩
  have hid := mem_ids hb
  rw [FlowGraph.inlineReturns, ids_foldl ids_inlineReturn] at hid
  simpa using hid

/-! ## Dropped jumps -/

/-- A sealed block keeps its jump, or falls through to the next block instead. -/
theorem dropJump_cases (hb : b.Sealed) :
    (g.dropJump b = b ∧ ∀ t, b.terminator = .goto t → g.nextBlock? b.id ≠ some t) ∨
    ∃ t, b.terminator = .goto t ∧ g.nextBlock? b.id = some t ∧
      g.dropJump b = ⟨b.id, b.instructions.dropLast, .fallThrough t⟩ := by
  unfold dropJump
  cases hterm : b.terminator with
  | goto t =>
    dsimp only
    by_cases hnext : g.nextBlock? b.id = some t
    · rw [if_pos hnext]
      refine .inr ⟨t, rfl, hnext, ?_⟩
      cases hlast : b.instructions.getLast? with
      | none => rw [List.getLast?_eq_none_iff.1 hlast]; rfl
      | some last =>
        have hends := hb.last last hlast
        cases hop : last.operation <;> simp [hterm, hop, Terminator.endsWith] at hends
        simp [hop]
    · rw [if_neg hnext]
      refine .inl ⟨rfl, fun u hu => ?_⟩
      cases hu
      exact hnext
  | fallThrough | branch | switch | «return» | throw | jsr | ret => exact .inl ⟨rfl, fun t ht => by cases ht⟩

/-- A jump to the next block hands control on like falling into it. -/
theorem handsTo_dropJump (hb : b.Sealed) : (g.dropJump b).HandsTo u ↔ b.HandsTo u := by
  rcases g.dropJump_cases hb with ⟨heq, -⟩ | ⟨t, hterm, -, heq⟩
  · rw [heq]
  · have hne : b.instructions ≠ [] := fun hnil => by
      obtain ⟨v, hv⟩ := hb.empty hnil
      rw [hterm] at hv
      cases hv
    have hpos := List.length_pos_iff.2 hne
    have hlength : b.instructions.dropLast = [] ↔ b.instructions.length = 1 := by
      rw [← List.length_eq_zero_iff, List.length_dropLast]
      omega
    rw [heq]
    simp [Block.HandsTo, hterm, hlength]

/-- A change to all blocks that keeps what each hands control on to keeps it for the graph. -/
theorem handsOn_mapBlocks {f : Block → Block} (hid : ∀ b, (f b).id = b.id)
    (hf : ∀ b ∈ g.blocks, ∀ y, (f b).HandsTo y ↔ b.HandsTo y) :
    (g.mapBlocks f).HandsOn x y ↔ g.HandsOn x y := by
  unfold HandsOn
  rw [block?_mapBlocks hid]
  refine and_congr Iff.rfl ⟨?_, ?_⟩
  · rintro ⟨c, hc, hy⟩
    obtain ⟨b, hb, rfl⟩ := Option.map_eq_some_iff.1 hc
    exact ⟨b, hb, (hf b (mem_of_block? hb) y).1 hy⟩
  · rintro ⟨b, hb, hy⟩
    exact ⟨f b, by rw [hb]; rfl, (hf b (mem_of_block? hb) y).2 hy⟩

/-- Two graphs in which the same blocks hand control on to the same ones carry control to the same ends. -/
theorem carries_of_handsOn_iff (hiff : ∀ x y, h.HandsOn x y ↔ g.HandsOn x y) : Carries g h := by
  have hrel : h.HandsOn = g.HandsOn := funext fun x => funext fun y => propext (hiff x y)
  refine ⟨fun hx y hy => hx y ((hiff _ y).1 hy), fun hx => ?_, fun _ _ he => ?_⟩
  · unfold OnRing
    rw [hrel]
    exact hx
  · obtain ⟨hway, hrests⟩ := he
    exact ⟨hrel ▸ hway, fun y hy => hrests y ((hiff _ y).1 hy)⟩

/-- Dropping jumps to the next block leaves what threading and inlining have left. -/
theorem Settling.mapBlocks_dropJump {inlined : Bool} (hg : g.Settling stop inlined) :
    (g.mapBlocks g.dropJump).Settling stop inlined := by
  have hs : (g.mapBlocks g.dropJump).Sealed := by
    intro c hc
    obtain ⟨b, hb, rfl⟩ := List.mem_map.1 hc
    exact (hg.ends b hb).dropJump g
  have hcarries : Carries g (g.mapBlocks g.dropJump) := carries_of_handsOn_iff fun x y =>
    handsOn_mapBlocks id_dropJump fun b hb y => handsTo_dropJump (hg.ends b hb)
  -- a block that still has its jump is as it was
  have hsame : ∀ c ∈ (g.mapBlocks g.dropJump).blocks, ∀ t, c.jumpTarget? = some t →
      c ∈ g.blocks ∧ g.dropJump c = c := by
    intro c hc t ht
    obtain ⟨b, hb, rfl⟩ := List.mem_map.1 hc
    rcases g.dropJump_cases (hg.ends b hb) with ⟨heq, -⟩ | ⟨u, -, -, heq⟩
    · rw [heq]
      exact ⟨hb, heq⟩
    · rw [heq] at ht
      cases ht
  refine ⟨hg.wf.mapBlocks id_dropJump fun b hb => fits_dropJump (hg.wf.blocks b hb), hs,
    fun c hc t ht => ?_, fun hinl c hc t ht => ?_⟩
  · have hmem := (hsame c hc t ht).1
    exact hcarries.settled hmem (hg.settled c hmem t ht)
  · obtain ⟨hmem, heq⟩ := hsame c hc t (jumpTarget?_of_goto ht)
    rcases hg.kept hinl c hmem t ht with hbound | hjoin | hnone
    · exact .inl hbound
    · refine .inr (.inl ?_)
      unfold keepsJoin at hjoin ⊢
      rw [block?_mapBlocks id_dropJump]
      rw [block?_eq_some hg.wf.sorted hmem] at hjoin ⊢
      rw [Option.map_some, heq]
      exact hjoin
    · refine .inr (.inr ?_)
      rw [block?_mapBlocks id_dropJump]
      cases hb : g.block? t with
      | none => rfl
      | some b =>
        rw [hb, Option.bind_some] at hnone
        have hbmem := mem_of_block? hb
        rw [Option.map_some, Option.bind_some]
        rcases g.dropJump_cases (hg.ends b hbmem) with ⟨heq', -⟩ | ⟨u, -, -, heq'⟩
        · rw [heq']
          exact hnone
        · refine loneReturn?_eq_none hs.returnsEnd (List.mem_map_of_mem hbmem) ?_
          simp [heq']

/-! ## Bypassed blocks -/

/-- A terminator with moved targets is a jump only if it was one. -/
theorem Terminator.mapTargets_goto {f : BlockId → BlockId} {term : Terminator} :
    term.mapTargets f = .goto u ↔ ∃ t, term = .goto t ∧ u = f t := by
  cases term <;> simp [Terminator.mapTargets, eq_comm]

/-- It falls through only if it did so before. -/
theorem Terminator.mapTargets_fallThrough {f : BlockId → BlockId} {term : Terminator} :
    term.mapTargets f = .fallThrough u ↔ ∃ t, term = .fallThrough t ∧ u = f t := by
  cases term <;> simp [Terminator.mapTargets, eq_comm]

/-- A lone return jumps nowhere, so that moved targets do not concern it. -/
theorem loneReturn?_redirect (b : Block) (source target : BlockId) :
    loneReturn? (b.redirect source target) = loneReturn? b := by
  unfold loneReturn? Block.redirect Block.modifyLast
  match b.instructions with
  | [] => rfl
  | [only] =>
    simp only [mapLast]
    cases only.operation <;> rfl
  | [_, _] => rfl
  | _ :: _ :: _ :: _ => rfl

section Bypass

variable {source target : BlockId}

/-- To go round a block takes no instruction away from its predecessors. -/
theorem length_instructions_bypassed (b : Block) :
    (g.bypassed source target b).instructions.length = b.instructions.length := by
  unfold bypassed
  split
  · exact length_modifyLast b _
  · rfl

/-- Behind a bypass each other block is found with its targets moved. -/
theorem block?_bypass_of_ne (hx : x ≠ source) :
    (g.bypass source target).block? x = (g.block? x).map (g.bypassed source target) := by
  rw [bypass_eq, block?_keepIds (by simpa using hx), block?_mapBlocks id_bypassed]

/-- Another target changes nothing in front of a jump. -/
theorem body_bypassed (hb : b.Sealed) (hgoto : b.terminator = .goto t) :
    (g.bypassed source target b).body = b.body := by
  unfold bypassed
  split
  · rcases List.eq_nil_or_concat b.instructions with hnil | ⟨rest, last, hconcat⟩
    · obtain ⟨v, hv⟩ := hb.empty hnil
      rw [hgoto] at hv
      cases hv
    · rw [List.concat_eq_append] at hconcat
      have hends := hb.last last (by simp [hconcat])
      cases hop : last.operation <;> simp [hgoto, hop, Terminator.endsWith] at hends
      simp [Block.body, Block.redirect, Block.modifyLast, Terminator.mapTargets, hgoto, hconcat, hop,
        mapLast_append_singleton, Instruction.mapTargets, Instruction.endsBlock,
        Instruction.isUnconditionalTransfer]
  · rfl

/-- Only the block that is gone round is replaced. -/
theorem swap_of_ne (hx : x ≠ source) : swap source target x = x := if_neg hx

/-- The block that is gone round is replaced by its target. -/
theorem swap_self : swap source target source = target := if_pos rfl

variable (hw : g.WellFormed stop)

include hw

/-- A block hands control on past the one that is gone round. -/
theorem handsTo_bypassed (hb : b ∈ g.blocks) :
    (g.bypassed source target b).HandsTo y ↔ ∃ u, b.HandsTo u ∧ y = swap source target u := by
  have hterm : (g.bypassed source target b).terminator = b.terminator.mapTargets (swap source target) :=
    terminator_bypassed hw.sorted hb
  have hlength : (g.bypassed source target b).instructions.length = b.instructions.length :=
    length_instructions_bypassed b
  unfold Block.HandsTo
  rw [hterm, hlength, Terminator.mapTargets_goto, Terminator.mapTargets_fallThrough,
    ← List.length_eq_zero_iff, hlength, List.length_eq_zero_iff]
  constructor
  · rintro (⟨⟨t, ht, rfl⟩, hone⟩ | ⟨⟨t, ht, rfl⟩, hnil⟩)
    · exact ⟨t, .inl ⟨ht, hone⟩, rfl⟩
    · exact ⟨t, .inr ⟨ht, hnil⟩, rfl⟩
  · rintro ⟨t, ⟨ht, hone⟩ | ⟨ht, hnil⟩, rfl⟩
    · exact .inl ⟨⟨t, ht, rfl⟩, hone⟩
    · exact .inr ⟨⟨t, ht, rfl⟩, hnil⟩

/-- The block that is gone round no longer hands control on, and the others hand it on past it. -/
theorem handsOn_bypass : (g.bypass source target).HandsOn x y ↔
    x ≠ source ∧ ∃ u, g.HandsOn x u ∧ y = swap source target u := by
  by_cases hx : x = source
  · subst hx
    refine ⟨fun h => ?_, fun h => absurd rfl h.1⟩
    have hmem := h.mem_ids
    rw [mem_ids_bypass] at hmem
    exact absurd rfl hmem.2
  · unfold HandsOn
    rw [block?_bypass_of_ne hx]
    constructor
    · rintro ⟨hbound, c, hc, hy⟩
      obtain ⟨b, hb, rfl⟩ := Option.map_eq_some_iff.1 hc
      obtain ⟨u, hu, rfl⟩ := (handsTo_bypassed hw (mem_of_block? hb)).1 hy
      exact ⟨hx, u, ⟨hbound, b, hb, hu⟩, rfl⟩
    · rintro ⟨-, u, ⟨hbound, b, hb, hu⟩, rfl⟩
      refine ⟨hbound, _, by rw [hb]; rfl, ?_⟩
      exact (handsTo_bypassed hw (mem_of_block? hb)).2 ⟨u, hu, rfl⟩

variable (he : g.HandsOn source target) (hne : target ≠ source)

include he hne

/-- Where control rests it still does, or at what takes the place of the block. -/
theorem rests_bypass (hx : g.Rests x) : (g.bypass source target).Rests (swap source target x) := by
  have hxs : x ≠ source := by
    rintro rfl
    exact hx target he
  rw [swap_of_ne hxs]
  intro y hy
  obtain ⟨-, u, hu, -⟩ := (handsOn_bypass hw).1 hy
  exact hx u hu

/-- A way that ends stays one when a block of it is taken out. -/
theorem endsAt_bypass (hx : g.EndsAt x e) : (g.bypass source target).EndsAt (swap source target x) e := by
  have hrests := rests_bypass hw he hne hx.rests
  have hes : e ≠ source := by
    rintro rfl
    exact hx.rests target he
  rw [swap_of_ne hes] at hrests
  refine ⟨?_, hrests⟩
  obtain ⟨hway, -⟩ := hx
  induction hway using ReflTransGen.head_induction_on with
  | refl => rw [swap_of_ne hes]
  | @head y z hyz _ ih =>
    by_cases hy : y = source
    · subst hy
      obtain rfl := hyz.unique he
      rw [swap_of_ne hne] at ih
      rwa [swap_self]
    · rw [swap_of_ne hy]
      exact .head ((handsOn_bypass hw).2 ⟨hy, z, hyz, rfl⟩) ih

/-- A ring stays one when a block of it is taken out. -/
theorem onRing_bypass (hx : g.OnRing x) : (g.bypass source target).OnRing (swap source target x) := by
  have key : ∀ x, x ≠ source → g.OnRing x → (g.bypass source target).OnRing x := by
    intro x hxs hx
    -- a way on to `x` stays one without `source`; from `source` it starts at the target
    have hway : ∀ y, TransGen g.HandsOn y x →
        (y ≠ source → TransGen (g.bypass source target).HandsOn y x) ∧
        (y = source → ReflTransGen (g.bypass source target).HandsOn target x) := by
      intro y hy
      induction hy using TransGen.head_induction_on with
      | @single y hyx =>
        refine ⟨fun hys => .single ((handsOn_bypass hw).2 ⟨hys, x, hyx, (swap_of_ne hxs).symm⟩), ?_⟩
        rintro rfl
        exact hyx.unique he ▸ .refl
      | @head y z hyz _ ih =>
        constructor
        · intro hys
          have hstep : (g.bypass source target).HandsOn y (swap source target z) :=
            (handsOn_bypass hw).2 ⟨hys, z, hyz, rfl⟩
          by_cases hz : z = source
          · rw [hz, swap_self] at hstep
            exact .head' hstep (ih.2 hz)
          · rw [swap_of_ne hz] at hstep
            exact .head hstep (ih.1 hz)
        · rintro rfl
          obtain rfl := hyz.unique he
          exact (ih.1 hne).to_reflTransGen
    exact (hway x hx).1 hxs
  by_cases hxs : x = source
  · subst hxs
    rw [swap_self]
    exact key target hne (hx.step he)
  · rw [swap_of_ne hxs]
    exact key x hxs hx

/-- Taking an empty block out leaves what keeps a jump. -/
theorem returnKept_bypass (hs : g.Sealed) (hb : b ∈ g.blocks) (hbs : b.id ≠ source)
    (hgoto : b.terminator = .goto t) (hsettled : g.Settled b t) (hkept : g.ReturnKept b t) :
    (g.bypass source target).ReturnKept (g.bypassed source target b) (swap source target t) := by
  have hs' := hs.bypass source target
  by_cases hts : t = source
  · -- the jump leads on to a block that is no lone return
    subst hts
    rw [swap_self]
    refine .inr (.inr ?_)
    rcases hsettled with hrests | hring | ⟨-, hend⟩
    · exact absurd he (hrests target)
    · have hring' := onRing_bypass hw he hne hring
      rw [swap_self] at hring'
      obtain ⟨u, hu⟩ := hring'.exists_handsOn
      exact hu.bind_loneReturn? hs'.returnsEnd
    · have hend' := endsAt_bypass hw he hne hend
      rw [swap_self] at hend'
      rcases ReflTransGen.cases_head_iff.1 hend'.way with heq | ⟨u, hu, -⟩
      · refine bind_loneReturn?_eq_none hs'.returnsEnd fun c hc => ?_
        rw [heq, block?_bypass_of_ne hbs, block?_eq_some hw.sorted hb] at hc
        cases hc
        rw [terminator_bypassed hw.sorted hb, hgoto]
        nofun
      · exact hu.bind_loneReturn? hs'.returnsEnd
  · rw [swap_of_ne hts]
    rcases hkept with hbound | hjoin | hnone
    · exact .inl hbound
    · refine .inr (.inl ?_)
      unfold keepsJoin at hjoin ⊢
      have hblock := block?_eq_some hw.sorted hb
      rw [id_bypassed, block?_bypass_of_ne hbs, hblock]
      rw [hblock] at hjoin
      dsimp only [Option.map_some] at hjoin ⊢
      rw [body_bypassed (hs b hb) hgoto]
      exact hjoin
    · refine .inr (.inr ?_)
      rw [block?_bypass_of_ne hts]
      cases hc : g.block? t with
      | none => rfl
      | some c =>
        rw [hc, Option.bind_some] at hnone
        rw [Option.map_some, Option.bind_some]
        unfold bypassed
        split
        · rw [loneReturn?_redirect, hnone]
        · exact hnone

end Bypass

/-- Taking an empty block out leaves what threading and inlining have left. -/
theorem Settling.bypass {source target : BlockId} {inlined : Bool} (hg : g.Settling stop inlined)
    (he : IsEmptyBlock g source target) (hbound : source ∉ g.boundaries) :
    (g.bypass source target).Settling stop inlined := by
  have hlt := (he.target_spec hg.wf).1
  have hne : target ≠ source := Nat.ne_of_gt hlt
  have hhands : g.HandsOn source target := by
    obtain ⟨b, hb, hnil, hterm⟩ := he.block
    exact ⟨hbound, b, hb, .inr ⟨hterm, hnil⟩⟩
  -- a block that is left comes from a block other than `source`
  have hmem : ∀ c ∈ (g.bypass source target).blocks, ∃ b ∈ g.blocks, b.id ≠ source ∧
      c = g.bypassed source target b := by
    intro c hc
    obtain ⟨hc, hcs⟩ := List.mem_filter.1 hc
    obtain ⟨b, hb, rfl⟩ := List.mem_map.1 hc
    refine ⟨b, hb, ?_, rfl⟩
    have hid : (g.bypassed source target b).id ≠ source := of_decide_eq_true hcs
    rwa [id_bypassed] at hid
  refine ⟨wellFormed_bypass he hg.wf, hg.ends.bypass source target, fun c hc u hu => ?_,
    fun hinl c hc u hu => ?_⟩
  · obtain ⟨b, hb, hbs, rfl⟩ := hmem c hc
    have hterm : (g.bypassed source target b).terminator =
        b.terminator.mapTargets (swap source target) := terminator_bypassed hg.wf.sorted hb
    obtain ⟨t, ht, rfl⟩ : ∃ t, b.jumpTarget? = some t ∧ u = swap source target t := by
      unfold Block.jumpTarget? at hu ⊢
      rw [hterm] at hu
      cases hbt : b.terminator <;> simp [hbt, Terminator.mapTargets] at hu ⊢
      · exact hu.symm
      · exact hu.symm
    refine (hg.settled b hb t ht).mono (rests_bypass hg.wf hhands hne) (onRing_bypass hg.wf hhands hne)
      fun hgoto hend => ⟨?_, ?_⟩
    · rw [hterm, hgoto]
      rfl
    · rw [id_bypassed]
      exact endsAt_bypass hg.wf hhands hne hend
  · obtain ⟨b, hb, hbs, rfl⟩ := hmem c hc
    rw [terminator_bypassed hg.wf.sorted hb, Terminator.mapTargets_goto] at hu
    obtain ⟨t, ht, rfl⟩ := hu
    exact returnKept_bypass hg.wf hhands hne hg.ends hb hbs ht
      (hg.settled b hb t (jumpTarget?_of_goto ht)) (hg.kept hinl b hb t ht)

end FlowGraph

end JvmDecompiler
