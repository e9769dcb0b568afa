import JvmDecompiler.Proofs.BlockEnds
import JvmDecompiler.Proofs.LoopPatterns
import JvmDecompiler.Proofs.NaturalLoops

/-!
# The parts of recognised loops

`Loop.Fits` says what holds of a loop that `FlowGraph.reduceLoops` has recognised, by its shape: which
block tests whether it goes on, where the ways out of that test lead, and that an initialisation and an
update go nowhere but to the header.
-/

namespace JvmDecompiler

/-- Whether a loop tests in its header whether it goes on. -/
def LoopKind.testsFirst : LoopKind → Bool
  | .while | .for | .forEachArray | .forEachIterator => true
  | .doWhile | .endless | .unstructured => false

/-- The header does nothing but decide between `inside` and the exit of the loop. -/
structure Loop.HeaderTest (l : Loop) (g : FlowGraph) (pool : ConstantPool) (b : Block)
    (inside outside : BlockId) : Prop where
  block : g.block? l.header = some b
  branch : ∃ c, b.terminator = .branch c inside outside ∨ b.terminator = .branch c outside inside
  exit : l.exit = some outside
  inside : inside ∈ l.body
  outside : outside ∉ l.body
  pure : PlacedInstruction.isPureCondition pool b.instructions = true

/-- The latch decides between the header and a block outside the loop. -/
structure Loop.LatchTest (l : Loop) (g : FlowGraph) (b : Block) (outside : BlockId) : Prop where
  block : g.block? l.latch = some b
  branch : ∃ c, b.terminator = .branch c l.header outside ∨ b.terminator = .branch c outside l.header
  outside : outside ∉ l.body

/-- Control goes on from one block to another, whatever happens. -/
def FlowGraph.GoesOnTo (g : FlowGraph) (id target : BlockId) : Prop :=
  ∃ b, g.block? id = some b ∧ (b.terminator = .fallThrough target ∨ b.terminator = .goto target)

/-- What holds of a recognised loop. -/
structure Loop.Fits (l : Loop) (g : FlowGraph) (pool : ConstantPool) : Prop where
  header : l.header ∈ l.body
  latch : l.header ∈ g.successors l.latch
  headerTest : l.kind.testsFirst = true → l.latch ≠ l.header ∧ ∃ b s t, l.HeaderTest g pool b s t
  latchTest : l.kind = .doWhile → ∃ b t, l.LatchTest g b t
  init : ∀ i ∈ l.init, g.successors i = [l.header]
  update : ∀ u ∈ l.update, u = l.latch ∧ g.successors u = [l.header]
  initKind : l.init.isSome = true → l.kind = .for ∨ l.kind.isForEach = true
  initOfKind : l.kind = .for ∨ l.kind.isForEach = true → l.init.isSome = true
  updateOfKind : l.kind = .for → l.update.isSome = true
  updateKind : l.update.isSome = true → l.init.isSome = true
  parts : l.kind = .for → ∀ i, i ∈ l.init ∨ i ∈ l.update → g.GoesOnTo i l.header

/-- What holds of a natural loop: the header is one of its blocks, and the last latch leads to it. -/
structure NaturalLoop.Fits (l : NaturalLoop) (g : FlowGraph) : Prop where
  header : l.header ∈ l.body
  latch : l.header ∈ g.successors l.latch

namespace FlowGraph

variable {g : FlowGraph} {pool : ConstantPool}

/-! ## Natural loops -/

/-- Natural loops fit their graph. -/
theorem fits_of_mem_naturalLoops {l : NaturalLoop} (h : l ∈ g.naturalLoops) : l.Fits g :=
  ⟨(mem_body_iff h).2 (.inl rfl), ((mem_latches_iff h).1 (latch_mem_latches h)).2.1⟩

/-! ## Shapes -/

/-- A block with two ways out ends in a branch. -/
theorem exists_branch_of_branches? {id ifTrue ifFalse : BlockId}
    (h : g.branches? id = some (ifTrue, ifFalse)) :
    ∃ b c, g.block? id = some b ∧ b.terminator = .branch c ifTrue ifFalse := by
  unfold branches? at h
  split at h
  · rename_i c t f hterm
    obtain ⟨b, hb, hbt⟩ := Option.map_eq_some_iff.1 hterm
    cases h
    exact ⟨b, c, hb, hbt⟩
  · cases h

/-- A header that tests decides between the loop and its exit. -/
theorem headerTest_of_hasHeaderTest {l : NaturalLoop} {found : Loop}
    (h : g.hasHeaderTest pool l = true) (hheader : found.header = l.header) (hbody : found.body = l.body)
    (hexit : found.exit = g.loopExit? l) : ∃ b s t, found.HeaderTest g pool b s t := by
  unfold hasHeaderTest at h
  split at h
  · rename_i b ifTrue ifFalse hb hbranches
    obtain ⟨b', c, hb', hterm⟩ := exists_branch_of_branches? hbranches
    obtain rfl : b = b' := Option.some.inj (hb.symm.trans hb')
    rw [Bool.and_eq_true, bne_iff_ne] at h
    obtain ⟨hne, hpure⟩ := h
    -- the exit is the target of the header outside of the loop
    have hfind : found.exit = [ifTrue, ifFalse].find? (!l.body.contains ·) := by
      rw [hexit, loopExit?, conditionalExit?, hbranches]
      cases hin : l.body.contains ifTrue <;> cases hin' : l.body.contains ifFalse <;>
        simp_all [conditionalExit?]
    cases hin : l.body.contains ifTrue with
    | true =>
      have hout : l.body.contains ifFalse = false := by
        rw [hin] at hne
        exact eq_false_of_ne_true (Ne.symm hne)
      refine ⟨b, ifTrue, ifFalse, hheader ▸ hb, ⟨c, .inl hterm⟩, ?_, ?_, ?_, hpure⟩
      · simp only [hfind, List.find?_cons, hin, hout, Bool.not_true, Bool.not_false]
      · simpa [hbody] using hin
      · simpa [hbody] using hout
    | false =>
      have hout : l.body.contains ifFalse = true := by
        rw [hin] at hne
        exact eq_true_of_ne_false (Ne.symm hne)
      refine ⟨b, ifFalse, ifTrue, hheader ▸ hb, ⟨c, .inr hterm⟩, ?_, ?_, ?_, hpure⟩
      · simp only [hfind, List.find?_cons, hin, Bool.not_false]
      · simpa [hbody] using hout
      · simpa [hbody] using hin
  · cases h

/-- A latch that tests ends in a branch back to the header. -/
theorem latchTest_of_hasLatchTest {l : NaturalLoop} {found : Loop} (h : g.hasLatchTest l = true)
    (hheader : found.header = l.header) (hbody : found.body = l.body) (hlatch : found.latch = l.latch) :
    ∃ b t, found.LatchTest g b t := by
  unfold hasLatchTest at h
  split at h
  · rename_i ifTrue ifFalse hbranches
    obtain ⟨b, c, hb, hterm⟩ := exists_branch_of_branches? hbranches
    simp only [Bool.or_eq_true, Bool.and_eq_true, decide_eq_true_eq, Bool.not_eq_true'] at h
    rcases h with ⟨rfl, hout⟩ | ⟨rfl, hout⟩
    · exact ⟨b, ifFalse, hlatch ▸ hb, ⟨c, .inl (hheader ▸ hterm)⟩, by simpa [hbody] using hout⟩
    · exact ⟨b, ifTrue, hlatch ▸ hb, ⟨c, .inr (hheader ▸ hterm)⟩, by simpa [hbody] using hout⟩
  · cases h

/-- A block that goes on to one block goes on to any block that it leads to. -/
theorem goesOnTo_of_mem_successors {id target : BlockId} {b : Block} (hb : g.block? id = some b)
    (hgoes : ∃ t, b.terminator = .fallThrough t ∨ b.terminator = .goto t)
    (htarget : target ∈ g.successors id) : g.GoesOnTo id target := by
  obtain ⟨t, hterm | hterm⟩ := hgoes <;>
    simp only [successors, hb, hterm, Terminator.successors, List.mem_singleton] at htarget <;>
    exact ⟨b, hb, by simp [hterm, htarget]⟩

/-- A block with a count at the end of its body goes on to one block. -/
theorem goesOnTo_of_trailingCount? {id target : BlockId} {b : Block} {slot : UInt16} {address : Address}
    (hg : g.Sealed) (hb : g.block? id = some b) (h : trailingCount? slot b = some address)
    (htarget : target ∈ g.successors id) : g.GoesOnTo id target := by
  unfold trailingCount? at h
  simp only [Option.bind_eq_bind, Option.bind_eq_some_iff] at h
  obtain ⟨last, hlast, h⟩ := h
  refine goesOnTo_of_mem_successors hb ((hg b (mem_of_block? hb)).exists_goesOn hlast ?_) htarget
  split at h
  · rename_i hs
    rw [hs]
    rfl
  · cases h

/-- A block that ends with storing a value goes on to one block. -/
theorem goesOnTo_of_initStart? {pre target : BlockId} {slot : UInt16} {address : Address}
    (hg : g.Sealed) (h : g.initStart? pool pre slot = some address)
    (htarget : target ∈ g.successors pre) : g.GoesOnTo pre target := by
  simp only [initStart?, Option.bind_eq_bind, Option.bind_none, Option.bind_eq_some_iff] at h
  obtain ⟨b, hb, last, hlast, h⟩ := h
  refine goesOnTo_of_mem_successors hb ((hg b (mem_of_block? hb)).exists_goesOn hlast ?_) htarget
  split at h
  · rename_i hs
    rw [hs]
    rfl
  · cases h

/-- A block that goes on to another has no other way out. -/
theorem GoesOnTo.successors_eq {id target : BlockId} (h : g.GoesOnTo id target) :
    g.successors id = [target] := by
  obtain ⟨b, hb, hterm⟩ := h
  rcases hterm with hterm | hterm <;> simp [successors, hb, hterm, Terminator.successors]

/-- The update of a counting loop goes on to the header. -/
theorem ForPattern.goesOnTo {l : NaturalLoop} {slot : UInt16} {pre : BlockId} {initAt updateAt : Address}
    (hpattern : g.ForPattern pool l slot pre initAt updateAt) (hl : l.Fits g) :
    g.GoesOnTo l.latch l.header := by
  obtain ⟨b, hb, -, t, hgoto⟩ := hpattern.latch
  exact goesOnTo_of_mem_successors hb ⟨t, hgoto.symm⟩ hl.latch

/-- The latch of a loop through an array goes on to the header. -/
theorem ArrayPattern.goesOnTo {l : NaturalLoop} {array length index : UInt16} {pre : BlockId}
    {initAt updateAt : Address} (hpattern : g.ArrayPattern pool l array length index pre initAt updateAt)
    (hg : g.Sealed) (hl : l.Fits g) : g.GoesOnTo l.latch l.header := by
  obtain ⟨b, hb, hcount⟩ := hpattern.latch
  exact goesOnTo_of_trailingCount? hg hb hcount hl.latch

/-- A recognised loop fits the graph. -/
theorem fits_of_recognised {l : NaturalLoop} {found : Loop} (hg : g.Sealed) (hl : l.Fits g)
    (h : g.Recognised pool l found) : found.Fits g pool := by
  have hsome : ∀ {a b : BlockId}, b ∈ some a → a = b := Option.some.inj
  cases h with
  | iterator hne htest _ hpre =>
    exact ⟨hl.header, hl.latch, fun _ => ⟨hne, headerTest_of_hasHeaderTest htest rfl rfl rfl⟩, nofun,
      fun _ hi => hsome hi ▸ hpre, nofun, fun _ => .inr rfl, fun _ => rfl, nofun, nofun, nofun⟩
  | array hne htest hpattern hpre =>
    exact ⟨hl.header, hl.latch, fun _ => ⟨hne, headerTest_of_hasHeaderTest htest rfl rfl rfl⟩, nofun,
      fun _ hi => hsome hi ▸ hpre,
      fun _ hu => ⟨(hsome hu).symm, hsome hu ▸ (hpattern.goesOnTo hg hl).successors_eq⟩,
      fun _ => .inr rfl, fun _ => rfl, nofun, fun _ => rfl, nofun⟩
  | «for» hne htest hpattern hpre =>
    have hupdate := hpattern.goesOnTo hl
    refine ⟨hl.header, hl.latch, fun _ => ⟨hne, headerTest_of_hasHeaderTest htest rfl rfl rfl⟩, nofun,
      fun _ hi => hsome hi ▸ hpre, fun _ hu => ⟨(hsome hu).symm, hsome hu ▸ hupdate.successors_eq⟩,
      fun _ => .inl rfl, fun _ => rfl, fun _ => rfl, fun _ => rfl, fun _ i hi => ?_⟩
    rcases hi with hi | hi
    · exact hsome hi ▸ goesOnTo_of_initStart? hg hpattern.init (hpre ▸ List.mem_singleton_self _)
    · exact hsome hi ▸ hupdate
  | «while» hne htest =>
    exact ⟨hl.header, hl.latch, fun _ => ⟨hne, headerTest_of_hasHeaderTest htest rfl rfl rfl⟩, nofun, nofun,
      nofun, nofun, nofun, nofun, nofun, nofun⟩
  | doWhile htest =>
    exact ⟨hl.header, hl.latch, nofun, fun _ => latchTest_of_hasLatchTest htest rfl rfl rfl, nofun, nofun,
      nofun, nofun, nofun, nofun, nofun⟩
  | endless =>
    exact ⟨hl.header, hl.latch, nofun, nofun, nofun, nofun, nofun, nofun, nofun, nofun, nofun⟩

/-! ## All loops -/

/-- So do all loops that are given a shape. -/
theorem fits_of_mem_shapesOf {loops : List NaturalLoop} {found : List Loop} (hg : g.Sealed)
    (hl : ∀ l ∈ loops, l.Fits g) (h : g.shapesOf pool loops = .inr found) :
    ∀ l ∈ found, l.Fits g pool := by
  induction loops generalizing found with
  | nil =>
    obtain rfl := Sum.inr.inj h
    simp
  | cons l rest ih =>
    have hrest := fun {found} => @ih found fun k hk => hl k (List.mem_cons_of_mem _ hk)
    have hhead := hl l List.mem_cons_self
    -- either way, a loop that fits stands in front of those of the rest
    have key : ∀ {first : Loop}, first.Fits g pool →
        (g.shapesOf pool rest).map id (first :: ·) = .inr found → ∀ l ∈ found, l.Fits g pool := by
      intro first hfirst hmap
      cases hshapes : g.shapesOf pool rest with
      | inl c => simp [hshapes] at hmap
      | inr others =>
        obtain rfl : first :: others = found := by simpa [hshapes] using hmap
        exact List.forall_mem_cons.2 ⟨hfirst, hrest hshapes⟩
    unfold shapesOf at h
    split at h
    · rename_i first hshape
      exact key (fits_of_recognised hg hhead (recognised_of_shapeOf hshape)) h
    · split at h
      · cases h
      · exact key (fits_of_recognised hg hhead .endless) h

/-- An unstructured loop has no exit and no update. -/
theorem mem_unstructuredLoops {loops : List Loop} {edges : List (BlockId × BlockId)} {l : Loop}
    (h : l ∈ unstructuredLoops loops edges) :
    l ∈ loops ∨ l.kind = .unstructured ∧ l.exit = none ∧ l.update = none := by
  induction edges generalizing loops with
  | nil => exact .inl h
  | cons e edges ih =>
    unfold unstructuredLoops at h
    split at h
    · exact ih h
    · rcases ih h with h | h
      · rcases List.mem_append.1 h with h | h
        · exact .inl h
        · rw [List.mem_singleton.1 h]
          exact .inr ⟨rfl, rfl, rfl⟩
      · exact .inr h

/-- Every loop that is recognised fits into the graph. -/
theorem fits_of_mem_reduceLoops (hg : g.Sealed) (hnone : g.loops = []) :
    ∀ l ∈ (g.reduceLoops pool).loops, l.kind = .unstructured ∨ l.Fits (g.reduceLoops pool) pool := by
  suffices h : ∀ rounds (g : FlowGraph), g.Sealed → g.loops = [] →
      ∀ l ∈ (reduceLoopsWithin pool rounds g).loops,
        l.kind = .unstructured ∨ l.Fits (reduceLoopsWithin pool rounds g) pool from h _ g hg hnone
  intro rounds
  -- on the rounds: a cut leaves no loops recorded, and the last round records those it has recognised
  induction rounds with
  | zero =>
    intro g _ hnone l hl
    simp [reduceLoopsWithin, hnone] at hl
  | succ rounds ih =>
    intro g hg hnone l hl
    unfold reduceLoopsWithin at hl ⊢
    cases hshapes : g.shapesOf pool g.naturalLoops with
    | inl cut =>
      simp only [hshapes] at hl ⊢
      obtain ⟨-, -, id, address, -, hsplit⟩ := exists_split?_of_shapesOf hshapes
      exact ih cut (hg.split? hsplit) (loops_split? hsplit ▸ hnone) l hl
    | inr found =>
      simp only [hshapes] at hl ⊢
      rcases mem_unstructuredLoops hl with hl | hl
      -- what a loop fits to does not depend on the loops that are recorded
      · obtain ⟨h₁, h₂, h₃, h₄, h₅, h₆, h₇, h₈, h₉, h₁₀, h₁₁⟩ :=
          fits_of_mem_shapesOf hg (fun _ => fits_of_mem_naturalLoops) hshapes l hl
        refine .inr ⟨h₁, h₂, fun h => ?_, fun h => ?_, h₅, h₆, h₇, h₈, h₉, h₁₀, h₁₁⟩
        · obtain ⟨hne, b, s, t, ht⟩ := h₃ h
          exact ⟨hne, b, s, t, ⟨ht.block, ht.branch, ht.exit, ht.inside, ht.outside, ht.pure⟩⟩
        · obtain ⟨b, t, ht⟩ := h₄ h
          exact ⟨b, t, ⟨ht.block, ht.branch, ht.outside⟩⟩
      · exact .inl hl.1

end FlowGraph

/-! ## Methods -/

/-- The graph of decoded code with its jumps reduced and its loops recognised. -/
def MethodCode.reduced (code : MethodCode) (pool : ConstantPool) (inlineReturns : Bool) : FlowGraph :=
  ((FlowGraph.ofCode code).reduceJumps inlineReturns).reduceLoops pool

/-- The loops of decoded code fit into its graph. -/
theorem MethodCode.fits_of_mem_loops {pool : ConstantPool} {attr : CodeAttribute} {code : MethodCode}
    (h : MethodCode.decode pool attr = .ok code) (inlineReturns : Bool) :
    ∀ l ∈ (code.reduced pool inlineReturns).loops,
      l.kind = .unstructured ∨ l.Fits (code.reduced pool inlineReturns) pool := by
  have hcode := MethodCode.wellFormed_of_decode h
  have hsealed := FlowGraph.sealed_reduceJumps inlineReturns (FlowGraph.sealed_ofCode hcode)
    (FlowGraph.wellFormed_ofCode hcode) (FlowGraph.returnsEnd_ofCode code)
  exact FlowGraph.fits_of_mem_reduceLoops hsealed
    (FlowGraph.sameFrame_reduceJumps (FlowGraph.ofCode code) inlineReturns).loops

end JvmDecompiler
