import JvmDecompiler.FlowGraph.LoopShapes

/-!
# What the patterns of loops ask for

A loop with an initialisation is recognised by a pattern over several blocks: the header, the last latch, the
block where the body starts and the only block in front of the loop. `FlowGraph.IteratorPattern`,
`FlowGraph.ArrayPattern` and `FlowGraph.ForPattern` say which blocks these are and what each pattern asks of
them. A pattern that is found still asks for cuts until the initialisation and the update are blocks of their
own (`FlowGraph.settleInit_eq_known_iff`).

`FlowGraph.Recognised` puts this together: how the record of a natural loop came about, one case for each
shape (`FlowGraph.recognised_of_shapeOf`).
-/

namespace JvmDecompiler

namespace FlowGraph

variable {g : FlowGraph} {pool : ConstantPool} {l : NaturalLoop}

/-! ## Patterns -/

/-- An iterator is made in front of the loop and stored in `slot`, the header asks it for more, and the body
starts with taking an element from it. -/
structure IteratorPattern (g : FlowGraph) (pool : ConstantPool) (l : NaturalLoop) (slot : UInt16)
    (pre : BlockId) (initAt : Address) : Prop where
  header : ∃ b, g.block? l.header = some b ∧ iteratorSlot? pool b = some slot
  element : ∃ id b, g.bodyEntry? l = some id ∧ g.block? id = some b ∧ takesElement pool slot b = true
  preheader : g.preheader? l = some pre
  made : ∃ b, g.block? pre = some b ∧ makesIterator pool slot b = true
  init : g.initStart? pool pre slot = some initAt

/-- An array, its length and the index zero are stored in front of the loop, the header compares the last
two, the body starts with loading an element, and the latch ends with counting. -/
structure ArrayPattern (g : FlowGraph) (pool : ConstantPool) (l : NaturalLoop) (array length index : UInt16)
    (pre : BlockId) (initAt updateAt : Address) : Prop where
  header : ∃ b, g.block? l.header = some b ∧ indexSlots? b = some (index, length)
  element : ∃ id b, g.bodyEntry? l = some id ∧ g.block? id = some b ∧ arraySlot? index b = some array
  latch : ∃ b, g.block? l.latch = some b ∧ trailingCount? index b = some updateAt
  preheader : g.preheader? l = some pre
  setUp : ∃ b, g.block? pre = some b ∧ setsUpArray array length index b.body = true ∧
    ∃ start first, PlacedInstruction.expressionStart? pool b.body (b.body.length - 6) = some start ∧
      b.body[start]? = some first ∧ first.address = initAt

/-- The latch goes on to the header whatever happens and ends with changing a slot, which the header loads
and which the block in front of the loop stores. -/
structure ForPattern (g : FlowGraph) (pool : ConstantPool) (l : NaturalLoop) (slot : UInt16) (pre : BlockId)
    (initAt updateAt : Address) : Prop where
  header : ∃ b, g.block? l.header = some b ∧ slot ∈ loadedSlots b
  latch : ∃ b, g.block? l.latch = some b ∧ trailingUpdate? b.body = some (slot, updateAt) ∧
    ∃ t, b.terminator = .goto t ∨ b.terminator = .fallThrough t
  preheader : g.preheader? l = some pre
  init : g.initStart? pool pre slot = some initAt

theorem exists_pattern_of_matchIterator? {shape : LoopShape} (h : g.matchIterator? pool l = some shape) :
    ∃ slot pre initAt, g.IteratorPattern pool l slot pre initAt ∧
      g.settleInit l .forEachIterator pre initAt none = some shape := by
  simp only [matchIterator?, Option.bind_eq_bind, Option.bind_none, Option.bind_eq_some_iff,
    Option.ite_none_left_eq_some, Bool.not_eq_true', Bool.not_eq_false] at h
  obtain ⟨header, hheader, slot, hslot, entry, hentry, first, hfirst, htakes, pre, hpre, before, hbefore,
    hmakes, initAt, hinit, hsettle⟩ := h
  exact ⟨slot, pre, initAt, ⟨⟨header, hheader, hslot⟩, ⟨entry, first, hentry, hfirst, htakes⟩, hpre,
    ⟨before, hbefore, hmakes⟩, hinit⟩, hsettle⟩

theorem exists_pattern_of_matchArray? {shape : LoopShape} (h : g.matchArray? pool l = some shape) :
    ∃ array length index pre initAt updateAt, g.ArrayPattern pool l array length index pre initAt updateAt ∧
      g.settleInit l .forEachArray pre initAt (some (l.latch, updateAt)) = some shape := by
  simp only [matchArray?, Option.bind_eq_bind, Option.bind_none, Option.bind_eq_some_iff,
    Option.ite_none_left_eq_some, Bool.or_eq_true, not_or, Bool.not_eq_true', Bool.not_eq_false] at h
  obtain ⟨header, hheader, ⟨index, length⟩, hslots, entry, hentry, first, hfirst, array, harray, latch,
    hlatch, updateAt, hcount, pre, hpre, before, hbefore, ⟨-, hsets⟩, start, hstart, initial, hinitial,
    hsettle⟩ := h
  exact ⟨array, length, index, pre, initial.address, updateAt, ⟨⟨header, hheader, hslots⟩,
    ⟨entry, first, hentry, hfirst, harray⟩, ⟨latch, hlatch, hcount⟩, hpre,
    ⟨before, hbefore, hsets, start, initial, hstart, hinitial, rfl⟩⟩, hsettle⟩

theorem exists_pattern_of_matchFor? {shape : LoopShape} (h : g.matchFor? pool l = some shape) :
    ∃ slot pre initAt updateAt, g.ForPattern pool l slot pre initAt updateAt ∧
      g.settleInit l .for pre initAt (some (l.latch, updateAt)) = some shape := by
  simp only [matchFor?, Option.bind_eq_bind, Option.bind_eq_some_iff] at h
  obtain ⟨header, hheader, latch, hlatch, h⟩ := h
  have hgoto : ∃ t, latch.terminator = .goto t ∨ latch.terminator = .fallThrough t := by
    split at h
    · exact ⟨_, .inl (by assumption)⟩
    · exact ⟨_, .inr (by assumption)⟩
    · cases h
  obtain ⟨slot, updateAt, hupdate, hloads, pre, hpre, initAt, hinit, hsettle⟩ : ∃ slot updateAt,
      trailingUpdate? latch.body = some (slot, updateAt) ∧ (loadedSlots header).contains slot = true ∧
      ∃ pre, g.preheader? l = some pre ∧ ∃ initAt, g.initStart? pool pre slot = some initAt ∧
        g.settleInit l .for pre initAt (some (l.latch, updateAt)) = some shape := by
    obtain ⟨t, hgoto | hgoto⟩ := hgoto <;>
      simp only [hgoto, Option.bind_none, Option.bind_eq_some_iff, Option.ite_none_left_eq_some,
        Bool.not_eq_true', Bool.not_eq_false] at h <;>
      obtain ⟨⟨slot, updateAt⟩, hupdate, hloads, hrest⟩ := h <;>
      exact ⟨slot, updateAt, hupdate, hloads, hrest⟩
  exact ⟨slot, pre, initAt, updateAt, ⟨⟨header, hheader, List.contains_iff_mem.1 hloads⟩,
    ⟨latch, hlatch, hupdate, hgoto⟩, hpre, hinit⟩, hsettle⟩

/-- The initialisation and the update are blocks of their own, and the initialisation goes straight to the
header. -/
theorem settleInit_eq_known_iff {kind : LoopKind} {pre : BlockId} {initAt : Address}
    {update : Option (BlockId × Address)} {found : Loop} :
    g.settleInit l kind pre initAt update = some (.known found) ↔
      initAt = pre ∧ (∀ block updateAt, update = some (block, updateAt) → updateAt = block) ∧
        g.successors pre = [l.header] ∧
        found = { g.endlessLoop l with kind, init := some pre, update := update.map (·.1) } := by
  unfold settleInit
  by_cases hinit : initAt = pre
  · rcases update with _ | ⟨block, updateAt⟩
    · by_cases hsucc : g.successors pre = [l.header] <;> simp [hinit, hsucc, eq_comm]
    · by_cases hupdate : updateAt = block <;> by_cases hsucc : g.successors pre = [l.header] <;>
        simp [hinit, hupdate, hsucc, Option.filter, eq_comm]
  · simp [hinit]

/-! ## Records -/

/-- How the record of a natural loop came about. -/
inductive Recognised (g : FlowGraph) (pool : ConstantPool) (l : NaturalLoop) : Loop → Prop
  | iterator {slot : UInt16} {pre : BlockId} (hne : l.latch ≠ l.header)
    (htest : g.hasHeaderTest pool l = true) (hpattern : g.IteratorPattern pool l slot pre pre)
    (hpre : g.successors pre = [l.header]) :
    Recognised g pool l { g.endlessLoop l with kind := .forEachIterator, init := some pre }
  | array {array length index : UInt16} {pre : BlockId} (hne : l.latch ≠ l.header)
    (htest : g.hasHeaderTest pool l = true)
    (hpattern : g.ArrayPattern pool l array length index pre pre l.latch)
    (hpre : g.successors pre = [l.header]) :
    Recognised g pool l
      { g.endlessLoop l with kind := .forEachArray, init := some pre, update := some l.latch }
  | for {slot : UInt16} {pre : BlockId} (hne : l.latch ≠ l.header)
    (htest : g.hasHeaderTest pool l = true) (hpattern : g.ForPattern pool l slot pre pre l.latch)
    (hpre : g.successors pre = [l.header]) :
    Recognised g pool l { g.endlessLoop l with kind := .for, init := some pre, update := some l.latch }
  | while (hne : l.latch ≠ l.header) (htest : g.hasHeaderTest pool l = true) :
    Recognised g pool l { g.endlessLoop l with kind := .while }
  | doWhile (htest : g.hasLatchTest l = true) :
    Recognised g pool l { g.endlessLoop l with kind := .doWhile }
  | endless : Recognised g pool l (g.endlessLoop l)

/-- A shape comes from one of the patterns, or says which test there is. -/
theorem shapeOf_cases (g : FlowGraph) (pool : ConstantPool) (l : NaturalLoop) :
    ((l.latch ≠ l.header ∧ g.hasHeaderTest pool l = true) ∧
      (g.matchIterator? pool l = some (g.shapeOf pool l) ∨ g.matchArray? pool l = some (g.shapeOf pool l) ∨
        g.matchFor? pool l = some (g.shapeOf pool l) ∨
        g.shapeOf pool l = .known { g.endlessLoop l with kind := .while })) ∨
    (g.hasLatchTest l = true ∧ g.shapeOf pool l = .known { g.endlessLoop l with kind := .doWhile }) ∨
    g.shapeOf pool l = .known (g.endlessLoop l) := by
  unfold shapeOf
  split
  · rename_i hfirst
    rw [Bool.and_eq_true, decide_eq_true_eq] at hfirst
    refine .inl ⟨hfirst, ?_⟩
    cases g.matchIterator? pool l <;> cases g.matchArray? pool l <;> cases g.matchFor? pool l <;> simp
  · split
    · rename_i htest
      exact .inr (.inl ⟨htest, rfl⟩)
    · exact .inr (.inr rfl)

theorem recognised_of_shapeOf {found : Loop} (h : g.shapeOf pool l = .known found) :
    g.Recognised pool l found := by
  have hcases := g.shapeOf_cases pool l
  rw [h] at hcases
  rcases hcases with ⟨⟨hne, htest⟩, hmatch | hmatch | hmatch | hshape⟩ | ⟨htest, hshape⟩ | hshape
  · obtain ⟨slot, pre, initAt, hpattern, hsettle⟩ := exists_pattern_of_matchIterator? hmatch
    obtain ⟨rfl, -, hpre, rfl⟩ := settleInit_eq_known_iff.1 hsettle
    exact .iterator hne htest hpattern hpre
  · obtain ⟨array, length, index, pre, initAt, updateAt, hpattern, hsettle⟩ :=
      exists_pattern_of_matchArray? hmatch
    obtain ⟨rfl, hupdate, hpre, rfl⟩ := settleInit_eq_known_iff.1 hsettle
    obtain rfl := hupdate _ _ rfl
    exact .array hne htest hpattern hpre
  · obtain ⟨slot, pre, initAt, updateAt, hpattern, hsettle⟩ := exists_pattern_of_matchFor? hmatch
    obtain ⟨rfl, hupdate, hpre, rfl⟩ := settleInit_eq_known_iff.1 hsettle
    obtain rfl := hupdate _ _ rfl
    exact .for hne htest hpattern hpre
  · exact LoopShape.known.inj hshape ▸ .while hne htest
  · exact LoopShape.known.inj hshape ▸ .doWhile htest
  · exact LoopShape.known.inj hshape ▸ .endless

end FlowGraph

end JvmDecompiler
