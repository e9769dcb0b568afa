import JvmDecompiler.Proofs.LoopParts
import JvmDecompiler.Proofs.LoopRounds

/-!
# Where loops are left

A loop that tests whether it goes on has one block that decides about it, the header or the latch, and one
way out of that block. Structured code goes on behind the loop at the exit that is recorded with it.

The exit is found before the kind of the loop is known: where the header leads out of the loop, and only
if it does not, where the latch does. For a loop that tests in its header this is the way out of the
test. A loop that tests behind its body may have a condition in its header as well that leaves the loop,
for another block; then that block is recorded, and not the one behind the test
(`exit_eq_some_iff`, `exit_ne_testExit`).
-/

namespace JvmDecompiler

/-- The block that decides whether a loop goes on. -/
def Loop.testBlock (l : Loop) : BlockId := if l.kind = .doWhile then l.latch else l.header

namespace FlowGraph

variable {g h : FlowGraph} {pool : ConstantPool}

/-- The blocks outside a loop that control may go to from one of its blocks. -/
def waysOut (g : FlowGraph) (l : Loop) (id : BlockId) : List BlockId :=
  (g.successors id).filter (!l.body.contains ·)

/-- The block outside a loop that a condition at the end of a block leads to, its target before the block
behind it. -/
def branchOut? (g : FlowGraph) (l : Loop) (id : BlockId) : Option BlockId := do
  let (ifTrue, ifFalse) ← g.branches? id
  [ifTrue, ifFalse].find? (!l.body.contains ·)

/-! ## Shapes -/

/-- What is recorded of a natural loop has its blocks and its exit, and the test that its kind promises. -/
structure IsRecordOf (g : FlowGraph) (pool : ConstantPool) (l : NaturalLoop) (found : Loop) : Prop where
  eq : ∃ kind init update, found = { g.endlessLoop l with kind, init, update }
  headerTest : found.kind.testsFirst = true → g.hasHeaderTest pool l = true
  latchTest : found.kind = .doWhile → g.hasLatchTest l = true
  structured : found.kind ≠ .unstructured

theorem Recognised.isRecordOf {l : NaturalLoop} {found : Loop} (h : g.Recognised pool l found) :
    IsRecordOf g pool l found := by
  cases h with
  | iterator _ htest | array _ htest | «for» _ htest | «while» _ htest =>
    exact ⟨⟨_, _, _, rfl⟩, fun _ => htest, nofun, nofun⟩
  | doWhile htest => exact ⟨⟨_, _, _, rfl⟩, nofun, fun _ => htest, nofun⟩
  | endless => exact ⟨⟨_, _, _, rfl⟩, nofun, nofun, nofun⟩

theorem IsShape.recognised {l : NaturalLoop} {found : Loop} (h : IsShape g pool l found) :
    g.Recognised pool l found := by
  rcases h with h | ⟨-, -, -, -, rfl⟩
  · exact recognised_of_shapeOf h
  · exact .endless

theorem IsShape.isRecordOf {l : NaturalLoop} {found : Loop} (h : IsShape g pool l found) :
    IsRecordOf g pool l found := h.recognised.isRecordOf

/-- A loop that is recorded is unstructured, or the record of a natural loop. -/
theorem Settles.exists_recognised {found : List Loop} {result : FlowGraph}
    (hsettles : Settles pool g h found result) {l : Loop} (hl : l ∈ result.loops) :
    l.kind = .unstructured ∨ ∃ natural ∈ h.naturalLoops, h.Recognised pool natural l := by
  rw [hsettles.result] at hl
  rcases mem_unstructuredLoops hl with hl | hl
  · obtain ⟨natural, hnatural, hshape⟩ := exists_isShape_of_mem hsettles.shapes l hl
    exact .inr ⟨natural, hnatural, hshape.recognised⟩
  · exact .inl hl.1

theorem Settles.exists_isRecordOf {found : List Loop} {result : FlowGraph}
    (hsettles : Settles pool g h found result) {l : Loop} (hl : l ∈ result.loops) :
    l.kind = .unstructured ∨ ∃ natural ∈ h.naturalLoops, IsRecordOf h pool natural l :=
  (hsettles.exists_recognised hl).imp_right fun ⟨natural, hnatural, h⟩ =>
    ⟨natural, hnatural, h.isRecordOf⟩

/-! ## Exits -/

/-- The exit of a loop is outside of it. -/
theorem not_mem_body_of_loopExit? {l : NaturalLoop} {t : BlockId} (h : g.loopExit? l = some t) :
    t ∉ l.body := by
  have hconditional : ∀ id, g.conditionalExit? l id = some t → t ∉ l.body := fun id h => by
    obtain ⟨⟨_, _⟩, -, hfind⟩ := Option.bind_eq_some_iff.1 h
    simpa using List.find?_some hfind
  have hexits : t ∈ g.loopExits l → t ∉ l.body := fun h => by
    simpa using (List.mem_filter.1 (mem_sortedSet.1 h)).2
  simp only [loopExit?, Option.orElse_eq_orElse, Option.orElse_eq_or, Option.or_eq_some_iff] at h
  rcases h with h | ⟨-, h | ⟨-, h | ⟨-, h⟩⟩⟩
  · exact hconditional _ h
  · exact hconditional _ h
  · exact hexits (List.mem_of_find?_eq_some h)
  · exact hexits (List.mem_of_head? h)

/-- A condition between a block of the loop and one outside has one way out. -/
theorem out_of_branch {l : Loop} {id s t : BlockId} {b : Block} {c : BranchCondition}
    (hb : g.block? id = some b) (hterm : b.terminator = .branch c s t ∨ b.terminator = .branch c t s)
    (hs : s ∈ l.body) (ht : t ∉ l.body) : g.waysOut l id = [t] ∧ g.branchOut? l id = some t := by
  have hne : s ≠ t := fun he => ht (he ▸ hs)
  rcases hterm with hterm | hterm <;>
    simp [waysOut, branchOut?, branches?, successors, hb, hterm, Terminator.successors, hs, ht, hne,
      hne.symm, List.eraseDups_cons]

/-- A loop that decides in one block whether it goes on has one way out of that block. Its exit is that
way out, except where it tests behind its body and a condition in its header leaves it for another
block. -/
theorem exit_eq_some_iff (hs : g.ids.Pairwise (· < ·)) {l : Loop} (hl : l ∈ (g.reduceLoops pool).loops)
    (hendless : l.kind ≠ .endless) (hstructured : l.kind ≠ .unstructured) :
    ∃ e, (g.reduceLoops pool).waysOut l l.testBlock = [e] ∧
      (l.exit = some e ↔
        (l.kind = .doWhile → ∀ t, (g.reduceLoops pool).branchOut? l l.header = some t → t = e)) := by
  obtain ⟨h, found, hsettles⟩ := exists_settles pool hs
  obtain ⟨natural, hnatural, hrecord⟩ := (hsettles.exists_isRecordOf hl).resolve_left hstructured
  -- what is recorded has no influence on the ways out of blocks
  rw [hsettles.result]
  show ∃ e, h.waysOut l l.testBlock = [e] ∧
    (l.exit = some e ↔ (l.kind = .doWhile → ∀ t, h.branchOut? l l.header = some t → t = e))
  obtain ⟨kind, init, update, heq⟩ := hrecord.eq
  have hexit : l.exit = h.loopExit? natural := heq ▸ rfl
  have hheader : l.header = natural.header := heq ▸ rfl
  have hlatch : l.latch = natural.latch := heq ▸ rfl
  have hbody : l.body = natural.body := heq ▸ rfl
  by_cases hkind : l.kind = .doWhile
  · obtain ⟨b, t, htest⟩ := latchTest_of_hasLatchTest (hrecord.latchTest hkind) hheader hbody hlatch
    obtain ⟨c, hterm⟩ := htest.branch
    have hin : l.header ∈ l.body := by
      rw [hheader, hbody]
      exact (fits_of_mem_naturalLoops hnatural).header
    obtain ⟨hways, hbranch⟩ := out_of_branch htest.block hterm hin htest.outside
    have hout : ∀ id, h.conditionalExit? natural id = h.branchOut? l id := fun id => by
      rw [conditionalExit?, branchOut?, hbody]
    have hor : l.exit = (h.branchOut? l l.header).or (some t) := by
      rw [hexit, loopExit?, ← hheader, ← hlatch, hout, hout, hbranch]
      cases h.branchOut? l l.header <;> rfl
    refine ⟨t, by rw [Loop.testBlock, if_pos hkind, hways], ?_⟩
    rw [hor]
    cases h.branchOut? l l.header <;> simp [hkind]
  · have hfirst : l.kind.testsFirst = true := by
      cases hk : l.kind <;> simp_all [LoopKind.testsFirst]
    obtain ⟨b, s, t, htest⟩ :=
      headerTest_of_hasHeaderTest (hrecord.headerTest hfirst) hheader hbody hexit
    obtain ⟨c, hterm⟩ := htest.branch
    obtain ⟨hways, -⟩ := out_of_branch htest.block hterm htest.inside htest.outside
    exact ⟨t, by rw [Loop.testBlock, if_neg hkind, hways],
      fun _ hk => absurd hk hkind, fun _ => htest.exit⟩

/-- The code of `do { i++; if (a) return; } while (i != 0); j++; return;`. -/
def loopWithReturnInside : CodeAttribute :=
  ⟨1, 3, [0x84, 0x01, 0x01, 0x1a, 0x9a, 0x00, 0x0b, 0x1b, 0x9a, 0xff, 0xf8, 0x84, 0x02, 0x01, 0xb1, 0xb1],
    [], []⟩

/-- The loop of this code as it is recorded: the header is left for the return at 15. -/
def recordedReturnInside : Loop :=
  { header := 0, kind := .doWhile, body := [0, 7], exit := some 15, latch := 7, init := none,
    update := none }

theorem exit_eq_some_iff_returnInside :
    ∃ code, MethodCode.decode .empty loopWithReturnInside = .ok code ∧
      ∃ e, (code.reduced .empty true).waysOut recordedReturnInside 7 = [e] ∧
        (recordedReturnInside.exit = some e ↔ (recordedReturnInside.kind = .doWhile →
          ∀ t, (code.reduced .empty true).branchOut? recordedReturnInside 0 = some t → t = e)) := by
  have hdecode : ∃ code, MethodCode.decode .empty loopWithReturnInside = .ok code ∧
      ((ofCode code).reduceJumps true).ids = [0, 7, 11, 15] ∧
      (code.reduced .empty true).loops = [recordedReturnInside] := ⟨_, rfl, by cbv, by cbv⟩
  obtain ⟨code, hcode, hids, hloops⟩ := hdecode
  have hsorted : ((ofCode code).reduceJumps true).ids.Pairwise (· < ·) := by
    rw [hids]
    decide
  exact ⟨code, hcode, exit_eq_some_iff hsorted (hloops ▸ List.mem_singleton_self _) (by decide) (by decide)⟩

/-- The loop goes on with the block at 11 when its test fails, and records the block at 15. -/
theorem exit_ne_testExit :
    ∃ code, MethodCode.decode .empty loopWithReturnInside = .ok code ∧
      ∃ l ∈ (code.reduced .empty true).loops, l.kind = .doWhile ∧
        (code.reduced .empty true).waysOut l l.latch = [11] ∧ l.exit ≠ some 11 := by
  have hdecode : ∃ code, MethodCode.decode .empty loopWithReturnInside = .ok code ∧
      (code.reduced .empty true).loops = [recordedReturnInside] ∧
      (code.reduced .empty true).waysOut recordedReturnInside 7 = [11] := ⟨_, rfl, by cbv, by cbv⟩
  obtain ⟨code, hcode, hloops, hways⟩ := hdecode
  exact ⟨code, hcode, recordedReturnInside, hloops ▸ List.mem_singleton_self _, rfl, hways, by decide⟩

end FlowGraph

end JvmDecompiler
