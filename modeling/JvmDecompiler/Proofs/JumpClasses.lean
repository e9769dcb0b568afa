import JvmDecompiler.Proofs.CutPlaces

/-!
# What the classes of jumps mean

The class of a jump speaks of natural loops: the jump leads back to the header, starts the loop over or leaves
it, or no loop explains it (`FlowGraph.Means`). Classes are given before loops are recognised
(`FlowGraph.means_classifyJump`), and the rounds that follow cut blocks: a cut leaves what the classes of
other jumps say as it is (`FlowGraph.IsRoundCut.means_iff_of_ne`) and moves the jump of the block that is cut to
its second half.

There, a jump that closes a loop or starts it over still does, and one that leads up or down as well
(`FlowGraph.IsRoundCut.means_second`). But a part that is cut off in front of a jump out of a loop is no block of
the loop, as nothing in it leads back (`FlowGraph.not_means_break`), and it keeps the class. So classes say what
they mean except for these jumps (`MethodCode.jumpClasses_mean_iff`, `MethodCode.break_without_meaning`). The
block in front of such a jump is the header of the loop, which then only an exception handler closes.
-/

namespace JvmDecompiler

namespace FlowGraph

variable {g cut : FlowGraph} {pool : ConstantPool} {l m : NaturalLoop} {source target header x : BlockId}
  {c : JumpClass} {stop : Address}

/-! ## Meaning -/

/-- A jump at the end of the block is one of the loop: the block is in the loop, or it only hands control on
from there. -/
def BelongsTo (g : FlowGraph) (l : NaturalLoop) (id : BlockId) : Prop :=
  id ∈ l.body ∨ (g.block? id).any Block.isGotoOnly = true ∧ ∀ p ∈ g.predecessors id, p ∈ l.body

/-- What the class of the jump from `source` to `target` says. -/
def Means (g : FlowGraph) (source target : BlockId) : JumpClass → Prop
  | .backEdge header => ∃ l ∈ g.naturalLoops, l.header = header ∧ target = header ∧ source ∈ l.body
  | .continue header _ => ∃ l ∈ g.naturalLoops, l.header = header ∧ g.BelongsTo l source ∧
      (target = header ∨ ∃ r ∈ g.loops, r.header = header ∧ r.update = some target)
  | .break header _ => ∃ l ∈ g.naturalLoops, l.header = header ∧ g.BelongsTo l source ∧ target ∉ l.body
  | .forward => source < target
  | .residual => ¬source < target

/-- The block ends in a jump to the target. -/
def JumpsTo (g : FlowGraph) (source target : BlockId) : Prop :=
  (g.block? source).map Block.terminator = some (.goto target)

/-- There is a row for each block that ends in a jump, in the order of blocks. -/
def JumpsListed (g : FlowGraph) : Prop := g.jumps.map Prod.fst = (g.blocks.filter isJump).map (·.id)

/-- A block that ends in a jump has one way out. -/
theorem JumpsTo.successors_eq (h : g.JumpsTo source target) : g.successors source = [target] := by
  obtain ⟨b, hb, hterm⟩ := Option.map_eq_some_iff.1 h
  simp only [successors, hb, hterm, Terminator.successors]

/-- Whether a block ends in a jump is read off its terminator. -/
theorem jumpsTo_iff_of_block? {b : Block} (hb : g.block? source = some b) :
    g.JumpsTo source target ↔ b.terminator = .goto target := by
  simp [JumpsTo, hb]

/-- The predecessors of a block are those that lead to it. -/
theorem mem_predecessors_iff {p : BlockId} : p ∈ g.predecessors x ↔ x ∈ g.successors p := by
  simp only [predecessors, List.mem_filter, List.contains_iff_mem]
  exact and_iff_right_of_imp source_mem_ids

/-- Every row of the table is for a jump. -/
theorem JumpsListed.exists_jumpsTo (hlisted : g.JumpsListed) (hs : g.ids.Pairwise (· < ·))
    (hrow : (source, c) ∈ g.jumps) : ∃ target, g.JumpsTo source target := by
  have hkey : source ∈ g.jumps.map Prod.fst := List.mem_map_of_mem hrow
  rw [hlisted] at hkey
  obtain ⟨b, hb, rfl⟩ := List.mem_map.1 hkey
  obtain ⟨hmem, hjump⟩ := List.mem_filter.1 hb
  unfold isJump at hjump
  split at hjump
  · rename_i target hterm
    exact ⟨target, (jumpsTo_iff_of_block? (block?_eq_some hs hmem)).2 hterm⟩
  · cases hjump

/-! ## Classification -/

/-- A jump that is not sorted further is forward or stays as a jump, and says so. -/
theorem means_plainJump : g.Means source target (plainJump source target) := by
  unfold plainJump
  split
  · rename_i hlt
    exact hlt
  · rename_i hlt
    exact hlt

/-- A block that only hands control on from a loop belongs to it. -/
theorem belongsTo_of_isExitStub (h : g.isExitStub l source = true) : g.BelongsTo l source := by
  simp only [isExitStub, Bool.and_eq_true, List.all_eq_true, List.contains_iff_mem] at h
  exact .inr ⟨h.1.1.2, h.2⟩

/-- The induction is on the loops around the source that have not been left. -/
theorem means_classifyWithin {loops : List NaturalLoop}
    (hloops : ∀ l ∈ loops, l ∈ g.naturalLoops ∧ g.BelongsTo l source) (depth : Nat) :
    g.Means source target (classifyWithin source target depth loops) := by
  -- along the loops around the source, from the innermost
  induction loops generalizing depth with
  | nil => exact means_plainJump
  | cons l outer ih =>
    -- a jump to a header of one of them starts its next round
    obtain ⟨⟨hl, hbelongs⟩, houter⟩ := List.forall_mem_cons.1 hloops
    unfold classifyWithin
    split
    · rename_i hheader
      split
      · rename_i hlatch
        simp only [Bool.and_eq_true, decide_eq_true_eq] at hlatch
        exact ⟨l, hl, rfl, hheader, mem_body_of_mem_latches hl (List.mem_of_getLast? hlatch.2)⟩
      · exact ⟨l, hl, rfl, hbelongs, .inl hheader⟩
    -- a jump inside is plain, one out of it leaves the loop, by its exit or otherwise
    · split
      · exact means_plainJump
      · rename_i hout
        have hout : target ∉ l.body := by simpa using hout
        split
        · exact ⟨l, hl, rfl, hbelongs, hout⟩
        · split
          · exact ih houter (depth + 1)
          · exact ⟨l, hl, rfl, hbelongs, hout⟩

/-- The class that a jump gets says what it means. -/
theorem means_classifyJump : g.Means source target (g.classifyJump g.naturalLoops source target) := by
  refine means_classifyWithin (fun l hl => ?_) 0
  obtain ⟨hl, hin⟩ := List.mem_filter.1 hl
  rcases Bool.or_eq_true_iff.1 hin with hin | hstub
  · exact ⟨hl, .inl (List.contains_iff_mem.1 hin)⟩
  · exact ⟨hl, belongsTo_of_isExitStub hstub⟩

/-- Sorting the jumps lists each of them. -/
theorem jumpsListed_classifyJumps (g : FlowGraph) : g.classifyJumps.JumpsListed := by
  show (g.blocks.filterMap _).map Prod.fst = (g.blocks.filter isJump).map (·.id)
  rw [List.map_filterMap, ← List.filterMap_eq_map, ← List.filterMap_eq_filter, List.filterMap_filterMap]
  refine List.filterMap_congr fun b _ => ?_
  cases hterm : b.terminator <;> simp [isJump, hterm, Option.guard]

/-- What the list says of a jump is what the jump means. -/
theorem means_of_mem_classifyJumps (hs : g.ids.Pairwise (· < ·)) (hrow : (source, c) ∈ g.classifyJumps.jumps)
    (hjump : g.JumpsTo source target) : g.Means source target c := by
  obtain ⟨b, hb, hclass⟩ := List.mem_filterMap.1 hrow
  split at hclass
  · rename_i t hterm
    obtain ⟨rfl, rfl⟩ := Prod.mk.inj (Option.some.inj hclass)
    rw [jumpsTo_iff_of_block? (block?_eq_some hs hb), hterm] at hjump
    obtain rfl := Terminator.goto.inj hjump
    exact means_classifyJump
  · cases hclass

/-! ## Blocks that leave a loop -/

/-- A block of a loop that is not its header and goes on to one block goes on to one of the loop. -/
theorem target_mem_body (hl : l ∈ g.naturalLoops) (hin : source ∈ l.body) (hheader : l.header ≠ source)
    (hsucc : g.successors source = [target]) : target ∈ l.body := by
  rcases (mem_body_iff hl).1 hin with heq | ⟨latch, hlatch, path, hpath, hd⟩
  · exact absurd heq.symm hheader
  cases hpath with
  | single =>
    have hedge := ((mem_latches_iff hl).1 hlatch).2.1
    rw [hsucc, List.mem_singleton] at hedge
    exact (mem_body_iff hl).2 (.inl hedge.symm)
  | @cons _ y _ rest _ hy hrest =>
    have hy : y ∈ g.successors source := hy
    obtain rfl := List.mem_singleton.1 (hsucc ▸ hy)
    exact (mem_body_iff hl).2 (.inr ⟨latch, hlatch, rest, hrest, fun hmem => hd (List.mem_cons_of_mem _ hmem)⟩)

/-- A block that is no header does not leave a loop by a jump. -/
theorem not_means_break {labeled : Bool} (hjump : g.JumpsTo source target)
    (hheader : ∀ l ∈ g.naturalLoops, l.header ≠ source)
    (hgoto : (g.block? source).any Block.isGotoOnly = false) :
    ¬g.Means source target (.break header labeled) := by
  rintro ⟨l, hl, -, hin | ⟨honly, -⟩, hout⟩
  · exact hout (target_mem_body hl hin (hheader l hl) hjump.successors_eq)
  · rw [hgoto] at honly
    cases honly

/-! ## One cut -/

namespace IsRoundCut

variable {b : Block} {before after : List PlacedInstruction} {i : PlacedInstruction}
  (h : IsRoundCut g cut b before i after header) (hg : g.Arranged stop)

include h hg

/-- A block that hands control on is not behind the block that is cut, so it is behind the same blocks. -/
theorem belongsTo_iff (hlm : l.CutInto m b.id i.address) (hsource : source ∈ g.ids) (hne : source ≠ b.id) :
    cut.BelongsTo m source ↔ g.BelongsTo l source := by
  have hcut := h.isCut
  have hi := hcut.ne_address hg hsource
  unfold BelongsTo
  rw [hlm.mem_body source hi, hcut.block?_of_ne hg hne hi]
  -- the target of a cut block is the rest of it, which has the predecessors the block had
  refine or_congr Iff.rfl (and_congr_right fun hgoto => forall_congr' fun p => ?_)
  have hnot : source ∉ g.successors b.id := by
    rw [h.successors_eq, List.mem_singleton]
    rintro rfl
    rw [h.test] at hgoto
    cases hgoto
  rw [mem_predecessors_iff, mem_predecessors_iff]
  by_cases hpi : p = i.address
  · have hno : source ∉ g.successors p := fun hmem =>
      hcut.address_not_mem_ids hg (hpi ▸ source_mem_ids hmem)
    rw [hpi] at hno ⊢
    simp [hcut.successors_second hg, hnot, hno]
  by_cases hpb : p = b.id
  · simp [hpb, hcut.successors_first hg, hi, hnot]
  · rw [hcut.successors_of_ne hg hpb hpi, hlm.mem_body p hpi]

/-- What the classes of other jumps say is left as it is. -/
theorem means_iff_of_ne (hr : g.AllReachable) (hnone : g.loops = []) (hsource : source ∈ g.ids)
    (hne : source ≠ b.id) (htarget : target ≠ i.address) :
    cut.Means source target c ↔ g.Means source target c := by
  have hcut := h.isCut
  have hcutNone : cut.loops = [] := (loops_split? h.split).trans hnone
  cases c with
  | backEdge header =>
    refine hcut.exists_naturalLoop_iff hg hr fun l m hlm => ?_
    rw [hlm.header, hlm.mem_body source (hcut.ne_address hg hsource)]
  | «continue» header labeled =>
    refine hcut.exists_naturalLoop_iff hg hr fun l m hlm => ?_
    rw [hlm.header, h.belongsTo_iff hg hlm hsource hne, hnone, hcutNone]
  | «break» header labeled =>
    refine hcut.exists_naturalLoop_iff hg hr fun l m hlm => ?_
    rw [hlm.header, h.belongsTo_iff hg hlm hsource hne, hlm.mem_body target htarget]
  | forward | residual => exact Iff.rfl

/-- At the second half, a class that is not one of leaving a loop says what it said of the block. -/
theorem means_second (hr : g.AllReachable) (hnone : g.loops = []) (hterm : b.terminator = .goto target)
    (hbreak : ∀ header labeled, c ≠ .break header labeled) (hmeans : g.Means b.id target c) :
    cut.Means i.address target c := by
  have hcut := h.isCut
  have hmem := mem_of_block? hcut.block
  obtain ⟨-, -, -, -, hlt⟩ := hcut.exists_before hg
  have hedge : target ∈ g.successors b.id := by
    rw [((jumpsTo_iff_of_block? hcut.block).2 hterm).successors_eq]
    exact List.mem_singleton_self _
  -- the block is a latch of the loop, and so is the second half
  have hlatch : ∀ l ∈ g.naturalLoops, target = l.header → b.id ∈ l.body →
      ∃ m ∈ cut.naturalLoops, m.header = l.header ∧ i.address ∈ m.body := fun l hl heq hin => by
    obtain ⟨m, hm, hlm⟩ := hcut.exists_mem_naturalLoops hg hr hl
    refine ⟨m, hm, hlm.header, hlm.second_mem ((mem_latches_of_mem_body hl hin (heq ▸ hedge)).2 ?_)⟩
    exact Digraph.mem_reversePostorder_iff.1 (hr b.id hcut.mem_ids_block)
  cases c with
  | backEdge header =>
    obtain ⟨l, hl, rfl, heq, hin⟩ := hmeans
    obtain ⟨m, hm, hheader, hin⟩ := hlatch l hl heq hin
    exact ⟨m, hm, hheader, heq, hin⟩
  | «continue» header labeled =>
    obtain ⟨l, hl, rfl, hbelongs, heq⟩ := hmeans
    have heq : target = l.header := by simpa [hnone] using heq
    have hin : b.id ∈ l.body := by
      rcases hbelongs with hin | ⟨hgoto, -⟩
      · exact hin
      · rw [h.not_isGotoOnly] at hgoto
        cases hgoto
    obtain ⟨m, hm, hheader, hin⟩ := hlatch l hl heq hin
    exact ⟨m, hm, hheader, .inl hin, .inl heq⟩
  | «break» header labeled => exact absurd rfl (hbreak header labeled)
  | forward =>
    have htarget := (hg.wf.blocks b hmem).targets target (by rw [hterm]; exact List.mem_singleton_self _)
    exact hg.address_lt hmem htarget hmeans i.address (by simp [Block.addresses, hcut.instructions])
  | residual => exact fun hbehind => hmeans (Nat.lt_trans hlt hbehind)

/-- All other blocks jump where they did. -/
theorem jumpsTo_iff_of_ne (hsource : source ∈ g.ids) (hne : source ≠ b.id) :
    cut.JumpsTo source target ↔ g.JumpsTo source target := by
  rw [JumpsTo, h.isCut.block?_of_ne hg hne (h.isCut.ne_address hg hsource), JumpsTo]

/-- The second half jumps where the block did. -/
theorem jumpsTo_second_iff : cut.JumpsTo i.address target ↔ b.terminator = .goto target := by
  rw [jumpsTo_iff_of_block? (h.isCut.block?_second hg)]

end IsRoundCut

/-! ## All rounds -/

variable {h last result : FlowGraph} {found : List Loop}

/-- What the rounds that start with the graph `g` keep of the classes of jumps: they say what they mean, except
for jumps out of a loop at blocks that were not there in the beginning. -/
structure Classified (g h : FlowGraph) (stop : Address) : Prop where
  arranged : h.Arranged stop
  blocks : h.Sealed
  reachable : h.AllReachable
  unrecorded : h.loops = []
  ids : g.ids ⊆ h.ids
  headers : ∀ l ∈ h.naturalLoops, l.header ∈ g.ids
  listed : h.JumpsListed
  means : ∀ source c target, (source, c) ∈ h.jumps → h.JumpsTo source target →
    (h.Means source target c ↔ ∀ header labeled, c = .break header labeled → source ∈ g.ids)

/-- Before the first round all classes say what they mean. -/
theorem Classified.refl (hg : g.Arranged stop) (hs : g.Sealed) (hr : g.AllReachable) (hnone : g.loops = [])
    (hclassified : g.classifyJumps = g) : Classified g g stop where
  arranged := hg
  blocks := hs
  reachable := hr
  unrecorded := hnone
  ids := List.Subset.refl _
  headers _ hl := mem_ids_of_mem_body hl ((mem_body_iff hl).2 (.inl rfl))
  listed := hclassified ▸ jumpsListed_classifyJumps g
  means _ _ target hrow hjump :=
    iff_of_true (means_of_mem_classifyJumps hg.wf.sorted (hclassified.symm ▸ hrow) hjump) fun _ _ _ =>
      source_mem_ids (hjump.successors_eq ▸ List.mem_singleton_self target)

/-- One round. -/
theorem Classified.recuts (hh : Classified g h stop) (hcut : Recuts pool h cut) : Classified g cut stop := by
  obtain ⟨b, before, i, after, header, hround⟩ := hcut.exists_isRoundCut hh.blocks
  have hiscut := hround.isCut
  have hnew : i.address ∉ g.ids := fun hmem => hiscut.address_not_mem_ids hh.arranged (hh.ids hmem)
  have hheaders : ∀ m ∈ cut.naturalLoops, m.header ∈ g.ids := fun m hm => by
    obtain ⟨l, hl, hlm⟩ := hiscut.exists_uncut hh.arranged hh.reachable hm
    exact hlm.header ▸ hh.headers l hl
  refine ⟨hiscut.arranged hh.arranged, hh.blocks.split? hround.split,
    hiscut.allReachable hh.arranged hh.reachable, (loops_split? hround.split).trans hh.unrecorded,
    fun id hid => (hiscut.mem_ids hh.arranged).2 (.inl (hh.ids hid)), hheaders,
    hround.keys_jumps hh.arranged hh.listed, fun source c target hrow hjump => ?_⟩
  have hrows : (h.jumps.map Prod.fst).Sublist h.ids := hh.listed ▸ List.filter_sublist.map _
  rw [hround.jumps_eq hh.arranged hrows] at hrow
  obtain ⟨⟨old, c⟩, hold, heq⟩ := List.mem_map.1 hrow
  obtain ⟨rfl, rfl⟩ := Prod.mk.inj heq
  by_cases hb : old = b.id
  · -- the jump is at the second half now, which is not a block of `g`
    subst hb
    rw [endOf_first] at hjump ⊢
    have hterm := (hround.jumpsTo_second_iff hh.arranged).1 hjump
    have hmeans := hh.means _ _ target hold ((jumpsTo_iff_of_block? hiscut.block).2 hterm)
    by_cases hbreak : ∃ header labeled, c = .break header labeled
    · obtain ⟨header, labeled, rfl⟩ := hbreak
      refine iff_of_false (not_means_break hjump (fun l hl heq => hnew (heq ▸ hheaders l hl))
        (hround.not_isGotoOnly_second hh.arranged hh.blocks)) fun hin => hnew (hin header labeled rfl)
    · have hbreak : ∀ header labeled, c ≠ .break header labeled := fun header labeled heq =>
        hbreak ⟨header, labeled, heq⟩
      refine iff_of_true (hround.means_second hh.arranged hh.reachable hh.unrecorded hterm hbreak ?_)
        fun header labeled heq => absurd heq (hbreak header labeled)
      exact hmeans.2 fun header labeled heq => absurd heq (hbreak header labeled)
  · rw [endOf_of_ne hb] at hjump ⊢
    have hmem : old ∈ h.ids := hrows.subset (List.mem_map_of_mem hold)
    have hjump := (hround.jumpsTo_iff_of_ne hh.arranged hmem hb).1 hjump
    have htarget : target ≠ i.address :=
      hiscut.successor_ne hh.arranged (hjump.successors_eq ▸ List.mem_singleton_self target)
    rw [id_eq, hround.means_iff_of_ne hh.arranged hh.reachable hh.unrecorded hmem hb htarget]
    exact hh.means old c target hold hjump

/-- The rounds keep what is known of the classes. -/
theorem Settles.classified (hsettles : Settles pool g last found result) (hg : Classified g g stop) :
    Classified g last stop := by
  have hrounds := hsettles.rounds
  clear hsettles
  induction hrounds with
  | refl => exact hg
  | tail _ hround ih => exact ih.recuts hround

/-! ## What is recorded -/

/-- A refined class continues a loop at its update, or leaves it for its exit. -/
theorem exists_of_refineWithin {loops : List Loop} {depth : Nat}
    (h : refineWithin source target depth loops = some c) : ∃ l ∈ loops,
      (l.update = some target ∧ ∃ labeled, c = .continue l.header labeled) ∨
      (l.exit = some target ∧ ∃ labeled, c = .break l.header labeled) := by
  induction loops generalizing depth with
  | nil => cases h
  | cons l outer ih =>
    unfold refineWithin at h
    split at h
    · rename_i hupdate
      simp only [Bool.and_eq_true, decide_eq_true_eq] at hupdate
      exact ⟨l, List.mem_cons_self, .inl ⟨hupdate.1.1, _, (Option.some.inj h).symm⟩⟩
    · split at h
      · rename_i hexit
        exact ⟨l, List.mem_cons_self, .inr ⟨hexit, _, (Option.some.inj h).symm⟩⟩
      · obtain ⟨k, hk, hc⟩ := ih h
        exact ⟨k, List.mem_cons_of_mem l hk, hc⟩

/-- The class of a jump changes only to one of a loop around it whose update or exit it leads to. -/
theorem refineJump_cases (loops : List Loop) (hjump : g.JumpsTo source target) :
    g.refineJump loops source c = c ∨ ∃ l ∈ loops, source ∈ l.body ∧
      ((l.update = some target ∧ ∃ labeled, g.refineJump loops source c = .continue l.header labeled) ∨
        (l.exit = some target ∧ ∃ labeled, g.refineJump loops source c = .break l.header labeled)) := by
  unfold refineJump
  rw [hjump]
  dsimp only
  cases hrefined : refineWithin source target 0
      ((loops.filter (·.body.contains source)).mergeSort fun a b => a.body.length ≤ b.body.length) with
  | none => exact .inl rfl
  | some refined =>
    obtain ⟨l, hl, hc⟩ := exists_of_refineWithin hrefined
    obtain ⟨hl, hin⟩ := List.mem_filter.1 (List.mem_mergeSort.1 hl)
    exact .inr ⟨l, hl, List.contains_iff_mem.1 hin, hc⟩

/-- What a class says is not lost when loops are recorded. -/
theorem means_recording (hnone : g.loops = []) (hmeans : g.Means source target c) :
    (g.recording found).Means source target c := by
  cases c with
  | «continue» header labeled =>
    obtain ⟨l, hl, hheader, hbelongs, heq⟩ := hmeans
    exact ⟨l, hl, hheader, hbelongs, .inl (by simpa [hnone] using heq)⟩
  | backEdge | «break» | forward | residual => exact hmeans

/-- A loop with an exit or an update is the record of a natural loop, which the exit is outside of. -/
theorem Settles.exists_naturalLoop (hsettles : Settles pool g last found result) {l : Loop}
    (hl : l ∈ result.loops) (hsome : l.exit = some target ∨ l.update = some target) :
    ∃ n ∈ last.naturalLoops, n.header = l.header ∧ n.body = l.body ∧
      (l.exit = some target → target ∉ n.body) := by
  rw [hsettles.result] at hl
  rcases mem_unstructuredLoops hl with hl | ⟨-, hexit, hupdate⟩
  · obtain ⟨n, hn, hshape⟩ := exists_isShape_of_mem hsettles.shapes l hl
    obtain ⟨kind, init, update, rfl⟩ := hshape.isRecordOf.eq
    exact ⟨n, hn, rfl, rfl, not_mem_body_of_loopExit?⟩
  · simp [hexit, hupdate] at hsome

/-- Recording loops gives classes that say what they mean, and leaves the other ones. -/
theorem Settles.means_iff (hsettles : Settles pool g last found result) (hlast : Classified g last stop)
    (hrow : (source, c) ∈ result.jumps) (hjump : result.JumpsTo source target) :
    result.Means source target c ↔ ∀ header labeled, c = .break header labeled → source ∈ g.ids := by
  have hresult := hsettles.result
  subst hresult
  have hjump : last.JumpsTo source target := hjump
  obtain ⟨⟨source, old⟩, hold, heq⟩ := List.mem_map.1 hrow
  obtain ⟨rfl, rfl⟩ := Prod.mk.inj heq
  rcases refineJump_cases (c := old) (unstructuredLoops found last.irreducibleEdges) hjump with
    hclass | ⟨l, hl, hin, ⟨hupdate, labeled, hclass⟩ | ⟨hexit, labeled, hclass⟩⟩ <;> rw [hclass]
  · have hmeans := hlast.means source old target hold hjump
    rw [← hmeans]
    cases old with
    | «break» => exact Iff.rfl
    | backEdge | «continue» | forward | residual =>
      have htrue := hmeans.2 nofun
      exact iff_of_true (means_recording hlast.unrecorded htrue) htrue
  · obtain ⟨n, hn, hheader, hbody, -⟩ := hsettles.exists_naturalLoop hl (.inr hupdate)
    exact iff_of_true ⟨n, hn, hheader, .inl (hbody ▸ hin), .inr ⟨l, hl, rfl, hupdate⟩⟩ nofun
  · obtain ⟨n, hn, hheader, hbody, hout⟩ := hsettles.exists_naturalLoop hl (.inl hexit)
    rw [← hbody] at hin
    refine iff_of_true ⟨n, hn, hheader, .inl hin, hout hexit⟩ fun _ _ _ => ?_
    -- only the header of a loop can leave it by a jump
    by_contra hnew
    exact hout hexit (target_mem_body hn hin (fun heq => hnew (heq ▸ hlast.headers n hn)) hjump.successors_eq)

end FlowGraph

/-! ## Decoded code -/

namespace MethodCode

open FlowGraph

/-- For decoded code with its jumps reduced and then its loops recognised, there is a class for each jump. It says
what it means exactly if it does not speak of leaving a loop at a block that was made when loops were
recognised, by cutting it off from another one. -/
theorem jumpClasses_mean_iff {pool : ConstantPool} {attr : CodeAttribute} {code : MethodCode}
    (h : MethodCode.decode pool attr = .ok code) (inlineReturns : Bool) (names : ConstantPool) :
    let g := (ofCode code).reduceJumps inlineReturns
    let result := code.reduced names inlineReturns
    result.JumpsListed ∧ ∀ source c, (source, c) ∈ result.jumps → ∃ target, result.JumpsTo source target ∧
      (result.Means source target c ↔ ∀ header labeled, c = .break header labeled → source ∈ g.ids) := by
  intro g result
  have hcode := MethodCode.wellFormed_of_decode h
  have hwf := wellFormed_ofCode hcode
  have hsealed := sealed_ofCode hcode
  have harranged := arranged_reduceJumps hcode inlineReturns
  have hstart : Classified g g code.length := .refl harranged
    (sealed_reduceJumps inlineReturns hsealed hwf (returnsEnd_ofCode code))
    (allReachable_reduceJumps _ inlineReturns) (sameFrame_reduceJumps (ofCode code) inlineReturns).loops
    (reduced_reduceJumps hwf hsealed inlineReturns).classified
  obtain ⟨last, found, hsettles⟩ := exists_settles names harranged.wf.sorted
  have hlast := hsettles.classified hstart
  have hresult : result = last.recording found := hsettles.result
  have hlisted : result.JumpsListed := by
    rw [hresult]
    show (last.jumps.map _).map Prod.fst = (last.blocks.filter isJump).map (·.id)
    rw [List.map_map, ← hlast.listed]
    rfl
  have hsorted : result.ids.Pairwise (· < ·) := hresult ▸ hlast.arranged.wf.sorted
  refine ⟨hlisted, fun source c hrow => ?_⟩
  obtain ⟨target, hjump⟩ := hlisted.exists_jumpsTo hsorted hrow
  exact ⟨target, hjump, hsettles.means_iff hlast hrow hjump⟩

/-- The code of `k++; i = 0; while (i < 10) i++; return;`, which starts over when the part in front of the loop
fails. -/
def restartedLoop : CodeAttribute :=
  ⟨2, 3, [0x84, 0x02, 0x01, 0x03, 0x3C, 0xA7, 0x00, 0x06, 0x84, 0x01, 0x01, 0x1B, 0x10, 0x0A, 0xA1, 0xFF, 0xFA,
    0xB1, 0x57, 0xA7, 0xFF, 0xED], [⟨0, 8, 18, 0⟩], []⟩

/-- Its graph with jumps reduced and loops recognised. -/
def restartedLoopReduced : FlowGraph where
  blocks := [⟨0, [⟨0, 3, none, .iinc 2 1⟩], .fallThrough 3⟩,
    ⟨3, [⟨3, 1, none, .push 0 .iconst⟩, ⟨4, 1, none, .store .int 1⟩, ⟨5, 3, none, .goto 11⟩], .goto 11⟩,
    ⟨8, [⟨8, 3, none, .iinc 1 1⟩], .fallThrough 11⟩,
    ⟨11, [⟨11, 1, none, .load .int 1⟩, ⟨12, 2, none, .push 10 .bipush⟩, ⟨14, 3, none, .ifCompare .lt false 8⟩],
      .branch (.intCompare .lt) 8 17⟩,
    ⟨17, [⟨17, 1, none, .return none⟩], .return⟩,
    ⟨18, [⟨18, 1, none, .stack .pop⟩, ⟨19, 3, none, .goto 0⟩], .goto 0⟩]
  entry := 0
  ranges := [⟨0, 8, 18, none⟩]
  jumps := [(3, .break 0 false), (18, .backEdge 0)]
  loops := [⟨0, .endless, [0, 18], some 3, 18, none, none⟩, ⟨11, .for, [8, 11], some 17, 8, some 3, some 8⟩]

/-- The reduced graph of the example. -/
theorem reduced_restartedLoop : ∃ code, MethodCode.decode .empty restartedLoop = .ok code ∧
    code.reduced .empty true = restartedLoopReduced := ⟨_, rfl, by cbv⟩

/-- The condition says of the example whether all classes mean what they say. -/
theorem jumpClasses_mean_iff_restartedLoop :
    ∃ code, MethodCode.decode .empty restartedLoop = .ok code ∧
      code.reduced .empty true = restartedLoopReduced ∧ restartedLoopReduced.JumpsListed ∧
      ∃ target, restartedLoopReduced.JumpsTo 18 target ∧ restartedLoopReduced.Means 18 target (.backEdge 0) := by
  obtain ⟨code, hcode, hreduced⟩ := reduced_restartedLoop
  obtain ⟨hlisted, hmeans⟩ := jumpClasses_mean_iff hcode true .empty
  rw [hreduced] at hlisted hmeans
  obtain ⟨target, hjump, hiff⟩ := hmeans 18 (.backEdge 0) (by decide)
  exact ⟨code, hcode, hreduced, hlisted, target, hjump, hiff.2 nofun⟩

/-- The initialisation of the inner loop is cut off from the header of the outer one. Nothing but the handler
leads back to this header, so the initialisation is not in the outer loop; the jump at its end still says that
it leaves that loop. -/
theorem break_without_meaning :
    ∃ code, MethodCode.decode .empty restartedLoop = .ok code ∧
      (3, .break 0 false) ∈ (code.reduced .empty true).jumps ∧ (code.reduced .empty true).JumpsTo 3 11 ∧
      ¬(code.reduced .empty true).Means 3 11 (.break 0 false) := by
  obtain ⟨code, hcode, hreduced⟩ := reduced_restartedLoop
  refine ⟨code, hcode, ?_⟩
  rw [hreduced]
  have hloops : restartedLoopReduced.naturalLoops = [⟨0, [0, 18], [18]⟩, ⟨11, [8, 11], [8]⟩] := by cbv
  refine ⟨by decide, rfl, ?_⟩
  rintro ⟨l, hl, hheader, hin | ⟨honly, -⟩, -⟩
  · rw [hloops, List.mem_cons, List.mem_singleton] at hl
    rcases hl with rfl | rfl
    · exact absurd hin (by decide)
    · exact absurd hheader (by decide)
  · exact absurd honly (by decide)

end MethodCode

end JvmDecompiler
