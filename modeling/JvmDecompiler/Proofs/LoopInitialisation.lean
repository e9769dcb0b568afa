import JvmDecompiler.Proofs.LoopCuts
import JvmDecompiler.Proofs.LoopExits
import JvmDecompiler.Structuring

/-!
# Initialisations and updates of loops

A loop with an initialisation is entered from outside through that block only (`Loop.EntersThroughInit`).
The update is the last latch. A loop statement runs its update whenever its body is done, so control should
come back to the header from nowhere else (`Loop.ReturnsThroughUpdate`). But no other latch is looked at
when a loop is recognised: where there is one, control goes from it to the header past the update
(`FlowGraph.updates_iff`, `FlowGraph.not_returnsThroughUpdate`).

The statement of a loop starts at its initialisation, or else at its header, and the structurer keeps one
loop for each block at which one starts. Two loops start at one block exactly if the initialisation of one
is the header of the other, which is then a loop that tests behind its body or nowhere
(`FlowGraph.loops_kept_iff`, `FlowGraph.not_mem_loops_ofGraph`).
-/

namespace JvmDecompiler

/-- The only edge to the header from outside the loop leaves the initialisation. -/
structure Loop.EntersThroughInit (l : Loop) (g : FlowGraph) : Prop where
  init : l.init.isSome = true
  entered : ∀ b, b ∉ l.body → (l.header ∈ g.successors b ↔ l.init = some b)
  apart : ∀ i ∈ l.init, i ∉ l.body

/-- The only edge to the header from inside the loop leaves the update. -/
def Loop.ReturnsThroughUpdate (l : Loop) (g : FlowGraph) : Prop :=
  ∀ b ∈ l.body, l.header ∈ g.successors b ↔ l.update = some b

namespace FlowGraph

variable {g h result : FlowGraph} {pool : ConstantPool} {n k : NaturalLoop} {l m : Loop} {i b : BlockId}

/-! ## Records of natural loops -/

namespace Recognised

/-- A loop is recorded with the header of the natural loop. -/
theorem header_eq (hl : g.Recognised pool n l) : l.header = n.header := by cases hl <;> rfl

/-- A loop is recorded with the body of the natural loop. -/
theorem body_eq (hl : g.Recognised pool n l) : l.body = n.body := by cases hl <;> rfl

/-- A recognised loop has a shape. -/
theorem kind_ne (hl : g.Recognised pool n l) : l.kind ≠ .unstructured := by cases hl <;> nofun

/-- An initialisation is the only block in front of the loop, and goes nowhere else. -/
theorem preheader (hl : g.Recognised pool n l) (hi : l.init = some i) :
    g.preheader? n = some i ∧ g.successors i = [n.header] := by
  cases hl with
  | iterator _ _ hpattern hpre | array _ _ hpattern hpre | «for» _ _ hpattern hpre =>
    obtain rfl := Option.some.inj hi
    exact ⟨hpattern.preheader, hpre⟩
  | «while» | doWhile | endless => cases hi

end Recognised

/-- A header that tests leads to two blocks, one in the loop and one outside. -/
theorem exists_of_hasHeaderTest (htest : g.hasHeaderTest pool n = true) : ∃ s t, s ∈ n.body ∧ t ∉ n.body ∧
    (g.successors n.header = [s, t] ∨ g.successors n.header = [t, s]) := by
  obtain ⟨b, s, t, hb, ⟨c, hterm⟩, -, hs, ht, -⟩ : ∃ b s t, (g.endlessLoop n).HeaderTest g pool b s t :=
    headerTest_of_hasHeaderTest htest rfl rfl rfl
  have hne : s ≠ t := fun heq => ht (heq ▸ hs)
  have hb : g.block? n.header = some b := hb
  refine ⟨s, t, hs, ht, ?_⟩
  rcases hterm with hterm | hterm <;>
    simp [successors, hb, hterm, Terminator.successors, List.eraseDups_cons, hne, hne.symm]

/-- In front of a loop there is one block, and no other edge leads in. -/
theorem of_preheader? (hi : g.preheader? n = some i) :
    i ∉ n.body ∧ n.header ∈ g.successors i ∧ ∀ b, b ∉ n.body → n.header ∈ g.successors b → b = i := by
  have honly : (g.predecessors n.header).filter (!n.body.contains ·) = [i] := by
    unfold preheader? at hi
    split at hi
    · rename_i single hsingle
      exact hsingle.trans (congrArg ([·]) (Option.some.inj hi))
    · cases hi
  have hmem : ∀ b, b = i ↔ (b ∈ g.ids ∧ n.header ∈ g.successors b) ∧ b ∉ n.body := by
    intro b
    rw [← List.mem_singleton, ← honly, List.mem_filter, predecessors, List.mem_filter]
    simp
  obtain ⟨⟨-, hedge⟩, hout⟩ := (hmem i).1 rfl
  exact ⟨hout, hedge, fun b hb hedge => (hmem b).2 ⟨⟨source_mem_ids hedge, hedge⟩, hb⟩⟩

/-! ## Updates -/

/-- A loop with an initialisation is entered through it. -/
theorem Recognised.entersThroughInit (hl : g.Recognised pool n l) (hi : l.init = some i) :
    l.EntersThroughInit g := by
  obtain ⟨hpre, -⟩ := hl.preheader hi
  obtain ⟨hout, hedge, honly⟩ := of_preheader? hpre
  refine ⟨hi ▸ rfl, fun b hb => ?_, fun j hj => ?_⟩
  · rw [hl.header_eq, hi, Option.some.injEq]
    rw [hl.body_eq] at hb
    exact ⟨fun h => (honly b hb h).symm, fun h => h ▸ hedge⟩
  · obtain rfl := Option.some.inj (hi.symm.trans hj)
    rw [hl.body_eq]
    exact hout

/-- Control comes back to the header through the last latch only if there is no other one, and no edge to the
header from a block that control never comes to. -/
theorem returns_iff (hs : g.ids.Pairwise (· < ·)) (hn : n ∈ g.naturalLoops) :
    (∀ b ∈ n.body, n.header ∈ g.successors b ↔ n.latch = b) ↔
      n.latches = [n.latch] ∧
        ∀ b ∈ n.body, n.header ∈ g.successors b → g.digraph.Reaches g.entry b := by
  have hlatch := latch_mem_latches hn
  have hedges : ∀ b ∈ n.latches, b ∈ n.body ∧ n.header ∈ g.successors b := fun b hb =>
    ⟨mem_body_of_mem_latches hn hb, ((mem_latches_iff hn).1 hb).2.1⟩
  constructor
  · intro honly
    -- the latches are without repetition, so that the one block they can be is the only one
    refine ⟨?_, fun b hb hedge => ?_⟩
    · have hmem : ∀ b, b ∈ n.latches ↔ b ∈ [n.latch] := fun b =>
        ⟨fun hb => List.mem_singleton.2 ((honly b (hedges b hb).1).1 (hedges b hb).2).symm,
          fun hb => List.mem_singleton.1 hb ▸ hlatch⟩
      exact List.perm_singleton.1
        ((List.perm_ext_iff_of_nodup (nodup_latches hs hn) (List.nodup_singleton _)).2 hmem)
    · obtain rfl := (honly b hb).1 hedge
      exact ((mem_latches_iff hn).1 hlatch).1
  · rintro ⟨hsingle, hreach⟩ b hb
    constructor
    · intro hedge
      have hmem := (mem_latches_of_mem_body hn hb hedge).2 (hreach b hb hedge)
      rw [hsingle] at hmem
      exact (List.mem_singleton.1 hmem).symm
    · rintro rfl
      exact (hedges _ hlatch).2

/-- A loop with an update is entered from outside through its initialisation only. From inside control comes
back to the header through the update only, exactly if the natural loop has no other latch, and no edge to
the header from a block that control never comes to. -/
theorem updates_iff (hs : g.ids.Pairwise (· < ·)) (hl : l ∈ (g.reduceLoops pool).loops)
    (hkind : l.kind = .for ∨ l.kind = .forEachArray) :
    ∃ n ∈ (g.reduceLoops pool).naturalLoops, n.header = l.header ∧ n.body = l.body ∧
      l.update = some n.latch ∧ l.EntersThroughInit (g.reduceLoops pool) ∧
      (l.ReturnsThroughUpdate (g.reduceLoops pool) ↔ n.latches = [n.latch] ∧
        ∀ b ∈ l.body, l.header ∈ (g.reduceLoops pool).successors b →
          (g.reduceLoops pool).digraph.Reaches (g.reduceLoops pool).entry b) := by
  obtain ⟨h, found, hsettles⟩ := exists_settles pool hs
  have hsorted := hsettles.induction (P := fun h => h.ids.Pairwise (· < ·)) hs
    fun _ _ _ _ _ _ hcut => hcut.sorted
  have hstructured : l.kind ≠ .unstructured := by
    rcases hkind with hkind | hkind <;> rw [hkind] <;> nofun
  obtain ⟨n, hn, hrecord⟩ := (hsettles.exists_recognised hl).resolve_left hstructured
  obtain ⟨i, hinit, hupdate⟩ : ∃ i, l.init = some i ∧ l.update = some n.latch := by
    cases hrecord with
    | array | «for» => exact ⟨_, rfl, rfl⟩
    | iterator | «while» | doWhile | endless => simp [endlessLoop] at hkind
  -- what is recorded has no influence on edges
  rw [hsettles.result]
  refine ⟨n, hn, hrecord.header_eq.symm, hrecord.body_eq.symm, hupdate, ?_, ?_⟩
  · obtain ⟨hin, hentered, hapart⟩ := hrecord.entersThroughInit hinit
    exact ⟨hin, hentered, hapart⟩
  · rw [Loop.ReturnsThroughUpdate, hupdate, hrecord.header_eq, hrecord.body_eq]
    simp only [Option.some.injEq]
    exact returns_iff hsorted hn

/-- The loop of `MethodCode.countedSteps` as it is recorded. -/
def recordedCountedSteps : Loop :=
  { header := 5, kind := .for, body := [5, 11, 14], exit := some 20, latch := 14, init := some 3,
    update := some 14 }

/-- The reduced graph of the example, as far as its loop goes. -/
theorem reduced_countedSteps :
    ∃ code, MethodCode.decode .empty MethodCode.countedSteps = .ok code ∧
      ((ofCode code).reduceJumps true).ids.Pairwise (· < ·) ∧
      (code.reduced .empty true).loops = [recordedCountedSteps] ∧
      (code.reduced .empty true).naturalLoops = [⟨5, [5, 11, 14], [14]⟩] ∧
      (code.reduced .empty true).reversePostorder = [0, 3, 5, 20, 11, 14] := by
  -- one evaluation, so that the graph is computed once
  have hdecode : ∃ code, MethodCode.decode .empty MethodCode.countedSteps = .ok code ∧
      (((ofCode code).reduceJumps true).ids, (code.reduced .empty true).loops,
        (code.reduced .empty true).naturalLoops, (code.reduced .empty true).reversePostorder) =
      ([0, 5, 11, 20], [recordedCountedSteps], [⟨5, [5, 11, 14], [14]⟩], [0, 3, 5, 20, 11, 14]) :=
    ⟨_, rfl, by cbv⟩
  obtain ⟨code, hcode, hfacts⟩ := hdecode
  simp only [Prod.mk.injEq] at hfacts
  obtain ⟨hids, hfound⟩ := hfacts
  refine ⟨code, hcode, ?_, hfound⟩
  rw [hids]
  decide

/-- The condition says of the example whether its loop goes through the update. -/
theorem updates_iff_countedSteps :
    ∃ code, MethodCode.decode .empty MethodCode.countedSteps = .ok code ∧
      ((ofCode code).reduceJumps true).ids.Pairwise (· < ·) ∧
      recordedCountedSteps ∈ (code.reduced .empty true).loops ∧
      recordedCountedSteps.EntersThroughInit (code.reduced .empty true) ∧
      recordedCountedSteps.ReturnsThroughUpdate (code.reduced .empty true) := by
  obtain ⟨code, hcode, hsorted, hloops, hnatural, horder⟩ := reduced_countedSteps
  have hmem : recordedCountedSteps ∈ (code.reduced .empty true).loops := hloops ▸ List.mem_singleton_self _
  obtain ⟨n, hn, -, -, -, henters, hreturns⟩ := updates_iff hsorted hmem (.inl rfl)
  obtain rfl := List.mem_singleton.1 (hnatural ▸ hn)
  have hvisited : ∀ b ∈ recordedCountedSteps.body, b ∈ (code.reduced .empty true).reversePostorder := by
    rw [horder]
    decide
  exact ⟨code, hcode, hsorted, hmem, henters,
    hreturns.2 ⟨rfl, fun b hb _ => Digraph.mem_reversePostorder_iff.1 (hvisited b hb)⟩⟩

/-- The code of `i = 0; while (i < n) { if (k != 0) continue; i++; } return;`. -/
def countWithContinue : CodeAttribute :=
  ⟨2, 3, [0x03, 0x3b, 0x1a, 0x1b, 0xa2, 0x00, 0x10, 0x1c, 0x99, 0x00, 0x06, 0xa7, 0xff, 0xf7, 0x84, 0x00, 0x01,
    0xa7, 0xff, 0xf1, 0xb1], [], []⟩

/-- The loop of this code as it is recorded. -/
def recordedCountWithContinue : Loop :=
  { header := 2, kind := .for, body := [2, 7, 11, 14], exit := some 20, latch := 14, init := some 0,
    update := some 14 }

/-- This is taken for a loop that counts whenever it comes back to the header. But from the block at 11 control
comes back without counting. -/
theorem not_returnsThroughUpdate :
    ∃ code, MethodCode.decode .empty countWithContinue = .ok code ∧
      ∃ l ∈ (code.reduced .empty true).loops, l.kind = .for ∧ l.update = some 14 ∧
        11 ∈ l.body ∧ l.header ∈ (code.reduced .empty true).successors 11 ∧
        ¬l.ReturnsThroughUpdate (code.reduced .empty true) := by
  have hdecode : ∃ code, MethodCode.decode .empty countWithContinue = .ok code ∧
      ((code.reduced .empty true).loops, (code.reduced .empty true).successors 11) =
        ([recordedCountWithContinue], [2]) := ⟨_, rfl, by cbv⟩
  obtain ⟨code, hcode, hfacts⟩ := hdecode
  obtain ⟨hloops, hsuccessors⟩ := Prod.mk.inj hfacts
  have hedge : 2 ∈ (code.reduced .empty true).successors 11 := hsuccessors ▸ List.mem_singleton_self 2
  refine ⟨code, hcode, recordedCountWithContinue, hloops ▸ List.mem_singleton_self _, rfl, rfl, by decide, hedge,
    fun hreturns => ?_⟩
  exact absurd ((hreturns 11 (by decide)).1 hedge) (by decide)

/-! ## Where statements start -/

/-- The kinds of loops without an initialisation that do not test in the header either. -/
theorem Recognised.kind_of_successors (hl : g.Recognised pool n l) {t : BlockId}
    (hsucc : g.successors n.header = [t]) : l.kind = .doWhile ∨ l.kind = .endless := by
  have hno : g.hasHeaderTest pool n ≠ true := by
    intro htest
    obtain ⟨s, t, -, -, htwo | htwo⟩ := exists_of_hasHeaderTest htest <;> rw [htwo] at hsucc <;> cases hsucc
  cases hl with
  | iterator _ htest | array _ htest | «for» _ htest | «while» _ htest => exact absurd htest hno
  | doWhile => exact .inl rfl
  | endless => exact .inr rfl

/-! ### What is kept of a list -/

/-- Into a list in the order of keys, an element is put in the place of that with the same key. -/
theorem mem_insertByKey_iff {α : Type} {key : α → Nat} {a b : α} {as : List α}
    (hs : (as.map key).Pairwise (· < ·)) : b ∈ insertByKey key a as ↔ b = a ∨ b ∈ as ∧ key b ≠ key a := by
  induction as with
  | nil => simp [insertByKey]
  | cons c rest ih =>
    obtain ⟨hc, hrest⟩ := List.pairwise_cons.1 hs
    have hlater : ∀ d ∈ rest, key c < key d := fun d hd => hc _ (List.mem_map_of_mem hd)
    have ih := ih hrest
    unfold insertByKey
    grind

/-- Insertions by key give a list in the order of keys. -/
theorem sorted_foldl_insertByKey {α : Type} {key : α → Nat} (as : List α) :
    ((as.foldl (fun kept a => insertByKey key a kept) []).map key).Pairwise (· < ·) := by
  induction as using List.reverseRecOn with
  | nil => exact .nil
  | append_singleton as a ih =>
    rw [List.foldl_concat]
    exact sorted_insertByKey ih

/-- Of elements with the same key the last one is kept. -/
theorem mem_foldl_insertByKey_iff {α : Type} {key : α → Nat} {a : α} (as : List α) :
    a ∈ as.foldl (fun kept a => insertByKey key a kept) [] ↔
      ∃ front back, as = front ++ a :: back ∧ ∀ b ∈ back, key b ≠ key a := by
  -- from the right: a later element with the same key takes the place of an earlier one
  induction as using List.reverseRecOn with
  | nil => simp
  | append_singleton as b ih =>
    rw [List.foldl_concat, mem_insertByKey_iff (sorted_foldl_insertByKey as), ih]
    constructor
    · rintro (rfl | ⟨⟨front, back, rfl, hback⟩, hne⟩)
      · exact ⟨as, [], rfl, nofun⟩
      · refine ⟨front, back ++ [b], by simp, fun c hc => ?_⟩
        rcases List.mem_append.1 hc with hc | hc
        · exact hback c hc
        · exact List.mem_singleton.1 hc ▸ hne.symm
    · rintro ⟨front, back, heq, hback⟩
      rcases List.eq_nil_or_concat back with rfl | ⟨back, c, rfl⟩
      · exact .inl (List.singleton_inj.1 (List.append_inj' heq rfl).2).symm
      · have heq : as ++ [b] = (front ++ a :: back) ++ [c] := by simpa using heq
        obtain ⟨rfl, hbc⟩ := List.append_inj' heq rfl
        obtain rfl := List.singleton_inj.1 hbc
        exact .inr ⟨⟨front, back, rfl, fun d hd => hback d (by simp [hd])⟩,
          (hback b (by simp)).symm⟩

/-! ### Loops that have a shape -/

/-- The loops that have a shape. -/
def structuredLoops (g : FlowGraph) : List Loop := g.loops.filter (·.kind ≠ .unstructured)

/-- The loops that have a shape are those that are not marked as without one. -/
theorem mem_structuredLoops : l ∈ g.structuredLoops ↔ l ∈ g.loops ∧ l.kind ≠ .unstructured := by
  simp [structuredLoops]

/-- Loops without a shape are added for the edges that nothing else explains, and pass no filter for shapes.
-/
theorem filter_unstructuredLoops {p : Loop → Bool} (hp : ∀ l, l.kind = .unstructured → p l = false)
    (loops : List Loop) (edges : List (BlockId × BlockId)) :
    (unstructuredLoops loops edges).filter p = loops.filter p := by
  induction edges generalizing loops with
  | nil => rfl
  | cons e edges ih =>
    unfold unstructuredLoops
    split
    · exact ih loops
    · rw [ih, List.filter_append, List.filter_singleton, hp _ rfl]
      simp

/-- The loops that have a shape are the records of the natural loops, in their order. -/
theorem Settles.forall₂_recognised {found : List Loop} (hsettles : Settles pool g h found result) :
    List.Forall₂ (h.Recognised pool) h.naturalLoops result.structuredLoops := by
  have hrecords : List.Forall₂ (h.Recognised pool) h.naturalLoops found :=
    (shapesOf_eq_inr_iff.1 hsettles.shapes).imp fun _ _ => IsShape.recognised
  have hall : ∀ l ∈ found, l.kind ≠ .unstructured := fun l hl => by
    obtain ⟨n, -, hshape⟩ := exists_isShape_of_mem hsettles.shapes l hl
    exact hshape.recognised.kind_ne
  have hfound : result.structuredLoops = found := by
    rw [hsettles.result]
    show (unstructuredLoops found h.irreducibleEdges).filter _ = found
    rw [filter_unstructuredLoops (by simp)]
    exact List.filter_eq_self.2 fun l hl => by simpa using hall l hl
  rwa [hfound]

/-- Loops are recorded with the headers and bodies of natural loops, in their order. -/
theorem map_header_body {loops : List NaturalLoop} {found : List Loop}
    (hrecords : List.Forall₂ (g.Recognised pool) loops found) :
    found.map (fun l => (l.header, l.body)) = loops.map fun n => (n.header, n.body) := by
  induction hrecords with
  | nil => rfl
  | cons hl _ ih => rw [List.map_cons, List.map_cons, ih, hl.header_eq, hl.body_eq]

/-- No two loops that have a shape have one header. -/
theorem Settles.nodup_headers {found : List Loop} (hsettles : Settles pool g h found result) :
    (result.structuredLoops.map (·.header)).Nodup := by
  have hheaders := congrArg (List.map Prod.fst) (map_header_body hsettles.forall₂_recognised)
  rw [List.map_map, List.map_map] at hheaders
  exact hheaders ▸ FlowGraph.nodup_headers h

/-- In the end an initialisation leads to its header only. -/
theorem Settles.successors_init {found : List Loop} (hsettles : Settles pool g h found result)
    (hl : l ∈ result.structuredLoops) (hinit : l.init = some i) : result.successors i = [l.header] := by
  obtain ⟨hl, hstructured⟩ := mem_structuredLoops.1 hl
  obtain ⟨n, -, hn⟩ := (hsettles.exists_recognised hl).resolve_left hstructured
  rw [hsettles.result, hn.header_eq]
  exact (hn.preheader hinit).2

/-- A loop whose header is the initialisation of another one tests behind its body or nowhere. -/
theorem Settles.kind_of_init {found : List Loop} (hsettles : Settles pool g h found result)
    (hl : l ∈ result.structuredLoops) (hm : m ∈ result.structuredLoops) (hinit : l.init = some m.header) :
    (m.kind = .doWhile ∨ m.kind = .endless) ∧ m.init = none := by
  have hsucc := hsettles.successors_init hl hinit
  obtain ⟨hm, hstructured⟩ := mem_structuredLoops.1 hm
  obtain ⟨n, -, hn⟩ := (hsettles.exists_recognised hm).resolve_left hstructured
  rw [hsettles.result, hn.header_eq] at hsucc
  have hkind := hn.kind_of_successors hsucc
  cases hn with
  | iterator | array | «for» => simp at hkind
  | «while» | doWhile | endless => exact ⟨hkind, rfl⟩

/-- Two loops start at one block exactly if the initialisation of one is the header of the other. -/
theorem Settles.entry_eq_iff {found : List Loop} (hsettles : Settles pool g h found result)
    (hl : l ∈ result.structuredLoops) (hm : m ∈ result.structuredLoops) (hne : l ≠ m) :
    l.entry = m.entry ↔ l.init = some m.header ∨ m.init = some l.header := by
  have hheaders : l.header ≠ m.header := fun heq =>
    hne (List.inj_on_of_nodup_map hsettles.nodup_headers hl hm heq)
  constructor
  · intro heq
    cases hli : l.init with
    | none =>
      cases hmi : m.init with
      | none => exact absurd (by simpa [Loop.entry, hli, hmi] using heq) hheaders
      | some j => exact .inr (congrArg some (by simpa [Loop.entry, hli, hmi] using heq.symm))
    | some i =>
      cases hmi : m.init with
      | none => exact .inl (congrArg some (by simpa [Loop.entry, hli, hmi] using heq))
      | some j =>
        -- one initialisation goes to one header
        obtain rfl : i = j := by simpa [Loop.entry, hli, hmi] using heq
        have hsucc := (hsettles.successors_init hl hli).symm.trans (hsettles.successors_init hm hmi)
        exact absurd (List.singleton_inj.1 hsucc) hheaders
  · rintro (hinit | hinit)
    · obtain ⟨-, hnone⟩ := hsettles.kind_of_init hl hm hinit
      simp [Loop.entry, hinit, hnone]
    · obtain ⟨-, hnone⟩ := hsettles.kind_of_init hm hl hinit
      simp [Loop.entry, hinit, hnone]

/-- No loop is its own initialisation. -/
theorem Settles.init_ne_header {found : List Loop} (hsettles : Settles pool g h found result)
    (hl : l ∈ result.structuredLoops) : l.init ≠ some l.header := by
  intro hinit
  obtain ⟨hl, hstructured⟩ := mem_structuredLoops.1 hl
  obtain ⟨n, hn, hrecord⟩ := (hsettles.exists_recognised hl).resolve_left hstructured
  refine (hrecord.entersThroughInit hinit).apart _ hinit ?_
  rw [hrecord.header_eq, hrecord.body_eq]
  exact (mem_body_iff hn).2 (.inl rfl)

/-- All loops with a shape are kept if no two start at one block, and only then. -/
theorem all_kept_iff (hnodup : g.structuredLoops.Nodup) (ctx : SimContext) (method : String)
    (stripFinallyCopies : Bool) :
    (∀ l ∈ g.structuredLoops, l ∈ (Structurer.ofGraph g ctx method stripFinallyCopies).loops) ↔
      ∀ l ∈ g.structuredLoops, ∀ m ∈ g.structuredLoops, l ≠ m → l.entry ≠ m.entry := by
  have hkept : ∀ l, l ∈ (Structurer.ofGraph g ctx method stripFinallyCopies).loops ↔
      ∃ front back, g.structuredLoops = front ++ l :: back ∧ ∀ m ∈ back, m.entry ≠ l.entry := fun l =>
    mem_foldl_insertByKey_iff g.structuredLoops
  have hsorted : ((Structurer.ofGraph g ctx method stripFinallyCopies).loops.map Loop.entry).Pairwise (· < ·) :=
    sorted_foldl_insertByKey g.structuredLoops
  constructor
  · intro hall l hl m hm hne heq
    exact hne (List.inj_on_of_nodup_map (hsorted.imp Nat.ne_of_lt) (hall l hl) (hall m hm) heq)
  · intro hall l hl
    obtain ⟨front, back, heq⟩ := List.append_of_mem hl
    refine (hkept l).2 ⟨front, back, heq, fun m hm => ?_⟩
    rw [heq] at hnodup
    have hne : m ≠ l := fun h => (List.nodup_cons.1 (List.Nodup.of_append_right hnodup)).1 (h ▸ hm)
    exact hall m (heq ▸ by simp [hm]) l hl hne

/-- The structurer keeps every loop that has a shape exactly if no initialisation of one is the header of
another. Where it is, the two loops start at one block; the other loop tests behind its body or nowhere, and
control goes on from its header to the header of the first. -/
theorem loops_kept_iff (hs : g.ids.Pairwise (· < ·)) (ctx : SimContext) (method : String)
    (stripFinallyCopies : Bool) :
    let r := g.reduceLoops pool
    (∀ l ∈ r.structuredLoops, ∀ m ∈ r.structuredLoops, l ≠ m →
        (l.entry = m.entry ↔ l.init = some m.header ∨ m.init = some l.header)) ∧
      (∀ l ∈ r.structuredLoops, ∀ m ∈ r.structuredLoops, l.init = some m.header →
        (m.kind = .doWhile ∨ m.kind = .endless) ∧ r.successors m.header = [l.header]) ∧
      ((∀ l ∈ r.structuredLoops, l ∈ (Structurer.ofGraph r ctx method stripFinallyCopies).loops) ↔
        ∀ l ∈ r.structuredLoops, ∀ m ∈ r.structuredLoops, l.init ≠ some m.header) := by
  intro r
  obtain ⟨h, found, hsettles⟩ := exists_settles pool hs
  refine ⟨fun l hl m hm => hsettles.entry_eq_iff hl hm, fun l hl m hm hinit =>
    ⟨(hsettles.kind_of_init hl hm hinit).1, hsettles.successors_init hl hinit⟩, ?_⟩
  rw [all_kept_iff (List.Nodup.of_map _ hsettles.nodup_headers)]
  constructor
  · intro hall l hl m hm hinit
    have hne : l ≠ m := fun heq => hsettles.init_ne_header hm (heq ▸ hinit)
    exact hall l hl m hm hne ((hsettles.entry_eq_iff hl hm hne).2 (.inl hinit))
  · intro hall l hl m hm hne heq
    rcases (hsettles.entry_eq_iff hl hm hne).1 heq with hinit | hinit
    · exact hall l hl m hm hinit
    · exact hall m hm l hl hinit

/-- The condition says of the example whether structuring takes its loop. -/
theorem loops_kept_iff_countedSteps :
    ∃ code, MethodCode.decode .empty MethodCode.countedSteps = .ok code ∧
      ((ofCode code).reduceJumps true).ids.Pairwise (· < ·) ∧
      recordedCountedSteps ∈ (code.reduced .empty true).structuredLoops ∧
      recordedCountedSteps ∈
        (Structurer.ofGraph (code.reduced .empty true) ⟨.empty, true, 2⟩ "m" false).loops := by
  obtain ⟨code, hcode, hsorted, hloops, -⟩ := reduced_countedSteps
  have hstructured : (code.reduced .empty true).structuredLoops = [recordedCountedSteps] := by
    rw [structuredLoops, hloops]
    rfl
  have hmem : recordedCountedSteps ∈ (code.reduced .empty true).structuredLoops :=
    hstructured ▸ List.mem_singleton_self _
  have hsingle : ∀ l ∈ (code.reduced .empty true).structuredLoops, l = recordedCountedSteps := fun l hl =>
    List.mem_singleton.1 (hstructured ▸ hl)
  obtain ⟨-, -, hkept⟩ := @loops_kept_iff _ .empty hsorted ⟨.empty, true, 2⟩ "m" false
  refine ⟨code, hcode, hsorted, hmem, hkept.2 (fun l hl m hm => ?_) _ hmem⟩
  rw [hsingle l hl, hsingle m hm]
  decide

/-- The code of `while (true) { for (i = 0; i < n; i++) { } }`. -/
def countForEver : CodeAttribute :=
  ⟨2, 2, [0x03, 0x3b, 0x1a, 0x1b, 0xa2, 0xff, 0xfc, 0x84, 0x00, 0x01, 0xa7, 0xff, 0xf8], [], []⟩

/-- The inner loop of this code as it is recorded. -/
def countForEverInner : Loop :=
  { header := 2, kind := .for, body := [2, 7], exit := some 0, latch := 7, init := some 0, update := some 7 }

/-- The outer one. -/
def countForEverOuter : Loop :=
  { header := 0, kind := .endless, body := [0, 2, 7], exit := none, latch := 2, init := none, update := none }

/-- Both loops start at the initialisation of the inner one, and that one is lost. -/
theorem not_mem_loops_ofGraph :
    ∃ code, MethodCode.decode .empty countForEver = .ok code ∧
      ∃ l ∈ (code.reduced .empty true).loops, ∃ m ∈ (code.reduced .empty true).loops,
        l.kind = .for ∧ m.kind = .endless ∧ l ≠ m ∧ l.entry = m.entry ∧
        l ∉ (Structurer.ofGraph (code.reduced .empty true) ⟨.empty, true, 2⟩ "m" false).loops := by
  have hdecode : ∃ code, MethodCode.decode .empty countForEver = .ok code ∧
      (code.reduced .empty true).loops = [countForEverInner, countForEverOuter] ∧
      (Structurer.ofGraph (code.reduced .empty true) ⟨.empty, true, 2⟩ "m" false).loops =
        [countForEverOuter] :=
    ⟨_, rfl, by cbv, by cbv⟩
  obtain ⟨code, hcode, hloops, hkept⟩ := hdecode
  refine ⟨code, hcode, countForEverInner, by simp [hloops], countForEverOuter, by simp [hloops], rfl, rfl,
    by decide, rfl, ?_⟩
  rw [hkept]
  decide

end FlowGraph

end JvmDecompiler
