import JvmDecompiler.Proofs.Search
import JvmDecompiler.Proofs.StructureRun
import Mathlib

/-!
# Which blocks are rendered

Structuring keeps a record of the blocks that it has rendered. Two things can be asked of it: that no
block is in it twice, and that, unless there is a warning, every block that control reaches is in it.

Neither holds of all methods. A block is taken when control comes to it only if it has not been
rendered, but the header and the update of a loop with an initialisation, and the latch of a loop that
tests behind its body, are taken with the loop, whether or not they have been rendered already; these are
the only blocks that can be in the record twice (`Runs.once`). And control goes on behind a loop where
the loop is said to end: if the condition in the latch leads elsewhere, nothing sees to the block that it
leads to. All other ways out of a block are seen to (`Runs.settles`).
-/

namespace JvmDecompiler

/-- The blocks of a loop that are rendered with it after something else has been: the header and the
update behind an initialisation, and the latch behind a body. -/
def Loop.lateParts (l : Loop) : List BlockId :=
  if l.init.isSome then l.header :: l.update.toList
  else if l.kind = .doWhile ∧ l.latch ≠ l.header then [l.latch]
  else []

namespace Loop.Fits

variable {l : Loop} {g : FlowGraph} {pool : ConstantPool}

/-- Only a `for` and a loop through elements have an initialisation, and what has none has no update. -/
theorem init_update_eq_none (h : l.Fits g pool) (hfor : l.kind ≠ .for) (heach : l.kind.isForEach = false) :
    l.init = none ∧ l.update = none := by
  have hinit : l.init = none := by
    cases hi : l.init with
    | none => rfl
    | some i => rcases h.initKind (by simp [hi]) with hk | hk <;> simp_all
  refine ⟨hinit, ?_⟩
  cases hu : l.update with
  | none => rfl
  | some u => simpa [hinit] using h.updateKind (by simp [hu])

/-- A loop of a kind that has no initialisation starts at its header. -/
theorem entry_eq (h : l.Fits g pool) (hfor : l.kind ≠ .for) (heach : l.kind.isForEach = false) :
    l.entry = l.header := by
  rw [Loop.entry, (h.init_update_eq_none hfor heach).1, Option.getD_none]

/-- A `continue` leads to the header of a loop that tests nowhere or in front of its body, if it has no
update. -/
theorem continueTarget_eq_header (h : l.Fits g pool) (hdo : l.kind ≠ .doWhile) (hfor : l.kind ≠ .for)
    (heach : l.kind.isForEach = false) : l.continueTarget = l.header := by
  rw [Loop.continueTarget, if_neg hdo, (h.init_update_eq_none hfor heach).2, Option.getD_none]

end Loop.Fits

namespace Structurer

variable {st : Structurer} {p q : Progress} {ns : List Note}

/-! ## Blocks rendered twice -/

/-- A block that is a late part of no loop. -/
def Plain (st : Structurer) (b : BlockId) : Prop := ∀ l ∈ st.loops, b ∉ l.lateParts

/-- No plain block has been rendered twice. -/
def Once (st : Structurer) (p : Progress) : Prop := ∀ b, st.Plain b → p.visited.count b ≤ 1

/-- Nothing is rendered twice if nothing new is rendered. -/
theorem Once.of_visited_eq (h : st.Once p) (hv : q.visited = p.visited) : st.Once q := by
  intro b hb
  rw [hv]
  exact h b hb

/-- Rendering a block that has not been rendered, or is a late part of a loop. -/
theorem Once.cons (h : st.Once p) {id : BlockId} (hv : q.visited = id :: p.visited)
    (hid : id ∉ p.visited ∨ ¬st.Plain id) : st.Once q := by
  intro b hb
  rw [hv, List.count_cons]
  by_cases heq : id = b
  · subst heq
    have hnot : id ∉ p.visited := hid.resolve_right fun hn => hn hb
    simp [List.count_eq_zero_of_not_mem hnot]
  · simpa [heq] using h b hb

/-- Folding renders only blocks that had not been rendered. -/
theorem Once.merges {members : List BlockId} {t u : Test} (h : st.Merges p members t u q)
    (hp : st.Once p) : st.Once q := by
  induction h with
  | done => exact hp
  | fold hfold _ ih =>
    obtain ⟨b, condition, htests⟩ := (st.folds_of_fold? hfold).testsOnly
    exact ih (hp.cons rfl (.inl htests.unvisited))

/-- Going somewhere renders nothing. -/
theorem visited_of_goes {stops : List BlockId} {target : Option BlockId} {jump : List Stmt}
    {next : Option BlockId} (h : st.Goes p stops target jump next q ns) : q.visited = p.visited := by
  cases h <;> rfl

/-- Going somewhere renders nothing twice. -/
theorem Once.goes {stops : List BlockId} {target : Option BlockId} {jump : List Stmt}
    {next : Option BlockId} (h : st.Goes p stops target jump next q ns) (hp : st.Once p) :
    st.Once q :=
  hp.of_visited_eq (visited_of_goes h)

/-- What the value of a conditional expression is computed by. -/
structure ValueBlock (st : Structurer) (p : Progress) (id join : BlockId) (b : Block) (value : Expr) :
    Prop where
  unvisited : id ∉ p.visited
  plain : st.startsStatement id = false
  block : st.graph.block? id = some b
  goes : b.terminator = .goto join ∨ b.terminator = .fallThrough join
  statements : (b.simulate st.ctx []).statements = []
  exitStack : (b.simulate st.ctx []).exitStack = [value]

/-- A block has a value if exactly one is on its stack. -/
theorem of_resultOfStack {stack : List Expr} {value : Expr} {target join : BlockId}
    (h : (match stack with
      | [value] => some (value, target)
      | _ => none) = some (value, join)) : stack = [value] ∧ target = join := by
  split at h
  · cases h
    exact ⟨rfl, rfl⟩
  · cases h

/-- An arm with a value is a block that only computes it. -/
theorem exists_valueBlock {id join : BlockId} {value : Expr}
    (h : st.valueBlock? p id = some (value, join)) : ∃ b, st.ValueBlock p id join b value := by
  simp only [valueBlock?, Option.bind_eq_bind, Option.bind_none, Option.pure_def,
    Option.ite_none_left_eq_some, Option.bind_eq_some_iff, Bool.or_eq_true, not_or] at h
  obtain ⟨⟨⟨hv, hplain⟩, -⟩, b, hb, h⟩ := h
  have hvisited : id ∉ p.visited := by simpa using hv
  have hstarts : st.startsStatement id = false := by simpa using hplain
  split at h
  · rw [Option.bind_some, Option.ite_none_left_eq_some] at h
    obtain ⟨hstack, rfl⟩ := of_resultOfStack h.2
    have hquiet : (b.simulate st.ctx []).statements = [] := by simp_all
    exact ⟨b, hvisited, hstarts, hb, .inl (by assumption), hquiet, hstack⟩
  · rw [Option.bind_some, Option.ite_none_left_eq_some] at h
    obtain ⟨hstack, rfl⟩ := of_resultOfStack h.2
    have hquiet : (b.simulate st.ctx []).statements = [] := by simp_all
    exact ⟨b, hvisited, hstarts, hb, .inr (by assumption), hquiet, hstack⟩
  · cases h

/-- Both arms of a conditional value are blocks that only compute a value, and come to the same join. -/
theorem of_conditionalValue? {t : Test} {thenValue elseValue : Expr} {join : BlockId}
    (h : st.conditionalValue? p t = some (thenValue, elseValue, join)) :
    t.taken ≠ t.fallthrough ∧ (∃ b, st.ValueBlock p t.taken join b thenValue) ∧
      ∃ b, st.ValueBlock p t.fallthrough join b elseValue := by
  simp only [conditionalValue?, Option.bind_eq_bind, Option.bind_none, Option.pure_def,
    Option.ite_none_left_eq_some, Option.bind_eq_some_iff, Option.some.injEq, Prod.mk.injEq] at h
  obtain ⟨hne, ⟨v, join₁⟩, hthen, ⟨w, join₂⟩, helse, hjoin, rfl, rfl, rfl⟩ := h
  obtain rfl : join₁ = join₂ := not_not.1 hjoin
  exact ⟨hne, exists_valueBlock hthen, exists_valueBlock helse⟩

/-- The initialisation or the update renders its block, if there is one. -/
theorem visited_of_run_headBlock {id : Option BlockId} {stmts : List Stmt}
    (h : (st.headBlock id).run p = some (stmts, q)) :
    q.visited = p.visited ∨ ∃ i ∈ id, q.visited = i :: p.visited := by
  cases hb : id.bind st.graph.block? with
  | none =>
    unfold headBlock at h
    rw [hb] at h
    cases h
    exact .inl rfl
  | some b =>
    obtain ⟨i, rfl, hb⟩ := Option.bind_eq_some_iff.1 hb
    cases h.symm.trans (st.run_headBlock hb)
    exact .inr ⟨i, rfl, by rw [visited_ran, FlowGraph.id_of_block? hb]⟩

/-- The condition of a loop renders its header. -/
theorem visited_of_run_loopCondition {l : Loop} {c : Expr × BlockId}
    (h : (st.loopCondition l).run p = some (c, q)) : q.visited = l.header :: p.visited := by
  unfold loopCondition at h
  rw [run_bind (run_visit l.header)] at h
  cases hb : st.graph.block? l.header with
  | none =>
    rw [hb] at h
    cases h
    rfl
  | some b =>
    rw [hb] at h
    dsimp only at h
    rw [run_bind (st.run_simulate b [])] at h
    split at h
    · split at h <;> cases h <;> rfl
    · cases h
      rfl

/-- The condition behind a body renders the latch, unless there is no such block. -/
theorem visited_of_run_latchCondition {l : Loop} {body : List Stmt} {r : List Stmt × Expr}
    (h : (st.latchCondition l body).run p = some (r, q)) :
    q.visited = l.latch :: p.visited ∨ st.graph.block? l.latch = none ∧ q = p := by
  unfold latchCondition at h
  cases hb : st.graph.block? l.latch with
  | none =>
    rw [hb] at h
    cases h
    exact .inr ⟨rfl, rfl⟩
  | some b =>
    rw [hb] at h
    dsimp only at h
    rw [run_bind (run_visit l.latch), run_bind (st.run_simulate b [])] at h
    split at h <;> cases h <;> exact .inl rfl

/-- A loop through elements renders nothing by itself. -/
theorem visited_of_run_forEachLoop {l : Loop} {init update body : List Stmt} {condition : Expr}
    {stmt : Stmt} (h : (st.forEachLoop l init condition update body).run p = some (stmt, q)) :
    q.visited = p.visited := by
  obtain ⟨stmt', ws, hrun⟩ := st.exists_run_forEachLoop (p := p) l init condition update body
  cases h.symm.trans hrun
  rfl

/-- The block at which a piece of work starts has not been rendered. -/
def Work.Fresh (st : Structurer) : Work → Progress → Prop
  | .element _ id .., p => id ∉ p.visited
  | .loop l _, p => l ∈ st.loops ∧ l.entry ∉ p.visited
  | _, _ => True

/-- A pending loop is one of the method, and starts at the block. -/
theorem of_pendingLoop? {id : BlockId} {l : Loop} (h : st.pendingLoop? p id = some l) :
    l ∈ st.loops ∧ l.entry = id := by
  obtain ⟨hfind, -⟩ := Option.filter_eq_some_iff.1 h
  exact ⟨List.mem_of_find?_eq_some hfind, by simpa using List.find?_some hfind⟩

/-- A loop with an initialisation renders it, which is where the loop starts, and then two late parts: the
header in front of the body, and the update behind it. -/
theorem Once.parts {l : Loop} {q₁ q₂ q₃ q₄ : Progress} {init update : List Stmt} {c : Expr × BlockId}
    (hp : st.Once p) (hl : l ∈ st.loops) (hentry : l.entry ∉ p.visited) (hinit : l.init.isSome = true)
    (hi : (st.headBlock l.init).run p = some (init, q₁)) (hc : (st.loopCondition l).run q₁ = some (c, q₂))
    (hbody : st.Once q₂ → st.Once q₃) (hu : (st.headBlock l.update).run q₃ = some (update, q₄)) :
    st.Once q₄ := by
  obtain ⟨i, hi'⟩ := Option.isSome_iff_exists.1 hinit
  have hlate : ∀ b ∈ l.header :: l.update.toList, ¬st.Plain b := fun b hb hplain =>
    hplain l hl (by rw [Loop.lateParts, if_pos hinit]; exact hb)
  rw [Loop.entry, hi', Option.getD_some] at hentry
  have h₁ : st.Once q₁ := by
    rcases visited_of_run_headBlock hi with hv | ⟨j, hj, hv⟩
    · exact hp.of_visited_eq hv
    · obtain rfl : i = j := Option.some.inj (hi'.symm.trans hj)
      exact hp.cons hv (.inl hentry)
  have h₂ : st.Once q₂ :=
    h₁.cons (visited_of_run_loopCondition hc) (.inr (hlate _ List.mem_cons_self))
  rcases visited_of_run_headBlock hu with hv | ⟨j, hj, hv⟩
  · exact (hbody h₂).of_visited_eq hv
  · refine (hbody h₂).cons hv (.inr (hlate j (List.mem_cons_of_mem _ ?_)))
    simpa using hj

/-- The two blocks that compute the values of a conditional expression are different ones, and neither has
been rendered. -/
theorem Once.values {t : Test} {thenValue elseValue : Expr} {join : BlockId} (hp : st.Once p)
    (hv : st.conditionalValue? p t = some (thenValue, elseValue, join)) :
    st.Once (p.rendered [t.fallthrough, t.taken]) := by
  obtain ⟨hne, ⟨_, hthen⟩, _, helse⟩ := of_conditionalValue? hv
  have htaken : st.Once (p.rendered [t.taken]) := hp.cons rfl (.inl hthen.unvisited)
  refine htaken.cons rfl (.inl fun hmem => ?_)
  rcases List.mem_cons.1 hmem with heq | hmem
  · exact hne heq.symm
  · exact helse.unvisited hmem

/-- The latch of a loop that tests behind its body, in another block than its header, is a late part. -/
theorem not_plain_latch {l : Loop} {pool : ConstantPool} (hl : l ∈ st.loops) (hfit : l.Fits st.graph pool)
    (hk : l.kind = .doWhile) (hself : l.latch ≠ l.header) : ¬st.Plain l.latch := by
  intro hplain
  have hinit := (hfit.init_update_eq_none (by simp [hk]) (by simp [hk, LoopKind.isForEach])).1
  refine hplain l hl ?_
  rw [Loop.lateParts, if_neg (by simp [hinit]), if_pos ⟨hk, hself⟩]
  exact List.mem_singleton_self _

/-- Only late parts of loops are rendered twice. By induction on the run: what a rule renders by itself has
not been rendered before, or is a late part. -/
theorem Runs.once {w : Work} (h : st.Runs w p q ns)
    (hfits : ∀ l ∈ st.loops, ∃ pool, l.Fits st.graph pool) (hw : w.Fresh st p) (hp : st.Once p) :
    st.Once q := by
  -- blocks are listed where they are written, and each place asks for one that is new
  induction h with
  | done | again | missing | leaves | noArms | noCatches | noFinally | ret => exact hp
  | step hv _ _ ihfirst ihrest => exact ihrest trivial (ihfirst hv hp)
  | branch hgo _ ih => exact ih trivial (hp.goes hgo)
  | run _ _ hb _ ih =>
    refine ih trivial (hp.cons (st.visited_ran _ _) (.inl ?_))
    rwa [FlowGraph.id_of_block? hb]
  | loop _ hl _ hgo ih =>
    obtain ⟨hmem, rfl⟩ := of_pendingLoop? hl
    exact .goes hgo (ih ⟨hmem, hw⟩ hp)
  | tryCatch _ _ _ _ _ hgo ihbody ihcatches ihfinal =>
    exact .goes hgo (ihfinal trivial (ihcatches trivial (ihbody trivial hp)))
  | goes _ hgo | jsr _ hgo => exact .goes hgo hp
  | value _ hm hv hgo => exact .goes hgo ((hp.merges hm).values hv)
  | test _ hm _ _ ih =>
    refine ih trivial ((hp.merges hm).of_visited_eq ?_)
    unfold dropped
    split <;> rfl
  | switch _ _ hgo ih => exact .goes hgo (ih trivial hp)
  | ifElse _ _ _ hgo ihthen ihelse =>
    exact .goes hgo (ihelse trivial (ihthen trivial hp))
  | arm _ _ ihbody ihrest => exact ihrest trivial (ihbody trivial hp)
  -- the head of a loop is written with the condition, unless a part of the loop holds it
  | whileLoop hk hc _ ih =>
    obtain ⟨pool, hfit⟩ := hfits _ hw.1
    refine ih trivial (hp.cons (visited_of_run_loopCondition hc) (.inl ?_))
    rw [← hfit.entry_eq (by simp [hk]) (by simp [hk, LoopKind.isForEach])]
    exact hw.2
  | forLoop hk hi hc _ hu ih =>
    obtain ⟨pool, hfit⟩ := hfits _ hw.1
    exact hp.parts hw.1 hw.2 (hfit.initOfKind (.inl hk)) hi hc (ih trivial) hu
  | forEach hk hi hc _ hu hs ih =>
    obtain ⟨pool, hfit⟩ := hfits _ hw.1
    exact (hp.parts hw.1 hw.2 (hfit.initOfKind (.inr hk)) hi hc (ih trivial) hu).of_visited_eq
      (visited_of_run_forEachLoop hs)
  | doWhileSelf hk hself hc =>
    obtain ⟨pool, hfit⟩ := hfits _ hw.1
    rcases visited_of_run_latchCondition hc with hv | ⟨-, rfl⟩
    · refine hp.cons hv (.inl ?_)
      rw [hself, ← hfit.entry_eq (by simp [hk]) (by simp [hk, LoopKind.isForEach])]
      exact hw.2
    · exact hp
  | doWhile hk hself _ hc ih =>
    obtain ⟨pool, hfit⟩ := hfits _ hw.1
    rcases visited_of_run_latchCondition hc with hv | ⟨-, rfl⟩
    · exact (ih trivial hp).cons hv (.inr (not_plain_latch hw.1 hfit hk hself))
    · exact ih trivial hp
  | endless _ _ ih => exact ih trivial hp
  | skipCatch _ _ ih => exact ih trivial hp
  | catchClause _ _ _ ihbody ihrest => exact ihrest trivial (ihbody trivial hp)
  | «finally» _ _ ih => exact ih trivial hp

/-! ## Ways out of a block -/

/-- A way out of the latch of a loop that tests behind its body that leads neither back to the header
nor to the place where the loop is said to end. -/
def Astray (st : Structurer) (b s : BlockId) : Prop :=
  ∃ l ∈ st.loops, l.kind = .doWhile ∧ l.latch = b ∧ s ≠ l.header ∧ l.exit ≠ some s

/-- The block has been rendered, unless it is not there. -/
def Reached (st : Structurer) (q : Progress) (s : BlockId) : Prop := s ∈ q.visited ∨ s ∉ st.graph.ids

/-- Where control may come to an end of a list: where the list ends, at the target of a jump out of an
enclosing statement, or at the block with which the list around goes on. -/
def Ends (stops : List BlockId) (bs : List Breakable) (next : Option BlockId) (s : BlockId) : Prop :=
  s ∈ stops ∨ isJumpTarget bs s = true ∨ next = some s

/-- Every way out of a block that has been rendered since leads to a block that has been rendered or to
one of `ends`, unless it goes astray. -/
def Closed (st : Structurer) (p q : Progress) (ends : BlockId → Prop) : Prop :=
  ∀ b ∈ q.visited, b ∉ p.visited → ∀ s ∈ st.graph.successors b,
    ¬st.Astray b s → st.Reached q s ∨ ends s

/-- What a piece of work has seen to when it is done. -/
def Work.Settles (st : Structurer) : Work → Progress → Progress → Prop
  | .list _ next stops _, p, q =>
    (∀ n ∈ next, st.Reached q n.1) ∧ st.Closed p q (Ends stops p.breakables none)
  | .element _ id _ stops result, p, q =>
    st.Reached q id ∧ st.Closed p q (Ends stops p.breakables (result.2.map (·.1)))
  | .block _ b _ stops result, p, q =>
    (∀ s ∈ b.terminator.successors,
      st.Reached q s ∨ Ends stops p.breakables (result.2.map (·.1)) s) ∧
    st.Closed p q (Ends stops p.breakables (result.2.map (·.1)))
  | .ifElse _ _ t stops result, p, q =>
    (∀ s ∈ [t.taken, t.fallthrough],
      st.Reached q s ∨ Ends stops p.breakables (result.2.map (·.1)) s) ∧
    st.Closed p q (Ends stops p.breakables (result.2.map (·.1)))
  | .branch target stops _, p, q =>
    (st.Reached q target ∨ Ends stops p.breakables none target) ∧
    st.Closed p q (Ends stops p.breakables none)
  | .arms join stops targets _, p, q =>
    (∀ a ∈ targets, st.Reached q a.1 ∨ Ends stops p.breakables join a.1) ∧
    st.Closed p q (Ends stops p.breakables join)
  | .loop l _, p, q =>
    l ∈ st.loops → p.breakables.head? = some (loopBreakable l) →
      (st.Reached q l.entry ∧ st.Reached q l.continueTarget) ∧
      st.Closed p q (Ends [] p.breakables none)
  | .catches inner handlers _, p, q =>
    (∀ h ∈ handlers, st.Reached q h.1) ∧ st.Closed p q (Ends inner p.breakables none)
  | .final inner handler _, p, q =>
    (∀ h ∈ handler, st.Reached q h) ∧ st.Closed p q (Ends inner p.breakables none)

/-- A block that has been reached stays so. -/
theorem Reached.extends {s : BlockId} (h : st.Reached p s) (he : p.Extends q) : st.Reached q s :=
  h.imp_left fun hmem => he.visited.subset hmem

/-- A rendered block has been reached. -/
theorem reached_of_mem {s : BlockId} (h : s ∈ q.visited) : st.Reached q s := .inl h

/-- If nothing has been rendered since, there are no ways out to follow. -/
theorem Closed.of_visited_eq {ends : BlockId → Prop} (h : q.visited = p.visited) :
    st.Closed p q ends := fun _ hb hnew => absurd (h ▸ hb) hnew

/-- Two stretches of work one after the other, where all that the first leaves open is seen to. -/
theorem Closed.trans {r : Progress} {e f ends : BlockId → Prop} (h₁ : st.Closed p q e)
    (h₂ : st.Closed q r f) (he : q.Extends r) (hends : ∀ s, e s → st.Reached r s ∨ ends s)
    (hends' : ∀ s, f s → st.Reached r s ∨ ends s) : st.Closed p r ends := by
  intro b hb hnew s hs hstray
  by_cases hq : b ∈ q.visited
  · rcases h₁ b hq hnew s hs hstray with hreached | hend
    · exact .inl (hreached.extends he)
    · exact hends s hend
  · rcases h₂ b hb hq s hs hstray with hreached | hend
    · exact .inl hreached
    · exact hends' s hend

/-- Some of the ends may have been reached in the meantime. -/
theorem Closed.mono {ends ends' : BlockId → Prop} (h : st.Closed p q ends)
    (hends : ∀ s, ends s → st.Reached q s ∨ ends' s) : st.Closed p q ends' :=
  h.trans (.of_visited_eq rfl) (.refl q) hends hends

/-- One more block, all of whose ways out are seen to. -/
theorem Closed.cons {id : BlockId} {ends : BlockId → Prop} (hv : q.visited = id :: p.visited)
    (hid : ∀ s ∈ st.graph.successors id, ¬st.Astray id s → st.Reached q s ∨ ends s) :
    st.Closed p q ends := by
  intro b hb hnew s hs hstray
  rw [hv] at hb
  rcases List.mem_cons.1 hb with rfl | hb
  · exact hid s hs hstray
  · exact absurd hb hnew

/-- The targets of jumps are those of the innermost statement and of those around it. -/
theorem isJumpTarget_cons {b : Breakable} {bs : List Breakable} {s : BlockId} :
    isJumpTarget (b :: bs) s = true ↔
      (b.continueTarget = some s ∨ b.breakTarget = some s) ∨ isJumpTarget bs s = true := by
  simp [isJumpTarget]

/-- A mark on a statement changes no target. -/
theorem isJumpTarget_congr {bs cs : List Breakable} (h : List.Forall₂ Breakable.Marks bs cs)
    (s : BlockId) : isJumpTarget cs s = isJumpTarget bs s := by
  induction h with
  | nil => rfl
  | cons hb _ ih =>
    obtain ⟨used, rfl⟩ := hb
    simp only [isJumpTarget, List.any_cons] at ih ⊢
    rw [ih]

/-- Progress leaves the ends of a list as they are. -/
theorem ends_of_extends {stops : List BlockId} {next : Option BlockId} {s : BlockId}
    (he : p.Extends q) : Ends stops q.breakables next s ↔ Ends stops p.breakables next s := by
  unfold Ends
  rw [isJumpTarget_congr he.breakables]

/-- Where a jump can be written for one to a block, the block is a target. -/
theorem isJumpTarget_of_jumpWithin {t : BlockId} {inner outer bs : List Breakable} {stmt : Stmt}
    (h : jumpWithin t inner outer = some (stmt, bs)) : isJumpTarget outer t = true := by
  induction outer generalizing inner with
  | nil => cases h
  | cons b outer ih =>
    unfold jumpWithin at h
    dsimp only at h
    simp only [isJumpTarget, List.any_cons, Bool.or_eq_true]
    split at h
    · rename_i hb
      exact .inl (by simpa using hb)
    · exact .inr (ih h)

/-- Where control goes is seen to when there is no warning. -/
theorem Goes.settles {stops : List BlockId} {t : BlockId} {jump : List Stmt} {next : Option BlockId}
    (h : st.Goes p stops (some t) jump next q ns) (hq : q.warnings = []) :
    st.Reached q t ∨ Ends stops p.breakables next t := by
  cases h with
  | stop ht => exact .inr (.inl ht)
  | jump _ hj => exact .inr (.inr (.inl (isJumpTarget_of_jumpWithin hj)))
  | goto => exact absurd hq (st.warnings_residual_ne_nil t)
  | next => exact .inr (.inr (.inr rfl))

/-- A list inside a statement ends at the join or where the list around ends. -/
theorem mem_innerStops {join : Option BlockId} {stops : List BlockId} {s : BlockId}
    (h : s ∈ innerStops p join stops) : join = some s ∨ s ∈ stops := by
  cases join with
  | none => exact .inr h
  | some j =>
    rcases List.mem_cons.1 h with rfl | h
    · exact .inl rfl
    · exact .inr (List.mem_filter.1 h).1

/-- The ways out of the blocks that are folded into a test are those of the test. -/
theorem Merges.settles {members : List BlockId} {t u : Test} (h : st.Merges p members t u q) :
    (∀ s ∈ [t.taken, t.fallthrough], st.Reached q s ∨ s = u.taken ∨ s = u.fallthrough) ∧
      st.Closed p q fun s => s = u.taken ∨ s = u.fallthrough := by
  induction h with
  | done => exact ⟨by simp, .of_visited_eq rfl⟩
  | @fold p q members t u v folded hfold hrest ih =>
    have hvisited : folded ∈ q.visited := hrest.extends.visited.subset List.mem_cons_self
    obtain ⟨hends, hclosed⟩ := ih
    -- the ways out of the folded block are those of the test that it makes
    suffices h : (∀ s ∈ [t.taken, t.fallthrough], s = folded ∨ s ∈ [u.taken, u.fallthrough]) ∧
        ∀ s ∈ st.graph.successors folded, s ∈ [u.taken, u.fallthrough] by
      refine ⟨fun s hs => ?_, Closed.trans (.cons rfl fun s hs _ => .inr (h.2 s hs)) hclosed
        hrest.extends hends fun s hs => .inr hs⟩
      rcases h.1 s hs with rfl | hs
      · exact .inl (reached_of_mem hvisited)
      · exact hends s hs
    have hsucc : ∀ {b : Block} {condition c : Expr} {x y : BlockId}, st.TestsOnly p folded b condition →
        Decides b condition c x y → ∀ s ∈ st.graph.successors folded, s = x ∨ s = y := by
      intro b condition c x y hb hc s hs
      obtain ⟨k, ⟨hk, -⟩ | ⟨hk, -⟩⟩ := hc
      · simp [FlowGraph.successors, hb.block, hk, Terminator.successors] at hs
        tauto
      · simp [FlowGraph.successors, hb.block, hk, Terminator.successors] at hs
        tauto
    cases st.folds_of_fold? hfold with
    | fallthrough hb hc => exact ⟨by simp, fun s hs => by simpa using hsucc hb hc s hs⟩
    | taken hb hc => exact ⟨by simp, fun s hs => by simpa using hsucc hb hc s hs⟩

/-! ### Joining stretches of work -/

/-- Once the block with which the list around goes on is reached, it is an end no more. -/
theorem Ends.resolve {stops : List BlockId} {bs : List Breakable} {next : Option BlockId} {s : BlockId}
    (h : Ends stops bs next s) (hnext : ∀ n ∈ next, st.Reached q n) :
    st.Reached q s ∨ Ends stops bs none s := by
  rcases h with h | h | h
  · exact .inr (.inl h)
  · exact .inr (.inr (.inl h))
  · exact .inl (hnext s h)

/-- The block with which a list goes on, without the values on its stack. -/
theorem map_fst_map_mk {next : Option BlockId} {stack : List Expr} :
    (next.map fun id => (id, stack)).map (·.1) = next := by
  cases next <;> rfl

/-- A start from which nothing new has been rendered does not matter. -/
theorem Closed.start {r : Progress} {ends : BlockId → Prop} (h : st.Closed q r ends)
    (hv : q.visited = p.visited) : st.Closed p r ends := fun b hb hnew => h b hb (hv ▸ hnew)

/-- Going somewhere renders nothing. -/
theorem Closed.goes {r : Progress} {ends : BlockId → Prop} {stops : List BlockId}
    {target : Option BlockId} {jump : List Stmt} {next : Option BlockId} (h : st.Closed p q ends)
    (hgo : st.Goes q stops target jump next r ns) : st.Closed p r ends := by
  intro b hb hnew s hs hstray
  rw [visited_of_goes hgo] at hb
  exact (h b hb hnew s hs hstray).imp_left fun hreached => hreached.extends hgo.extends

/-- A block that is not there needs no rendering. -/
theorem reached_of_block?_eq_none {id : BlockId} (h : st.graph.block? id = none) : st.Reached q id :=
  .inr fun hmem => by
    obtain ⟨b, hb⟩ := FlowGraph.mem_ids_iff.1 hmem
    simp [h] at hb

/-- The ways out of a block are those of its terminator. -/
theorem successors_eq {id : BlockId} {b : Block} (hb : st.graph.block? id = some b) :
    st.graph.successors id = b.terminator.successors := by
  rw [FlowGraph.successors, hb]

/-- A block in the head of a loop that leads only to one block. -/
theorem settles_headBlock {id : Option BlockId} {stmts : List Stmt} {t : BlockId}
    (h : (st.headBlock id).run p = some (stmts, q)) (hsucc : ∀ i ∈ id, st.graph.successors i = [t]) :
    (∀ i ∈ id, st.Reached q i) ∧ st.Closed p q (· = t) := by
  cases id with
  | none =>
    cases h.symm.trans (show (st.headBlock none).run p = some ([], p) from rfl)
    exact ⟨by simp, .of_visited_eq rfl⟩
  | some i =>
    cases hb : st.graph.block? i with
    | none => simp [FlowGraph.successors, hb] at hsucc
    | some b =>
      cases h.symm.trans (st.run_headBlock hb)
      have hid : b.id = i := FlowGraph.id_of_block? hb
      refine ⟨fun j hj => reached_of_mem ?_, .cons (st.visited_ran b []) fun s hs _ => .inr ?_⟩
      · obtain rfl : i = j := by simpa using hj
        simp [hid]
      · rw [hid, hsucc i rfl] at hs
        exact List.mem_singleton.1 hs

/-- Inside a loop, a jump leads to where the loop ends. -/
theorem ends_exit {l : Loop} {s : BlockId} (hbs : p.breakables.head? = some (loopBreakable l))
    (hs : l.exit = some s) : Ends [] p.breakables none s := by
  cases hlist : p.breakables with
  | nil => simp [hlist] at hbs
  | cons b bs =>
    obtain rfl : b = loopBreakable l := by simpa [hlist] using hbs
    exact .inr (.inl (isJumpTarget_cons.2 (.inl (.inr hs))))

/-- The latch of a loop that tests behind its body leads back to the header, to the place where the loop
is said to end, or astray. -/
theorem settles_latch {l : Loop} {body : List Stmt} {r : List Stmt × Expr} (hl : l ∈ st.loops)
    (hk : l.kind = .doWhile) (h : (st.latchCondition l body).run p = some (r, q)) :
    st.Reached q l.latch ∧ st.Closed p q fun s => s = l.header ∨ l.exit = some s := by
  rcases visited_of_run_latchCondition h with hv | ⟨hnone, rfl⟩
  · refine ⟨reached_of_mem (hv ▸ List.mem_cons_self), .cons hv fun s _ hstray => .inr ?_⟩
    by_contra hnot
    rw [not_or] at hnot
    exact hstray ⟨l, hl, hk, rfl, hnot.1, hnot.2⟩
  · exact ⟨reached_of_block?_eq_none hnone, .of_visited_eq rfl⟩

/-- A loop that tests first sees to its parts and to all that its body leaves open. -/
theorem settles_parts {l : Loop} {q₁ q₂ q₃ q₄ : Progress} {init update : List Stmt} {c : Expr × BlockId}
    {pool : ConstantPool} (hfit : l.Fits st.graph pool) (hk : l.kind.testsFirst = true)
    (hbs : p.breakables.head? = some (loopBreakable l))
    (hi : (st.headBlock l.init).run p = some (init, q₁))
    (hc : (st.loopCondition l).run q₁ = some (c, q₂)) (hext : q₂.Extends q₃)
    (hu : (st.headBlock l.update).run q₃ = some (update, q₄))
    (hentry : st.Reached q₃ c.2 ∨ Ends [l.continueTarget] q₂.breakables none c.2)
    (hclosed : st.Closed q₂ q₃ (Ends [l.continueTarget] q₂.breakables none)) :
    (st.Reached q₄ l.entry ∧ st.Reached q₄ l.continueTarget) ∧
      st.Closed p q₄ (Ends [] p.breakables none) := by
  obtain ⟨-, b, inside, outside, htest⟩ := hfit.headerTest hk
  obtain ⟨c', hrun, -⟩ := st.run_loopCondition (p := q₁) htest
  cases hc.symm.trans hrun
  have hid : b.id = l.header := FlowGraph.id_of_block? htest.block
  obtain ⟨hinit, hclosed₁⟩ := settles_headBlock hi hfit.init
  obtain ⟨hupdate, hclosed₄⟩ := settles_headBlock hu fun u hu => (hfit.update u hu).2
  have hext₁ := extends_of_run_headBlock hi
  have hext₄ := extends_of_run_headBlock hu
  have hext₂ : q₁.Extends (st.ran b [] q₁) := st.extends_ran b []
  have hheader : st.Reached q₄ l.header :=
    (reached_of_mem (by simp [hid])).extends (hext.trans hext₄)
  have hcontinue : st.Reached q₄ l.continueTarget := by
    have hnot : l.kind ≠ .doWhile := fun h => by simp [h, LoopKind.testsFirst] at hk
    rw [Loop.continueTarget, if_neg hnot]
    cases hupd : l.update with
    | none => exact hheader
    | some u => exact hupdate u hupd
  -- what the body leaves open is open behind the loop
  have hends : ∀ s, Ends [l.continueTarget] (st.ran b [] q₁).breakables none s →
      st.Reached q₄ s ∨ Ends [] p.breakables none s := by
    rintro s (hs | hs | hs)
    · rw [List.mem_singleton.1 hs]
      exact .inl hcontinue
    · rw [breakables_ran, isJumpTarget_congr hext₁.breakables] at hs
      exact .inr (.inr (.inl hs))
    · cases hs
  have hbranch : ∀ s, s = inside ∨ s = outside → st.Reached q₄ s ∨ Ends [] p.breakables none s := by
    rintro s (rfl | rfl)
    · rcases hentry with h | h
      · exact .inl (h.extends hext₄)
      · exact hends s h
    · exact .inr (ends_exit hbs htest.exit)
  have hsucc : ∀ s ∈ st.graph.successors l.header, s = inside ∨ s = outside := by
    intro s hs
    rw [successors_eq htest.block] at hs
    obtain ⟨k, hk | hk⟩ := htest.branch
    · simp only [hk, Terminator.successors, List.mem_eraseDups, List.mem_cons, List.not_mem_nil,
        or_false] at hs
      exact hs.symm
    · simpa only [hk, Terminator.successors, List.mem_eraseDups, List.mem_cons, List.not_mem_nil,
        or_false] using hs
  have hclosed₂ : st.Closed q₁ (st.ran b [] q₁) fun s => s = inside ∨ s = outside :=
    .cons (st.visited_ran b []) fun s hs _ => .inr (hsucc s (hid ▸ hs))
  refine ⟨⟨?_, hcontinue⟩, ?_⟩
  · cases hin : l.init with
    | none => simpa [Loop.entry, hin] using hheader
    | some i =>
      have := (hinit i hin).extends (hext₂.trans (hext.trans hext₄))
      simpa [Loop.entry, hin] using this
  · refine hclosed₁.trans (f := Ends [] p.breakables none) ?_ (hext₂.trans (hext.trans hext₄))
      (fun s hs => .inl (hs ▸ hheader)) fun s hs => .inr hs
    refine hclosed₂.trans (f := Ends [] p.breakables none) ?_ (hext.trans hext₄) hbranch
      fun s hs => .inr hs
    exact hclosed.trans hclosed₄ hext₄ hends fun s hs => .inl (hs ▸ hheader)

/-- Every way out of a switch is an arm or the place behind it. -/
theorem exists_mem_switchArms {default s : BlockId} {cases : List (Int32 × BlockId)}
    (join : Option BlockId) (h : s ∈ (Terminator.switch default cases).successors) :
    (∃ labels, (s, labels) ∈ switchArms default cases join) ∨ join = some s := by
  by_cases hjoin : join = some s
  · exact .inr hjoin
  · refine .inl ⟨_, List.mem_map.2 ⟨s, ?_, rfl⟩⟩
    simp only [sortedSet, List.mem_mergeSort, List.mem_eraseDups, List.map_append, List.map_map,
      List.mem_append]
    simp only [Terminator.successors, List.mem_eraseDups, List.mem_append, List.mem_singleton] at h
    rcases h with h | rfl
    · exact .inl (by simpa [Function.comp_def] using h)
    · exact .inr (by simp [hjoin])

/-- A statement that only `break` leaves leaves open what is open behind it. -/
theorem Ends.of_entered {stops : List BlockId} {join : Option BlockId} {head : BlockId} {s : BlockId}
    (h : Ends stops (p.entered (switchBreakable head join)).breakables join s) :
    join = some s ∨ Ends stops p.breakables none s := by
  rcases h with h | h | h
  · exact .inr (.inl h)
  · rcases isJumpTarget_cons.1 h with (h | h) | h
    · cases h
    · exact .inl h
    · exact .inr (.inr (.inl h))
  · exact .inl h

/-- A handler of a try statement is that of a clause or of the `finally` part. -/
theorem mem_handlers {r : TryRegion} {h : BlockId} (hh : h ∈ r.handlers) :
    (∃ c ∈ r.catches, c.1 = h) ∨ h ∈ r.finally? := by
  simp only [TryRegion.handlers, sortedSet, List.mem_mergeSort, List.mem_eraseDups, List.mem_append,
    List.mem_map, Option.mem_toList] at hh
  exact hh

/-! ### What each rule sees to

There is one lemma for each rule that joins several stretches of work. It assumes what the stretches see to
and shows what they see to together; `Runs.settles` puts the lemmas together. -/

/-- Where control goes on behind a statement is seen to, with the jumps of the list around. -/
theorem Goes.settles_join {r : Progress} {join next : Option BlockId} {jump : List Stmt}
    {stops : List BlockId} {bs : List Breakable} {s : BlockId} (hgo : st.Goes q stops join jump next r ns)
    (hr : r.warnings = []) (hbs : ∀ s, isJumpTarget q.breakables s = isJumpTarget bs s)
    (hs : join = some s) : st.Reached r s ∨ Ends stops bs next s := by
  subst hs
  refine (hgo.settles hr).imp_right ?_
  unfold Ends
  rw [hbs]
  exact id

/-- What a list inside a statement leaves open is seen to when the join is. -/
theorem settle_inner {r : Progress} {join next : Option BlockId} {jump : List Stmt}
    {stops : List BlockId} {bs : List Breakable} (hgo : st.Goes q stops join jump next r ns)
    (hr : r.warnings = []) (hbs : ∀ s, isJumpTarget q.breakables s = isJumpTarget bs s) {s : BlockId}
    (h : Ends (innerStops p join stops) bs none s) : st.Reached r s ∨ Ends stops bs next s := by
  rcases h with hmem | hjump | hnone
  · rcases mem_innerStops hmem with hs | hmem
    · exact hgo.settles_join hr hbs hs
    · exact .inr (.inl hmem)
  · exact .inr (.inr (.inl hjump))
  · cases hnone

/-- The ways out of a branch are its two arms. -/
theorem mem_of_mem_successors_branch {k : BranchCondition} {ifTrue ifFalse s : BlockId}
    (h : s ∈ (Terminator.branch k ifTrue ifFalse).successors) : s ∈ [ifTrue, ifFalse] := by
  rw [Terminator.successors, List.mem_eraseDups] at h
  simpa [or_comm] using h

/-- A list sees to what its first element leaves open, as that goes on with the rest of the list. -/
theorem settles_step {r : Progress} {out result : List Stmt} {id : BlockId} {stack : List Expr}
    {stops : List BlockId} {reached : Partial} (hpq : p.Extends q) (hqr : q.Extends r)
    (hfirst : Work.Settles st (.element out id stack stops reached) p q)
    (hrest : Work.Settles st (.list reached.1 reached.2 stops result) q r) :
    Work.Settles st (.list out (some (id, stack)) stops result) p r := by
  obtain ⟨hid, hclosed⟩ := hfirst
  obtain ⟨hnext, hclosed'⟩ := hrest
  refine ⟨by simpa using hid.extends hqr,
    hclosed.trans hclosed' hqr (fun s hs => hs.resolve fun n hn => ?_) fun s hs => ?_⟩
  · obtain ⟨next, hmem, rfl⟩ := Option.map_eq_some_iff.1 hn
    exact hnext next hmem
  · exact .inr ((ends_of_extends hpq).1 hs)

/-- A branch sees to the block that it leads to, which the list behind it may start with. -/
theorem settles_branch {r : Progress} {target : BlockId} {stops : List BlockId} {jump result : List Stmt}
    {next : Option BlockId} (hgo : st.Goes p stops (some target) jump next q ns) (hqr : q.Extends r)
    (hr : r.warnings = []) (hrest : Work.Settles st (.list jump (next.map (·, [])) stops result) q r) :
    Work.Settles st (.branch target stops result) p r := by
  obtain ⟨hnext, hclosed⟩ := hrest
  refine ⟨?_, (hclosed.mono fun s hs => .inr ((ends_of_extends hgo.extends).1 hs)).start
    (visited_of_goes hgo)⟩
  rcases hgo.settles (hqr.of_warnings_eq_nil hr) with h | h
  · exact .inl (h.extends hqr)
  · exact h.resolve fun n hn => hnext (n, []) (by simp [Option.mem_def.1 hn])

/-- A block that is rendered leaves its own ways out open, and what follows it sees to them. -/
theorem settles_run {out result' : List Stmt} {id : BlockId} {stack : List Expr} {stops : List BlockId}
    {b : Block} {result : Partial} (hb : st.graph.block? id = some b)
    (hext : (st.ran b stack p).Extends q)
    (hrest : Work.Settles st (.block result' b (b.simulate st.ctx stack) stops result) (st.ran b stack p) q) :
    Work.Settles st (.element out id stack stops result) p q := by
  obtain ⟨hsucc, hclosed⟩ := hrest
  have hid : b.id = id := FlowGraph.id_of_block? hb
  have hfirst : st.Closed p (st.ran b stack p) (· ∈ b.terminator.successors) :=
    .cons (st.visited_ran b stack) fun s hs _ => .inr (by rwa [hid, successors_eq hb] at hs)
  refine ⟨reached_of_mem (hext.visited.subset ?_),
    hfirst.trans hclosed hext hsucc fun s hs => .inr hs⟩
  simp [hid]

/-- Behind a loop, control goes on where the loop ends; a `continue` stays inside. -/
theorem settles_loop {r : Progress} {out : List Stmt} {result : List Stmt} {stack : List Expr}
    {stops : List BlockId} {l : Loop} {stmt : Stmt} {jump : List Stmt} {next : Option BlockId}
    (hl : l ∈ st.loops) (hext : ((p.started l.header).entered (loopBreakable l)).Extends q)
    (hbody : Work.Settles st (.loop l stmt) ((p.started l.header).entered (loopBreakable l)) q)
    (hgo : st.Goes q.left stops l.exit jump next r ns) (hr : r.warnings = []) :
    Work.Settles st (.element out l.entry stack stops (result, next.map (·, []))) p r := by
  obtain ⟨⟨hentry, hcontinue⟩, hclosed⟩ := hbody hl rfl
  have hreached : ∀ {s}, st.Reached q s → st.Reached r s := fun h =>
    Reached.extends (p := q.left) h hgo.extends
  have hbs : ∀ s, isJumpTarget q.left.breakables s = isJumpTarget p.breakables s :=
    isJumpTarget_congr hext.left.breakables
  refine ⟨hreached hentry, ((Closed.goes (q := q.left) hclosed hgo).mono fun s hs => ?_).start rfl⟩
  rw [map_fst_map_mk]
  rcases hs with hs | hs | hs
  · cases hs
  · rcases isJumpTarget_cons.1 hs with (hs | hexit) | hs
    · exact .inl (Option.some.inj hs ▸ hreached hcontinue)
    · exact hgo.settles_join hr hbs hexit
    · exact .inr (.inr (.inl hs))
  · cases hs

/-- A try statement: the lists inside end at the handlers, at the continuation, or where the list around
ends, and the handlers are rendered by the clauses. -/
theorem settles_tryCatch {q₁ q₂ q₃ r : Progress} {out result : List Stmt} {id : BlockId} {stack : List Expr}
    {stops : List BlockId} {i : Nat} {region : TryRegion} {body : List Stmt} {clauses : List CatchClause}
    {last : List CatchClause × Option (List Stmt)} {jump : List Stmt} {next : Option BlockId}
    (hi : st.pendingTry? p id = some i) (hr : st.regions[i]? = some region)
    (hext₁ : (p.tried i).Extends q₁) (hext₂ : q₁.Extends q₂) (hext₃ : q₂.Extends q₃)
    (hbody : Work.Settles st (.list [] (some (region.start, []))
      (region.handlers ++ innerStops p (st.continuation? region) stops) body) (p.tried i) q₁)
    (hcatches : Work.Settles st (.catches (region.handlers ++ innerStops p (st.continuation? region) stops)
      region.catches clauses) q₁ q₂)
    (hfinal : Work.Settles st (.final (region.handlers ++ innerStops p (st.continuation? region) stops)
      region.finally? last) q₂ q₃)
    (hgo : st.Goes q₃ stops (st.continuation? region) jump next r ns) (hquiet : r.warnings = []) :
    Work.Settles st (.element out id stack stops (result, next.map (·, []))) p r := by
  obtain ⟨hstart, hclosed₁⟩ := hbody
  obtain ⟨hhandlers, hclosed₂⟩ := hcatches
  obtain ⟨hlast, hclosed₃⟩ := hfinal
  have hrest₂ : q₂.Extends r := hext₃.trans hgo.extends
  have hrest₁ : q₁.Extends r := hext₂.trans hrest₂
  have hbs₁ : p.Extends q₁ := (p.extends_tried i).trans hext₁
  have hbs₂ : p.Extends q₂ := hbs₁.trans hext₂
  have hbs₃ : ∀ s, isJumpTarget q₃.breakables s = isJumpTarget p.breakables s :=
    isJumpTarget_congr (hbs₂.trans hext₃).breakables
  have hends : ∀ s, Ends (region.handlers ++ innerStops p (st.continuation? region) stops)
      p.breakables none s → st.Reached r s ∨ Ends stops p.breakables next s := by
    rintro s (hs | hs)
    · rcases List.mem_append.1 hs with hs | hs
      · rcases mem_handlers hs with ⟨c, hc, rfl⟩ | hs
        · exact .inl ((hhandlers c hc).extends hrest₂)
        · exact .inl ((hlast s hs).extends hgo.extends)
      · exact settle_inner (p := p) hgo hquiet hbs₃ (.inl hs)
    · exact settle_inner (p := p) hgo hquiet hbs₃ (.inr hs)
  obtain ⟨-, region', hr', rfl⟩ := of_pendingTry? hi
  obtain rfl : region = region' := Option.some.inj (hr.symm.trans hr')
  -- the stretches one after the other, from the last to the first
  have hclosed₃' : st.Closed q₂ r (Ends stops p.breakables next) :=
    (hclosed₃.goes hgo).mono fun s hs => hends s ((ends_of_extends hbs₂).1 hs)
  have hclosed₂' : st.Closed q₁ r (Ends stops p.breakables next) :=
    hclosed₂.trans hclosed₃' hrest₂ (fun s hs => hends s ((ends_of_extends hbs₁).1 hs)) fun s hs => .inr hs
  refine ⟨(hstart _ rfl).extends hrest₁, ?_⟩
  rw [map_fst_map_mk]
  exact (hclosed₁.trans hclosed₂' hrest₁ hends fun s hs => .inr hs).start rfl

/-- The blocks that compute the two values of a conditional expression go on to the same place. -/
theorem closed_values {t : Test} {thenValue elseValue : Expr} {join : BlockId}
    (hv : st.conditionalValue? q t = some (thenValue, elseValue, join)) :
    st.Closed q (q.rendered [t.fallthrough, t.taken]) (· = join) := by
  obtain ⟨-, ⟨c, hthen⟩, d, helse⟩ := of_conditionalValue? hv
  intro x hx hnew s hs _
  have hone : ∀ {id : BlockId} {c : Block} {v : Expr}, st.ValueBlock q id join c v → x = id →
      s = join := by
    rintro id c v hblock rfl
    rw [successors_eq hblock.block] at hs
    rcases hblock.goes with h | h <;> rw [h, Terminator.successors] at hs <;>
      exact List.mem_singleton.1 hs
  simp only [Progress.visited_rendered, List.cons_append, List.nil_append, List.mem_cons] at hx
  rcases hx with hx | hx | hx
  · exact .inr (hone helse hx)
  · exact .inr (hone hthen hx)
  · exact absurd hx hnew

/-- A conditional expression: the ways out of the test lead to the two blocks that compute its values, and
these are rendered with it. -/
theorem settles_value {r : Progress} {out result : List Stmt} {b : Block} {sim : SimulatedBlock}
    {stops : List BlockId} {k : BranchCondition} {ifTrue ifFalse join : BlockId} {t : Test}
    {thenValue elseValue : Expr} {stack : List Expr} {jump : List Stmt} {next : Option BlockId}
    (hb : b.terminator = .branch k ifTrue ifFalse)
    (hm : st.Merges p [b.id] (testOf sim ifTrue ifFalse) t q)
    (hv : st.conditionalValue? q t = some (thenValue, elseValue, join))
    (hgo : st.Goes (q.rendered [t.fallthrough, t.taken]) stops (some join) jump next r ns)
    (hr : r.warnings = []) :
    Work.Settles st (.block out b sim stops (result, next.map (·, stack))) p r := by
  obtain ⟨htest, hclosed⟩ := hm.settles
  have hext : q.Extends r := (Progress.extends_rendered q _).trans hgo.extends
  have hvisited : ∀ s, s = t.taken ∨ s = t.fallthrough → st.Reached r s := by
    intro s hs
    refine (reached_of_mem ?_).extends hgo.extends
    rcases hs with rfl | rfl <;> simp
  have hjoin : st.Reached r join ∨ Ends stops p.breakables next join :=
    hgo.settles_join hr (isJumpTarget_congr hm.extends.breakables) rfl
  have hvalues : st.Closed q r (Ends stops p.breakables next) :=
    ((closed_values hv).goes hgo).mono fun s hs => hs ▸ hjoin
  rw [Work.Settles, map_fst_map_mk]
  refine ⟨fun s hs => ?_,
    hclosed.trans hvalues hext (fun s hs => .inl (hvisited s hs)) fun s hs => .inr hs⟩
  rw [hb] at hs
  rcases htest s (mem_of_mem_successors_branch hs) with h | h
  · exact .inl (h.extends hext)
  · exact .inl (hvisited s h)

/-- The warning that statements are dropped renders nothing. -/
theorem visited_dropped (head : BlockId) (sim : SimulatedBlock) (p : Progress) :
    (st.dropped head sim p).visited = p.visited := by
  unfold dropped
  split <;> rfl

/-- A test that becomes an `if`: the ways out of the blocks folded into it are those of the `if`. -/
theorem settles_test {r : Progress} {out : List Stmt} {b : Block} {sim : SimulatedBlock} {stops : List BlockId}
    {k : BranchCondition} {ifTrue ifFalse : BlockId} {t : Test} {result : Partial}
    (hb : b.terminator = .branch k ifTrue ifFalse) (hm : st.Merges p [b.id] (testOf sim ifTrue ifFalse) t q)
    (hext : (st.dropped b.id sim q).Extends r)
    (hrest : Work.Settles st (.ifElse out b.id t stops result) (st.dropped b.id sim q) r) :
    Work.Settles st (.block out b sim stops result) p r := by
  obtain ⟨hends, hclosed⟩ := hrest
  obtain ⟨htest, hfolded⟩ := hm.settles
  have hqr : q.Extends r := (extends_dropped b.id sim).trans hext
  have hbs : p.Extends (st.dropped b.id sim q) := hm.extends.trans (extends_dropped b.id sim)
  have hout : ∀ s, s = t.taken ∨ s = t.fallthrough →
      st.Reached r s ∨ Ends stops p.breakables (result.2.map (·.1)) s := fun s hs =>
    (hends s (by simpa using hs)).imp_right (ends_of_extends hbs).1
  refine ⟨fun s hs => ?_, hfolded.trans (hclosed.start (visited_dropped b.id sim q)) hqr hout
    fun s hs => .inr ((ends_of_extends hbs).1 hs)⟩
  rw [hb] at hs
  rcases htest s (mem_of_mem_successors_branch hs) with h | h
  · exact .inl (h.extends hqr)
  · exact hout s h

/-- A switch: its ways out are its arms or lead behind it. -/
theorem settles_switch {r : Progress} {out result : List Stmt} {b : Block} {sim : SimulatedBlock}
    {stops : List BlockId} {default : BlockId} {cases : List (Int32 × BlockId)} {arms : List SwitchCase}
    {join : Option BlockId} {jump : List Stmt} {next : Option BlockId}
    (hb : b.terminator = .switch default cases)
    (hext : (p.entered (switchBreakable b.id join)).Extends q)
    (harms : Work.Settles st (.arms join stops (switchArms default cases join) arms)
      (p.entered (switchBreakable b.id join)) q)
    (hgo : st.Goes q.left stops join jump next r ns) (hr : r.warnings = []) :
    Work.Settles st (.block out b sim stops (result, next.map (·, []))) p r := by
  obtain ⟨hends, hclosed⟩ := harms
  have hbs : ∀ s, isJumpTarget q.left.breakables s = isJumpTarget p.breakables s :=
    isJumpTarget_congr hext.left.breakables
  -- an arm ends at the join or at a jump to something around the switch
  have hjoin : ∀ s, Ends stops (p.entered (switchBreakable b.id join)).breakables join s →
      st.Reached r s ∨ Ends stops p.breakables next s := by
    intro s hs
    rcases hs.of_entered with hjoin | hs
    · exact hgo.settles_join hr hbs hjoin
    · exact .inr (hs.imp_right (·.imp_right fun h => by cases h))
  rw [Work.Settles, map_fst_map_mk]
  refine ⟨fun s hs => ?_, ((Closed.goes (q := q.left) hclosed hgo).mono hjoin).start rfl⟩
  rw [hb] at hs
  -- every case has its arm, and the default one too unless it is the join
  rcases exists_mem_switchArms join hs with ⟨labels, hmem⟩ | hs
  · rcases hends _ hmem with h | h
    · exact .inl (Reached.extends (p := q.left) h hgo.extends)
    · exact hjoin s h
  · exact hjoin s (.inr (.inr hs))

/-- An `if`: its ways out are the starts of its arms, and both arms end at the join or where the list around
ends. -/
theorem settles_ifElse {q₁ q₂ r : Progress} {out result : List Stmt} {head : BlockId} {t : Test}
    {stops : List BlockId} {join : Option BlockId} {thenBody elseBody jump : List Stmt}
    {next : Option BlockId} (hext₁ : p.Extends q₁) (hext₂ : q₁.Extends q₂)
    (hthen : Work.Settles st (.branch (armsOf t join).2.1 (innerStops p join stops) thenBody) p q₁)
    (helse : Work.Settles st (.branch (armsOf t join).2.2 (innerStops p join stops) elseBody) q₁ q₂)
    (hgo : st.Goes q₂ stops join jump next r ns) (hr : r.warnings = []) :
    Work.Settles st (.ifElse out head t stops (result, next.map (·, []))) p r := by
  obtain ⟨hthenEnds, hclosed₁⟩ := hthen
  obtain ⟨helseEnds, hclosed₂⟩ := helse
  have hext : q₁.Extends r := hext₂.trans hgo.extends
  have hbs := isJumpTarget_congr (hext₁.trans hext₂).breakables
  have hends : ∀ s, Ends (innerStops p join stops) p.breakables none s →
      st.Reached r s ∨ Ends stops p.breakables next s := fun s => settle_inner hgo hr hbs
  -- the arms end at the join, or where the statement does
  have hends₁ : ∀ s, Ends (innerStops p join stops) q₁.breakables none s →
      st.Reached r s ∨ Ends stops p.breakables next s := fun s hs =>
    hends s ((ends_of_extends hext₁).1 hs)
  have hthenStart : st.Reached r (armsOf t join).2.1 ∨
      Ends stops p.breakables next (armsOf t join).2.1 := by
    rcases hthenEnds with h | h
    · exact .inl (h.extends hext)
    · exact hends _ h
  have helseStart : st.Reached r (armsOf t join).2.2 ∨
      Ends stops p.breakables next (armsOf t join).2.2 := by
    rcases helseEnds with h | h
    · exact .inl (h.extends hgo.extends)
    · exact hends₁ _ h
  rw [Work.Settles, map_fst_map_mk]
  refine ⟨?_, hclosed₁.trans ((hclosed₂.goes hgo).mono hends₁) hext hends fun s hs => .inr hs⟩
  unfold armsOf at hthenStart helseStart
  split at hthenStart <;> simp_all

/-- An arm of a switch ends at the next one, at the end of the switch, or where the list around ends. -/
theorem settles_arm {r : Progress} {join : Option BlockId} {stops : List BlockId} {target : BlockId}
    {labels : List (Option Int32)} {rest : List (BlockId × List (Option Int32))} {body : List Stmt}
    {others result : List SwitchCase} (hpq : p.Extends q) (hqr : q.Extends r)
    (hbody : Work.Settles st (.branch target (innerStops p
      (if (rest.head?.map (·.1)).isSome then rest.head?.map (·.1) else join) stops) body) p q)
    (hrest : Work.Settles st (.arms join stops rest others) q r) :
    Work.Settles st (.arms join stops ((target, labels) :: rest) result) p r := by
  obtain ⟨htarget, hclosed₁⟩ := hbody
  obtain ⟨hothers, hclosed₂⟩ := hrest
  have hothers' : ∀ a ∈ rest, st.Reached r a.1 ∨ Ends stops p.breakables join a.1 := fun a ha =>
    (hothers a ha).imp_right (ends_of_extends hpq).1
  -- an arm ends where the next one begins, the last one at the join
  have hends : ∀ s, Ends (innerStops p (if (rest.head?.map (·.1)).isSome then rest.head?.map (·.1)
      else join) stops) p.breakables none s → st.Reached r s ∨ Ends stops p.breakables join s := by
    rintro s (hs | hs | hs)
    · rcases mem_innerStops hs with hs | hs
      · split at hs
        · obtain ⟨a, ha, rfl⟩ := Option.map_eq_some_iff.1 hs
          exact hothers' a (List.mem_of_mem_head? ha)
        · exact .inr (.inr (.inr hs))
      · exact .inr (.inl hs)
    · exact .inr (.inr (.inl hs))
    · cases hs
  refine ⟨fun a ha => ?_, hclosed₁.trans hclosed₂ hqr hends fun s hs =>
    .inr ((ends_of_extends hpq).1 hs)⟩
  rcases List.mem_cons.1 ha with rfl | ha
  · rcases htarget with h | h
    · exact .inl (h.extends hqr)
    · exact hends _ h
  · exact hothers' a ha

/-- A loop that tests first, in its header. It has neither an initialisation nor an update, which is as if
these did nothing. -/
theorem settles_whileLoop {r : Progress} {l : Loop} {pool : ConstantPool} {condition : Expr} {entry : BlockId}
    {body : List Stmt} (hfit : l.Fits st.graph pool) (hk : l.kind = .while)
    (hbs : p.breakables.head? = some (loopBreakable l))
    (hc : (st.loopCondition l).run p = some ((condition, entry), q)) (hext : q.Extends r)
    (hbody : Work.Settles st (.branch entry [l.header] body) q r) :
    (st.Reached r l.entry ∧ st.Reached r l.continueTarget) ∧ st.Closed p r (Ends [] p.breakables none) := by
  obtain ⟨hentry, hclosed⟩ := hbody
  have hkind : l.kind ≠ .doWhile ∧ l.kind ≠ .for ∧ l.kind.isForEach = false := by
    simp [hk, LoopKind.isForEach]
  obtain ⟨hinit, hupdate⟩ := hfit.init_update_eq_none hkind.2.1 hkind.2.2
  have hcontinue := hfit.continueTarget_eq_header hkind.1 hkind.2.1 hkind.2.2
  have hnothing : (st.headBlock none).run = fun p => some ([], p) := rfl
  refine settles_parts hfit (by simp [hk, LoopKind.testsFirst]) hbs (by rw [hinit, hnothing]) hc
    hext (by rw [hupdate, hnothing]) ?_ ?_
  · rwa [hcontinue]
  · rwa [hcontinue]

/-- A loop that tests in its only block. -/
theorem settles_doWhileSelf {l : Loop} {pool : ConstantPool} {c : List Stmt × Expr} (hl : l ∈ st.loops)
    (hfit : l.Fits st.graph pool) (hk : l.kind = .doWhile) (hself : l.latch = l.header)
    (hbs : p.breakables.head? = some (loopBreakable l)) (hc : (st.latchCondition l []).run p = some (c, q)) :
    (st.Reached q l.entry ∧ st.Reached q l.continueTarget) ∧ st.Closed p q (Ends [] p.breakables none) := by
  obtain ⟨hlatch, hclosed⟩ := settles_latch hl hk hc
  rw [hfit.entry_eq (by simp [hk]) (by simp [hk, LoopKind.isForEach]), ← hself, Loop.continueTarget, if_pos hk]
  refine ⟨⟨hlatch, hlatch⟩, hclosed.mono ?_⟩
  rintro s (rfl | hs)
  · exact .inl (hself ▸ hlatch)
  · exact .inr (ends_exit hbs hs)

/-- A loop that tests in a block behind its body: the body ends at the latch. -/
theorem settles_doWhile {r : Progress} {l : Loop} {pool : ConstantPool} {first : List Stmt}
    {c : List Stmt × Expr} (hl : l ∈ st.loops) (hfit : l.Fits st.graph pool) (hk : l.kind = .doWhile)
    (hbs : p.breakables.head? = some (loopBreakable l))
    (hbody : Work.Settles st (.list [] (some (l.header, [])) [l.latch] first) p q)
    (hc : (st.latchCondition l first).run q = some (c, r)) :
    (st.Reached r l.entry ∧ st.Reached r l.continueTarget) ∧ st.Closed p r (Ends [] p.breakables none) := by
  have hext := extends_of_run_latchCondition hc
  obtain ⟨hheader, hclosed₁⟩ := hbody
  obtain ⟨hlatch, hclosed₂⟩ := settles_latch hl hk hc
  rw [hfit.entry_eq (by simp [hk]) (by simp [hk, LoopKind.isForEach]), Loop.continueTarget, if_pos hk]
  have hheader' := (hheader _ rfl).extends hext
  refine ⟨⟨hheader', hlatch⟩, hclosed₁.trans hclosed₂ hext ?_ ?_⟩
  · rintro s (hs | hs)
    · exact .inl (List.mem_singleton.1 hs ▸ hlatch)
    · exact .inr (.inr hs)
  · rintro s (rfl | hs)
    · exact .inl hheader'
    · exact .inr (ends_exit hbs hs)

/-- A loop that tests nowhere: its body ends at the header. -/
theorem settles_endless {l : Loop} {pool : ConstantPool} {body : List Stmt} (hfit : l.Fits st.graph pool)
    (hk : l.kind = .endless ∨ l.kind = .unstructured)
    (hbody : Work.Settles st (.list [] (some (l.header, [])) [l.header] body) p q) :
    (st.Reached q l.entry ∧ st.Reached q l.continueTarget) ∧ st.Closed p q (Ends [] p.breakables none) := by
  obtain ⟨hheader, hclosed⟩ := hbody
  have hkind : l.kind ≠ .doWhile ∧ l.kind ≠ .for ∧ l.kind.isForEach = false := by
    rcases hk with hk | hk <;> simp [hk, LoopKind.isForEach]
  rw [hfit.entry_eq hkind.2.1 hkind.2.2, hfit.continueTarget_eq_header hkind.1 hkind.2.1 hkind.2.2]
  refine ⟨⟨hheader _ rfl, hheader _ rfl⟩, hclosed.mono ?_⟩
  rintro s (hs | hs)
  · exact .inl (List.mem_singleton.1 hs ▸ hheader _ rfl)
  · exact .inr (.inr hs)

/-! ### What a run sees to -/

/-- Without a warning, all that a run leaves open is seen to: every way out of a block that it renders leads
to a block that has been rendered, to where the run ends, or astray. The induction is on the run, and each
case puts together what the stretches of the run see to. -/
theorem Runs.settles {w : Work} (h : st.Runs w p q ns)
    (hfits : ∀ l ∈ st.loops, ∃ pool, l.Fits st.graph pool) (hq : q.warnings = []) :
    w.Settles st p q := by
  induction h with
  | done => exact ⟨by simp, .of_visited_eq rfl⟩
  | again => exact absurd hq (st.warnings_residual_ne_nil _)
  | step _ hfirst hrest ihfirst ihrest =>
    exact settles_step hfirst.extends hrest.extends
      (ihfirst (hrest.extends.of_warnings_eq_nil hq)) (ihrest hq)
  | branch hgo hrest ih => exact settles_branch hgo hrest.extends hq (ih hq)
  | missing _ _ hb => exact ⟨reached_of_block?_eq_none hb, .of_visited_eq rfl⟩
  | run _ _ hb hrest ih => exact settles_run hb hrest.extends (ih hq)
  | loop _ hl hbody hgo ih =>
    obtain ⟨hmem, rfl⟩ := of_pendingLoop? hl
    exact settles_loop hmem hbody.extends (ih (hgo.extends.of_warnings_eq_nil hq)) hgo hq
  | tryCatch hi hr hbody hcatches hfinal hgo ihbody ihcatches ihfinal =>
    have hext₂ := hfinal.extends.trans hgo.extends
    have hext₁ := hcatches.extends.trans hext₂
    exact settles_tryCatch hi hr hbody.extends hcatches.extends hfinal.extends
      (ihbody (hext₁.of_warnings_eq_nil hq)) (ihcatches (hext₂.of_warnings_eq_nil hq))
      (ihfinal (hgo.extends.of_warnings_eq_nil hq)) hgo hq
  | leaves hb =>
    exact ⟨by rcases hb with hb | hb <;> simp [hb, Terminator.successors], .of_visited_eq rfl⟩
  | goes hb hgo =>
    rw [Work.Settles, map_fst_map_mk]
    refine ⟨fun s hs => ?_, .of_visited_eq (visited_of_goes hgo)⟩
    rcases hb with hb | hb <;> rw [hb, Terminator.successors, List.mem_singleton] at hs <;>
      exact hs ▸ hgo.settles hq
  | value hb hm hv hgo => exact settles_value hb hm hv hgo hq
  | test hb hm _ hrest ih => exact settles_test hb hm hrest.extends (ih hq)
  | switch hb harms hgo ih =>
    exact settles_switch hb harms.extends (ih (hgo.extends.of_warnings_eq_nil hq)) hgo hq
  | jsr _ hgo => exact absurd (hgo.extends.of_warnings_eq_nil hq) (by simp)
  | ret => exact absurd hq (by simp)
  | ifElse _ hthen helse hgo ihthen ihelse =>
    exact settles_ifElse hthen.extends helse.extends
      (ihthen ((helse.extends.trans hgo.extends).of_warnings_eq_nil hq))
      (ihelse (hgo.extends.of_warnings_eq_nil hq)) hgo hq
  | noArms => exact ⟨by simp, .of_visited_eq rfl⟩
  | arm hbody hrest ihbody ihrest =>
    exact settles_arm hbody.extends hrest.extends (ihbody (hrest.extends.of_warnings_eq_nil hq)) (ihrest hq)
  | whileLoop hk hc hbody ih =>
    intro hl hbs
    obtain ⟨pool, hfit⟩ := hfits _ hl
    exact settles_whileLoop hfit hk hbs hc hbody.extends (ih hq)
  | forLoop hk hi hc hbody hu ih =>
    intro hl hbs
    obtain ⟨hentry, hclosed⟩ := ih ((extends_of_run_headBlock hu).of_warnings_eq_nil hq)
    obtain ⟨pool, hfit⟩ := hfits _ hl
    exact settles_parts hfit (by simp [hk, LoopKind.testsFirst]) hbs hi hc hbody.extends hu hentry hclosed
  | @forEach p q₁ q₂ q₃ q₄ r l init update body condition entry stmt _ hk hi hc hbody hu hs ih =>
    intro hl hbs
    have hext := extends_of_run_forEachLoop hs
    obtain ⟨hentry, hclosed⟩ :=
      ih (((extends_of_run_headBlock hu).trans hext).of_warnings_eq_nil hq)
    obtain ⟨pool, hfit⟩ := hfits _ hl
    have hfirst : l.kind.testsFirst = true := by
      cases hkind : l.kind <;> simp_all [LoopKind.testsFirst, LoopKind.isForEach]
    obtain ⟨⟨h₁, h₂⟩, h₃⟩ := settles_parts hfit hfirst hbs hi hc hbody.extends hu hentry hclosed
    -- making the statement renders nothing more
    have hsame := visited_of_run_forEachLoop hs
    exact ⟨⟨h₁.extends hext, h₂.extends hext⟩, h₃.trans (.of_visited_eq hsame) hext
      (fun s hs => .inr hs) (f := fun _ => False) fun s hs => hs.elim⟩
  | doWhileSelf hk hself hc =>
    intro hl hbs
    obtain ⟨pool, hfit⟩ := hfits _ hl
    exact settles_doWhileSelf hl hfit hk hself hbs hc
  | doWhile hk _ _ hc ih =>
    intro hl hbs
    obtain ⟨pool, hfit⟩ := hfits _ hl
    exact settles_doWhile hl hfit hk hbs
      (ih ((extends_of_run_latchCondition hc).of_warnings_eq_nil hq)) hc
  | endless hk _ ih =>
    intro hl _
    obtain ⟨pool, hfit⟩ := hfits _ hl
    exact settles_endless hfit hk (ih hq)
  | noCatches => exact ⟨by simp, .of_visited_eq rfl⟩
  | skipCatch hv hrest ih =>
    obtain ⟨hothers, hclosed⟩ := ih hq
    refine ⟨List.forall_mem_cons.2 ⟨?_, hothers⟩, hclosed⟩
    exact reached_of_mem (hrest.extends.visited.subset hv)
  | catchClause _ hbody hrest ihbody ihrest =>
    obtain ⟨hstart, hclosed₁⟩ := ihbody (hrest.extends.of_warnings_eq_nil hq)
    obtain ⟨hothers, hclosed₂⟩ := ihrest hq
    refine ⟨List.forall_mem_cons.2 ⟨(hstart _ rfl).extends hrest.extends, hothers⟩, ?_⟩
    exact hclosed₁.trans hclosed₂ hrest.extends (fun s hs => .inr hs) fun s hs =>
      .inr ((ends_of_extends hbody.extends).1 hs)
  | noFinally hv => exact ⟨fun h hh => reached_of_mem (hv h hh), .of_visited_eq rfl⟩
  | «finally» _ _ ih =>
    obtain ⟨hstart, hclosed⟩ := ih hq
    refine ⟨fun h hh => ?_, hclosed⟩
    obtain rfl : _ = h := by simpa using hh
    exact hstart _ rfl

end Structurer

/-! ## Methods -/

namespace MethodCode

variable {pool : ConstantPool} {attr : CodeAttribute} {code : MethodCode}

/-- The loops that structuring refers to fit into the graph of the method. -/
theorem exists_fits_of_mem_loops (h : MethodCode.decode pool attr = .ok code) (inlineReturns : Bool)
    (ctx : SimContext) (method : String) (strip : Bool) :
    let st := Structurer.ofGraph (code.reduced pool inlineReturns) ctx method strip
    ∀ l ∈ st.loops, ∃ pool, l.Fits st.graph pool := by
  intro st l hl
  obtain ⟨hmem, hk⟩ := FlowGraph.of_mem_loops_ofGraph hl
  exact ⟨pool, (fits_of_mem_loops h inlineReturns l hmem).resolve_left hk⟩

/-- Structuring a method renders a block twice exactly if it does so with a late part of a loop. Unless
there is a warning, it renders all blocks that control reaches exactly if it renders those that control
reaches astray from the latch of a loop that tests behind its body. -/
theorem rendered_iff (h : MethodCode.decode pool attr = .ok code) (inlineReturns : Bool)
    (ctx : SimContext) (method : String) :
    let g := code.reduced pool inlineReturns
    let st := Structurer.ofGraph g ctx method false
    ∃ statements p, g.structuring? ctx method false = some (statements, p) ∧
      (g.blocks ≠ [] →
        (g.structured ctx method false).statements = retainLabels p.usedLabels statements) ∧
      (p.visited.Nodup ↔ ∀ l ∈ st.loops, ∀ b ∈ l.lateParts, p.visited.count b ≤ 1) ∧
      ((g.structured ctx method false).warnings = [] →
        ((∀ b, g.normalDigraph.Reaches g.entry b → b ∈ p.visited) ↔
          ∀ b s, g.normalDigraph.Reaches g.entry b → s ∈ g.successors b → s ∈ g.ids →
            st.Astray b s → s ∈ p.visited)) := by
  intro g st
  obtain ⟨statements, p, ns, hrun, hruns⟩ := g.exists_runs_structuring ctx method false
  have hfits := exists_fits_of_mem_loops h inlineReturns ctx method false
  refine ⟨statements, p, hrun, fun hne => (FlowGraph.warnings_structured_of_structuring? hne hrun).1,
    ?_, fun hwarnings => ⟨fun hall b s hb hs hmem _ => hall s (hb.tail hs hmem), fun hstray b hb => ?_⟩⟩
  · rw [List.nodup_iff_count_le_one]
    refine ⟨fun hall l _ b _ => hall b, fun hlate b => ?_⟩
    by_cases hplain : st.Plain b
    · exact hruns.once hfits trivial (fun b _ => by simp [Progress.start]) b hplain
    · simp only [Structurer.Plain, not_forall, not_not] at hplain
      obtain ⟨l, hl, hb⟩ := hplain
      exact hlate l hl b hb
  · have hentry : g.entry ∈ g.ids := by
      obtain ⟨path, hpath⟩ := hb
      exact hpath.source_mem
    have hne : g.blocks ≠ [] := by
      intro hnil
      simp [FlowGraph.ids, hnil] at hentry
    have hquiet : p.warnings = [] :=
      List.prefix_nil.1 (hwarnings ▸ (FlowGraph.warnings_structured_of_structuring? hne hrun).2)
    obtain ⟨hstart, hclosed⟩ := hruns.settles hfits hquiet
    have hseen : ∀ {s}, st.Reached p s → s ∈ g.ids → s ∈ p.visited := fun hs hmem =>
      hs.resolve_right fun hnot => hnot hmem
    -- what control reaches and has been rendered is closed under the ways out
    refine hb.induction (hseen (hstart _ rfl) hentry) fun a s ha hmem hs hsmem => ?_
    by_cases hastray : st.Astray a s
    · exact hstray a s ha hs hsmem hastray
    · rcases hclosed a hmem (by simp [Progress.start]) s hs hastray with hreached | hend | hend | hend
      · exact hseen hreached hsmem
      · cases hend
      · cases hend
      · cases hend

/-- Nothing is known about the constants of a static method that needs little stack. -/
def plainContext : SimContext := ⟨.empty, true, 1⟩

/-- A loop that goes on while two conditions hold, and tests behind its body. -/
def loopOnBoth : CodeAttribute :=
  ⟨1, 3, [0x84, 0x02, 0x01, 0x1a, 0x99, 0x00, 0x07, 0x1b, 0x9a, 0xff, 0xf8, 0xb1], [], []⟩

/-- A loop that is left in the middle and at the end, for different blocks. -/
def loopWithTwoExits : CodeAttribute :=
  ⟨1, 4, [0x84, 0x01, 0x01, 0x1a, 0x99, 0x00, 0x07, 0x84, 0x02, 0x01, 0xb1, 0x1b, 0x9a, 0xff, 0xf4, 0x84,
    0x03, 0x01, 0xb1], [], []⟩

/-- The condition says of a loop that tests twice whether every block is rendered once. -/
theorem rendered_iff_loopOnBoth :
    ∃ code, MethodCode.decode .empty loopOnBoth = .ok code ∧
      ∃ statements p, (code.reduced .empty true).structuring? plainContext "" false =
          some (statements, p) ∧
        (p.visited.Nodup ↔
          ∀ l ∈ (Structurer.ofGraph (code.reduced .empty true) plainContext "" false).loops,
            ∀ b ∈ l.lateParts, p.visited.count b ≤ 1) := by
  have hdecode : ∃ code, MethodCode.decode .empty loopOnBoth = .ok code := ⟨_, rfl⟩
  obtain ⟨code, hcode⟩ := hdecode
  obtain ⟨statements, p, hrun, -, honce, -⟩ := rendered_iff hcode true plainContext ""
  exact ⟨code, hcode, statements, p, hrun, honce⟩

/-- A latch can be rendered twice, and the block behind it can be lost without a warning. -/
theorem not_rendered_once_or_complete :
    (∃ code statements p, MethodCode.decode .empty loopOnBoth = .ok code ∧
      (code.reduced .empty true).structuring? plainContext "" false = some (statements, p) ∧
        ¬p.visited.Nodup) ∧
    ∃ code statements p, MethodCode.decode .empty loopWithTwoExits = .ok code ∧
      (code.reduced .empty true).structuring? plainContext "" false = some (statements, p) ∧
        ((code.reduced .empty true).structured plainContext "" false).warnings = [] ∧
        (code.reduced .empty true).normalDigraph.Reaches (code.reduced .empty true).entry 15 ∧
        15 ∉ p.visited := by
  constructor
  · have hdecode : ∃ code, MethodCode.decode .empty loopOnBoth = .ok code ∧
        ((code.reduced .empty true).structuring? plainContext "" false).map (·.2.visited) =
          some [11, 7, 7, 0] := ⟨_, rfl, by cbv⟩
    obtain ⟨code, hcode, hvisited⟩ := hdecode
    obtain ⟨⟨statements, p⟩, hrun, hp⟩ := Option.map_eq_some_iff.1 hvisited
    dsimp only at hp
    exact ⟨code, statements, p, hcode, hrun, by simp [hp]⟩
  · have hdecode : ∃ code, MethodCode.decode .empty loopWithTwoExits = .ok code ∧
        ((code.reduced .empty true).structuring? plainContext "" false).map (·.2.visited) =
          some [7, 11, 0] ∧
        ((code.reduced .empty true).structured plainContext "" false).warnings = [] ∧
        ((code.reduced .empty true).normalDigraph.reversePostorder
          (code.reduced .empty true).entry).contains 15 = true :=
      ⟨_, rfl, by cbv, by cbv, by cbv⟩
    obtain ⟨code, hcode, hvisited, hwarnings, hreach⟩ := hdecode
    obtain ⟨⟨statements, p⟩, hrun, hp⟩ := Option.map_eq_some_iff.1 hvisited
    dsimp only at hp
    exact ⟨code, statements, p, hcode, hrun, hwarnings,
      Digraph.mem_reversePostorder_iff.1 (by simpa using hreach), by simp [hp]⟩

end MethodCode

end JvmDecompiler
