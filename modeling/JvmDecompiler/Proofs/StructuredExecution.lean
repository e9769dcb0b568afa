import JvmDecompiler.Proofs.Pieces

/-!
# Structured statements do what the graph does

Structuring turns the graph of a method into nested statements. Executing the statements shows the same
as going through the graph: the same statements of blocks, conditions and keys in the same order, for
all values of the conditions and keys, and the same end (`MethodCode.sameExecutions_structured`).

The proof goes along a run of structuring. `Work.Follows` says what each piece of work must have written,
and is put together from that of its parts: a list by `Tracks.append`, other statements by one lemma for
each of them. `Structurer.Runs.follows` is the induction.

A method is compared if it has no exceptions to catch and no values on the stack between blocks, and
structuring has nothing to warn of (`MethodCode.PlainFlow`). This is not enough: of the three ways in which
structuring goes wrong (`Straight`), two are shown here on small methods
(`MethodCode.not_sameExecutions_structured`).
-/

namespace JvmDecompiler

open Execution

namespace Structurer

variable {st : Structurer} {p q : Progress} {ns notes : List Note} {around outer : List Enclosing}
  {behind behind' : Option BlockId} {t : BlockId} {fuel low least : Nat} {s : GraphPosition}

/-! ## Runs -/

/-- The block behind a part of a list, given where the list goes on. -/
def behindOf (next : Continuation) (stops : List BlockId) : Option BlockId :=
  (next.map (·.1)).or stops.head?

/-- A list goes on at the block that is left, or ends where the list around says. -/
@[simp] theorem behindOf_map (next : Option BlockId) (stack : List Expr) (stops : List BlockId) :
    behindOf (next.map (·, stack)) stops = next.or stops.head? := by
  cases next <;> rfl

/-- It goes on with an empty stack. -/
theorem stack_of_mem_map (next : Option BlockId) :
    ∀ n ∈ next.map fun id => (id, ([] : List Expr)), n.2 = [] := by
  cases next <;> simp

/-- A list inside a statement ends at the join, or where the list around does. -/
theorem head?_innerStops (join : Option BlockId) (stops : List BlockId) :
    (innerStops p join stops).head? = join.or stops.head? := by
  cases join <;> rfl

/-- What a piece of work starts from: an empty stack, and a block that has been run on one. -/
def Work.Starts (st : Structurer) : Work → Prop
  | .list _ next _ _ => ∀ n ∈ next, n.2 = []
  | .element _ _ stack _ _ => stack = []
  | .block _ b sim _ _ => st.graph.block? b.id = some b ∧ sim = b.simulate st.ctx []
  | .loop l _ => l ∈ st.loops
  | _ => True

/-- What a piece of work has written does what the graph does from the block on at which it starts, and
comes to an end where the graph has come to a block to which that end leads. -/
def Work.Follows (st : Structurer) (around : List Enclosing) (fuel : Nat) : Work → Prop
  | .list out next stops result => ∃ new, result = out ++ new ∧
      ∀ t ∈ st.graph.ids, behindOf next stops = some t → ∀ vs,
        st.Tracks (st.Leads around stops.head?) (if next.isSome then 1 else 0) fuel (some (t, vs))
          (Stmt.execAll fuel new vs)
  | .element out id _ stops result => ∃ new, result.1 = out ++ new ∧ (∀ n ∈ result.2, n.2 = []) ∧
      (id ∈ st.graph.ids → ∀ vs, st.Tracks (st.Leads around (behindOf result.2 stops)) 1 fuel
        (some (id, vs)) (Stmt.execAll fuel new vs))
  | .block out b _ stops result => ∃ new, result.1 = out ++ new ∧ (∀ n ∈ result.2, n.2 = []) ∧
      (b.terminator ≠ .return ∧ b.terminator ≠ .throw → ∀ vs,
        st.Tracks (st.Leads around (behindOf result.2 stops)) 1 fuel (some (b.id, vs))
          ((Stmt.execAll fuel new vs).after (b.runs st.ctx)))
  | .ifElse out _ t stops result => ∃ new, result.1 = out ++ new ∧ (∀ n ∈ result.2, n.2 = []) ∧
      ∀ vs, (t.next vs).1 ∈ st.graph.ids → ∃ x,
        Stmt.execAll fuel new vs = x.after (t.condition.test vs).seen ∧
          st.Tracks (st.Leads around (behindOf result.2 stops)) 0 fuel (some (t.next vs)) x
  | .branch target stops result => target ∈ st.graph.ids → ∀ vs,
      st.Tracks (st.Leads around stops.head?) 0 fuel (some (target, vs)) (Stmt.execAll fuel result vs)
  | .arms join stops starts result => result.map SwitchCase.labels = starts.map (·.2) ∧
      ∀ i, ∀ t ∈ st.graph.ids, (starts[i]?).map (·.1) = some t → ∀ vs,
        st.Tracks (st.Leads around (join.or stops.head?)) 0 fuel (some (t, vs))
          (SwitchCase.execFrom fuel i result vs)
  | .loop l result => ∀ e outer, around = e :: outer → e.frame = loopBreakable l →
      l.entry ∈ st.graph.ids → ∀ vs,
        st.Tracks (fun x t => e.catches x = false ∧ st.Leads around l.exit x t) 1 fuel
          (some (l.entry, vs)) (Stmt.exec fuel e.labels result vs)
  | .catches .. | .final .. => True

/-- The labels in front of a loop do nothing. -/
theorem execAll_loopLabels (l : Loop) (rest : List Stmt) (vs : Values) :
    Stmt.execAll fuel (loopLabels l ++ rest) vs = Stmt.execAll fuel rest vs := by
  unfold loopLabels
  split
  · rw [List.cons_append, execAll_labelOf, List.singleton_append, execAll_labelOf]
  · rw [List.singleton_append, execAll_labelOf]

/-- One part of a list after another. -/
theorem Tracks.append {new rest : List Stmt} {vs : Values}
    (h : st.Tracks (st.Leads around behind) low fuel s (Stmt.execAll fuel new vs))
    (hrest : ∀ t ∈ st.graph.ids, behind = some t → ∀ vs,
      st.Tracks (st.Leads around behind') 0 fuel (some (t, vs)) (Stmt.execAll fuel rest vs)) :
    st.Tracks (st.Leads around behind') low fuel s (Stmt.execAll fuel (new ++ rest) vs) := by
  rw [Stmt.execAll_append]
  exact h.andThen (fun t vs ht hbehind => hrest t ht hbehind vs) fun x t hx hleads => hleads.of_ne hx

/-- The arms of a branch may be exchanged with the condition negated. -/
theorem test_of_armsOf (t : Test) (join : Option BlockId) (vs : Values) :
    let u := (armsOf t join).1.test vs
    u.seen = (t.condition.test vs).seen ∧
      (if u.holds then (armsOf t join).2.1 else (armsOf t join).2.2, u.rest) = t.next vs := by
  unfold armsOf
  split
  · exact ⟨rfl, rfl⟩
  · refine ⟨by simp, ?_⟩
    cases hholds : (t.condition.test vs).holds <;> simp [Test.next, hholds]

/-- A branch executes the arm that its condition says. -/
theorem exec_ifOf (condition : Expr) (thenBody elseBody : List Stmt) (vs : Values) :
    Stmt.exec fuel [] (ifOf condition thenBody elseBody) vs =
      (Stmt.execAll fuel (if (condition.test vs).holds then thenBody else elseBody)
        (condition.test vs).rest).after (condition.test vs).seen := by
  unfold ifOf
  split
  · cases hholds : (condition.test vs).holds <;> simp [Stmt.exec, hholds]
  · cases hholds : (condition.test vs).holds <;> simp [Stmt.exec, hholds]

/-- What comes behind some statements does not matter if control never gets there. -/
theorem Tracks.andThen_of_not_behind {y : Execution} {f : Values → Execution}
    (h : st.Tracks (st.Leads around behind) low least s y)
    (hnot : ∀ rest, y.outcome ≠ .leaves .behind rest) :
    st.Tracks (st.Leads around behind') low least s (y.andThen f) := by
  cases h with
  | @leaves n seen x t vs hn hrun ht hx =>
    have hne : x ≠ .behind := fun heq => hnot vs (by rw [heq])
    have hy : (⟨seen, .leaves x vs⟩ : Execution).andThen f = ⟨seen, .leaves x vs⟩ := by
      cases x <;> first | rfl | exact absurd rfl hne
    rw [hy]
    exact .leaves hn hrun ht (hx.of_ne hne)
  | «over» hrun => exact .over hrun
  | unfinished hn hrun => exact .unfinished hn hrun

/-- A switch behind the statements of its block. -/
theorem tracks_switch {b : Block} {default : BlockId} {cases : List (Int32 × BlockId)}
    {join : Option BlockId} {arms : List SwitchCase} {stops : List BlockId} {used : Bool}
    (hb : st.graph.block? b.id = some b) (hterm : b.terminator = .switch default cases)
    (hkeys : (cases.map (·.1)).Nodup) (hids : ∀ s ∈ b.terminator.successors, s ∈ st.graph.ids)
    (hlabels : arms.map SwitchCase.labels = (switchArms default cases join).map (·.2))
    (harms : ∀ i, ∀ t ∈ st.graph.ids, ((switchArms default cases join)[i]?).map (·.1) = some t →
      ∀ vs, st.Tracks (st.Leads (⟨switchBreakable b.id join, used⟩ :: around) (join.or stops.head?)) 0
        fuel (some (t, vs)) (SwitchCase.execFrom fuel i arms vs)) (vs : Values) :
    st.Tracks (fun x t => (⟨switchBreakable b.id join, used⟩ : Enclosing).catches x = false ∧
        st.Leads (⟨switchBreakable b.id join, used⟩ :: around) (join.or stops.head?) x t) 1 fuel
      (some (b.id, vs))
      ((Stmt.exec fuel (⟨switchBreakable b.id join, used⟩ : Enclosing).labels
        (.switch ((b.simulate st.ctx []).switchKey.getD (absent "switch key")) arms) vs).after
          (b.runs st.ctx)) := by
  have hrun := passes_switch hb hterm vs
  have hmem : (cases.lookup vs.head).getD default ∈ st.graph.ids := by
    refine hids _ (@mem_successors_of_execute st b vs _ vs.tail ?_)
    rw [Block.execute, hterm]
  rw [Stmt.exec, after_after]
  suffices h : st.Tracks _ 0 fuel _ _ from (h.after hrun).weaken (Nat.le_refl 1) (Nat.le_add_left fuel 1)
  rw [hlabels]
  rcases switchEntry?_switchArms default join hkeys vs.head with ⟨i, hentry, harm⟩ | ⟨hentry, hjoin⟩
  · rw [hentry]
    refine (harms i _ hmem harm vs.tail).catching (fun x t hx hleads => ?_) fun x t hx hleads => ?_
    -- a `break` in an arm means the switch, and leads to its join
    · obtain rfl : x = .breakTo none := by simpa [Exit.isBreak] using hx
      obtain ⟨d, hd, ht⟩ := hleads
      obtain rfl := Option.some.inj hd
      have hjoin : join = some t := ht
      exact ⟨rfl, by rw [hjoin]; rfl⟩
    · refine ⟨?_, hleads⟩
      simp [Enclosing.catches, hx, Enclosing.isLoop, switchBreakable]
  · rw [hentry]
    exact .done hmem ⟨rfl, by rw [hjoin]; rfl⟩

namespace Work.Follows

variable {l : Loop} {condition : Expr} {entry : BlockId} {body thenBody elseBody jump : List Stmt}
  {stops : List BlockId} {join next : Option BlockId}

/-- The rest of a list goes on from where its first element has come to. -/
theorem step {out result : List Stmt} {id : BlockId} {reached : Partial}
    (hfirst : Work.Follows st around fuel (.element out id [] stops reached))
    (hrest : (∀ n ∈ reached.2, n.2 = []) →
      Work.Follows st around fuel (.list reached.1 reached.2 stops result)) :
    Work.Follows st around fuel (.list out (some (id, [])) stops result) := by
  obtain ⟨new₁, heq₁, hstack, htracks₁⟩ := hfirst
  obtain ⟨new₂, heq₂, htracks₂⟩ := hrest hstack
  refine ⟨new₁ ++ new₂, by rw [heq₂, heq₁, List.append_assoc], fun t ht hbehind vs => ?_⟩
  obtain rfl : id = t := Option.some.inj hbehind
  exact (htracks₁ ht vs).append fun t ht hbehind vs =>
    (htracks₂ t ht hbehind vs).weaken (Nat.zero_le _) (Nat.le_refl _)

/-- A branch is what is written to go to its block, and the list from there on. -/
theorem branch {target : BlockId} {result : List Stmt}
    (hjump : ∀ vs, target ∈ st.graph.ids → st.Tracks (st.Leads around (next.or stops.head?)) 0 fuel
      (some (target, vs)) (Stmt.execAll fuel jump vs))
    (hrest : Work.Follows st around fuel (.list jump (next.map (·, [])) stops result)) :
    Work.Follows st around fuel (.branch target stops result) := by
  obtain ⟨new, rfl, htracks⟩ := hrest
  intro ht vs
  refine (hjump vs ht).append fun t ht hbehind vs => ?_
  exact (htracks t ht (by simpa using hbehind) vs).weaken (Nat.zero_le _) (Nat.le_refl _)

/-- A block is run, and then what follows it. A block that ends the method runs its last statement, and what
follows is never run. -/
theorem run {out : List Stmt} {b : Block} {result : Partial} (hcomp : st.Comparable)
    (hb : st.graph.block? b.id = some b)
    (hrest : Work.Follows st around fuel (.block (out ++ labelOf b.id ::
      (b.simulate st.ctx []).statements.map .simple) b (b.simulate st.ctx []) stops result)) :
    Work.Follows st around fuel (.element out b.id [] stops result) := by
  obtain ⟨new, heq, hstack, htracks⟩ := hrest
  have hsealed := hcomp.sealed_of_block? hb
  refine ⟨labelOf b.id :: st.statementsOf b ++ new, ?_, hstack, fun _ vs => ?_⟩
  · rw [heq, List.append_assoc]
    rfl
  · rw [List.cons_append, execAll_labelOf]
    by_cases hterm : b.terminator = .return ∨ b.terminator = .throw
    · rw [execAll_statementsOf_over hsealed hterm]
      exact .over (passes_over hb hterm vs)
    · rw [not_or] at hterm
      rw [execAll_append_statementsOf hsealed hterm]
      exact htracks hterm vs

/-- Behind a block that only goes on, what is written to go on does what the graph does. -/
theorem goes {out : List Stmt} {b : Block} {target : BlockId} (hcomp : st.Comparable) (hs : st.Straight notes)
    (hblock : st.graph.block? b.id = some b)
    (hb : b.terminator = .fallThrough target ∨ b.terminator = .goto target)
    (hjump : ∀ vs, target ∈ st.graph.ids → st.Tracks (st.Leads around (next.or stops.head?)) 0 fuel
      (some (target, vs)) (Stmt.execAll fuel jump vs)) :
    Work.Follows st around fuel (.block out b (b.simulate st.ctx []) stops
      (out ++ jump, next.map (·, (b.simulate st.ctx []).exitStack))) := by
  have hmem : target ∈ b.terminator.successors := by
    rcases hb with hb | hb <;> simp [hb, Terminator.successors]
  -- no value is left on the stack for the next block
  have hstack := hcomp.emptyStacks b (FlowGraph.mem_of_block? hblock) (List.ne_nil_of_mem hmem)
  rw [hstack]
  refine ⟨jump, rfl, stack_of_mem_map next, fun _ vs => ?_⟩
  rw [behindOf_map]
  exact ((hjump vs (hs.mem_ids hblock target hmem)).after (passes_goesOn hblock hb vs)).weaken
    (Nat.le_refl 1) (Nat.le_add_left fuel 1)

/-- A test folds the blocks that only test: what the graph evaluates on its way through them is what the
condition evaluates. -/
theorem test {out : List Stmt} {b : Block} {k : BranchCondition} {ifTrue ifFalse : BlockId}
    {members : List BlockId} {t : Test} {result : Partial} (hs : st.Straight notes)
    (hblock : st.graph.block? b.id = some b) (hb : b.terminator = .branch k ifTrue ifFalse)
    (hm : st.Merges p members (testOf (b.simulate st.ctx []) ifTrue ifFalse) t q)
    (hrest : Work.Follows st around fuel (.ifElse out b.id t stops result)) :
    Work.Follows st around fuel (.block out b (b.simulate st.ctx []) stops result) := by
  obtain ⟨new, heq, hstack, htracks⟩ := hrest
  refine ⟨new, heq, hstack, fun _ vs => ?_⟩
  obtain ⟨n, hn, hrun⟩ := hm.testsFrom (testsFrom_of_branch hblock hb) vs
  have hid : b.id ∈ st.graph.ids := FlowGraph.mem_ids_iff.2 ⟨b, hblock⟩
  obtain ⟨x, hx, hbranch⟩ := htracks vs (mem_ids_of_passes hs.edges hid hrun)
  rw [hx, after_after]
  exact (hbranch.after hrun).weaken hn (Nat.le_add_left fuel n)

/-- A switch is followed by what its arms join at. -/
theorem switch {out : List Stmt} {b : Block} {default : BlockId} {cases : List (Int32 × BlockId)}
    {arms : List SwitchCase} {used : Bool} {starts : List (BlockId × List (Option Int32))}
    (hs : st.Straight notes) (hblock : st.graph.block? b.id = some b)
    (hb : b.terminator = .switch default cases) (hstarts : starts = switchArms default cases join)
    (harms : Work.Follows st (⟨switchBreakable b.id join, used⟩ :: around) fuel (.arms join stops starts arms))
    (hjump : ∀ t vs, t ∈ st.graph.ids → join.or stops.head? = some t →
      st.Tracks (st.Leads around (next.or stops.head?)) 0 fuel (some (t, vs))
        (Stmt.execAll fuel jump vs)) :
    Work.Follows st around fuel (.block out b (b.simulate st.ctx []) stops
      (out ++ [labelIf used (switchBreakable b.id join).label
        (.switch ((b.simulate st.ctx []).switchKey.getD (absent "switch key")) arms)] ++ jump,
        next.map (·, []))) := by
  subst hstarts
  obtain ⟨hlabels, htracks⟩ := harms
  refine ⟨_, List.append_assoc _ _ _, stack_of_mem_map next, fun _ vs => ?_⟩
  have hstmt := tracks_switch hblock hb (hs.keys b (FlowGraph.mem_of_block? hblock) default cases hb)
    (hs.mem_ids hblock) hlabels htracks vs
  rw [behindOf_map, Stmt.execAll_append, ← andThen_after, Stmt.execAll_singleton]
  refine (hstmt.labelIf fun t ht => ?_).andThen (fun t vs ht hbehind => hjump t vs ht hbehind)
    fun x t hx hleads => hleads.of_ne hx
  have hjoin : join = some t := ht
  rw [hjoin, Option.some_or]

/-- An `if` is followed by what its arms join at. -/
theorem ifElse {t : Test} {out : List Stmt} {head : BlockId}
    (hthen : Work.Follows st around fuel
      (.branch (armsOf t join).2.1 (innerStops p join stops) thenBody))
    (helse : Work.Follows st around fuel
      (.branch (armsOf t join).2.2 (innerStops q join stops) elseBody))
    (hjump : ∀ t vs, t ∈ st.graph.ids → join.or stops.head? = some t →
      st.Tracks (st.Leads around (next.or stops.head?)) 0 fuel (some (t, vs))
        (Stmt.execAll fuel jump vs)) :
    Work.Follows st around fuel (.ifElse out head t stops
      (out ++ [ifOf (armsOf t join).1 thenBody elseBody] ++ jump, next.map (·, []))) := by
  refine ⟨_, List.append_assoc _ _ _, stack_of_mem_map next, fun vs hmem => ?_⟩
  obtain ⟨hseen, hnext⟩ := test_of_armsOf t join vs
  refine ⟨_, by rw [List.singleton_append, Stmt.execAll, exec_ifOf, andThen_after, hseen], ?_⟩
  rw [behindOf_map, ← hnext]
  rw [← hnext] at hmem
  cases hholds : ((armsOf t join).1.test vs).holds with
  | true =>
    have hbody := hthen (by simpa [hholds] using hmem) ((armsOf t join).1.test vs).rest
    rw [head?_innerStops] at hbody
    exact hbody.andThen hjump fun x t hx hleads => hleads.of_ne hx
  | false =>
    have hbody := helse (by simpa [hholds] using hmem) ((armsOf t join).1.test vs).rest
    rw [head?_innerStops] at hbody
    exact hbody.andThen hjump fun x t hx hleads => hleads.of_ne hx

/-- An arm of a switch goes on with the next one unless it ends in a jump. -/
theorem arm {target : BlockId} {labels : List (Option Int32)}
    {rest : List (BlockId × List (Option Int32))} {others : List SwitchCase}
    (hbody : Work.Follows st around fuel (.branch target (innerStops p
      (if (rest.head?.map (·.1)).isSome then rest.head?.map (·.1) else join) stops) body))
    (hrest : Work.Follows st around fuel (.arms join stops rest others)) :
    Work.Follows st around fuel (.arms join stops ((target, labels) :: rest)
      (⟨labels, body, (rest.head?.map (·.1)).isSome && !(codeOf body).getLast?.any Stmt.isJump⟩ ::
        others)) := by
  obtain ⟨hlabels, hothers⟩ := hrest
  refine ⟨by simp [hlabels], fun i t ht harm vs => ?_⟩
  cases i with
  | succ i => exact hothers i t ht harm vs
  | zero =>
    obtain rfl : target = t := Option.some.inj harm
    have hfirst := hbody ht vs
    rw [head?_innerStops] at hfirst
    rw [SwitchCase.execFrom]
    cases rest with
    | nil => simpa [show (fun vs => done vs) = done from rfl, andThen_done_right] using hfirst
    | cons next rest =>
      cases hjump : (codeOf body).getLast?.any Stmt.isJump with
      | true => exact hfirst.andThen_of_not_behind (Stmt.not_behind_of_isJump hjump vs)
      | false =>
        refine hfirst.andThen (fun t vs ht hbehind => ?_) fun x t hx hleads => hleads.of_ne hx
        exact hothers 0 t ht (by simpa [Leads] using hbehind) vs

/-- A loop is followed by what it exits to. -/
theorem element {out : List Stmt} {stack : List Expr} {stmt : Stmt} {used : Bool}
    (hstmt : Work.Follows st (⟨loopBreakable l, used⟩ :: around) fuel (.loop l stmt))
    (hjump : ∀ t vs, t ∈ st.graph.ids → l.exit.or stops.head? = some t →
      st.Tracks (st.Leads around (next.or stops.head?)) 0 fuel (some (t, vs))
        (Stmt.execAll fuel jump vs)) :
    Work.Follows st around fuel (.element out l.entry stack stops
      (out ++ loopLabels l ++ [labelIf used (loopBreakable l).label stmt] ++ jump,
        next.map (·, []))) := by
  refine ⟨loopLabels l ++ ([labelIf used (loopBreakable l).label stmt] ++ jump), by simp,
    stack_of_mem_map next, fun hid vs => ?_⟩
  rw [execAll_loopLabels, behindOf_map]
  have hlabelled : st.Tracks (st.Leads around l.exit) 1 fuel (some (l.entry, vs))
      (Stmt.execAll fuel [labelIf used (loopBreakable l).label stmt] vs) := by
    have hinner := hstmt _ around rfl rfl hid vs
    rw [← after_nil (Stmt.exec fuel (Enclosing.labels _) stmt vs)] at hinner
    rw [Stmt.execAll_singleton, ← after_nil (Stmt.exec ..)]
    exact hinner.labelIf fun t ht => ht
  exact hlabelled.append fun t ht hexit vs => hjump t vs ht (by rw [hexit, Option.some_or])

/-- A `while` loop, if its body follows the graph. -/
theorem whileLoop (h : Work.Follows st around fuel (.branch entry [l.header] body))
    (hcomp : st.Comparable) (hs : st.Straight notes) (hl : l ∈ st.loops) (hk : l.kind = .while)
    (hc : (st.loopCondition l).run p = some ((condition, entry), q)) (hq : q.warnings = []) :
    Work.Follows st around fuel (.loop l (.whileLoop condition body)) := by
  rintro e outer rfl hframe hentry vs
  have hfit := hcomp.fits l hl
  have hcontinue := hfit.continueTarget_eq_header (by simp [hk]) (by simp [hk]) (by rw [hk]; rfl)
  rw [hfit.entry_eq (by simp [hk]) (by rw [hk]; rfl), Stmt.exec]
  refine tracks_headerLoop hcomp hs hl (by rw [hk]; rfl) hc hq hframe (fun hmem vs => ?_) vs
  rw [← hcontinue] at h ⊢
  exact (h hmem vs).resumed hframe

/-- A `for` loop, if its body does. -/
theorem forLoop {init update : List Stmt} {p' q' r : Progress}
    (h : Work.Follows st around fuel (.branch entry [l.continueTarget] body))
    (hcomp : st.Comparable) (hs : st.Straight notes) (hl : l ∈ st.loops) (hk : l.kind = .for)
    (hi : (st.headBlock l.init).run p' = some (init, p))
    (hc : (st.loopCondition l).run p = some ((condition, entry), q)) (hq : q.warnings = [])
    (hu : (st.headBlock l.update).run q' = some (update, r)) :
    Work.Follows st around fuel (.loop l (.forLoop init condition update body)) := by
  rintro e outer rfl hframe hentry vs
  have hfit := hcomp.fits l hl
  obtain ⟨i, hinit⟩ := Option.isSome_iff_exists.1 (hfit.initOfKind (.inl hk))
  obtain ⟨u, hupdate⟩ := Option.isSome_iff_exists.1 (hfit.updateOfKind hk)
  obtain ⟨bi, hbi, hgoi⟩ := hfit.parts hk i (.inl hinit)
  obtain ⟨bu, hbu, hgou⟩ := hfit.parts hk u (.inr hupdate)
  have hcontinue : l.continueTarget = u := by simp [Loop.continueTarget, hk, hupdate]
  rw [hinit] at hi
  rw [hupdate] at hu
  cases hi.symm.trans (st.run_headBlock hbi)
  cases hu.symm.trans (st.run_headBlock hbu)
  have hentry : l.entry = i := by rw [Loop.entry, hinit, Option.getD_some]
  rw [hentry, Stmt.exec]
  refine tracks_statementsOf hbi (hcomp.sealed_of_block? hbi) hgoi (fun vs => ?_) vs
  refine (tracks_headerLoop hcomp hs hl (by rw [hk]; rfl) hc hq hframe (fun hmem vs => ?_) vs).weaken
    (Nat.zero_le _) (Nat.le_refl _)
  refine ((h hmem vs).resumed hframe).andThen (fun t vs ht hbehind => ?_)
    fun x t hx hleads => ⟨hleads.1, hleads.2.of_ne hx⟩
  -- behind the body, or by a `continue`, control comes to the update, and from there to the header
  obtain rfl : u = t := by
    rw [← hcontinue]
    exact Option.some.inj hbehind.2
  have hheader : l.header ∈ st.graph.ids := by
    refine hs.mem_ids hbu l.header ?_
    rcases hgou with hterm | hterm <;> simp [hterm, Terminator.successors]
  rw [← andThen_done_right (Stmt.execAll ..)]
  exact (tracks_statementsOf hbu (hcomp.sealed_of_block? hbu) hgou
    (fun vs => .done hheader ⟨rfl, rfl⟩) vs).weaken (Nat.zero_le _) (Nat.le_refl _)

/-- A `do` loop of a single block. -/
theorem doWhileSelf (hcomp : st.Comparable) (hs : st.Straight notes) (hl : l ∈ st.loops)
    (hk : l.kind = .doWhile) (hself : l.latch = l.header)
    (hc : (st.latchCondition l []).run p = some ((body, condition), q)) :
    Work.Follows st around fuel (.loop l (.doWhile body condition)) := by
  rintro e outer rfl hframe hentry vs
  obtain ⟨b, outside, hb, hsealed, hdecides, hexit, rfl⟩ := exists_latch hcomp hs hl hk hc
  rw [(hcomp.fits l hl).entry_eq (by simp [hk]) (by rw [hk]; rfl), Stmt.exec]
  refine tracks_loop hframe (fun vs => ?_) vs
  have hround : st.Tracks (st.LeavesRound e outer (some l.header)) 1 fuel (some (l.latch, vs)) _ :=
    tracks_latch hs hb hsealed hdecides hexit hframe vs
  rw [hself] at hround
  rw [execAll_latch hsealed hdecides, Stmt.execAll, andThen_done, catching_after, andThen_after]
  exact hround

/-- A `do` loop, if what is in front of the latch follows the graph. -/
theorem doWhile {first : List Stmt}
    (h : Work.Follows st around fuel (.list [] (some (l.header, [])) [l.latch] first))
    (hcomp : st.Comparable) (hs : st.Straight notes) (hl : l ∈ st.loops) (hk : l.kind = .doWhile)
    (hc : (st.latchCondition l first).run p = some ((body, condition), q)) :
    Work.Follows st around fuel (.loop l (.doWhile body condition)) := by
  rintro e outer rfl hframe hentry vs
  obtain ⟨new, rfl, htracks⟩ := h
  obtain ⟨b, outside, hb, hsealed, hdecides, hexit, rfl⟩ := exists_latch hcomp hs hl hk hc
  rw [(hcomp.fits l hl).entry_eq (by simp [hk]) (by rw [hk]; rfl)] at hentry ⊢
  rw [Stmt.exec]
  -- the test at the latch leaves the round or starts the next one
  have hlatch : ∀ vs, st.Tracks (st.LeavesRound e outer (some l.header)) 0 fuel (some (l.latch, vs))
      ((Execution.guard condition vs).after (b.runs st.ctx)) := fun vs =>
    (tracks_latch hs hb hsealed hdecides hexit hframe vs).weaken (Nat.zero_le _) (Nat.le_refl _)
  refine tracks_loop hframe (fun vs => ?_) vs
  rw [execAll_latch hsealed hdecides]
  refine (htracks l.header hentry rfl vs).catchingThen rfl (fun t vs ht hbehind => ?_)
    (fun x t vs ht hx hleads => ?_) fun x t hx hresumes hleads => ⟨hresumes, hleads.of_ne hx⟩
  · obtain rfl : l.latch = t := Option.some.inj hbehind
    exact hlatch vs
  · -- a jump to the next round leaves the statements of the latch out, so there are none
    obtain ⟨halone, htarget⟩ := hleads.of_resumes (by rw [Enclosing.isLoop, hframe]; rfl) hx
    obtain rfl : l.latch = t := by
      rw [hframe] at htarget
      simpa [loopBreakable, Loop.continueTarget, hk] using htarget
    have hnothing := hlatch vs
    rwa [halone l hl hk rfl b hb, after_nil] at hnothing

/-- A loop without a condition, if its body follows the graph. -/
theorem endless (h : Work.Follows st around fuel (.list [] (some (l.header, [])) [l.header] body))
    (hcomp : st.Comparable) (hl : l ∈ st.loops) (hk : l.kind = .endless ∨ l.kind = .unstructured) :
    Work.Follows st around fuel (.loop l (.whileLoop (.literal none (.boolean true)) body)) := by
  rintro e outer rfl hframe hentry vs
  obtain ⟨new, rfl, htracks⟩ := h
  have hkind : l.kind ≠ .for ∧ l.kind ≠ .doWhile ∧ l.kind.isForEach = false := by
    rcases hk with hk | hk <;> simp [hk, LoopKind.isForEach]
  have hfit := hcomp.fits l hl
  have hcontinue := hfit.continueTarget_eq_header hkind.2.1 hkind.1 hkind.2.2
  rw [hfit.entry_eq hkind.1 hkind.2.2] at hentry ⊢
  rw [Stmt.exec]
  refine tracks_loop hframe (fun vs => ?_) vs
  have hround := htracks l.header hentry rfl vs
  rw [List.head?_singleton, ← hcontinue] at hround
  have htest : Execution.guard (.literal none (.boolean true)) vs = Execution.done vs := rfl
  rw [htest, andThen_done, ← hcontinue]
  exact hround.resumed hframe

end Work.Follows

/-- In a method that is compared, no value is left on the stack for another block, as a conditional value
would be. -/
theorem conditionalValue?_eq_none (hcomp : st.Comparable) (t : Test) : st.conditionalValue? q t = none := by
  refine Option.eq_none_iff_forall_ne_some.2 fun ⟨thenValue, elseValue, join⟩ hv => ?_
  obtain ⟨-, ⟨b, hvalue⟩, -⟩ := of_conditionalValue? hv
  have hsucc : b.terminator.successors ≠ [] := by
    rcases hvalue.goes with hb | hb <;> simp [hb, Terminator.successors]
  have hstack := hcomp.emptyStacks b (FlowGraph.mem_of_block? hvalue.block) hsucc
  simp [hvalue.exitStack] at hstack

/-- What structuring writes does what the graph does. The induction is on the run; inside a loop or a switch
there is one more statement around, and the list of them is that of the statements that can be left. -/
theorem Runs.follows {w : Work} (h : st.Runs w p q ns) (hcomp : st.Comparable) (hs : st.Straight notes)
    (hns : ns ⊆ notes) (hp : p.Framed) (hready : w.Ready p) (hw : w.Starts st)
    (hcov : Covers around q.breakables) (hq : q.warnings = []) : w.Follows st around fuel := by
  induction h generalizing around with
  | done => exact ⟨[], (List.append_nil _).symm, fun t ht hbehind vs => .done ht hbehind⟩
  | again => exact absurd hq (st.warnings_residual_ne_nil _)
  | @step p q r out id stack stops reached result ns₁ ns₂ hv hfirst hrest ihfirst ihrest =>
    obtain ⟨hns₁, hns₂⟩ := List.append_subset.1 hns
    obtain rfl : stack = [] := hw _ rfl
    exact .step (ihfirst hns₁ hp hv rfl (hcov.of_extends hrest.extends)
      (hrest.extends.of_warnings_eq_nil hq)) fun hstack =>
        ihrest hns₂ (hp.extends hfirst.extends) trivial hstack hcov hq
  | branch hgo hrest ih =>
    obtain ⟨hns₁, hns₂⟩ := List.append_subset.1 hns
    exact .branch (fun vs ht => hgo.tracks hs hns₁ hp (hcov.of_extends hrest.extends)
      (hrest.extends.of_warnings_eq_nil hq) ht rfl vs)
      (ih hns₂ (hp.extends hgo.extends) trivial (stack_of_mem_map _) hcov hq)
  | missing _ _ hb =>
    refine ⟨[], (List.append_nil _).symm, by simp, fun hmem => ?_⟩
    obtain ⟨b, hb'⟩ := FlowGraph.mem_ids_iff.1 hmem
    simp [hb] at hb'
  | @run p q out id stack stops b result ns ht hl hb hrest ih =>
    obtain rfl : stack = [] := hw
    obtain rfl : b.id = id := FlowGraph.id_of_block? hb
    have hext : p.Extends (st.ran b [] p) := st.extends_ran b []
    refine .run hcomp hb (ih hns (hp.extends hext) ⟨List.mem_cons_self, fun join => ?_⟩ ⟨hb, rfl⟩ hcov hq)
    rw [hext.frames_eq]
    exact hp.switch_label_not_mem hready join
  | @loop p q r out id stack stops l stmt jump next ns₁ ns₂ ht hl hbody hgo ih =>
    obtain ⟨hns₁, hrest⟩ := List.append_subset.1 hns
    obtain ⟨-, hns₂⟩ := List.cons_subset.1 hrest
    have hleft : p.Extends q.left := (p.extends_started l.header).trans hbody.extends.left
    obtain ⟨hmem, rfl⟩ := of_pendingLoop? hl
    have hinside := ih hns₁ (hp.enterLoop hl) trivial hmem
      ((hcov.of_extends hgo.extends).enter rfl hbody.extends) (hgo.extends.of_warnings_eq_nil hq)
    exact hinside.element fun t vs ht hbehind =>
      hgo.tracks hs hns₂ (hp.extends hleft) hcov hq ht hbehind vs
  | tryCatch _ hr => simp [hcomp.regions] at hr
  | leaves hb =>
    refine ⟨[], (List.append_nil _).symm, by simp, fun hterm => ?_⟩
    exact absurd hb (not_or.2 hterm)
  | goes hb hgo =>
    obtain ⟨hblock, rfl⟩ := hw
    exact .goes hcomp hs hblock hb fun vs hmem => hgo.tracks hs hns hp hcov hq hmem rfl vs
  | value _ _ hv =>
    rw [conditionalValue?_eq_none hcomp] at hv
    cases hv
  | @test p q r out b sim stops k ifTrue ifFalse t result ns hb hm hv hrest ih =>
    obtain ⟨hblock, rfl⟩ := hw
    have hext : p.Extends (st.dropped b.id (b.simulate st.ctx []) q) :=
      hm.extends.trans (extends_dropped b.id _)
    exact .test hs hblock hb hm (ih hns (hp.extends hext) trivial trivial hcov hq)
  | @switch p q r out b sim stops default cases arms jump next ns₁ ns₂ hb harms hgo ih =>
    obtain ⟨hns₁, hrest⟩ := List.append_subset.1 hns
    obtain ⟨-, hns₂⟩ := List.cons_subset.1 hrest
    obtain ⟨hblock, rfl⟩ := hw
    have hentered := hp.enterSwitch hready.1 (hready.2 (st.postDominator? p b.id))
    exact .switch hs hblock hb rfl (ih hns₁ hentered trivial trivial
      ((hcov.of_extends hgo.extends).enter rfl harms.extends) (hgo.extends.of_warnings_eq_nil hq))
      fun t vs ht hbehind => hgo.tracks hs hns₂ (hp.extends harms.extends.left) hcov hq ht hbehind vs
  -- calls of subroutines and returns from them are warned of
  | jsr _ hgo => exact absurd (hgo.extends.of_warnings_eq_nil hq) (by simp)
  | ret => exact absurd hq (by simp)
  | @ifElse p q₁ q₂ r out head t stops join thenBody elseBody jump next ns₁ ns₂ ns₃ hjoin hthen helse
      hgo ihthen ihelse =>
    obtain ⟨hns₁₂, hns₃⟩ := List.append_subset.1 hns
    obtain ⟨hns₁, hns₂⟩ := List.append_subset.1 hns₁₂
    have hframed := hp.extends hthen.extends
    have hcov₂ := hcov.of_extends hgo.extends
    have hwarn₂ := hgo.extends.of_warnings_eq_nil hq
    have hthenFollows := ihthen hns₁ hp trivial trivial (hcov₂.of_extends helse.extends)
      (helse.extends.of_warnings_eq_nil hwarn₂)
    have helseFollows := ihelse hns₂ hframed trivial trivial hcov₂ hwarn₂
    exact hthenFollows.ifElse helseFollows fun t vs ht hbehind =>
      hgo.tracks hs hns₃ (hframed.extends helse.extends) hcov hq ht hbehind vs
  | noArms => exact ⟨rfl, fun i t _ h => by simp at h⟩
  | @arm p q r join stops target labels rest body others ns₁ ns₂ hbody hrest ihbody ihrest =>
    obtain ⟨hns₁, hns₂⟩ := List.append_subset.1 hns
    have hfirst := ihbody hns₁ hp trivial trivial (hcov.of_extends hrest.extends)
      (hrest.extends.of_warnings_eq_nil hq)
    exact hfirst.arm (ihrest hns₂ (hp.extends hbody.extends) trivial trivial hcov hq)
  | @whileLoop p q r l condition entry body ns hk hc hbody ih =>
    have hinside := ih hns (hp.extends (extends_of_run_loopCondition hc)) trivial trivial hcov hq
    exact hinside.whileLoop hcomp hs hw hk hc (hbody.extends.of_warnings_eq_nil hq)
  | @forLoop p q₁ q₂ q₃ r l init update body condition entry ns hk hi hc hbody hu ih =>
    have hframed := hp.extends ((extends_of_run_headBlock hi).trans (extends_of_run_loopCondition hc))
    have hwarn := (extends_of_run_headBlock hu).of_warnings_eq_nil hq
    have hinside := ih hns hframed trivial trivial (hcov.of_extends (extends_of_run_headBlock hu)) hwarn
    exact hinside.forLoop hcomp hs hw hk hi hc (hbody.extends.of_warnings_eq_nil hwarn) hu
  | @forEach _ _ _ _ _ _ l _ _ _ _ _ _ _ hk =>
    have hnone := hcomp.loops l hw
    rw [hk] at hnone
    cases hnone
  | doWhileSelf hk hself hc => exact Work.Follows.doWhileSelf hcomp hs hw hk hself hc
  | @doWhile p q r l first body condition ns hk hself hbody hc ih =>
    have hinside := ih hns hp trivial (by rintro _ ⟨⟩; rfl)
      (hcov.of_extends (extends_of_run_latchCondition hc))
      ((extends_of_run_latchCondition hc).of_warnings_eq_nil hq)
    exact hinside.doWhile hcomp hs hw hk hc
  | endless hk hbody ih =>
    have hinside := ih hns hp trivial (by rintro _ ⟨⟩; rfl) hcov hq
    exact hinside.endless hcomp hw hk
  | noCatches | skipCatch | catchClause | noFinally | «finally» => trivial

/-- With no statement around, a jump leads nowhere. -/
theorem not_leads_nil : ¬st.Leads [] none x t := by
  cases x with
  | behind => simp [Leads]
  | breakTo label => cases label <;> simp [Leads, Stmt.meant?, Enclosing.named?]
  | continueTo label => cases label <;> simp [Leads, Stmt.meant?, Enclosing.named?]

end Structurer

open Structurer

/-! ## Methods -/

/-- Whether a statement is run. -/
def Event.isRun : Event → Bool
  | .run _ => true
  | _ => false

namespace FlowGraph

variable {g : FlowGraph}

/-- A graph without blocks is over at once, and so is an execution of no statements. -/
theorem sameExecutions_nil (hg : g.blocks = []) (ctx : SimContext) : g.SameExecutions ctx [] := by
  have hstep : ∀ vs, g.advance ctx (some (g.entry, vs)) = ([.over], none) := fun vs => by
    simp [advance, block?, hg]
  have hrests : g.advance ctx none = ([], none) := rfl
  intro vs i e
  have htrace : ∀ fuel, (Stmt.execAll fuel [] vs).trace = [.over] := fun fuel => by
    rw [Stmt.execAll]
    rfl
  have hrun : ∀ n, (runSteps (g.advance ctx) (1 + n) (some (g.entry, vs))).1 = [.over] := fun n => by
    rw [runSteps_add, runSteps_one, hstep, runSteps_of_rest hrests, List.append_nil]
  constructor
  · rintro ⟨fuel, he⟩
    exact ⟨1 + 0, by rwa [hrun, ← htrace fuel]⟩
  · rintro ⟨n, he⟩
    refine ⟨0, ?_⟩
    rw [htrace, ← hrun n]
    exact getElem?_runSteps_of_le (Nat.le_add_left n 1) he

/-- If the terminators lead to blocks of the graph, so do the ways out of each block. -/
theorem mem_ids_of_mem_successors (h : ∀ b ∈ g.blocks, ∀ s ∈ b.terminator.successors, s ∈ g.ids)
    {id s : BlockId} (hs : s ∈ g.successors id) : s ∈ g.ids := by
  cases hb : g.block? id with
  | none => simp [successors, hb] at hs
  | some b =>
    simp only [successors, hb] at hs
    exact h b (mem_of_block? hb) s hs

/-- If an event of the graph is of a kind that no event of the statements in the same place is of, they do
not do the same. -/
theorem not_sameExecutions {ctx : SimContext} {body : List Stmt} (vs : Values) (i n : Nat)
    (kind : Event → Bool)
    (hgraph : (runSteps (g.advance ctx) n (some (g.entry, vs))).1[i]?.any kind = true)
    (hbody : ∀ fuel, (Stmt.execAll fuel body vs).trace[i]?.any kind = false) :
    ¬g.SameExecutions ctx body := by
  intro hsame
  obtain ⟨e, he, hkind⟩ := (Option.any_eq_true ..).1 hgraph
  obtain ⟨fuel, hfuel⟩ := (hsame vs i e).2 ⟨n, he⟩
  have hnot := hbody fuel
  rw [hfuel, Option.any_some, hkind] at hnot
  cases hnot

/-- A graph without blocks has none to reduce. -/
theorem blocks_reduceLoops_eq_nil (pool : ConstantPool) (hg : g.blocks = []) :
    (g.reduceLoops pool).blocks = [] := by
  refine reduceLoops_induction (P := fun g => g.blocks = []) pool (fun g cut id address hcut hg => ?_)
    (fun _ _ _ hg => hg) hg
  obtain ⟨b, -, hb, -⟩ := blocks_split? hcut
  simp [block?, hg] at hb

end FlowGraph

namespace MethodCode

variable {ctx : SimContext} {attr : CodeAttribute} {code : MethodCode}

/-- A method whose flow is compared with what structuring makes of it: without exceptions to catch, with
an empty stack wherever control goes from one block to another, with no loop through elements, and with
nothing that structuring warns of. -/
structure PlainFlow (code : MethodCode) (ctx : SimContext) (inlineReturns : Bool) (method : String)
    (strip : Bool) : Prop where
  ranges : code.ranges = []
  emptyStacks : ∀ b ∈ (code.reduced ctx.pool inlineReturns).blocks, b.terminator.successors ≠ [] →
    (b.simulate ctx []).exitStack = []
  loops : ∀ l ∈ (code.reduced ctx.pool inlineReturns).loops, l.kind.isForEach = false
  quiet : ((code.reduced ctx.pool inlineReturns).structured ctx method strip).warnings = []

/-- The conditions can be computed. -/
theorem PlainFlow.of_all {inlineReturns strip : Bool} {method : String} (hranges : code.ranges = [])
    (hstacks : ((code.reduced ctx.pool inlineReturns).blocks.all fun b =>
      b.terminator.successors.isEmpty || (b.simulate ctx []).exitStack.isEmpty) = true)
    (hloops : ((code.reduced ctx.pool inlineReturns).loops.all (!·.kind.isForEach)) = true)
    (hquiet : ((code.reduced ctx.pool inlineReturns).structured ctx method strip).warnings = []) :
    code.PlainFlow ctx inlineReturns method strip where
  ranges := hranges
  emptyStacks b hb hne := by
    have hall := List.all_eq_true.1 hstacks b hb
    simpa [hne] using hall
  loops l hl := by simpa using List.all_eq_true.1 hloops l hl
  quiet := hquiet

/-- The graph of a method with plain flow can be compared. -/
theorem PlainFlow.comparable {inlineReturns strip : Bool} {method : String}
    (hplain : code.PlainFlow ctx inlineReturns method strip)
    (h : MethodCode.decode ctx.pool attr = .ok code) :
    (Structurer.ofGraph (code.reduced ctx.pool inlineReturns) ctx method strip).Comparable where
  regions := by
    have hnone : (code.reduced ctx.pool inlineReturns).ranges = [] := by
      rw [reduced, (FlowGraph.frame_reduceLoops _ _).2.1,
        (FlowGraph.sameFrame_reduceJumps _ inlineReturns).ranges]
      exact hplain.ranges
    show TryRegion.ofRanges (code.reduced ctx.pool inlineReturns).ranges = []
    rw [hnone]
    simp [TryRegion.ofRanges, TryRegion.groupRows]
  emptyStacks := hplain.emptyStacks
  loops l hl := hplain.loops l (FlowGraph.of_mem_loops_ofGraph hl).1
  fits l hl := by
    obtain ⟨hmem, hk⟩ := FlowGraph.of_mem_loops_ofGraph hl
    exact (fits_of_mem_loops h inlineReturns l hmem).resolve_left hk
  sealed := by
    have hcode := MethodCode.wellFormed_of_decode h
    exact FlowGraph.sealed_reduceLoops ctx.pool (FlowGraph.sealed_reduceJumps inlineReturns
      (FlowGraph.sealed_ofCode hcode) (FlowGraph.wellFormed_ofCode hcode)
      (FlowGraph.returnsEnd_ofCode code))

/-- The entry is a block, unless there are none. -/
theorem entry_mem_ids (h : MethodCode.decode ctx.pool attr = .ok code) (inlineReturns : Bool)
    (hne : (code.reduced ctx.pool inlineReturns).blocks ≠ []) :
    (code.reduced ctx.pool inlineReturns).entry ∈ (code.reduced ctx.pool inlineReturns).ids := by
  have hcode := FlowGraph.wellFormed_ofCode (MethodCode.wellFormed_of_decode h)
  obtain ⟨hreduced, -⟩ :=
    FlowGraph.reduceJumps_spec inlineReturns hcode (FlowGraph.returnsEnd_ofCode code)
  obtain ⟨hentry, -, hids⟩ :=
    FlowGraph.frame_reduceLoops ctx.pool ((FlowGraph.ofCode code).reduceJumps inlineReturns)
  have hblocks : ((FlowGraph.ofCode code).reduceJumps inlineReturns).blocks ≠ [] := fun hnil =>
    hne (FlowGraph.blocks_reduceLoops_eq_nil ctx.pool hnil)
  rw [reduced, hentry]
  exact hids (hreduced.entry hblocks)

/-- In a method with plain flow, the statements do what the graph does unless something occurs that
structuring gets wrong. -/
theorem sameExecutions_structured (h : MethodCode.decode ctx.pool attr = .ok code)
    (inlineReturns : Bool) (method : String) (strip : Bool) :
    let g := code.reduced ctx.pool inlineReturns
    let st := Structurer.ofGraph g ctx method strip
    ∃ statements p, g.structuring? ctx method strip = some (statements, p) ∧
      (∃ notes, st.Runs (.list [] (some (g.entry, [])) [] statements) .start p notes) ∧
      ∀ notes, st.Runs (.list [] (some (g.entry, [])) [] statements) .start p notes →
        code.PlainFlow ctx inlineReturns method strip → st.Straight notes →
        g.SameExecutions ctx (g.structured ctx method strip).statements := by
  intro g st
  obtain ⟨statements, p, notes, hrun, hruns⟩ := g.exists_runs_structuring ctx method strip
  refine ⟨statements, p, hrun, ⟨notes, hruns⟩, fun notes hruns hplain hstraight => ?_⟩
  by_cases hne : g.blocks = []
  · have hempty : (g.structured ctx method strip).statements = [] := by
      simp [FlowGraph.structured, FlowGraph.structured?, hne]
    rw [hempty]
    exact FlowGraph.sameExecutions_nil hne ctx
  · obtain ⟨hstatements, hprefix⟩ := FlowGraph.warnings_structured_of_structuring? hne hrun
    have hquiet : p.warnings = [] := List.prefix_nil.1 (hplain.quiet ▸ hprefix)
    have hnone : Covers [] p.breakables := by
      rw [List.forall₂_nil_left_iff.1 hruns.extends.breakables]
      exact .nil
    have hcomp : st.Comparable := hplain.comparable h
    rw [hstatements]
    refine @Structurer.sameExecutions_of_tracks st _ fun fuel vs => ?_
    rw [Stmt.execAll_retainLabels]
    obtain ⟨new, rfl, htracks⟩ := hruns.follows hcomp hstraight (List.Subset.refl _)
      Progress.framed_start trivial (by rintro _ ⟨⟩; rfl) hnone hquiet
    exact ((htracks g.entry (entry_mem_ids h inlineReturns hne) rfl vs).weaken (Nat.zero_le _)
      (Nat.le_refl _)).mono fun x t hleads => Structurer.not_leads_nil hleads

/-- A loop that counts: `while (a != 0) b++; return;`. -/
def countingLoop : CodeAttribute :=
  ⟨1, 2, [0x1a, 0x99, 0x00, 0x09, 0x84, 0x01, 0x01, 0xa7, 0xff, 0xf9, 0xb1], [], []⟩

/-- The graph of `countingLoop`. -/
def countingGraph : FlowGraph where
  blocks :=
    [⟨0, [⟨0, 1, none, .load .int 0⟩, ⟨1, 3, none, .ifZero .eq 10⟩], .branch (.intZero .eq) 10 4⟩,
      ⟨4, [⟨4, 3, none, .iinc 1 1⟩, ⟨7, 3, none, .goto 0⟩], .goto 0⟩,
      ⟨10, [⟨10, 1, none, .return none⟩], .return⟩]
  entry := 0
  ranges := []
  jumps := [(4, .backEdge 0)]
  loops := [⟨0, .while, [0, 4], some 10, 4, none, none⟩]

/-- The only list that ends in the place of a jump is the body of the loop. -/
theorem exists_runs_countingGraph : ∃ statements p b stmt,
    countingGraph.structuring? plainContext "" false = some (statements, p) ∧
    (Structurer.ofGraph countingGraph plainContext "" false).Runs
      (.list [] (some (countingGraph.entry, [])) [] statements) .start p
      [.stop 0 [0], .enclosing b stmt] := by
  let st := Structurer.ofGraph countingGraph plainContext "" false
  let loop : Loop := ⟨0, .while, [0, 4], some 10, 4, none, none⟩
  let inside : Block := ⟨4, [⟨4, 3, none, .iinc 1 1⟩, ⟨7, 3, none, .goto 0⟩], .goto 0⟩
  let behind : Block := ⟨10, [⟨10, 1, none, .return none⟩], .return⟩
  let p := ((Progress.start.started 0).entered (loopBreakable loop)).rendered [0]
  let q := st.ran inside [] p
  let condition : Expr :=
    .compare none .ne (.localVar none (.ofSlot 0 0 .int)) (.literal none (.int 0 none))
  have hcondition : (st.loopCondition loop).run
      ((Progress.start.started 0).entered (loopBreakable loop)) = some ((condition, 4), p) := rfl
  have hbody : st.Runs (.branch 4 [0] _) p q [.stop 0 [0]] :=
    .branch (.next (by decide) (by decide) (by decide)) (.step (by decide)
      (.run (by cbv) (by cbv) (by cbv) (.goes (.inr rfl) (.stop (by decide)))) .done)
  have hrest : ∀ out, st.Runs (.list out (some (10, [])) [] _) q.left (st.ran behind [] q.left) [] :=
    fun out => .step (by decide) (.run (by cbv) (by cbv) (by cbv) (.leaves (.inl rfl))) .done
  have htry : st.pendingTry? .start 0 = none := by cbv
  have hloop : st.pendingLoop? .start 0 = some loop := by cbv
  refine ⟨_, _, _, _, ?_, .step (by decide) (.loop htry hloop (.whileLoop rfl hcondition hbody)
    (.next (by decide) rfl (by decide))) (hrest _)⟩
  cbv

/-- Structuring makes no mistake at the counting loop. -/
theorem straight_countingGraph (b : Breakable) (stmt : Stmt) :
    (Structurer.ofGraph countingGraph plainContext "" false).Straight
      [.stop 0 [0], .enclosing b stmt] := by
  have hloops : ∀ l ∈ (Structurer.ofGraph countingGraph plainContext "" false).loops,
      l.kind ≠ .doWhile := fun l hl => by
    obtain rfl := List.mem_singleton.1 (FlowGraph.of_mem_loops_ofGraph hl).1
    decide
  refine
    { edges := fun b s => FlowGraph.mem_ids_of_mem_successors (by decide)
      keys := fun b hb default cases hterm => ?_
      exits := fun b s _ ⟨l, hl, hk, _⟩ => hloops l hl hk
      ends := fun t stops ht => ?_
      continues := fun t label around _ l hl hk => absurd hk (hloops l hl) }
  · have hnoSwitch : ∀ b ∈ countingGraph.blocks, b.terminator ≠ .switch default cases := by
      simp [countingGraph]
    exact absurd hterm (hnoSwitch b hb)
  · obtain ⟨rfl, rfl⟩ : t = 0 ∧ stops = [0] := by simpa using ht
    rfl

/-- The counting loop is executed as its graph is. -/
theorem sameExecutions_structured_countingLoop : ∃ code,
    MethodCode.decode .empty countingLoop = .ok code ∧
      (code.reduced .empty true).SameExecutions plainContext
        ((code.reduced .empty true).structured plainContext "" false).statements := by
  obtain ⟨code, hcode, hranges, hgraph⟩ : ∃ code,
      MethodCode.decode plainContext.pool countingLoop = .ok code ∧ code.ranges = [] ∧
        code.reduced plainContext.pool true = countingGraph := ⟨_, rfl, rfl, by cbv⟩
  have hplain : code.PlainFlow plainContext true "" false := by
    refine .of_all hranges ?_ ?_ ?_ <;> rw [hgraph]
    · cbv
    · rfl
    · cbv
  obtain ⟨statements, p, hrun, -, hsame⟩ := sameExecutions_structured hcode true "" false
  obtain ⟨statements', p', b, stmt, hrun', hruns⟩ := exists_runs_countingGraph
  rw [hgraph] at hrun hsame
  obtain ⟨rfl, rfl⟩ := Prod.mk.inj (Option.some.inj (hrun.symm.trans hrun'))
  have hexecutions := hsame _ hruns hplain (straight_countingGraph b stmt)
  rw [← hgraph] at hexecutions
  exact ⟨code, hcode, hexecutions⟩

/-- A list that ends in the place of a jump that is not to the block behind it. The source is
`if (a == 0) { b++; if (b != 0) return; } c++; return;`, and what becomes of it is
`if (a == 0) { b++; if (b == 0) { } return; } c++; return;`. -/
def returnInside : CodeAttribute :=
  ⟨1, 3, [0x1a, 0x9a, 0x00, 0x0a, 0x84, 0x01, 0x01, 0x1b, 0x9a, 0x00, 0x07, 0x84, 0x02, 0x01, 0xb1, 0xb1],
    [], []⟩

/-- A `continue` that skips a statement of the latch. The source is
`do { a++; if (a != 0) break; b++; } while (b != 0); c++; return;`, and the body of the loop becomes
`a++; if (a == 0) continue; break; b++;`. -/
def leftInside : CodeAttribute :=
  ⟨1, 3, [0x84, 0x00, 0x01, 0x1a, 0x9a, 0x00, 0x0a, 0x84, 0x01, 0x01, 0x1b, 0x9a, 0xff, 0xf5, 0x84, 0x02,
    0x01, 0xb1], [], []⟩

/-- With nothing to warn of, the statements may still skip what the graph runs. -/
theorem not_sameExecutions_structured :
    (∃ code, MethodCode.decode .empty returnInside = .ok code ∧
      code.PlainFlow plainContext true "" false ∧
      ¬(code.reduced .empty true).SameExecutions plainContext
        ((code.reduced .empty true).structured plainContext "" false).statements) ∧
    ∃ code, MethodCode.decode .empty leftInside = .ok code ∧
      code.PlainFlow plainContext true "" false ∧
      ¬(code.reduced .empty true).SameExecutions plainContext
        ((code.reduced .empty true).structured plainContext "" false).statements := by
  constructor
  · refine ⟨_, rfl, .of_all rfl (by cbv) (by cbv) (by cbv), ?_⟩
    -- behind the second test the graph runs two statements, the one with which it returns included
    exact FlowGraph.not_sameExecutions (Stream'.const 1) 4 3 Event.isRun (by cbv) fun fuel => by cbv
  · refine ⟨_, rfl, .of_all rfl (by cbv) (by cbv) (by cbv), ?_⟩
    -- behind the first test the graph runs the latch, and the statements test again
    refine FlowGraph.not_sameExecutions (Stream'.const 1) 2 2 Event.isRun (by cbv) fun fuel => ?_
    cases fuel with
    | zero => cbv
    | succ fuel => cbv

end MethodCode

end JvmDecompiler
