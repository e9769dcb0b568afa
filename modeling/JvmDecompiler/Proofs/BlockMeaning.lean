import JvmDecompiler.Proofs.PendingValues
import Mathlib.Data.List.Induction
import Mathlib.Data.List.TakeWhile

/-!
# The meaning of a block

A block that computes with `int` is run by the machine instruction by instruction
(`Instruction.execInt?`). What the run on expressions leaves behind means the same: executing the
statements and then evaluating the stack makes the same calls in the same order and ends with the same
slots and the same values (`Block.simulate_meaning`).

This holds of the runs in which every instruction is harmless (`Sim.isHarmless`). A run has no way to keep the
order of effects where it drops a value with an effect inside, emits a statement in front of values that the
statement clashes with, lets values change places that clash, or uses a copied call twice; each of these
changes the meaning (`Block.meaning_changed`).
-/

namespace JvmDecompiler

/-! ## The machine -/

/-- The operation of an instruction on `int` values, which wraps around. -/
def ArithOp.onInts? : ArithOp → Option (Int32 → Int32 → Int32)
  | .add => some (· + ·)
  | .sub => some (· - ·)
  | .mul => some (· * ·)
  | _ => none

/-- A static method that takes `int` values and returns one or nothing. -/
structure IntMethod where
  ref : MemberRef
  arity : Nat
  hasResult : Bool
  deriving DecidableEq, Repr

/-- The method that an index leads to, if it is one of those. -/
def ConstantPool.intMethod? (pool : ConstantPool) (index : UInt16) : Option IntMethod := do
  let ref ← pool.memberRef? index
  let type ← MethodTy.ofDescriptor? ref.descriptor
  if type.parameters.all (· = .int) then
    match type.result with
    | .int => some ⟨ref, type.parameters.length, true⟩
    | .void => some ⟨ref, type.parameters.length, false⟩
    | _ => none
  else none

section Machine

variable (pool : ConstantPool) (answer : List IntCall → IntCall → Int32)

/-- What the machine does to its stack, given from the top, and to the world. Only the instructions that
compute with `int` are run, and only where the values that they take are there. -/
def Instruction.execInt? : Instruction → List Int32 × World → Option (List Int32 × World)
  | .push value _, (values, w) => some (value :: values, w)
  | .ldc index, (values, w) =>
    match pool.get? index with
    | some (.integer value) => some (value :: values, w)
    | _ => none
  | .load .int slot, (values, w) => some (w.slots slot :: values, w)
  | .store .int slot, (v :: values, w) => some (values, w.set slot v)
  | .iinc slot delta, (values, w) => some (values, w.set slot (w.slots slot + delta.toInt32))
  | .arith op .int, (right :: left :: values, w) => op.onInts?.map fun f => (f left right :: values, w)
  | .stack .dup, (v :: values, w) => some (v :: v :: values, w)
  | .stack .dupX1, (v :: u :: values, w) => some (v :: u :: v :: values, w)
  | .stack .swap, (v :: u :: values, w) => some (u :: v :: values, w)
  | .stack .pop, (_ :: values, w) => some (values, w)
  | .invoke .static index, (values, w) => do
    let m ← pool.intMethod? index
    if values.length < m.arity then none
    else
      let args := (values.take m.arity).reverse
      let r := w.call answer ⟨m.ref.className, m.ref.name, m.ref.descriptor, args⟩
      some (if m.hasResult then r.1 :: values.drop m.arity else values.drop m.arity, r.2)
  | _, _ => none

/-- What the machine does with some instructions. -/
def PlacedInstruction.execInts? (is : List PlacedInstruction) (m : List Int32 × World) :
    Option (List Int32 × World) :=
  is.foldlM (fun m i => i.operation.execInt? pool answer m) m

/-- Two rows of instructions are executed one after the other. -/
theorem PlacedInstruction.execInts?_append (is js : List PlacedInstruction) (m : List Int32 × World) :
    PlacedInstruction.execInts? pool answer (is ++ js) m =
      (PlacedInstruction.execInts? pool answer is m).bind (PlacedInstruction.execInts? pool answer js) := by
  simp only [PlacedInstruction.execInts?, List.foldlM_append]
  rfl

end Machine

namespace Sim

/-! ## Harmless steps -/

/-- Whether an expression may be evaluated in front of some values although it comes behind them. -/
def mayPrecede (e : Expr) (values : List StackValue) : Bool := values.all fun u => e.independent u.expr

/-- Whether none of the topmost `n` values repeats an effect when it is evaluated. -/
def allAlone : (n : Nat) → List StackValue → Bool
  | n + 1, v :: rest => alone v rest && allAlone n rest
  | _, _ => true

/-- Whether an instruction of a run leaves the order and the number of effects as they are. -/
def isHarmless (pool : ConstantPool) (i : PlacedInstruction) (stack : List StackValue) : Bool :=
  match i.operation, stack with
  | .store type slot, v :: rest =>
    let target := Expr.localVar i.line (.ofSlot slot i.next (.ofOperand type))
    let below := rest.dropWhile fun u => !areCopies v u
    mayPrecede (.assign i.line target v.expr) (rest.takeWhile fun u => !areCopies v u) &&
      alone v (below.drop 1)
  | .iinc slot delta, stack =>
    let target := Expr.localVar i.line (.ofSlot slot i.next .int)
    stack.head?.any (·.expr.isLocalSlot slot) ||
      mayPrecede (.increment i.line target delta.toInt32 false) stack
  | .stack .pop, v :: rest =>
    v.expr.isPure ||
      if alone v rest then hasEffect v.expr && mayPrecede v.expr rest else !hasEffect v.expr
  | .stack .dupX1, v :: u :: _ | .stack .swap, v :: u :: _ => v.expr.independent u.expr
  | .arith .., stack => allAlone 2 stack
  | .invoke .static index, stack =>
    (pool.intMethod? index).all fun m =>
      let args := ((stack.take m.arity).map (·.expr)).reverse
      let call := Expr.invoke i.line .static none m.ref.className m.ref.name m.ref.descriptor args
      allAlone m.arity stack && (m.hasResult || mayPrecede call (stack.drop m.arity))
  | _, _ => true

/-- Whether the instruction behind a point is harmless. An addition that is taken together with a load is. At
the end, evaluating the values of the stack must not repeat an effect. -/
def Point.isHarmless (pool : ConstantPool) (p : Point) : Bool :=
  match p.ahead with
  | [] => allAlone p.state.stack.length p.state.stack
  | i :: rest =>
    (preIncrement? p.state.stack i rest).isSome || Sim.isHarmless pool i p.state.stack

/-- A value with its own mark, or with a new one if it has none. -/
def marked (next : Nat) (v : StackValue) : StackValue :=
  match v.mark with
  | some _ => v
  | none => { v with mark := some next }

/-- A single value gets its own mark or a new one. -/
theorem markAll_singleton (next : Nat) (v : StackValue) : markAll next [v] = [marked next v] := by
  unfold markAll marked
  split <;> simp_all [markAll]

/-- A mark does not change the expression. -/
@[simp] theorem expr_marked (next : Nat) (v : StackValue) : (marked next v).expr = v.expr := by
  unfold marked
  split <;> rfl

/-! ## What a state means -/

/-- A state of a run means what the machine has come to: behind the statements, the entries of the stack
yield the values on the machine's stack, and the world behind their evaluation is the machine's. -/
structure Means (answer : List IntCall → IntCall → Int32) (w₀ : World) (statements : List SimpleStmt)
    (nextMark : Nat) (entries : List Pending) (w : World) : Prop where
  yields : Yields answer [] entries (SimpleStmt.runInts answer statements w₀) w
  ints : ∀ p ∈ entries, p.held.expr.IsInt
  related : entries.Pairwise Related
  marks : ∀ p ∈ entries, ∀ m, p.held.mark = some m → m < nextMark
  statements : ∀ stmt ∈ statements, stmt.IsInt

namespace Means

variable {answer : List IntCall → IntCall → Int32} {w₀ w w' : World} {statements : List SimpleStmt}
  {nextMark : Nat} {entries rest : List Pending} {p q : Pending} {e : Expr} {x : Int32}

/-- At the start of a run nothing has been computed. -/
theorem nil : Means answer w [] 0 [] w where
  yields := .nil
  ints := fun _ hp => nomatch hp
  related := .nil
  marks := fun _ hp => nomatch hp
  statements := fun _ hstmt => nomatch hstmt

/-- A value that is put on the stack is computed behind the others. -/
theorem push (h : Means answer w₀ statements nextMark entries w) (he : e.IsInt)
    (heval : e.evalInt answer w = (x, w')) :
    Means answer w₀ statements nextMark (⟨⟨e, none⟩, x⟩ :: entries) w' where
  yields := .eval h.yields (by simp [alone, areCopies]) heval
  ints := List.forall_mem_cons.2 ⟨he, h.ints⟩
  related := List.pairwise_cons.2 ⟨fun _ _ hcopy => (nomatch hcopy), h.related⟩
  marks := List.forall_mem_cons.2 ⟨fun _ hm => (nomatch hm), h.marks⟩
  statements := h.statements

/-- A statement that clashes with none of the values on the stack may be put in front of them. -/
theorem emit {line : SourceLine} (h : Means answer w₀ statements nextMark entries w)
    (hstmt : (SimpleStmt.expr line e).IsInt) (hpass : mayPrecede e (entries.map (·.held)) = true) :
    Means answer w₀ (statements ++ [.expr line e]) nextMark entries (e.evalInt answer w).2 where
  yields := by
    rw [SimpleStmt.runInts_append]
    refine (h.yields.commute (Expr.footprint_of_isInt answer hstmt) h.ints fun p hp => ?_).2
    exact Expr.not_clashes_of_independent
      (List.all_eq_true.1 hpass p.held (List.mem_map_of_mem hp))
  ints := h.ints
  related := h.related
  marks := h.marks
  statements := by
    refine List.forall_mem_append.2 ⟨h.statements, List.forall_mem_singleton.2 hstmt⟩

/-- Without its topmost entry, a state means what it meant in front of the evaluation of this entry. -/
theorem tail (h : Means answer w₀ statements nextMark (p :: rest) w)
    (hyields : Yields answer [] rest (SimpleStmt.runInts answer statements w₀) w') :
    Means answer w₀ statements nextMark rest w' :=
  ⟨hyields, fun q hq => h.ints q (List.mem_cons_of_mem _ hq), (List.pairwise_cons.1 h.related).2,
    fun q hq => h.marks q (List.mem_cons_of_mem _ hq), h.statements⟩

/-- The topmost value is evaluated, if that repeats no effect. -/
theorem uncons (h : Means answer w₀ statements nextMark (p :: rest) w)
    (halone : alone p.held (rest.map (·.held)) = true) :
    ∃ v, Means answer w₀ statements nextMark rest v ∧ p.held.expr.evalInt answer v = (p.value, w) := by
  obtain ⟨v, hyields, heval⟩ := h.yields.uncons_of_alone (by rwa [List.append_nil])
  exact ⟨v, h.tail hyields, heval⟩

/-- The topmost values are evaluated, if that repeats no effect. -/
theorem take (n : Nat) (h : Means answer w₀ statements nextMark entries w) (hn : n ≤ entries.length)
    (halone : allAlone n (entries.map (·.held)) = true) :
    ∃ v, Means answer w₀ statements nextMark (entries.drop n) v ∧
      Expr.evalInts answer (((entries.take n).map (·.held)).map (·.expr)).reverse v =
        (((entries.take n).map (·.value)).reverse, w) := by
  induction n generalizing entries w with
  | zero => exact ⟨w, h, rfl⟩
  | succ n ih =>
    obtain _ | ⟨p, rest⟩ := entries
    · cases hn
    obtain ⟨hp, halone⟩ := Bool.and_eq_true_iff.1 halone
    obtain ⟨v', htail, heval⟩ := h.uncons hp
    obtain ⟨v, hrest, hvalues⟩ := ih htail (Nat.le_of_succ_le_succ hn) halone
    refine ⟨v, hrest, ?_⟩
    simp only [List.take_succ_cons, List.map_cons, List.reverse_cons, Expr.evalInts_append, hvalues]
    simp [Expr.evalInts, heval]

/-- The topmost value may be forgotten if it has no effect of its own. -/
theorem drop (h : Means answer w₀ statements nextMark (p :: rest) w)
    (hp : p.held.expr.isPure = true ∨ alone p.held (rest.map (·.held)) = false) :
    Means answer w₀ statements nextMark rest w := by
  cases h.yields with
  | @eval _ _ _ v _ hrest halone heval =>
    rw [List.append_nil] at halone
    have hpure := hp.resolve_right (by rw [halone]; exact Bool.noConfusion)
    have hworld : w = v := by
      rw [← (h.ints p List.mem_cons_self).evalInt_of_isPure answer hpure v, heval]
    exact h.tail (hworld ▸ hrest)
  | reuse hrest => exact h.tail hrest

/-- Dropping a value: it stays as a statement if it has an effect, and may be forgotten otherwise. -/
theorem pop {line : SourceLine} (h : Means answer w₀ statements nextMark (p :: rest) w)
    (hharmless : (p.held.expr.isPure || if alone p.held (rest.map (·.held)) then
      hasEffect p.held.expr && mayPrecede p.held.expr (rest.map (·.held))
      else !hasEffect p.held.expr) = true) :
    Means answer w₀ (statements ++ ([p.held.expr].filter hasEffect).map (.expr line)) nextMark rest w := by
  -- a value with an effect has become a statement, any other one is dropped
  cases heffect : hasEffect p.held.expr with
  | true =>
    have himpure : p.held.expr.isPure = false := by
      cases he : p.held.expr <;> rw [he] at heffect <;> first | rfl | cases heffect
    rw [himpure, heffect, Bool.false_or, Bool.true_and] at hharmless
    split at hharmless
    · rename_i halone
      obtain ⟨v, hrest, heval⟩ := h.uncons halone
      have hstmt : (SimpleStmt.expr line p.held.expr).IsInt := .expr (h.ints p List.mem_cons_self)
      simpa [heffect, heval] using hrest.emit hstmt hharmless
    · cases hharmless
  | false =>
    have hdrop : p.held.expr.isPure = true ∨ alone p.held (rest.map (·.held)) = false := by
      rw [heffect, Bool.false_and] at hharmless
      cases hpure : p.held.expr.isPure with
      | true => exact .inl rfl
      | false =>
        rw [hpure, Bool.false_or] at hharmless
        cases halone : alone p.held (rest.map (·.held)) with
        | true => simp [halone] at hharmless
        | false => exact .inr rfl
    simpa [heffect] using h.drop hdrop

/-- Two entries that do not clash may change places. -/
theorem exchange (above : List Pending) (h : Means answer w₀ statements nextMark (above ++ p :: q :: rest) w)
    (hind : p.held.expr.independent q.held.expr = true) :
    Means answer w₀ statements nextMark (above ++ q :: p :: rest) w := by
  have hp : p.held.expr.IsInt := h.ints p (by simp)
  have hq : q.held.expr.IsInt := h.ints q (by simp)
  have hmem : ∀ r, r ∈ above ++ q :: p :: rest → r ∈ above ++ p :: q :: rest := by
    intro r hr
    simp only [List.mem_append, List.mem_cons] at hr ⊢
    tauto
  obtain ⟨habove, hrest, hbetween⟩ := List.pairwise_append.1 h.related
  obtain ⟨hp', hqrest⟩ := List.pairwise_cons.1 hrest
  obtain ⟨hq', hrest⟩ := List.pairwise_cons.1 hqrest
  have hpq : Related p q := hp' q List.mem_cons_self
  -- the two are independent, so that it makes no difference which one comes first
  refine ⟨?_, fun r hr => h.ints r (hmem r hr), ?_, fun r hr => h.marks r (hmem r hr), h.statements⟩
  · obtain ⟨v, hlower, habove⟩ := Yields.append_iff.1 h.yields
    obtain ⟨u, hrest, hpair⟩ := Yields.append_iff.1
      (show Yields answer [] ([p, q] ++ rest) _ v from hlower)
    refine Yields.append_iff.2 ⟨v, Yields.append_iff.2 ⟨u, hrest, hpair.exchange hp hq hpq hind⟩, ?_⟩
    refine habove.relocate fun _ _ x _ => ?_
    simp only [List.append_nil, List.mem_cons]
    tauto
  · refine List.pairwise_append.2 ⟨habove, List.pairwise_cons.2 ⟨?_, List.pairwise_cons.2
      ⟨fun r hr => hp' r (List.mem_cons_of_mem _ hr), hrest⟩⟩, fun r hr x hx => hbetween r hr x ?_⟩
    · rintro r hr
      rcases List.mem_cons.1 hr with rfl | hr
      · exact hpq.symm_of_independent hp hind
      · exact hq' r hr
    · simp only [List.mem_cons] at hx ⊢
      tauto

/-- The topmost value may get a mark that is not in use. -/
theorem remark (h : Means answer w₀ statements nextMark (p :: rest) w) :
    Means answer w₀ statements (nextMark + 1) (⟨marked nextMark p.held, p.value⟩ :: rest) w := by
  -- the mark is in use nowhere below, so that no other value becomes a copy
  have hsame : ∀ q ∈ rest, areCopies (marked nextMark p.held) q.held = areCopies p.held q.held := by
    intro q hq
    unfold marked
    cases hmark : p.held.mark with
    | some m => rfl
    | none =>
      have hfresh : q.held.mark ≠ some nextMark := fun hm =>
        Nat.lt_irrefl _ (h.marks q (List.mem_cons_of_mem _ hq) _ hm)
      simp [areCopies, hmark, hfresh.symm]
  obtain ⟨v, hrest, hp⟩ := Yields.append_iff.1 (show Yields answer [] ([p] ++ rest) _ w from h.yields)
  obtain ⟨hrelated, hpairs⟩ := List.pairwise_cons.1 h.related
  refine ⟨?_, List.forall_mem_cons.2 ⟨?_, fun q hq => h.ints q (List.mem_cons_of_mem _ hq)⟩,
    List.pairwise_cons.2 ⟨fun q hq hcopy => ?_, hpairs⟩, List.forall_mem_cons.2 ⟨fun m hm => ?_, ?_⟩,
    h.statements⟩
  · have hp' : Yields answer (rest ++ []) [⟨marked nextMark p.held, p.value⟩] v w :=
      hp.remark (expr_marked _ _) rfl fun q hq => hsame q (by rwa [List.append_nil] at hq)
    exact Yields.append_iff.2 ⟨v, hrest, hp'⟩
  · rw [expr_marked]
    exact h.ints p List.mem_cons_self
  · rw [hsame q hq] at hcopy
    rw [expr_marked]
    exact hrelated q hq hcopy
  · unfold marked at hm
    cases hmark : p.held.mark with
    | some k =>
      rw [hmark] at hm
      exact Nat.lt_succ_of_lt (h.marks p List.mem_cons_self m hm)
    | none =>
      rw [hmark] at hm
      obtain rfl := Option.some.inj hm
      exact Nat.lt_succ_self _
  · exact fun q hq m hm => Nat.lt_succ_of_lt (h.marks q (List.mem_cons_of_mem _ hq) m hm)

/-- The topmost value may be copied. -/
theorem duplicate (h : Means answer w₀ statements nextMark (p :: rest) w) :
    Means answer w₀ statements (nextMark + 1)
      (⟨marked nextMark p.held, p.value⟩ :: ⟨marked nextMark p.held, p.value⟩ :: rest) w := by
  have hmarked := h.remark
  obtain ⟨hrelated, hpairs⟩ := List.pairwise_cons.1 hmarked.related
  have hcopy : areCopies (marked nextMark p.held) (marked nextMark p.held) = true := by
    rw [areCopies_iff]
    unfold marked
    cases hmark : p.held.mark with
    | some m => exact ⟨m, hmark, hmark⟩
    | none => exact ⟨nextMark, rfl, rfl⟩
  obtain ⟨v, hrest, hp⟩ := Yields.append_iff.1
    (show Yields answer [] ([⟨marked nextMark p.held, p.value⟩] ++ rest) _ w from hmarked.yields)
  have htwice := hp.duplicate (hmarked.ints _ List.mem_cons_self) hcopy
  exact ⟨Yields.append_iff.2 ⟨v, hrest, htwice⟩,
    List.forall_mem_cons.2 ⟨hmarked.ints _ List.mem_cons_self, hmarked.ints⟩,
    List.pairwise_cons.2 ⟨List.forall_mem_cons.2 ⟨fun _ => ⟨rfl, .inl rfl⟩, hrelated⟩, hmarked.related⟩,
    List.forall_mem_cons.2 ⟨hmarked.marks _ List.mem_cons_self, hmarked.marks⟩, h.statements⟩

/-- A slot that has just been loaded may be added to. -/
theorem increment {slot : UInt16} {line : SourceLine} {ref : LocalRef} {delta : Int32}
    (h : Means answer w₀ statements nextMark (p :: rest) w) (hlocal : p.held.expr.isLocalSlot slot = true)
    (href : ref.slot = slot) (htype : ref.type = .int) :
    Means answer w₀ statements nextMark
      (⟨⟨.increment line (.localVar line ref) delta false, p.held.mark⟩, p.value⟩ :: rest)
      (w.set slot (w.slots slot + delta)) := by
  obtain ⟨l, r, hexpr, rfl⟩ : ∃ l r, p.held.expr = .localVar l r ∧ r.slot = slot := by
    unfold Expr.isLocalSlot Expr.asLocal? at hlocal
    split at hlocal
    · exact ⟨_, _, ‹_›, by simpa using hlocal⟩
    · cases hlocal
  obtain ⟨hrelated, hpairs⟩ := List.pairwise_cons.1 h.related
  -- copies of the slot below are the slot itself, or cannot be told from constants
  have hcopies : ∀ q ∈ rest, areCopies p.held q.held = true → p.value = q.value ∧
      q.held.expr.isPure = true ∧ (Expr.increment line (.localVar line ref) delta false).independent
        q.held.expr = false := by
    intro q hq hcopy
    obtain ⟨hvalue, hsame | ⟨hpure, hclash⟩⟩ := hrelated q hq hcopy
    · rw [← hsame, hexpr]
      refine ⟨hvalue, rfl, ?_⟩
      simp [Expr.independent, Expr.accesses, Access.clashes, href]
    · have hp : p.held.expr.isPure = true := by rw [hexpr]; rfl
      rw [(h.ints p List.mem_cons_self).independent_of_isPure (h.ints q (List.mem_cons_of_mem _ hq)) hp
        hpure] at hclash
      cases hclash
  obtain ⟨v, hrest, heval⟩ := h.uncons (by rw [alone_iff, hexpr]; exact .inl rfl)
  rw [hexpr] at heval
  obtain ⟨hvalue, rfl⟩ := Prod.mk.inj heval
  refine ⟨.eval hrest.yields ?_ ?_, List.forall_mem_cons.2 ⟨.increment htype, hrest.ints⟩,
    List.pairwise_cons.2 ⟨fun q hq hcopy => ?_, hpairs⟩,
    List.forall_mem_cons.2 ⟨h.marks p List.mem_cons_self, hrest.marks⟩, hrest.statements⟩
  · refine alone_iff.2 (.inr fun u hu hcopy => ?_)
    rw [List.append_nil] at hu
    obtain ⟨q, hq, rfl⟩ := List.mem_map.1 hu
    exact (hcopies q hq hcopy).2.1
  · simp [Expr.evalInt, href, ← hvalue]
  · obtain ⟨hvalue, hpure, hclash⟩ := hcopies q hq hcopy
    exact ⟨hvalue, .inr ⟨hpure, hclash⟩⟩

/-- Storing a value: it is stored where its copy is, or in front of all values. -/
theorem store {line : SourceLine} {ref : LocalRef} {s t : SimState}
    (h : Means answer w₀ s.statements s.nextMark (p :: entries) w) (htype : ref.type = .int)
    (hstack : s.stack = entries.map (·.held))
    (ht : Stored p.held (.assign line (.localVar line ref) p.held.expr)
      (.expr line (.assign line (.localVar line ref) p.held.expr)) s t)
    (hpass : mayPrecede (.assign line (.localVar line ref) p.held.expr)
      (s.stack.takeWhile fun u => !areCopies p.held u) = true)
    (halone : alone p.held ((s.stack.dropWhile fun u => !areCopies p.held u).drop 1) = true) :
    ∃ entries', t.stack = entries'.map (·.held) ∧ entries'.map (·.value) = entries.map (·.value) ∧
      Means answer w₀ t.statements t.nextMark entries' (w.set ref.slot p.value) := by
  cases ht with
  -- no copy is held: the store becomes a statement, and nothing is held that it would disturb
  | statement hnone =>
    refine ⟨entries, hstack, rfl, ?_⟩
    have halone' : alone p.held (entries.map (·.held)) = true := by
      refine alone_iff.2 (.inr fun u hu hcopy => ?_)
      rw [hnone u (hstack ▸ hu)] at hcopy
      cases hcopy
    have hall : s.stack.takeWhile (fun u => !areCopies p.held u) = entries.map (·.held) := by
      rw [← hstack]
      exact List.takeWhile_eq_self_iff.2 fun u hu => by simp [hnone u hu]
    obtain ⟨v, hrest, heval⟩ := h.uncons halone'
    have hstmt : (SimpleStmt.expr line (.assign line (.localVar line ref) p.held.expr)).IsInt :=
      .expr (.assign htype (h.ints p List.mem_cons_self))
    have hemit := hrest.emit hstmt (by rwa [hall] at hpass)
    simpa only [Expr.evalInt, heval] using hemit
  -- a copy is held: the store takes its place, so that what is above is evaluated before it as it was
  | @copy above below copy hs habove hcopy =>
    obtain ⟨aboveP, lower, rfl, rfl, hlower⟩ := List.map_eq_append_iff.1 (hstack.symm.trans hs)
    obtain ⟨q, belowP, rfl, rfl, rfl⟩ := List.map_eq_cons_iff.1 hlower
    have htake : s.stack.takeWhile (fun u => !areCopies p.held u) = aboveP.map (·.held) := by
      rw [hs, List.takeWhile_append_of_pos fun u hu => by simp [habove u hu]]
      simp [hcopy]
    have hdrop : (s.stack.dropWhile fun u => !areCopies p.held u).drop 1 = belowP.map (·.held) := by
      rw [hs, List.dropWhile_append_of_pos fun u hu => by simp [habove u hu]]
      simp [hcopy]
    rw [htake] at hpass
    rw [hdrop] at halone
    obtain ⟨hrelated, hpairs⟩ := List.pairwise_cons.1 h.related
    have hvalue : p.value = q.value := (hrelated q (by simp) hcopy).1
    have hmem : ∀ r ∈ aboveP ++ ⟨⟨.assign line (.localVar line ref) p.held.expr, none⟩, p.value⟩ :: belowP,
        r = ⟨⟨.assign line (.localVar line ref) p.held.expr, none⟩, p.value⟩ ∨
          r ∈ p :: (aboveP ++ q :: belowP) := by
      intro r hr
      simp only [List.mem_append, List.mem_cons] at hr ⊢
      tauto
    have hyields := h.yields.assign_copy htype h.ints (hrelated q (by simp)) hcopy
      (fun r hr => habove r.held (List.mem_map_of_mem hr)) halone
      fun r hr => List.all_eq_true.1 hpass r.held (List.mem_map_of_mem hr)
    refine ⟨aboveP ++ ⟨⟨.assign line (.localVar line ref) p.held.expr, none⟩, p.value⟩ :: belowP,
      by simp, by simp [hvalue], hyields, fun r hr => ?_, ?_, fun r hr m hm => ?_, h.statements⟩
    · rcases hmem r hr with rfl | hr
      · exact .assign htype (h.ints p List.mem_cons_self)
      · exact h.ints r hr
    -- a store is no copy of anything, so the pairs that are left were pairs before
    · obtain ⟨habove, hlower, hbetween⟩ := List.pairwise_append.1 hpairs
      refine List.pairwise_append.2 ⟨habove, List.pairwise_cons.2 ⟨fun _ _ hcopy => (nomatch hcopy),
        (List.pairwise_cons.1 hlower).2⟩, fun r hr => List.forall_mem_cons.2 ⟨fun hcopy => ?_,
          fun x hx => hbetween r hr x (List.mem_cons_of_mem _ hx)⟩⟩
      rw [areCopies_comm] at hcopy
      cases hcopy
    · rcases hmem r hr with rfl | hr
      · cases hm
      · exact h.marks r hr m hm

end Means

/-! ## Steps -/

/-- A state of a run from the world `w₀` means what the machine has come to. -/
def Simulates (answer : List IntCall → IntCall → Int32) (w₀ : World) (s : SimState)
    (m : List Int32 × World) : Prop :=
  ∃ entries, s.stack = entries.map (·.held) ∧ m.1 = entries.map (·.value) ∧
    Means answer w₀ s.statements s.nextMark entries m.2

section Steps

variable {ctx : SimContext} {answer : List IntCall → IntCall → Int32} {w₀ : World}
  {i : PlacedInstruction} {s : SimState} {m m' : List Int32 × World}

/-- An operator does what its instruction does. -/
theorem onInts?_ofArith (op : ArithOp) : (BinaryOp.ofArith op).onInts? = op.onInts? := by
  cases op <;> rfl

/-- An expression with an `int` value is not wide. -/
theorem isWide_of_isInt {v : StackValue} (h : v.expr.IsInt) : v.isWide = false := by
  rw [StackValue.isWide, h.type]
  rfl

/-- A method that is called has the parameters and the result of its descriptor. -/
theorem intMethod?_eq_some {pool : ConstantPool} {index : UInt16} {method : IntMethod}
    (h : pool.intMethod? index = some method) : ∃ type, pool.memberRef? index = some method.ref ∧
      MethodTy.ofDescriptor? method.ref.descriptor = some type ∧
        type.parameters.length = method.arity ∧
          type.result = if method.hasResult then .int else .void := by
  simp only [ConstantPool.intMethod?, Option.bind_eq_bind, Option.bind_eq_some_iff] at h
  obtain ⟨ref, href, type, htype, h⟩ := h
  split at h
  · split at h
    · rename_i hresult
      obtain rfl := Option.some.inj h
      exact ⟨type, href, htype, rfl, hresult⟩
    · rename_i hresult
      obtain rfl := Option.some.inj h
      exact ⟨type, href, htype, rfl, hresult⟩
    · cases h
  · cases h

/-- The result of a call is a value on the stack; a call without a result is a statement. -/
theorem pushOrEmit_simulates {line : SourceLine} {call : Expr} {hasResult : Bool} {rest : List Pending}
    {v w : World} {x : Int32} (hrest : Means answer w₀ s.statements s.nextMark rest v)
    (hstack : s.stack = rest.map (·.held)) (heval : call.evalInt answer v = (x, w))
    (hint : hasResult = true → call.IsInt) (hstmt : hasResult = false → (SimpleStmt.expr line call).IsInt)
    (hpass : (hasResult || mayPrecede call (rest.map (·.held))) = true) :
    Simulates answer w₀ (after (pushOrEmit line (if hasResult then .int else .void) call) s)
      (if hasResult then x :: rest.map (·.value) else rest.map (·.value), w) := by
  cases hasResult with
  | true =>
    refine ⟨⟨⟨call, none⟩, x⟩ :: rest, ?_, rfl, hrest.push (hint rfl) heval⟩
    rw [List.map_cons, ← hstack]
    rfl
  | false =>
    have hemit := hrest.emit (hstmt rfl) hpass
    rw [heval] at hemit
    exact ⟨rest, hstack, rfl, hemit⟩

/-- A harmless call is simulated. -/
theorem invoke_simulates {line : SourceLine} {index : UInt16} {address length : Nat}
    (h : Simulates answer w₀ s m)
    (hexec : (Instruction.invoke .static index).execInt? ctx.pool answer m = some m')
    (hharmless : isHarmless ctx.pool ⟨address, length, line, .invoke .static index⟩ s.stack = true) :
    Simulates answer w₀ (after (invoke ctx.pool line .static index) s) m' := by
  obtain ⟨entries, hstack, hvalues, hmeans⟩ := h
  obtain ⟨values, w⟩ := m
  obtain rfl : values = _ := hvalues
  simp only [Instruction.execInt?, Option.bind_eq_bind, Option.bind_eq_some_iff] at hexec
  obtain ⟨method, hmethod, hexec⟩ := hexec
  obtain ⟨type, hm, htype, harity, hresult⟩ := intMethod?_eq_some hmethod
  split at hexec
  · cases hexec
  rename_i hlength
  obtain rfl := Option.some.inj hexec
  have hn : method.arity ≤ entries.length := by simpa using hlength
  have hmethods : ((ctx.pool.intMethod? index).all fun _ => _) = true := hharmless
  rw [hmethod, Option.all_some, hstack] at hmethods
  obtain ⟨halone, hpass⟩ := Bool.and_eq_true_iff.1 hmethods
  rw [← List.map_take, ← List.map_drop] at hpass
  -- the arguments come off the stack, and evaluating them gives the machine's values
  have hpopped : StateT.run (popArgs line type.parameters.length) s =
      ((((entries.take method.arity).map (·.held)).map (·.expr)).reverse,
        { s with stack := (entries.drop method.arity).map (·.held) }) := by
    have hsplit : s.stack = (entries.take method.arity).map (·.held) ++
        (entries.drop method.arity).map (·.held) := by
      rw [hstack, ← List.map_append, List.take_append_drop]
    have hrun := run_popArgs line _ _ hsplit
    rw [harity]
    rwa [List.length_map, List.length_take_of_le hn] at hrun
  have hafter := congrArg Prod.snd hpopped
  obtain ⟨v, hrest, hargs⟩ := hmeans.take method.arity hn halone
  have hints : ∀ e ∈ (((entries.take method.arity).map (·.held)).map (·.expr)).reverse, e.IsInt := by
    intro e he
    obtain ⟨p, hp, rfl⟩ : ∃ p ∈ entries.take method.arity, p.held.expr = e := by
      simpa only [List.mem_reverse, List.map_map, List.mem_map, Function.comp_apply] using he
    exact hmeans.ints p (List.mem_of_mem_take hp)
  unfold invoke
  simp only [hm, callType, htype, Option.getD_some, pure_bind, if_true]
  rw [after_bind, hpopped, show after _ s = _ from hafter, hresult, ← List.map_take, ← List.map_drop]
  refine pushOrEmit_simulates hrest rfl ?_ (fun hres => ?_) (fun hres => ?_) hpass
  · simp only [Expr.evalInt, hargs]
  · exact .call (by simp [Expr.resultType, htype, hresult, hres]) hints
  · exact .call (by simp [Expr.resultType, htype, hresult, hres]) hints

/-- A harmless stack operation is simulated. -/
theorem stackOp_simulates {line : SourceLine} {op : StackOp} {address length : Nat}
    (h : Simulates answer w₀ s m) (hexec : (Instruction.stack op).execInt? ctx.pool answer m = some m')
    (hharmless : isHarmless ctx.pool ⟨address, length, line, .stack op⟩ s.stack = true) :
    Simulates answer w₀ (after (stackOp line op) s) m' := by
  obtain ⟨entries, hstack, hvalues, hmeans⟩ := h
  obtain ⟨stack, statements, condition, switchKey, diagnostics, nextMark, reported⟩ := s
  obtain ⟨values, w⟩ := m
  obtain rfl : stack = _ := hstack
  obtain rfl : values = _ := hvalues
  cases op with
  | dup =>
    obtain _ | ⟨p, entries⟩ := entries
    · cases hexec
    obtain rfl := Option.some.inj hexec
    have hdepth : depth [p.held] = 1 := depth_narrow (isWide_of_isInt (hmeans.ints p (by simp))) []
    have hafter := @after_duplicate ⟨(p :: entries).map (·.held), statements, condition, switchKey,
      diagnostics, nextMark, reported⟩ line [p.held] [] (entries.map (·.held)) rfl
    rw [hdepth, markAll_singleton] at hafter
    show Simulates answer w₀ (after (duplicate line 1 0) _) _
    rw [show (0 : Nat) = depth [] from rfl, hafter]
    exact ⟨_, rfl, rfl, hmeans.duplicate⟩
  | dupX1 =>
    obtain _ | ⟨p, _ | ⟨q, entries⟩⟩ := entries
    · cases hexec
    · cases hexec
    obtain rfl := Option.some.inj hexec
    have hdepth : depth [p.held] = 1 := depth_narrow (isWide_of_isInt (hmeans.ints p (by simp))) []
    have hdepth' : depth [q.held] = 1 := depth_narrow (isWide_of_isInt (hmeans.ints q (by simp))) []
    have hafter := @after_duplicate ⟨(p :: q :: entries).map (·.held), statements, condition,
      switchKey, diagnostics, nextMark, reported⟩ line [p.held] [q.held] (entries.map (·.held)) rfl
    rw [hdepth, hdepth', markAll_singleton] at hafter
    show Simulates answer w₀ (after (duplicate line 1 1) _) _
    rw [hafter]
    -- the lower copy changes places with the value that is skipped
    refine ⟨_, rfl, rfl, hmeans.duplicate.exchange [⟨marked nextMark p.held, p.value⟩] ?_⟩
    rw [expr_marked]
    exact hharmless
  | swap =>
    obtain _ | ⟨p, _ | ⟨q, entries⟩⟩ := entries
    · cases hexec
    · cases hexec
    obtain rfl := Option.some.inj hexec
    exact ⟨_, rfl, rfl, hmeans.exchange [] hharmless⟩
  | pop =>
    obtain _ | ⟨p, entries⟩ := entries
    · cases hexec
    obtain rfl := Option.some.inj hexec
    have hafter : after (stackOp line .pop) ⟨(p :: entries).map (·.held), statements, condition,
        switchKey, diagnostics, nextMark, reported⟩ = ⟨entries.map (·.held),
        statements ++ ([p.held.expr].filter hasEffect).map (.expr line), condition, switchKey,
        diagnostics, nextMark, reported⟩ := after_discard line p.held.expr _
    rw [hafter]
    exact ⟨entries, rfl, rfl, hmeans.pop hharmless⟩
  | _ => cases hexec

/-- A harmless instruction leaves a state that means what the machine comes to. -/
theorem step_simulates (h : Simulates answer w₀ s m)
    (hexec : i.operation.execInt? ctx.pool answer m = some m')
    (hharmless : isHarmless ctx.pool i s.stack = true) :
    Simulates answer w₀ (after (step ctx i) s) m' := by
  obtain ⟨entries, hstack, hvalues, hmeans⟩ := h
  obtain ⟨address, length, line, operation⟩ := i
  obtain ⟨stack, statements, condition, switchKey, diagnostics, nextMark, reported⟩ := s
  obtain ⟨values, w⟩ := m
  obtain rfl : stack = _ := hstack
  obtain rfl : values = _ := hvalues
  dsimp only at hexec hmeans hharmless
  unfold step
  dsimp only
  -- only instructions on numbers are executed, and each of them asks for what is harmless there
  cases operation with
  | push value form =>
    obtain rfl := Option.some.inj hexec
    exact ⟨_, rfl, rfl, hmeans.push .literal rfl⟩
  | ldc index =>
    cases hget : ctx.pool.get? index with
    | none => simp [Instruction.execInt?, hget] at hexec
    | some c =>
      cases c with
      | integer value =>
        simp only [Instruction.execInt?, hget, Option.some.injEq] at hexec
        subst hexec
        have hconstant : constant ctx.pool line index = .literal line (.int value none) := by
          simp only [constant, hget]
        dsimp only
        rw [hconstant]
        exact ⟨_, rfl, rfl, hmeans.push .literal rfl⟩
      | _ => simp [Instruction.execInt?, hget] at hexec
  | load type slot =>
    cases type with
    | int =>
      obtain rfl := Option.some.inj hexec
      have hint : Expr.IsInt (.localVar line (.ofSlot slot address .int)) := .localVar rfl
      have hload : (!ctx.isStatic && slot = 0 && OperandType.int = .reference) = false := by simp
      dsimp only
      rw [if_neg (by rw [hload]; exact Bool.noConfusion)]
      exact ⟨_, rfl, rfl, hmeans.push hint rfl⟩
    | _ => cases hexec
  | store type slot =>
    cases type with
    | int =>
      obtain _ | ⟨p, entries⟩ := entries
      · cases hexec
      obtain rfl := Option.some.inj hexec
      obtain ⟨hpass, halone⟩ := Bool.and_eq_true_iff.1 hharmless
      let popped : SimState := ⟨entries.map (·.held), statements, condition, switchKey, diagnostics,
        nextMark, reported⟩
      obtain ⟨entries', hstack, hvalues, hafter⟩ := Means.store (s := popped) hmeans rfl rfl
        (stored_assign line _ p.held popped) hpass halone
      exact ⟨entries', hstack, hvalues.symm, hafter⟩
    | _ => cases hexec
  -- an increment of what is on top joins it, any other one becomes a statement
  | iinc slot delta =>
    obtain rfl := Option.some.inj hexec
    have hstmt : (SimpleStmt.expr line (.increment line
        (.localVar line (.ofSlot slot (address + length) .int)) delta.toInt32 false)).IsInt :=
      .expr (.increment rfl)
    obtain _ | ⟨p, entries⟩ := entries
    · exact ⟨[], rfl, rfl, hmeans.emit hstmt rfl⟩
    show Simulates answer w₀ (after (if p.held.expr.isLocalSlot slot then _ else _) _) _
    cases hlocal : p.held.expr.isLocalSlot slot with
    | true =>
      let added : Expr := .increment line (.localVar line (.ofSlot slot (address + length) .int))
        delta.toInt32 false
      exact ⟨⟨⟨added, p.held.mark⟩, p.value⟩ :: entries, rfl, rfl, hmeans.increment hlocal rfl rfl⟩
    | false =>
      have hpass : (p.held.expr.isLocalSlot slot || mayPrecede _ _) = true := hharmless
      rw [hlocal, Bool.false_or] at hpass
      exact ⟨_, rfl, rfl, hmeans.emit hstmt hpass⟩
  | arith op type =>
    cases type with
    | int =>
      obtain _ | ⟨right, _ | ⟨left, entries⟩⟩ := entries
      · cases hexec
      · cases hexec
      obtain ⟨f, hop, rfl⟩ := Option.map_eq_some_iff.1 hexec
      rw [← onInts?_ofArith] at hop
      obtain ⟨v, hrest, heval⟩ := hmeans.take 2 (by simp) hharmless
      refine ⟨_, rfl, rfl, hrest.push (.binary hop (hmeans.ints _ (by simp)) (hmeans.ints _ (by simp))) ?_⟩
      have hvalues : Expr.evalInts answer [left.held.expr, right.held.expr] v =
          ([left.value, right.value], w) := heval
      simp only [Expr.evalInts, Prod.mk.injEq, List.cons.injEq, and_true] at hvalues
      obtain ⟨⟨hleft, hright⟩, hworld⟩ := hvalues
      simp [Expr.evalInt, hop, hleft, hright, hworld]
    | _ => cases hexec
  | stack op => exact stackOp_simulates ⟨entries, rfl, rfl, hmeans⟩ hexec hharmless
  | invoke kind index =>
    cases kind with
    | static => exact invoke_simulates ⟨entries, rfl, rfl, hmeans⟩ hexec hharmless
    | _ => cases hexec
  | _ => cases hexec

/-- An addition to a slot and the load behind it, taken together. -/
theorem fold_simulates {j : PlacedInstruction} {rest : List PlacedInstruction} {e : Expr}
    (h : Simulates answer w₀ s m) (hpre : preIncrement? s.stack i (j :: rest) = some e)
    (hexec : PlacedInstruction.execInts? ctx.pool answer [i, j] m = some m') :
    Simulates answer w₀ (after (push e) s) m' := by
  obtain ⟨entries, hstack, hvalues, hmeans⟩ := h
  obtain ⟨slot, delta, hi, hj, rfl⟩ := preIncrement?_eq_some hpre
  obtain ⟨values, w⟩ := m
  obtain rfl : values = _ := hvalues
  simp only [PlacedInstruction.execInts?, List.foldlM_cons, List.foldlM_nil, hi, hj,
    Instruction.execInt?, Option.bind_eq_bind, Option.bind_some, Option.pure_def,
    Option.some.injEq] at hexec
  subst hexec
  let added : Expr := .increment i.line (.localVar i.line (.ofSlot slot i.next .int)) delta.toInt32 true
  refine ⟨⟨⟨added, none⟩, w.slots slot + delta.toInt32⟩ :: entries, ?_, ?_,
    hmeans.push (.increment rfl) rfl⟩
  · rw [List.map_cons, ← hstack]
    rfl
  · simp [World.set]

/-- In front of a run, the values on the stack are still to be evaluated. -/
theorem simulates_start {entry : List Expr} (hentry : ∀ e ∈ entry, e.IsInt) (w : World) :
    Simulates answer w (start entry)
      ((Expr.evalInts answer entry w).1.reverse, (Expr.evalInts answer entry w).2) := by
  induction entry using List.reverseRecOn with
  | nil => exact ⟨[], rfl, rfl, .nil⟩
  | append_singleton entry e ih =>
    obtain ⟨hbelow, he⟩ := List.forall_mem_append.1 hentry
    obtain ⟨entries, hstack, hvalues, hmeans⟩ := ih hbelow
    let evaluated := e.evalInt answer (Expr.evalInts answer entry w).2
    refine ⟨⟨⟨e, none⟩, evaluated.1⟩ :: entries, ?_, ?_, ?_⟩
    · rw [List.map_cons, ← hstack]
      simp [start]
    · rw [List.map_cons, ← hvalues, Expr.evalInts_append]
      simp [Expr.evalInts, evaluated]
    · rw [Expr.evalInts_append]
      exact hmeans.push (he e (List.mem_singleton_self e)) rfl

/-- Along a run of harmless instructions, the states mean what the machine comes to. -/
theorem simulates_of_mem_points {is : List PlacedInstruction} {w : World} {final : List Int32 × World}
    (hstart : Simulates answer w s m) (hexec : PlacedInstruction.execInts? ctx.pool answer is m = some final)
    (hharmless : ∀ p ∈ points ctx [] is s, p.isHarmless ctx.pool = true) :
    ∀ p ∈ points ctx [] is s, ∃ m',
      PlacedInstruction.execInts? ctx.pool answer p.behind m = some m' ∧
        PlacedInstruction.execInts? ctx.pool answer p.ahead m' = some final ∧
          Simulates answer w p.state m' := by
  -- from point to point: a pair that is run as one is executed as two
  refine points_induction ⟨m, rfl, hexec, hstart⟩ ?_ ?_
  · rintro behind i j rest t e ⟨m, hbehind, hahead, hsim⟩ hpre
    rw [show i :: j :: rest = [i, j] ++ rest from rfl, PlacedInstruction.execInts?_append] at hahead
    obtain ⟨m', hpair, hrest⟩ := Option.bind_eq_some_iff.1 hahead
    refine ⟨m', ?_, hrest, fold_simulates hsim hpre hpair⟩
    rw [PlacedInstruction.execInts?_append, hbehind]
    exact hpair
  · rintro behind i rest t hmem ⟨m, hbehind, hahead, hsim⟩ hpre
    rw [show i :: rest = [i] ++ rest from rfl, PlacedInstruction.execInts?_append] at hahead
    obtain ⟨m', hone, hrest⟩ := Option.bind_eq_some_iff.1 hahead
    have hexec : i.operation.execInt? ctx.pool answer m = some m' := by
      simpa [PlacedInstruction.execInts?] using hone
    have hi : Sim.isHarmless ctx.pool i t.stack = true := by
      simpa [Point.isHarmless, hpre] using hharmless _ hmem
    obtain ⟨entries, hstack, hvalues, hmeans⟩ := step_simulates hsim hexec hi
    refine ⟨m', ?_, hrest, entries, stack_next.trans hstack, hvalues, ?_⟩
    · rw [PlacedInstruction.execInts?_append, hbehind]
      exact hone
    · rw [statements_next, nextMark_next]
      exact hmeans

end Steps

end Sim

/-- **What a block means.** Let the machine run a block from the `int` values that the expressions of an entry
stack have, and from the world behind their evaluation. If all instructions are harmless, what is left means
the same: executing the statements, from the world in front of that evaluation, and then evaluating the stack
from the bottom gives the values on the machine's stack, the same slots, and the same calls with the same
arguments in the same order. -/
theorem Block.simulate_meaning {ctx : SimContext} {answer : List IntCall → IntCall → Int32} {b : Block}
    {entry : List Expr} {w w' : World} {values : List Int32} (hentry : ∀ e ∈ entry, e.IsInt)
    (hexec : PlacedInstruction.execInts? ctx.pool answer b.instructions
      ((Expr.evalInts answer entry w).1.reverse, (Expr.evalInts answer entry w).2) = some (values, w'))
    (hharmless : ∀ p ∈ Sim.points ctx [] b.instructions (Sim.start entry), p.isHarmless ctx.pool = true) :
    (∀ stmt ∈ (b.simulate ctx entry).statements, stmt.IsInt) ∧
      (∀ e ∈ (b.simulate ctx entry).exitStack, e.IsInt) ∧
        Expr.evalInts answer (b.simulate ctx entry).exitStack
          (SimpleStmt.runInts answer (b.simulate ctx entry).statements w) = (values.reverse, w') := by
  -- the last point is the one behind the block, where everything held is taken
  have hend : ⟨b.instructions, [], Sim.after (Sim.run ctx b.instructions) (Sim.start entry)⟩ ∈
      Sim.points ctx [] b.instructions (Sim.start entry) := Sim.end_mem_points
  obtain ⟨m, hm, -, entries, hstack, hvalues, hmeans⟩ :=
    Sim.simulates_of_mem_points (Sim.simulates_start hentry w) hexec hharmless _ hend
  obtain rfl := Option.some.inj (hm.symm.trans hexec)
  have halone : Sim.allAlone entries.length (entries.map (·.held)) = true := by
    have hlast := hharmless _ hend
    simp only [Sim.Point.isHarmless] at hlast
    rwa [hstack, List.length_map] at hlast
  obtain ⟨v, hnil, heval⟩ := hmeans.take entries.length (Nat.le_refl _) halone
  rw [List.drop_length] at hnil
  rw [List.take_length] at heval
  have hv : v = SimpleStmt.runInts answer (b.simulate ctx entry).statements w := by
    cases hnil.yields
    rfl
  have hexit : (b.simulate ctx entry).exitStack = ((entries.map (·.held)).map (·.expr)).reverse := by
    rw [Block.simulate_eq]
    dsimp only
    rw [hstack]
  refine ⟨hmeans.statements, fun e he => ?_, ?_⟩
  · rw [hexit] at he
    obtain ⟨p, hp, rfl⟩ : ∃ p ∈ entries, p.held.expr = e := by simpa using he
    exact hmeans.ints p hp
  · rw [hexit, ← hv, heval, ← hvalues]

/-- The constants of a class `T` with a static method `f` that returns an `int`. -/
def callingPool : ConstantPool :=
  .ofSlots [none, some (.utf8 "T"), some (.classRef 1), some (.utf8 "f"), some (.utf8 "()I"),
    some (.nameAndType 3 4), some (.methodref 2 5)]

/-- The result of a call is stored twice, and the slot is multiplied by twice its next value, behind a load
that is still on the stack. -/
theorem Block.simulate_meaning_copiedCall :
    let ctx : SimContext := ⟨callingPool, true, 4⟩
    let answer : List IntCall → IntCall → Int32 := fun _ _ => 7
    let w : World := ⟨fun slot => slot.toNat.toInt32, []⟩
    let entry : List Expr := [.localVar none (.ofSlot 3 0 .int)]
    let b : Block := ⟨0, [.invoke .static 6, .stack .dup, .store .int 1, .store .int 0, .load .int 0,
      .iinc 0 1, .load .int 0, .push 2 .iconst, .arith .mul .int, .arith .mul .int].map fun operation =>
        ⟨0, 1, none, operation⟩, .fallThrough 1⟩
    (∀ e ∈ entry, e.IsInt) ∧ ∃ w',
      PlacedInstruction.execInts? ctx.pool answer b.instructions
        ((Expr.evalInts answer entry w).1.reverse, (Expr.evalInts answer entry w).2) = some ([112, 3], w') ∧
      (∀ p ∈ Sim.points ctx [] b.instructions (Sim.start entry), p.isHarmless ctx.pool = true) ∧
        Expr.evalInts answer (b.simulate ctx entry).exitStack
          (SimpleStmt.runInts answer (b.simulate ctx entry).statements w) = ([3, 112], w') := by
  intro ctx answer w entry b
  have hentry : ∀ e ∈ entry, e.IsInt := List.forall_mem_singleton.2 (.localVar rfl)
  have hharmless : ∀ p ∈ Sim.points ctx [] b.instructions (Sim.start entry),
      p.isHarmless ctx.pool = true := by
    decide +kernel
  have hvalues : (PlacedInstruction.execInts? ctx.pool answer b.instructions
      ((Expr.evalInts answer entry w).1.reverse, (Expr.evalInts answer entry w).2)).map (·.1) =
        some [112, 3] := by
    decide +kernel
  obtain ⟨⟨_, w'⟩, hexec, rfl⟩ := Option.map_eq_some_iff.1 hvalues
  exact ⟨hentry, w', hexec, hharmless, (Block.simulate_meaning hentry hexec hharmless).2.2⟩

/-- Each of the four ways to change the meaning occurs. The machine makes some calls and leaves some values,
given from the bottom; the statements and the stack that are left lose the call, read the slot behind the
store, evaluate the two values the other way round, and make the call twice. -/
theorem Block.meaning_changed :
    let ctx : SimContext := ⟨callingPool, true, 2⟩
    let answer : List IntCall → IntCall → Int32 := fun _ _ => 7
    let f : IntCall := ⟨"T", "f", "()I", []⟩
    let w : World := ⟨fun _ => 0, []⟩
    let differs (operations : List Instruction) (machine left : List Int32 × List IntCall) : Prop :=
      let b : Block := ⟨0, operations.map fun operation => ⟨0, 1, none, operation⟩, .fallThrough 1⟩
      let r := b.simulate ctx []
      let run := Expr.evalInts answer r.exitStack (SimpleStmt.runInts answer r.statements w)
      (PlacedInstruction.execInts? ctx.pool answer b.instructions ([], w)).map
          (fun m => (m.1.reverse, m.2.calls)) = some machine ∧
        (run.1, run.2.calls) = left ∧ machine ≠ left
    differs [.invoke .static 6, .push 1 .iconst, .arith .add .int, .stack .pop] ([], [f]) ([], []) ∧
      differs [.load .int 0, .push 5 .iconst, .store .int 0] ([0], []) ([5], []) ∧
      differs [.load .int 0, .iinc 0 1, .load .int 0, .stack .swap] ([1, 0], []) ([1, 1], []) ∧
      differs [.invoke .static 6, .stack .dup, .arith .add .int] ([14], [f]) ([14], [f, f]) := by
  decide +kernel

end JvmDecompiler
