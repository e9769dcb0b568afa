import JvmDecompiler.Proofs.Execution
import JvmDecompiler.Proofs.Progress

/-!
# Where `break` and `continue` lead

A `break` without a label leaves the innermost loop or switch around it, a `continue` without a label
goes on with the innermost loop, and one with a label means the statement that has this label. The
judgement `Stmt.Placed` says of a statement that all jumps in it lead where they should: it goes through
the statement with the loops and switches around it, each with what structuring has noted of it, and
compares the target of the statement that a jump means with the block that the jump was written for.

Taking statements out of lists, as cleaning up does, keeps the judgement (`Thins.placed`).
-/

namespace JvmDecompiler

open Structurer (Note)

/-- A loop or a switch around a statement. -/
structure Enclosing where
  /-- What structuring knows of the loop or switch. -/
  frame : Breakable
  /-- Whether its label stands in front of it. -/
  labeled : Bool

namespace Enclosing

/-- Whether the statement is a loop. -/
def isLoop (e : Enclosing) : Bool := e.frame.header.isSome

/-- Whether a label stands in front of the statement. -/
def isNamed (label : String) (e : Enclosing) : Bool := e.labeled && e.frame.label = label

/-- The statement with a label, if there is exactly one. -/
def named? (around : List Enclosing) (label : String) : Option Enclosing :=
  match around.filter (·.isNamed label) with
  | [e] => some e
  | _ => none

end Enclosing

/-- What a statement has to do with `break` and `continue`. -/
inductive JumpRole where
  | jump
  | loop
  | switch
  | labeled
  | plain
  deriving DecidableEq

namespace Stmt

/-- What the statement has to do with `break` and `continue`. -/
def jumpRole : Stmt → JumpRole
  | breakTo _ | continueTo _ => .jump
  | whileLoop .. | doWhile .. | forLoop .. | forEach .. => .loop
  | switch .. => .switch
  | labeled .. => .labeled
  | _ => .plain

/-- The statement without what is in the lists inside it. -/
def head : Stmt → Stmt
  | block _ => block []
  | ifElse condition _ _ => ifElse condition [] []
  | whileLoop condition _ => whileLoop condition []
  | doWhile _ condition => doWhile [] condition
  | forLoop _ condition _ _ => forLoop [] condition [] []
  | forEach var iterable _ => forEach var iterable []
  | switch key cases => switch key (cases.map fun c => { c with body := [] })
  | tryCatch .. => tryCatch [] [] none
  | synchronized object _ => synchronized object []
  | labeled name body => labeled name body.head
  | s => s

/-- What a statement has to do with jumps does not depend on the lists inside it. -/
@[simp] theorem jumpRole_head (s : Stmt) : s.head.jumpRole = s.jumpRole := by
  cases s <;> simp [head, jumpRole]

/-- Jumps have no lists inside them. -/
theorem eq_of_head_eq {s t : Stmt} (hs : s.jumpRole = .jump) (h : t.head = s.head) : t = s := by
  have ht : t.jumpRole = .jump := by rw [← jumpRole_head, h, jumpRole_head, hs]
  have hhead : ∀ {u : Stmt}, u.jumpRole = .jump → u.head = u := by
    intro u hu
    cases u <;> simp_all [head, jumpRole]
  rw [← hhead hs, ← hhead ht, h]

/-- A function on statements that takes statements out of the lists inside them, and does nothing
else. -/
structure Thins (f : Stmt → Stmt) : Prop where
  head : ∀ s, (f s).head = s.head
  labeled : ∀ label s, f (.labeled label s) = .labeled label (f s)
  childLists : ∀ s, ∀ body ∈ (f s).childLists, ∃ inner ∈ s.childLists, body ⊆ inner.map f

/-- To take nothing out is to thin. -/
theorem Thins.id : Thins fun s => s where
  head _ := rfl
  labeled _ _ := rfl
  childLists _ body hbody := ⟨body, hbody, by rw [List.map_id']; exact List.Subset.refl body⟩

/-- To thin twice is to thin. -/
theorem Thins.comp {f g : Stmt → Stmt} (hf : Thins f) (hg : Thins g) : Thins fun s => f (g s) where
  head s := (hf.head _).trans (hg.head s)
  labeled label s := by rw [hg.labeled, hf.labeled]
  childLists s body hbody := by
    obtain ⟨middle, hmiddle, hsub⟩ := hf.childLists (g s) body hbody
    obtain ⟨inner, hinner, hsub'⟩ := hg.childLists s middle hmiddle
    refine ⟨inner, hinner, fun t ht => ?_⟩
    obtain ⟨u, hu, rfl⟩ := List.mem_map.1 (hsub ht)
    obtain ⟨v, hv, rfl⟩ := List.mem_map.1 (hsub' hu)
    exact List.mem_map.2 ⟨v, hv, rfl⟩

/-! ## The statement that a jump means -/

/-- The loop or switch that a jump means, given those around it from the inside. -/
def meant? (around : List Enclosing) : Stmt → Option Enclosing
  | breakTo none => around.head?
  | continueTo none => around.find? (·.isLoop)
  | breakTo (some name) => Enclosing.named? around name
  | continueTo (some name) => (Enclosing.named? around name).filter (·.isLoop)
  | _ => none

/-- The block to which a jump leads that means a loop or switch. -/
def leadsTo? (b : Breakable) : Stmt → Option BlockId
  | breakTo _ => b.breakTarget
  | continueTo _ => b.continueTarget
  | _ => none

/-- The jump has been written for one to a block, and that is where the loop or switch leads that it
means. -/
def Hits (notes : List Note) (around : List Enclosing) (s : Stmt) : Prop :=
  ∃ t e, Note.jump t s (around.map (·.frame)) ∈ notes ∧ s.meant? around = some e ∧
    s.leadsTo? e.frame = some t

/-- The statement is a loop or a switch that has been noted, but for statements that have been taken out
since, and no label but its own stands in front of it. -/
structure Known (notes : List Note) (label : Option String) (b : Breakable) (s : Stmt) : Prop where
  role : s.jumpRole = if b.header.isSome then .loop else .switch
  label : ∀ l ∈ label, l = b.label
  noted : ∃ written f, Note.enclosing b written ∈ notes ∧ Thins f ∧ f written = s

/-- All jumps in a statement lead where they should, given the loops and switches around it from the
inside and the label in front of it. -/
inductive Placed (notes : List Note) : List Enclosing → Option String → Stmt → Prop
  | jump {around : List Enclosing} {s : Stmt} (hs : s.jumpRole = .jump) (h : s.Hits notes around) :
      Placed notes around none s
  | labeled {around : List Enclosing} {label : String} {s : Stmt}
      (h : Placed notes around (some label) s) : Placed notes around none (.labeled label s)
  | enclosing {around : List Enclosing} {label : Option String} {s : Stmt} {b : Breakable}
      (hb : s.Known notes label b)
      (h : ∀ body ∈ s.childLists, ∀ t ∈ body, Placed notes (⟨b, label.isSome⟩ :: around) none t) :
      Placed notes around label s
  | plain {around : List Enclosing} {s : Stmt} (hs : s.jumpRole = .plain)
      (h : ∀ body ∈ s.childLists, ∀ t ∈ body, Placed notes around none t) :
      Placed notes around none s

/-- All jumps in a list lead where they should, given the loops and switches around it. -/
def AllPlaced (notes : List Note) (around : List Enclosing) (body : List Stmt) : Prop :=
  ∀ s ∈ body, s.Placed notes around none

section Lists

variable {notes : List Note} {around : List Enclosing} {body other : List Stmt} {s : Stmt}

@[simp] theorem allPlaced_nil : AllPlaced notes around [] := nofun

@[simp] theorem allPlaced_cons :
    AllPlaced notes around (s :: body) ↔ s.Placed notes around none ∧ AllPlaced notes around body :=
  List.forall_mem_cons

@[simp] theorem allPlaced_append :
    AllPlaced notes around (body ++ other) ↔
      AllPlaced notes around body ∧ AllPlaced notes around other := List.forall_mem_append

/-- Of statements that are placed some may be left out. -/
theorem AllPlaced.subset (h : AllPlaced notes around body) (hsub : other ⊆ body) :
    AllPlaced notes around other := fun s hs => h s (hsub hs)

/-- There is nothing to see to in a statement without lists that is no jump. -/
theorem Placed.leaf (hs : s.jumpRole = .plain) (h : s.childLists = []) :
    s.Placed notes around none := .plain hs (by simp [h])

/-- Simple statements hold no jumps. -/
theorem allPlaced_simple (stmts : List SimpleStmt) :
    AllPlaced notes around (stmts.map .simple) := by
  intro s hs
  obtain ⟨simple, -, rfl⟩ := List.mem_map.1 hs
  exact .leaf rfl rfl

end Lists

/-! ## Taking statements out of lists -/

/-- Thinning a statement leaves it a jump, a loop or a switch if it was one. -/
theorem Thins.jumpRole {f : Stmt → Stmt} (hf : Thins f) (s : Stmt) : (f s).jumpRole = s.jumpRole := by
  rw [← jumpRole_head, hf.head, jumpRole_head]

/-- A loop or a switch that has been noted is still known when statements are taken out of it. -/
theorem Thins.known {f : Stmt → Stmt} (hf : Thins f) {notes : List Note} {label : Option String}
    {b : Breakable} {s : Stmt} (h : s.Known notes label b) : (f s).Known notes label b where
  role := (hf.jumpRole s).trans h.role
  label := h.label
  noted := by
    obtain ⟨written, g, hnote, hg, rfl⟩ := h.noted
    exact ⟨written, _, hnote, hf.comp hg, rfl⟩

/-- Where statements are taken out, the jumps that stay lead where they did. -/
theorem Thins.placed {f : Stmt → Stmt} (hf : Thins f) {notes : List Note} {around : List Enclosing}
    {label : Option String} {s : Stmt} (h : s.Placed notes around label) :
    (f s).Placed notes around label := by
  have hlists : ∀ {s : Stmt} {around : List Enclosing},
      (∀ body ∈ s.childLists, ∀ t ∈ body, (f t).Placed notes around none) →
      ∀ body ∈ (f s).childLists, ∀ t ∈ body, t.Placed notes around none := by
    intro s around ih body hbody t ht
    obtain ⟨inner, hinner, hsub⟩ := hf.childLists s body hbody
    obtain ⟨u, hu, rfl⟩ := List.mem_map.1 (hsub ht)
    exact ih inner hinner u hu
  induction h with
  | jump hs h =>
    rw [eq_of_head_eq hs (hf.head _)]
    exact .jump hs h
  | labeled _ ih =>
    rw [hf.labeled]
    exact .labeled ih
  | enclosing hb _ ih => exact .enclosing (hf.known hb) (hlists ih)
  | plain hs _ ih => exact .plain ((hf.jumpRole _).trans hs) (hlists ih)

/-- Jumps still lead where they should when statements are taken out around them. -/
theorem Thins.allPlaced {f : Stmt → Stmt} (hf : Thins f) {notes : List Note}
    {around : List Enclosing} {body : List Stmt} (h : AllPlaced notes around body) :
    AllPlaced notes around (body.map f) := by
  intro s hs
  obtain ⟨t, ht, rfl⟩ := List.mem_map.1 hs
  exact hf.placed (h t ht)

end Stmt

/-! ## Cleaning up -/

open Stmt

variable {notes : List Note} {around : List Enclosing}

/-- Copies are deleted inside each statement of a list on its own. -/
theorem stripEach_eq_map (pattern body : List Stmt) :
    stripEach pattern body = body.map (stripInside pattern) := by
  induction body with
  | nil => rfl
  | cons s rest ih => rw [stripEach, ih, List.map_cons]

/-- Deleting copies adds nothing and keeps the order. -/
theorem removeCopies_sublist (pattern : List Stmt) (skip : Nat) (reversed : List (Stmt × Stmt)) :
    (removeCopies pattern skip reversed).Sublist (reversed.map (·.2)) := by
  induction reversed generalizing skip with
  | nil => exact .slnil
  | cons pair rest ih =>
    obtain ⟨s, kept⟩ := pair
    unfold removeCopies
    split
    · exact (ih skip).cons_cons kept
    · split
      · exact (ih _).cons kept
      · exact (ih _).cons_cons kept

/-- Stripping a list adds nothing and keeps the order. -/
theorem stripList_sublist (pattern : List Stmt) (atEnd : Bool) (body inner : List Stmt) :
    (stripList pattern atEnd body inner).Sublist inner := by
  have hzip : ∀ as bs : List Stmt, ((as.zip bs).map (·.2)).Sublist bs := by
    intro as bs
    induction as generalizing bs with
    | nil => exact List.nil_sublist bs
    | cons a as ih =>
      cases bs with
      | nil => exact .slnil
      | cons b bs => exact (ih bs).cons_cons b
  exact List.reverse_sublist.1 (by simpa [stripList] using (removeCopies_sublist _ _ _).trans (hzip _ _))

/-- The arms of a switch are stripped one by one. -/
theorem stripCases_eq_map (pattern : List Stmt) (arms : List SwitchCase) :
    stripCases pattern arms = arms.map fun c =>
      { c with body := stripList pattern false c.body (stripEach pattern c.body) } := by
  induction arms with
  | nil => rfl
  | cons c rest ih =>
    obtain ⟨labels, body, fallsThrough⟩ := c
    rw [stripCases, ih, List.map_cons]

/-- So are the clauses of a try statement. -/
theorem stripCatches_eq_map (pattern : List Stmt) (clauses : List CatchClause) :
    stripCatches pattern clauses = clauses.map fun c =>
      { c with body := stripList pattern false c.body (stripEach pattern c.body) } := by
  induction clauses with
  | nil => rfl
  | cons c rest ih =>
    obtain ⟨classes, var, body⟩ := c
    rw [stripCatches, ih, List.map_cons]

/-- Stripping changes nothing of a statement but the lists inside it. -/
theorem head_stripInside (pattern : List Stmt) (s : Stmt) : (stripInside pattern s).head = s.head := by
  match s with
  | .labeled name s => rw [stripInside, head, head_stripInside pattern s, head]
  | .switch key cases => simp [stripInside, head, stripCases_eq_map]
  | .simple _ | .block _ | .declaration .. | .ifElse .. | .whileLoop .. | .doWhile .. | .forLoop ..
  | .forEach .. | .tryCatch .. | .synchronized .. | .label _ | .breakTo _ | .continueTo _
  | .gotoLabel _ | .comment _ => simp [stripInside, head]

/-- It strips each of these lists. -/
theorem childLists_stripInside (pattern : List Stmt) (s : Stmt) :
    (stripInside pattern s).childLists =
      s.childLists.map fun body => stripList pattern false body (stripEach pattern body) := by
  match s with
  | .labeled name s => rw [stripInside, childLists, childLists_stripInside pattern s, childLists]
  | .switch key cases => simp [stripInside, childLists, stripCases_eq_map]
  | .tryCatch body catches finallyBody =>
    cases finallyBody <;> simp [stripInside, childLists, stripCatches_eq_map, stripFinally]
  | .simple _ | .block _ | .declaration .. | .ifElse .. | .whileLoop .. | .doWhile .. | .forLoop ..
  | .forEach .. | .synchronized .. | .label _ | .breakTo _ | .continueTo _ | .gotoLabel _
  | .comment _ => simp [stripInside, childLists]

/-- Stripping takes statements out of the lists inside a statement. -/
theorem thins_stripInside (pattern : List Stmt) : Thins (stripInside pattern) where
  head := head_stripInside pattern
  labeled _ _ := by rw [stripInside]
  childLists s body hbody := by
    rw [childLists_stripInside] at hbody
    obtain ⟨inner, hinner, rfl⟩ := List.mem_map.1 hbody
    exact ⟨inner, hinner, stripEach_eq_map pattern inner ▸ (stripList_sublist pattern false inner _).subset⟩

/-- Jumps still lead where they should when copies are deleted. -/
theorem Stmt.AllPlaced.stripCopies {body : List Stmt} (h : AllPlaced notes around body)
    (pattern : List Stmt) (atEnd : Bool) : AllPlaced notes around (stripCopies pattern atEnd body) :=
  ((thins_stripInside pattern).allPlaced h).subset
    (stripEach_eq_map pattern body ▸ (stripList_sublist pattern atEnd body _).subset)

/-! ### Labels that nothing names -/

section Retain

variable {r : Transform Id}

/-- What a transform that changes nothing but the lists of statements leaves of a statement. -/
theorem Transform.OnlyLists.onStmt (h : r.OnlyLists) (s : Stmt) :
    head (r.onStmt s) = s.head ∧
      childLists (r.onStmt s) = s.childLists.map fun body => r.body (r.onStmts body) := by
  -- in every form, first what the statement becomes, and then its head and its lists
  match s with
  | .simple s =>
    have heq : r.onStmt (.simple s) = .simple s := (h.stmt _).trans (congrArg Stmt.simple (h.onSimple s))
    exact ⟨congrArg head heq, congrArg childLists heq⟩
  | .declaration ref init =>
    have heq : r.onStmt (.declaration ref init) = .declaration ref init :=
      (h.stmt _).trans (by rw [h.localVar, h.onOption])
    exact ⟨congrArg head heq, congrArg childLists heq⟩
  | .label _ | .breakTo _ | .continueTo _ | .gotoLabel _ | .comment _ =>
    exact ⟨congrArg head (h.stmt _), congrArg childLists (h.stmt _)⟩
  | .block body =>
    have heq : r.onStmt (.block body) = .block (r.body (r.onStmts body)) := h.stmt _
    simp [heq, head, childLists]
  | .ifElse condition a b =>
    have heq : r.onStmt (.ifElse condition a b) =
        .ifElse condition (r.body (r.onStmts a)) (r.body (r.onStmts b)) :=
      (h.stmt _).trans (by rw [h.onExpr])
    simp [heq, head, childLists]
  | .whileLoop condition body =>
    have heq : r.onStmt (.whileLoop condition body) =
        .whileLoop condition (r.body (r.onStmts body)) := (h.stmt _).trans (by rw [h.onExpr])
    simp [heq, head, childLists]
  | .doWhile body condition =>
    have heq : r.onStmt (.doWhile body condition) = .doWhile (r.body (r.onStmts body)) condition :=
      (h.stmt _).trans (by rw [h.onExpr])
    simp [heq, head, childLists]
  | .forLoop init condition update body =>
    have heq : r.onStmt (.forLoop init condition update body) =
        .forLoop (r.body (r.onStmts init)) condition (r.body (r.onStmts update))
          (r.body (r.onStmts body)) := (h.stmt _).trans (by rw [h.onExpr])
    simp [heq, head, childLists]
  | .forEach ref iterable body =>
    have heq : r.onStmt (.forEach ref iterable body) =
        .forEach ref iterable (r.body (r.onStmts body)) :=
      (h.stmt _).trans (by rw [h.localVar, h.onExpr])
    simp [heq, head, childLists]
  | .switch key arms =>
    have heq : r.onStmt (.switch key arms) = .switch key (r.onCases arms) :=
      (h.stmt _).trans (by rw [h.onExpr])
    simp [heq, head, childLists, Transform.onCases_eq_map]
  -- the variables of the clauses may change, but they are not looked at
  | .tryCatch body catches finallyBody =>
    have heq : ∃ vars, r.onStmt (.tryCatch body catches finallyBody) =
        .tryCatch (r.body (r.onStmts body)) (r.onCatches vars catches)
          (finallyBody.map fun body => r.body (r.onStmts body)) := by
      cases finallyBody with
      | none => exact ⟨_, h.stmt _⟩
      | some last => exact ⟨_, h.stmt _⟩
    obtain ⟨vars, heq⟩ := heq
    rw [heq]
    cases finallyBody <;> simp [head, childLists, Transform.map_body_onCatches]
  | .synchronized object body =>
    have heq : r.onStmt (.synchronized object body) =
        .synchronized object (r.body (r.onStmts body)) := (h.stmt _).trans (by rw [h.onExpr])
    simp [heq, head, childLists]
  | .labeled name s =>
    have heq : r.onStmt (.labeled name s) = .labeled name (r.onStmt s) := h.stmt _
    obtain ⟨hhead, hlists⟩ := Transform.OnlyLists.onStmt h s
    rw [heq, head, childLists, head, childLists]
    exact ⟨congrArg _ hhead, hlists⟩

/-- A transform of lists only, that adds nothing to them, thins. -/
theorem Transform.OnlyLists.thins (h : r.OnlyLists) (hbody : ∀ body, List.Subset (r.body body) body) :
    Thins r.onStmt where
  head s := (h.onStmt s).1
  labeled _ _ := h.stmt _
  childLists s body hmem := by
    rw [(h.onStmt s).2] at hmem
    obtain ⟨inner, hinner, rfl⟩ := List.mem_map.1 hmem
    exact ⟨inner, hinner, Transform.onStmts_eq_map inner ▸ hbody _⟩

end Retain

/-- Jumps still lead where they should when unused labels are taken out. -/
theorem Stmt.AllPlaced.retainLabels {body : List Stmt} (h : AllPlaced notes around body)
    (used : List String) : AllPlaced notes around (retainLabels used body) := by
  obtain ⟨keep, -, heq⟩ := exists_retainLabels_eq used
  let r : Transform Id := { body := fun body => pure (body.filter keep) }
  have hr : r.OnlyLists :=
    { expr := fun _ => rfl, localVar := fun _ => rfl, simple := fun _ => rfl, stmt := fun _ => rfl }
  have hbody : ∀ body, List.Subset (r.body body) body := fun _ =>
    List.filter_sublist.subset
  have hall : AllPlaced notes around (r.onStmts body) :=
    Transform.onStmts_eq_map body ▸ (hr.thins hbody).allPlaced h
  exact heq body ▸ hall.subset (hbody _)

/-! ### Taking statements from the ends of lists -/

/-- The labels at the start of a list and what follows them are the list. -/
theorem splitLabels_append (body : List Stmt) : (splitLabels body).1 ++ (splitLabels body).2 = body := by
  rw [splitLabels, List.span_eq_takeWhile_dropWhile]
  exact List.takeWhile_append_dropWhile

/-- To take the variable of a clause from its body adds nothing to the body. -/
theorem takeCatchVar_subset (body : List Stmt) : (takeCatchVar body).2 ⊆ body := by
  unfold takeCatchVar
  have happend := splitLabels_append body
  split
  · rename_i labels s rest hsplit
    rw [hsplit] at happend
    split
    · rw [← happend]
      exact fun t ht => by simp only [List.mem_append, List.mem_cons] at ht ⊢; tauto
    · exact List.Subset.refl _
  · exact List.Subset.refl _

/-- The code of a `finally` part is some of the statements of its handler, in order. -/
theorem sublist_of_finallyCode? {body code : List Stmt} (h : finallyCode? body = some code) :
    code.Sublist body := by
  unfold finallyCode? at h
  split at h
  · rename_i first rest hcode
    simp only [Option.bind_eq_bind, Option.bind_eq_some_iff] at h
    obtain ⟨var, -, last, -, h⟩ := h
    have hsub : rest.Sublist body := by
      have hfilter : (codeOf body).Sublist body := List.filter_sublist
      rw [hcode] at hfilter
      exact (List.sublist_cons_self first rest).trans hfilter
    split at h
    · split at h
      · cases h
        exact (List.dropLast_sublist rest).trans hsub
      · cases h
    · cases h
  · cases h

/-- To take the lock of a synchronized statement from a list adds nothing to the list. -/
theorem subset_of_takeMonitorEnter? {body out : List Stmt} {object : Expr}
    (h : takeMonitorEnter? body = some (object, out)) : out ⊆ body := by
  unfold takeMonitorEnter? at h
  have happend := splitLabels_append body.reverse
  split at h
  · rename_i labels line o rest hsplit
    cases h
    rw [hsplit] at happend
    intro s hs
    rw [← List.mem_reverse, ← happend]
    simp only [List.mem_reverse, List.mem_append, List.mem_cons] at hs ⊢
    tauto
  · cases h

/-- To take the element of a loop from its body adds nothing to the body. -/
theorem subset_of_takeElement? {throughArray : Bool} {body rest : List Stmt} {var : LocalRef}
    (h : takeElement? throughArray body = some (var, rest)) : rest ⊆ body := by
  unfold takeElement? at h
  have happend := splitLabels_append body
  split at h
  · rename_i labels s tail hsplit
    rw [hsplit] at happend
    simp only [Option.bind_eq_bind, Option.bind_eq_some_iff] at h
    obtain ⟨⟨target, value⟩, -, h⟩ := h
    split at h
    · simp at h
    · simp only [Option.pure_def, Option.bind_eq_some_iff, Option.some.injEq, Prod.mk.injEq] at h
      obtain ⟨_, -, -, rfl⟩ := h
      rw [← happend]
      intro t ht
      simp only [List.mem_append, List.mem_cons] at ht ⊢
      tauto
  · cases h

end JvmDecompiler
