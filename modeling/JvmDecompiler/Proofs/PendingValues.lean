import JvmDecompiler.Proofs.IntEvaluation
import JvmDecompiler.Proofs.StackMoves

/-!
# Values that are still to be evaluated

The values on the stack of a run are expressions that have not been evaluated yet. What they stand for is
found by evaluating them from the bottom, where a copy of a value that is already there is not evaluated
again if that would have an effect (`Sim.Yields`).

The effects of such a stack come later than those of the statements in front of it. A computation may be moved
from behind some of the values to in front of them if none of them clashes with it (`Sim.Yields.commute`), two
values may change places if they do not clash (`Sim.Yields.exchange`), and a value may be copied
(`Sim.Yields.duplicate`).
-/

namespace JvmDecompiler

namespace Sim

/-- An entry of the stack, and the value that it stands for. -/
structure Pending where
  held : StackValue
  value : Int32

/-- Whether evaluating a value does not repeat an effect of its copies below it. -/
def alone (v : StackValue) (below : List StackValue) : Bool :=
  v.expr.isPure || below.all fun u => !areCopies v u || u.expr.isPure

theorem alone_iff {v : StackValue} {below : List StackValue} :
    alone v below = true ↔
      v.expr.isPure = true ∨ ∀ u ∈ below, areCopies v u = true → u.expr.isPure = true := by
  simp only [alone, Bool.or_eq_true, List.all_eq_true, Bool.not_eq_true', ← Bool.not_eq_true]
  refine or_congr Iff.rfl (forall₂_congr fun u _ => ?_)
  tauto

theorem alone_of_subset {v : StackValue} {below below' : List StackValue} (hsub : below' ⊆ below)
    (h : alone v below = true) : alone v below' = true := by
  rw [alone_iff] at h ⊢
  exact h.imp id fun hall u hu => hall u (hsub hu)

/-- The values of some entries, from the world in front of their evaluation to the one behind it. Below them
are further entries, which have been evaluated already. -/
inductive Yields (answer : List IntCall → IntCall → Int32) (below : List Pending) :
    List Pending → World → World → Prop
  | nil {w : World} : Yields answer below [] w w
  | eval {p : Pending} {rest : List Pending} {u v w : World} (hrest : Yields answer below rest u v)
      (halone : alone p.held ((rest ++ below).map (·.held)) = true)
      (heval : p.held.expr.evalInt answer v = (p.value, w)) : Yields answer below (p :: rest) u w
  | reuse {p q : Pending} {rest : List Pending} {u v : World} (hrest : Yields answer below rest u v)
      (hmem : q ∈ rest ++ below) (hcopy : areCopies p.held q.held = true)
      (hexpr : q.held.expr = p.held.expr) (himpure : p.held.expr.isPure = false)
      (hvalue : q.value = p.value) : Yields answer below (p :: rest) u v

namespace Yields

variable {answer : List IntCall → IntCall → Int32} {below below' above rest entries : List Pending}
  {p q : Pending} {u v w : World}

theorem append_iff : Yields answer below (above ++ rest) u w ↔
    ∃ v, Yields answer below rest u v ∧ Yields answer (rest ++ below) above v w := by
  constructor
  · intro h
    induction above generalizing w with
    | nil => exact ⟨w, h, .nil⟩
    | cons p above ih =>
      cases h with
      | eval hrest halone heval =>
        obtain ⟨v, hv, habove⟩ := ih hrest
        exact ⟨v, hv, .eval habove (by rwa [← List.append_assoc]) heval⟩
      | reuse hrest hmem hcopy hexpr himpure hvalue =>
        obtain ⟨v, hv, habove⟩ := ih hrest
        exact ⟨v, hv, .reuse habove (by rwa [← List.append_assoc]) hcopy hexpr himpure hvalue⟩
  · rintro ⟨v, hv, h⟩
    induction h with
    | nil => exact hv
    | eval _ halone heval ih =>
      rw [← List.append_assoc] at halone
      exact .eval (ih hv) halone heval
    | reuse _ hmem hcopy hexpr himpure hvalue ih =>
      rw [← List.append_assoc] at hmem
      exact .reuse (ih hv) hmem hcopy hexpr himpure hvalue

/-- Entries depend on those below them only through their copies. -/
theorem relocate (h : Yields answer below entries u w)
    (hsame : ∀ p ∈ entries, ∀ q, areCopies p.held q.held = true → (q ∈ below ↔ q ∈ below')) :
    Yields answer below' entries u w := by
  induction h with
  | nil => exact .nil
  | @eval p rest u v w _ halone heval ih =>
    refine .eval (ih fun p hp => hsame p (List.mem_cons_of_mem _ hp)) ?_ heval
    rw [alone_iff] at halone ⊢
    refine halone.imp id fun hall x hx hcopy => ?_
    obtain ⟨q, hq, rfl⟩ := List.mem_map.1 hx
    refine hall q.held (List.mem_map_of_mem ?_) hcopy
    exact (List.mem_append.1 hq).elim (List.mem_append_left _) fun hq =>
      List.mem_append_right _ ((hsame p List.mem_cons_self q hcopy).2 hq)
  | @reuse p q rest u v _ hmem hcopy hexpr himpure hvalue ih =>
    refine .reuse (ih fun p hp => hsame p (List.mem_cons_of_mem _ hp)) ?_ hcopy hexpr himpure hvalue
    exact (List.mem_append.1 hmem).elim (List.mem_append_left _) fun hq =>
      List.mem_append_right _ ((hsame p List.mem_cons_self q hcopy).1 hq)

/-- A computation that clashes with none of the entries may be done in front of them. -/
theorem commute {α : Type} {accesses : List Access} {x : World → α × World}
    (h : Yields answer below entries u w) (hx : Footprint accesses x)
    (hint : ∀ p ∈ entries, p.held.expr.IsInt)
    (hclash : ∀ p ∈ entries, ∀ a ∈ accesses, ∀ b ∈ p.held.expr.accesses, a.clashes b = false) :
    (x w).1 = (x u).1 ∧ Yields answer below entries (x u).2 (x w).2 := by
  induction h with
  | nil => exact ⟨rfl, .nil⟩
  | @eval p rest u v w _ halone heval ih =>
    obtain ⟨hvalue, hrest⟩ := ih (fun p hp => hint p (List.mem_cons_of_mem _ hp))
      fun p hp => hclash p (List.mem_cons_of_mem _ hp)
    obtain ⟨hp, hxv, hworld⟩ := hx.commute ((hint p List.mem_cons_self).footprint answer)
      (hclash p List.mem_cons_self) v
    rw [heval] at hp hxv hworld
    exact ⟨hxv.trans hvalue, .eval hrest halone (Prod.ext hp.symm hworld.symm)⟩
  | @reuse p q rest u v _ hmem hcopy hexpr himpure hvalue ih =>
    obtain ⟨hv, hrest⟩ := ih (fun p hp => hint p (List.mem_cons_of_mem _ hp))
      fun p hp => hclash p (List.mem_cons_of_mem _ hp)
    exact ⟨hv, .reuse hrest hmem hcopy hexpr himpure hvalue⟩

/-- A value that repeats no effect is evaluated. -/
theorem uncons_of_alone (h : Yields answer below (p :: rest) u w)
    (halone : alone p.held ((rest ++ below).map (·.held)) = true) :
    ∃ v, Yields answer below rest u v ∧ p.held.expr.evalInt answer v = (p.value, w) := by
  cases h with
  | eval hrest _ heval => exact ⟨_, hrest, heval⟩
  | @reuse _ q _ _ _ hrest hmem hcopy hexpr himpure hvalue =>
    rcases alone_iff.1 halone with hpure | hall
    · rw [himpure] at hpure
      cases hpure
    · have hq := hall q.held (List.mem_map_of_mem hmem) hcopy
      rw [hexpr, himpure] at hq
      cases hq

end Yields

/-! ## Copies -/

/-- What holds of an entry and a copy of it further down: both stand for the same value, and they are the same
expression, or the lower one is one that may be evaluated again but not behind the upper one. -/
def Related (p q : Pending) : Prop :=
  areCopies p.held q.held = true → p.value = q.value ∧
    (p.held.expr = q.held.expr ∨
      q.held.expr.isPure = true ∧ p.held.expr.independent q.held.expr = false)

section Related

variable {p q : Pending}

/-- Copies that may be evaluated in either order have no effect. -/
theorem Related.of_independent (h : Related p q) (hp : p.held.expr.IsInt)
    (hind : p.held.expr.independent q.held.expr = true) (hcopy : areCopies p.held q.held = true) :
    p.value = q.value ∧ p.held.expr = q.held.expr ∧ p.held.expr.isPure = true := by
  obtain ⟨hvalue, hexpr | ⟨-, hclash⟩⟩ := h hcopy
  · rw [← hexpr] at hind
    exact ⟨hvalue, hexpr, hp.isPure_of_independent hind⟩
  · rw [hind] at hclash
    cases hclash

theorem Related.symm_of_independent (h : Related p q) (hp : p.held.expr.IsInt)
    (hind : p.held.expr.independent q.held.expr = true) : Related q p := by
  intro hcopy
  obtain ⟨hvalue, hexpr, -⟩ := h.of_independent hp hind (areCopies_comm q.held p.held ▸ hcopy)
  exact ⟨hvalue.symm, .inl hexpr.symm⟩

end Related

namespace Yields

variable {answer : List IntCall → IntCall → Int32} {below : List Pending} {p p' q : Pending}
  {u w : World}

/-- Two entries that do not clash may change places. -/
theorem exchange (h : Yields answer below [p, q] u w) (hp : p.held.expr.IsInt) (hq : q.held.expr.IsInt)
    (hrelated : Related p q) (hind : p.held.expr.independent q.held.expr = true) :
    Yields answer below [q, p] u w := by
  -- neither entry is there instead of an evaluation of the other
  have hpure : ∀ {x y : Pending}, areCopies x.held y.held = true →
      (x = p ∧ y = q ∨ x = q ∧ y = p) → x.held.expr.isPure = true ∧ y.held.expr.isPure = true := by
    rintro x y hcopy (⟨rfl, rfl⟩ | ⟨rfl, rfl⟩)
    · obtain ⟨-, hexpr, hpure⟩ := hrelated.of_independent hp hind hcopy
      exact ⟨hpure, hexpr ▸ hpure⟩
    · obtain ⟨-, hexpr, hpure⟩ := hrelated.of_independent hp hind (areCopies_comm _ _ ▸ hcopy)
      exact ⟨hexpr ▸ hpure, hpure⟩
  have halonep : alone p.held (([q] ++ below : List Pending).map (·.held)) = true →
      alone p.held (([] ++ below : List Pending).map (·.held)) = true :=
    alone_of_subset fun x hx => List.mem_cons_of_mem _ hx
  have haloneq : alone q.held (([] ++ below : List Pending).map (·.held)) = true →
      alone q.held (([p] ++ below : List Pending).map (·.held)) = true := by
    intro halone
    rw [alone_iff] at halone ⊢
    refine halone.imp id fun hall x hx hcopy => ?_
    rcases List.mem_cons.1 hx with rfl | hx
    · exact (hpure hcopy (.inr ⟨rfl, rfl⟩)).2
    · exact hall x hx hcopy
  cases h with
  | @eval _ _ _ v _ hrest halone heval =>
    cases hrest with
    | @eval _ _ _ u' _ hnil halone' heval' =>
      cases hnil
      obtain ⟨hvalue, hvalue', hworld⟩ := (hq.footprint answer).commute (hp.footprint answer)
        (Expr.not_clashes_of_independent (Expr.independent_comm _ _ ▸ hind)) u
      rw [heval', heval] at hvalue hworld
      rw [heval'] at hvalue'
      have hfirst : p.held.expr.evalInt answer u = (p.value, (p.held.expr.evalInt answer u).2) :=
        Prod.ext hvalue rfl
      exact .eval (.eval .nil (halonep halone) hfirst) (haloneq halone') (Prod.ext hvalue' hworld)
    | reuse hnil hmem hcopy hexpr himpure hvalue =>
      cases hnil
      exact .reuse (.eval .nil (halonep halone) heval) (List.mem_cons_of_mem _ hmem) hcopy hexpr himpure
        hvalue
  | @reuse _ r _ _ _ hrest hmem hcopy hexpr himpure hvalue =>
    have hmem : r ∈ [] ++ below := by
      refine (List.mem_cons.1 hmem).resolve_left ?_
      rintro rfl
      rw [(hpure hcopy (.inl ⟨rfl, rfl⟩)).1] at himpure
      cases himpure
    cases hrest with
    | eval hnil halone heval =>
      cases hnil
      exact .eval (.reuse .nil hmem hcopy hexpr himpure hvalue) (haloneq halone) heval
    | reuse hnil hmem' hcopy' hexpr' himpure' hvalue' =>
      cases hnil
      exact .reuse (.reuse .nil hmem hcopy hexpr himpure hvalue) (List.mem_cons_of_mem _ hmem') hcopy'
        hexpr' himpure' hvalue'

/-- A value may get a mark that none below it has. -/
theorem remark (h : Yields answer below [p] u w) (hexpr : p'.held.expr = p.held.expr)
    (hvalue : p'.value = p.value)
    (hsame : ∀ q ∈ below, areCopies p'.held q.held = areCopies p.held q.held) :
    Yields answer below [p'] u w := by
  cases h with
  | eval hnil halone heval =>
    cases hnil
    refine .eval .nil ?_ (by rw [hexpr, hvalue, heval])
    rw [alone_iff, hexpr] at *
    refine halone.imp id fun hall x hx hcopy => hall x hx ?_
    obtain ⟨q, hq, rfl⟩ := List.mem_map.1 hx
    rwa [hsame q hq] at hcopy
  | @reuse _ q _ _ _ hnil hmem hcopy hq himpure hv =>
    cases hnil
    refine .reuse .nil hmem ?_ (hq.trans hexpr.symm) (hexpr ▸ himpure) (hv.trans hvalue.symm)
    rwa [hsame q hmem]

/-- A value with a mark may be copied. -/
theorem duplicate (h : Yields answer below [p] u w) (hp : p.held.expr.IsInt)
    (hmark : areCopies p.held p.held = true) : Yields answer below [p, p] u w := by
  cases hpure : p.held.expr.isPure with
  | false => exact .reuse h List.mem_cons_self hmark rfl hpure rfl
  | true =>
    have halone : ∀ below, alone p.held below = true := fun _ => alone_iff.2 (.inl hpure)
    obtain ⟨v, hv, heval⟩ := h.uncons_of_alone (halone _)
    have hworld : w = v := by
      rw [← hp.evalInt_of_isPure answer hpure v, heval]
    refine .eval h (halone _) ?_
    rw [hworld] at heval ⊢
    exact heval

section Assign

variable {above rest : List Pending} {line l : SourceLine} {ref : LocalRef} {v₁ v₂ v₃ : World}

/-- A value is stored in front of what is evaluated between a copy of it and the value itself. In place of the
copy, the assignment has this value, and leaves the slot as the store behind all of them does. -/
theorem exists_assign (hvalue : Yields answer (above ++ q :: rest) [p] v₃ w)
    (hbetween : Yields answer (q :: rest) above v₂ v₃) (hq : Yields answer rest [q] v₁ v₂)
    (htype : ref.type = .int) (hp : p.held.expr.IsInt) (hint : q.held.expr.IsInt)
    (hints : ∀ r ∈ above, r.held.expr.IsInt) (hrelated : Related p q)
    (hcopy : areCopies p.held q.held = true) (hnone : ∀ r ∈ above, areCopies p.held r.held = false)
    (halone : alone p.held (rest.map (·.held)) = true)
    (hind : ∀ r ∈ above,
      (Expr.assign line (.localVar l ref) p.held.expr).independent r.held.expr = true) :
    ∃ v, (Expr.assign line (.localVar l ref) p.held.expr).evalInt answer v₁ = (p.value, v) ∧
      Yields answer (q :: rest) above v (w.set ref.slot p.value) := by
  have hassign : (Expr.assign line (.localVar l ref) p.held.expr).IsInt := .assign htype hp
  have hclash : ∀ r ∈ above, ∀ a ∈ (Expr.assign line (.localVar l ref) p.held.expr).accesses,
      ∀ b ∈ r.held.expr.accesses, a.clashes b = false :=
    fun r hr => Expr.not_clashes_of_independent (hind r hr)
  have heval : ∀ v, (Expr.assign line (.localVar l ref) p.held.expr).evalInt answer v =
      ((p.held.expr.evalInt answer v).1,
        (p.held.expr.evalInt answer v).2.set ref.slot (p.held.expr.evalInt answer v).1) := fun _ => rfl
  cases hvalue with
  | @eval _ _ _ v _ hnil halonep hp' =>
    cases hnil
    -- the copy has no effect, since the value itself is evaluated on top
    have hqpure : q.held.expr.isPure = true := by
      rcases alone_iff.1 halonep with hpure | hall
      · obtain ⟨-, hexpr | ⟨hpure', -⟩⟩ := hrelated hcopy
        · exact hexpr ▸ hpure
        · exact hpure'
      · exact hall q.held (List.mem_map_of_mem (by simp)) hcopy
    obtain ⟨v, hnil, hq'⟩ := hq.uncons_of_alone (alone_iff.2 (.inl hqpure))
    cases hnil
    have hworld : v₂ = v₁ := by rw [← hint.evalInt_of_isPure answer hqpure v₁, hq']
    obtain ⟨hval, hyields⟩ := hbetween.commute (hassign.footprint answer) hints hclash
    rw [heval v₃, hp', hworld] at hval hyields
    exact ⟨((Expr.assign line (.localVar l ref) p.held.expr).evalInt answer v₁).2,
      Prod.ext hval.symm rfl, hyields⟩
  | @reuse _ r _ _ _ hnil hmem hcopyr hexpr himpure hvalue =>
    cases hnil
    -- the value is that of the copy that changes, and this one is evaluated
    obtain rfl : r = q := by
      simp only [List.nil_append, List.mem_append, List.mem_cons] at hmem
      rcases hmem with hmem | rfl | hmem
      · rw [hnone r hmem] at hcopyr
        cases hcopyr
      · rfl
      · rcases alone_iff.1 halone with hpure | hall
        · rw [himpure] at hpure
          cases hpure
        · have hpure := hall r.held (List.mem_map_of_mem hmem) hcopyr
          rw [hexpr, himpure] at hpure
          cases hpure
    have haloner : alone r.held (rest.map (·.held)) = true := by
      rw [alone_iff, hexpr]
      exact (alone_iff.1 halone).imp id fun hall x hx hrx => hall x hx (areCopies_trans hcopy hrx)
    obtain ⟨v, hnil, hr'⟩ := hq.uncons_of_alone haloner
    cases hnil
    rw [hexpr, hvalue] at hr'
    obtain ⟨-, hyields⟩ := hbetween.commute
      (Expr.footprint_update ref.slot (fun _ => p.value) (fun _ => p.value)) hints
      fun x hx a ha => hclash x hx a (List.mem_append_right _ ha)
    exact ⟨v₂.set ref.slot p.value, by rw [heval, hr'], hyields⟩

/-- An assignment may take the place of a copy of its value. -/
theorem assign_copy (h : Yields answer [] (p :: (above ++ q :: rest)) u w) (htype : ref.type = .int)
    (hints : ∀ r ∈ p :: (above ++ q :: rest), r.held.expr.IsInt) (hrelated : Related p q)
    (hcopy : areCopies p.held q.held = true) (hnone : ∀ r ∈ above, areCopies p.held r.held = false)
    (halone : alone p.held (rest.map (·.held)) = true)
    (hind : ∀ r ∈ above,
      (Expr.assign line (.localVar l ref) p.held.expr).independent r.held.expr = true) :
    Yields answer [] (above ++ ⟨⟨.assign line (.localVar l ref) p.held.expr, none⟩, p.value⟩ :: rest) u
      (w.set ref.slot p.value) := by
  -- the values in between have no copy at the place that changes
  have hsame : ∀ r ∈ above, ∀ x, areCopies r.held x.held = true → (x ∈ q :: rest ↔
      x ∈ (⟨⟨.assign line (.localVar l ref) p.held.expr, none⟩, p.value⟩ : Pending) :: rest) := by
    intro r hr x hx
    have hq : x ≠ q := by
      rintro rfl
      have hpr := areCopies_trans hcopy (areCopies_comm r.held x.held ▸ hx)
      rw [hnone r hr] at hpr
      cases hpr
    have hnew : x ≠ ⟨⟨.assign line (.localVar l ref) p.held.expr, none⟩, p.value⟩ := by
      rintro rfl
      rw [areCopies_comm] at hx
      cases hx
    simp [hq, hnew]
  obtain ⟨v₃, hbelow, hvalue⟩ := append_iff.1 (show Yields answer [] ([p] ++ (above ++ q :: rest)) u w from h)
  obtain ⟨v₂, hcopied, hbetween⟩ := append_iff.1 hbelow
  obtain ⟨v₁, hrest, hq⟩ := append_iff.1 (show Yields answer [] ([q] ++ rest) u v₂ from hcopied)
  rw [List.append_nil] at hvalue hbetween hq
  obtain ⟨v, heval, habove⟩ := exists_assign hvalue hbetween hq htype (hints p List.mem_cons_self)
    (hints q (by simp)) (fun r hr => hints r (by simp [hr])) hrelated hcopy hnone halone hind
  refine append_iff.2 ⟨v, .eval hrest (by simp [alone, areCopies]) heval, ?_⟩
  rw [List.append_nil]
  exact habove.relocate hsame

end Assign

end Yields

end Sim

end JvmDecompiler
