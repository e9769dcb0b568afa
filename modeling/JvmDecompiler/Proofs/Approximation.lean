/-!
# Computations that go as far as others

A computation may have no result: a bound on its depth may be reached, or what it is about may not be covered.
One computation approximates another one if this has the same result, and changes the state in the same way,
wherever the first one has a result. That goes through sequences of steps, so that parts may be exchanged one
by one.
-/

namespace JvmDecompiler

/-- Where the first computation has a result, the second one has the same. -/
def Approximates {σ α : Type} (x y : StateT σ Option α) : Prop :=
  ∀ s r, x.run s = some r → y.run s = some r

namespace Approximates

variable {σ α β : Type} {x y z : StateT σ Option α} {f g : α → StateT σ Option β}

theorem refl (x : StateT σ Option α) : Approximates x x := fun _ _ h => h

theorem trans (h : Approximates x y) (h' : Approximates y z) : Approximates x z :=
  fun s r hr => h' s r (h s r hr)

theorem bind (hx : Approximates x y) (hf : ∀ a, Approximates (f a) (g a)) :
    Approximates (x >>= f) (y >>= g) := by
  intro s r h
  rw [StateT.run_bind] at h ⊢
  obtain ⟨⟨a, s'⟩, ha, hr⟩ := Option.bind_eq_some_iff.1 h
  rw [hx s _ ha]
  exact hf a s' r hr

/-- The same step in front of both. -/
theorem step (x : StateT σ Option α) (hf : ∀ a, Approximates (f a) (g a)) :
    Approximates (x >>= f) (x >>= g) := (refl x).bind hf

theorem failure (x : StateT σ Option α) : Approximates failure x := fun _ _ h => nomatch h

end Approximates

end JvmDecompiler
