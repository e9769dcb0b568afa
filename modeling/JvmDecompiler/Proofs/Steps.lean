/-!
# Steps that show something

A machine whose steps each show a part of what can be seen of it. `runSteps` collects what a number of
steps show.
-/

namespace JvmDecompiler

variable {σ ε : Type}

/-- Take `n` steps: what they show, one after the other, and the state then. -/
def runSteps (step : σ → List ε × σ) : (n : Nat) → σ → List ε × σ
  | 0, s => ([], s)
  | n + 1, s => ((step s).1 ++ (runSteps step n (step s).2).1, (runSteps step n (step s).2).2)

variable {step : σ → List ε × σ}

theorem runSteps_one (s : σ) : runSteps step 1 s = step s := by simp [runSteps]

/-- A state that steps do not leave, and in which they show nothing. -/
theorem runSteps_of_rest {s : σ} (h : step s = ([], s)) (n : Nat) : runSteps step n s = ([], s) := by
  induction n with
  | zero => rfl
  | succ n ih => simp [runSteps, h, ih]

/-- Taking steps in two stages. -/
theorem runSteps_add (m n : Nat) (s : σ) :
    runSteps step (m + n) s =
      ((runSteps step m s).1 ++ (runSteps step n (runSteps step m s).2).1,
        (runSteps step n (runSteps step m s).2).2) := by
  induction m generalizing s with
  | zero => simp [runSteps]
  | succ m ih =>
    rw [Nat.add_right_comm, runSteps, ih]
    simp only [runSteps, List.append_assoc]

/-- More steps show what fewer steps show. -/
theorem getElem?_runSteps_of_le {m n k : Nat} {s : σ} {e : ε} (hmn : m ≤ n)
    (he : (runSteps step m s).1[k]? = some e) : (runSteps step n s).1[k]? = some e := by
  obtain ⟨d, rfl⟩ := Nat.exists_eq_add_of_le hmn
  rw [runSteps_add]
  exact List.getElem?_append_left (List.getElem?_eq_some_iff.1 he).1 |>.trans he

end JvmDecompiler
