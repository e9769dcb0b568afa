import JvmDecompiler.Proofs.PoolGrowth

/-!
# Which constants a pool holds twice

A pool looks for a text, class, name-and-type pair, field or method before it appends one. It looks in its
index, though, and not in its slots, and `addConstant` appends every constant but texts and classes without
looking and without an entry in the index.

What can be said of a run is an equation (`copies_performAll`): the slots that hold a constant are as many as
the operations that appended it without looking, and one more if the constant is found by its content. A
request that looks first keeps both sides even (`Balances`), however many constants it is made of. So texts
and classes never stand in two slots, and any other constant does exactly if it was appended without looking
twice, or once beside being found (`distinct_performAll_iff`).
-/

namespace JvmDecompiler.ConstantPool

variable {p : ConstantPool} {α β : Type}

/-- How many slots hold a constant. -/
def copies (p : ConstantPool) (c : Constant) : Nat := p.slots.toList.count (some c)

/-- One for a constant that is found by its content, and zero for one that is not. -/
def found (p : ConstantPool) (c : Constant) : Nat := (p.find? c).isSome.toNat

/-- No two slots hold the constant. -/
def Distinct (p : ConstantPool) (c : Constant) : Prop :=
  ∀ i j, p.get? i = some c → p.get? j = some c → i = j

/-- A constant is in no two slots if there is at most one copy of it. -/
theorem distinct_iff_copies (hp : p.size ≤ maxSize) (c : Constant) :
    p.Distinct c ↔ p.copies c ≤ 1 := by
  have hget : ∀ i : UInt16, p.get? i = some c ↔ p.slots.toList[i.toNat]? = some (some c) := fun i => by
    rw [ConstantPool.get?, Option.join_eq_some_iff, Array.getElem?_toList]
  have hround : ∀ n < p.slots.toList.length, n.toUInt16.toNat = n := fun n hn =>
    UInt16.toNat_ofNat_of_lt' (by simp [size, maxSize, UInt16.size] at hp hn ⊢; omega)
  have hcopies : p.copies c ≤ 1 ↔ ¬p.slots.toList.Duplicate (some c) := by
    rw [List.duplicate_iff_two_le_count, ← Nat.not_lt]
    -- the two counts compare slots through different instances
    show ¬2 ≤ p.slots.toList.count (some c) ↔ _
    congr!
  rw [hcopies, List.duplicate_iff_exists_distinct_get]
  constructor
  · rintro hdistinct ⟨n, m, hlt, hn, hm⟩
    have hslots : n.val.toUInt16 = m.val.toUInt16 := by
      refine hdistinct _ _ ((hget _).2 ?_) ((hget _).2 ?_)
      · rw [hround n n.isLt, List.getElem?_eq_getElem n.isLt, ← List.get_eq_getElem, ← hn]
      · rw [hround m m.isLt, List.getElem?_eq_getElem m.isLt, ← List.get_eq_getElem, ← hm]
    have hsame := congrArg UInt16.toNat hslots
    rw [hround n n.isLt, hround m m.isLt] at hsame
    omega
  · intro hnone i j hi hj
    have hnotLt : ∀ {i j : UInt16}, p.get? i = some c → p.get? j = some c → ¬i.toNat < j.toNat := by
      intro i j hi hj hlt
      obtain ⟨hlti, hi⟩ := List.getElem?_eq_some_iff.1 ((hget i).1 hi)
      obtain ⟨hltj, hj⟩ := List.getElem?_eq_some_iff.1 ((hget j).1 hj)
      exact hnone ⟨⟨_, hlti⟩, ⟨_, hltj⟩, hlt, hi.symm, hj.symm⟩
    have hij := hnotLt hi hj
    have hji := hnotLt hj hi
    exact UInt16.toNat_inj.1 (by omega)

/-! ## Appending -/

/-- To append a constant adds a copy of it, unless it fails. -/
theorem copies_run_append (c d : Constant) (p : ConstantPool) :
    ((append d).run p).2.copies c =
      p.copies c + if d = c ∧ ((append d).run p).1.toBool then 1 else 0 := by
  rw [run_append]
  split
  · simp [Except.toBool]
  · split
    · simp [Except.toBool]
    · simp only [copies, toList_pushSlots, List.count_append, Except.toBool, and_true]
      split <;> simp [List.count_cons]

/-- To append a constant does not let it be found. -/
theorem found_run_append (c d : Constant) (p : ConstantPool) :
    ((append d).run p).2.found c = p.found c := by
  rw [found, find?_run_append, found]

/-- A constant that is noted is found from then on. -/
theorem found_noteConstant (c d : Constant) (i : UInt16) (p : ConstantPool) :
    (noteConstant d i p).found c = if d = c then 1 else p.found c := by
  simp only [found, find?, noteConstant, Std.HashMap.getElem?_insert, beq_iff_eq]
  split <;> simp

/-! ## Requests that look first -/

/-- The computation puts a constant into one more slot exactly if it makes the constant one that is
found. -/
def Balances (x : Build α) : Prop :=
  ∀ p c, (x.run p).2.copies c + p.found c = p.copies c + (x.run p).2.found c

/-- A constant that is looked for first is appended only if it is not found. -/
theorem balances_intern (d : Constant) : Balances (intern d) := by
  intro p c
  have hcopies := copies_run_append c d p
  have hfound := found_run_append c d p
  rw [intern, run_remembered]
  rcases hseen : p.find? d with _ | i
  · rcases hrun : (append d).run p with ⟨e | i, q⟩
    · simp_all [Except.toBool]
    · rw [hrun] at hcopies hfound
      show q.copies c + p.found c = p.copies c + (noteConstant d i q).found c
      rw [found_noteConstant, hcopies]
      by_cases hd : d = c
      · subst hd
        simp [found, hseen, Except.toBool]
      · rw [if_neg fun h => hd h.1, if_neg hd, hfound, Nat.add_zero]
  · rfl

/-- What is remembered apart from slots and index does not count. -/
theorem isStep_balanced :
    IsStep fun p q => ∀ c, q.copies c + p.found c = p.copies c + q.found c where
  refl _ _ := rfl
  trans hpq hqz c := by
    have hfirst := hpq c
    have hsecond := hqz c
    omega
  intern := balances_intern
  noted hpq hslots hindex c := by
    have hmade := hpq c
    simp only [copies, found, find?] at hmade ⊢
    rwa [hslots, hindex]

/-- So it is with all requests that look for an equal one. -/
theorem Request.balances {r : Request} (h : r.isRepeatable) : Balances r.answer := isStep_balanced.answer h

/-! ## Whole runs -/

/-- The operation appends a constant without looking for it. -/
def Operation.appends (c : Constant) (p : ConstantPool) : Operation → Bool
  | .ask (.constant d) =>
    d = c && !(Request.constant d).isRepeatable && ((append d).run p).1.toBool
  | _ => false

/-- How many of the operations append a constant without looking for it. -/
def appended (c : Constant) (p : ConstantPool) : List Operation → Nat
  | [] => 0
  | op :: ops => (if op.appends c p then 1 else 0) + appended c (p.perform op) ops

/-- Such a request appends nothing without looking. -/
theorem Operation.appends_of_isRepeatable {r : Request} (h : r.isRepeatable) (c : Constant) (p : ConstantPool) :
    (Operation.ask r).appends c p = false := by
  cases r with
  | constant d => simp [appends, h]
  | _ => rfl

/-- An operation adds a copy without letting it be found only where it appends without looking. -/
theorem copies_perform (p : ConstantPool) (op : Operation) (c : Constant) :
    (p.perform op).copies c + p.found c =
      p.copies c + (p.perform op).found c + if op.appends c p then 1 else 0 := by
  cases op with
  | ask r =>
    by_cases hrepeat : r.isRepeatable
    · rw [Operation.appends_of_isRepeatable hrepeat, if_neg (by decide), Nat.add_zero]
      exact Request.balances hrepeat p c
    · rw [Bool.not_eq_true] at hrepeat
      obtain ⟨d, rfl, hanswer⟩ := Request.exists_append hrepeat
      have hcopies := copies_run_append c d p
      have hfound := found_run_append c d p
      simp only [ConstantPool.perform, hanswer, Operation.appends, hrepeat, Bool.not_false,
        Bool.and_true, Bool.and_eq_true, decide_eq_true_eq]
      omega
  | freeze => rfl

/-- The slots that hold a constant, counted over a run. -/
theorem copies_performAll (p : ConstantPool) (ops : List Operation) (c : Constant) :
    (p.performAll ops).copies c + p.found c =
      p.copies c + (p.performAll ops).found c + appended c p ops := by
  induction ops generalizing p with
  | nil => rfl
  | cons op ops ih =>
    have hstep := copies_perform p op c
    have hrest := ih (p.perform op)
    show ((p.perform op).performAll ops).copies c + _ =
      _ + ((p.perform op).performAll ops).found c + _
    rw [appended]
    omega

/-- Texts and classes are looked for whatever asks for them. -/
theorem appended_eq_zero {c : Constant} (hc : (Request.constant c).isRepeatable) (p : ConstantPool)
    (ops : List Operation) : appended c p ops = 0 := by
  induction ops generalizing p with
  | nil => rfl
  | cons op ops ih =>
    have hop : op.appends c p = false := by
      unfold Operation.appends
      split <;> grind
    rw [appended, ih, hop]
    rfl

/-- Which constants stand in two slots of a pool that was filled by any row of operations. Texts and
classes never do. Any constant is in one slot at most exactly if, counting the times that it was appended
without looking, and once more if it is found by its content, it counts at most once. -/
theorem distinct_performAll_iff (ops : List Operation) (c : Constant) :
    ((Request.constant c).isRepeatable → (empty.performAll ops).Distinct c) ∧
      ((empty.performAll ops).Distinct c ↔
        appended c empty ops + (empty.performAll ops).found c ≤ 1) := by
  have hcopies : (empty.performAll ops).copies c =
      appended c empty ops + (empty.performAll ops).found c := by
    have hrun := copies_performAll empty ops c
    have hnone : empty.copies c = 0 := by simp [copies, ConstantPool.empty]
    have hunseen : empty.found c = 0 := by simp [found, find?, ConstantPool.empty]
    omega
  have hiff := distinct_iff_copies (Consistent.empty.performAll ops).1.size_le c
  rw [hcopies] at hiff
  refine ⟨fun hc => hiff.2 ?_, hiff⟩
  rw [appended_eq_zero hc, Nat.zero_add]
  exact Bool.toNat_le _

/-- A name-and-type pair that is in slot 3 is appended once more. -/
theorem not_distinct_performAll :
    ¬(empty.performAll
      [.ask (.nameAndType "a" "I"), .ask (.constant (.nameAndType 1 2))]).Distinct
        (.nameAndType 1 2) := by
  intro h
  exact absurd (h 3 4 (by cbv) (by cbv)) (by decide)

end JvmDecompiler.ConstantPool
