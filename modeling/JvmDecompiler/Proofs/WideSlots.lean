import JvmDecompiler.Proofs.ClassGrammar
import JvmDecompiler.Proofs.PoolGrowth

/-!
# The slot behind a wide constant

A wide constant takes its slot and the one behind it, which is never usable. Appending keeps to that, and a
pool that is read from a file does, up to its last slot: a file that declares too few slots for a wide constant
at its end has the second slot cut off, and the first constant that is appended takes its place.

The shape of the argument:

* `Pushes`: whatever a computation does to a pool, its slots are those from before with constants pushed
  behind them. That is a relation between pools that every request keeps (`isStep_pushed`), so every run does.
* `Spaced n`: every wide constant has its second slot, but one that ends at slot `n`, in which a constant may
  stand. Pushing keeps it, whatever `n` is.
* `ConstantPool.SlotsGrammar.spaced`: the slots that are read from a file are spaced up to their end.

So there is exactly one way in which a constant comes to stand in a slot that belongs to another one
(`get?_behind_wide_iff`).
-/

namespace JvmDecompiler.ConstantPool

variable {p : ConstantPool} {α β : Type}

/-! ## Runs push constants -/

/-- The computation pushes constants behind the last slot, and does nothing else to the slots. -/
def Pushes (x : Build α) : Prop := ∀ p, ∃ cs : List Constant, (x.run p).2.slots = cs.foldl pushSlots p.slots

/-- An appended constant takes its slots at the end. -/
theorem pushes_append (c : Constant) : Pushes (append c) := by
  intro p
  rw [run_append]
  split
  · exact ⟨[], rfl⟩
  split
  · exact ⟨[], rfl⟩
  · exact ⟨[c], rfl⟩

/-- So does one that is looked for first. -/
theorem pushes_intern (c : Constant) : Pushes (intern c) := by
  intro p
  obtain ⟨cs, hcs⟩ := pushes_append c p
  rw [intern, run_remembered]
  rcases p.find? c with _ | i
  · rcases hrun : (append c).run p with ⟨e | i, q⟩ <;> rw [hrun] at hcs <;> exact ⟨cs, hcs⟩
  · exact ⟨[], rfl⟩

/-- Constants pushed one row after the other are one row, and what a pool remembers of its slots does not change
them. -/
theorem isStep_pushed : IsStep fun p q => ∃ cs : List Constant, q.slots = cs.foldl pushSlots p.slots where
  refl _ := ⟨[], rfl⟩
  trans := by
    rintro p q z ⟨front, hfront⟩ ⟨back, hback⟩
    exact ⟨front ++ back, by rw [hback, hfront, List.foldl_append]⟩
  intern := pushes_intern
  noted := by
    rintro p q z ⟨cs, hcs⟩ hslots -
    exact ⟨cs, hslots.trans hcs⟩

/-- So does whatever is asked for. -/
theorem Request.pushes (r : Request) : Pushes r.answer := by
  by_cases hrepeat : r.isRepeatable
  · exact isStep_pushed.answer hrepeat
  · obtain ⟨c, -, hanswer⟩ := exists_append (Bool.not_eq_true _ ▸ hrepeat)
    rw [hanswer]
    exact pushes_append c

/-- The slots behind a run are those in front of it with constants pushed behind them. -/
theorem slots_performAll (p : ConstantPool) (ops : List Operation) :
    ∃ cs : List Constant, (p.performAll ops).slots = cs.foldl pushSlots p.slots := by
  induction ops generalizing p with
  | nil => exact ⟨[], rfl⟩
  | cons op ops ih =>
    have hop : ∃ cs : List Constant, (p.perform op).slots = cs.foldl pushSlots p.slots := by
      cases op with
      | ask r => exact r.pushes p
      | freeze => exact ⟨[], rfl⟩
    exact isStep_pushed.trans hop (ih (p.perform op))

/-! ## Slots in which no constant may stand -/

/-- Slot 0 is unusable, and so is the slot behind a wide constant, unless that slot is the one with the
number `n`. There, a constant stands or the slots end. -/
structure Spaced (n : Nat) (slots : List (Option Constant)) : Prop where
  reserved : slots[0]? = some none
  le_length : n ≤ slots.length
  behind : ∀ i c, slots[i]? = some (some c) → c.isWide → i + 1 ≠ n → slots[i + 1]? = some none
  usable : slots[n]? ≠ some none

/-- Behind a wide constant that is appended a slot stays empty. -/
theorem Spaced.push {n : Nat} {slots : List (Option Constant)} (h : Spaced n slots) (c : Constant) :
    Spaced n (slots ++ some c :: if c.isWide then [none] else []) where
  reserved := by
    have hlt := (List.getElem?_eq_some_iff.1 h.reserved).1
    rw [List.getElem?_append_left hlt, h.reserved]
  le_length := by
    rw [List.length_append]
    exact Nat.le_add_right_of_le h.le_length
  behind i d hd hwide hne := by
    rcases Nat.lt_or_ge i slots.length with hlt | hge
    · rw [List.getElem?_append_left hlt] at hd
      have hnone := h.behind i d hd hwide hne
      rwa [List.getElem?_append_left (List.getElem?_eq_some_iff.1 hnone).1]
    · -- of the new slots, only the first holds a constant
      rw [List.getElem?_append_right hge] at hd
      rw [List.getElem?_append_right (Nat.le_succ_of_le hge), Nat.succ_sub hge]
      generalize i - slots.length = k at hd ⊢
      rcases k with _ | k
      · obtain rfl : c = d := by simpa using hd
        simp [hwide]
      · split at hd <;> cases k <;> simp at hd
  usable := by
    rcases Nat.lt_or_ge n slots.length with hlt | hge
    · rw [List.getElem?_append_left hlt]
      exact h.usable
    · rw [List.getElem?_append_right hge, Nat.sub_eq_zero_of_le h.le_length]
      simp

/-- All operations keep the slots behind wide constants empty. -/
theorem Spaced.performAll {n : Nat} (h : Spaced n p.slots.toList) (ops : List Operation) :
    Spaced n (p.performAll ops).slots.toList := by
  obtain ⟨cs, hcs⟩ := slots_performAll p ops
  rw [hcs]
  refine List.foldlRecOn (motive := fun slots : Array (Option Constant) => Spaced n slots.toList)
    cs pushSlots h fun slots hslots c _ => ?_
  rw [toList_pushSlots]
  exact hslots.push c

/-- The empty pool has no wide constants. -/
theorem spaced_empty : Spaced 1 empty.slots.toList where
  reserved := rfl
  le_length := le_rfl
  behind i c h := by
    have hlt := (List.getElem?_eq_some_iff.1 h).1
    obtain rfl : i = 0 := Nat.lt_one_iff.1 hlt
    cases h
  usable := nofun

/-- As many slots are read as there should be. -/
theorem SlotsGrammar.length_eq {n : Nat} {slots : List (Option Constant)} {bytes : Bytes}
    (h : SlotsGrammar n slots bytes) : slots.length = n := by
  induction h with
  | nil | cut => rfl
  | single _ _ _ ih => rw [List.length_cons, ih]
  | wide _ _ _ ih => rw [List.length_cons, List.length_cons, ih]

/-- A wide constant that is read has its second slot behind it, unless it is cut off. -/
theorem SlotsGrammar.behind {n : Nat} {slots : List (Option Constant)} {bytes : Bytes}
    (h : SlotsGrammar n slots bytes) : ∀ i c, slots[i]? = some (some c) → c.isWide → i + 1 ≠ n →
      slots[i + 1]? = some none := by
  induction h with
  | nil => nofun
  | single hwide _ _ ih =>
    rintro (_ | i) c hc hc' hne
    · obtain rfl := Option.some.inj (Option.some.inj hc)
      exact absurd (hwide.symm.trans hc') nofun
    · exact ih i c hc hc' (by omega)
  | wide _ _ _ ih =>
    rintro (_ | _ | i) c hc hc' hne
    · rfl
    · cases hc
    · exact ih i c hc hc' (by omega)
  | cut =>
    rintro (_ | i) c hc _ hne
    · exact absurd rfl hne
    · cases hc

/-- In a pool that is read, slots behind wide constants are empty. -/
theorem SlotsGrammar.spaced {n : Nat} {slots : List (Option Constant)} {bytes : Bytes}
    (h : SlotsGrammar n slots bytes) : Spaced (n + 1) (none :: slots) where
  reserved := rfl
  le_length := by rw [List.length_cons, h.length_eq]
  behind i c hc hwide hne := by
    rcases i with _ | i
    · cases hc
    · exact h.behind i c hc hwide (by omega)
  usable := by
    rw [List.getElem?_eq_none (by rw [List.length_cons, h.length_eq])]
    nofun

/-- The pool of a class that is read. -/
theorem consistent_and_spaced_of_read {bytes : Bytes} {c : ClassFile} (h : ClassFile.read bytes = .ok c) :
    c.pool.Consistent ∧ Spaced c.pool.size c.pool.slots.toList := by
  obtain ⟨r, hlayout, -, rfl⟩ := ClassFile.read_eq_ok_iff_exists.1 h
  obtain ⟨-, ⟨_, ⟨_, _, _, _, _, ⟨slots, hslots, hpool⟩, -⟩, -⟩, -⟩ :=
    ClassFile.readLayout_eq_ok_iff.1 hlayout
  have hlength : (none :: slots).length = r.poolCount.toNat - 1 + 1 := congrArg (· + 1) hslots.length_eq
  have hcount := r.poolCount.toNat_lt
  show r.pool.Consistent ∧ Spaced r.pool.size r.pool.slots.toList
  rw [hpool]
  refine ⟨.ofSlots (by rw [hlength, maxSize]; omega), ?_⟩
  show Spaced (none :: slots).length (none :: slots)
  rw [hlength]
  exact hslots.spaced

/-- In a pool that was empty or read from a file, slot 0 holds no constant, whatever was appended. The slot
behind a wide constant holds one exactly if the pool had ended with the wide constant, without its second slot,
and something was appended. -/
theorem get?_behind_wide_iff {start : ConstantPool}
    (hstart : start = empty ∨ ∃ bytes c, ClassFile.read bytes = .ok c ∧ start = c.pool)
    (ops : List Operation) :
    (start.performAll ops).get? 0 = none ∧
    ∀ i c, (start.performAll ops).get? i = some c → c.isWide →
      ((start.performAll ops).get? (i + 1) = none ↔
        ¬(i.toNat + 1 = start.size ∧ start.size < (start.performAll ops).size)) := by
  obtain ⟨hconsistent, hspaced⟩ : start.Consistent ∧ Spaced start.size start.slots.toList := by
    rcases hstart with rfl | ⟨bytes, c, hread, rfl⟩
    · exact ⟨.empty, spaced_empty⟩
    · exact consistent_and_spaced_of_read hread
  have hsize := (hconsistent.performAll ops).1.size_le
  have hrun := hspaced.performAll ops
  generalize start.performAll ops = pool at hsize hrun ⊢
  have hget : ∀ i : UInt16, pool.get? i = pool.slots.toList[i.toNat]?.join := fun i => by
    rw [get?, Array.getElem?_toList]
  refine ⟨by rw [hget]; exact congrArg Option.join hrun.reserved, fun i c hc hwide => ?_⟩
  rw [hget, Option.join_eq_some_iff] at hc
  have hlt : i.toNat < pool.size := (List.getElem?_eq_some_iff.1 hc).1
  have hnext : (i + 1).toNat = i.toNat + 1 := by
    rw [UInt16.toNat_add, UInt16.toNat_one, Nat.mod_eq_of_lt]
    simp only [maxSize] at hsize
    omega
  rw [hget, hnext]
  by_cases hlast : i.toNat + 1 = start.size
  · -- nothing is behind the slots from the file, or the constant that was appended first
    rw [hlast]
    have husable := hrun.usable
    have hend : pool.slots.toList[start.size]? = none ↔ pool.size ≤ start.size := List.getElem?_eq_none_iff
    rcases hslot : pool.slots.toList[start.size]? with _ | _ | d
    · exact iff_of_true rfl fun h => absurd (hend.1 hslot) (Nat.not_le_of_lt h.2)
    · exact absurd hslot husable
    · refine iff_of_false (Option.some_ne_none d) fun h => ?_
      rw [hend.2 (Nat.not_lt.1 fun hlt => h ⟨rfl, hlt⟩)] at hslot
      cases hslot
  · rw [hrun.behind _ c hc hwide hlast]
    exact iff_of_true rfl fun h => hlast h.1

/-- The file of a class whose pool ends with a wide constant and declares only one slot for it. -/
def cutWide : Bytes :=
  [0xCA, 0xFE, 0xBA, 0xBE, 0, 0, 0, 52, 0, 4, 1, 0, 1, 0x41, 7, 0, 1, 5, 0, 0, 0, 0, 0, 0, 0, 7,
    0, 0, 0, 2, 0, 0, 0, 0, 0, 0, 0, 0, 0, 0]

/-- What is appended to its pool comes to stand in the slot behind the wide constant. -/
theorem get?_behind_wide_iff_cutWide : ∃ c, ClassFile.read cutWide = .ok c ∧
    c.pool.get? 3 = some (.long 7) ∧
      (c.pool.performAll [.ask (.constant (.integer 8))]).get? (3 + 1) ≠ none := by
  have hread : ∃ c, ClassFile.read cutWide = .ok c ∧ c.pool.size = 4 ∧ c.pool.get? 3 = some (.long 7) ∧
      (c.pool.performAll [.ask (.constant (.integer 8))]).get? 3 = some (.long 7) ∧
      (c.pool.performAll [.ask (.constant (.integer 8))]).size = 5 := ⟨_, rfl, rfl, rfl, rfl, rfl⟩
  obtain ⟨c, hc, hstart, hlong, hkept, hsize⟩ := hread
  have hiff := (get?_behind_wide_iff (.inr ⟨cutWide, c, hc, rfl⟩) [.ask (.constant (.integer 8))]).2 3
    (.long 7) hkept rfl
  exact ⟨c, hc, hlong, fun hnone => hiff.1 hnone ⟨by rw [hstart]; rfl, by rw [hstart, hsize]; decide⟩⟩

/-- So the slot behind a wide constant can be used. -/
theorem not_forall_none_behind_wide : ¬∀ bytes c ops i wide, ClassFile.read bytes = .ok c →
    (c.pool.performAll ops).get? i = some wide → wide.isWide →
      (c.pool.performAll ops).get? (i + 1) = none := by
  intro h
  have hnone := h cutWide _ [.ask (.constant (.integer 8))] 3 (.long 7) rfl rfl rfl
  cases hnone

end JvmDecompiler.ConstantPool
