import Mathlib.Order.Lattice

/-!
# Stable sorting

Sorting rows by a key is stable if rows with the same key keep their order. There is only one result
(`StablySorted.unique`), and merge sort has it (`stablySorted_mergeSort`).
-/

namespace JvmDecompiler

variable {α κ : Type} [LinearOrder κ] {key : α → κ}

/-- The rows in the order of their keys. Those with the same key are in the order that they had. -/
structure StablySorted (key : α → κ) (rows sorted : List α) : Prop where
  pairwise : sorted.Pairwise fun a b => key a ≤ key b
  stable : ∀ k, sorted.filter (key · = k) = rows.filter (key · = k)

namespace StablySorted

variable {rows s t : List α}

theorem mem_iff (h : StablySorted key rows s) {a : α} : a ∈ s ↔ a ∈ rows := by
  have hfilter : a ∈ s.filter (key · = key a) ↔ a ∈ rows.filter (key · = key a) := by
    rw [h.stable]
  simpa using hfilter

/-- The first row is the first of those with the smallest key, so both lists start with it. -/
theorem unique (hs : StablySorted key rows s) (ht : StablySorted key rows t) : s = t := by
  induction s generalizing rows t with
  | nil =>
    cases t with
    | nil => rfl
    | cons b t => exact absurd (hs.mem_iff.2 (ht.mem_iff.1 List.mem_cons_self)) List.not_mem_nil
  | cons a s ih =>
    cases t with
    | nil => exact absurd (ht.mem_iff.2 (hs.mem_iff.1 List.mem_cons_self)) List.not_mem_nil
    | cons b t =>
      obtain ⟨hleast, hrest⟩ := List.pairwise_cons.1 hs.pairwise
      obtain ⟨hleast', hrest'⟩ := List.pairwise_cons.1 ht.pairwise
      have hkey : key a = key b := by
        have hb := hs.mem_iff.2 (ht.mem_iff.1 List.mem_cons_self)
        have ha := ht.mem_iff.2 (hs.mem_iff.1 List.mem_cons_self)
        refine le_antisymm ?_ ?_
        · rcases List.mem_cons.1 hb with rfl | hb
          · exact le_refl _
          · exact hleast b hb
        · rcases List.mem_cons.1 ha with rfl | ha
          · exact le_refl _
          · exact hleast' a ha
      have hfilter : ∀ k, (a :: s).filter (key · = k) = (b :: t).filter (key · = k) := fun k =>
        (hs.stable k).trans (ht.stable k).symm
      obtain rfl : a = b := by
        have hfirst := hfilter (key a)
        rw [List.filter_cons_of_pos (by simp), List.filter_cons_of_pos (by simp [hkey])] at hfirst
        exact (List.cons.inj hfirst).1
      have htails : ∀ k, s.filter (key · = k) = t.filter (key · = k) := fun k => by
        by_cases hk : key a = k
        · simpa [hk] using hfilter k
        · simpa [hk] using hfilter k
      exact congrArg (a :: ·) (ih ⟨hrest, fun _ => rfl⟩ ⟨hrest', fun k => (htails k).symm⟩)

end StablySorted

/-- Merge sort keeps the rows with one key as they are, since they are sorted already. -/
theorem stablySorted_mergeSort {le : α → α → Bool} (hle : ∀ a b, le a b = true ↔ key a ≤ key b)
    (rows : List α) : StablySorted key rows (rows.mergeSort le) := by
  have htrans : ∀ a b c, le a b → le b c → le a c := fun a b c hab hbc =>
    (hle a c).2 (le_trans ((hle a b).1 hab) ((hle b c).1 hbc))
  have htotal : ∀ a b, le a b || le b a := fun a b => by
    simpa [hle] using le_total (key a) (key b)
  refine ⟨(List.pairwise_mergeSort htrans htotal rows).imp fun h => (hle _ _).1 h, fun k => ?_⟩
  have hsorted : (rows.filter (key · = k)).Pairwise fun a b => le a b = true := by
    refine List.pairwise_of_forall_mem_list fun a ha b hb => ?_
    simp only [List.mem_filter, decide_eq_true_eq] at ha hb
    exact (hle a b).2 (le_of_eq (ha.2.trans hb.2.symm))
  have hsublist := List.sublist_mergeSort htrans htotal hsorted List.filter_sublist
  have hfiltered := hsublist.filter (key · = k)
  rw [List.filter_filter] at hfiltered
  simp only [Bool.and_self] at hfiltered
  exact (hfiltered.eq_of_length
    ((List.mergeSort_perm rows le).filter _).length_eq.symm).symm

/-- In a sorted list, what holds of rows up to some key holds of the rows at its front. -/
theorem takeWhile_eq_filter {p : α → Bool} {rows : List α}
    (h : rows.Pairwise fun a b => p b = true → p a = true) : rows.takeWhile p = rows.filter p := by
  induction rows with
  | nil => rfl
  | cons a rows ih =>
    obtain ⟨hfirst, hrest⟩ := List.pairwise_cons.1 h
    by_cases ha : p a = true
    · rw [List.takeWhile_cons_of_pos ha, List.filter_cons_of_pos ha, ih hrest]
    · rw [List.takeWhile_cons_of_neg ha, List.filter_cons_of_neg ha]
      exact (List.filter_eq_nil_iff.2 fun b hb hp => ha (hfirst b hb hp)).symm

end JvmDecompiler
