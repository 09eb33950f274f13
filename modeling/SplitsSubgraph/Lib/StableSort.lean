/-
SplitsSubgraph/Lib/StableSort.lean

What a stable sort returns.  Let the elements be compared by a key, so that
elements with equal keys are ties.  A sorted list is determined by its ties: for
each key, the elements with that key in the order they come in
(`eq_of_filter_key`).  A stable sort changes none of these, so whoever can write
down a sorted list with the same ties has found the result of the sort
(`mergeSort_eq_of_key`).  The comparison only has to agree with the keys on the
elements that are sorted.
-/
import Mathlib

namespace StableSort

variable {α K : Type*} [LinearOrder K] {key : α → K}

/-- A sorted list is determined by the order of its ties. -/
theorem eq_of_filter_key {l₁ l₂ : List α} (h₁ : l₁.Pairwise fun a b => key a ≤ key b)
    (h₂ : l₂.Pairwise fun a b => key a ≤ key b)
    (hf : ∀ k, (l₁.filter fun a => key a = k) = l₂.filter fun a => key a = k) : l₁ = l₂ := by
  induction l₁ generalizing l₂ with
  | nil =>
    rcases l₂ with - | ⟨b, l₂⟩
    · rfl
    · simpa using hf (key b)
  | cons a l₁ ih =>
    rcases l₂ with - | ⟨b, l₂⟩
    · simpa using hf (key a)
    · rw [List.pairwise_cons] at h₁ h₂
      -- each head occurs in the other list, so both have the least key
      have ha : a ∈ b :: l₂ := by
        have hmem : a ∈ (b :: l₂).filter fun x => key x = key a := by
          rw [← hf (key a)]
          simp
        exact List.mem_of_mem_filter hmem
      have hb : b ∈ a :: l₁ := by
        have hmem : b ∈ (a :: l₁).filter fun x => key x = key b := by
          rw [hf (key b)]
          simp
        exact List.mem_of_mem_filter hmem
      have hkey : key a = key b := by
        apply le_antisymm
        · rcases List.mem_cons.mp hb with rfl | hb
          · exact le_rfl
          · exact h₁.1 b hb
        · rcases List.mem_cons.mp ha with rfl | ha
          · exact le_rfl
          · exact h₂.1 a ha
      have hhead := hf (key a)
      rw [List.filter_cons_of_pos (by simp), List.filter_cons_of_pos (by simp [hkey])] at hhead
      obtain ⟨rfl, -⟩ := List.cons.inj hhead
      refine congrArg (a :: ·) (ih h₁.2 h₂.2 fun k => ?_)
      have hk := hf k
      by_cases hak : key a = k
      · rw [List.filter_cons_of_pos (by simp [hak]), List.filter_cons_of_pos (by simp [hak])] at hk
        exact (List.cons.inj hk).2
      · rwa [List.filter_cons_of_neg (by simp [hak]), List.filter_cons_of_neg (by simp [hak])] at hk

/-- Comparison by key. -/
def keyLe (key : α → K) (a b : α) : Bool := decide (key a ≤ key b)

theorem keyLe_trans (a b c : α) (hab : keyLe key a b = true) (hbc : keyLe key b c = true) :
    keyLe key a c = true := by
  simp only [keyLe, decide_eq_true_eq] at hab hbc ⊢
  exact hab.trans hbc

theorem keyLe_total (a b : α) : (keyLe key a b || keyLe key b a) = true := by
  simpa [keyLe] using le_total (key a) (key b)

/-- Sorting by a key keeps the ties as they are. -/
theorem filter_mergeSort (l : List α) (k : K) :
    ((l.mergeSort (keyLe key)).filter fun a => key a = k) = l.filter fun a => key a = k := by
  have hties : (l.filter fun a => key a = k).Pairwise fun a b => keyLe key a b = true := by
    apply List.pairwise_of_forall_mem_list
    intro a ha b hb
    have ha' : key a = k := by simpa using (List.mem_filter.mp ha).2
    have hb' : key b = k := by simpa using (List.mem_filter.mp hb).2
    simp [keyLe, ha', hb']
  have hsub : List.Sublist (l.filter fun a => key a = k) (l.mergeSort (keyLe key)) :=
    List.sublist_mergeSort keyLe_trans keyLe_total hties List.filter_sublist
  -- the ties are a sublist of the ties of the result, and there are as many
  have hsub' := hsub.filter fun a => key a = k
  rw [List.filter_filter] at hsub'
  simp only [Bool.and_self] at hsub'
  refine (hsub'.eq_of_length ?_).symm
  exact ((List.mergeSort_perm l _).filter _).length_eq.symm

/-- **A sorted list with the same ties is the result of the sort.** -/
theorem mergeSort_eq_of_key {le : α → α → Bool} {l l' : List α}
    (hle : ∀ a ∈ l, ∀ b ∈ l, le a b = keyLe key a b)
    (hsorted : l'.Pairwise fun a b => key a ≤ key b)
    (hties : ∀ k, (l'.filter fun a => key a = k) = l.filter fun a => key a = k) :
    l.mergeSort le = l' := by
  have hkey : l.mergeSort le = l.mergeSort (keyLe key) := by
    have hmap := List.map_mergeSort (f := fun a => a) hle
    simpa using hmap
  rw [hkey]
  refine eq_of_filter_key ?_ hsorted fun k => ?_
  · have hpair := List.pairwise_mergeSort (@keyLe_trans α K _ key) keyLe_total l
    simpa [keyLe] using hpair
  · rw [filter_mergeSort, hties]

end StableSort
