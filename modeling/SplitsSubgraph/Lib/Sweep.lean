/-
SplitsSubgraph/Lib/Sweep.lean

Loops that walk over a list of items, each of which names a key, and act on the
keys that are still due.  Acting on a key makes it no longer due, so an item acts
only at the first visit of its key: `firstVisits key due items` is the sublist
of the items that act.  Its keys are exactly the due keys among those the items name
(`mem_map_firstVisits`), and it depends on `due` only through the keys that are named
(`firstVisits_congr`).

A sweep may be a loop inside a loop: a fold inside a fold is one fold over the pairs
(`foldlM_foldlM_eq`).
-/
import Mathlib

namespace Sweep

variable {P Q K L : Type*} [DecidableEq K] [DecidableEq L]

/-! ### First visits -/

/-- The items that are met while their key is due, in order. -/
def firstVisits (key : P → K) : (K → Bool) → List P → List P
  | _, [] => []
  | due, p :: ps =>
    if due (key p) then p :: firstVisits key (fun k => due k && decide (k ≠ key p)) ps
    else firstVisits key due ps

variable {key : P → K} {due due' : K → Bool} {p : P} {ps : List P}

theorem firstVisits_cons_due (h : due (key p) = true) :
    firstVisits key due (p :: ps)
      = p :: firstVisits key (fun k => due k && decide (k ≠ key p)) ps := by
  rw [firstVisits, if_pos h]

theorem firstVisits_cons_not_due (h : due (key p) = false) :
    firstVisits key due (p :: ps) = firstVisits key due ps := by
  rw [firstVisits, if_neg (by simp [h])]

theorem firstVisits_congr (h : ∀ p ∈ ps, due (key p) = due' (key p)) :
    firstVisits key due ps = firstVisits key due' ps := by
  induction ps generalizing due due' with
  | nil => rfl
  | cons p ps ih =>
    have hp := h p List.mem_cons_self
    have hps : ∀ q ∈ ps, due (key q) = due' (key q) := fun q hq => h q (List.mem_cons_of_mem _ hq)
    rcases e : due (key p) with - | -
    · rw [firstVisits_cons_not_due e, firstVisits_cons_not_due (hp ▸ e), ih hps]
    · rw [firstVisits_cons_due e, firstVisits_cons_due (hp ▸ e)]
      refine congrArg (p :: ·) (ih ?_)
      intro q hq
      simp [hps q hq]

theorem mem_of_mem_firstVisits (h : p ∈ firstVisits key due ps) :
    p ∈ ps ∧ due (key p) = true := by
  induction ps generalizing due with
  | nil => simp [firstVisits] at h
  | cons q ps ih =>
    rcases e : due (key q) with - | -
    · rw [firstVisits_cons_not_due e] at h
      obtain ⟨hmem, hdue⟩ := ih h
      exact ⟨List.mem_cons_of_mem _ hmem, hdue⟩
    · rw [firstVisits_cons_due e, List.mem_cons] at h
      rcases h with rfl | h
      · exact ⟨List.mem_cons_self, e⟩
      · obtain ⟨hmem, hdue⟩ := ih h
        simp only [Bool.and_eq_true] at hdue
        exact ⟨List.mem_cons_of_mem _ hmem, hdue.1⟩

/-- The keys acted on are the due ones among those named. -/
theorem mem_map_firstVisits {k : K} :
    k ∈ (firstVisits key due ps).map key ↔ due k = true ∧ k ∈ ps.map key := by
  constructor
  · intro h
    obtain ⟨p, hp, rfl⟩ := List.mem_map.mp h
    obtain ⟨hmem, hdue⟩ := mem_of_mem_firstVisits hp
    exact ⟨hdue, List.mem_map_of_mem hmem⟩
  · rintro ⟨hdue, hmem⟩
    induction ps generalizing due with
    | nil => simp at hmem
    | cons q ps ih =>
      rw [List.map_cons, List.mem_cons] at hmem
      rcases e : due (key q) with - | -
      · rw [firstVisits_cons_not_due e]
        rcases hmem with rfl | hmem
        · simp [hdue] at e
        · exact ih hdue hmem
      · rw [firstVisits_cons_due e, List.map_cons, List.mem_cons]
        by_cases hk : k = key q
        · exact Or.inl hk
        · refine Or.inr (ih (by simp [hdue, hk]) ?_)
          rcases hmem with h | h
          · exact absurd h hk
          · exact h

theorem firstVisits_eq_nil_iff :
    firstVisits key due ps = [] ↔ ∀ p ∈ ps, due (key p) = false := by
  constructor
  · intro h p hp
    by_contra hdue
    have hk : key p ∈ (firstVisits key due ps).map key :=
      mem_map_firstVisits.mpr ⟨by simpa using hdue, List.mem_map_of_mem hp⟩
    simp [h] at hk
  · intro h
    apply List.eq_nil_iff_forall_not_mem.mpr
    intro p hp
    obtain ⟨hmem, hdue⟩ := mem_of_mem_firstVisits hp
    simp [h p hmem] at hdue

/-- Renaming items and keys along an injective map of keys commutes with
sweeping. -/
theorem firstVisits_map {key' : Q → L} {dueL : L → Bool} {f : Q → P} {g : L → K}
    (hg : Function.Injective g) (hkey : ∀ q, key (f q) = g (key' q))
    (hdue : ∀ l, due (g l) = dueL l) (qs : List Q) :
    firstVisits key due (qs.map f) = (firstVisits key' dueL qs).map f := by
  induction qs generalizing due dueL with
  | nil => rfl
  | cons q qs ih =>
    have hq : due (key (f q)) = dueL (key' q) := by rw [hkey, hdue]
    rcases e : dueL (key' q) with - | -
    · rw [List.map_cons, firstVisits_cons_not_due (hq.trans e), firstVisits_cons_not_due e, ih hdue]
    · rw [List.map_cons, firstVisits_cons_due (hq.trans e), firstVisits_cons_due e, List.map_cons]
      refine congrArg (f q :: ·) (ih ?_)
      intro l
      simp only [hdue, hkey, ne_eq, hg.eq_iff]

/-! ### Loops in a monad -/

/-- The pairs a nested loop visits, in order. -/
def pairs (xs : List P) (ys : List Q) : List (P × Q) := xs.flatMap fun x => ys.map fun y => (x, y)

theorem mem_pairs {xs : List P} {ys : List Q} {x : P} {y : Q} :
    (x, y) ∈ pairs xs ys ↔ x ∈ xs ∧ y ∈ ys := by
  simp [pairs]

/-- A fold inside a fold is one fold over the pairs. -/
theorem foldlM_foldlM_eq {m : Type → Type} [Monad m] [LawfulMonad m] {σ : Type}
    (f : σ → P → Q → m σ) (xs : List P) (ys : List Q) (s : σ) :
    xs.foldlM (fun s x => ys.foldlM (fun s y => f s x y) s) s
      = (pairs xs ys).foldlM (fun s p => f s p.1 p.2) s := by
  induction xs generalizing s with
  | nil => rfl
  | cons x xs ih =>
    rw [List.foldlM_cons, pairs, List.flatMap_cons, List.foldlM_append, List.foldlM_map]
    simp only [ih, pairs]

end Sweep
