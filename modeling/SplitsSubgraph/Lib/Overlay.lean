/-
SplitsSubgraph/Lib/Overlay.lean

Pending changes over a base.  A change acts on a state, and two changes of one key
can be accumulated into one.  Changes that are not applied yet are kept in a table
with at most one change a key (`push`), and a read applies the pending change of the
key to what the base holds there (`read`).

States are compared up to a normal form `norm`.  Accumulating need not be composition
on the nose, only up to `norm` (`Lawful`); this is enough for a read after a push to be
what the change makes of the read before it, and for a whole table of pending changes
that is drained into another to be the two tables one over the other, in whatever order
it is drained (`norm_read_drain`).
-/
import Mathlib

namespace Overlay

variable {K O S : Type*}

/-- At most one pending change a key. -/
abbrev Pending (K O : Type*) := AList fun _ : K => O

/-- Changes respect the normal form, and an accumulated change is one change after the
other, up to the normal form. -/
structure Lawful (act : O → S → S) (accumulate : O → O → O) (norm : S → S) : Prop where
  norm_act : ∀ o s, norm (act o (norm s)) = norm (act o s)
  norm_accumulate : ∀ a b s, norm (act (accumulate a b) s) = norm (act b (act a s))

theorem Lawful.norm_act_congr {act : O → S → S} {accumulate : O → O → O} {norm : S → S}
    (h : Lawful act accumulate norm) (o : O) {s s' : S} (hs : norm s = norm s') :
    norm (act o s) = norm (act o s') := by
  rw [← h.norm_act o s, hs, h.norm_act]

variable [DecidableEq K]

/-- Add a change; a change that is pending already accumulates it. -/
def push (accumulate : O → O → O) (p : Pending K O) (k : K) (o : O) : Pending K O :=
  match p.lookup k with
  | none => p.insert k o
  | some a => p.insert k (accumulate a o)

/-- What is read under `k`, given what the base holds there. -/
def read (act : O → S → S) (p : Pending K O) (base : K → S) (k : K) : S :=
  match p.lookup k with
  | none => base k
  | some o => act o (base k)

/-- Push changes one after the other. -/
def drain (accumulate : O → O → O) (p : Pending K O) (changes : List (Sigma fun _ : K => O)) :
    Pending K O :=
  changes.foldl (fun p e => push accumulate p e.1 e.2) p

variable {act : O → S → S} {accumulate : O → O → O} {norm : S → S} {p q : Pending K O}
  {base base' : K → S} {k k' : K} {o : O}

@[simp] theorem read_empty : read act (∅ : Pending K O) base = base := by
  funext k
  simp [read]

theorem lookup_push : (push accumulate p k o).lookup k'
    = if k' = k then some (match p.lookup k with | none => o | some a => accumulate a o)
      else p.lookup k' := by
  by_cases h : k' = k
  · subst h
    rw [if_pos rfl, push]
    rcases p.lookup k' with - | a <;> exact AList.lookup_insert p
  · rw [if_neg h, push]
    rcases p.lookup k with - | a <;> exact AList.lookup_insert_ne h

theorem read_push_of_ne (h : k' ≠ k) :
    read act (push accumulate p k o) base k' = read act p base k' := by
  rw [read, lookup_push, if_neg h]
  rfl

section lawful

variable (hC : Lawful act accumulate norm)

include hC

theorem norm_read_push_self :
    norm (read act (push accumulate p k o) base k) = norm (act o (read act p base k)) := by
  rw [read, lookup_push, if_pos rfl, read]
  rcases p.lookup k with - | a
  · rfl
  · exact hC.norm_accumulate a o (base k)

/-- A read after a push: the change acts on what was read before. -/
theorem norm_read_push : norm (read act (push accumulate p k o) base k')
    = if k' = k then norm (act o (read act p base k)) else norm (read act p base k') := by
  by_cases h : k' = k
  · subst h
    rw [if_pos rfl]
    exact norm_read_push_self hC
  · rw [if_neg h, read_push_of_ne h]

theorem norm_read_congr (h : norm (base k) = norm (base' k)) :
    norm (read act p base k) = norm (read act p base' k) := by
  rw [read, read]
  rcases p.lookup k with - | o
  · exact h
  · exact hC.norm_act_congr o h

/-- Draining changes of pairwise different keys, in any order. -/
theorem norm_read_drain_list (changes : List (Sigma fun _ : K => O)) (hnd : changes.NodupKeys) :
    norm (read act (drain accumulate p changes) base k)
      = match changes.dlookup k with
        | none => norm (read act p base k)
        | some o => norm (act o (read act p base k)) := by
  induction changes generalizing p with
  | nil => rfl
  | cons e changes ih =>
    obtain ⟨k', o⟩ := e
    obtain ⟨hnot, hnd⟩ := List.nodupKeys_cons.mp hnd
    rw [drain, List.foldl_cons, ← drain, ih hnd]
    by_cases h : k = k'
    · subst h
      rw [List.dlookup_eq_none.mpr hnot, List.dlookup_cons_eq]
      exact norm_read_push_self hC
    · rw [List.dlookup_cons_ne _ _ h, read_push_of_ne h]

/-- **Draining one table of pending changes into another is reading through both**:
the drained changes act on what the other table makes of the base. -/
theorem norm_read_drain : norm (read act (drain accumulate p q.entries) base k)
    = norm (read act q (read act p base) k) := by
  rw [norm_read_drain_list hC q.entries q.nodupKeys]
  show _ = norm (match q.lookup k with
    | none => read act p base k
    | some o => act o (read act p base k))
  have hlookup : q.entries.dlookup k = q.lookup k := rfl
  rw [hlookup]
  rcases q.lookup k with - | o <;> rfl

end lawful

end Overlay
