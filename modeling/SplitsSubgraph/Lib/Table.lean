/-
SplitsSubgraph/Lib/Table.lean

Keyed tables.  A table is a finite map from keys to rows (Mathlib's `Finmap`,
so two tables with the same lookups are equal).  Rows may be partial, and
saving a row merges it into the row already stored under its key: `upsert`.
The sum of a quantity over all rows of a table is `total`.

A loop over the rows of a table has no order of its own.  `assignAll` writes one table
into another row by row, and is well defined because writes to different keys commute.

A table may also be given by two parallel lists, keys and values; a key listed
more than once has its last value (`lastAssoc`).

A table whose keys are encodings of some index type represents a partial
function on that type (`Represents`).  Two tables that represent the same
function are equal, whatever the encoding.
-/
import Mathlib

namespace KeyedTable

variable {K R : Type*} [DecidableEq K]

/-- A finite map from keys to rows. -/
abbrev Table (K R : Type*) := Finmap fun _ : K => R

/-- The row stored under `k` after `row` is merged into it; without a stored row
it is `row` itself. -/
def mergeAt (merge : R → R → R) (t : Table K R) (k : K) (row : R) : R :=
  match t.lookup k with
  | some old => merge old row
  | none => row

/-- Save `row` under `k`, merging it into the row already there. -/
def upsert (merge : R → R → R) (t : Table K R) (k : K) (row : R) : Table K R :=
  t.insert k (mergeAt merge t k row)

variable {merge : R → R → R} {t : Table K R} {k k' : K} {row : R}

theorem lookup_insert_eq_if (t : Table K R) (k k' : K) (row : R) :
    (t.insert k row).lookup k' = if k' = k then some row else t.lookup k' := by
  by_cases h : k' = k
  · subst h
    rw [if_pos rfl]
    exact Finmap.lookup_insert t
  · rw [if_neg h]
    exact Finmap.lookup_insert_of_ne t h

/-- A row that overrides every field of a stored row replaces it. -/
theorem upsert_of_absorbs (h : ∀ old, merge old row = row) :
    upsert merge t k row = t.insert k row := by
  unfold upsert mergeAt
  cases t.lookup k with
  | none => rfl
  | some old => simp only [h]

/-! ### Sums over a table -/

/-- The sum of `f` over all rows. -/
def total (f : R → ℤ) (t : Table K R) : ℤ := (t.entries.map fun e => f e.2).sum

/-- A row saved under a fresh key adds its own contribution and nothing else. -/
theorem total_insert (f : R → ℤ) (h : t.lookup k = none) :
    total f (t.insert k row) = f row + total f t := by
  have hk : k ∉ t := Finmap.lookup_eq_none.mp h
  rw [total, Finmap.entries_insert_of_notMem hk, Multiset.map_cons, Multiset.sum_cons, total]

/-- If no row contributes, the sum is zero. -/
theorem total_eq_zero {f : R → ℤ} (h : ∀ k row, t.lookup k = some row → f row = 0) :
    total f t = 0 := by
  apply Multiset.sum_eq_zero
  intro x hx
  obtain ⟨e, he, rfl⟩ := Multiset.mem_map.mp hx
  exact h e.1 e.2 (Finmap.lookup_eq_some_iff.mpr he)

/-! ### Writing one table into another -/

/-- Set the row under `k` or, for `none`, remove it. -/
def assign (t : Table K R) (k : K) : Option R → Table K R
  | some row => t.insert k row
  | none => t.erase k

theorem lookup_assign (t : Table K R) (k k' : K) (row : Option R) :
    (assign t k row).lookup k' = if k' = k then row else t.lookup k' := by
  rcases row with - | row
  · by_cases h : k' = k
    · subst h
      rw [if_pos rfl]
      exact Finmap.lookup_erase k' t
    · rw [if_neg h]
      exact Finmap.lookup_erase_ne h
  · exact lookup_insert_eq_if t k k' row

theorem assign_comm (t : Table K R) {k k' : K} (h : k ≠ k') (row row' : Option R) :
    assign (assign t k row) k' row' = assign (assign t k' row') k row := by
  apply Finmap.ext_lookup
  intro x
  simp only [lookup_assign]
  by_cases hk : x = k
  · rw [if_neg (hk ▸ h), if_pos hk, if_pos hk]
  · rw [if_neg hk, if_neg hk]

/-- The loop over the rows of `update`, in any order, that assigns to each key what
`f` makes of its row. -/
def assignAll (f : R → Option R) (t update : Table K R) : Table K R :=
  update.liftOn (fun u => u.entries.foldl (fun t e => assign t e.1 (f e.2)) t) (by
    intro u u' hperm
    apply hperm.foldl_eq'
    intro e he e' he' s
    by_cases heq : e = e'
    · rw [heq]
    · have hne : e.1 ≠ e'.1 := fun hk =>
        heq (Sigma.eq hk (by
          obtain ⟨k, row⟩ := e
          obtain ⟨k', row'⟩ := e'
          obtain rfl : k = k' := hk
          exact u.nodupKeys.eq_of_mk_mem he he'))
      exact assign_comm s hne _ _)

theorem lookup_foldl_assign (f : R → Option R) (t : Table K R) (k : K) :
    ∀ l : List (Sigma fun _ : K => R), l.NodupKeys →
      (l.foldl (fun t e => assign t e.1 (f e.2)) t).lookup k
        = match l.dlookup k with
          | some row => f row
          | none => t.lookup k := by
  intro l
  induction l generalizing t with
  | nil => intro _; rfl
  | cons e l ih =>
    obtain ⟨k', row⟩ := e
    intro hl
    obtain ⟨hnot, hl⟩ := List.nodupKeys_cons.mp hl
    rw [List.foldl_cons, ih _ hl, lookup_assign]
    by_cases h : k = k'
    · subst h
      rw [List.dlookup_cons_eq, List.dlookup_eq_none.mpr hnot]
      simp
    · rw [List.dlookup_cons_ne _ _ h]
      simp [h]

/-- After the loop a key of `update` has what `f` made of its row, any other key what
it had. -/
theorem lookup_assignAll (f : R → Option R) (t update : Table K R) (k : K) :
    (assignAll f t update).lookup k
      = match update.lookup k with
        | some row => f row
        | none => t.lookup k := by
  induction update using Finmap.induction_on with
  | H u =>
    rw [assignAll, Finmap.liftOn_toFinmap, Finmap.lookup_toFinmap]
    exact lookup_foldl_assign f t k u.entries u.nodupKeys

/-- The rows that `p` holds of. -/
def filterRows (p : K → R → Bool) (t : Table K R) : Table K R where
  entries := t.entries.filter fun e => p e.1 e.2
  nodupKeys := by
    apply Multiset.nodup_keys.mp
    exact Multiset.nodup_of_le (Multiset.map_le_map (Multiset.filter_le _ _))
      (Multiset.nodup_keys.mpr t.nodupKeys)

theorem lookup_filterRows (p : K → R → Bool) (t : Table K R) (k : K) :
    (filterRows p t).lookup k = (t.lookup k).filter (p k) := by
  ext row
  rw [Finmap.lookup_eq_some_iff, Option.filter_eq_some_iff, Finmap.lookup_eq_some_iff]
  exact Multiset.mem_filter

/-! ### Parallel lists -/

/-- The value of the last occurrence of `k`. -/
def lastAssoc : List K → List R → K → Option R
  | a :: as, x :: xs, k => lastAssoc as xs k <|> if a = k then some x else none
  | _, _, _ => none

theorem lastAssoc_isSome {keys : List K} {values : List R} {k : K}
    (hlen : keys.length ≤ values.length) (hk : k ∈ keys) :
    (lastAssoc keys values k).isSome := by
  induction keys generalizing values with
  | nil => simp at hk
  | cons a as ih =>
    rcases values with - | ⟨x, xs⟩
    · simp at hlen
    · rw [lastAssoc]
      by_cases hmem : k ∈ as
      · obtain ⟨y, hy⟩ := Option.isSome_iff_exists.mp (ih (by simpa using hlen) hmem)
        simp [hy]
      · have ha : a = k := ((List.mem_cons.mp hk).resolve_right hmem).symm
        cases lastAssoc as xs k <;> simp [ha]

theorem lastAssoc_eq_none {keys : List K} {values : List R} {k : K} (hk : k ∉ keys) :
    lastAssoc keys values k = none := by
  induction keys generalizing values with
  | nil => rfl
  | cons a as ih =>
    rw [List.mem_cons, not_or] at hk
    rcases values with - | ⟨x, xs⟩
    · rfl
    · simp [lastAssoc, ih hk.2, Ne.symm hk.1]

theorem mem_of_lastAssoc {keys : List K} {values : List R} {k : K} {x : R}
    (h : lastAssoc keys values k = some x) : x ∈ values := by
  induction keys generalizing values with
  | nil => simp [lastAssoc] at h
  | cons a as ih =>
    rcases values with - | ⟨y, ys⟩
    · simp [lastAssoc] at h
    · rw [lastAssoc] at h
      rcases e : lastAssoc as ys k with - | z
      · by_cases ha : a = k
        · have hx : y = x := by simpa [e, ha] using h
          exact hx ▸ List.mem_cons_self
        · simp [e, ha] at h
      · have hx : z = x := by simpa [e] using h
        exact List.mem_cons_of_mem _ (ih (hx ▸ e))

/-- Among pairwise distinct keys every value is the last one. -/
theorem lastAssoc_eq_of_mem_zip {keys : List K} {values : List R} {k : K} {x : R}
    (hnd : keys.Nodup) (hmem : (k, x) ∈ keys.zip values) :
    lastAssoc keys values k = some x := by
  induction keys generalizing values with
  | nil => simp at hmem
  | cons b bs ih =>
    rcases values with - | ⟨y, ys⟩
    · simp at hmem
    · rw [List.zip_cons_cons, List.mem_cons] at hmem
      rw [List.nodup_cons] at hnd
      rcases hmem with h | h
      · obtain ⟨rfl, rfl⟩ := Prod.mk.inj h
        simp [lastAssoc, lastAssoc_eq_none hnd.1]
      · simp [lastAssoc, ih hnd.2 h]

/-! ### Tables with encoded keys -/

/-- The rows of `t` are those of `f`, each under the encoding of its index. -/
structure Represents {I : Type*} (enc : I → K) (t : Table K R) (f : I → Option R) : Prop where
  lookup : ∀ i, t.lookup (enc i) = f i
  key : ∀ k row, t.lookup k = some row → ∃ i, k = enc i

namespace Represents

variable {I : Type*} {enc : I → K} {t t' : Table K R} {f f' : I → Option R}

theorem empty : Represents enc (∅ : Table K R) (fun _ => none) where
  lookup := fun _ => Finmap.lookup_empty _
  key := fun k row e => by simp at e

/-- Outside the encodings nothing is stored. -/
theorem lookup_eq_none (h : Represents enc t f) {k : K} (hk : ∀ i, k ≠ enc i) :
    t.lookup k = none := by
  rcases e : t.lookup k with - | row
  · rfl
  · obtain ⟨i, rfl⟩ := h.key k row e
    exact absurd rfl (hk i)

/-- A stored row decodes, where the rows are encoded as well as the keys. -/
theorem exists_of_lookup {X : Type*} {g : I → Option X} {encRow : I → X → R}
    (h : Represents enc t fun i => (g i).map (encRow i)) {k : K} {row : R}
    (e : t.lookup k = some row) : ∃ i x, k = enc i ∧ g i = some x ∧ row = encRow i x := by
  obtain ⟨i, rfl⟩ := h.key k row e
  rw [h.lookup] at e
  obtain ⟨x, ex, rfl⟩ := Option.map_eq_some_iff.mp e
  exact ⟨i, x, rfl, ex, rfl⟩

theorem congr (h : Represents enc t f) (hf : ∀ i, f i = f' i) : Represents enc t f' where
  lookup := fun i => (h.lookup i).trans (hf i)
  key := h.key

/-- A function that is defined wherever `f` is keeps every row. -/
theorem isSome_lookup (h : Represents enc t f) (h' : Represents enc t' f')
    (hf : ∀ i, (f i).isSome → (f' i).isSome) {k : K} (hk : (t.lookup k).isSome) :
    (t'.lookup k).isSome := by
  obtain ⟨row, e⟩ := Option.isSome_iff_exists.mp hk
  obtain ⟨i, rfl⟩ := h.key k row e
  rw [h'.lookup]
  exact hf i (h.lookup i ▸ hk)

theorem table_eq (h : Represents enc t f) (h' : Represents enc t' f) : t = t' := by
  apply Finmap.ext_lookup
  intro k
  by_cases hk : ∃ i, k = enc i
  · obtain ⟨i, rfl⟩ := hk
    rw [h.lookup, h'.lookup]
  · have hne : ∀ i, k ≠ enc i := fun i e => hk ⟨i, e⟩
    rw [h.lookup_eq_none hne, h'.lookup_eq_none hne]

/-- A table that agrees with `t` outside the encodings represents whatever it
holds at the encodings. -/
theorem of_lookup (h : Represents enc t f) (hl : ∀ i, t'.lookup (enc i) = f' i)
    (hother : ∀ k, (∀ i, k ≠ enc i) → t'.lookup k = t.lookup k) : Represents enc t' f' where
  lookup := hl
  key := by
    intro k row e
    by_contra hk
    have hne : ∀ i, k ≠ enc i := fun i e' => hk ⟨i, e'⟩
    rw [hother k hne, h.lookup_eq_none hne] at e
    simp at e

theorem insert [DecidableEq I] (henc : Function.Injective enc) (h : Represents enc t f) (i : I)
    (row : R) : Represents enc (t.insert (enc i) row) (Function.update f i (some row)) := by
  apply h.of_lookup
  · intro j
    rw [lookup_insert_eq_if, Function.update_apply, h.lookup]
    simp only [henc.eq_iff]
  · intro k hk
    rw [lookup_insert_eq_if, if_neg (hk i)]

/-- The same for a table whose rows are encoded as well. -/
theorem insert_map [DecidableEq I] {X : Type*} {f : I → Option X} {encRow : I → X → R}
    (henc : Function.Injective enc) (h : Represents enc t fun i => (f i).map (encRow i)) (i : I)
    (x : X) : Represents enc (t.insert (enc i) (encRow i x))
      fun j => (Function.update f i (some x) j).map (encRow j) := by
  apply (h.insert henc i (encRow i x)).congr
  intro j
  by_cases hj : j = i
  · subst hj
    simp
  · simp [hj]

end Represents

end KeyedTable
