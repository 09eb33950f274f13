/-
SplitsSubgraph/Lib/RangeTable.lean

Tables that keep their history.  Every version of a row carries the range of times for
which it is valid, from `lower` (inclusive) to `upper` (exclusive, or unbounded), and a
lookup asks for the version that is valid at some time (`find`).

Nothing is overwritten.  To write at a time is to close the current versions of some rows
at that time (`clamp`) and to add new versions that are valid from then on (`fresh`).  To
revert to a time is to drop the versions that begin later and to open again the ones that
were valid then (`revert`).  `find_write` and `find_revert` say what these do to lookups at
every time, past ones included.  They rest on no two versions of a row being valid at
once, and on the table having no times beyond its head (`WF`).

Times are integers; `top` is a time beyond all heads, at which exactly the current
versions are valid.
-/
import Mathlib

namespace RangeTable

variable {I D : Type*}

/-- A version of a row. -/
structure Version (I D : Type*) where
  id : I
  data : D
  lower : ℤ
  upper : Option ℤ

namespace Version

/-- The version is valid at `b`. -/
def covers (r : Version I D) (b : ℤ) : Bool :=
  decide (r.lower ≤ b) && match r.upper with
    | none => true
    | some u => decide (b < u)

theorem covers_iff {r : Version I D} {b : ℤ} :
    r.covers b = true ↔ r.lower ≤ b ∧ ∀ u, r.upper = some u → b < u := by
  rw [covers]
  rcases r.upper with - | u <;> simp

/-- A version that is valid from `b` on. -/
def fresh (b : ℤ) (e : I × D) : Version I D := ⟨e.1, e.2, b, none⟩

variable [DecidableEq I]

/-- Close the version at `b`, if it is a current version of one of the rows. -/
def clamp (ids : List I) (top b : ℤ) (r : Version I D) : Version I D :=
  if r.id ∈ ids ∧ r.covers top then { r with upper := some b } else r

@[simp] theorem clamp_id (ids : List I) (top b : ℤ) (r : Version I D) :
    (r.clamp ids top b).id = r.id := by
  unfold clamp
  split <;> rfl

@[simp] theorem clamp_data (ids : List I) (top b : ℤ) (r : Version I D) :
    (r.clamp ids top b).data = r.data := by
  unfold clamp
  split <;> rfl

@[simp] theorem clamp_lower (ids : List I) (top b : ℤ) (r : Version I D) :
    (r.clamp ids top b).lower = r.lower := by
  unfold clamp
  split <;> rfl

theorem clamp_of_notMem {ids : List I} {r : Version I D} (h : r.id ∉ ids) (top b : ℤ) :
    r.clamp ids top b = r := by
  rw [clamp, if_neg (fun hc => h hc.1)]

theorem map_clamp_nil (top b : ℤ) (rows : List (Version I D)) :
    rows.map (clamp [] top b) = rows := by
  conv_rhs => rw [← List.map_id rows]
  apply List.map_congr_left
  intro r _
  exact clamp_of_notMem (by simp) top b

/-- To close one set of rows and then another is to close both. -/
theorem clamp_clamp {top b : ℤ} (hb : b < top) (ids ids' : List I) (r : Version I D) :
    (r.clamp ids top b).clamp ids' top b = r.clamp (ids ++ ids') top b := by
  by_cases hcur : r.covers top = true
  · by_cases hmem : r.id ∈ ids
    · have hclosed : (Version.mk r.id r.data r.lower (some b)).covers top = false := by
        rw [← Bool.not_eq_true, covers_iff]
        intro hc
        have := hc.2 b rfl
        omega
      simp [clamp, hmem, hcur, hclosed]
    · simp [clamp, hmem, hcur]
  · simp [clamp, hcur]

omit [DecidableEq I] in
/-- Open the version again, if it was valid at `t` and is not current. -/
def unclamp (t top : ℤ) (r : Version I D) : Version I D :=
  if r.covers t ∧ ¬ r.covers top then { r with upper := none } else r

omit [DecidableEq I] in
@[simp] theorem unclamp_id (t top : ℤ) (r : Version I D) : (r.unclamp t top).id = r.id := by
  unfold unclamp
  split <;> rfl

omit [DecidableEq I] in
@[simp] theorem unclamp_data (t top : ℤ) (r : Version I D) :
    (r.unclamp t top).data = r.data := by
  unfold unclamp
  split <;> rfl

omit [DecidableEq I] in
@[simp] theorem unclamp_lower (t top : ℤ) (r : Version I D) :
    (r.unclamp t top).lower = r.lower := by
  unfold unclamp
  split <;> rfl

end Version

open Version

/-! ### Well-formed tables -/

/-- No version begins or ends after the head, none is empty, and no two versions of a row
are valid at once. -/
structure WF (head : ℤ) (rows : List (Version I D)) : Prop where
  lower_le : ∀ r ∈ rows, r.lower ≤ head
  lower_lt : ∀ r ∈ rows, ∀ u, r.upper = some u → r.lower < u
  upper_le : ∀ r ∈ rows, ∀ u, r.upper = some u → u ≤ head
  disjoint : rows.Pairwise fun r r' => r.id = r'.id → ∀ b, ¬ (r.covers b ∧ r'.covers b)

theorem WF.nil (head : ℤ) : WF head ([] : List (Version I D)) :=
  ⟨by simp, by simp, by simp, List.Pairwise.nil⟩

variable [DecidableEq I]

/-- The row as it was at `b`. -/
def find (rows : List (Version I D)) (id : I) (b : ℤ) : Option D :=
  (rows.find? fun r => decide (r.id = id) && r.covers b).map Version.data

/-- Close the current versions of the rows `ids` at `b`, and add new versions. -/
def write (ids : List I) (top b : ℤ) (new : List (I × D)) (rows : List (Version I D)) :
    List (Version I D) :=
  rows.map (clamp ids top b) ++ new.map (fresh b)

omit [DecidableEq I] in
/-- Drop what begins after `t` and open again what was valid at `t`. -/
def revert (t top : ℤ) (rows : List (Version I D)) : List (Version I D) :=
  (rows.filter fun r => decide (r.lower ≤ t)).map (unclamp t top)

section lookups

variable {rows : List (Version I D)} {id : I} {b b' : ℤ}

omit [DecidableEq I] in
theorem find?_congr {l : List (Version I D)} {p q : Version I D → Bool}
    (h : ∀ r ∈ l, p r = q r) : l.find? p = l.find? q := by
  induction l with
  | nil => rfl
  | cons r l ih =>
    rw [List.find?_cons, List.find?_cons, h r (by simp), ih fun r' hr' => h r' (by simp [hr'])]

/-- Lookups at two times agree if the same versions are valid at both. -/
theorem find_congr (h : ∀ r ∈ rows, r.id = id → r.covers b = r.covers b') :
    find rows id b = find rows id b' := by
  rw [find, find]
  congr 1
  apply find?_congr
  intro r hr
  by_cases hid : r.id = id
  · rw [h r hr hid]
  · simp [hid]

theorem find_eq_none_iff :
    find rows id b = none ↔ ∀ r ∈ rows, r.id = id → r.covers b = false := by
  rw [find, Option.map_eq_none_iff, List.find?_eq_none]
  simp only [Bool.and_eq_true, decide_eq_true_eq, not_and, Bool.not_eq_true]

/-- Lookups do not change after the head. -/
theorem WF.find_of_head_le {head : ℤ} (h : WF head rows) (hb : head ≤ b) (hb' : head ≤ b') :
    find rows id b = find rows id b' := by
  apply find_congr
  intro r hr _
  have hlower := h.lower_le r hr
  rw [Bool.eq_iff_iff, covers_iff, covers_iff]
  constructor
  · intro hc
    refine ⟨by omega, fun u hu => ?_⟩
    have hupper := h.upper_le r hr u hu
    have hlt := hc.2 u hu
    omega
  · intro hc
    refine ⟨by omega, fun u hu => ?_⟩
    have hupper := h.upper_le r hr u hu
    have hlt := hc.2 u hu
    omega

/-- Rows that are there have one version at a time. -/
theorem WF.length_filter {head : ℤ} (h : WF head rows) {ids : List I} (hnd : ids.Nodup)
    (hids : ∀ id ∈ ids, (find rows id b).isSome) :
    (rows.filter fun r => decide (r.id ∈ ids) && r.covers b).length = ids.length := by
  set found := rows.filter fun r => decide (r.id ∈ ids) && r.covers b with hfound
  have hmem : ∀ r, r ∈ found ↔ r ∈ rows ∧ r.id ∈ ids ∧ r.covers b = true := by
    intro r
    rw [hfound, List.mem_filter, Bool.and_eq_true, decide_eq_true_eq]
  have hnodup : (found.map Version.id).Nodup := by
    rw [List.Nodup, List.pairwise_map]
    apply (h.disjoint.filter _).imp_of_mem
    intro r r' hr hr' hdisj hid
    exact hdisj hid b ⟨((hmem r).mp hr).2.2, ((hmem r').mp hr').2.2⟩
  have hperm : (found.map Version.id).Perm ids := by
    apply (List.perm_ext_iff_of_nodup hnodup hnd).mpr
    intro id
    constructor
    · intro hid
      obtain ⟨r, hr, rfl⟩ := List.mem_map.mp hid
      exact ((hmem r).mp hr).2.1
    · intro hid
      have hsome := hids id hid
      by_contra hnot
      have hnone : find rows id b = none := by
        rw [find_eq_none_iff]
        intro r hr hrid
        by_contra hcov
        apply hnot
        exact List.mem_map.mpr ⟨r, (hmem r).mpr ⟨hr, hrid ▸ hid, by simpa using hcov⟩, hrid⟩
      rw [hnone] at hsome
      simp at hsome
  rw [← hperm.length_eq, List.length_map]

end lookups

/-! ### Writing -/

section write

variable {head top b : ℤ} {rows : List (Version I D)} {ids : List I} {new : List (I × D)}

/-- A closed version is valid as before, but not from `b` on. -/
theorem WF.covers_clamp (h : WF head rows) (hb : head < b) (hb' : b < top) {r : Version I D}
    (hr : r ∈ rows) (x : ℤ) :
    (r.clamp ids top b).covers x = (r.covers x && !(decide (r.id ∈ ids) && decide (b ≤ x))) := by
  have hlower := h.lower_le r hr
  rw [Bool.eq_iff_iff, Bool.and_eq_true, Bool.not_eq_true', Bool.and_eq_false_iff,
    decide_eq_false_iff_not, decide_eq_false_iff_not, covers_iff, covers_iff, clamp]
  by_cases hmem : r.id ∈ ids
  · by_cases hcur : r.covers top = true
    · rw [if_pos ⟨hmem, hcur⟩]
      have hopen : r.upper = none := by
        rcases hu : r.upper with - | u
        · rfl
        · have hlt := (covers_iff.mp hcur).2 u hu
          have hle := h.upper_le r hr u hu
          omega
      simp [hmem, hopen]
    · rw [if_neg (by simp [hcur])]
      constructor
      · intro hx
        refine ⟨hx, Or.inr ?_⟩
        -- a version that is not current ends at the head at the latest
        rcases hu : r.upper with - | u
        · exfalso
          apply hcur
          rw [covers_iff, hu]
          exact ⟨by omega, by simp⟩
        · have hlt := hx.2 u hu
          have hle := h.upper_le r hr u hu
          omega
      · exact fun hx => hx.1
  · rw [if_neg (by simp [hmem])]
    simp [hmem]

omit [DecidableEq I] in
theorem covers_fresh (e : I × D) (x : ℤ) : (fresh b e).covers x = decide (b ≤ x) :=
  Bool.and_true _

theorem find_append (rows rows' : List (Version I D)) (id : I) (x : ℤ) :
    find (rows ++ rows') id x = (find rows id x).or (find rows' id x) := by
  rw [find, find, find, List.find?_append, Option.map_or]

/-- The old versions after a write. -/
theorem WF.find_clamp (h : WF head rows) (hb : head < b) (hb' : b < top) (id : I) (x : ℤ) :
    find (rows.map (clamp ids top b)) id x
      = if id ∈ ids ∧ b ≤ x then none else find rows id x := by
  have hdata : (Version.data ∘ clamp ids top b : Version I D → D) = Version.data := by
    funext r
    exact clamp_data ids top b r
  by_cases hgone : id ∈ ids ∧ b ≤ x
  · rw [if_pos hgone, find_eq_none_iff]
    intro r hr hid
    obtain ⟨r₀, hr₀, rfl⟩ := List.mem_map.mp hr
    rw [clamp_id] at hid
    rw [h.covers_clamp hb hb' hr₀, hid]
    simp [hgone]
  · rw [if_neg hgone, find, List.find?_map, Option.map_map, hdata, find]
    congr 1
    apply find?_congr
    intro r hr
    simp only [Function.comp_apply, clamp_id, h.covers_clamp hb hb' hr x]
    by_cases hid : r.id = id
    · have hstays : (decide (id ∈ ids) && decide (b ≤ x)) = false := by
        rw [Bool.and_eq_false_iff, decide_eq_false_iff_not, decide_eq_false_iff_not]
        exact not_and_or.mp hgone
      rw [hid, hstays, Bool.not_false, Bool.and_true]
    · simp [hid]

/-- The new versions after a write. -/
theorem find_fresh (new : List (I × D)) (id : I) (x : ℤ) :
    find (new.map (fresh b)) id x
      = if b ≤ x then (new.find? fun e => decide (e.1 = id)).map Prod.snd else none := by
  rw [find, List.find?_map, Option.map_map]
  have hdata : (Version.data ∘ fresh b : I × D → D) = Prod.snd := rfl
  rw [hdata]
  by_cases hx : b ≤ x
  · rw [if_pos hx]
    congr 2
    funext e
    simp only [Function.comp_apply, covers_fresh, hx, decide_true, Bool.and_true]
    rfl
  · rw [if_neg hx, Option.map_eq_none_iff, List.find?_eq_none]
    intro e _
    simp [covers_fresh, hx]

/-- **Lookups after a write**: before its time nothing has changed, and from then on the
written rows are what was written. -/
theorem WF.find_write (h : WF head rows) (hb : head < b) (hb' : b < top)
    (habsent : ∀ e ∈ new, e.1 ∈ ids ∨ find rows e.1 top = none) (id : I) (x : ℤ) :
    find (write ids top b new rows) id x
      = if x < b then find rows id x
        else match (new.find? fun e => decide (e.1 = id)) with
          | some e => some e.2
          | none => if id ∈ ids then none else find rows id x := by
  rw [write, find_append, h.find_clamp hb hb', find_fresh]
  by_cases hx : x < b
  · have hle : ¬ b ≤ x := by omega
    simp only [if_pos hx, hle, and_false, if_false, Option.or_none]
  · have hle : b ≤ x := by omega
    simp only [if_neg hx, hle, and_true, if_true]
    rcases hfind : new.find? (fun e => decide (e.1 = id)) with - | e
    · simp only [hfind, Option.map_none, Option.or_none]
    · have hid : e.1 = id := by simpa using List.find?_some hfind
      -- the row was closed by this write, or there was none
      have hnone : (if id ∈ ids then none else find rows id x) = none := by
        rcases habsent e (List.mem_of_find?_eq_some hfind) with hmem | hnone
        · rw [if_pos (hid ▸ hmem)]
        · rw [hid, h.find_of_head_le (by omega) (show head ≤ x by omega)] at hnone
          rw [hnone, ite_self]
      simp only [hnone, hfind, Option.map_some, Option.none_or]

theorem WF.write (h : WF head rows) (hb : head < b) (hb' : b < top)
    (hnd : (new.map Prod.fst).Nodup)
    (habsent : ∀ e ∈ new, e.1 ∈ ids ∨ find rows e.1 top = none) :
    WF b (RangeTable.write ids top b new rows) := by
  have hmem : ∀ r ∈ RangeTable.write ids top b new rows,
      (∃ r₀ ∈ rows, r₀.clamp ids top b = r) ∨ ∃ e ∈ new, fresh b e = r := by
    intro r hr
    rw [RangeTable.write, List.mem_append, List.mem_map, List.mem_map] at hr
    exact hr
  refine ⟨?_, ?_, ?_, ?_⟩
  · intro r hr
    rcases hmem r hr with ⟨r₀, hr₀, rfl⟩ | ⟨e, -, rfl⟩
    · rw [clamp_lower]
      have := h.lower_le r₀ hr₀
      omega
    · exact le_rfl
  · intro r hr u hu
    rcases hmem r hr with ⟨r₀, hr₀, rfl⟩ | ⟨e, -, rfl⟩
    · rw [clamp_lower]
      rw [clamp] at hu
      split at hu
      · cases hu
        have := h.lower_le r₀ hr₀
        omega
      · exact h.lower_lt r₀ hr₀ u hu
    · simp [fresh] at hu
  · intro r hr u hu
    rcases hmem r hr with ⟨r₀, hr₀, rfl⟩ | ⟨e, -, rfl⟩
    · rw [clamp] at hu
      split at hu
      · cases hu
        exact le_rfl
      · have := h.upper_le r₀ hr₀ u hu
        omega
    · simp [fresh] at hu
  · rw [RangeTable.write, List.pairwise_append]
    refine ⟨?_, ?_, ?_⟩
    · rw [List.pairwise_map]
      apply h.disjoint.imp_of_mem
      intro r r' hr hr' hdisj hid x hx
      rw [clamp_id, clamp_id] at hid
      rw [h.covers_clamp hb hb' hr, h.covers_clamp hb hb' hr', Bool.and_eq_true,
        Bool.and_eq_true] at hx
      exact hdisj hid x ⟨hx.1.1, hx.2.1⟩
    · rw [List.pairwise_map]
      rw [List.Nodup, List.pairwise_map] at hnd
      exact hnd.imp fun hne hid => absurd hid hne
    · intro r hr r' hr' hid x hx
      obtain ⟨r₀, hr₀, rfl⟩ := List.mem_map.mp hr
      obtain ⟨e, he, rfl⟩ := List.mem_map.mp hr'
      rw [clamp_id] at hid
      rw [h.covers_clamp hb hb' hr₀, covers_fresh, Bool.and_eq_true, decide_eq_true_eq] at hx
      obtain ⟨⟨hcov, hnot⟩, hle⟩ := hx
      have hid : r₀.id = e.1 := hid
      rcases habsent e he with hmem | hnone
      · simp [hid, hmem, hle] at hnot
      · rw [h.find_of_head_le (by omega) (show head ≤ x by omega), find_eq_none_iff] at hnone
        rw [hnone r₀ hr₀ hid] at hcov
        simp at hcov

end write

/-! ### Reverting -/

section revert

variable {head top t : ℤ} {rows : List (Version I D)}

omit [DecidableEq I] in
/-- After a revert a version is valid where it was before, looking no further than `t`. -/
theorem WF.covers_unclamp (h : WF head rows) (htop : head < top) {r : Version I D}
    (hr : r ∈ rows) (hlow : r.lower ≤ t) (x : ℤ) :
    (r.unclamp t top).covers x = r.covers (min x t) := by
  rw [unclamp]
  by_cases hcov : r.covers t = true
  · rcases hu : r.upper with - | u
    · have hcur : r.covers top = true := by
        have := h.lower_le r hr
        rw [covers_iff, hu]
        exact ⟨by omega, by simp⟩
      rw [if_neg (by simp [hcur]), Bool.eq_iff_iff, covers_iff, covers_iff, hu]
      simp [hlow]
    · have hle := h.upper_le r hr u hu
      have hcur : ¬ r.covers top = true := by
        intro hc
        have := (covers_iff.mp hc).2 u hu
        omega
      have hlt := (covers_iff.mp hcov).2 u hu
      rw [if_pos ⟨hcov, hcur⟩, Bool.eq_iff_iff, covers_iff, covers_iff, hu]
      simp only [Option.some.injEq, reduceCtorEq, false_implies, implies_true, and_true]
      constructor
      · intro hx
        exact ⟨by omega, fun v hv => by omega⟩
      · intro hx
        omega
  · rw [if_neg (by simp [hcov]), Bool.eq_iff_iff, covers_iff, covers_iff]
    -- the version ended by `t`
    rcases hu : r.upper with - | u
    · exfalso
      apply hcov
      rw [covers_iff, hu]
      exact ⟨hlow, by simp⟩
    · have hend : u ≤ t := by
        by_contra hlt
        apply hcov
        rw [covers_iff, hu]
        exact ⟨hlow, fun v hv => by cases hv; omega⟩
      simp only [Option.some.injEq, forall_eq']
      omega

/-- **Lookups after a revert** are lookups no later than its time. -/
theorem WF.find_revert (h : WF head rows) (htop : head < top) (id : I) (x : ℤ) :
    find (revert t top rows) id x = find rows id (min x t) := by
  rw [find, revert, List.find?_map, List.find?_filter, find, Option.map_map]
  have hdata : (Version.data ∘ unclamp t top : Version I D → D) = Version.data := by
    funext r
    exact unclamp_data t top r
  rw [hdata]
  congr 1
  apply find?_congr
  intro r hr
  simp only [Function.comp_apply, unclamp_id]
  by_cases hlow : r.lower ≤ t
  · simp [hlow, h.covers_unclamp htop hr hlow x]
  · have hout : r.covers (min x t) = false := by
      rw [← Bool.not_eq_true, covers_iff]
      omega
    simp [hlow, hout]

omit [DecidableEq I] in
theorem WF.revert (h : WF head rows) (htop : head < top) :
    WF t (RangeTable.revert t top rows) := by
  have hmem : ∀ r ∈ RangeTable.revert t top rows,
      ∃ r₀ ∈ rows, r₀.lower ≤ t ∧ r₀.unclamp t top = r := by
    intro r hr
    obtain ⟨r₀, hr₀, rfl⟩ := List.mem_map.mp hr
    rw [List.mem_filter, decide_eq_true_eq] at hr₀
    exact ⟨r₀, hr₀.1, hr₀.2, rfl⟩
  refine ⟨?_, ?_, ?_, ?_⟩
  · intro r hr
    obtain ⟨r₀, -, hlow, rfl⟩ := hmem r hr
    rwa [unclamp_lower]
  · intro r hr u hu
    obtain ⟨r₀, hr₀, -, rfl⟩ := hmem r hr
    rw [unclamp_lower]
    rw [unclamp] at hu
    split at hu
    · simp at hu
    · exact h.lower_lt r₀ hr₀ u hu
  · intro r hr u hu
    obtain ⟨r₀, hr₀, hlow, rfl⟩ := hmem r hr
    rw [unclamp] at hu
    split at hu
    · simp at hu
    · rename_i hkeep
      by_contra hlt
      apply hkeep
      have hle := h.upper_le r₀ hr₀ u hu
      refine ⟨covers_iff.mpr ⟨hlow, fun v hv => ?_⟩, fun hc => ?_⟩
      · rw [hu] at hv
        cases hv
        omega
      · have := (covers_iff.mp hc).2 u hu
        omega
  · rw [RangeTable.revert, List.pairwise_map]
    apply (h.disjoint.filter _).imp_of_mem
    intro r r' hr hr' hdisj hid x hx
    rw [List.mem_filter, decide_eq_true_eq] at hr hr'
    rw [unclamp_id, unclamp_id] at hid
    rw [h.covers_unclamp htop hr.1 hr.2, h.covers_unclamp htop hr'.1 hr'.2] at hx
    exact hdisj hid _ hx

end revert

/-! ### Counting -/

/-- Of two sets and a third one that has all that is in the second and not in the first. -/
theorem card_identity {P Q A : Finset I} (h : Q \ P ⊆ A) :
    (((P \ Q) \ A).card : ℤ) - (A \ P).card = P.card - Q.card - (A \ Q).card := by
  have hP : P.card = ((P \ Q) \ A).card + ((P \ Q) ∩ A).card + (P ∩ Q).card := by
    rw [Finset.card_sdiff_add_card_inter, Finset.card_sdiff_add_card_inter]
  have hQ : Q.card = (Q \ P).card + (P ∩ Q).card := by
    rw [Finset.inter_comm, Finset.card_sdiff_add_card_inter]
  have hAP : (A \ P).card = (Q \ P).card + ((A \ P) \ Q).card := by
    have hinter : (A \ P) ∩ Q = Q \ P := by
      ext x
      simp only [Finset.mem_inter, Finset.mem_sdiff]
      constructor
      · exact fun hx => ⟨hx.2, hx.1.2⟩
      · exact fun hx => ⟨⟨h (Finset.mem_sdiff.mpr hx), hx.2⟩, hx.1⟩
    rw [← Finset.card_sdiff_add_card_inter (A \ P) Q, hinter, add_comm]
  have hAQ : (A \ Q).card = ((P \ Q) ∩ A).card + ((A \ P) \ Q).card := by
    have hinter : (A \ Q) ∩ P = (P \ Q) ∩ A := by
      ext x
      simp only [Finset.mem_inter, Finset.mem_sdiff]
      tauto
    have hdiff : (A \ Q) \ P = (A \ P) \ Q := by
      ext x
      simp only [Finset.mem_sdiff]
      tauto
    rw [← Finset.card_sdiff_add_card_inter (A \ Q) P, hinter, hdiff, add_comm]
  omega

section counting

variable {head top t b : ℤ} {rows : List (Version I D)}

/-- The rows that are there at `b`. -/
def present (rows : List (Version I D)) (b : ℤ) : Finset I :=
  ((rows.filter fun r => r.covers b).map Version.id).toFinset

/-- The rows that have a version that begins after `t`. -/
def begun (rows : List (Version I D)) (t : ℤ) : Finset I :=
  ((rows.filter fun r => decide (t < r.lower)).map Version.id).toFinset

/-- The rows of which a revert to `t` opens a version again. -/
def reopened (rows : List (Version I D)) (t top : ℤ) : Finset I :=
  ((rows.filter fun r => r.covers t && !r.covers top).map Version.id).toFinset

theorem mem_present {id : I} :
    id ∈ present rows b ↔ ∃ r ∈ rows, r.id = id ∧ r.covers b = true := by
  rw [present, List.mem_toFinset, List.mem_map]
  constructor
  · rintro ⟨r, hr, rfl⟩
    rw [List.mem_filter] at hr
    exact ⟨r, hr.1, rfl, hr.2⟩
  · rintro ⟨r, hr, rfl, hcov⟩
    exact ⟨r, List.mem_filter.mpr ⟨hr, hcov⟩, rfl⟩

theorem mem_begun {id : I} : id ∈ begun rows t ↔ ∃ r ∈ rows, r.id = id ∧ t < r.lower := by
  rw [begun, List.mem_toFinset, List.mem_map]
  constructor
  · rintro ⟨r, hr, rfl⟩
    rw [List.mem_filter, decide_eq_true_eq] at hr
    exact ⟨r, hr.1, rfl, hr.2⟩
  · rintro ⟨r, hr, rfl, hlt⟩
    exact ⟨r, List.mem_filter.mpr ⟨hr, decide_eq_true hlt⟩, rfl⟩

theorem mem_reopened {id : I} :
    id ∈ reopened rows t top
      ↔ ∃ r ∈ rows, r.id = id ∧ r.covers t = true ∧ ¬ r.covers top = true := by
  rw [reopened, List.mem_toFinset, List.mem_map]
  constructor
  · rintro ⟨r, hr, rfl⟩
    rw [List.mem_filter, Bool.and_eq_true, Bool.not_eq_true', ← Bool.not_eq_true] at hr
    exact ⟨r, hr.1, rfl, hr.2⟩
  · rintro ⟨r, hr, rfl, hcov⟩
    refine ⟨r, List.mem_filter.mpr ⟨hr, ?_⟩, rfl⟩
    rw [Bool.and_eq_true, Bool.not_eq_true', ← Bool.not_eq_true]
    exact hcov

theorem mem_present_iff_find {id : I} : id ∈ present rows b ↔ (find rows id b).isSome := by
  rw [mem_present]
  constructor
  · rintro ⟨r, hr, hid, hcov⟩
    by_contra hnone
    rw [Option.not_isSome_iff_eq_none, find_eq_none_iff] at hnone
    rw [hnone r hr hid] at hcov
    simp at hcov
  · intro hsome
    by_contra hnot
    have hnone : find rows id b = none := by
      rw [find_eq_none_iff]
      intro r hr hid
      by_contra hcov
      exact hnot ⟨r, hr, hid, by simpa using hcov⟩
    rw [hnone] at hsome
    simp at hsome

/-- Every row has at most one version at a time. -/
theorem WF.card_present (h : WF head rows) (b : ℤ) :
    (present rows b).card = (rows.filter fun r => r.covers b).length := by
  rw [present, List.card_toFinset, List.Nodup.dedup, List.length_map]
  rw [List.Nodup, List.pairwise_map]
  apply (h.disjoint.filter _).imp_of_mem
  intro r r' hr hr' hdisj hid
  exact hdisj hid b ⟨(List.mem_filter.mp hr).2, (List.mem_filter.mp hr').2⟩

omit [DecidableEq I] in
/-- Two versions of a row that are valid at once are the same. -/
theorem WF.eq_of_covers (h : WF head rows) {r r' : Version I D} (hr : r ∈ rows) (hr' : r' ∈ rows)
    (hid : r.id = r'.id) (hcov : r.covers b = true) (hcov' : r'.covers b = true) : r = r' := by
  by_contra hne
  have hsymm : Std.Symm fun s s' : Version I D =>
      s.id = s'.id → ∀ b, ¬ (s.covers b ∧ s'.covers b) :=
    ⟨fun s s' hs hid b hc => hs hid.symm b hc.symm⟩
  exact h.disjoint.forall hr hr' hne hid b ⟨hcov, hcov'⟩

omit [DecidableEq I] in
/-- A version that is valid at the top has no end. -/
theorem WF.upper_of_covers_top (h : WF head rows) (htop : head < top) {r : Version I D}
    (hr : r ∈ rows) (hcov : r.covers top = true) : r.upper = none := by
  rcases hu : r.upper with - | u
  · rfl
  · have hlt := (covers_iff.mp hcov).2 u hu
    have hle := h.upper_le r hr u hu
    omega

omit [DecidableEq I] in
/-- A version without an end is valid from its beginning on. -/
theorem covers_of_upper_none {r : Version I D} (hu : r.upper = none) (hb : r.lower ≤ b) :
    r.covers b = true :=
  covers_iff.mpr ⟨hb, by simp [hu]⟩

/-- A write closes rows that are there and adds rows that are not. -/
theorem WF.card_write (h : WF head rows) (hb : head < b) (hb' : b < top) {ids : List I}
    {new : List (I × D)} (hids : ids.Nodup) (hnew : (new.map Prod.fst).Nodup)
    (hclosed : ∀ id ∈ ids, (find rows id top).isSome)
    (habsent : ∀ e ∈ new, e.1 ∈ ids ∨ find rows e.1 top = none) :
    ((present (RangeTable.write ids top b new rows) top).card : ℤ)
      = (present rows top).card - ids.length + new.length := by
  have hset : present (RangeTable.write ids top b new rows) top
      = (present rows top \ ids.toFinset) ∪ (new.map Prod.fst).toFinset := by
    ext id
    rw [Finset.mem_union, Finset.mem_sdiff, mem_present_iff_find, mem_present_iff_find,
      List.mem_toFinset, List.mem_toFinset, h.find_write hb hb' habsent, if_neg (by omega)]
    rcases e : new.find? (fun e => decide (e.1 = id)) with - | e'
    · have hnot : id ∉ new.map Prod.fst := by
        intro hmem
        obtain ⟨e', he', rfl⟩ := List.mem_map.mp hmem
        have := List.find?_eq_none.mp e e' he'
        simp at this
      by_cases hid : id ∈ ids <;> simp [e, hid, hnot]
    · have hmem : id ∈ new.map Prod.fst := by
        have hid : e'.1 = id := by simpa using List.find?_some e
        exact List.mem_map.mpr ⟨e', List.mem_of_find?_eq_some e, hid⟩
      simp [e, hmem]
  have hdisj : Disjoint (present rows top \ ids.toFinset) (new.map Prod.fst).toFinset := by
    rw [Finset.disjoint_left]
    intro id hold hmem
    rw [Finset.mem_sdiff, mem_present_iff_find, List.mem_toFinset] at hold
    obtain ⟨e, he, rfl⟩ := List.mem_map.mp (List.mem_toFinset.mp hmem)
    rcases habsent e he with hclose | hnone
    · exact hold.2 hclose
    · rw [hnone] at hold
      simp at hold
  have hsub : ids.toFinset ⊆ present rows top := by
    intro id hid
    exact mem_present_iff_find.mpr (hclosed id (List.mem_toFinset.mp hid))
  have hcard := Finset.card_sdiff_add_card_eq_card hsub
  rw [List.toFinset_card_of_nodup hids] at hcard
  rw [hset, Finset.card_union_of_disjoint hdisj, List.toFinset_card_of_nodup hnew, List.length_map]
  omega

/-- After a revert those rows are there that were there then. -/
theorem WF.present_revert (h : WF head rows) (htop : head < top) (ht : t ≤ top) :
    present (RangeTable.revert t top rows) top = present rows t := by
  ext id
  rw [mem_present_iff_find, mem_present_iff_find, h.find_revert htop, min_eq_right ht]

/-- **What a revert can tell of the number of rows.**  The rows that are opened again and do
not begin later, less those that begin later and are not opened again, make the difference
between then and now, but for the rows that begin later and are not there now. -/
theorem WF.card_revert (h : WF head rows) (htop : head < top) :
    ((reopened rows t top \ begun rows t).card : ℤ) - (begun rows t \ reopened rows t top).card
      = (present rows t).card - (present rows top).card
        - (begun rows t \ present rows top).card := by
  -- opened again and not begun later: there then, not there now
  have hopened : reopened rows t top \ begun rows t
      = (present rows t \ present rows top) \ begun rows t := by
    ext id
    rw [Finset.mem_sdiff, Finset.mem_sdiff, Finset.mem_sdiff, mem_reopened]
    constructor
    · rintro ⟨⟨r, hr, hid, hcov, hcur⟩, hbegun⟩
      refine ⟨⟨mem_present.mpr ⟨r, hr, hid, hcov⟩, ?_⟩, hbegun⟩
      intro htopmem
      obtain ⟨r', hr', hid', hcov'⟩ := mem_present.mp htopmem
      have hlow : r'.lower ≤ t := by
        by_contra hlt
        exact hbegun (mem_begun.mpr ⟨r', hr', hid', by omega⟩)
      have hsame := h.eq_of_covers hr hr' (hid.trans hid'.symm) hcov
        (covers_of_upper_none (h.upper_of_covers_top htop hr' hcov') hlow)
      exact hcur (hsame ▸ hcov')
    · rintro ⟨⟨hthen, hnow⟩, hbegun⟩
      obtain ⟨r, hr, hid, hcov⟩ := mem_present.mp hthen
      exact ⟨⟨r, hr, hid, hcov, fun hcur => hnow (mem_present.mpr ⟨r, hr, hid, hcur⟩)⟩, hbegun⟩
  -- begun later and not opened again: not there then
  have hremoved : begun rows t \ reopened rows t top = begun rows t \ present rows t := by
    ext id
    rw [Finset.mem_sdiff, Finset.mem_sdiff]
    constructor
    · rintro ⟨hbegun, hnot⟩
      refine ⟨hbegun, fun hthen => hnot ?_⟩
      obtain ⟨r, hr, hid, hcov⟩ := mem_present.mp hthen
      obtain ⟨r', hr', hid', hlt⟩ := mem_begun.mp hbegun
      refine mem_reopened.mpr ⟨r, hr, hid, hcov, fun hcur => ?_⟩
      -- the later version begins while the earlier one is valid
      have hlow := (covers_iff.mp hcov).1
      have hbegins : r'.covers r'.lower = true :=
        covers_iff.mpr ⟨le_rfl, h.lower_lt r' hr'⟩
      have hsame := h.eq_of_covers hr hr' (hid.trans hid'.symm)
        (covers_of_upper_none (h.upper_of_covers_top htop hr hcur) (by omega)) hbegins
      rw [hsame] at hlow
      omega
    · rintro ⟨hbegun, hthen⟩
      refine ⟨hbegun, fun hmem => hthen ?_⟩
      obtain ⟨r, hr, hid, hcov, -⟩ := mem_reopened.mp hmem
      exact mem_present.mpr ⟨r, hr, hid, hcov⟩
  -- there now and not then: begun later
  have hnew : present rows top \ present rows t ⊆ begun rows t := by
    intro id hmem
    rw [Finset.mem_sdiff] at hmem
    obtain ⟨r, hr, hid, hcov⟩ := mem_present.mp hmem.1
    refine mem_begun.mpr ⟨r, hr, hid, ?_⟩
    by_contra hle
    exact hmem.2 (mem_present.mpr ⟨r, hr, hid,
      covers_of_upper_none (h.upper_of_covers_top htop hr hcov) (by omega)⟩)
  rw [hopened, hremoved]
  exact card_identity hnew

end counting

end RangeTable
