/-
SplitsSubgraph/Deployment.lean

What the tables of a deployment hold.

The tables are range tables (Lib/RangeTable.lean).  The SQL of the source differs from the
plain operations in its details: immutable and account-like tables are searched by other
conditions, the modifications of a block come to a table in three statements, and a revert
asks twice for the versions that it opens again.  On the tables of a deployment
(`Deployment.WF`) all of this comes to the same: `find_eq`, `applyEntityModifications_eq`
and `revertTable_eq`.

Together they say what a transaction and a revert do to the entities as of every block
(`get_written`, `get_reverted`).  What they come to over a whole history is said in
Canonical.lean.
-/
import SplitsSubgraph.Relational

namespace SplitsSubgraph

open RangeTable EntityModification

/-! ### Tables of a deployment -/

/-- The number of the block that the deployment has come to; before the first one, -1. -/
def Deployment.headNumber (d : Deployment) : ℤ := d.head.getD (-1)

/-- No version begins or ends after the head, no two versions of an entity are valid at
once, versions of immutable entities do not end, and a version holds columns only. -/
structure Deployment.WF (layout : Layout) (d : Deployment) : Prop where
  tables : ∀ entityType, RangeTable.WF d.headNumber (d.tables entityType)
  immutable : ∀ entityType, layout.isImmutable entityType = true →
    ∀ r ∈ d.tables entityType, r.upper = none
  head_lt : d.headNumber < BLOCK_NUMBER_MAX
  rows : ∀ entityType, ∀ r ∈ d.tables entityType, r.data.row layout.schema entityType = r.data

theorem Deployment.WF.empty (layout : Layout) : Deployment.empty.WF layout where
  tables := fun _ => RangeTable.WF.nil _
  immutable := by simp [Deployment.empty]
  head_lt := by decide
  rows := by simp [Deployment.empty]

namespace Layout

variable {layout : Layout} {d : Deployment}

/-- Every way of asking for a block asks for the versions that are valid at it. -/
theorem contains_eq (h : d.WF layout) {entityType : String} {r : Version String Attributes}
    (hr : r ∈ d.tables entityType) (block : ℤ) :
    layout.contains entityType block r = r.covers block := by
  have hlower := (h.tables entityType).lower_le r hr
  have hhead := h.head_lt
  rw [contains]
  by_cases himm : layout.isImmutable entityType = true
  · rw [if_pos himm, Bool.eq_iff_iff, Version.covers_iff, h.immutable entityType himm r hr]
    simp only [Bool.or_eq_true, decide_eq_true_eq, reduceCtorEq, false_implies, implies_true,
      and_true]
    omega
  · rw [if_neg himm]
    by_cases hlike : (layout.isAccountLike entityType && decide (block < BLOCK_NUMBER_MAX)) = true
    · rw [if_pos hlike, Bool.eq_iff_iff, Bool.and_eq_true, Bool.and_eq_true, decide_eq_true_eq,
        decide_eq_true_eq]
      constructor
      · exact fun hc => hc.1.1
      · intro hc
        have hcov := Version.covers_iff.mp hc
        refine ⟨⟨hc, ?_⟩, hcov.1⟩
        rw [Bool.and_eq_true, decide_eq_true_eq] at hlike
        rcases hu : r.upper with - | u
        · exact hlike.2
        · exact hcov.2 u hu
    · rw [if_neg hlike]

/-- The entity as of a block is what the range table holds at it. -/
theorem find_eq (h : d.WF layout) (key : EntityKey) (block : ℤ) :
    layout.find d.tables key block
      = RangeTable.find (d.tables key.entityType) key.entityId block := by
  rw [Layout.find, RangeTable.find]
  congr 1
  apply find?_congr
  intro r hr
  rw [contains_eq h hr]

/-- What is found holds columns only. -/
theorem norm_find (h : d.WF layout) (key : EntityKey) (block : ℤ) :
    key.norm layout.schema (layout.find d.tables key block) = layout.find d.tables key block := by
  rcases e : layout.find d.tables key block with - | entity
  · rfl
  · rw [Layout.find, Option.map_eq_some_iff] at e
    obtain ⟨r, hr, rfl⟩ := e
    exact congrArg some (h.rows key.entityType r (List.mem_of_find?_eq_some hr))

/-- A revert opens again what was valid at the block it goes back to. -/
theorem revertTable_eq (h : d.WF layout) (entityType : String) (block : ℤ) :
    layout.revertTable (block + 1) entityType (d.tables entityType)
      = RangeTable.revert block BLOCK_NUMBER_MAX (d.tables entityType) := by
  have hfilter : (d.tables entityType).filter (fun r => !decide (block + 1 ≤ r.lower))
      = (d.tables entityType).filter fun r => decide (r.lower ≤ block) := by
    congr 1
    funext r
    rw [Bool.eq_iff_iff, Bool.not_eq_true', decide_eq_false_iff_not, decide_eq_true_eq]
    omega
  rw [revertTable, RangeTable.revert]
  rw [hfilter, add_sub_cancel_right]
  by_cases himm : layout.isImmutable entityType = true
  · rw [if_pos himm]
    -- nothing to open again: no version has an end
    conv_lhs => rw [← List.map_id (List.filter _ _)]
    apply List.map_congr_left
    intro r hr
    have hr := List.mem_of_mem_filter hr
    have hcur : r.covers BLOCK_NUMBER_MAX = true := by
      have hlower := (h.tables entityType).lower_le r hr
      have hhead := h.head_lt
      rw [Version.covers_iff, h.immutable entityType himm r hr]
      exact ⟨by omega, by simp⟩
    rw [id_eq, Version.unclamp, if_neg (by simp [hcur])]
  · rw [if_neg himm]
    apply List.map_congr_left
    intro r hr
    have hr := List.mem_of_mem_filter hr
    rw [revertClamp, Version.unclamp]
    congr 1
    rw [eq_iff_iff]
    constructor
    · exact fun hc => ⟨hc.1, hc.2.1⟩
    · rintro ⟨hcov, hcur⟩
      have hcov' := Version.covers_iff.mp hcov
      have hhead := h.head_lt
      refine ⟨hcov, hcur, hcov'.1, ?_⟩
      rcases hu : r.upper with - | u
      · exfalso
        apply hcur
        have hlower := (h.tables entityType).lower_le r hr
        rw [Version.covers_iff, hu]
        exact ⟨by omega, by simp⟩
      · have hle := (h.tables entityType).upper_le r hr u hu
        exact ⟨hcov'.2 u hu, by rw [Option.getD_some]; omega⟩

/-! ### The modifications of a block -/

/-- What the source expects of a modification: its entity has a table, the row can be
inserted and goes by the id of the key, and immutable entities are only inserted. -/
def Storable (layout : Layout) : EntityModification → Prop
  | .insert key data =>
    key.entityType ∈ layout.entityTypes
      ∧ layout.insertRow key.entityType (key, data)
        = .ok (key.entityId, data.row layout.schema key.entityType)
  | .overwrite key data =>
    key.entityType ∈ layout.entityTypes ∧ layout.isImmutable key.entityType = false
      ∧ layout.insertRow key.entityType (key, data)
        = .ok (key.entityId, data.row layout.schema key.entityType)
  | .remove key =>
    key.entityType ∈ layout.entityTypes ∧ layout.isImmutable key.entityType = false

/-- The entries of one entity type. -/
def ofType {α : Type} (entries : List (EntityKey × α)) (entityType : String) :
    List (EntityKey × α) :=
  entries.filter fun e => decide (e.1.entityType = entityType)

/-- The ids of the entries of one entity type. -/
def idsOf {α : Type} (entries : List (EntityKey × α)) (entityType : String) : List String :=
  (ofType entries entityType).map fun e => e.1.entityId

/-- The rows of the entities of one type. -/
def rowsOf (layout : Layout) (entities : List (EntityKey × Attributes)) (entityType : String) :
    List (String × Attributes) :=
  (ofType entities entityType).map fun e => (e.1.entityId, e.2.row layout.schema entityType)

/-- The rows that the modifications add to a table. -/
def newRows (layout : Layout) (mods : List EntityModification) (entityType : String) :
    List (String × Attributes) :=
  rowsOf layout (inserts mods) entityType ++ rowsOf layout (overwrites mods) entityType

/-- The ids of the rows that they close. -/
def closedIds (mods : List EntityModification) (entityType : String) : List String :=
  idsOf (overwrites mods) entityType ++ idsOf (removals mods) entityType

section groups

variable {α : Type} {entries : List (EntityKey × α)}

theorem mem_ofType {e : EntityKey × α} {entityType : String} :
    e ∈ ofType entries entityType ↔ e ∈ entries ∧ e.1.entityType = entityType := by
  rw [ofType, List.mem_filter, decide_eq_true_eq]

theorem ofType_eq_nil {entityType : String} (h : entityType ∉ entries.map fun e => e.1.entityType) :
    ofType entries entityType = [] := by
  rw [ofType, List.filter_eq_nil_iff]
  intro e he
  rw [decide_eq_true_eq]
  rintro rfl
  exact h (List.mem_map_of_mem he)

/-- A loop over the groups of modifications does to each table what its group does. -/
theorem applyGroups_eq (entries : List (EntityKey × α))
    (apply : Tables → String → List (EntityKey × α) → Except StoreError (Tables × ℕ))
    (tables after : Tables) (n : String → ℕ)
    (hnil : ∀ entityType, ofType entries entityType = [] → after entityType = tables entityType)
    (happly : ∀ (current : Tables) (entityType : String),
      ofType entries entityType ≠ [] → current entityType = tables entityType →
        apply current entityType (ofType entries entityType)
          = .ok (Function.update current entityType (after entityType), n entityType)) :
    applyGroups apply (groupByType entries) tables
      = .ok (after, ((entries.map fun e => e.1.entityType).dedup.map n).sum) := by
  set types := (entries.map fun e => e.1.entityType).dedup with htypes
  have hnonempty : ∀ entityType ∈ types, ofType entries entityType ≠ [] := by
    intro entityType hmem hnil
    rw [htypes, List.mem_dedup, List.mem_map] at hmem
    obtain ⟨e, he, rfl⟩ := hmem
    have hin : e ∈ ofType entries e.1.entityType := mem_ofType.mpr ⟨he, rfl⟩
    rw [hnil] at hin
    simp at hin
  -- the tables once the groups of `done` are through
  have hloop : ∀ (rest done : List String) (count : ℕ), (done ++ rest).Nodup →
      done ++ rest = types →
      (rest.map fun entityType => (entityType, ofType entries entityType)).foldlM
          (fun acc group => apply acc.1 group.1 group.2 >>= fun r => pure (r.1, acc.2 + r.2))
          ((fun entityType => if entityType ∈ done then after entityType else tables entityType
            : Tables), count)
        = .ok ((fun entityType => if entityType ∈ types then after entityType
            else tables entityType), count + (rest.map n).sum) := by
    intro rest
    induction rest with
    | nil =>
      intro done count _ hdone
      rw [List.append_nil] at hdone
      subst hdone
      rfl
    | cons t rest ih =>
      intro done count hnd hdone
      have hnot : t ∉ done := by
        intro hmem
        exact (List.nodup_append.mp hnd).2.2 t hmem t (by simp) rfl
      have hstep := happly
        (fun entityType => if entityType ∈ done then after entityType else tables entityType) t
        (hnonempty t (by rw [← hdone]; simp)) (if_neg hnot)
      have hnext := ih (done ++ [t]) (count + n t) (by simpa using hnd) (by simpa using hdone)
      rw [List.map_cons, List.foldlM_cons, hstep]
      rw [List.map_cons, List.sum_cons, ← add_assoc, ← hnext]
      show List.foldlM _ _ _ = _
      congr 2
      funext entityType
      dsimp only
      by_cases ht : entityType = t
      · subst ht
        rw [Function.update_self, if_pos (by simp)]
      · rw [Function.update_of_ne ht]
        simp [ht]
  have hrun := hloop types [] 0 (by simpa using List.nodup_dedup _) rfl
  simp only [List.not_mem_nil, if_false, zero_add] at hrun
  rw [applyGroups, groupByType]
  refine hrun.trans ?_
  congr 2
  funext entityType
  by_cases hmem : entityType ∈ types
  · rw [if_pos hmem]
  · rw [if_neg hmem, hnil entityType
      (ofType_eq_nil (by rwa [htypes, List.mem_dedup] at hmem))]

end groups

section rows

variable {mods : List EntityModification} {entityType id : String}

theorem mem_inserts {e : EntityKey × Attributes} : e ∈ inserts mods ↔ .insert e.1 e.2 ∈ mods := by
  rw [inserts, List.mem_filterMap]
  constructor
  · rintro ⟨m, hm, he⟩
    rcases m with ⟨key, data⟩ | ⟨key, data⟩ | key
    · cases he
      exact hm
    · cases he
    · cases he
  · exact fun hm => ⟨_, hm, rfl⟩

theorem mem_overwrites {e : EntityKey × Attributes} :
    e ∈ overwrites mods ↔ .overwrite e.1 e.2 ∈ mods := by
  rw [overwrites, List.mem_filterMap]
  constructor
  · rintro ⟨m, hm, he⟩
    rcases m with ⟨key, data⟩ | ⟨key, data⟩ | key
    · cases he
    · cases he
      exact hm
    · cases he
  · exact fun hm => ⟨_, hm, rfl⟩

theorem mem_removals {e : EntityKey × Unit} : e ∈ removals mods ↔ .remove e.1 ∈ mods := by
  rw [removals, List.mem_filterMap]
  constructor
  · rintro ⟨m, hm, he⟩
    rcases m with ⟨key, data⟩ | ⟨key, data⟩ | key
    · cases he
    · cases he
    · cases he
      exact hm
  · exact fun hm => ⟨_, hm, rfl⟩

/-- The modifications of one kind, as entries, in the order of the modifications. -/
theorem inserts_sublist (mods : List EntityModification) :
    ((inserts mods).map Prod.fst).Sublist (mods.map entityRef) := by
  induction mods with
  | nil => exact List.Sublist.slnil
  | cons m mods ih =>
    rcases m with ⟨key, data⟩ | ⟨key, data⟩ | key
    · exact ih.cons_cons key
    · exact ih.cons key
    · exact ih.cons key

theorem overwrites_sublist (mods : List EntityModification) :
    ((overwrites mods).map Prod.fst).Sublist (mods.map entityRef) := by
  induction mods with
  | nil => exact List.Sublist.slnil
  | cons m mods ih =>
    rcases m with ⟨key, data⟩ | ⟨key, data⟩ | key
    · exact ih.cons key
    · exact ih.cons_cons key
    · exact ih.cons key

theorem removals_sublist (mods : List EntityModification) :
    ((removals mods).map Prod.fst).Sublist (mods.map entityRef) := by
  induction mods with
  | nil => exact List.Sublist.slnil
  | cons m mods ih =>
    rcases m with ⟨key, data⟩ | ⟨key, data⟩ | key
    · exact ih.cons key
    · exact ih.cons key
    · exact ih.cons_cons key

theorem mem_newRows {row : Attributes} :
    (id, row) ∈ newRows layout mods entityType ↔
      ∃ m ∈ mods, m.entityRef = ⟨entityType, id⟩
        ∧ ∃ data, m.entity = some data ∧ row = data.row layout.schema entityType := by
  rw [newRows, rowsOf, rowsOf, ← List.map_append, List.mem_map]
  constructor
  · rintro ⟨⟨key, data⟩, he, hrow⟩
    rw [List.mem_append, mem_ofType, mem_ofType, mem_inserts, mem_overwrites] at he
    obtain ⟨rfl, rfl⟩ := Prod.mk.inj hrow
    rcases he with ⟨hm, rfl⟩ | ⟨hm, rfl⟩
    all_goals exact ⟨_, hm, rfl, data, rfl, rfl⟩
  · rintro ⟨m, hm, href, data, hdata, rfl⟩
    refine ⟨(m.entityRef, data), ?_, by rw [href]⟩
    rw [List.mem_append, mem_ofType, mem_ofType, mem_inserts, mem_overwrites]
    rcases m with ⟨key, data'⟩ | ⟨key, data'⟩ | key
    · cases hdata
      exact Or.inl ⟨hm, congrArg EntityKey.entityType href⟩
    · cases hdata
      exact Or.inr ⟨hm, congrArg EntityKey.entityType href⟩
    · cases hdata

theorem mem_closedIds :
    id ∈ closedIds mods entityType ↔
      ∃ m ∈ mods, m.entityRef = ⟨entityType, id⟩ ∧ ∀ key data, m ≠ .insert key data := by
  rw [closedIds, List.mem_append, idsOf, idsOf, List.mem_map, List.mem_map]
  constructor
  · rintro (⟨e, he, rfl⟩ | ⟨e, he, rfl⟩)
    · rw [mem_ofType, mem_overwrites] at he
      obtain ⟨hm, rfl⟩ := he
      exact ⟨_, hm, rfl, nofun⟩
    · rw [mem_ofType, mem_removals] at he
      obtain ⟨hm, rfl⟩ := he
      exact ⟨_, hm, rfl, nofun⟩
  · rintro ⟨m, hm, href, hclose⟩
    rcases m with ⟨key, data⟩ | ⟨key, data⟩ | key
    · exact absurd rfl (hclose key data)
    · obtain rfl : key = ⟨entityType, id⟩ := href
      exact Or.inl ⟨(⟨entityType, id⟩, data), mem_ofType.mpr ⟨mem_overwrites.mpr hm, rfl⟩, rfl⟩
    · obtain rfl : key = ⟨entityType, id⟩ := href
      exact Or.inr ⟨(⟨entityType, id⟩, ()), mem_ofType.mpr ⟨mem_removals.mpr hm, rfl⟩, rfl⟩

theorem of_mem_idsOf_inserts (h : id ∈ idsOf (inserts mods) entityType) :
    ∃ data, .insert ⟨entityType, id⟩ data ∈ mods := by
  obtain ⟨⟨key, data⟩, he, rfl⟩ := List.mem_map.mp h
  rw [mem_ofType, mem_inserts] at he
  obtain ⟨hm, rfl⟩ := he
  exact ⟨data, hm⟩

theorem of_mem_idsOf_overwrites (h : id ∈ idsOf (overwrites mods) entityType) :
    ∃ data, .overwrite ⟨entityType, id⟩ data ∈ mods := by
  obtain ⟨⟨key, data⟩, he, rfl⟩ := List.mem_map.mp h
  rw [mem_ofType, mem_overwrites] at he
  obtain ⟨hm, rfl⟩ := he
  exact ⟨data, hm⟩

theorem of_mem_idsOf_removals (h : id ∈ idsOf (removals mods) entityType) :
    .remove ⟨entityType, id⟩ ∈ mods := by
  obtain ⟨⟨key, data⟩, he, rfl⟩ := List.mem_map.mp h
  rw [mem_ofType, mem_removals] at he
  obtain ⟨hm, rfl⟩ := he
  exact hm

/-- Two modifications of one entity are the same. -/
theorem eq_of_entityRef_eq (hnd : (mods.map entityRef).Nodup) {m m' : EntityModification}
    (hm : m ∈ mods) (hm' : m' ∈ mods) (h : m.entityRef = m'.entityRef) : m = m' :=
  List.inj_on_of_nodup_map hnd hm hm' h

theorem nodup_ids {α : Type} {entries : List (EntityKey × α)}
    (h : (entries.map Prod.fst).Nodup) (entityType : String) :
    (idsOf entries entityType).Nodup := by
  rw [idsOf]
  rw [List.Nodup, List.pairwise_map] at h ⊢
  apply (h.filter _).imp_of_mem
  intro e e' he he' hne hid
  apply hne
  rw [← ofType, mem_ofType] at he he'
  rcases e with ⟨⟨t, i⟩, a⟩
  rcases e' with ⟨⟨t', i'⟩, a'⟩
  obtain rfl : t = entityType := he.2
  obtain rfl : t' = t := he'.2
  exact congrArg (EntityKey.mk t') hid

theorem newRows_nodup (hnd : (mods.map entityRef).Nodup) :
    ((newRows layout mods entityType).map Prod.fst).Nodup := by
  have hmap : (newRows layout mods entityType).map Prod.fst
      = idsOf (inserts mods) entityType ++ idsOf (overwrites mods) entityType := by
    simp [newRows, rowsOf, idsOf, Function.comp_def]
  rw [hmap, List.nodup_append]
  refine ⟨nodup_ids (hnd.sublist (inserts_sublist mods)) entityType,
    nodup_ids (hnd.sublist (overwrites_sublist mods)) entityType, ?_⟩
  intro i hi j hj hij
  obtain ⟨⟨key, data⟩, he, rfl⟩ := List.mem_map.mp hi
  obtain ⟨⟨key', data'⟩, he', rfl⟩ := List.mem_map.mp hj
  rw [mem_ofType, mem_inserts] at he
  rw [mem_ofType, mem_overwrites] at he'
  have hkey : key = key' := by
    rcases key with ⟨t, i⟩
    rcases key' with ⟨t', i'⟩
    obtain rfl : t = entityType := he.2
    obtain rfl : t' = t := he'.2
    exact congrArg (EntityKey.mk t') hij
  have hsame := eq_of_entityRef_eq hnd he.1 he'.1 hkey
  cases hsame

end rows

/-! ### Three statements for a table -/

section statements

variable {mods : List EntityModification} {block : ℤ} {entityType : String}

theorem mapM_eq_ok {α β : Type} {f : α → Except StoreError β} {g : α → β} {l : List α}
    (h : ∀ a ∈ l, f a = .ok (g a)) : l.mapM f = .ok (l.map g) := by
  induction l with
  | nil => rfl
  | cons a l ih =>
    rw [List.mapM_cons, h a (by simp), ih fun a' ha' => h a' (by simp [ha'])]
    rfl

theorem insertQuery_eq {tables : Tables} {entities : List (EntityKey × Attributes)}
    (hrows : ∀ e ∈ ofType entities entityType, layout.insertRow entityType e
      = .ok (e.1.entityId, e.2.row layout.schema entityType))
    (hunique : layout.isImmutable entityType = true →
      ((tables entityType).map Version.id ++ idsOf entities entityType).Nodup) :
    layout.insertQuery tables entityType (ofType entities entityType) block
      = .ok (Function.update tables entityType (tables entityType
            ++ (rowsOf layout entities entityType).map (Version.fresh block)),
          (ofType entities entityType).length) := by
  rw [insertQuery, mapM_eq_ok hrows]
  show (if _ then _ else _) = _
  rw [if_neg]
  · rw [List.length_map]
    rfl
  · rintro ⟨himm, hdup⟩
    apply hdup
    simpa [idsOf, Function.comp_def] using hunique himm

/-- What the modifications must be for the store to take them. -/
structure Accepts (layout : Layout) (d : Deployment) (block : ℤ)
    (mods : List EntityModification) : Prop where
  forward : d.headNumber < block
  lt_max : block < BLOCK_NUMBER_MAX
  nodup : (mods.map entityRef).Nodup
  applicable : ∀ m ∈ mods, m.Applicable fun key => layout.find d.tables key BLOCK_NUMBER_MAX
  storable : ∀ m ∈ mods, Storable layout m

/-- An insertion is of an entity that is not there. -/
theorem Accepts.find_insert (h : Accepts layout d block mods) (hwf : d.WF layout)
    {e : EntityKey × Attributes} (he : e ∈ ofType (inserts mods) entityType) :
    RangeTable.find (d.tables entityType) e.1.entityId BLOCK_NUMBER_MAX = none := by
  rw [mem_ofType, mem_inserts] at he
  have happ : layout.find d.tables e.1 BLOCK_NUMBER_MAX = none := h.applicable _ he.1
  rwa [find_eq hwf, he.2] at happ

/-- The ids of an immutable table stay distinct. -/
theorem Accepts.unique (h : Accepts layout d block mods) (hwf : d.WF layout)
    (himm : layout.isImmutable entityType = true) :
    ((d.tables entityType).map Version.id ++ idsOf (inserts mods) entityType).Nodup := by
  have hcur : ∀ r ∈ d.tables entityType, r.covers BLOCK_NUMBER_MAX = true := by
    intro r hr
    have hlower := (hwf.tables entityType).lower_le r hr
    have hhead := hwf.head_lt
    rw [Version.covers_iff, hwf.immutable entityType himm r hr]
    exact ⟨by omega, by simp⟩
  rw [List.nodup_append]
  refine ⟨?_, nodup_ids (h.nodup.sublist (inserts_sublist mods)) entityType, ?_⟩
  · rw [List.Nodup, List.pairwise_map]
    apply (hwf.tables entityType).disjoint.imp_of_mem
    intro r r' hr hr' hdisj hid
    exact hdisj hid _ ⟨hcur r hr, hcur r' hr'⟩
  · intro i hi j hj hij
    obtain ⟨r, hr, rfl⟩ := List.mem_map.mp hi
    obtain ⟨e, he, rfl⟩ := List.mem_map.mp hj
    have hnone := find_eq_none_iff.mp (h.find_insert hwf he) r hr hij
    rw [hcur r hr] at hnone
    simp at hnone

theorem Accepts.insert_eq (h : Accepts layout d block mods) (hwf : d.WF layout)
    {current : Tables} (hne : ofType (inserts mods) entityType ≠ [])
    (hcur : current entityType = d.tables entityType) :
    layout.insert current entityType (ofType (inserts mods) entityType) block
      = .ok (Function.update current entityType (d.tables entityType
            ++ (rowsOf layout (inserts mods) entityType).map (Version.fresh block)),
          (ofType (inserts mods) entityType).length) := by
  have hstored : ∀ e ∈ ofType (inserts mods) entityType, entityType ∈ layout.entityTypes
      ∧ layout.insertRow entityType e = .ok (e.1.entityId, e.2.row layout.schema entityType) := by
    intro e he
    rw [mem_ofType, mem_inserts] at he
    have hst := h.storable _ he.1
    rw [Storable, he.2] at hst
    exact hst
  obtain ⟨e, he⟩ := List.exists_mem_of_ne_nil _ hne
  rw [Layout.insert, tableForEntity, if_pos (hstored e he).1]
  show layout.insertQuery _ _ _ _ = _
  rw [insertQuery_eq fun e he => (hstored e he).2, hcur]
  rw [hcur]
  exact fun himm => h.unique hwf himm

theorem Accepts.update_eq (h : Accepts layout d block mods) {current : Tables}
    (hne : ofType (overwrites mods) entityType ≠ []) :
    layout.update current entityType (ofType (overwrites mods) entityType) block
      = .ok (Function.update current entityType ((current entityType).map
            (Version.clamp (idsOf (overwrites mods) entityType) BLOCK_NUMBER_MAX block)
            ++ (rowsOf layout (overwrites mods) entityType).map (Version.fresh block)),
          (ofType (overwrites mods) entityType).length) := by
  have hstored : ∀ e ∈ ofType (overwrites mods) entityType, entityType ∈ layout.entityTypes
      ∧ layout.isImmutable entityType = false
      ∧ layout.insertRow entityType e = .ok (e.1.entityId, e.2.row layout.schema entityType) := by
    intro e he
    rw [mem_ofType, mem_overwrites] at he
    have hst := h.storable _ he.1
    rw [Storable, he.2] at hst
    exact hst
  obtain ⟨e, he⟩ := List.exists_mem_of_ne_nil _ hne
  have hmut := (hstored e he).2.1
  rw [Layout.update, tableForEntity, if_pos (hstored e he).1, hmut]
  show (layout.clampRangeQuery _ _ _ _ >>= _) = _
  rw [clampRangeQuery, if_neg (by simp [hmut])]
  show layout.insertQuery _ _ _ _ = _
  rw [insertQuery_eq (fun e he => (hstored e he).2.2) (by simp [hmut]), Function.update_self,
    Function.update_idem]
  rfl

theorem Accepts.delete_eq (h : Accepts layout d block mods) {current : Tables}
    (hne : ofType (removals mods) entityType ≠ []) :
    layout.delete current entityType
        ((ofType (removals mods) entityType).map fun e => e.1.entityId) block
      = .ok (Function.update current entityType ((current entityType).map
            (Version.clamp (idsOf (removals mods) entityType) BLOCK_NUMBER_MAX block)),
          ((current entityType).filter fun r => decide (r.id ∈ idsOf (removals mods) entityType)
            && r.covers BLOCK_NUMBER_MAX).length) := by
  obtain ⟨e, he⟩ := List.exists_mem_of_ne_nil _ hne
  rw [mem_ofType, mem_removals] at he
  have hst := h.storable _ he.1
  rw [Storable, he.2] at hst
  rw [Layout.delete, tableForEntity, if_pos hst.1, hst.2]
  show layout.clampRangeQuery _ _ _ _ = _
  rw [clampRangeQuery, if_neg (by simp [hst.2])]
  rfl

theorem sum_length_ofType {α : Type} (entries : List (EntityKey × α)) :
    (((entries.map fun e => e.1.entityType).dedup).map fun t => (ofType entries t).length).sum
      = entries.length := by
  have hcount : ∀ t, (ofType entries t).length = (entries.map fun e => e.1.entityType).count t := by
    intro t
    rw [ofType, List.count, List.countP_map, ← List.countP_eq_length_filter]
    congr 1
  simp only [hcount]
  rw [List.sum_map_count_dedup_eq_length, List.length_map]

/-- The ids of insertions, overwrites and removals are different. -/
theorem Accepts.disjoint (h : Accepts layout d block mods) (entityType : String) :
    (∀ id ∈ idsOf (inserts mods) entityType, id ∉ idsOf (overwrites mods) entityType)
    ∧ (∀ id ∈ idsOf (inserts mods) entityType, id ∉ idsOf (removals mods) entityType)
    ∧ ∀ id ∈ idsOf (overwrites mods) entityType, id ∉ idsOf (removals mods) entityType := by
  refine ⟨?_, ?_, ?_⟩
  · intro id hid hid'
    obtain ⟨data, hm⟩ := of_mem_idsOf_inserts hid
    obtain ⟨data', hm'⟩ := of_mem_idsOf_overwrites hid'
    cases eq_of_entityRef_eq h.nodup hm hm' rfl
  · intro id hid hid'
    obtain ⟨data, hm⟩ := of_mem_idsOf_inserts hid
    cases eq_of_entityRef_eq h.nodup hm (of_mem_idsOf_removals hid') rfl
  · intro id hid hid'
    obtain ⟨data, hm⟩ := of_mem_idsOf_overwrites hid
    cases eq_of_entityRef_eq h.nodup hm (of_mem_idsOf_removals hid') rfl

theorem rowsOf_fst {entities : List (EntityKey × Attributes)} {e : String × Attributes}
    (h : e ∈ rowsOf layout entities entityType) : e.1 ∈ idsOf entities entityType := by
  obtain ⟨e₀, he₀, rfl⟩ := List.mem_map.mp h
  exact List.mem_map.mpr ⟨e₀, he₀, rfl⟩

/-- Rows before the removals. -/
def beforeRemovals (layout : Layout) (d : Deployment) (block : ℤ)
    (mods : List EntityModification) : Tables := fun entityType =>
  (d.tables entityType ++ (rowsOf layout (inserts mods) entityType).map (Version.fresh block)).map
      (Version.clamp (idsOf (overwrites mods) entityType) BLOCK_NUMBER_MAX block)
    ++ (rowsOf layout (overwrites mods) entityType).map (Version.fresh block)

/-- The three statements on a table are one write. -/
theorem Accepts.write_eq (h : Accepts layout d block mods) (entityType : String) :
    RangeTable.write (closedIds mods entityType) BLOCK_NUMBER_MAX block
        (newRows layout mods entityType) (d.tables entityType)
      = (beforeRemovals layout d block mods entityType).map
          (Version.clamp (idsOf (removals mods) entityType) BLOCK_NUMBER_MAX block) := by
  obtain ⟨hio, hir, hor⟩ := h.disjoint entityType
  have hold : (d.tables entityType).map
        (Version.clamp (closedIds mods entityType) BLOCK_NUMBER_MAX block)
      = ((d.tables entityType).map
          (Version.clamp (idsOf (overwrites mods) entityType) BLOCK_NUMBER_MAX block)).map
          (Version.clamp (idsOf (removals mods) entityType) BLOCK_NUMBER_MAX block) := by
    rw [List.map_map]
    apply List.map_congr_left
    intro r _
    exact (Version.clamp_clamp h.lt_max _ _ r).symm
  have hins : (rowsOf layout (inserts mods) entityType).map (Version.fresh block)
      = (((rowsOf layout (inserts mods) entityType).map (Version.fresh block)).map
          (Version.clamp (idsOf (overwrites mods) entityType) BLOCK_NUMBER_MAX block)).map
          (Version.clamp (idsOf (removals mods) entityType) BLOCK_NUMBER_MAX block) := by
    rw [List.map_map, List.map_map]
    apply List.map_congr_left
    intro e he
    have hid := rowsOf_fst he
    rw [Function.comp_apply, Function.comp_apply, Version.clamp_of_notMem (hio _ hid),
      Version.clamp_of_notMem (hir _ hid)]
  have hover : (rowsOf layout (overwrites mods) entityType).map (Version.fresh block)
      = ((rowsOf layout (overwrites mods) entityType).map (Version.fresh block)).map
          (Version.clamp (idsOf (removals mods) entityType) BLOCK_NUMBER_MAX block) := by
    rw [List.map_map]
    apply List.map_congr_left
    intro e he
    rw [Function.comp_apply, Version.clamp_of_notMem (hor _ (rowsOf_fst he))]
  rw [RangeTable.write, newRows, List.map_append, beforeRemovals, List.map_append, List.map_append,
    List.map_append, ← hover, ← hins, ← hold, List.append_assoc]

/-- A removal closes one version. -/
theorem Accepts.length_removed (h : Accepts layout d block mods) (hwf : d.WF layout)
    (entityType : String) :
    ((beforeRemovals layout d block mods entityType).filter fun r =>
        decide (r.id ∈ idsOf (removals mods) entityType) && r.covers BLOCK_NUMBER_MAX).length
      = (ofType (removals mods) entityType).length := by
  obtain ⟨hio, hir, hor⟩ := h.disjoint entityType
  set p : Version String Attributes → Bool := fun r =>
    decide (r.id ∈ idsOf (removals mods) entityType) && r.covers BLOCK_NUMBER_MAX with hp
  have hclamp : p ∘ Version.clamp (idsOf (overwrites mods) entityType) BLOCK_NUMBER_MAX block
      = p := by
    funext r
    by_cases hid : r.id ∈ idsOf (overwrites mods) entityType
    · simp [hp, hor _ hid]
    · rw [Function.comp_apply, Version.clamp_of_notMem hid]
  have hnew : ∀ entities : List (EntityKey × Attributes),
      (∀ id ∈ idsOf entities entityType, id ∉ idsOf (removals mods) entityType) →
        ((rowsOf layout entities entityType).map (Version.fresh block)).filter p = [] := by
    intro entities hids
    rw [List.filter_eq_nil_iff]
    intro r hr
    obtain ⟨e, he, rfl⟩ := List.mem_map.mp hr
    have hnot := hids _ (rowsOf_fst he)
    simp [hp, Version.fresh, hnot]
  have hlen : (idsOf (removals mods) entityType).length
      = (ofType (removals mods) entityType).length :=
    List.length_map _
  rw [beforeRemovals, List.filter_append, hnew _ hor, List.append_nil, List.filter_map, hclamp,
    List.filter_append, hnew _ hir, List.append_nil, List.length_map, ← hlen]
  apply (hwf.tables entityType).length_filter
    (nodup_ids (h.nodup.sublist (removals_sublist mods)) entityType)
  intro id hid
  have happ := h.applicable _ (of_mem_idsOf_removals hid)
  rw [Applicable, find_eq hwf] at happ
  exact happ

/-- The tables after the modifications of a block, and the change of the count: each table
is written once. -/
theorem Accepts.applyEntityModifications_eq (h : Accepts layout d block mods)
    (hwf : d.WF layout) :
    layout.applyEntityModifications d.tables mods block
      = .ok (fun entityType => RangeTable.write (closedIds mods entityType) BLOCK_NUMBER_MAX block
            (newRows layout mods entityType) (d.tables entityType),
          (inserts mods).length - (removals mods).length) := by
  set afterInserts : Tables := fun t =>
    d.tables t ++ (rowsOf layout (inserts mods) t).map (Version.fresh block) with hafter
  have hins := applyGroups_eq (inserts mods)
    (fun tables t es => layout.insert tables t es block) d.tables afterInserts
    (fun t => (ofType (inserts mods) t).length) (fun t hnil => by simp [hafter, rowsOf, hnil])
    fun current t hne hcur => h.insert_eq hwf hne hcur
  have hover := applyGroups_eq (overwrites mods)
    (fun tables t es => layout.update tables t es block) afterInserts
    (beforeRemovals layout d block mods) (fun t => (ofType (overwrites mods) t).length)
    (fun t hnil => by
      have hids : idsOf (overwrites mods) t = [] := by rw [idsOf, hnil, List.map_nil]
      have hrows : rowsOf layout (overwrites mods) t = [] := by rw [rowsOf, hnil, List.map_nil]
      rw [beforeRemovals, hids, hrows, Version.map_clamp_nil, List.map_nil, List.append_nil])
    fun current t hne hcur => by
      show _ = Except.ok (Function.update current t (_ ++ _), _)
      rw [show d.tables t ++ (rowsOf layout (inserts mods) t).map (Version.fresh block)
        = current t from hcur.symm]
      exact h.update_eq hne
  have hdel := applyGroups_eq (removals mods)
    (fun tables t keys => layout.delete tables t (keys.map fun e => e.1.entityId) block)
    (beforeRemovals layout d block mods) (fun t => RangeTable.write (closedIds mods t) BLOCK_NUMBER_MAX block
      (newRows layout mods t) (d.tables t))
    (fun t => (ofType (removals mods) t).length)
    (fun t hnil => by rw [h.write_eq, idsOf, hnil, List.map_nil, Version.map_clamp_nil])
    fun current t hne hcur => by
      rw [h.write_eq, ← h.length_removed hwf, ← hcur]
      exact h.delete_eq hne
  rw [applyEntityModifications, hins]
  show (applyGroups _ _ _ >>= _) = _
  rw [hover]
  show (applyGroups _ _ _ >>= _) = _
  rw [hdel, sum_length_ofType, sum_length_ofType]
  rfl

end statements

end Layout

/-! ### Transactions -/

namespace Deployment

open Layout

variable {layout : Layout} {d : Deployment} {block : ℤ} {mods : List EntityModification}

/-- The deployment after the modifications of a block. -/
def written (layout : Layout) (d : Deployment) (block : ℤ) (mods : List EntityModification) :
    Deployment where
  head := some block
  tables := fun entityType => RangeTable.write (closedIds mods entityType) BLOCK_NUMBER_MAX block
    (newRows layout mods entityType) (d.tables entityType)
  entityCount := layout.entityCountSql
    (fun entityType => RangeTable.write (closedIds mods entityType) BLOCK_NUMBER_MAX block
      (newRows layout mods entityType) (d.tables entityType))
    d.entityCount ((inserts mods).length - (removals mods).length)

theorem transact_eq (h : Accepts layout d block mods) (hwf : d.WF layout) :
    d.transactBlockOperations layout block mods = .ok (d.written layout block mods) := by
  have hforward := h.forward
  rw [transactBlockOperations, h.applyEntityModifications_eq hwf]
  unfold headNumber at hforward
  rcases e : d.head with - | head
  · rfl
  · rw [e, Option.getD_some] at hforward
    show (if _ then _ else _) = _
    rw [if_pos hforward]
    rfl

/-- What is written was closed, or was not there. -/
theorem absent_of_accepts (h : Accepts layout d block mods) (hwf : d.WF layout)
    {entityType : String} (e : String × Attributes) (he : e ∈ newRows layout mods entityType) :
    e.1 ∈ closedIds mods entityType
      ∨ RangeTable.find (d.tables entityType) e.1 BLOCK_NUMBER_MAX = none := by
  obtain ⟨m, hm, href, -⟩ := mem_newRows.mp he
  by_cases hinsert : ∃ key data, m = .insert key data
  · obtain ⟨key, data, rfl⟩ := hinsert
    have happ : layout.find d.tables key BLOCK_NUMBER_MAX = none := h.applicable _ hm
    obtain rfl : key = ⟨entityType, e.1⟩ := href
    rw [find_eq hwf] at happ
    exact Or.inr happ
  · exact Or.inl (mem_closedIds.mpr ⟨m, hm, href, fun key data he => hinsert ⟨key, data, he⟩⟩)

theorem WF.written (hwf : d.WF layout) (h : Accepts layout d block mods) :
    (d.written layout block mods).WF layout where
  tables := fun entityType =>
    (hwf.tables entityType).write h.forward h.lt_max (newRows_nodup h.nodup)
      (absent_of_accepts h hwf)
  immutable := by
    intro entityType himm r hr
    have hopen : ∀ id, id ∉ closedIds mods entityType := by
      intro id hid
      obtain ⟨m, hm, href, hclose⟩ := mem_closedIds.mp hid
      have hst := h.storable m hm
      rcases m with ⟨key, data⟩ | ⟨key, data⟩ | key
      · exact hclose key data rfl
      all_goals
        obtain rfl : key = ⟨entityType, id⟩ := href
        simp [Storable, himm] at hst
    rcases List.mem_append.mp hr with hold | hnew
    · obtain ⟨r₀, hr₀, rfl⟩ := List.mem_map.mp hold
      rw [Version.clamp_of_notMem (hopen r₀.id)]
      exact hwf.immutable entityType himm r₀ hr₀
    · obtain ⟨e, -, rfl⟩ := List.mem_map.mp hnew
      rfl
  head_lt := h.lt_max
  rows := by
    intro entityType r hr
    rcases List.mem_append.mp hr with hold | hnew
    · obtain ⟨r₀, hr₀, rfl⟩ := List.mem_map.mp hold
      rw [Version.clamp_data]
      exact hwf.rows entityType r₀ hr₀
    · obtain ⟨e, he, rfl⟩ := List.mem_map.mp hnew
      obtain ⟨m, -, -, data, -, hrow⟩ := mem_newRows.mp he
      show e.2.row _ _ = e.2
      rw [hrow, Attributes.row_row]

/-- The entities as of every block after a transaction. -/
theorem get_written (hwf : d.WF layout) (h : Accepts layout d block mods) (key : EntityKey)
    (x : ℤ) :
    (d.written layout block mods).get layout key x
      = if x < block then d.get layout key x
        else applyAll layout.schema (fun key => d.get layout key BLOCK_NUMBER_MAX) mods key := by
  have hforward := h.forward
  have hmax := hwf.head_lt
  rw [get, find_eq (hwf.written h), get, find_eq hwf]
  show RangeTable.find (RangeTable.write _ _ _ _ _) _ _ = _
  rw [(hwf.tables key.entityType).find_write h.forward h.lt_max (absent_of_accepts h hwf)]
  by_cases hx : x < block
  · rw [if_pos hx, if_pos hx]
  · rw [if_neg hx, if_neg hx]
    by_cases hkey : key ∈ mods.map entityRef
    · obtain ⟨m, hm, rfl⟩ := List.mem_map.mp hkey
      rw [applyAll_of_mem h.nodup hm]
      rcases hfind : (newRows layout mods m.entityRef.entityType).find?
          (fun e => decide (e.1 = m.entityRef.entityId)) with - | e
      · simp only [hfind]
        -- an entity of which no row is written is removed
        have hnone : m.entity = none := by
          by_contra hsome
          obtain ⟨data, hdata⟩ := Option.ne_none_iff_exists'.mp hsome
          have hrow : (m.entityRef.entityId, data.row layout.schema m.entityRef.entityType)
              ∈ newRows layout mods m.entityRef.entityType :=
            mem_newRows.mpr ⟨m, hm, rfl, data, hdata, rfl⟩
          have := List.find?_eq_none.mp hfind _ hrow
          simp at this
        have hclosed : m.entityRef.entityId ∈ closedIds mods m.entityRef.entityType := by
          refine mem_closedIds.mpr ⟨m, hm, rfl, ?_⟩
          rintro key data rfl
          simp [EntityModification.entity] at hnone
        rw [if_pos hclosed, hnone]
        rfl
      · simp only [hfind]
        have hid : e.1 = m.entityRef.entityId := by simpa using List.find?_some hfind
        obtain ⟨m', hm', href', data, hdata, hrow⟩ :=
          mem_newRows.mp (List.mem_of_find?_eq_some hfind)
        have hsame : m' = m := by
          apply eq_of_entityRef_eq h.nodup hm' hm
          rw [href', hid]
        subst hsame
        rw [hrow, hdata]
        rfl
    · rw [applyAll_of_notMem hkey]
      have hnew : (newRows layout mods key.entityType).find?
          (fun e => decide (e.1 = key.entityId)) = none := by
        rw [List.find?_eq_none]
        intro e he hid
        rw [decide_eq_true_eq] at hid
        obtain ⟨m, hm, href, -⟩ := mem_newRows.mp he
        apply hkey
        rw [List.mem_map]
        exact ⟨m, hm, by rw [href, hid]⟩
      have hclosed : key.entityId ∉ closedIds mods key.entityType := by
        intro hid
        obtain ⟨m, hm, href, -⟩ := mem_closedIds.mp hid
        exact hkey (List.mem_map.mpr ⟨m, hm, href⟩)
      simp only [hnew, if_neg hclosed]
      rw [get, find_eq hwf]
      exact (hwf.tables key.entityType).find_of_head_le (by omega) (by omega)

/-! ### Reverts -/

/-- The deployment after a revert. -/
def reverted (layout : Layout) (d : Deployment) (block : ℤ) : Deployment where
  head := some block
  tables := fun entityType => RangeTable.revert block BLOCK_NUMBER_MAX (d.tables entityType)
  entityCount := layout.entityCountSql
    (fun entityType => RangeTable.revert block BLOCK_NUMBER_MAX (d.tables entityType))
    d.entityCount (layout.revertBlock d.tables (block + 1)).2

theorem revert_eq (hwf : d.WF layout) {head : ℤ} (hhead : d.head = some head)
    (hblock : block < head) :
    d.revertBlockOperations layout block = .ok (d.reverted layout block) := by
  rw [revertBlockOperations, hhead]
  show (if _ then _ else _) = _
  rw [if_neg (by omega), reverted]
  have htables : (layout.revertBlock d.tables (block + 1)).1
      = fun entityType => RangeTable.revert block BLOCK_NUMBER_MAX (d.tables entityType) := by
    funext entityType
    exact revertTable_eq hwf entityType block
  rw [← htables]

theorem WF.reverted (hwf : d.WF layout) (hblock : block < d.headNumber) :
    (d.reverted layout block).WF layout where
  tables := fun entityType => (hwf.tables entityType).revert hwf.head_lt
  immutable := by
    intro entityType himm r hr
    obtain ⟨r₀, hr₀, rfl⟩ := List.mem_map.mp hr
    have hopen := hwf.immutable entityType himm r₀ (List.mem_of_mem_filter hr₀)
    rw [Version.unclamp]
    split
    · rfl
    · exact hopen
  head_lt := hblock.trans hwf.head_lt
  rows := by
    intro entityType r hr
    obtain ⟨r₀, hr₀, rfl⟩ := List.mem_map.mp hr
    rw [Version.unclamp_data]
    exact hwf.rows entityType r₀ (List.mem_of_mem_filter hr₀)

/-- The entities as of every block after a revert. -/
theorem get_reverted (hwf : d.WF layout) (hblock : block < d.headNumber) (key : EntityKey)
    (x : ℤ) :
    (d.reverted layout block).get layout key x = d.get layout key (min x block) := by
  rw [get, find_eq (hwf.reverted hblock), get, find_eq hwf]
  exact (hwf.tables key.entityType).find_revert hwf.head_lt key.entityId x

end Deployment

end SplitsSubgraph
