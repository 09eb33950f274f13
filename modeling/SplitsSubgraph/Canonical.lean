/-
SplitsSubgraph/Canonical.lean

What a deployment has of blocks that were reverted: nothing.

Of the requests that were made, the blocks that count are the ones that no later request
has reverted (`canonical`).  `execute_get` says that the entities as of any block are
those that the modifications of these blocks make, one block after the other; a past that
was reverted and written anew is gone from every query.

The number of entities is another matter.  A revert tells from the ids that it removed and
those it made current again how the count changes, and an entity that got a new version in
the reverted blocks, be it created or updated there, and is not there at the head counts as
gone once too often (`revertBlock_count`).  As long as a revert goes back over one block that
was written, which is how the block stream asks for it, the count is right
(`syncStore_entityCount`).
-/
import SplitsSubgraph.QueueReads

namespace SplitsSubgraph

open RangeTable EntityModification

/-! ### The blocks that are left -/

/-- Blocks with what is in them. -/
abbrev Chain (α : Type) := List (ℤ × α)

namespace Chain

variable {α : Type}

/-- The blocks up to a block. -/
def upTo (chain : Chain α) (block : ℤ) : Chain α := chain.filter fun b => decide (b.1 ≤ block)

/-- The entities that the modifications of the blocks make. -/
def entities (schema : SchemaDocument) (chain : Chain (List EntityModification)) :
    EntityKey → Option Attributes :=
  chain.foldl (fun entities b => applyAll schema entities b.2) fun _ => none

/-- The blocks after a request. -/
def step (chain : Chain (List EntityModification)) : Request → Chain (List EntityModification)
  | .write block mods => chain ++ [(block, mods)]
  | .revertTo block => chain.upTo block
  | .stop => chain

theorem upTo_eq_self {chain : Chain α} {block : ℤ} (h : ∀ b ∈ chain, b.1 ≤ block) :
    chain.upTo block = chain :=
  List.filter_eq_self.mpr fun b hb => decide_eq_true (h b hb)

theorem upTo_upTo (chain : Chain α) (block block' : ℤ) :
    (chain.upTo block).upTo block' = chain.upTo (min block' block) := by
  rw [upTo, upTo, upTo, List.filter_filter]
  congr 1
  funext b
  rw [Bool.eq_iff_iff, Bool.and_eq_true, decide_eq_true_eq, decide_eq_true_eq, decide_eq_true_eq,
    le_min_iff]

theorem entities_concat (schema : SchemaDocument) (chain : Chain (List EntityModification))
    (block : ℤ) (mods : List EntityModification) :
    Chain.entities schema (chain ++ [(block, mods)])
      = applyAll schema (chain.entities schema) mods := by
  rw [entities, List.foldl_append]
  rfl

theorem upTo_append (chain chain' : Chain α) (block : ℤ) :
    Chain.upTo (chain ++ chain') block = chain.upTo block ++ chain'.upTo block :=
  List.filter_append _ _

/-- One more block, after all others. -/
theorem upTo_concat {chain : Chain α} {head block : ℤ} (hchain : ∀ b ∈ chain, b.1 ≤ head)
    (hblock : head < block) (a : α) (x : ℤ) :
    Chain.upTo (chain ++ [(block, a)]) x
      = if x < block then chain.upTo x else chain ++ [(block, a)] := by
  rw [upTo_append]
  by_cases hx : x < block
  · have hnone : Chain.upTo [(block, a)] x = [] := by simp [upTo, hx]
    rw [if_pos hx, hnone, List.append_nil]
  · have hnew : Chain.upTo [(block, a)] x = [(block, a)] := by
      simp only [upTo, List.filter_cons, List.filter_nil]
      rw [if_pos (by simpa using hx)]
    rw [if_neg hx, hnew, upTo_eq_self fun b hb => by have := hchain b hb; omega]

end Chain

/-- The blocks that no request has reverted. -/
def canonical (reqs : List Request) : Chain (List EntityModification) :=
  reqs.foldl Chain.step []

@[simp] theorem canonical_concat (reqs : List Request) (req : Request) :
    canonical (reqs ++ [req]) = (canonical reqs).step req := by
  simp [canonical, List.foldl_append]

section chain

variable {layout : Layout} {reqs : List Request}

theorem syncStore_concat (d : Deployment) (reqs : List Request) (req : Request) :
    syncStore layout d (reqs ++ [req]) = req.apply layout (syncStore layout d reqs) := by
  rw [syncStore_append]
  rfl

theorem admitted_concat {d : Deployment} {req : Request} :
    Admitted layout d (reqs ++ [req])
      ↔ Admitted layout d reqs ∧ req.Accepted layout (syncStore layout d reqs) := by
  rw [admitted_append]
  simp [Admitted]

/-- No block is after the head. -/
theorem canonical_le (h : Admitted layout Deployment.empty reqs) :
    ∀ b ∈ canonical reqs, b.1 ≤ (syncStore layout Deployment.empty reqs).headNumber := by
  induction reqs using List.reverseRecOn with
  | nil => simp [canonical]
  | append_singleton reqs req ih =>
    rw [admitted_concat] at h
    have hle := ih h.1
    rw [canonical_concat, syncStore_concat]
    intro b hb
    rcases req with ⟨block, mods⟩ | block | -
    · have hforward := h.2.forward
      rcases List.mem_append.mp hb with hold | hnew
      · have := hle b hold
        show b.1 ≤ block
        omega
      · obtain rfl : b = (block, mods) := by simpa using hnew
        exact le_rfl
    · exact of_decide_eq_true (List.mem_filter.mp hb).2
    · exact hle b hb

/-- The entities as of every block. -/
theorem view_canonical (h : Admitted layout Deployment.empty reqs) (key : EntityKey) (x : ℤ) :
    (syncStore layout Deployment.empty reqs).get layout key x
      = ((canonical reqs).upTo x).entities layout.schema key := by
  induction reqs using List.reverseRecOn generalizing key x with
  | nil => rfl
  | append_singleton reqs req ih =>
    rw [admitted_concat] at h
    have hwf := wf_syncStore (Deployment.WF.empty layout) h.1
    have hle := canonical_le h.1
    have hview := Request.view_apply hwf h.2
    have hget := congrFun (congrFun hview x) key
    rw [syncStore_concat, canonical_concat]
    rcases req with ⟨block, mods⟩ | block | -
    · have hmax := hwf.head_lt
      show (Deployment.written layout _ block mods).get layout key x = _
      rw [Deployment.get_written hwf h.2, Chain.step, Chain.upTo_concat hle h.2.forward]
      by_cases hx : x < block
      · rw [if_pos hx, if_pos hx]
        exact ih h.1 key x
      · have hbefore : (fun key => (syncStore layout Deployment.empty reqs).get layout key
            BLOCK_NUMBER_MAX) = (canonical reqs).entities layout.schema := by
          funext key
          rw [ih h.1, Chain.upTo_eq_self fun b hb => by have := hle b hb; omega]
        rw [if_neg hx, if_neg hx, hbefore, Chain.entities_concat]
    · rw [Chain.step, Chain.upTo_upTo, ← ih h.1]
      exact hget
    · exact ih h.1 key x

/-- The store executes requests that it accepts. -/
theorem foldlM_execute {d : Deployment} (hwf : d.WF layout) (h : Admitted layout d reqs) :
    reqs.foldlM (fun d req => (Request.execute layout d req).map Prod.fst) d
      = .ok (syncStore layout d reqs) := by
  induction reqs generalizing d with
  | nil => rfl
  | cons req reqs ih =>
    obtain ⟨res, hexec⟩ := Request.execute_eq hwf h.1
    rw [List.foldlM_cons, hexec]
    exact ih (Request.wf_apply hwf h.1) h.2

/-- **What was reverted leaves no trace.**  Whatever blocks are written and reverted, the
entities as of any block are those that the modifications of the blocks make that are left
and are not after it. -/
theorem execute_get (h : Admitted layout Deployment.empty reqs) :
    ∃ d, reqs.foldlM (fun d req => (Request.execute layout d req).map Prod.fst) Deployment.empty
        = .ok d
      ∧ ∀ key x, d.get layout key x = ((canonical reqs).upTo x).entities layout.schema key :=
  ⟨_, foldlM_execute (Deployment.WF.empty layout) h, view_canonical h⟩

/-- A recipient is saved, then removed, and the removal is reverted. -/
def revertedRemoval : List Request :=
  [.write 1 [.insert EntityCache.recipientKey EntityCache.recipientEntity],
    .write 2 [.remove EntityCache.recipientKey], .revertTo 1]

theorem admitted_revertedRemoval : Admitted splitsLayout Deployment.empty revertedRemoval := by
  refine ⟨⟨by decide, by decide, by decide, ?_, ?_⟩, ⟨by decide, by decide, by decide, ?_, ?_⟩,
    ⟨2, rfl, by decide⟩, trivial⟩
  · intro m hm
    obtain rfl := List.mem_singleton.mp hm
    rfl
  · intro m hm
    obtain rfl := List.mem_singleton.mp hm
    exact ⟨by decide, rfl⟩
  · intro m hm
    obtain rfl := List.mem_singleton.mp hm
    rfl
  · intro m hm
    obtain rfl := List.mem_singleton.mp hm
    exact ⟨by decide, rfl⟩

theorem execute_get_revertedRemoval :
    ∃ d, revertedRemoval.foldlM (fun d req => (Request.execute splitsLayout d req).map Prod.fst)
        Deployment.empty = .ok d
      ∧ d.get splitsLayout EntityCache.recipientKey BLOCK_NUMBER_MAX
        = some (EntityCache.recipientEntity.row schema "Recipient") := by
  obtain ⟨d, hd, hget⟩ := execute_get admitted_revertedRemoval
  exact ⟨d, hd, hget EntityCache.recipientKey BLOCK_NUMBER_MAX⟩

end chain

/-! ### The number of entities -/

section count

variable {layout : Layout} {d : Deployment}

/-- The entities that are there now, over all tables. -/
theorem countQuery_eq (hwf : d.WF layout) :
    layout.countQuery d.tables
      = (layout.entityTypes.map fun t =>
          ((present (d.tables t) BLOCK_NUMBER_MAX).card : ℤ)).sum := by
  rw [Layout.countQuery]
  congr 1
  apply List.map_congr_left
  intro t _
  rw [(hwf.tables t).card_present]
  by_cases himm : layout.isImmutable t = true
  · rw [if_pos himm, List.filter_eq_self.mpr]
    intro r hr
    have hlower := (hwf.tables t).lower_le r hr
    have hhead := hwf.head_lt
    exact covers_of_upper_none (hwf.immutable t himm r hr) (by omega)
  · rw [if_neg himm]

theorem card_sdiff_toFinset (l m : List String) :
    (l.toFinset \ m.toFinset).card = (l.dedup.filter (· ∉ m)).length := by
  have hset : l.toFinset \ m.toFinset = (l.dedup.filter (· ∉ m)).toFinset := by
    ext x
    simp
  rw [hset, List.toFinset_card_of_nodup (l.nodup_dedup.filter _)]

/-- How a revert changes the count of a table, in terms of what it removes and what it
opens again. -/
theorem revertCount_eq (hwf : d.WF layout) (t : String) (block : ℤ) :
    layout.revertCount (block + 1) t (d.tables t)
      = ((reopened (d.tables t) block BLOCK_NUMBER_MAX \ begun (d.tables t) block).card : ℤ)
        - (begun (d.tables t) block \ reopened (d.tables t) block BLOCK_NUMBER_MAX).card := by
  have hhead := hwf.head_lt
  set removed := ((d.tables t).filter fun r => decide (block + 1 ≤ r.lower)).map Version.id
    with hremoved
  set kept := (d.tables t).filter fun r => !decide (block + 1 ≤ r.lower) with hkept
  set unclamped := (if layout.isImmutable t then []
    else (kept.filter fun r =>
      r.upper.isSome && (Layout.revertClamp block r).upper.isNone).map Version.id) with hunclamped
  have hbegun : removed.toFinset = begun (d.tables t) block := by
    rw [begun, hremoved]
    congr 3
  have hreopened : unclamped.toFinset = reopened (d.tables t) block BLOCK_NUMBER_MAX := by
    ext id
    rw [mem_reopened, List.mem_toFinset, hunclamped]
    by_cases himm : layout.isImmutable t = true
    · rw [if_pos himm]
      simp only [List.not_mem_nil, false_iff, not_exists, not_and, not_not]
      intro r hr _ _
      have hlower := (hwf.tables t).lower_le r hr
      exact covers_of_upper_none (hwf.immutable t himm r hr) (by omega)
    · rw [if_neg himm, List.mem_map]
      constructor
      · rintro ⟨r, hr, rfl⟩
        rw [List.mem_filter, hkept, List.mem_filter, Bool.and_eq_true] at hr
        refine ⟨r, hr.1.1, rfl, ?_⟩
        -- an end that was opened again
        rw [Layout.revertClamp] at hr
        split at hr
        · rename_i hcond
          exact ⟨hcond.1, hcond.2.1⟩
        · rcases hu : r.upper with - | u <;> simp [hu] at hr
      · rintro ⟨r, hr, rfl, hcov, hcur⟩
        have hlower := (hwf.tables t).lower_le r hr
        have hcov' := Version.covers_iff.mp hcov
        obtain ⟨u, hu⟩ : ∃ u, r.upper = some u := by
          rcases hu : r.upper with - | u
          · exact absurd (covers_of_upper_none hu (by omega)) hcur
          · exact ⟨u, rfl⟩
        have hle := (hwf.tables t).upper_le r hr u hu
        have hlt := hcov'.2 u hu
        refine ⟨r, ?_, rfl⟩
        rw [List.mem_filter, hkept, List.mem_filter, Bool.and_eq_true]
        refine ⟨⟨hr, ?_⟩, by rw [hu]; rfl, ?_⟩
        · rw [Bool.not_eq_true', decide_eq_false_iff_not]
          omega
        · rw [Layout.revertClamp, if_pos ⟨hcov, hcur, hcov'.1, by rw [hu]; exact hlt, by
            rw [hu, Option.getD_some]; omega⟩]
          rfl
  rw [← hbegun, ← hreopened, card_sdiff_toFinset, card_sdiff_toFinset, Layout.revertCount,
    add_sub_cancel_right]

/-- The entities that got a version after a block, created or updated, and are not there any
more. -/
def goneSince (layout : Layout) (d : Deployment) (block : ℤ) : ℤ :=
  (layout.entityTypes.map fun t =>
    ((begun (d.tables t) block \ present (d.tables t) BLOCK_NUMBER_MAX).card : ℤ)).sum

/-- The change of the count that a revert makes. -/
theorem revertBlock_count (hwf : d.WF layout) {block : ℤ} (hblock : block < d.headNumber) :
    (layout.revertBlock d.tables (block + 1)).2
      = layout.countQuery (d.reverted layout block).tables - layout.countQuery d.tables
        - goneSince layout d block := by
  have hhead := hwf.head_lt
  have htable : ∀ t, ((present ((d.reverted layout block).tables t) BLOCK_NUMBER_MAX).card : ℤ)
      = layout.revertCount (block + 1) t (d.tables t)
        + (present (d.tables t) BLOCK_NUMBER_MAX).card
        + (begun (d.tables t) block \ present (d.tables t) BLOCK_NUMBER_MAX).card := by
    intro t
    show ((present (RangeTable.revert _ _ _) _).card : ℤ) = _
    rw [(hwf.tables t).present_revert hwf.head_lt (by omega), revertCount_eq hwf,
      (hwf.tables t).card_revert hwf.head_lt]
    omega
  rw [countQuery_eq (hwf.reverted hblock), countQuery_eq hwf, goneSince]
  simp only [htable, List.sum_map_add]
  show (layout.entityTypes.map _).sum = _
  omega

/-! ### Writing -/

theorem sum_ofType {α : Type} {entries : List (EntityKey × α)} {types : List String}
    (hnd : types.Nodup) (h : ∀ e ∈ entries, e.1.entityType ∈ types) :
    (types.map fun t => ((Layout.ofType entries t).length : ℤ)).sum = entries.length := by
  induction entries with
  | nil => simp [Layout.ofType]
  | cons e entries ih =>
    have hrest := ih fun e' he' => h e' (by simp [he'])
    have hone : (types.map fun t => if t = e.1.entityType then (1 : ℤ) else 0).sum = 1 := by
      rw [List.sum_map_ite_eq, List.count_eq_one_of_mem hnd (h e (by simp))]
      simp
    have hcons : ∀ t, ((Layout.ofType (e :: entries) t).length : ℤ)
        = (if t = e.1.entityType then 1 else 0) + (Layout.ofType entries t).length := by
      intro t
      rw [Layout.ofType, List.filter_cons]
      by_cases ht : t = e.1.entityType
      · simp [ht, Layout.ofType, add_comm]
      · simp [ht, Ne.symm ht, Layout.ofType]
    simp only [hcons, List.sum_map_add, hone, hrest, List.length_cons]
    push_cast
    omega

/-- The change of the count that a write makes. -/
theorem written_count (hwf : d.WF layout) {block : ℤ} {mods : List EntityModification}
    (h : Layout.Accepts layout d block mods) :
    layout.countQuery (d.written layout block mods).tables
      = layout.countQuery d.tables
        + ((Layout.inserts mods).length - (Layout.removals mods).length) := by
  have htable : ∀ t, ((present ((d.written layout block mods).tables t) BLOCK_NUMBER_MAX).card : ℤ)
        + (Layout.ofType (Layout.removals mods) t).length
      = (present (d.tables t) BLOCK_NUMBER_MAX).card
        + (Layout.ofType (Layout.inserts mods) t).length := by
    intro t
    obtain ⟨-, -, hor⟩ := h.disjoint t
    have hclosed : (Layout.closedIds mods t).Nodup := by
      rw [Layout.closedIds, List.nodup_append]
      refine ⟨Layout.nodup_ids (h.nodup.sublist (Layout.overwrites_sublist mods)) t,
        Layout.nodup_ids (h.nodup.sublist (Layout.removals_sublist mods)) t, ?_⟩
      rintro i hi j hj rfl
      exact hor i hi hj
    have hthere : ∀ id ∈ Layout.closedIds mods t,
        (RangeTable.find (d.tables t) id BLOCK_NUMBER_MAX).isSome := by
      intro id hid
      obtain ⟨m, hm, href, hclose⟩ := Layout.mem_closedIds.mp hid
      have happ := h.applicable m hm
      rcases m with ⟨key, data⟩ | ⟨key, data⟩ | key
      · exact absurd rfl (hclose key data)
      all_goals
        obtain rfl : key = ⟨t, id⟩ := href
        rw [Applicable, Layout.find_eq hwf] at happ
        exact happ
    have hcard := (hwf.tables t).card_write h.forward h.lt_max hclosed
      (Layout.newRows_nodup h.nodup) hthere (Deployment.absent_of_accepts h hwf)
    have hlen : (Layout.closedIds mods t).length + (Layout.ofType (Layout.inserts mods) t).length
        = (Layout.newRows layout mods t).length
          + (Layout.ofType (Layout.removals mods) t).length := by
      simp only [Layout.closedIds, Layout.newRows, Layout.idsOf, Layout.rowsOf, List.length_append,
        List.length_map]
      omega
    show ((present (RangeTable.write _ _ _ _ _) _).card : ℤ) + _ = _
    rw [hcard]
    omega
  have hnd : layout.entityTypes.Nodup := List.nodup_dedup _
  have hins : ∀ e ∈ Layout.inserts mods, e.1.entityType ∈ layout.entityTypes :=
    fun e he => (h.storable _ (Layout.mem_inserts.mp he)).1
  have hrem : ∀ e ∈ Layout.removals mods, e.1.entityType ∈ layout.entityTypes :=
    fun e he => (h.storable _ (Layout.mem_removals.mp he)).1
  have hsum := congrArg (fun f : String → ℤ => (layout.entityTypes.map f).sum) (funext htable)
  simp only [List.sum_map_add, sum_ofType hnd hins, sum_ofType hnd hrem] at hsum
  rw [countQuery_eq (hwf.written h), countQuery_eq hwf]
  omega

/-! ### Runs -/

theorem countQuery_nonneg (layout : Layout) (tables : Tables) : 0 ≤ layout.countQuery tables := by
  apply List.sum_nonneg
  intro n hn
  obtain ⟨t, -, rfl⟩ := List.mem_map.mp hn
  split <;> exact Int.natCast_nonneg _

/-- A change of a count that is right. -/
theorem entityCountSql_eq {tables tables' : Tables} {count : ℤ} :
    layout.entityCountSql tables' (layout.countQuery tables) count
      = layout.countQuery tables + count := by
  have hnonneg := countQuery_nonneg layout tables
  rw [Layout.entityCountSql]
  by_cases hzero : count = 0
  · rw [if_pos hzero, hzero, add_zero]
  · rw [if_neg hzero, if_neg (by omega)]

variable {reqs : List Request}

/-- Versions begin and end at blocks that are left. -/
theorem bounds_canonical (h : Admitted layout Deployment.empty reqs) (t : String) :
    ∀ r ∈ (syncStore layout Deployment.empty reqs).tables t,
      r.lower ∈ (canonical reqs).map Prod.fst
        ∧ ∀ u, r.upper = some u → u ∈ (canonical reqs).map Prod.fst := by
  induction reqs using List.reverseRecOn with
  | nil => simp [syncStore, Deployment.empty]
  | append_singleton reqs req ih =>
    rw [admitted_concat] at h
    have hwf := wf_syncStore (Deployment.WF.empty layout) h.1
    have hwf' := Request.wf_apply hwf h.2
    rw [syncStore_concat, canonical_concat]
    intro r hr
    rcases req with ⟨block, mods⟩ | block | -
    · rw [Chain.step, List.map_append]
      rcases List.mem_append.mp hr with hold | hnew
      · obtain ⟨r₀, hr₀, rfl⟩ := List.mem_map.mp hold
        obtain ⟨hlower, hupper⟩ := ih h.1 r₀ hr₀
        refine ⟨by rw [Version.clamp_lower]; exact List.mem_append_left _ hlower, ?_⟩
        intro u hu
        rw [Version.clamp] at hu
        split at hu
        · cases hu
          simp
        · exact List.mem_append_left _ (hupper u hu)
      · obtain ⟨e, -, rfl⟩ := List.mem_map.mp hnew
        exact ⟨by simp [Version.fresh], by simp [Version.fresh]⟩
    · -- what is kept begins and ends no later than the block
      have hkeep : ∀ b, b ≤ block → b ∈ (canonical reqs).map Prod.fst →
          b ∈ ((canonical reqs).upTo block).map Prod.fst := by
        intro b hle hmem
        obtain ⟨e, he, rfl⟩ := List.mem_map.mp hmem
        exact List.mem_map.mpr ⟨e, List.mem_filter.mpr ⟨he, decide_eq_true hle⟩, rfl⟩
      have hle := (hwf'.tables t).lower_le r hr
      have hle' := (hwf'.tables t).upper_le r hr
      obtain ⟨r₀, hr₀, rfl⟩ := List.mem_map.mp hr
      obtain ⟨hlower, hupper⟩ := ih h.1 r₀ (List.mem_of_mem_filter hr₀)
      refine ⟨hkeep _ hle (by rw [Version.unclamp_lower]; exact hlower), ?_⟩
      intro u hu
      apply hkeep u (hle' u hu)
      rw [Version.unclamp] at hu
      split at hu
      · simp at hu
      · exact hupper u hu
    · exact ih h.1 r hr

/-- Every revert goes back over at most one block that was written. -/
def ShallowReverts (reqs : List Request) : Prop :=
  ∀ before block after, reqs = before ++ .revertTo block :: after →
    ((canonical before).filter fun b => decide (block < b.1)).length ≤ 1

/-- An entity that got a version in the last block is there. -/
theorem goneSince_eq_zero (h : Admitted layout Deployment.empty reqs) {block : ℤ}
    (hshallow : ((canonical reqs).filter fun b => decide (block < b.1)).length ≤ 1) :
    goneSince layout (syncStore layout Deployment.empty reqs) block = 0 := by
  have hwf := wf_syncStore (Deployment.WF.empty layout) h
  have hhead := hwf.head_lt
  -- the reverted blocks are one
  have hone : ∀ b b', b ∈ (canonical reqs).map Prod.fst → b' ∈ (canonical reqs).map Prod.fst →
      block < b → block < b' → b = b' := by
    intro b b' hb hb' hlt hlt'
    obtain ⟨e, he, rfl⟩ := List.mem_map.mp hb
    obtain ⟨e', he', rfl⟩ := List.mem_map.mp hb'
    have hin : e ∈ (canonical reqs).filter fun b => decide (block < b.1) :=
      List.mem_filter.mpr ⟨he, decide_eq_true hlt⟩
    have hin' : e' ∈ (canonical reqs).filter fun b => decide (block < b.1) :=
      List.mem_filter.mpr ⟨he', decide_eq_true hlt'⟩
    rcases hf : (canonical reqs).filter (fun b => decide (block < b.1)) with - | ⟨x, - | ⟨y, l⟩⟩
    · rw [hf] at hin
      simp at hin
    · rw [hf] at hin hin'
      rw [List.mem_singleton.mp hin, List.mem_singleton.mp hin']
    · rw [hf] at hshallow
      simp at hshallow
  rw [goneSince]
  apply List.sum_eq_zero
  intro n hn
  obtain ⟨t, -, rfl⟩ := List.mem_map.mp hn
  rw [Int.natCast_eq_zero, Finset.card_eq_zero, Finset.sdiff_eq_empty_iff_subset]
  intro id hid
  obtain ⟨r, hr, hrid, hlt⟩ := mem_begun.mp hid
  obtain ⟨hlower, hupper⟩ := bounds_canonical h t r hr
  have hlow := (hwf.tables t).lower_le r hr
  have hopen : r.upper = none := by
    rcases hu : r.upper with - | u
    · rfl
    · exfalso
      have hne := (hwf.tables t).lower_lt r hr u hu
      have heq := hone _ _ hlower (hupper u hu) hlt (by omega)
      omega
  exact mem_present.mpr ⟨r, hr, hrid, covers_of_upper_none hopen (by omega)⟩

/-- The count in runs whose reverts go back over one block. -/
theorem syncStore_entityCount (h : Admitted layout Deployment.empty reqs)
    (hshallow : ShallowReverts reqs) :
    (syncStore layout Deployment.empty reqs).entityCount
      = layout.countQuery (syncStore layout Deployment.empty reqs).tables := by
  induction reqs using List.reverseRecOn with
  | nil => simp [syncStore, Deployment.empty, Layout.countQuery]
  | append_singleton reqs req ih =>
    rw [admitted_concat] at h
    have hbefore := ih h.1 fun before block after he =>
      hshallow before block (after ++ [req]) (by rw [he]; simp)
    have hwf := wf_syncStore (Deployment.WF.empty layout) h.1
    rw [syncStore_concat]
    rcases req with ⟨block, mods⟩ | block | -
    · show layout.entityCountSql _ (syncStore layout Deployment.empty reqs).entityCount _ = _
      rw [hbefore, entityCountSql_eq]
      exact (written_count hwf h.2).symm
    · obtain ⟨head, hhead, hlt⟩ := h.2
      have hgone := goneSince_eq_zero h.1 (hshallow reqs block [] rfl)
      have hcount := revertBlock_count hwf (by rwa [headNumber_of_head hhead])
      show layout.entityCountSql _ (syncStore layout Deployment.empty reqs).entityCount _ = _
      rw [hbefore, entityCountSql_eq, hcount, hgone]
      show _ = layout.countQuery (Deployment.reverted _ _ _).tables
      omega
    · exact hbefore

/-- **The entity count is the number of entities**, in every run whose reverts go back over
at most one block that was written. -/
theorem execute_entityCount (h : Admitted layout Deployment.empty reqs)
    (hshallow : ShallowReverts reqs) :
    ∃ d, reqs.foldlM (fun d req => (Request.execute layout d req).map Prod.fst) Deployment.empty
        = .ok d
      ∧ d.entityCount = layout.countQuery d.tables :=
  ⟨_, foldlM_execute (Deployment.WF.empty layout) h, syncStore_entityCount h hshallow⟩

theorem shallowReverts_revertedRemoval : ShallowReverts revertedRemoval := by
  intro before block after h
  rcases before with - | ⟨a, - | ⟨b, - | ⟨c, rest⟩⟩⟩
  · simp [revertedRemoval] at h
  · simp [revertedRemoval] at h
  · simp only [revertedRemoval, List.cons_append, List.nil_append, List.cons.injEq,
      Request.revertTo.injEq] at h
    obtain ⟨rfl, rfl, rfl, rfl⟩ := h
    decide
  · simp [revertedRemoval] at h

theorem execute_entityCount_revertedRemoval :
    ∃ d, revertedRemoval.foldlM (fun d req => (Request.execute splitsLayout d req).map Prod.fst)
        Deployment.empty = .ok d
      ∧ d.entityCount = splitsLayout.countQuery d.tables :=
  execute_entityCount admitted_revertedRemoval shallowReverts_revertedRemoval

/-- **What a deeper revert does to the count**: it stays right exactly if every entity that got
a version in the reverted blocks, be it created or updated there, is there at the head. -/
theorem revert_entityCount_iff (hwf : d.WF layout) {block : ℤ} (hblock : block < d.headNumber)
    (hcount : d.entityCount = layout.countQuery d.tables) :
    (d.reverted layout block).entityCount
        = layout.countQuery (d.reverted layout block).tables - goneSince layout d block
    ∧ ((d.reverted layout block).entityCount
        = layout.countQuery (d.reverted layout block).tables ↔ ∀ t ∈ layout.entityTypes,
          begun (d.tables t) block ⊆ present (d.tables t) BLOCK_NUMBER_MAX) := by
  have hrevert : (d.reverted layout block).entityCount
      = layout.countQuery (d.reverted layout block).tables - goneSince layout d block := by
    show layout.entityCountSql _ d.entityCount _ = _
    rw [hcount, entityCountSql_eq, revertBlock_count hwf hblock]
    omega
  refine ⟨hrevert, ?_⟩
  rw [hrevert, sub_eq_self, goneSince]
  constructor
  · intro hzero t ht
    have hle : ((begun (d.tables t) block \ present (d.tables t) BLOCK_NUMBER_MAX).card : ℤ)
        ≤ 0 := by
      rw [← hzero]
      apply List.single_le_sum
      · intro n hn
        obtain ⟨t', -, rfl⟩ := List.mem_map.mp hn
        exact Int.natCast_nonneg _
      · exact List.mem_map.mpr ⟨t, ht, rfl⟩
    rw [← Finset.sdiff_eq_empty_iff_subset, ← Finset.card_eq_zero]
    omega
  · intro hall
    apply List.sum_eq_zero
    intro n hn
    obtain ⟨t, ht, rfl⟩ := List.mem_map.mp hn
    rw [Int.natCast_eq_zero, Finset.card_eq_zero, Finset.sdiff_eq_empty_iff_subset]
    exact hall t ht

/-- The store after the recipient was saved and removed. -/
def removal : Deployment := syncStore splitsLayout Deployment.empty (revertedRemoval.take 2)

/-- Once both blocks are reverted at once, the count is wrong. -/
theorem revert_entityCount_removal : (removal.reverted splitsLayout 0).entityCount
    ≠ splitsLayout.countQuery (removal.reverted splitsLayout 0).tables := by
  have hadmitted : Admitted splitsLayout Deployment.empty (revertedRemoval.take 2) :=
    ⟨admitted_revertedRemoval.1, admitted_revertedRemoval.2.1, trivial⟩
  have hwf : removal.WF splitsLayout := wf_syncStore (Deployment.WF.empty splitsLayout) hadmitted
  have hblock : 0 < removal.headNumber := by decide
  intro hright
  have hsub := (revert_entityCount_iff hwf hblock (by decide)).2.mp hright "Recipient" (by decide)
  exact absurd hsub (by decide)

end count

end SplitsSubgraph
