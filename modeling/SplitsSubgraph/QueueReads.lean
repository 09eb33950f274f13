/-
SplitsSubgraph/QueueReads.lean

Searching the queue of writes.

A request to the store is one to a store that keeps its history (`Request.abstract`), and
the search of `Queue::get` is the general one of Lib/WriteBehind.lean (`Queue.norm_get`).
The plain thing to compare with is a store without a queue, which executes every request at
once (`syncStore`, the `Sync` case of `Writer`).

`Queue::get_many` is written in another way than `Queue::get`: it goes over the
modifications instead of the keys, and takes away the keys it has found.  It finds the same
(`Queue.getMany_spec`).
-/
import SplitsSubgraph.WriteQueue

namespace SplitsSubgraph

open RangeTable EntityModification

/-! ### Requests -/

/-- The request as one to a store that keeps its history. -/
def Request.abstract (schema : SchemaDocument) :
    Request → WriteBehind.Request EntityKey (Option Attributes)
  | .write block mods =>
    .write block fun key =>
      (mods.find? fun m => decide (m.entityRef = key)).map fun m => key.norm schema m.entity
  | .revertTo block => .revert block
  | .stop => .skip

/-- The entities as of each block. -/
def Deployment.view (layout : Layout) (d : Deployment) :
    WriteBehind.View EntityKey (Option Attributes) :=
  fun block key => d.get layout key block

/-- The store after a request that it accepts. -/
def Request.apply (layout : Layout) (d : Deployment) : Request → Deployment
  | .write block mods => d.written layout block mods
  | .revertTo block => d.reverted layout block
  | .stop => d

/-- What the store expects of a request. -/
def Request.Accepted (layout : Layout) (d : Deployment) : Request → Prop
  | .write block mods => Layout.Accepts layout d block mods
  | .revertTo block => ∃ head, d.head = some head ∧ block < head
  | .stop => True

section request

variable {layout : Layout} {d : Deployment} {req : Request}

theorem Request.execute_eq (hwf : d.WF layout) (h : req.Accepted layout d) :
    ∃ res, req.execute layout d = .ok (req.apply layout d, res) := by
  rcases req with ⟨block, mods⟩ | block | -
  · refine ⟨.cont, ?_⟩
    rw [Request.execute, Deployment.transact_eq h hwf]
    rfl
  · obtain ⟨head, hhead, hlt⟩ := h
    refine ⟨.cont, ?_⟩
    rw [Request.execute, Deployment.revert_eq hwf hhead hlt]
    rfl
  · exact ⟨.stop, rfl⟩

theorem headNumber_of_head {head : ℤ} (h : d.head = some head) : d.headNumber = head := by
  rw [Deployment.headNumber, h, Option.getD_some]

theorem Request.wf_apply (hwf : d.WF layout) (h : req.Accepted layout d) :
    (req.apply layout d).WF layout := by
  rcases req with ⟨block, mods⟩ | block | -
  · exact hwf.written h
  · obtain ⟨head, hhead, hlt⟩ := h
    exact hwf.reverted (by rwa [headNumber_of_head hhead])
  · exact hwf

/-- Modifications by key. -/
theorem applyAll_eq_getD {schema : SchemaDocument} {mods : List EntityModification}
    (hnd : (mods.map entityRef).Nodup) (entities : EntityKey → Option Attributes)
    (key : EntityKey) :
    applyAll schema entities mods key
      = ((mods.find? fun m => decide (m.entityRef = key)).map
          fun m => key.norm schema m.entity).getD (entities key) := by
  rcases e : mods.find? (fun m => decide (m.entityRef = key)) with - | m
  · rw [e]
    apply applyAll_of_notMem
    intro hmem
    obtain ⟨m, hm, hkey⟩ := List.mem_map.mp hmem
    have := List.find?_eq_none.mp e m hm
    simp [hkey] at this
  · have hkey : m.entityRef = key := by simpa using List.find?_some e
    have happly : applyAll schema entities mods m.entityRef = _ :=
      applyAll_of_mem hnd (List.mem_of_find?_eq_some e)
    rw [hkey] at happly
    rw [happly, e]
    rfl

/-- To the reader a request is the abstract one. -/
theorem Request.view_apply (hwf : d.WF layout) (h : req.Accepted layout d) :
    (req.apply layout d).view layout
      = (req.abstract layout.schema).exec BLOCK_NUMBER_MAX (d.view layout) := by
  funext x key
  rcases req with ⟨block, mods⟩ | block | -
  · show (d.written layout block mods).get layout key x = _
    rw [Deployment.get_written hwf h, applyAll_eq_getD h.nodup]
    rfl
  · obtain ⟨head, hhead, hlt⟩ := h
    exact Deployment.get_reverted hwf (by rwa [headNumber_of_head hhead]) key x
  · rfl

theorem Request.headNumber_apply (req : Request) :
    (req.apply layout d).headNumber = (req.abstract layout.schema).head d.headNumber := by
  rcases req with ⟨block, mods⟩ | block | - <;> rfl

theorem Request.admissible (h : req.Accepted layout d) :
    (req.abstract layout.schema).Admissible BLOCK_NUMBER_MAX d.headNumber := by
  rcases req with ⟨block, mods⟩ | block | -
  · exact ⟨h.forward, h.lt_max⟩
  · obtain ⟨head, hhead, hlt⟩ := h
    show block < d.headNumber
    rwa [headNumber_of_head hhead]
  · trivial

theorem Deployment.WF.steady (hwf : d.WF layout) :
    WriteBehind.Steady d.headNumber (d.view layout) := by
  intro x y hx hy
  funext key
  show d.get layout key x = d.get layout key y
  rw [Deployment.get, Layout.find_eq hwf, Deployment.get, Layout.find_eq hwf]
  exact (hwf.tables key.entityType).find_of_head_le hx hy

end request

/-! ### Without a queue -/

/-- A store that executes the requests at once. -/
def syncStore (layout : Layout) (d : Deployment) (reqs : List Request) : Deployment :=
  reqs.foldl (Request.apply layout) d

/-- Every request is one that the store accepts when its turn comes. -/
def Admitted (layout : Layout) : Deployment → List Request → Prop
  | _, [] => True
  | d, req :: reqs => req.Accepted layout d ∧ Admitted layout (req.apply layout d) reqs

section sync

variable {layout : Layout} {d : Deployment} {reqs : List Request}

theorem syncStore_append (reqs reqs' : List Request) :
    syncStore layout d (reqs ++ reqs') = syncStore layout (syncStore layout d reqs) reqs' :=
  List.foldl_append

theorem admitted_append {reqs' : List Request} :
    Admitted layout d (reqs ++ reqs')
      ↔ Admitted layout d reqs ∧ Admitted layout (syncStore layout d reqs) reqs' := by
  induction reqs generalizing d with
  | nil => simp [Admitted, syncStore]
  | cons req reqs ih =>
    rw [List.cons_append, Admitted, Admitted, ih, and_assoc]
    rfl

theorem wf_syncStore (hwf : d.WF layout) (h : Admitted layout d reqs) :
    (syncStore layout d reqs).WF layout := by
  induction reqs generalizing d with
  | nil => exact hwf
  | cons req reqs ih => exact ih (Request.wf_apply hwf h.1) h.2

theorem view_syncStore (hwf : d.WF layout) (h : Admitted layout d reqs) :
    (syncStore layout d reqs).view layout
      = WriteBehind.exec BLOCK_NUMBER_MAX (d.view layout)
          (reqs.map (Request.abstract layout.schema)) := by
  induction reqs generalizing d with
  | nil => rfl
  | cons req reqs ih =>
    show (syncStore layout (req.apply layout d) reqs).view layout
      = WriteBehind.exec BLOCK_NUMBER_MAX
          ((req.abstract layout.schema).exec BLOCK_NUMBER_MAX (d.view layout)) _
    rw [ih (Request.wf_apply hwf h.1) h.2, Request.view_apply hwf h.1]

theorem admissible_of_admitted (hwf : d.WF layout) (h : Admitted layout d reqs) :
    WriteBehind.Admissible BLOCK_NUMBER_MAX d.headNumber
      (reqs.map (Request.abstract layout.schema)) := by
  induction reqs generalizing d with
  | nil => trivial
  | cons req reqs ih =>
    refine ⟨Request.admissible h.1, ?_⟩
    rw [← Request.headNumber_apply]
    exact ih (Request.wf_apply hwf h.1) h.2

end sync

/-! ### Searching the queue -/

/-- The search of the source is the general one. -/
theorem scan_eq_findMap (schema : SchemaDocument) (key : EntityKey) (tracker : BlockTracker)
    (reqs : List Request) :
    WriteBehind.scan key ⟨tracker.revert, tracker.block⟩ (reqs.map (Request.abstract schema))
      = match findMap key tracker reqs with
        | (some op, _) => .inl (key.norm schema op)
        | (none, tracker) => .inr tracker.queryBlock := by
  induction reqs generalizing tracker with
  | nil => rfl
  | cons req reqs ih =>
    rcases req with ⟨block, mods⟩ | block | -
    · have hnext := ih (tracker.update (.write block mods))
      have hfound : (Request.abstract schema (.write block mods)).found
            (WriteBehind.Tracker.update ⟨tracker.revert, tracker.block⟩
              (Request.abstract schema (.write block mods))) key
          = if block ≤ tracker.revert then
              (mods.find? fun m => decide (m.entityRef = key)).map
                fun m => key.norm schema m.entity
            else none := rfl
      rw [List.map_cons, WriteBehind.scan, hfound, findMap]
      by_cases hvisible : block ≤ tracker.revert
      · have hv : (tracker.update (.write block mods)).visible block = true := by
          exact decide_eq_true hvisible
        simp only [hvisible, if_true, hv]
        rcases e : mods.find? (fun m => decide (m.entityRef = key)) with - | m
        · simp only [e, Option.map_none]
          exact hnext
        · simp only [e, Option.map_some]
      · have hv : (tracker.update (.write block mods)).visible block = false :=
          decide_eq_false hvisible
        simp only [hvisible, if_false, hv]
        exact hnext
    · exact ih (tracker.update (.revertTo block))
    · exact ih (tracker.update .stop)

theorem Queue.norm_get {layout : Layout} {store : Deployment} (hwf : store.WF layout) (q : Queue)
    (key : EntityKey) :
    key.norm layout.schema (q.get layout store key)
      = WriteBehind.read BLOCK_NUMBER_MAX (q.queue.map (Request.abstract layout.schema))
          (store.view layout) key := by
  have hscan := scan_eq_findMap layout.schema key .new q.queue.reverse
  rw [List.map_reverse] at hscan
  rw [WriteBehind.read, Queue.get]
  show _ = WriteBehind.resolve _ _ (WriteBehind.scan key
    ⟨BlockTracker.new.revert, BlockTracker.new.block⟩ _)
  rw [hscan]
  rcases findMap key .new q.queue.reverse with ⟨- | op, tracker⟩
  · exact Layout.norm_find hwf key _
  · rfl

/-- A request that writes normal entities. -/
def Request.Normal (schema : SchemaDocument) : Request → Prop
  | .write _ mods => ∀ m ∈ mods, m.entityRef.norm schema m.entity = m.entity
  | .revertTo _ | .stop => True

theorem findMap_normal {schema : SchemaDocument} {key : EntityKey} {tracker : BlockTracker}
    {reqs : List Request} (hreqs : ∀ req ∈ reqs, req.Normal schema) {op : Option Attributes}
    (h : (findMap key tracker reqs).1 = some op) : key.norm schema op = op := by
  induction reqs generalizing tracker with
  | nil => simp [findMap] at h
  | cons req reqs ih =>
    have hrest := @ih (tracker.update req) fun r hr => hreqs r (by simp [hr])
    rcases req with ⟨block, mods⟩ | block | -
    · rw [findMap] at h
      by_cases hvisible : (tracker.update (.write block mods)).visible block = true
      · simp only [hvisible, if_true] at h
        rcases e : mods.find? (fun m => decide (m.entityRef = key)) with - | m
        · simp only [e, Option.map_none] at h
          exact hrest h
        · simp only [e, Option.map_some, Option.some.injEq] at h
          have hkey : m.entityRef = key := by simpa using List.find?_some e
          have hm := hreqs _ List.mem_cons_self m (List.mem_of_find?_eq_some e)
          rw [← h, ← hkey]
          exact hm
      · simp only [hvisible] at h
        exact hrest h
    · exact hrest h
    · exact hrest h

/-- Lookups of normal entities give normal entities. -/
theorem Queue.get_normal {layout : Layout} {store : Deployment} (hwf : store.WF layout) (q : Queue)
    (hreqs : ∀ req ∈ q.queue, req.Normal layout.schema) (key : EntityKey) :
    key.norm layout.schema (q.get layout store key) = q.get layout store key := by
  have hrev : ∀ req ∈ q.queue.reverse, req.Normal layout.schema :=
    fun req hreq => hreqs req (List.mem_reverse.mp hreq)
  unfold Queue.get
  rcases e : findMap key .new q.queue.reverse with ⟨- | op, tracker⟩
  · exact Layout.norm_find hwf key _
  · exact findMap_normal hrev (congrArg Prod.fst e)

/-! ### Searching for many entities at once -/

section many

/-- Keys that are still to be found have not been found, and none was found twice. -/
structure Partition (found : List EntityKey × List (EntityKey × Option Attributes)) : Prop where
  nodup : (found.2.map Prod.fst).Nodup
  disjoint : ∀ key ∈ found.1, key ∉ found.2.map Prod.fst

variable {found : List EntityKey × List (EntityKey × Option Attributes)} {key : EntityKey}

theorem takeMods_spec (h : Partition found) (mods : List EntityModification) :
    Partition (takeMods found mods)
    ∧ (∀ key, key ∈ (takeMods found mods).1
        ↔ key ∈ found.1 ∧ mods.find? (fun m => decide (m.entityRef = key)) = none)
    ∧ ∀ key entity, (key, entity) ∈ (takeMods found mods).2
        ↔ (key, entity) ∈ found.2 ∨ (key ∈ found.1
          ∧ (mods.find? fun m => decide (m.entityRef = key)).map EntityModification.entity
            = some entity) := by
  induction mods generalizing found with
  | nil => exact ⟨h, by simp [takeMods], by simp [takeMods]⟩
  | cons m mods ih =>
    rw [takeMods]
    by_cases hm : m.entityRef ∈ found.1
    · rw [if_pos hm]
      have hnext : Partition (found.1.filter (· ≠ m.entityRef),
          found.2 ++ [(m.entityRef, m.entity)]) := by
        refine ⟨?_, ?_⟩
        · rw [List.map_append, List.nodup_append]
          refine ⟨h.nodup, by simp, ?_⟩
          rintro a ha b hb rfl
          obtain rfl : a = m.entityRef := by simpa using hb
          exact h.disjoint _ hm ha
        · intro k hk
          rw [List.mem_filter, decide_eq_true_eq] at hk
          rw [List.map_append, List.mem_append, not_or]
          exact ⟨h.disjoint k hk.1, by simpa using hk.2⟩
      obtain ⟨hpart, hkeys, hfound⟩ := ih hnext
      refine ⟨hpart, ?_, ?_⟩
      · intro k
        rw [hkeys k, List.mem_filter, decide_eq_true_eq, List.find?_cons]
        by_cases hk : k = m.entityRef
        · simp [hk]
        · simp [hk, Ne.symm hk]
      · intro k entity
        rw [hfound k entity, List.mem_append, List.mem_filter, decide_eq_true_eq, List.find?_cons]
        by_cases hk : k = m.entityRef
        · subst hk
          have hnot : ∀ e, (m.entityRef, e) ∉ found.2 := fun e he =>
            h.disjoint _ hm (List.mem_map.mpr ⟨_, he, rfl⟩)
          simp [hnot, hm, eq_comm]
        · simp [hk, Ne.symm hk]
    · rw [if_neg hm]
      obtain ⟨hpart, hkeys, hfound⟩ := ih h
      have hskip : ∀ k ∈ found.1, decide (m.entityRef = k) = false := by
        intro k hk
        rw [decide_eq_false_iff_not]
        rintro rfl
        exact hm hk
      refine ⟨hpart, ?_, ?_⟩
      · intro k
        rw [hkeys k]
        constructor
        · rintro ⟨hk, hnone⟩
          exact ⟨hk, by rw [List.find?_cons, hskip k hk]; exact hnone⟩
        · rintro ⟨hk, hnone⟩
          rw [List.find?_cons, hskip k hk] at hnone
          exact ⟨hk, hnone⟩
      · intro k entity
        rw [hfound k entity]
        constructor
        · rintro (hold | ⟨hk, hsome⟩)
          · exact Or.inl hold
          · exact Or.inr ⟨hk, by rw [List.find?_cons, hskip k hk]; exact hsome⟩
        · rintro (hold | ⟨hk, hsome⟩)
          · exact Or.inl hold
          · rw [List.find?_cons, hskip k hk] at hsome
            exact Or.inr ⟨hk, hsome⟩

/-- The two searches find the same, and ask the store at the same block. -/
theorem foldMany_spec (h : Partition found) (tracker : BlockTracker) (reqs : List Request) :
    Partition (foldMany tracker found reqs).1
    ∧ (∀ key, key ∈ (foldMany tracker found reqs).1.1
        ↔ key ∈ found.1 ∧ (findMap key tracker reqs).1 = none)
    ∧ (∀ key, (findMap key tracker reqs).1 = none →
        (findMap key tracker reqs).2 = (foldMany tracker found reqs).2)
    ∧ ∀ key entity, (key, entity) ∈ (foldMany tracker found reqs).1.2
        ↔ (key, entity) ∈ found.2
          ∨ (key ∈ found.1 ∧ (findMap key tracker reqs).1 = some entity) := by
  induction reqs generalizing found tracker with
  | nil => exact ⟨h, by simp [foldMany, findMap], by simp [foldMany, findMap],
      by simp [foldMany, findMap]⟩
  | cons req reqs ih =>
    rcases req with ⟨block, mods⟩ | block | -
    · by_cases hvisible : (tracker.update (.write block mods)).visible block = true
      · obtain ⟨htake, htkeys, htfound⟩ := takeMods_spec h mods
        obtain ⟨hpart, hkeys, htracker, hfound⟩ := ih htake (tracker.update (.write block mods))
        have hdef : foldMany tracker found (.write block mods :: reqs)
            = foldMany (tracker.update (.write block mods)) (takeMods found mods) reqs := by
          simp only [foldMany, hvisible, if_true]
        have hfind : ∀ k, findMap k tracker (.write block mods :: reqs)
            = ((mods.find? fun m => decide (m.entityRef = k)).map EntityModification.entity).elim
              (findMap k (tracker.update (.write block mods)) reqs)
              fun op => (some op, tracker.update (.write block mods)) := by
          intro k
          simp only [findMap, hvisible, if_true]
          rcases e : mods.find? (fun m => decide (m.entityRef = k)) with - | m <;> simp only [e] <;>
            rfl
        rw [hdef]
        refine ⟨hpart, ?_, ?_, ?_⟩
        · intro k
          rw [hkeys k, htkeys k, hfind k]
          rcases e : mods.find? (fun m => decide (m.entityRef = k)) with - | m <;> simp [e]
        · intro k hnone
          rw [hfind k] at hnone ⊢
          rcases e : mods.find? (fun m => decide (m.entityRef = k)) with - | m
          · simp only [e, Option.map_none] at hnone ⊢
            exact htracker k hnone
          · simp [e] at hnone
        · intro k entity
          rw [hfound k entity, htfound k entity, htkeys k, hfind k]
          rcases e : mods.find? (fun m => decide (m.entityRef = k)) with - | m <;> simp [e]
      · obtain ⟨hpart, hkeys, htracker, hfound⟩ := ih h (tracker.update (.write block mods))
        have hdef : foldMany tracker found (.write block mods :: reqs)
            = foldMany (tracker.update (.write block mods)) found reqs := by
          simp only [foldMany, hvisible, Bool.false_eq_true, if_false]
        have hfind : ∀ k, findMap k tracker (.write block mods :: reqs)
            = findMap k (tracker.update (.write block mods)) reqs := by
          intro k
          simp only [findMap, hvisible, Bool.false_eq_true, if_false]
        simp only [hdef, hfind]
        exact ⟨hpart, hkeys, htracker, hfound⟩
    · exact ih h (tracker.update (.revertTo block))
    · exact ih h (tracker.update .stop)

theorem extendResults_spec {map : List (EntityKey × Attributes)}
    {results : List (EntityKey × Option Attributes)} (hnd : (results.map Prod.fst).Nodup)
    (hdisj : ∀ key ∈ results.map Prod.fst, key ∉ map.map Prod.fst) :
    ∃ all, extendResults map results = .ok all
      ∧ ∀ key entity, (key, entity) ∈ all
        ↔ (key, entity) ∈ map ∨ (key, some entity) ∈ results := by
  induction results generalizing map with
  | nil => exact ⟨map, rfl, by simp⟩
  | cons r results ih =>
    obtain ⟨k, entity | entity⟩ := r
    · rw [List.map_cons, List.nodup_cons] at hnd
      obtain ⟨all, hall, hmem⟩ := ih hnd.2 fun key hkey => hdisj key (by simp [hkey])
      exact ⟨all, hall, fun key e => by rw [hmem]; simp⟩
    · rw [List.map_cons, List.nodup_cons] at hnd
      have hk : k ∉ map.map Prod.fst := hdisj k (by simp)
      have hnext : ∀ key ∈ results.map Prod.fst, key ∉ (map ++ [(k, entity)]).map Prod.fst := by
        intro key hkey
        rw [List.map_append, List.mem_append, not_or]
        refine ⟨hdisj key (by simp [hkey]), ?_⟩
        intro hmem
        obtain rfl : key = k := by simpa using hmem
        exact hnd.1 hkey
      obtain ⟨all, hall, hmem⟩ := ih hnd.2 hnext
      refine ⟨all, by rw [extendResults, if_neg hk, hall], ?_⟩
      intro key e
      rw [hmem, List.mem_append, or_assoc]
      simp [eq_comm]

/-- Looking up many entities is looking them up one by one, and the assertion holds. -/
theorem Queue.getMany_spec (layout : Layout) (q : Queue) (store : Deployment)
    (keys : List EntityKey) :
    ∃ all, q.getMany layout store keys = .ok all
      ∧ ∀ key entity, (key, entity) ∈ all
        ↔ key ∈ keys ∧ q.get layout store key = some entity := by
  have hstart : Partition (keys.dedup, []) := ⟨by simp, by simp⟩
  obtain ⟨hpart, hkeys, htracker, hfound⟩ := foldMany_spec hstart .new q.queue.reverse
  rcases hdef : foldMany .new (keys.dedup, []) q.queue.reverse with ⟨⟨rest, found⟩, tracker⟩
  rw [hdef] at hpart hkeys htracker hfound
  have hstored : ∀ key entity, (key, entity) ∈ store.getMany layout rest tracker.queryBlock
      ↔ key ∈ rest ∧ store.get layout key tracker.queryBlock = some entity := by
    intro key entity
    rw [Deployment.getMany, List.mem_filterMap]
    constructor
    · rintro ⟨k, hk, he⟩
      obtain ⟨e, he', hpair⟩ := Option.map_eq_some_iff.mp he
      obtain ⟨rfl, rfl⟩ := Prod.mk.inj hpair
      exact ⟨hk, he'⟩
    · rintro ⟨hk, he⟩
      exact ⟨key, hk, by rw [he]; rfl⟩
  have hdisj : ∀ key ∈ found.map Prod.fst,
      key ∉ (store.getMany layout rest tracker.queryBlock).map Prod.fst := by
    intro key hkey hmem
    obtain ⟨⟨k, e⟩, he, rfl⟩ := List.mem_map.mp hmem
    exact hpart.disjoint k ((hstored k e).mp he).1 hkey
  obtain ⟨all, hall, hmem⟩ := extendResults_spec hpart.nodup hdisj
  refine ⟨all, by rw [Queue.getMany, hdef]; exact hall, ?_⟩
  intro key entity
  rw [hmem, hstored, hfound, hkeys, List.mem_dedup, Queue.get]
  rcases e : findMap key .new q.queue.reverse with ⟨- | op, tracker'⟩
  · have ht := htracker key (by rw [e])
    rw [e] at ht
    obtain rfl : tracker' = tracker := ht
    simp
  · simp

end many

end SplitsSubgraph
