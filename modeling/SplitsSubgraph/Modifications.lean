/-
SplitsSubgraph/Modifications.lean

What `as_modifications` hands to the store at the end of a block.

The pending operations of the block are turned into modifications one by one, each
against the entity the store holds.  The comments of the source promise two things, that
no entity appears in more than one modification and that only what has to change is
changed; and the store relies on a third one, which nothing checks: an insertion is only
made of an entity that is not there (`EntityModification.Applicable`).  Applied to the
store, the modifications give what the handlers of the block saw in the end, and the
entities left in the cache are those of the store after the block.
-/
import SplitsSubgraph.CacheView

namespace SplitsSubgraph

open KeyedTable Overlay

/-! ### Applying modifications -/

namespace EntityModification

variable (schema : SchemaDocument)

/-- The entities after a modification. -/
def apply (entities : EntityKey → Option Attributes) (m : EntityModification) :
    EntityKey → Option Attributes :=
  Function.update entities m.entityRef (m.entityRef.norm schema m.entity)

/-- The entities after modifications one after the other. -/
def applyAll (entities : EntityKey → Option Attributes) (mods : List EntityModification) :
    EntityKey → Option Attributes :=
  mods.foldl (apply schema) entities

/-- Insertions are of entities that are not there, the others of entities that are. -/
def Applicable (entities : EntityKey → Option Attributes) : EntityModification → Prop
  | .insert key _ => entities key = none
  | .overwrite key _ | .remove key => (entities key).isSome

variable {schema} {entities : EntityKey → Option Attributes} {mods : List EntityModification}

theorem applyAll_concat (m : EntityModification) :
    applyAll schema entities (mods ++ [m]) = apply schema (applyAll schema entities mods) m := by
  simp [applyAll]

theorem applyAll_of_notMem {key : EntityKey} (h : key ∉ mods.map entityRef) :
    applyAll schema entities mods key = entities key := by
  induction mods using List.reverseRecOn with
  | nil => rfl
  | append_singleton mods m ih =>
    rw [List.map_append, List.mem_append, not_or] at h
    rw [applyAll_concat, apply, Function.update_of_ne (by simpa using h.2), ih h.1]

theorem applyAll_of_mem (hnd : (mods.map entityRef).Nodup) {m : EntityModification}
    (hm : m ∈ mods) :
    applyAll schema entities mods m.entityRef = m.entityRef.norm schema m.entity := by
  induction mods using List.reverseRecOn with
  | nil => simp at hm
  | append_singleton mods m' ih =>
    rw [List.map_append, List.nodup_append] at hnd
    rw [applyAll_concat, apply]
    rcases List.mem_append.mp hm with hold | hlast
    · have hne : m.entityRef ≠ m'.entityRef :=
        hnd.2.2 _ (List.mem_map_of_mem hold) _ (by simp)
      rw [Function.update_of_ne hne, ih hnd.1 hold]
    · obtain rfl : m = m' := by simpa using hlast
      rw [Function.update_self]

/-- Only the modifications of some keys. -/
theorem applyAll_filter (hnd : (mods.map entityRef).Nodup) (p : EntityKey → Bool)
    (key : EntityKey) :
    applyAll schema entities (mods.filter fun m => p m.entityRef) key
      = if p key then applyAll schema entities mods key else entities key := by
  have hsub : ((mods.filter fun m => p m.entityRef).map entityRef).Nodup :=
    hnd.sublist (List.filter_sublist.map _)
  by_cases hmem : key ∈ (mods.filter fun m => p m.entityRef).map entityRef
  · obtain ⟨m, hm, rfl⟩ := List.mem_map.mp hmem
    obtain ⟨hmods, hp⟩ := List.mem_filter.mp hm
    rw [applyAll_of_mem hsub hm, if_pos hp, applyAll_of_mem hnd hmods]
  · rw [applyAll_of_notMem hmem]
    by_cases hp : p key = true
    · rw [if_pos hp, applyAll_of_notMem]
      intro hin
      obtain ⟨m, hm, rfl⟩ := List.mem_map.mp hin
      exact hmem (List.mem_map_of_mem (List.mem_filter.mpr ⟨hm, hp⟩))
    · rw [if_neg hp]

end EntityModification

/-! ### One pending operation -/

namespace EntityCache

variable {schema : SchemaDocument} {key : EntityKey}

theorem isSome_of_norm_eq {e e' : Option Attributes} (h : key.norm schema e = e') :
    e.isSome = e'.isSome := by
  rw [← h]
  cases e <;> rfl

theorem row_empty_mergeRemoveNullFields {entityType : String} (u : Attributes) :
    (Attributes.mergeRemoveNullFields ∅ u).row schema entityType = u.row schema entityType := by
  apply Attributes.row_eq_row
  intro name
  rw [Attributes.lookup_mergeRemoveNullFields]
  rcases u.lookup name with - | value
  · simp
  · by_cases hnull : value.isNull
    · simp [hnull, Option.filter]
    · simp [hnull]

/-- What a pending operation comes to: the entity that is cached and the one that is
written are what the operation makes of the stored one, and nothing is written only if
the operation changes nothing. -/
theorem modification_spec {current stored : Option Attributes}
    (h : key.norm schema current = stored) (op : EntityOp) :
    (∀ entity, (modification key current op).1 = some entity →
        key.norm schema entity = key.norm schema (op.applyTo stored))
    ∧ ((modification key current op).1 = none → key.norm schema (op.applyTo stored) = none)
    ∧ (∀ m, (modification key current op).2 = some m →
        m.entityRef = key ∧ key.norm schema m.entity = key.norm schema (op.applyTo stored)
          ∧ ∀ entities : EntityKey → Option Attributes, entities key = stored →
            m.Applicable entities)
    ∧ ((modification key current op).2 = none → key.norm schema (op.applyTo stored) = stored) := by
  have hact := (EntityOp.lawful schema key).norm_act op current
  have hsome := isSome_of_norm_eq h
  rw [h] at hact
  rw [hact]
  rcases current with - | current
  · obtain rfl : stored = none := h.symm
    rcases op with - | u | u
    · exact ⟨nofun, fun _ => rfl, nofun, fun _ => rfl⟩
    all_goals
      refine ⟨?_, nofun, ?_, nofun⟩
      · rintro _ ⟨rfl⟩
        exact congrArg some (row_empty_mergeRemoveNullFields u)
      · rintro _ ⟨rfl⟩
        exact ⟨rfl, congrArg some (row_empty_mergeRemoveNullFields u), fun _ he => he⟩
  · rcases op with - | u | u
    · refine ⟨?_, nofun, ?_, nofun⟩
      · rintro _ ⟨rfl⟩
        rfl
      · rintro _ ⟨rfl⟩
        exact ⟨rfl, rfl, fun _ he => by rw [EntityModification.Applicable, he, ← hsome]; rfl⟩
    all_goals
      refine ⟨?_, nofun, ?_, ?_⟩
      · rintro _ ⟨rfl⟩
        rfl
      · intro m hm
        simp only [modification] at hm
        split at hm
        · cases hm
          exact ⟨rfl, rfl, fun _ he => by rw [EntityModification.Applicable, he, ← hsome]; rfl⟩
        · cases hm
      · intro hm
        simp only [modification] at hm
        split at hm
        · cases hm
        · rename_i hsame
          rw [← h]
          exact congrArg (key.norm schema ∘ some) (Decidable.not_not.mp hsame).symm

/-! ### The loop -/

open EntityModification

variable (env : EntityEnv) {store : ReadStore}

/-- The state of the loop of `as_modifications` while `rest` is still to do: the entities
as modified so far are `applyAll`, the cached entities are those, and the entities of the
operations still to do are the stored ones. -/
structure LoopInv (store : ReadStore) (mods : List EntityModification)
    (current : LfuCache EntityKey (Option Attributes))
    (rest : List (Sigma fun _ : EntityKey => EntityOp)) : Prop where
  valid : current.Valid
  noDeadWeight : current.deadWeight = false
  lookup : ∀ key entity, current.lookup key = some entity →
    key.norm store.inputSchema entity = applyAll store.inputSchema store.entities mods key
  ready : ∀ key ∈ rest.keys,
    key.norm store.inputSchema ((current.lookup key).bind id) = store.entities key
  keys : (mods.map entityRef ++ rest.keys).Nodup
  applicable : ∀ m ∈ mods, m.Applicable store.entities

section step

variable {mods : List EntityModification} {current : LfuCache EntityKey (Option Attributes)}
  {rest : List (Sigma fun _ : EntityKey => EntityOp)} {key : EntityKey} {op : EntityOp}

/-- The loop body, once the entity is out of the cache. -/
theorem modifyStep_eq {update : Sigma fun _ : EntityKey => EntityOp}
    {cached : Option (Option Attributes)} {cache' : LfuCache EntityKey (Option Attributes)}
    (hremove : current.remove env update.1 = .ok (cached, cache')) :
    modifyStep env (mods, current) update
      = .ok (mods ++ (modification update.1 (cached.bind id) update.2).2.toList,
        (modification update.1 (cached.bind id) update.2).1.elim cache'
          fun entity => cache'.insert env update.1 entity) := by
  rw [modifyStep, hremove]
  rcases h : modification update.1 (cached.bind id) update.2 with ⟨- | entity, m⟩ <;>
    simp only [bind, Except.bind, h, Option.elim_none, Option.elim_some] <;> rfl

/-- The entities after one more operation. -/
theorem applyAll_modification (h : LoopInv store mods current (⟨key, op⟩ :: rest)) :
    applyAll store.inputSchema store.entities
        (mods ++ (modification key ((current.lookup key).bind id) op).2.toList)
      = Function.update (applyAll store.inputSchema store.entities mods) key
          (key.norm store.inputSchema (op.applyTo (store.entities key))) := by
  have hready := h.ready key (by simp)
  obtain ⟨-, -, hmod, hnone⟩ := modification_spec hready op
  have hfresh : key ∉ mods.map entityRef := by
    intro hmem
    exact (List.nodup_append.mp h.keys).2.2 key hmem key (by simp) rfl
  rcases e : (modification key ((current.lookup key).bind id) op).2 with - | m
  · have hkeep : applyAll store.inputSchema store.entities mods key = store.entities key :=
      applyAll_of_notMem hfresh
    rw [Option.toList_none, List.append_nil, hnone e, ← hkeep, Function.update_eq_self]
  · obtain ⟨hkey, hentity, -⟩ := hmod m e
    rw [Option.toList_some, applyAll_concat, apply, hkey, hentity]

theorem LoopInv.step (h : LoopInv store mods current (⟨key, op⟩ :: rest)) :
    ∃ mods' current', modifyStep env (mods, current) ⟨key, op⟩ = .ok (mods', current')
      ∧ LoopInv store mods' current' rest
      ∧ applyAll store.inputSchema store.entities mods'
        = Function.update (applyAll store.inputSchema store.entities mods) key
            (key.norm store.inputSchema (op.applyTo (store.entities key))) := by
  have happly := applyAll_modification h
  have hready := h.ready key (by simp)
  obtain ⟨hcached, hgone, hmod, -⟩ := modification_spec hready op
  obtain ⟨hnd, hndrest, hdisj⟩ := List.nodup_append.mp h.keys
  rw [List.keys_cons, List.nodup_cons] at hndrest
  obtain ⟨cache', hremove, hvalid, hlookup⟩ := LfuCache.remove_spec env h.valid key
  have hdead := LfuCache.remove_deadWeight env hremove
  dsimp only at hdead
  set m := modification key ((current.lookup key).bind id) op with hm
  -- the cache after the loop body, whether the entity is cached or not
  have hafter : ∀ current',
      current' = m.1.elim cache' (fun entity => cache'.insert env key entity) →
      LoopInv store (mods ++ m.2.toList) current' rest := by
    intro current' hdef
    have hlookup' : ∀ k, current'.lookup k = if k = key then m.1 else current.lookup k := by
      intro k
      rw [hdef]
      rcases m.1 with - | entity
      · exact hlookup k
      · rw [Option.elim_some, LfuCache.lookup_insert, hlookup k]
        by_cases hk : k = key <;> simp [hk]
    refine ⟨?_, ?_, ?_, ?_, ?_, ?_⟩
    · rw [hdef]
      rcases m.1 with - | entity
      · exact hvalid
      · exact hvalid.insert env key entity
    · rw [hdef]
      rcases m.1 with - | entity
      · rw [Option.elim_none, hdead, h.noDeadWeight]
      · rw [Option.elim_some, LfuCache.insert_deadWeight, hdead, h.noDeadWeight]
    · intro k entity he
      rw [hlookup'] at he
      rw [happly]
      by_cases hk : k = key
      · subst hk
        rw [if_pos rfl] at he
        rw [Function.update_self]
        exact hcached entity he
      · rw [if_neg hk] at he
        rw [Function.update_of_ne hk]
        exact h.lookup k entity he
    · intro k hk
      have hne : k ≠ key := fun e => hndrest.1 (e ▸ hk)
      rw [hlookup', if_neg hne]
      exact h.ready k (by simp [hk])
    · rw [List.map_append, List.append_assoc]
      refine List.nodup_append.mpr ⟨hnd, ?_, ?_⟩
      · rcases e : m.2 with - | m'
        · simpa using hndrest.2
        · simpa [(hmod m' e).1] using hndrest
      · intro a ha b hb
        apply hdisj a ha b
        rcases e : m.2 with - | m'
        · rw [e] at hb
          simp only [Option.toList_none, List.map_nil, List.nil_append] at hb
          simp [hb]
        · rw [e] at hb
          simpa [(hmod m' e).1] using hb
    · intro m' hm'
      rcases List.mem_append.mp hm' with hold | hnew
      · exact h.applicable m' hold
      · exact (hmod m' (Option.mem_toList.mp hnew)).2.2 store.entities rfl
  exact ⟨mods ++ m.2.toList, _, modifyStep_eq env hremove, hafter _ rfl, happly⟩

end step

/-- The whole loop. -/
theorem LoopInv.run {rest : List (Sigma fun _ : EntityKey => EntityOp)}
    {mods : List EntityModification} {current : LfuCache EntityKey (Option Attributes)}
    (h : LoopInv store mods current rest) :
    ∃ mods' current', rest.foldlM (modifyStep env) (mods, current) = .ok (mods', current')
      ∧ LoopInv store mods' current' []
      ∧ ∀ key, applyAll store.inputSchema store.entities mods' key
        = match rest.dlookup key with
          | some op => key.norm store.inputSchema (op.applyTo (store.entities key))
          | none => applyAll store.inputSchema store.entities mods key := by
  induction rest generalizing mods current with
  | nil => exact ⟨mods, current, rfl, h, fun _ => rfl⟩
  | cons e rest ih =>
    obtain ⟨key, op⟩ := e
    have hnot : key ∉ rest.keys := by
      have hnd := (List.nodup_append.mp h.keys).2.1
      rw [List.keys_cons, List.nodup_cons] at hnd
      exact hnd.1
    obtain ⟨mods₁, current₁, hstep, hinv₁, happly₁⟩ := h.step env
    obtain ⟨mods', current', hrun, hinv', happly'⟩ := ih hinv₁
    refine ⟨mods', current', ?_, hinv', ?_⟩
    · rw [List.foldlM_cons, hstep]
      exact hrun
    · intro k
      rw [happly' k, happly₁]
      by_cases hk : k = key
      · subst hk
        rw [List.dlookup_eq_none.mpr hnot, List.dlookup_cons_eq]
        exact Function.update_self k _ _
      · rw [List.dlookup_cons_ne _ _ hk, Function.update_of_ne hk]

/-! ### Looking up what is not cached -/

section lookups

variable {cache : LfuCache EntityKey (Option Attributes)}

theorem agrees_foldl_insert (h : cache.Agrees store) {found : List (EntityKey × Attributes)}
    (hfound : ∀ e ∈ found, store.get e.1 = some e.2) :
    (found.foldl (fun cache e => cache.insert env e.1 (some e.2)) cache).Agrees store := by
  induction found generalizing cache with
  | nil => exact h
  | cons e found ih =>
    rw [List.foldl_cons]
    apply ih
    · apply h.insert env
      rw [← hfound e (by simp)]
      rfl
    · exact fun e' he' => hfound e' (by simp [he'])

theorem lookup_foldl_insert_isSome {found : List (EntityKey × Attributes)} {key : EntityKey}
    (h : key ∈ found.map Prod.fst ∨ (cache.lookup key).isSome) :
    ((found.foldl (fun cache e => cache.insert env e.1 (some e.2)) cache).lookup key).isSome := by
  induction found generalizing cache with
  | nil => simpa using h
  | cons e found ih =>
    rw [List.foldl_cons]
    apply ih
    by_cases hk : key = e.1
    · right
      rw [LfuCache.lookup_insert, if_pos hk]
      rfl
    · rw [LfuCache.lookup_insert, if_neg hk]
      simpa [hk] using h

theorem foldl_insert_deadWeight (found : List (EntityKey × Attributes)) :
    (found.foldl (fun cache e => cache.insert env e.1 (some e.2)) cache).deadWeight
      = cache.deadWeight := by
  induction found generalizing cache with
  | nil => rfl
  | cons e found ih => rw [List.foldl_cons, ih, LfuCache.insert_deadWeight]

/-- Once the missing entities are looked up, every updated entity is known. -/
theorem loopInv_init {c : EntityCache} (h : c.current.Agrees store)
    (hdead : c.current.deadWeight = false)
    (himmutable : ∀ key ∈ c.updates, store.isImmutable key.entityType = true →
      store.get key = none) :
    LoopInv store [] ((store.getMany (c.missing store)).foldl
      (fun current e => current.insert env e.1 (some e.2)) c.current) c.updates.entries := by
  have hfound : ∀ e ∈ store.getMany (c.missing store), store.get e.1 = some e.2 :=
    fun e he => ((store.mem_getMany _ e.1 e.2).mp he).2
  have hagrees := agrees_foldl_insert env h hfound
  refine ⟨hagrees.valid, ?_, hagrees.lookup, ?_, c.updates.nodupKeys, by simp⟩
  · rw [foldl_insert_deadWeight, hdead]
  · intro key hkey
    set cache := (store.getMany (c.missing store)).foldl
      (fun current e => current.insert env e.1 (some e.2)) c.current with hcache
    rcases e : cache.lookup key with - | entity
    · -- a stored entity that is updated and not cached would have been looked up
      rw [ReadStore.entities]
      rcases hstored : store.get key with - | entity
      · rfl
      · exfalso
        have hunknown : ¬ (key ∈ (store.getMany (c.missing store)).map Prod.fst
            ∨ (c.current.lookup key).isSome) := by
          intro hknown
          have hsome : (cache.lookup key).isSome := lookup_foldl_insert_isSome env hknown
          rw [e] at hsome
          simp at hsome
        rw [not_or] at hunknown
        have hmutable : store.isImmutable key.entityType = false := by
          by_contra himm
          have hnone := himmutable key hkey (by simpa using himm)
          rw [hstored] at hnone
          simp at hnone
        have hmissing : key ∈ c.missing store := by
          rw [missing, List.mem_filter, List.mem_filter]
          refine ⟨⟨hkey, ?_⟩, by rw [hmutable]; rfl⟩
          rw [LfuCache.containsKey_eq, Bool.not_eq_true', ← Bool.not_eq_true]
          exact hunknown.2
        apply hunknown.1
        exact List.mem_map.mpr
          ⟨_, (store.mem_getMany _ key entity).mpr ⟨hmissing, hstored⟩, rfl⟩
    · exact hagrees.lookup key entity e

end lookups

/-! ### The end of a block -/

/-- **The modifications of a block.**  At the end of a block, with the handlers done, no
panic is possible; no entity appears in two modifications; each one is applicable to the
store; applied to the store they give every entity as the block left it; and the cached
entities are those of the store after the modifications.  (Immutable entities that are
written must be new, which the source assumes.) -/
theorem asModifications_spec {c : EntityCache} {s : Session} (h : c.Refines store s)
    (hs : s.entered = none) (hdead : c.current.deadWeight = false)
    (himmutable : ∀ key ∈ c.updates, store.isImmutable key.entityType = true →
      store.get key = none) (entityCacheSize : ℕ) :
    ∃ mods current, c.asModifications env store entityCacheSize = .ok (mods, current)
      ∧ (mods.map entityRef).Nodup
      ∧ (∀ m ∈ mods, m.Applicable store.entities)
      ∧ applyAll store.inputSchema store.entities mods = s.entities
      ∧ current.deadWeight = false
      ∧ ∀ store' : ReadStore, store'.inputSchema = store.inputSchema →
        store'.entities = s.entities →
        current.Agrees store' := by
  have hout : c.inHandler = false := by rw [h.inHandler_eq, hs]; rfl
  obtain ⟨mods, current, hrun, hinv, happly⟩ :=
    (loopInv_init env h.agrees hdead himmutable).run env
  have hentities : applyAll store.inputSchema store.entities mods = s.entities := by
    funext key
    have hview := h.view_eq key
    rw [view, h.handlerUpdates_eq hs, read_empty, blockView, Overlay.read] at hview
    rw [happly key, ← hview]
    have hlookup : c.updates.entries.dlookup key = c.updates.lookup key := rfl
    rw [hlookup]
    rcases c.updates.lookup key with - | op
    · rfl
    · exact (EntityOp.lawful store.inputSchema key).norm_act op (store.get key)
  -- the store after the block, as far as the cache is concerned
  have hagrees : ∀ store' : ReadStore, store'.inputSchema = store.inputSchema →
      store'.entities = s.entities → current.Agrees store' := by
    intro store' hschema hget
    refine ⟨hinv.valid, ?_⟩
    intro key entity he
    rw [hschema, hget, ← hentities]
    exact hinv.lookup key entity he
  have hlast : (mods.map entityRef).Nodup := by simpa using hinv.keys
  have hzero : current.deadWeightOf env = 0 := by
    simp [LfuCache.deadWeightOf, hinv.noDeadWeight]
  have hdef : c.asModifications env store entityCacheSize
      = (current.evict env entityCacheSize).map fun r => (mods, r.2) := by
    rw [asModifications, hout]
    show (List.foldlM (modifyStep env) _ c.updates.entries >>= _) = _
    rw [hrun]
    show (current.evict env entityCacheSize >>= _) = _
    rcases current.evict env entityCacheSize with e | r <;> rfl
  rcases LfuCache.evictWithPeriod_spec env hinv.valid entityCacheSize STALE_PERIOD with
    ⟨-, hok⟩ | ⟨-, hbig, -⟩ | ⟨-, -, cache', hvalid, hev, hflag, hok⟩
  · refine ⟨mods, current, ?_, hlast, hinv.applicable, hentities, hinv.noDeadWeight, hagrees⟩
    rw [hdef, LfuCache.evict, hok]
    rfl
  · omega
  · refine ⟨mods, cache', ?_, hlast, hinv.applicable, hentities,
      by rw [hflag, hinv.noDeadWeight], ?_⟩
    · rw [hdef, LfuCache.evict, hok]
      rfl
    · intro store' hschema hget
      refine ⟨hvalid, ?_⟩
      intro key entity he
      exact (hagrees store' hschema hget).lookup key entity
        (LfuCache.lookup_of_evictedFrom hev he)

end EntityCache

end SplitsSubgraph
