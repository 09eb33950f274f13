/-
SplitsSubgraph/BlockRuns.lean

A block processed through the entity cache is the block on plain entities.

Handlers run alike (HostRuns.lean), hence triggers do, and the update of the proof of
indexing.  At the end of the block the modifications make of the entities in the store those
that `plainBlock` gives, the cache is up to date with them, and they can be written
(`processBlock_agree`, `Delivers`).  After a fatal error this holds too: the one modification
that is kept is that of the proof of indexing, and the assertion that there is one holds
exactly if the digest has changed.
-/
import SplitsSubgraph.HostRuns
import SplitsSubgraph.Runner

namespace SplitsSubgraph

open KeyedTable Overlay Interaction EntityModification

/-- The handlers set only what the store keeps, and leave the proof of indexing alone. -/
def Manifest.Proper {τ : Type} (schema : SchemaDocument) (manifest : Manifest τ) : Prop :=
  ∀ host ∈ manifest.hosts, ∀ trigger handler, host trigger = some handler →
    handler.Always (HostCall.Proper schema)

variable {τ H : Type} (env : EntityEnv) {store : ReadStore} (hashers : Hashers H)

/-! ### Triggers -/

section triggers

variable {s : BlockState EntityCache H} {t : BlockState Entities H} {manifest : Manifest τ}

theorem processTrigger_agree (hstore : store.Normal) (hproper : manifest.Proper store.inputSchema)
    (h : Follows store ⟨t.entities, none⟩ s t) (trigger : τ) :
    Agree (fun s t => Follows store ⟨t.entities, none⟩ s t)
      (SubgraphTriggerProcessor.processTrigger hashers
        (WasmInstance.invokeHandler env store hashers) manifest.hosts s trigger)
      (SubgraphTriggerProcessor.processTrigger hashers
        (plainInvoke store.inputSchema hashers) manifest.hosts t trigger) := by
  unfold SubgraphTriggerProcessor.processTrigger
  by_cases hempty : (manifest.hosts.filterMap fun host => host trigger).isEmpty = true
  · simp only [hempty, if_true]
    exact h
  · simp only [hempty, Bool.false_eq_true, if_false]
    -- all handlers of the trigger, then the check for errors
    refine Agree.bind (Agree.foldlM (R := fun s t => Follows store ⟨t.entities, none⟩ s t) ?_ ?_) ?_
    · intro handler hhandler s t h
      obtain ⟨host, hhost, hmatch⟩ := List.mem_filterMap.mp hhandler
      exact invokeHandler_agree env hashers hstore (hproper host hhost trigger handler hmatch) h
    · exact ⟨h.refines, h.normal, h.noDeadWeight, h.errors, by rw [h.proofOfIndexing], h.logger⟩
    · intro s' t' h'
      rw [h.errors, h'.errors]
      split
      · exact h'
      · split
        · exact ⟨h'.refines, h'.normal, h'.noDeadWeight, rfl, by rw [h'.proofOfIndexing],
            h'.logger⟩
        · rfl

theorem processTriggers_agree (hstore : store.Normal)
    (hproper : manifest.Proper store.inputSchema)
    (h : Follows store ⟨t.entities, none⟩ s t) (triggers : List τ) :
    Agree (fun s t => Follows store ⟨t.entities, none⟩ s t)
      (processTriggers hashers (WasmInstance.invokeHandler env store hashers) manifest.hosts s
        triggers)
      (processTriggers hashers (plainInvoke store.inputSchema hashers) manifest.hosts t
        triggers) :=
  Agree.foldlM (fun trigger _ _ _ h => processTrigger_agree env hashers hstore hproper h trigger) h

end triggers

/-! ### The proof of indexing -/

section poi

variable {network : String} {entities : Entities}

theorem lookup_poiEntity (key : EntityKey) (digest name : String) :
    (poiEntity key digest).lookup name
      = if name = "id" then some (.string key.entityId)
        else if name = "digest" then some (.string digest) else none := by
  rw [poiEntity, lookup_insert_eq_if, lookup_insert_eq_if]
  simp

theorem poiEntity_sound (schema : SchemaDocument) (network digest : String) :
    (poiEntity (poiKey network) digest).Sound schema (poiKey network) := by
  have hcolumns : schema.tableColumns POI_OBJECT = [⟨"digest", false⟩, ⟨"id", false⟩] := by
    simp [SchemaDocument.tableColumns]
  refine ⟨Or.inl rfl, ?_, ?_, ?_, fun _ => ⟨digest, ?_⟩⟩
  · rw [Attributes.normal_iff]
    intro name value hlookup
    rw [lookup_poiEntity] at hlookup
    show name ∈ (schema.tableColumns POI_OBJECT).map Column.field ∧ _
    rw [hcolumns]
    by_cases hid : name = "id"
    · rw [if_pos hid, Option.some.injEq] at hlookup
      simp [hid, ← hlookup, Value.isNull]
    · rw [if_neg hid] at hlookup
      by_cases hdigest : name = "digest"
      · rw [if_pos hdigest, Option.some.injEq] at hlookup
        simp [hdigest, ← hlookup, Value.isNull]
      · simp [hdigest] at hlookup
  · intro column hcolumn _
    change column ∈ schema.tableColumns POI_OBJECT at hcolumn
    rw [hcolumns] at hcolumn
    rw [lookup_poiEntity]
    rcases List.mem_pair.mp hcolumn with rfl | rfl <;> simp
  · rw [lookup_poiEntity, if_pos rfl]
  · rw [lookup_poiEntity]
    simp

/-- Setting the proof of indexing always succeeds. -/
theorem set_poiEntity (schema : SchemaDocument) (entities : Entities) (network digest : String) :
    EntityCache.checkId schema (poiKey network) (poiEntity (poiKey network) digest)
        = .ok (poiEntity (poiKey network) digest)
      ∧ entities.set schema (poiKey network) (poiEntity (poiKey network) digest)
        = .ok (Function.update entities (poiKey network)
            (some (entities.merged (poiKey network) (poiEntity (poiKey network) digest)))) := by
  have hid : EntityCache.checkId schema (poiKey network) (poiEntity (poiKey network) digest)
      = .ok (poiEntity (poiKey network) digest) := by
    simp [EntityCache.checkId, (poiEntity_sound schema network digest).id]
  refine ⟨hid, ?_⟩
  simp only [Entities.set, hid]
  rfl

theorem updateProofOfIndexing_agree (hstore : store.Normal) {c : EntityCache}
    (href : c.Refines store ⟨entities, none⟩) (hnormal : c.Normal store.inputSchema)
    (hdead : c.current.deadWeight = false) (poi : ProofOfIndexing H) :
    Agree (fun (c : EntityCache) entities => c.Refines store ⟨entities, none⟩
        ∧ c.Normal store.inputSchema ∧ c.current.deadWeight = false)
      (updateProofOfIndexing env store hashers network poi c)
      (plainProofOfIndexing store.inputSchema hashers network poi entities) := by
  unfold updateProofOfIndexing plainProofOfIndexing
  rcases poi.perCausalityRegion with - | stream
  · exact ⟨href, hnormal, hdead⟩
  · have hget := href.get_eq env hnormal hstore (poiKey network)
    have hrefines := href.getCache env (poiKey network)
    have hread := (hnormal.get env hstore (poiKey network)).2
    have hflag := EntityCache.get_deadWeight env store c (poiKey network)
    dsimp only at hget ⊢
    rw [hget]
    set c' := (c.get env store (poiKey network)).2
    rcases hprev : prevPoi (entities (poiKey network)) with e | prev
    · rfl
    · obtain ⟨hid, hset⟩ :=
        set_poiEntity store.inputSchema entities network (stream.pause hashers prev)
      have hdata : ∀ e, EntityCache.checkId store.inputSchema (poiKey network)
          (poiEntity (poiKey network) (stream.pause hashers prev)) = .ok e →
          e.Normal store.inputSchema (poiKey network).entityType := by
        intro e he
        obtain rfl := Except.ok.inj (hid.symm.trans he)
        exact (poiEntity_sound store.inputSchema network _).normal
      obtain ⟨c'', hc'', href''⟩ := (hrefines.set_spec env hread hstore hdata).1 _ hset
      have hnormal'' := hread.set env hstore hdata
      have hdead'' := EntityCache.set_deadWeight env store c' (poiKey network)
        (poiEntity (poiKey network) (stream.pause hashers prev))
      rw [hc''] at hnormal'' hdead''
      simp only [bind, Except.bind, hc'', hset]
      exact ⟨href'', hnormal'', hdead''.trans (hflag.trans hdead)⟩

/-- What the update comes to. -/
theorem plainProofOfIndexing_eq_ok {schema : SchemaDocument} {entities' : Entities}
    {poi : ProofOfIndexing H}
    (h : plainProofOfIndexing schema hashers network poi entities = .ok entities') :
    entities' = entities ∨ ∃ digest, entities' = Function.update entities (poiKey network)
      (some (entities.merged (poiKey network) (poiEntity (poiKey network) digest))) := by
  unfold plainProofOfIndexing at h
  rcases hregion : poi.perCausalityRegion with - | stream
  · simp only [hregion] at h
    exact Or.inl (Except.ok.inj h).symm
  · rcases hprev : prevPoi (entities (poiKey network)) with e | prev
    · simp only [hregion, hprev] at h
      cases h
    · simp only [hregion, hprev, bind, Except.bind,
        (set_poiEntity schema entities network (stream.pause hashers prev)).2] at h
      exact Or.inr ⟨stream.pause hashers prev, (Except.ok.inj h).symm⟩

theorem plainProofOfIndexing_sound {schema : SchemaDocument} {entities' : Entities}
    {poi : ProofOfIndexing H} (h : entities.Sound schema)
    (hrun : plainProofOfIndexing schema hashers network poi entities = .ok entities') :
    entities'.Sound schema := by
  rcases plainProofOfIndexing_eq_ok hashers hrun with rfl | ⟨digest, rfl⟩
  · exact h
  · exact h.update (h.merged (poiEntity_sound schema network digest))

theorem plainProofOfIndexing_of_ne {schema : SchemaDocument} {entities' : Entities}
    {poi : ProofOfIndexing H}
    (hrun : plainProofOfIndexing schema hashers network poi entities = .ok entities')
    {key : EntityKey} (hkey : key ≠ poiKey network) : entities' key = entities key := by
  rcases plainProofOfIndexing_eq_ok hashers hrun with rfl | ⟨digest, rfl⟩
  · rfl
  · exact Function.update_of_ne hkey _ _

/-- With sound entities the digest is there. -/
theorem plainProofOfIndexing_ok {schema : SchemaDocument} (poi : ProofOfIndexing H)
    (h : entities.Sound schema) :
    ∃ entities', plainProofOfIndexing schema hashers network poi entities = .ok entities' := by
  unfold plainProofOfIndexing
  rcases poi.perCausalityRegion with - | stream
  · exact ⟨entities, rfl⟩
  · have hprev : ∃ prev, prevPoi (entities (poiKey network)) = .ok prev := by
      unfold prevPoi
      rcases hold : entities (poiKey network) with - | old
      · exact ⟨none, rfl⟩
      · obtain ⟨digest, hdigest⟩ := (h _ old hold).digest rfl
        simp only [hdigest]
        exact ⟨some digest, rfl⟩
    obtain ⟨prev, hprev⟩ := hprev
    simp only [hprev, bind, Except.bind,
      (set_poiEntity schema entities network (stream.pause hashers prev)).2]
    exact ⟨_, rfl⟩

end poi

/-! ### Triggers on plain entities -/

section plain

variable {schema : SchemaDocument} {manifest : Manifest τ}

/-- What a trigger comes to: nothing if no host matches it; else all its handlers, and a mark in
the proof of indexing if one of them has failed. -/
theorem processTrigger_eq_ok {S : Type} {hosts : List (τ → Option Handler)}
    {invoke : Handler → BlockState S H → Except ProcessError (BlockState S H)}
    {s s' : BlockState S H} {trigger : τ}
    (h : SubgraphTriggerProcessor.processTrigger hashers invoke hosts s trigger = .ok s') :
    (hosts.filterMap (fun host => host trigger) = [] ∧ s' = s)
    ∨ ∃ s₁, (hosts.filterMap fun host => host trigger).foldlM
          (fun s handler => invoke handler s)
          { s with proofOfIndexing := s.proofOfIndexing.startHandler hashers } = .ok s₁
      ∧ ((s₁.deterministicErrors.length = s.deterministicErrors.length ∧ s' = s₁)
        ∨ (s₁.deterministicErrors.length = s.deterministicErrors.length + 1
          ∧ s' = { s₁ with
            proofOfIndexing := s₁.proofOfIndexing.writeDeterministicError hashers })) := by
  unfold SubgraphTriggerProcessor.processTrigger at h
  dsimp only at h
  split at h
  · rename_i hempty
    exact Or.inl ⟨List.isEmpty_iff.mp hempty, (Except.ok.inj h).symm⟩
  · rcases hall : (hosts.filterMap fun host => host trigger).foldlM
        (fun s handler => invoke handler s)
        { s with proofOfIndexing := s.proofOfIndexing.startHandler hashers } with e | s₁
    · rw [hall] at h
      cases h
    · rw [hall] at h
      simp only [bind, Except.bind] at h
      refine Or.inr ⟨s₁, hall, ?_⟩
      split at h
      · rename_i hsame
        exact Or.inl ⟨hsame, (Except.ok.inj h).symm⟩
      · split at h
        · rename_i hone
          exact Or.inr ⟨hone, (Except.ok.inj h).symm⟩
        · cases h

/-- What every handler keeps of the entities, the triggers of a block keep. -/
theorem processTriggers_invariant {S : Type} {hosts : List (τ → Option Handler)}
    {invoke : Handler → BlockState S H → Except ProcessError (BlockState S H)} {I : S → Prop}
    (hinvoke : ∀ host ∈ hosts, ∀ trigger handler, host trigger = some handler →
      ∀ s s', I s.entities → invoke handler s = .ok s' → I s'.entities)
    {triggers : List τ} {s s' : BlockState S H} (h : I s.entities)
    (hrun : processTriggers hashers invoke hosts s triggers = .ok s') : I s'.entities := by
  refine foldlM_invariant (I := fun s => I s.entities) ?_ h hrun
  intro trigger _ s s' hs hone
  rcases processTrigger_eq_ok hashers hone with ⟨-, rfl⟩ | ⟨s₁, hall, hcheck⟩
  · exact hs
  · have hI : I s₁.entities := by
      refine foldlM_invariant (I := fun s => I s.entities) ?_ ?_ hall
      · intro handler hhandler s s' hs hone
        obtain ⟨host, hhost, hmatch⟩ := List.mem_filterMap.mp hhandler
        exact hinvoke host hhost trigger handler hmatch s s' hs hone
      · exact hs
    rcases hcheck with ⟨-, rfl⟩ | ⟨-, rfl⟩ <;> exact hI

theorem processTriggers_sound (hschema : schema.Lawful) (hproper : manifest.Proper schema)
    {triggers : List τ} {t t' : BlockState Entities H} (h : t.entities.Sound schema)
    (hrun : processTriggers hashers (plainInvoke schema hashers) manifest.hosts t triggers
      = .ok t') : t'.entities.Sound schema :=
  processTriggers_invariant hashers (I := Entities.Sound schema)
    (fun host hhost trigger handler hmatch _ _ hs hone =>
      plainInvoke_sound hschema hashers (hproper host hhost trigger handler hmatch) hs hone) h hrun

theorem processTriggers_poi (hproper : manifest.Proper schema) {triggers : List τ}
    {t t' : BlockState Entities H}
    (hrun : processTriggers hashers (plainInvoke schema hashers) manifest.hosts t triggers
      = .ok t') {key : EntityKey} (hkey : key.entityType = POI_OBJECT) :
    t'.entities key = t.entities key :=
  processTriggers_invariant hashers (I := fun entities => entities key = t.entities key)
    (fun host hhost trigger handler hmatch _ _ hs hone =>
      (plainInvoke_poi hashers (hproper host hhost trigger handler hmatch) hone hkey).trans hs)
    rfl hrun

/-- **A block leaves entities that can be written.** -/
theorem plainBlock_sound (hschema : schema.Lawful) (hproper : manifest.Proper schema) {block : ℤ}
    {triggers : List τ} {entities entities' : Entities} {error : Option String}
    (h : entities.Sound schema)
    (hrun : plainBlock schema hashers manifest block triggers entities = .ok (entities', error)) :
    entities'.Sound schema := by
  unfold plainBlock at hrun
  rcases htriggers : processTriggers hashers (plainInvoke schema hashers) manifest.hosts
      (.new entities block) triggers with e | state
  · simp only [htriggers] at hrun
    cases hrun
  · have hsound := processTriggers_sound hashers hschema hproper h htriggers
    rcases hpoi : plainProofOfIndexing schema hashers manifest.network state.proofOfIndexing
        state.entities with e | after
    · simp only [htriggers, hpoi, bind, Except.bind] at hrun
      cases hrun
    · have hafter := plainProofOfIndexing_sound hashers hsound hpoi
      simp only [htriggers, hpoi, bind, Except.bind] at hrun
      split at hrun
      · split at hrun
        · cases hrun
        · obtain ⟨rfl, -⟩ := Prod.mk.inj (Except.ok.inj hrun)
          intro key e he
          by_cases hkey : key.entityType = POI_OBJECT
          · simp only [hkey, if_true] at he
            exact hafter key e he
          · simp only [hkey, if_false] at he
            exact h key e he
      · obtain ⟨rfl, -⟩ := Prod.mk.inj (Except.ok.inj hrun)
        exact hafter

end plain

/-! ### Blocks -/

/-- The modifications make of the entities in the store those after the block, without writing
one twice or writing what is there already, and the cache is up to date with them. -/
structure Delivers (store : ReadStore) (entities : Entities) (out : BlockOutcome) : Prop where
  nodup : (out.mods.map entityRef).Nodup
  applicable : ∀ m ∈ out.mods, m.Applicable store.entities
  applyAll_eq : applyAll store.inputSchema store.entities out.mods = entities
  normal : ∀ m ∈ out.mods, m.entityRef.norm store.inputSchema m.entity = m.entity
  cacheNormal : out.cache.Normal store.inputSchema
  noDeadWeight : out.cache.deadWeight = false
  agrees : ∀ store' : ReadStore, store'.inputSchema = store.inputSchema →
    store'.entities = entities → out.cache.Agrees store'

section blocks

variable {manifest : Manifest τ} {cache : LfuCache EntityKey (Option Attributes)}

/-- What is kept after a fatal error. -/
theorem fatal_mods {mods : List EntityModification} {after : Entities} {network : String}
    (hnd : (mods.map entityRef).Nodup)
    (happly : applyAll store.inputSchema store.entities mods = after)
    (hmods : ∀ m ∈ mods, m.entityRef.norm store.inputSchema m.entity = m.entity
      ∧ m.entity ≠ store.get m.entityRef) (hstore : store.Normal)
    (hothers : ∀ key, key.entityType = POI_OBJECT → key ≠ poiKey network →
      after key = store.get key) :
    (mods.filter isPoi).length = 1 ↔ after (poiKey network) ≠ store.get (poiKey network) := by
  have hentity : ∀ m ∈ mods, after m.entityRef = m.entity := by
    intro m hm
    rw [← happly, applyAll_of_mem hnd hm, (hmods m hm).1]
  -- no other entity of this type has a modification
  have honly : ∀ m ∈ mods.filter isPoi, m.entityRef = poiKey network := by
    intro m hm
    obtain ⟨hm, hpoi⟩ := List.mem_filter.mp hm
    by_contra hne
    apply (hmods m hm).2
    rw [← hentity m hm]
    exact hothers m.entityRef (of_decide_eq_true hpoi) hne
  constructor
  · intro hlength
    obtain ⟨m, hm⟩ := List.length_eq_one_iff.mp hlength
    have hmem : m ∈ mods.filter isPoi := by simp [hm]
    have hm' := (List.mem_filter.mp hmem).1
    rw [← honly m hmem, hentity m hm']
    exact (hmods m hm').2
  · intro hchanged
    have hmem : poiKey network ∈ mods.map entityRef := by
      by_contra hnot
      apply hchanged
      rw [← happly, applyAll_of_notMem hnot]
      exact hstore (poiKey network)
    obtain ⟨m, hm, hkey⟩ := List.mem_map.mp hmem
    have hm' : m ∈ mods.filter isPoi :=
      List.mem_filter.mpr ⟨hm, by rw [isPoi, hkey]; rfl⟩
    have hsame : ((mods.filter isPoi).map entityRef) = List.replicate _ (poiKey network) :=
      List.eq_replicate_of_mem fun key hkey => by
        obtain ⟨m', hm', rfl⟩ := List.mem_map.mp hkey
        exact honly m' hm'
    have hnd' : ((mods.filter isPoi).map entityRef).Nodup :=
      hnd.sublist (List.filter_sublist.map _)
    rw [hsame, List.nodup_replicate, List.length_map] at hnd'
    have hpos := List.length_pos_of_mem hm'
    omega

/-- The state at the beginning of a block. -/
theorem follows_new (hstore : store.Normal) (hagrees : cache.Agrees store)
    (hnormal : cache.Normal store.inputSchema) (hdead : cache.deadWeight = false) (block : ℤ) :
    Follows store ⟨(.new store.get block : BlockState Entities H).entities, none⟩
      (.new (.withCurrent cache) block : BlockState EntityCache H) (.new store.get block) := by
  have hget : store.entities = store.get := funext hstore
  refine ⟨?_, EntityCache.normal_withCurrent hnormal, hdead, rfl, rfl, rfl⟩
  show EntityCache.Refines store _ ⟨store.get, none⟩
  rw [← hget]
  exact EntityCache.Refines.withCurrent hagrees

/-- **A block is the block on plain entities**, whatever the cache has kept of the blocks
before, and however much it keeps of this one: both fail alike, or the modifications make of
the stored entities those that the plain block gives. -/
theorem processBlock_agree (hstore : store.Normal) (hproper : manifest.Proper store.inputSchema)
    (himmutable : ∀ entityType, store.isImmutable entityType = false)
    (hagrees : cache.Agrees store) (hnormal : cache.Normal store.inputSchema)
    (hdead : cache.deadWeight = false) (entityCacheSize : ℕ) (block : ℤ) (triggers : List τ) :
    Agree (fun out after => out.error = after.2 ∧ Delivers store after.1 out)
      (processBlock env store hashers entityCacheSize manifest cache block triggers)
      (plainBlock store.inputSchema hashers manifest block triggers store.get) := by
  have hget : store.entities = store.get := funext hstore
  unfold processBlock plainBlock
  refine (processTriggers_agree env hashers hstore hproper
    (follows_new hstore hagrees hnormal hdead block) triggers).results.bind ?_
  rintro s t ⟨h, -, htriggers⟩
  rw [h.proofOfIndexing, h.errors]
  refine (updateProofOfIndexing_agree env hashers hstore h.refines h.normal h.noDeadWeight
    t.proofOfIndexing).results.bind ?_
  rintro c after ⟨⟨href, hc, hcdead⟩, -, hpoi⟩
  -- the end of the block
  have himm : ∀ key ∈ c.updates, store.isImmutable key.entityType = true →
      store.get key = none := by
    intro key _ hkey
    rw [himmutable] at hkey
    cases hkey
  obtain ⟨mods, cache', hmods, hnd, happlicable, happly, hflag, hnext⟩ :=
    EntityCache.asModifications_spec env href rfl hcdead himm entityCacheSize
  obtain ⟨hmodsNormal, hcacheNormal⟩ :=
    hc.asModifications env hstore href.agrees hcdead himm hmods
  have hall : Delivers store after ⟨mods, cache', none⟩ :=
    ⟨hnd, happlicable, happly, fun m hm => (hmodsNormal m hm).1, hcacheNormal, hflag, hnext⟩
  simp only [hmods, Except.mapError, bind, Except.bind]
  split
  · rename_i error hfatal
    -- entities of the proof of indexing of other networks are as before
    have hothers : ∀ key, key.entityType = POI_OBJECT → key ≠ poiKey manifest.network →
        after key = store.get key := by
      intro key hkey hne
      rw [plainProofOfIndexing_of_ne hashers hpoi hne]
      exact processTriggers_poi hashers hproper htriggers hkey
    have hone := fatal_mods hnd happly hmodsNormal hstore hothers
    by_cases hchanged : after (poiKey manifest.network) = store.get (poiKey manifest.network)
    · rw [if_neg (by rw [hone]; exact not_not.mpr hchanged), if_pos hchanged]
      rfl
    · rw [if_pos (hone.mpr hchanged), if_neg hchanged]
      refine ⟨rfl, hnd.sublist (List.filter_sublist.map _), ?_, ?_, ?_, ?_, rfl, ?_⟩
      · exact fun m hm => happlicable m (List.mem_of_mem_filter hm)
      · funext key
        have hfilter : applyAll store.inputSchema store.entities (mods.filter isPoi) key = _ :=
          applyAll_filter hnd (fun key => decide (key.entityType = POI_OBJECT)) key
        rw [hfilter, happly, hget]
        simp only [decide_eq_true_eq]
      · exact fun m hm => (hmodsNormal m (List.mem_of_mem_filter hm)).1
      · intro key entity he
        simp at he
      · intro store' _ _
        exact ⟨LfuCache.valid_new false, by simp⟩
  · exact ⟨rfl, hall⟩

end blocks

/-! ### A small subgraph -/

/-- Hashes that are the events themselves. -/
def eventHashers : Hashers (List ProofOfIndexingEvent) where
  new := []
  writeEvent := fun events event _ => events ++ [event]
  writeLength := fun events _ _ => events
  mixin := fun events _ => events
  toBytes := fun events => events.length.repr
  fromBytes := fun _ => []

def removeRecipient : Handler := Program.perform (HostCall.storeRemove "Recipient" "0x01")

end SplitsSubgraph
