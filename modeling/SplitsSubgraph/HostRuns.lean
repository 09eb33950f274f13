/-
SplitsSubgraph/HostRuns.lean

A handler can not tell the entity cache from plain entities.

Call by call the host answers from the entity cache what plain entities would answer
(`simulates_hostCall`), so any handler runs alike on both, to its end or to the same failure
(`invokeHandler_agree`).  What a handler must not do is set attributes that the store does not
keep, or touch the proof of indexing (`HostCall.Proper`).

The entities that handlers leave behind can be written to the store: they have every column
that is not nullable and the id they are stored under (`Attributes.Sound`).  This is what
validation is for.
-/
import SplitsSubgraph.HostExports

namespace SplitsSubgraph

open KeyedTable Overlay Interaction

/-! ### Setting an entity -/

section set

variable (env : EntityEnv) {store : ReadStore} {c : EntityCache} {s : Session}

theorem LfuCache.getEntity_deadWeight (store : ReadStore)
    (cache : LfuCache EntityKey (Option Attributes))
    (key : EntityKey) : (cache.getEntity env store key).2.deadWeight = cache.deadWeight := by
  have hget : (cache.get key).2.deadWeight = cache.deadWeight := LfuCache.touch_deadWeight cache key
  unfold LfuCache.getEntity
  rcases hdef : cache.get key with ⟨- | data, cache'⟩
  all_goals
    rw [hdef] at hget
    dsimp only at hget ⊢
  · rw [LfuCache.insert_deadWeight, hget]
  · exact hget

theorem EntityCache.get_deadWeight (store : ReadStore) (c : EntityCache) (key : EntityKey) :
    (c.get env store key).2.current.deadWeight = c.current.deadWeight :=
  LfuCache.getEntity_deadWeight env store c.current key

theorem EntityCache.entityOp_current (c : EntityCache) (key : EntityKey) (op : EntityOp) :
    (c.entityOp key op).current = c.current := by
  unfold EntityCache.entityOp
  split <;> rfl

theorem EntityCache.set_deadWeight (store : ReadStore) (c : EntityCache) (key : EntityKey)
    (data : Attributes) :
    (c.set env store key data).2.current.deadWeight = c.current.deadWeight := by
  unfold EntityCache.set
  rcases checkId store.inputSchema key data with e | entity
  · rfl
  · have hop := congrArg LfuCache.deadWeight (c.entityOp_current key (.update entity))
    dsimp only
    rcases entity.validate store.inputSchema key with e | -
    · have hget := EntityCache.get_deadWeight env store (c.entityOp key (.update entity)) key
      dsimp only
      rcases hdef : EntityCache.get env store (c.entityOp key (.update entity)) key with
        ⟨- | merged, c'⟩
      all_goals
        rw [hdef] at hget
        exact hget.trans hop
    · exact hop

theorem EntityCache.exitHandler_current {c' : EntityCache} (h : c.exitHandler = .ok c') :
    c'.current = c.current := by
  unfold EntityCache.exitHandler at h
  split at h
  · rw [foldl_entityOp rfl, Except.ok.injEq] at h
    rw [← h]
  · cases h

theorem EntityCache.exitHandlerAndDiscardChanges_current {c' : EntityCache}
    (h : c.exitHandlerAndDiscardChanges = .ok c') : c'.current = c.current := by
  unfold EntityCache.exitHandlerAndDiscardChanges at h
  split at h
  · rw [Except.ok.injEq] at h
    rw [← h]
  · cases h

/-- The entities of a session are normal. -/
theorem EntityCache.Refines.norm_entities (h : c.Refines store s) (key : EntityKey) :
    key.norm store.inputSchema (s.entities key) = s.entities key := by
  rw [← h.view_eq key, EntityKey.norm_norm]

theorem applyTo_update (entities : Entities) (key : EntityKey) (entity : Attributes) :
    (EntityOp.update entity).applyTo (entities key) = some (entities.merged key entity) := by
  unfold Entities.merged
  rcases entities key with - | old <;> rfl

/-- A write to a session, for an entity that is normal. -/
theorem EntityCache.Refines.write_entities (h : c.Refines store s) {key : EntityKey}
    {entity : Attributes} (hentity : entity.Normal store.inputSchema key.entityType) :
    (s.write store.inputSchema key (.update entity)).entities
      = Function.update s.entities key (some (Entities.merged s.entities key entity)) := by
  have hop : (EntityOp.update entity).Normal store.inputSchema key := hentity
  show Function.update _ _ _ = _
  rw [hop.norm_applyTo (h.norm_entities key), applyTo_update]

/-- The cache accepts what plain entities accept, and for the same reasons. -/
theorem EntityCache.set_fst (h : c.Refines store s) (hnormal : c.Normal store.inputSchema)
    (hstore : store.Normal) {key : EntityKey} {data : Attributes}
    (hdata : ∀ e, checkId store.inputSchema key data = .ok e →
      e.Normal store.inputSchema key.entityType) :
    (c.set env store key data).1
      = (Entities.set store.inputSchema s.entities key data).map fun _ => () := by
  unfold EntityCache.set Entities.set
  rcases hid : checkId store.inputSchema key data with e | entity
  · rfl
  · have hentity := hdata entity hid
    have hop := h.entityOp key (.update entity)
    have hopNormal : (c.entityOp key (.update entity)).Normal store.inputSchema :=
      hnormal.entityOp hentity
    -- the entity that is read back is the merged one
    have hread := hop.get_eq env hopNormal hstore key
    rw [h.write_entities hentity, Function.update_self] at hread
    dsimp only
    rcases entity.validate store.inputSchema key with e | -
    · dsimp only
      rcases hget : EntityCache.get env store (c.entityOp key (.update entity)) key with
        ⟨found, c'⟩
      rw [hget] at hread
      dsimp only at hread
      subst hread
      dsimp only
      rcases Attributes.validate store.inputSchema key _ with e | - <;> rfl
    · rfl

/-- What it takes for a `store.set` to be accepted, and what it does. -/
theorem Entities.set_eq_ok {schema : SchemaDocument} {entities entities' : Entities}
    {key : EntityKey} {data : Attributes} (h : entities.set schema key data = .ok entities') :
    ∃ entity, EntityCache.checkId schema key data = .ok entity
      ∧ entities' = Function.update entities key (some (entities.merged key entity))
      ∧ (entity.validate schema key = .ok ()
        ∨ (entities.merged key entity).validate schema key = .ok ()) := by
  unfold Entities.set at h
  rcases hid : EntityCache.checkId schema key data with m | entity
  · simp only [hid] at h
    cases h
  · simp only [hid] at h
    rcases hval : entity.validate schema key with m | ⟨⟩
    · simp only [hval] at h
      rcases hmerged : (entities.merged key entity).validate schema key with m' | ⟨⟩
      · rw [hmerged] at h
        cases h
      · rw [hmerged] at h
        exact ⟨entity, rfl, (Except.ok.inj h).symm, Or.inr hmerged⟩
    · simp only [hval] at h
      exact ⟨entity, rfl, (Except.ok.inj h).symm, Or.inl hval⟩

/-- `set` on the cache and on plain entities: the same answer, and the cache goes on standing
for the entities. -/
theorem EntityCache.Refines.set_spec {entities : Entities} {entered : Option Entities}
    (h : c.Refines store ⟨entities, entered⟩) (hnormal : c.Normal store.inputSchema)
    (hstore : store.Normal) {key : EntityKey} {data : Attributes}
    (hdata : ∀ e, checkId store.inputSchema key data = .ok e →
      e.Normal store.inputSchema key.entityType) :
    (∀ entities', entities.set store.inputSchema key data = .ok entities' →
      ∃ c', c.set env store key data = (.ok (), c') ∧ c'.Refines store ⟨entities', entered⟩)
    ∧ ∀ message, entities.set store.inputSchema key data = .error message →
      ∃ c' entities', c.set env store key data = (.error message, c')
        ∧ c'.Refines store ⟨entities', entered⟩ := by
  have hfst := EntityCache.set_fst env h hnormal hstore hdata
  obtain ⟨s', hs', hrefines⟩ := h.set env key data
  rcases hset : c.set env store key data with ⟨answer, c'⟩
  rw [hset] at hfst hrefines
  dsimp only at hfst hrefines
  subst hfst
  rw [Session.call] at hs'
  rcases hid : checkId store.inputSchema key data with e | entity
  · simp only [hid, Except.ok.injEq] at hs'
    subst hs'
    constructor
    · intro entities' hok
      simp [Entities.set, hid] at hok
    · intro message herr
      exact ⟨c', entities, by rw [herr]; rfl, hrefines⟩
  · simp only [hid, Except.ok.injEq] at hs'
    subst hs'
    have hwrite := h.write_entities (hdata entity hid)
    constructor
    · intro entities' hok
      refine ⟨c', by rw [hok]; rfl, ?_⟩
      obtain ⟨entity₁, hid₁, hentities, -⟩ := Entities.set_eq_ok hok
      obtain rfl := Except.ok.inj (hid.symm.trans hid₁)
      rw [hentities, ← hwrite]
      exact hrefines
    · intro message herr
      exact ⟨c', _, by rw [herr]; rfl, hrefines⟩

end set

/-! ### Calls -/

/-- A call that sets nothing that the store does not keep, and that leaves the proof of
indexing alone. -/
def HostCall.Proper (schema : SchemaDocument) : HostCall → Prop
  | .storeSet entityType entityId data =>
    entityType ≠ POI_OBJECT
      ∧ ∀ e, EntityCache.checkId schema ⟨entityType, entityId⟩ data = .ok e →
        e.Normal schema entityType
  | .storeRemove entityType _ => entityType ≠ POI_OBJECT
  | .storeGet _ _ | .log _ => True

variable {H : Type}

/-- The state of a block follows one on plain entities; the cache stands for `session`. -/
structure Follows (store : ReadStore) (session : Session) (s : BlockState EntityCache H)
    (t : BlockState Entities H) : Prop where
  refines : s.entities.Refines store session
  normal : s.entities.Normal store.inputSchema
  noDeadWeight : s.entities.current.deadWeight = false
  errors : s.deterministicErrors = t.deterministicErrors
  proofOfIndexing : s.proofOfIndexing = t.proofOfIndexing
  logger : s.logger = t.logger

section simulation

variable (env : EntityEnv) {store : ReadStore} (hashers : Hashers H) {entered : Option Entities}
  {s : BlockState EntityCache H} {t : BlockState Entities H}

/-- **Call by call**, the cache answers what plain entities answer. -/
theorem simulates_hostCall (hstore : store.Normal) (entered : Option Entities) :
    Simulates (HostCall.Proper store.inputSchema) (hostCall env store hashers)
      (plainCall store.inputSchema hashers)
      (fun s t => Follows store ⟨t.entities, entered⟩ s t)
      fun s t => ∃ entities, Follows store ⟨entities, entered⟩ s t where
  ok := by
    rintro call hcall s t a t' h hplain
    rcases call with ⟨entityType, entityId⟩ | ⟨entityType, entityId, data⟩ | ⟨entityType, entityId⟩
        | message
    · obtain ⟨hanswer, rfl⟩ := Prod.mk.inj hplain
      obtain rfl := Except.ok.inj hanswer
      refine ⟨{ s with entities := (s.entities.get env store ⟨entityType, entityId⟩).2 }, ?_,
        h.refines.getCache env _, (h.normal.get env hstore _).2, ?_, h.errors,
        h.proofOfIndexing, h.logger⟩
      · have hget := h.refines.get_eq env h.normal hstore ⟨entityType, entityId⟩
        exact Prod.ext (congrArg Except.ok hget) rfl
      · rw [EntityCache.get_deadWeight, h.noDeadWeight]
    · have hnormal := h.normal.set env hstore hcall.2
      have hdead := EntityCache.set_deadWeight env store s.entities ⟨entityType, entityId⟩ data
      rcases hset : Entities.set store.inputSchema t.entities ⟨entityType, entityId⟩ data
        with message | entities
      · simp only [plainCall, BlockState.writePoiEvent, hset, Prod.mk.injEq, reduceCtorEq,
          false_and] at hplain
      · simp only [plainCall, BlockState.writePoiEvent, hset, Prod.mk.injEq] at hplain
        obtain ⟨-, rfl⟩ := hplain
        obtain ⟨c', hc', hrefines⟩ := (h.refines.set_spec env h.normal hstore hcall.2).1 _ hset
        rw [hc'] at hnormal hdead
        refine ⟨{ s.writePoiEvent hashers (.setEntity entityType entityId data) with
          entities := c' }, ?_, ?_⟩
        · simp only [hostCall, BlockState.writePoiEvent, hc']
        · refine ⟨hrefines, hnormal, hdead.trans h.noDeadWeight, h.errors, ?_, h.logger⟩
          simp only [BlockState.writePoiEvent, h.proofOfIndexing]
    · obtain ⟨-, rfl⟩ := Prod.mk.inj hplain
      refine ⟨_, rfl, h.refines.entityOp ⟨entityType, entityId⟩ .remove,
        h.normal.entityOp trivial, ?_, h.errors, ?_, h.logger⟩
      · exact (congrArg LfuCache.deadWeight (EntityCache.entityOp_current _ _ _)).trans
          h.noDeadWeight
      · simp only [BlockState.writePoiEvent, h.proofOfIndexing]
    · obtain ⟨-, rfl⟩ := Prod.mk.inj hplain
      refine ⟨_, rfl, h.refines, h.normal, h.noDeadWeight, h.errors, h.proofOfIndexing, ?_⟩
      simp only [BlockState.log, h.logger]
  error := by
    rintro call hcall s t e t' h hplain
    rcases call with ⟨entityType, entityId⟩ | ⟨entityType, entityId, data⟩ | ⟨entityType, entityId⟩
        | message
    · cases hplain
    · have hnormal := h.normal.set env hstore hcall.2
      have hdead := EntityCache.set_deadWeight env store s.entities ⟨entityType, entityId⟩ data
      rcases hset : Entities.set store.inputSchema t.entities ⟨entityType, entityId⟩ data
        with message | entities
      · simp only [plainCall, BlockState.writePoiEvent, hset, Prod.mk.injEq,
          Except.error.injEq] at hplain
        obtain ⟨rfl, rfl⟩ := hplain
        obtain ⟨c', entities', hc', hrefines⟩ :=
          (h.refines.set_spec env h.normal hstore hcall.2).2 _ hset
        rw [hc'] at hnormal hdead
        refine ⟨{ s.writePoiEvent hashers (.setEntity entityType entityId data) with
          entities := c' }, ?_, entities', ?_⟩
        · simp only [hostCall, BlockState.writePoiEvent, hc']
        · refine ⟨hrefines, hnormal, hdead.trans h.noDeadWeight, h.errors, ?_, h.logger⟩
          simp only [BlockState.writePoiEvent, h.proofOfIndexing]
      · simp only [plainCall, BlockState.writePoiEvent, hset, Prod.mk.injEq, reduceCtorEq,
          false_and] at hplain
    · cases hplain
    · cases hplain
  fail := fun s t h => ⟨t.entities, h⟩

/-! ### Handlers -/

/-- **A handler runs alike** on the entity cache and on plain entities. -/
theorem invokeHandler_agree (hstore : store.Normal) {handler : Handler}
    (hhandler : handler.Always (HostCall.Proper store.inputSchema))
    (h : Follows store ⟨t.entities, none⟩ s t) :
    Agree (fun s t => Follows store ⟨t.entities, none⟩ s t)
      (WasmInstance.invokeHandler env store hashers handler s)
      (plainInvoke store.inputSchema hashers handler t) := by
  obtain ⟨henter, hentered⟩ := h.refines.enterHandler rfl
  have hin : Follows store ⟨t.entities, some t.entities⟩
      { s with entities := { s.entities with inHandler := true } } t :=
    ⟨hentered, ⟨h.normal.current, h.normal.updates, h.normal.handlerUpdates⟩, h.noDeadWeight,
      h.errors, h.proofOfIndexing, h.logger⟩
  obtain ⟨hok, herror⟩ := (simulates_hostCall env hashers hstore (some t.entities)).run hhandler hin
  -- a handler can be left, whatever it has done
  have hexit : ∀ (s' : BlockState EntityCache H) (entities : Entities),
      s'.entities.Refines store ⟨entities, some t.entities⟩ →
        ∃ c, s'.entities.exitHandler = .ok c :=
    fun s' entities href => (href.exitHandler rfl).imp fun c hc => hc.1
  unfold WasmInstance.invokeHandler plainInvoke
  simp only [henter, Except.mapError, bind, Except.bind]
  rcases hplain : handler.run (plainCall store.inputSchema hashers) t with ⟨e | ⟨⟩, t'⟩
  · obtain ⟨s', hrun, entities, h'⟩ := herror e t' hplain
    simp only [hrun]
    rcases e with message | message | message
    · obtain ⟨c, hc⟩ := hexit s' entities h'.refines
      simp only [hc]
      rfl
    · obtain ⟨c, hc⟩ := hexit s' entities h'.refines
      simp only [hc]
      rfl
    · obtain ⟨c, hc, href⟩ := h'.refines.exitHandlerAndDiscardChanges rfl
      have hnormal := h'.normal.exitHandlerAndDiscardChanges hc
      have hdead := (EntityCache.exitHandlerAndDiscardChanges_current hc).symm ▸ h'.noDeadWeight
      simp only [hc]
      exact ⟨href, hnormal, hdead, by rw [h'.errors], h'.proofOfIndexing, h'.logger⟩
  · obtain ⟨s', hrun, h'⟩ := hok () t' hplain
    obtain ⟨c, hc, href⟩ := h'.refines.exitHandler rfl
    have hnormal := h'.normal.exitHandler hc
    have hdead := (EntityCache.exitHandler_current hc).symm ▸ h'.noDeadWeight
    simp only [hrun, hc]
    exact ⟨href, hnormal, hdead, h'.errors, h'.proofOfIndexing, h'.logger⟩

end simulation

/-! ### What validation is for -/

/-- The object types have an id that is a string, none is called like the proof of indexing,
and no field is called `__typename`. -/
structure SchemaDocument.Lawful (schema : SchemaDocument) : Prop where
  id : ∀ obj ∈ schema, ∃ field ∈ obj.fields, field.name = "id" ∧ field.isDerived = false
    ∧ field.fieldType.isList = false ∧ scalarValueType schema field.fieldType = .string
  poi : ∀ obj ∈ schema, obj.name ≠ POI_OBJECT
  typename : ∀ obj ∈ schema, ∀ field ∈ obj.fields, field.name ≠ "__typename"

theorem SchemaDocument.Lawful.typename_notMem {schema : SchemaDocument} (h : schema.Lawful)
    (entityType : String) : "__typename" ∉ schema.columns entityType := by
  rw [SchemaDocument.columns, SchemaDocument.tableColumns]
  split
  · decide
  · rcases hobj : schema.objectType entityType with - | obj
    · simp
    · intro hmem
      obtain ⟨column, hcolumn, hname⟩ := List.mem_map.mp hmem
      obtain ⟨field, hfield, rfl⟩ := List.mem_map.mp hcolumn
      exact h.typename obj (List.mem_of_find?_eq_some hobj) field (List.mem_filter.mp hfield).1
        hname

theorem lawful_schema : schema.Lawful where
  id := by
    intro obj hobj
    refine ⟨requiredField "id" "ID", ?_, rfl, rfl, rfl, rfl⟩
    simp only [schema, List.mem_cons, List.not_mem_nil, or_false] at hobj
    rcases hobj with rfl | rfl | rfl | rfl | rfl <;> simp
  poi := by
    intro obj hobj
    simp only [schema, List.mem_cons, List.not_mem_nil, or_false] at hobj
    rcases hobj with rfl | rfl | rfl | rfl | rfl <;> decide
  typename := by
    intro obj hobj field hfield
    simp only [schema, List.mem_cons, List.not_mem_nil, or_false] at hobj
    rcases hobj with rfl | rfl | rfl | rfl | rfl <;>
      simp only [List.mem_cons, List.not_mem_nil, or_false] at hfield <;>
      rcases hfield with rfl | rfl | rfl | rfl | rfl | rfl | rfl <;> decide

/-- An entity that can be written under its key. -/
structure Attributes.Sound (schema : SchemaDocument) (key : EntityKey) (entity : Attributes) :
    Prop where
  known : key.entityType = POI_OBJECT ∨ (schema.objectType key.entityType).isSome
  normal : entity.Normal schema key.entityType
  required : ∀ column ∈ schema.tableColumns key.entityType, column.isNullable = false →
    (entity.lookup column.field).isSome
  id : entity.lookup "id" = some (.string key.entityId)
  digest : key.entityType = POI_OBJECT → ∃ digest, entity.lookup "digest" = some (.string digest)

def Entities.Sound (schema : SchemaDocument) (entities : Entities) : Prop :=
  ∀ key entity, entities key = some entity → entity.Sound schema key

section sound

variable {schema : SchemaDocument} {key : EntityKey} {e u : Attributes}

theorem lookup_filterMap_map {l : List String} {f : String → Option Value} (name : String) :
    (l.filterMap fun n => (f n).map fun v => (n, v)).lookup name
      = if name ∈ l then f name else none := by
  induction l with
  | nil => rfl
  | cons n l ih =>
    rw [List.filterMap_cons]
    rcases hn : f n with - | v
    · rw [Option.map_none, ih]
      by_cases hname : name = n
      · subst hname
        simp [hn]
      · simp [hname]
    · rw [Option.map_some, List.lookup_cons, ih]
      by_cases hname : name = n
      · subst hname
        simp [hn]
      · have hne : (name == n) = false := beq_false_of_ne hname
        simp [hname, hne]

theorem Attributes.lookup_sorted (entity : Attributes) (name : String) :
    entity.sorted.lookup name = entity.lookup name := by
  rw [Attributes.sorted, lookup_filterMap_map]
  by_cases hname : name ∈ entity.keys
  · rw [if_pos ((Finset.mem_sort _).mpr hname)]
  · rw [if_neg (mt (Finset.mem_sort _).mp hname),
      Finmap.lookup_eq_none.mpr (mt Finmap.mem_keys.mpr hname)]

theorem validateField_of_validateFields {entityType entityId : String} {entity : Entity}
    {fields : List Field}
    (h : validateFields schema entityType entityId entity fields = .ok ()) {field : Field}
    (hfield : field ∈ fields) : validateField schema entityType entityId entity field = .ok () := by
  induction fields with
  | nil => simp at hfield
  | cons f fields ih =>
    rw [validateFields] at h
    rcases hf : validateField schema entityType entityId entity f with m | ⟨⟩
    · rw [hf] at h
      cases h
    · rw [hf] at h
      rcases List.mem_cons.mp hfield with rfl | hmem
      · exact hf
      · exact ih h hmem

/-- A field that must be there is there. -/
theorem isSome_of_validateField {entityType entityId : String} {entity : Entity} {field : Field}
    (h : validateField schema entityType entityId entity field = .ok ())
    (hderived : field.isDerived = false) (hnonNull : field.fieldType.isNonNull = true) :
    (entity.lookup field.name).isSome := by
  rcases hvalue : entity.lookup field.name with - | value
  · simp [validateField, hvalue, hderived, hnonNull] at h
  · rfl

/-- A string field holds a string or a null. -/
theorem string_of_validateField {entityType entityId : String} {entity : Entity} {field : Field}
    {value : Value} (h : validateField schema entityType entityId entity field = .ok ())
    (hderived : field.isDerived = false) (hlist : field.fieldType.isList = false)
    (hscalar : scalarValueType schema field.fieldType = .string)
    (hvalue : entity.lookup field.name = some value) (hnull : value.isNull = false) :
    ∃ s, value = .string s := by
  rcases value with s | n | elts | -
  · exact ⟨s, rfl⟩
  · simp [validateField, hvalue, hderived, hlist, hscalar, Value.isAssignable,
      Value.isScalarAssignable] at h
  · simp [validateField, hvalue, hderived, hlist, Value.isAssignable] at h
  · simp [Value.isNull] at hnull

/-- `check_id` leaves an id that, if it is a string, is that of the key. -/
theorem checkId_id {data : Attributes} (h : EntityCache.checkId schema key data = .ok e) :
    ∃ value, e.lookup "id" = some value ∧ ∀ s, value = .string s → s = key.entityId := by
  unfold EntityCache.checkId at h
  rcases hid : data.lookup "id" with - | value
  · simp only [hid] at h
    rcases hvalue : schema.idValue key with m | value
    · rw [hvalue] at h
      cases h
    · rw [hvalue] at h
      obtain rfl := Except.ok.inj h
      refine ⟨value, Finmap.lookup_insert _, ?_⟩
      rintro s rfl
      unfold SchemaDocument.idValue at hvalue
      split at hvalue
      · cases hvalue
      · split at hvalue
        · cases hvalue
        · split at hvalue
          · injection hvalue with hs
            injection hs with hs
            exact hs.symm
          · cases hvalue
  · rcases value with prevId | n | l | -
    all_goals simp only [hid] at h
    · split at h
      · rename_i hprev
        obtain rfl := Except.ok.inj h
        refine ⟨_, hid, ?_⟩
        rintro s ⟨rfl⟩
        exact hprev
      · cases h
    all_goals
      obtain rfl := Except.ok.inj h
      exact ⟨_, hid, nofun⟩

/-- A valid entity can be written. -/
theorem Attributes.sound_of_validate (hschema : schema.Lawful)
    (hpoi : key.entityType ≠ POI_OBJECT) (hnormal : e.Normal schema key.entityType)
    (hid : ∃ value, e.lookup "id" = some value ∧ ∀ s, value = .string s → s = key.entityId)
    (hval : e.validate schema key = .ok ()) : e.Sound schema key := by
  rw [Attributes.validate, if_neg hpoi, SplitsSubgraph.validate] at hval
  rcases hobj : schema.objectType key.entityType with - | obj
  · simp only [hobj] at hval
    cases hval
  · simp only [hobj] at hval
    have hmem : obj ∈ schema := List.mem_of_find?_eq_some hobj
    refine ⟨Or.inr (by rw [hobj]; rfl), hnormal, ?_, ?_, fun h => absurd h hpoi⟩
    · intro column hcolumn hnullable
      rw [SchemaDocument.tableColumns, if_neg hpoi, hobj] at hcolumn
      obtain ⟨field, hfield, rfl⟩ := List.mem_map.mp hcolumn
      rw [List.mem_filter, Bool.not_eq_true'] at hfield
      have hsome := isSome_of_validateField (validateField_of_validateFields hval hfield.1)
        hfield.2 (by simpa using hnullable)
      rwa [Attributes.lookup_sorted] at hsome
    · obtain ⟨field, hfield, hname, hderived, hlist, hscalar⟩ := hschema.id obj hmem
      obtain ⟨value, hvalue, hkey⟩ := hid
      have hlookup : e.sorted.lookup field.name = some value := by
        rw [Attributes.lookup_sorted, hname, hvalue]
      obtain ⟨s, rfl⟩ := string_of_validateField (validateField_of_validateFields hval hfield)
        hderived hlist hscalar hlookup ((Attributes.normal_iff.mp hnormal "id" value hvalue).2)
      rw [hvalue, hkey s rfl]

/-- An entity that can be written, merged into one. -/
theorem Attributes.Sound.mergeRemoveNullFields (he : e.Sound schema key)
    (hu : u.Sound schema key) : (e.mergeRemoveNullFields u).Sound schema key := by
  have hlookup : ∀ name, (e.mergeRemoveNullFields u).lookup name
      = (u.lookup name <|> e.lookup name) := by
    intro name
    rw [lookup_mergeRemoveNullFields]
    rcases hname : u.lookup name with - | value
    · rfl
    · simp [(normal_iff.mp hu.normal name value hname).2]
  refine ⟨he.known, he.normal.mergeRemoveNullFields hu.normal, ?_, ?_, ?_⟩
  · intro column hcolumn hnullable
    rw [hlookup]
    rcases hname : u.lookup column.field with - | value
    · exact he.required column hcolumn hnullable
    · rfl
  · rw [hlookup, hu.id]
    rfl
  · intro hpoi
    obtain ⟨digest, hdigest⟩ := hu.digest hpoi
    refine ⟨digest, ?_⟩
    rw [hlookup, hdigest]
    rfl

theorem Entities.Sound.update {entities : Entities} (h : entities.Sound schema)
    (he : e.Sound schema key) : Entities.Sound schema (Function.update entities key (some e)) := by
  intro k e' he'
  by_cases hk : k = key
  · subst hk
    rw [Function.update_self, Option.some.injEq] at he'
    exact he' ▸ he
  · rw [Function.update_of_ne hk] at he'
    exact h k e' he'

theorem Entities.Sound.merged {entities : Entities} (h : entities.Sound schema)
    (he : e.Sound schema key) : (entities.merged key e).Sound schema key := by
  unfold Entities.merged
  rcases hold : entities key with - | old
  · exact he
  · exact (h key old hold).mergeRemoveNullFields he

/-- **What is set can be written.** -/
theorem Entities.Sound.set (hschema : schema.Lawful) {entities entities' : Entities}
    (h : entities.Sound schema) {data : Attributes} (hpoi : key.entityType ≠ POI_OBJECT)
    (hdata : ∀ e, EntityCache.checkId schema key data = .ok e → e.Normal schema key.entityType)
    (hset : entities.set schema key data = .ok entities') : entities'.Sound schema := by
  obtain ⟨entity, hid, rfl, hval⟩ := Entities.set_eq_ok hset
  have hnormal := hdata entity hid
  obtain ⟨value, hvalue, hkey⟩ := checkId_id hid
  apply h.update
  rcases hval with hval | hval
  · exact h.merged
      (Attributes.sound_of_validate hschema hpoi hnormal ⟨value, hvalue, hkey⟩ hval)
  · unfold Entities.merged at hval ⊢
    rcases hold : entities key with - | old
    · simp only [hold] at hval ⊢
      exact Attributes.sound_of_validate hschema hpoi hnormal ⟨value, hvalue, hkey⟩ hval
    · simp only [hold] at hval ⊢
      refine Attributes.sound_of_validate hschema hpoi
        ((h key old hold).normal.mergeRemoveNullFields hnormal) ⟨value, ?_, hkey⟩ hval
      rw [Attributes.lookup_mergeRemoveNullFields, hvalue]
      simp [(Attributes.normal_iff.mp hnormal "id" value hvalue).2]

/-- What a `store.set` and a `store.remove` keep, a handler keeps. -/
theorem plainInvoke_invariant (hashers : Hashers H) {I : Entities → Prop}
    (hset : ∀ (entities entities' : Entities) (key : EntityKey) data,
      (HostCall.storeSet key.entityType key.entityId data).Proper schema → I entities →
      entities.set schema key data = .ok entities' → I entities')
    (hremove : ∀ (entities : Entities) (key : EntityKey), key.entityType ≠ POI_OBJECT →
      I entities → I (Function.update entities key none))
    {handler : Handler} (hhandler : handler.Always (HostCall.Proper schema))
    {t t' : BlockState Entities H} (h : I t.entities)
    (hrun : plainInvoke schema hashers handler t = .ok t') : I t'.entities := by
  have hcalls : ∀ call, HostCall.Proper schema call → ∀ (s : BlockState Entities H) a s',
      I s.entities → plainCall schema hashers call s = (.ok a, s') → I s'.entities := by
    rintro (⟨t, i⟩ | ⟨t, i, data⟩ | ⟨t, i⟩ | message) hcall s a s' hs hplain
    · obtain ⟨-, rfl⟩ := Prod.mk.inj hplain
      exact hs
    · rcases hdef : Entities.set schema s.entities ⟨t, i⟩ data with m | entities
      · simp only [plainCall, BlockState.writePoiEvent, hdef, Prod.mk.injEq, reduceCtorEq,
          false_and] at hplain
      · simp only [plainCall, BlockState.writePoiEvent, hdef, Prod.mk.injEq] at hplain
        obtain ⟨-, rfl⟩ := hplain
        exact hset s.entities entities ⟨t, i⟩ data hcall hs hdef
    · obtain ⟨-, rfl⟩ := Prod.mk.inj hplain
      exact hremove s.entities ⟨t, i⟩ hcall hs
    · obtain ⟨-, rfl⟩ := Prod.mk.inj hplain
      exact hs
  unfold plainInvoke at hrun
  rcases hplain : handler.run (plainCall schema hashers) t with ⟨(m | m | m) | ⟨⟩, s'⟩
  · rw [hplain] at hrun
    cases hrun
  · rw [hplain] at hrun
    cases hrun
  · rw [hplain] at hrun
    obtain rfl := Except.ok.inj hrun
    exact h
  · rw [hplain] at hrun
    obtain rfl := Except.ok.inj hrun
    exact Program.run_invariant hcalls hhandler h hplain

/-- Handlers leave entities that can be written. -/
theorem plainInvoke_sound (hschema : schema.Lawful) (hashers : Hashers H) {handler : Handler}
    (hhandler : handler.Always (HostCall.Proper schema)) {t t' : BlockState Entities H}
    (h : t.entities.Sound schema) (hrun : plainInvoke schema hashers handler t = .ok t') :
    t'.entities.Sound schema := by
  refine plainInvoke_invariant hashers ?_ ?_ hhandler h hrun
  · intro entities entities' key data hcall hs hset
    exact hs.set hschema hcall.1 hcall.2 hset
  · intro entities key _ hs k e he
    by_cases hk : k = key
    · subst hk
      rw [Function.update_self] at he
      cases he
    · rw [Function.update_of_ne hk] at he
      exact hs k e he

/-- Handlers leave the proof of indexing alone. -/
theorem plainInvoke_poi (hashers : Hashers H) {handler : Handler}
    (hhandler : handler.Always (HostCall.Proper schema)) {t t' : BlockState Entities H}
    (hrun : plainInvoke schema hashers handler t = .ok t') {key : EntityKey}
    (hkey : key.entityType = POI_OBJECT) : t'.entities key = t.entities key := by
  refine plainInvoke_invariant (I := fun entities => entities key = t.entities key) hashers
    ?_ ?_ hhandler rfl hrun
  · intro entities entities' k data hcall hs hset
    have hne : key ≠ k := fun e => hcall.1 (e ▸ hkey)
    obtain ⟨entity, -, rfl, -⟩ := Entities.set_eq_ok hset
    rw [Function.update_of_ne hne, hs]
  · intro entities k hk hs
    have hne : key ≠ k := fun e => hk (e ▸ hkey)
    rw [Function.update_of_ne hne, hs]

end sound

end SplitsSubgraph
