/-
SplitsSubgraph/EntityClass.lean

The entity classes of the mapping, as the node sees them.

A row of Store.lean becomes a map of attributes when it is saved, and a map of attributes
becomes a row when it is loaded.  `EntityClass` collects what is known of one entity type: the
two conversions, the table that Store.lean keeps of it, and that merging rows is merging
attributes.  `Store.entities` is the whole store as entities, and a `store.set` on these
accepts, rejects and writes what `Host.save` does with the row (`EntityClass.set_eq`).
-/
import SplitsSubgraph.Mapping
import SplitsSubgraph.Validation
import SplitsSubgraph.HostRuns

namespace SplitsSubgraph

open KeyedTable

/-! ### Attributes -/

/-- The attributes of a list; the first of a name counts. -/
def Attributes.ofEntity (entity : Entity) : Attributes :=
  entity.foldr (fun a attributes => attributes.insert a.1 a.2) ∅

theorem Attributes.lookup_ofEntity (entity : Entity) (name : String) :
    (ofEntity entity).lookup name = entity.lookup name := by
  induction entity with
  | nil => rfl
  | cons a entity ih =>
    show ((ofEntity entity).insert a.1 a.2).lookup name = _
    rw [lookup_insert_eq_if, ih, List.lookup_cons]
    by_cases h : name = a.1
    · simp [h]
    · have hne : (name == a.1) = false := beq_false_of_ne h
      simp [h, hne]

def Value.toString? : Value → Option String
  | .string s => some s
  | _ => none

def Value.toBigInt? : Value → Option ℤ
  | .bigInt n => some n
  | _ => none

def Value.toStringArray? : Value → Option (List String)
  | .list elts => elts.mapM Value.toString?
  | _ => none

@[simp] theorem toStringArray?_list (l : List String) :
    (Value.list (l.map Value.string)).toStringArray? = some l := by
  show (l.map Value.string).mapM Value.toString? = some l
  induction l with
  | nil => rfl
  | cons s l ih => simp [Value.toString?, ih]

/-- Validation looks at the attributes by name only. -/
theorem validate_congr {schema : SchemaDocument} {entity entity' : Entity}
    (h : ∀ name, entity.lookup name = entity'.lookup name) (entityType entityId : String) :
    validate schema entityType entityId entity = validate schema entityType entityId entity' := by
  have hfield : ∀ field, validateField schema entityType entityId entity field
      = validateField schema entityType entityId entity' field := by
    intro field
    simp only [validateField, h]
  have hfields : ∀ fields, validateFields schema entityType entityId entity fields
      = validateFields schema entityType entityId entity' fields := by
    intro fields
    induction fields with
    | nil => rfl
    | cons field fields ih => rw [validateFields, validateFields, hfield, ih]
  unfold validate
  rcases schema.objectType entityType with - | obj
  · rfl
  · exact hfields obj.fields

theorem Attributes.validate_ofEntity {key : EntityKey} (hkey : key.entityType ≠ POI_OBJECT)
    (entity : Entity) : (ofEntity entity).validate schema key
      = SplitsSubgraph.validate schema key.entityType key.entityId entity := by
  rw [Attributes.validate, if_neg hkey]
  exact validate_congr (fun name => by rw [lookup_sorted, lookup_ofEntity]) _ _

/-- A list of attributes that are columns, none of them null. -/
theorem Attributes.normal_ofEntity {schema : SchemaDocument} {entityType : String}
    {entity : Entity}
    (h : ∀ a ∈ entity, a.1 ∈ schema.columns entityType ∧ a.2.isNull = false) :
    (ofEntity entity).Normal schema entityType := by
  rw [normal_iff]
  intro name value hvalue
  rw [lookup_ofEntity] at hvalue
  obtain ⟨l, l', rfl, -⟩ := List.lookup_eq_some_iff.mp hvalue
  exact h (name, value) (by simp)

/-! ### The store as entities -/

/-- What a table has under an id, as an entity. -/
def rowEntity {R : Type} (entity : String → R → Entity) (table : Table String R) (id : String) :
    Option Attributes :=
  (table.lookup id).map fun row => Attributes.ofEntity (entity id row)

theorem rowEntity_insert {R : Type} (entity : String → R → Entity) (table : Table String R)
    (id id' : String) (row : R) :
    rowEntity entity (table.insert id row) id'
      = if id' = id then some (Attributes.ofEntity (entity id row))
        else rowEntity entity table id' := by
  rw [rowEntity, lookup_insert_eq_if]
  by_cases h : id' = id
  · simp [h]
  · simp [h, rowEntity]

def Store.entities (st : Store) : Entities := fun key =>
  match key.entityType with
  | "Split" => rowEntity Split.entity st.splits key.entityId
  | "Recipient" => rowEntity Recipient.entity st.recipients key.entityId
  | "SplitRecipient" => rowEntity SplitRecipient.entity st.splitRecipients key.entityId
  | "SplitRecipientToken" =>
    rowEntity SplitRecipientToken.entity st.splitRecipientTokens key.entityId
  | "SplitRecipientWithdrawEvent" =>
    rowEntity SplitRecipientWithdrawEvent.entity st.splitRecipientWithdrawEvents key.entityId
  | _ => none

/-- The event of the proof of indexing for a `store.set` call. -/
def SetEntity.event : SetEntity → ProofOfIndexingEvent
  | .split id row => .setEntity "Split" id (.ofEntity (row.entity id))
  | .recipient id row => .setEntity "Recipient" id (.ofEntity (row.entity id))
  | .splitRecipient id row => .setEntity "SplitRecipient" id (.ofEntity (row.entity id))
  | .splitRecipientToken id row =>
    .setEntity "SplitRecipientToken" id (.ofEntity (row.entity id))
  | .splitRecipientWithdrawEvent id row =>
    .setEntity "SplitRecipientWithdrawEvent" id (.ofEntity (row.entity id))

/-! ### Entity classes -/

/-- What is known of an entity type: the attributes of a row, the row of attributes, its table
and how a row is saved. -/
structure EntityClass (R : Type) where
  entityType : String
  entity : String → R → Entity
  ofAttributes : Attributes → R
  table : Store → Table String R
  set : String → R → SetEntity
  merge : R → R → R
  ne_poi : entityType ≠ POI_OBJECT
  lookup_id : ∀ id row, (entity id row).lookup "id" = some (.string id)
  normal : ∀ id row, ∀ a ∈ entity id row, a.1 ∈ schema.columns entityType ∧ a.2.isNull = false
  ofAttributes_ofEntity : ∀ id row, ofAttributes (.ofEntity (entity id row)) = row
  lookup_merge : ∀ id old row name, (entity id (merge old row)).lookup name
    = ((entity id row).lookup name).or ((entity id old).lookup name)
  event_set : ∀ id row, (set id row).event = .setEntity entityType id (.ofEntity (entity id row))
  validate_set : ∀ id row, (set id row).validate = validate schema entityType id (entity id row)
  merged_set : ∀ (st : Store) id row,
    (set id row).merged st = set id (mergeAt merge (table st) id row)
  entities_eq : ∀ (st : Store) id, st.entities ⟨entityType, id⟩ = rowEntity entity (table st) id
  entities_set : ∀ (st : Store) id row, (st.set (set id row)).entities = Function.update st.entities
    ⟨entityType, id⟩ (some (.ofEntity (entity id (mergeAt merge (table st) id row))))

section attrs

variable {α : Type} {name : String} {wrap : α → Value} {v : Option α}

theorem mem_entityAttr {a : String × Value} (h : a ∈ entityAttr name wrap v) :
    a.1 = name ∧ ∃ x, a.2 = wrap x := by
  rcases v with - | x
  · simp [entityAttr] at h
  · obtain rfl : a = (name, wrap x) := by simpa [entityAttr] using h
    exact ⟨rfl, x, rfl⟩

end attrs

/-- The attributes `merged` are those of `update`, or else those of `old`; none of them goes by a
name that is not in `names`. -/
structure MergeAttrs (names : List String) (old update merged : Entity) : Prop where
  lookup : ∀ name, merged.lookup name = (update.lookup name).or (old.lookup name)
  notMem : ∀ name, name ∉ names → old.lookup name = none ∧ update.lookup name = none

theorem MergeAttrs.attr {α : Type} (name : String) (wrap : α → Value) (old update : Option α) :
    MergeAttrs [name] (entityAttr name wrap old) (entityAttr name wrap update)
      (entityAttr name wrap (update <|> old)) where
  lookup := by
    intro name'
    rw [lookup_entityAttr, lookup_entityAttr, lookup_entityAttr]
    by_cases h : name' = name
    · rcases update with - | a <;> simp [h]
    · simp [h]
  notMem := by
    intro name' h
    rw [List.mem_singleton] at h
    simp [lookup_entityAttr, h]

theorem MergeAttrs.append {names names' : List String}
    {old old' update update' merged merged' : Entity}
    (h : MergeAttrs names old update merged) (h' : MergeAttrs names' old' update' merged')
    (hdisjoint : ∀ name ∈ names, name ∉ names') :
    MergeAttrs (names ++ names') (old ++ old') (update ++ update') (merged ++ merged') where
  lookup := by
    intro name
    simp only [List.lookup_append, h.lookup, h'.lookup]
    by_cases hname : name ∈ names
    · obtain ⟨hold, hupdate⟩ := h'.notMem name (hdisjoint name hname)
      simp [hold, hupdate]
    · obtain ⟨hold, hupdate⟩ := h.notMem name hname
      simp [hold, hupdate]
  notMem := by
    intro name hname
    rw [List.mem_append, not_or] at hname
    obtain ⟨hold, hupdate⟩ := h.notMem name hname.1
    obtain ⟨hold', hupdate'⟩ := h'.notMem name hname.2
    simp [List.lookup_append, hold, hupdate, hold', hupdate']

/-- Two versions of an entity have the same id. -/
theorem MergeAttrs.cons {names : List String} {old update merged : Entity}
    (h : MergeAttrs names old update merged) (id name : String) :
    (("id", Value.string id) :: merged).lookup name
      = ((("id", Value.string id) :: update).lookup name).or
        ((("id", Value.string id) :: old).lookup name) := by
  simp only [List.lookup_cons]
  rcases name == "id" with - | -
  · exact h.lookup name
  · rfl

theorem entities_of_ne {st st' : Store} {entityType : String}
    (hsplits : "Split" ≠ entityType → st'.splits = st.splits)
    (hrecipients : "Recipient" ≠ entityType → st'.recipients = st.recipients)
    (hsplitRecipients : "SplitRecipient" ≠ entityType →
      st'.splitRecipients = st.splitRecipients)
    (htokens : "SplitRecipientToken" ≠ entityType →
      st'.splitRecipientTokens = st.splitRecipientTokens)
    (hevents : "SplitRecipientWithdrawEvent" ≠ entityType →
      st'.splitRecipientWithdrawEvents = st.splitRecipientWithdrawEvents)
    {key : EntityKey} (hkey : key.entityType ≠ entityType) :
    st'.entities key = st.entities key := by
  unfold Store.entities
  split
  · rename_i h
    rw [hsplits (h ▸ hkey)]
  · rename_i h
    rw [hrecipients (h ▸ hkey)]
  · rename_i h
    rw [hsplitRecipients (h ▸ hkey)]
  · rename_i h
    rw [htokens (h ▸ hkey)]
  · rename_i h
    rw [hevents (h ▸ hkey)]
  · rfl

/-- A row that is saved is one entity that changes. -/
theorem entities_upsert {R : Type} {entityType : String} {entity : String → R → Entity}
    {merge : R → R → R} {table : Store → Table String R} {st st' : Store} {id : String} {row : R}
    (hself : ∀ (st : Store) id, st.entities ⟨entityType, id⟩ = rowEntity entity (table st) id)
    (htable : table st' = upsert merge (table st) id row)
    (hothers : ∀ key : EntityKey, key.entityType ≠ entityType →
      st'.entities key = st.entities key) :
    st'.entities = Function.update st.entities ⟨entityType, id⟩
      (some (.ofEntity (entity id (mergeAt merge (table st) id row)))) := by
  funext key
  by_cases hkey : key.entityType = entityType
  · obtain ⟨t, i⟩ := key
    obtain rfl : t = entityType := hkey
    rw [hself, htable, upsert, rowEntity_insert, Function.update_apply, ← hself]
    simp only [EntityKey.mk.injEq, true_and]
  · rw [hothers key hkey,
      Function.update_of_ne fun e => hkey (congrArg EntityKey.entityType e)]

def splitClass : EntityClass Split where
  entityType := "Split"
  entity := Split.entity
  ofAttributes e := ⟨(e.lookup "distributorFee").bind Value.toBigInt?,
    (e.lookup "recipients").bind Value.toStringArray?⟩
  table := Store.splits
  set := .split
  merge := Split.merge
  ne_poi := by decide
  lookup_id := fun _ _ => rfl
  normal := by
    intro id row a ha
    simp only [Split.entity, List.mem_cons, List.mem_append] at ha
    rcases ha with rfl | ha | ha
    · exact ⟨(by decide : "id" ∈ schema.columns "Split"), rfl⟩
    all_goals
      obtain ⟨h, x, h'⟩ := mem_entityAttr ha
      rw [h, h']
      exact ⟨by decide, rfl⟩
  ofAttributes_ofEntity := by
    rintro id row
    simp [Attributes.lookup_ofEntity, Split.entity, List.lookup_cons, List.lookup_append,
      Option.bind_map, Function.comp_def, Value.toBigInt?]
  lookup_merge := fun id old row name => (MergeAttrs.attr _ _ _ _)
      |>.append (.attr _ _ _ _) (by decide)
      |>.cons id name
  event_set := fun _ _ => rfl
  validate_set := fun _ _ => rfl
  merged_set := fun _ _ _ => rfl
  entities_eq := fun _ _ => rfl
  entities_set := fun st id row => entities_upsert (fun _ _ => rfl) rfl fun key hkey => by
    refine entities_of_ne (fun h => absurd rfl h) ?_ ?_ ?_ ?_ hkey <;> exact fun _ => rfl

def recipientClass : EntityClass Recipient where
  entityType := "Recipient"
  entity := Recipient.entity
  ofAttributes e := ⟨(e.lookup "splits").bind Value.toStringArray?⟩
  table := Store.recipients
  set := .recipient
  merge := Recipient.merge
  ne_poi := by decide
  lookup_id := fun _ _ => rfl
  normal := by
    intro id row a ha
    simp only [Recipient.entity, List.mem_cons] at ha
    rcases ha with rfl | ha
    · exact ⟨(by decide : "id" ∈ schema.columns "Recipient"), rfl⟩
    all_goals
      obtain ⟨h, x, h'⟩ := mem_entityAttr ha
      rw [h, h']
      exact ⟨by decide, rfl⟩
  ofAttributes_ofEntity := by
    rintro id row
    simp [Attributes.lookup_ofEntity, Recipient.entity, List.lookup_cons,
      Option.bind_map]
  lookup_merge := fun id old row name => (MergeAttrs.attr _ _ _ _).cons id name
  event_set := fun _ _ => rfl
  validate_set := fun _ _ => rfl
  merged_set := fun _ _ _ => rfl
  entities_eq := fun _ _ => rfl
  entities_set := fun st id row => entities_upsert (fun _ _ => rfl) rfl fun key hkey => by
    refine entities_of_ne ?_ (fun h => absurd rfl h) ?_ ?_ ?_ hkey <;> exact fun _ => rfl

def splitRecipientClass : EntityClass SplitRecipient where
  entityType := "SplitRecipient"
  entity := SplitRecipient.entity
  ofAttributes e := ⟨(e.lookup "split").bind Value.toString?,
    (e.lookup "recipient").bind Value.toString?,
    (e.lookup "allocation").bind Value.toBigInt?⟩
  table := Store.splitRecipients
  set := .splitRecipient
  merge := SplitRecipient.merge
  ne_poi := by decide
  lookup_id := fun _ _ => rfl
  normal := by
    intro id row a ha
    simp only [SplitRecipient.entity, List.mem_cons, List.mem_append] at ha
    rcases ha with rfl | (ha | ha) | ha
    · exact ⟨(by decide : "id" ∈ schema.columns "SplitRecipient"), rfl⟩
    all_goals
      obtain ⟨h, x, h'⟩ := mem_entityAttr ha
      rw [h, h']
      exact ⟨by decide, rfl⟩
  ofAttributes_ofEntity := by
    rintro id row
    simp [Attributes.lookup_ofEntity, SplitRecipient.entity, List.lookup_cons, List.lookup_append,
      Option.bind_map, Function.comp_def, Value.toBigInt?, Value.toString?]
  lookup_merge := fun id old row name => (MergeAttrs.attr _ _ _ _)
      |>.append (.attr _ _ _ _) (by decide)
      |>.append (.attr _ _ _ _) (by decide)
      |>.cons id name
  event_set := fun _ _ => rfl
  validate_set := fun _ _ => rfl
  merged_set := fun _ _ _ => rfl
  entities_eq := fun _ _ => rfl
  entities_set := fun st id row => entities_upsert (fun _ _ => rfl) rfl fun key hkey => by
    refine entities_of_ne ?_ ?_ (fun h => absurd rfl h) ?_ ?_ hkey <;> exact fun _ => rfl

def splitRecipientTokenClass : EntityClass SplitRecipientToken where
  entityType := "SplitRecipientToken"
  entity := SplitRecipientToken.entity
  ofAttributes e := ⟨(e.lookup "splitRecipient").bind Value.toString?,
    (e.lookup "tokenAddress").bind Value.toString?,
    (e.lookup "totalDistributed").bind Value.toBigInt?,
    (e.lookup "totalClaimed").bind Value.toBigInt?⟩
  table := Store.splitRecipientTokens
  set := .splitRecipientToken
  merge := SplitRecipientToken.merge
  ne_poi := by decide
  lookup_id := fun _ _ => rfl
  normal := by
    intro id row a ha
    simp only [SplitRecipientToken.entity, List.mem_cons, List.mem_append] at ha
    rcases ha with rfl | ((ha | ha) | ha) | ha
    · exact ⟨(by decide : "id" ∈ schema.columns "SplitRecipientToken"), rfl⟩
    all_goals
      obtain ⟨h, x, h'⟩ := mem_entityAttr ha
      rw [h, h']
      exact ⟨by decide, rfl⟩
  ofAttributes_ofEntity := by
    rintro id row
    simp [Attributes.lookup_ofEntity, SplitRecipientToken.entity, List.lookup_cons,
      List.lookup_append, Option.bind_map, Function.comp_def, Value.toBigInt?, Value.toString?]
  lookup_merge := fun id old row name => (MergeAttrs.attr _ _ _ _)
      |>.append (.attr _ _ _ _) (by decide)
      |>.append (.attr _ _ _ _) (by decide)
      |>.append (.attr _ _ _ _) (by decide)
      |>.cons id name
  event_set := fun _ _ => rfl
  validate_set := fun _ _ => rfl
  merged_set := fun _ _ _ => rfl
  entities_eq := fun _ _ => rfl
  entities_set := fun st id row => entities_upsert (fun _ _ => rfl) rfl fun key hkey => by
    refine entities_of_ne ?_ ?_ ?_ (fun h => absurd rfl h) ?_ hkey <;> exact fun _ => rfl

def splitRecipientWithdrawEventClass : EntityClass SplitRecipientWithdrawEvent where
  entityType := "SplitRecipientWithdrawEvent"
  entity := SplitRecipientWithdrawEvent.entity
  ofAttributes e := ⟨(e.lookup "split").bind Value.toString?,
    (e.lookup "recipient").bind Value.toString?,
    (e.lookup "tokenAddress").bind Value.toString?,
    (e.lookup "value").bind Value.toBigInt?,
    (e.lookup "timestamp").bind Value.toBigInt?,
    (e.lookup "transactionHash").bind Value.toString?⟩
  table := Store.splitRecipientWithdrawEvents
  set := .splitRecipientWithdrawEvent
  merge := SplitRecipientWithdrawEvent.merge
  ne_poi := by decide
  lookup_id := fun _ _ => rfl
  normal := by
    intro id row a ha
    simp only [SplitRecipientWithdrawEvent.entity, List.mem_cons, List.mem_append] at ha
    rcases ha with rfl | ((((ha | ha) | ha) | ha) | ha) | ha
    · exact ⟨(by decide : "id" ∈ schema.columns "SplitRecipientWithdrawEvent"), rfl⟩
    all_goals
      obtain ⟨h, x, h'⟩ := mem_entityAttr ha
      rw [h, h']
      exact ⟨by decide, rfl⟩
  ofAttributes_ofEntity := by
    rintro id row
    simp [Attributes.lookup_ofEntity, SplitRecipientWithdrawEvent.entity, List.lookup_cons,
      List.lookup_append, Option.bind_map, Function.comp_def, Value.toBigInt?, Value.toString?]
  lookup_merge := fun id old row name => (MergeAttrs.attr _ _ _ _)
      |>.append (.attr _ _ _ _) (by decide)
      |>.append (.attr _ _ _ _) (by decide)
      |>.append (.attr _ _ _ _) (by decide)
      |>.append (.attr _ _ _ _) (by decide)
      |>.append (.attr _ _ _ _) (by decide)
      |>.cons id name
  event_set := fun _ _ => rfl
  validate_set := fun _ _ => rfl
  merged_set := fun _ _ _ => rfl
  entities_eq := fun _ _ => rfl
  entities_set := fun st id row => entities_upsert (fun _ _ => rfl) rfl fun key hkey => by
    refine entities_of_ne ?_ ?_ ?_ ?_ (fun h => absurd rfl h) hkey <;> exact fun _ => rfl

/-! ### Saving -/

namespace EntityClass

variable {R : Type} (C : EntityClass R) {entities : Entities} {id : String}

/-- The row that is read back is the one that is in the table. -/
theorem map_ofAttributes {st : Store}
    (h : entities ⟨C.entityType, id⟩ = st.entities ⟨C.entityType, id⟩) :
    (entities ⟨C.entityType, id⟩).map C.ofAttributes = (C.table st).lookup id := by
  rw [h, C.entities_eq, rowEntity, Option.map_map]
  rcases (C.table st).lookup id with - | row
  · rfl
  · exact congrArg some (C.ofAttributes_ofEntity id row)

theorem checkId_eq (row : R) :
    EntityCache.checkId schema ⟨C.entityType, id⟩ (.ofEntity (C.entity id row))
      = .ok (.ofEntity (C.entity id row)) := by
  simp [EntityCache.checkId, Attributes.lookup_ofEntity, C.lookup_id]

/-- Merging attributes is merging rows. -/
theorem merged_eq {st : Store} (h : entities ⟨C.entityType, id⟩ = st.entities ⟨C.entityType, id⟩)
    (row : R) :
    entities.merged ⟨C.entityType, id⟩ (.ofEntity (C.entity id row))
      = .ofEntity (C.entity id (mergeAt C.merge (C.table st) id row)) := by
  rw [Entities.merged, h, C.entities_eq, rowEntity, mergeAt]
  rcases (C.table st).lookup id with - | old
  · rfl
  · apply Finmap.ext_lookup
    intro name
    simp only [Option.map_some]
    rw [Attributes.lookup_mergeRemoveNullFields, Attributes.lookup_ofEntity,
      Attributes.lookup_ofEntity, Attributes.lookup_ofEntity, C.lookup_merge]
    rcases hvalue : (C.entity id row).lookup name with - | value
    · rfl
    · obtain ⟨l, l', hrow, -⟩ := List.lookup_eq_some_iff.mp hvalue
      have hnull := (C.normal id row (name, value) (by rw [hrow]; simp)).2
      simp [hnull]

/-- **A `store.set` on entities is a save of the row**, with the same verdict. -/
theorem set_eq {st : Store} (h : entities ⟨C.entityType, id⟩ = st.entities ⟨C.entityType, id⟩)
    (row : R) :
    entities.set schema ⟨C.entityType, id⟩ (.ofEntity (C.entity id row))
      = ((C.set id row).validate.orElseLazy fun _ => ((C.set id row).merged st).validate).map
          fun _ => Function.update entities ⟨C.entityType, id⟩
            (some (.ofEntity (C.entity id (mergeAt C.merge (C.table st) id row)))) := by
  rw [Entities.set, C.checkId_eq]
  dsimp only
  rw [C.merged_eq h, Attributes.validate_ofEntity C.ne_poi, Attributes.validate_ofEntity C.ne_poi,
    C.merged_set, C.validate_set, C.validate_set]
  rcases validate schema C.entityType id (C.entity id row) with m | ⟨⟩
  · rfl
  · rfl

/-- The attributes of a row are columns. -/
theorem proper_save (id : String) (row : R) :
    (HostCall.storeSet C.entityType id (.ofEntity (C.entity id row))).Proper schema := by
  refine ⟨C.ne_poi, fun e he => ?_⟩
  rw [C.checkId_eq] at he
  obtain rfl := Except.ok.inj he
  exact Attributes.normal_ofEntity (C.normal id row)

end EntityClass

end SplitsSubgraph
