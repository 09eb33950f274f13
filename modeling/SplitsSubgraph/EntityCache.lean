/-
SplitsSubgraph/EntityCache.lean

The cache through which handlers read and write entities while a block is processed
(graph/src/components/store/entity_cache.rs, graph/src/components/store/mod.rs).

An entity is a map from attribute names to values, `Attributes`.  The cache never writes
to the store.  It keeps at most one pending operation an entity, `updates` for the block
and `handler_updates` for the handler that is running, and a lookup applies both to what
the store holds.  `asModifications` turns the pending operations of the block into the
insertions, overwrites and removals that the store is to make, and leaves behind the
entities it has seen for the next block.

The keys of a hash map come in no particular order: here they come in the order of a
list, and no statement depends on it.  A failed assertion is a `Panic`; failures of the
database are left out.
-/
import SplitsSubgraph.Store
import SplitsSubgraph.Eviction
import SplitsSubgraph.Lib.Overlay

namespace SplitsSubgraph

open KeyedTable Overlay

/-! ### Values -/

mutual

def Value.decEq : (v w : Value) → Decidable (v = w)
  | .string s, .string t => decidable_of_iff (s = t) (by simp)
  | .bigInt m, .bigInt n => decidable_of_iff (m = n) (by simp)
  | .list l, .list l' =>
    match decEqList l l' with
    | isTrue h => isTrue (by rw [h])
    | isFalse h => isFalse (by simpa using h)
  | .null, .null => isTrue rfl
  | .string _, .bigInt _ | .string _, .list _ | .string _, .null => isFalse nofun
  | .bigInt _, .string _ | .bigInt _, .list _ | .bigInt _, .null => isFalse nofun
  | .list _, .string _ | .list _, .bigInt _ | .list _, .null => isFalse nofun
  | .null, .string _ | .null, .bigInt _ | .null, .list _ => isFalse nofun

def decEqList : (l l' : List Value) → Decidable (l = l')
  | [], [] => isTrue rfl
  | [], _ :: _ => isFalse nofun
  | _ :: _, [] => isFalse nofun
  | v :: l, w :: l' =>
    match v.decEq w, decEqList l l' with
    | isTrue h, isTrue h' => isTrue (by rw [h, h'])
    | isFalse h, _ => isFalse (by simp [h])
    | _, isFalse h => isFalse (by simp [h])

end

instance : DecidableEq Value := Value.decEq

def Value.isNull : Value → Bool
  | .null => true
  | _ => false

/-! ### Entities -/

/-- `Entity(HashMap<Attribute, Value>)`. -/
abbrev Attributes := Table String Value

namespace Attributes

/-- `Entity::sorted`. -/
def sorted (entity : Attributes) : Entity :=
  (entity.keys.sort (· ≤ ·)).filterMap fun name =>
    (entity.lookup name).map fun value => (name, value)

/-- `Entity::merge`: the values of `update` win. -/
def merge (entity update : Attributes) : Attributes := assignAll some entity update

/-- `Entity::merge_remove_null_fields`: a null in `update` removes the attribute. -/
def mergeRemoveNullFields (entity update : Attributes) : Attributes :=
  assignAll (fun value => if value.isNull then none else some value) entity update

end Attributes

/-- `EntityKey`.  The causality region is that of the chain throughout. -/
structure EntityKey where
  entityType : String
  entityId : String
deriving DecidableEq

/-- `POI_OBJECT`: the entity type of the proof of indexing. -/
def POI_OBJECT : String := "Poi$"

/-- `Entity::validate`. -/
def Attributes.validate (schema : SchemaDocument) (key : EntityKey) (entity : Attributes) :
    Except String Unit :=
  if key.entityType = POI_OBJECT then .ok ()
  else SplitsSubgraph.validate schema key.entityType key.entityId entity.sorted

/-- `Schema::id_value`, for ids that are strings. -/
def SchemaDocument.idValue (schema : SchemaDocument) (key : EntityKey) : Except String Value :=
  match schema.objectType key.entityType with
  | none =>
    .error ("Entity " ++ key.entityType ++ "[" ++ key.entityId ++ "]: unknown entity type `"
      ++ key.entityType ++ "`")
  | some obj =>
    match (obj.fields.find? fun f => f.name == "id").map fun f => f.fieldType.getBaseType with
    | none => .error "called `Option::unwrap()` on a `None` value"
    | some base =>
      if base = "ID" ∨ base = "String" then .ok (.string key.entityId)
      else
        .error ("Entity type " ++ key.entityType ++ " uses illegal type " ++ base
          ++ " for id column")

/-! ### Operations on entities -/

/-- A representation of entity operations that can be accumulated. -/
inductive EntityOp where
  | remove
  | update (entity : Attributes)
  | overwrite (entity : Attributes)
deriving DecidableEq

def EntityOp.applyTo : EntityOp → Option Attributes → Option Attributes
  | .remove, _ => none
  | .overwrite new, _ => some new
  | .update new, none => some new
  | .update updates, some entity => some (entity.mergeRemoveNullFields updates)

/-- One operation after another.  An update of a removed entity is an overwrite. -/
def EntityOp.accumulate : EntityOp → EntityOp → EntityOp
  | _, .remove => .remove
  | _, .overwrite new => .overwrite new
  | .remove, .update updates => .overwrite updates
  | .update current, .update updates => .update (current.merge updates)
  | .overwrite current, .update updates => .overwrite (current.merge updates)

/-- An entity operation that can be transacted into the store. -/
inductive EntityOperation where
  | set (key : EntityKey) (data : Attributes)
  | remove (key : EntityKey)

/-- As opposed to `EntityOperation`, it is known whether a set inserts or overwrites. -/
inductive EntityModification where
  | insert (key : EntityKey) (data : Attributes)
  | overwrite (key : EntityKey) (data : Attributes)
  | remove (key : EntityKey)
deriving DecidableEq

def EntityModification.entityRef : EntityModification → EntityKey
  | .insert key _ | .overwrite key _ | .remove key => key

def EntityModification.entity : EntityModification → Option Attributes
  | .insert _ data | .overwrite _ data => some data
  | .remove _ => none

/-! ### What the store keeps of an entity -/

/-- A column of an entity table. -/
structure Column where
  field : String
  isNullable : Bool

/-- The columns of the table of an entity type: its fields that are not derived.  The
proof of indexing has a table of its own (`make_poi_table`). -/
def SchemaDocument.tableColumns (schema : SchemaDocument) (entityType : String) : List Column :=
  if entityType = POI_OBJECT then [⟨"digest", false⟩, ⟨"id", false⟩]
  else
    match schema.objectType entityType with
    | some obj =>
      (obj.fields.filter fun f => !f.isDerived).map fun f => ⟨f.name, !f.fieldType.isNonNull⟩
    | none => []

def SchemaDocument.columns (schema : SchemaDocument) (entityType : String) : List String :=
  (schema.tableColumns entityType).map Column.field

/-- What a read gives back of an entity that was written: the columns that are not
null. -/
def Attributes.row (schema : SchemaDocument) (entityType : String) (entity : Attributes) :
    Attributes :=
  filterRows (fun name value => (schema.columns entityType).contains name && !value.isNull) entity

/-- What the store keeps of the entity under a key. -/
def EntityKey.norm (schema : SchemaDocument) (key : EntityKey) :
    Option Attributes → Option Attributes :=
  Option.map fun entity => entity.row schema key.entityType

/-- The store as the cache sees it (`trait ReadStore`).  Names that begin with two
underscores are reserved, so `__typename` is no column. -/
structure ReadStore where
  inputSchema : SchemaDocument
  isImmutable : String → Bool
  get : EntityKey → Option Attributes
  getMany : List EntityKey → List (EntityKey × Attributes)
  mem_getMany : ∀ keys key entity,
    (key, entity) ∈ getMany keys ↔ key ∈ keys ∧ get key = some entity
  typename : ∀ entityType, "__typename" ∉ inputSchema.columns entityType

theorem typename_notMem (entityType : String) : "__typename" ∉ schema.columns entityType := by
  rw [SchemaDocument.columns, SchemaDocument.tableColumns]
  split
  · decide
  · rcases hobj : schema.objectType entityType with - | obj
    · simp
    · have hmem : obj ∈ schema := List.mem_of_find?_eq_some hobj
      simp only [schema, List.mem_cons, List.not_mem_nil, or_false] at hmem
      rcases hmem with rfl | rfl | rfl | rfl | rfl <;> decide

/-- The entities of the store. -/
def ReadStore.entities (store : ReadStore) (key : EntityKey) : Option Attributes :=
  key.norm store.inputSchema (store.get key)

/-! ### The cache -/

structure EntityCache where
  current : LfuCache EntityKey (Option Attributes)
  updates : Pending EntityKey EntityOp
  handlerUpdates : Pending EntityKey EntityOp
  inHandler : Bool

abbrev EntityEnv := LfuEnv EntityKey (Option Attributes)

/-- `LfuCache::get_entity`: cached lookup of an entity. -/
def LfuCache.getEntity (env : EntityEnv) (store : ReadStore)
    (cache : LfuCache EntityKey (Option Attributes)) (key : EntityKey) :
    Option Attributes × LfuCache EntityKey (Option Attributes) :=
  match cache.get key with
  | (none, cache) =>
    -- `__typename` is for queries not for mappings.
    let entity := (store.get key).map fun e => e.erase "__typename"
    (entity, cache.insert env key entity)
  | (some data, cache) => (data, cache)

namespace EntityCache

variable (env : EntityEnv) (store : ReadStore)

/-- `EntityCache::with_current`; `new` is the case of an empty `current`. -/
def withCurrent (current : LfuCache EntityKey (Option Attributes)) : EntityCache :=
  ⟨current, ∅, ∅, false⟩

def entityOp (c : EntityCache) (key : EntityKey) (op : EntityOp) : EntityCache :=
  if c.inHandler then
    { c with handlerUpdates := push EntityOp.accumulate c.handlerUpdates key op }
  else { c with updates := push EntityOp.accumulate c.updates key op }

def enterHandler (c : EntityCache) : Except Panic EntityCache :=
  if c.inHandler then .error .inHandler else .ok { c with inHandler := true }

/-- Apply all handler updates to the main `updates`. -/
def exitHandler (c : EntityCache) : Except Panic EntityCache :=
  if c.inHandler then
    .ok (c.handlerUpdates.entries.foldl (fun c e => c.entityOp e.1 e.2)
      { c with inHandler := false, handlerUpdates := ∅ })
  else .error .inHandler

def exitHandlerAndDiscardChanges (c : EntityCache) : Except Panic EntityCache :=
  if c.inHandler then .ok { c with inHandler := false, handlerUpdates := ∅ }
  else .error .inHandler

/-- Apply a pending operation, if there is one. -/
def applyPending (p : Pending EntityKey EntityOp) (key : EntityKey)
    (entity : Option Attributes) : Option Attributes :=
  match p.lookup key with
  | some op => op.applyTo entity
  | none => entity

/-- Get the current entity, apply any updates from `updates`, then from
`handler_updates`. -/
def get (c : EntityCache) (key : EntityKey) : Option Attributes × EntityCache :=
  let (entity, current) := c.current.getEntity env store key
  (applyPending c.handlerUpdates key (applyPending c.updates key entity),
    { c with current := current })

def remove (c : EntityCache) (key : EntityKey) : EntityCache := c.entityOp key .remove

/-- Set the id if there isn't one yet, and make sure that a previously set id agrees
with the one in the key. -/
def checkId (schema : SchemaDocument) (key : EntityKey) (entity : Attributes) :
    Except String Attributes :=
  match entity.lookup "id" with
  | some (.string prevId) =>
    if prevId = key.entityId then .ok entity
    else
      .error ("Value of " ++ key.entityType
        ++ " attribute 'id' conflicts with ID passed to `store.set()`: " ++ prevId ++ " != "
        ++ key.entityId)
  -- The validation will catch the type mismatch
  | some _ => .ok entity
  | none => (schema.idValue key).map fun value => entity.insert "id" value

/-- `set`.  An entity that is not valid by itself is added to the pending operations all
the same, and then looked at again as merged with what is stored. -/
def set (c : EntityCache) (key : EntityKey) (entity : Attributes) :
    Except String Unit × EntityCache :=
  match checkId store.inputSchema key entity with
  | .error e => (.error e, c)
  | .ok entity =>
    let c' := c.entityOp key (.update entity)
    match entity.validate store.inputSchema key with
    | .ok _ => (.ok (), c')
    | .error _ =>
      match c'.get env store key with
      | (none, c') =>
        (.error ("Failed to read entity " ++ key.entityType ++ "[" ++ key.entityId
          ++ "] back from cache"), c')
      | (some merged, c') => (merged.validate store.inputSchema key, c')

def append (c : EntityCache) (operations : List EntityOperation) : Except Panic EntityCache :=
  if c.inHandler then .error .inHandler
  else
    .ok (operations.foldl (fun c operation =>
      match operation with
      | .set key data => c.entityOp key (.update data)
      | .remove key => c.entityOp key .remove) c)

/-! ### Modifications -/

/-- What becomes of one pending operation, given what the store holds: the entity to
cache, if any, and the modification to make, if any. -/
def modification (key : EntityKey) : Option Attributes → EntityOp →
    Option (Option Attributes) × Option EntityModification
  -- Entity was created
  | none, .update updates | none, .overwrite updates =>
    -- Merging with an empty entity removes null fields.
    let data := Attributes.mergeRemoveNullFields ∅ updates
    (some (some data), some (.insert key data))
  -- Entity may have been changed
  | some current, .update updates =>
    let data := current.mergeRemoveNullFields updates
    (some (some data), if current ≠ data then some (.overwrite key data) else none)
  -- Entity was removed and then updated, so it will be overwritten
  | some current, .overwrite data =>
    (some (some data), if current ≠ data then some (.overwrite key data) else none)
  -- Existing entity was deleted
  | some _, .remove => (some none, some (.remove key))
  -- Entity was deleted, but it doesn't exist in the store
  | none, .remove => (none, none)

/-- The body of the loop of `as_modifications`. -/
def modifyStep (acc : List EntityModification × LfuCache EntityKey (Option Attributes))
    (update : Sigma fun _ : EntityKey => EntityOp) :
    Except Panic (List EntityModification × LfuCache EntityKey (Option Attributes)) := do
  let (cached, current) ← acc.2.remove env update.1
  let (entity, mods) := modification update.1 (cached.bind id) update.2
  return (acc.1 ++ mods.toList,
    match entity with
    | some entity => current.insert env update.1 entity
    | none => current)

/-- The keys that are not cached.  For immutable types the code assumes that all updated
entities are new, and does not look them up. -/
def missing (c : EntityCache) : List EntityKey :=
  (c.updates.keys.filter fun key => !c.current.containsKey key).filter
    fun key => !store.isImmutable key.entityType

/-- The changes that have been made via `set` and `remove`, and the cache for the next
block. -/
def asModifications (c : EntityCache) (entityCacheSize : ℕ) :
    Except Panic (List EntityModification × LfuCache EntityKey (Option Attributes)) := do
  if c.inHandler then throw .inHandler
  let current := (store.getMany (c.missing store)).foldl
    (fun current e => current.insert env e.1 (some e.2)) c.current
  let (mods, current) ← c.updates.entries.foldlM (modifyStep env) ([], current)
  let (_, current) ← current.evict env entityCacheSize
  return (mods, current)

end EntityCache

end SplitsSubgraph
