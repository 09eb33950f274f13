/-
SplitsSubgraph/Relational.lean

The tables of a deployment (store/postgres/src/relational.rs, relational_queries.rs,
block_range.rs, deployment_store.rs).

Every version of an entity is a row with the range of blocks for which it is valid.  The
SQL of the source is read as what it does to the rows of a table: an update closes the
block range of the current version and inserts a new one, a delete only closes it, and a
revert deletes the versions that begin at the reverted block or later and opens again those
that were current before it.  Immutable entities have only the block they were inserted at,
which is a range without end.  A transaction that fails leaves the deployment as it was.

The tables have no constraint that keeps two versions of an entity from being current at
once (the exclusion constraint is only there in debug builds): that this never happens is
`Deployment.WF`, and rests on the modifications being applicable.  Nor is a block range ever
empty there, which Postgres would treat in its own way.

Left out are the causality region, fulltext columns, interfaces and grafting, none of which
this subgraph has, the chunking of long statements, and failures of the database.
-/
import SplitsSubgraph.Modifications
import SplitsSubgraph.Lib.RangeTable

namespace SplitsSubgraph

open RangeTable

/-- `BlockNumber::MAX`.  Block numbers, `BlockNumber` in the source, are integers here. -/
def BLOCK_NUMBER_MAX : ℤ := 2147483647

inductive StoreError where
  | unknownTable (entityType : String)
  | queryExecutionError (message : String)
  | constraintViolation (message : String)
  /-- a null in a column that is not nullable, reported by the database -/
  | notNullViolation (column : String)
  /-- an id that is already there, reported by the database -/
  | uniqueViolation (entityType : String)
  | duplicateBlockProcessing (block : ℤ)
  | panic (message : String)
  | writerPanic (message : String)
  /-- the background writer has failed before -/
  | poisoned
  /-- anything else that the database may report -/
  | databaseError (message : String)
deriving DecidableEq

/-- The rows of the table of an entity type; the key of a row is its `id` column. -/
abbrev EntityTable := List (Version String Attributes)

/-- The tables of a deployment, by entity type. -/
abbrev Tables := String → EntityTable

structure Layout where
  schema : SchemaDocument
  isImmutable : String → Bool
  isAccountLike : String → Bool

/-- The layout of this subgraph: no entity type is immutable, and no table is like accounts. -/
def splitsLayout : Layout := ⟨schema, fun _ => false, fun _ => false⟩

namespace Layout

variable (layout : Layout)

/-- The entity types that have a table. -/
def entityTypes : List String := (layout.schema.map ObjectType.name ++ [POI_OBJECT]).dedup

def tableForEntity (entityType : String) : Except StoreError Unit :=
  if entityType ∈ layout.entityTypes then .ok () else .error (.unknownTable entityType)

/-! ### Block ranges -/

/-- `BlockRangeColumn::contains`: the SQL that matches only rows whose block range
contains `block`.  Tables that are like accounts state the same thing twice. -/
def contains (entityType : String) (block : ℤ) (r : Version String Attributes) : Bool :=
  if layout.isImmutable entityType then
    decide (block = BLOCK_NUMBER_MAX) || decide (r.lower ≤ block)
  else if layout.isAccountLike entityType && decide (block < BLOCK_NUMBER_MAX) then
    r.covers block && decide (block < r.upper.getD BLOCK_NUMBER_MAX) && decide (r.lower ≤ block)
  else r.covers block

/-- `FindQuery`: the version of an entity that is valid at `block`. -/
def find (tables : Tables) (key : EntityKey) (block : ℤ) : Option Attributes :=
  ((tables key.entityType).find? fun r =>
    decide (r.id = key.entityId) && layout.contains key.entityType block r).map Version.data

/-! ### Inserting, updating and deleting -/

/-- `InsertQuery::new`: the attributes that are not nullable must be there. -/
def checkRequired (key : EntityKey) (entity : Attributes) : List Column → Except StoreError Unit
  | [] => .ok ()
  | column :: columns =>
    if column.isNullable then checkRequired key entity columns
    else
      match entity.lookup column.field with
      | none =>
        .error (.queryExecutionError ("can not insert entity " ++ key.entityType ++ "["
          ++ key.entityId ++ "] since value for non-nullable attribute " ++ column.field
          ++ " is missing. To fix this, mark the attribute as nullable in the GraphQL schema"
          ++ " or change the mapping code to always set this attribute."))
      | some .null => .error (.notNullViolation column.field)
      | some _ => checkRequired key entity columns

/-- A row to be inserted: its id column, and what the columns hold. -/
def insertRow (entityType : String) (e : EntityKey × Attributes) :
    Except StoreError (String × Attributes) := do
  checkRequired e.1 e.2 (layout.schema.tableColumns entityType)
  match e.2.lookup "id" with
  | some (.string id) => return (id, e.2.row layout.schema entityType)
  | _ => throw (.notNullViolation "id")

/-- `InsertQuery`: versions that are current from `block` on. -/
def insertQuery (tables : Tables) (entityType : String)
    (entities : List (EntityKey × Attributes)) (block : ℤ) :
    Except StoreError (Tables × ℕ) := do
  let rows ← entities.mapM (layout.insertRow entityType)
  if layout.isImmutable entityType
      ∧ ¬ ((tables entityType).map Version.id ++ rows.map Prod.fst).Nodup then
    throw (.uniqueViolation entityType)
  return (Function.update tables entityType (tables entityType ++ rows.map (Version.fresh block)),
    rows.length)

def insert (tables : Tables) (entityType : String) (entities : List (EntityKey × Attributes))
    (block : ℤ) : Except StoreError (Tables × ℕ) := do
  layout.tableForEntity entityType
  layout.insertQuery tables entityType entities block

/-- `ClampRangeQuery`: close the current versions at `block`. -/
def clampRangeQuery (tables : Tables) (entityType : String) (ids : List String)
    (block : ℤ) : Except StoreError (Tables × ℕ) :=
  if layout.isImmutable entityType then
    .error (.constraintViolation ("immutable entities can not be deleted or updated (table `"
      ++ entityType ++ "`)"))
  else
    .ok (Function.update tables entityType
        ((tables entityType).map (Version.clamp ids BLOCK_NUMBER_MAX block)),
      ((tables entityType).filter fun r => decide (r.id ∈ ids) && r.covers BLOCK_NUMBER_MAX).length)

def update (tables : Tables) (entityType : String) (entities : List (EntityKey × Attributes))
    (block : ℤ) : Except StoreError (Tables × ℕ) := do
  layout.tableForEntity entityType
  let ids := entities.map fun e => e.1.entityId
  if layout.isImmutable entityType then
    throw (.constraintViolation ("entities of type `" ++ entityType
      ++ "` can not be updated since they are immutable. Entity ids are ["
      ++ ", ".intercalate ids ++ "]"))
  let (tables, _) ← layout.clampRangeQuery tables entityType ids block
  layout.insertQuery tables entityType entities block

def delete (tables : Tables) (entityType : String) (ids : List String) (block : ℤ) :
    Except StoreError (Tables × ℕ) := do
  layout.tableForEntity entityType
  if layout.isImmutable entityType then
    throw (.constraintViolation ("entities of type `" ++ entityType
      ++ "` can not be deleted since they are immutable. Entity ids are ["
      ++ ", ".intercalate ids ++ "]"))
  layout.clampRangeQuery tables entityType ids block

/-! ### Reverting -/

/-- `RevertClampQuery`: open again the versions that contain `block` and are not current.
The query states the same thing twice, in terms of ranges and in terms of bounds. -/
def revertClamp (block : ℤ) (r : Version String Attributes) :
    Version String Attributes :=
  if r.covers block ∧ ¬ r.covers BLOCK_NUMBER_MAX ∧ r.lower ≤ block
      ∧ block < r.upper.getD BLOCK_NUMBER_MAX ∧ r.upper.getD BLOCK_NUMBER_MAX < BLOCK_NUMBER_MAX then
    { r with upper := none }
  else r

/-- The table after `revert_block`. -/
def revertTable (block : ℤ) (entityType : String) (rows : EntityTable) : EntityTable :=
  -- remove all versions whose entire block range lies beyond `block`
  let rows := rows.filter fun r => !decide (block ≤ r.lower)
  if layout.isImmutable entityType then rows else rows.map (revertClamp (block - 1))

/-- How `revert_block` changes the entity count, told from the ids that it removed and
those that it made current again. -/
def revertCount (block : ℤ) (entityType : String) (rows : EntityTable) : ℤ :=
  let removed := (rows.filter fun r => decide (block ≤ r.lower)).map Version.id
  let kept := rows.filter fun r => !decide (block ≤ r.lower)
  let unclamped :=
    if layout.isImmutable entityType then []
    else (kept.filter fun r =>
      r.upper.isSome && (revertClamp (block - 1) r).upper.isNone).map Version.id
  ((unclamped.dedup.filter (· ∉ removed)).length : ℤ)
    - (removed.dedup.filter (· ∉ unclamped)).length

/-- Revert the block with number `block` and all blocks with higher numbers. -/
def revertBlock (tables : Tables) (block : ℤ) : Tables × ℤ :=
  (fun entityType => layout.revertTable block entityType (tables entityType),
    (layout.entityTypes.map fun entityType =>
      layout.revertCount block entityType (tables entityType)).sum)

/-! ### The entity count -/

/-- `count_query`: the number of current versions. -/
def countQuery (tables : Tables) : ℤ :=
  (layout.entityTypes.map fun entityType =>
    if layout.isImmutable entityType then ((tables entityType).length : ℤ)
    else (((tables entityType).filter fun r => r.covers BLOCK_NUMBER_MAX).length : ℤ)).sum

/-- `entity_count_sql`: a change of the entity count.  A count of -1 stands for one that is
not known, and is made up for by counting. -/
def entityCountSql (tables : Tables) (entityCount count : ℤ) : ℤ :=
  if count = 0 then entityCount
  else if entityCount = -1 then layout.countQuery tables
  else entityCount + count

/-! ### The modifications of a block -/

/-- Entries by entity type. -/
def groupByType {α : Type} (entries : List (EntityKey × α)) :
    List (String × List (EntityKey × α)) :=
  (entries.map fun e => e.1.entityType).dedup.map fun entityType =>
    (entityType, entries.filter fun e => decide (e.1.entityType = entityType))

def inserts (mods : List EntityModification) : List (EntityKey × Attributes) :=
  mods.filterMap fun m => match m with
    | .insert key data => some (key, data)
    | _ => none

def overwrites (mods : List EntityModification) : List (EntityKey × Attributes) :=
  mods.filterMap fun m => match m with
    | .overwrite key data => some (key, data)
    | _ => none

def removals (mods : List EntityModification) : List (EntityKey × Unit) :=
  mods.filterMap fun m => match m with
    | .remove key => some (key, ())
    | _ => none

/-- One loop over the groups of modifications, with the number of rows it touched. -/
def applyGroups {α : Type} (apply : Tables → String → List (EntityKey × α) →
    Except StoreError (Tables × ℕ)) (groups : List (String × List (EntityKey × α)))
    (tables : Tables) : Except StoreError (Tables × ℕ) :=
  groups.foldlM (fun acc group => do
    let (tables, n) ← apply acc.1 group.1 group.2
    return (tables, acc.2 + n)) (tables, 0)

/-- Inserts, then overwrites, then removals; and the change of the entity count. -/
def applyEntityModifications (tables : Tables) (mods : List EntityModification)
    (block : ℤ) : Except StoreError (Tables × ℤ) := do
  let (tables, inserted) ← applyGroups
    (fun tables entityType entities => layout.insert tables entityType entities block)
    (groupByType (inserts mods)) tables
  let (tables, _) ← applyGroups
    (fun tables entityType entities => layout.update tables entityType entities block)
    (groupByType (overwrites mods)) tables
  let (tables, removed) ← applyGroups
    (fun tables entityType keys =>
      layout.delete tables entityType (keys.map fun e => e.1.entityId) block)
    (groupByType (removals mods)) tables
  return (tables, inserted - removed)

end Layout

/-! ### Deployments -/

/-- A deployment: its tables, the block it has come to, and the number of its entities. -/
structure Deployment where
  head : Option ℤ
  tables : Tables
  entityCount : ℤ

namespace Deployment

variable (layout : Layout)

def empty : Deployment := ⟨none, fun _ => [], 0⟩

/-- `get`, and `find_many` for one key. -/
def get (d : Deployment) (key : EntityKey) (block : ℤ) : Option Attributes :=
  layout.find d.tables key block

/-- `transact_block_operations`: the modifications of a block, and the move of the head,
which must go forward. -/
def transactBlockOperations (d : Deployment) (block : ℤ)
    (mods : List EntityModification) : Except StoreError Deployment := do
  let (tables, count) ← layout.applyEntityModifications d.tables mods block
  match d.head with
  | some head =>
    if head < block then
      return ⟨some block, tables, layout.entityCountSql tables d.entityCount count⟩
    else throw (.duplicateBlockProcessing block)
  | none => return ⟨some block, tables, layout.entityCountSql tables d.entityCount count⟩

/-- `revert_block_operations`: the head becomes `block`, and what came after it is
undone. -/
def revertBlockOperations (d : Deployment) (block : ℤ) : Except StoreError Deployment :=
  match d.head with
  | none => .error (.panic "called `Option::unwrap()` on a `None` value")
  | some head =>
    if head ≤ block then
      .error (.panic "revert_block_operations must revert only backward")
    else
      -- The revert functions want the number of the first block that we need to get rid of
      let (tables, count) := layout.revertBlock d.tables (block + 1)
      .ok ⟨some block, tables, layout.entityCountSql tables d.entityCount count⟩

end Deployment

end SplitsSubgraph
