/-
SplitsSubgraph/HostExports.lean

What a handler can ask of the node, and what the node does around a handler
(runtime/wasm/src/host_exports.rs, runtime/wasm/src/module/mod.rs,
graph/src/components/subgraph/instance.rs, proof_of_indexing/online.rs).

A handler is a program of calls `store.get`, `store.set`, `store.remove` and `log`
(`Handler`).  The calls work on the entity cache, and every write is also an event of the
proof of indexing.  A handler that fails for a deterministic reason is skipped and its
changes are discarded; any other failure fails the block.  An entity that does not pass
validation is a failure of the second kind: `EntityCache::set` reports it as an error of
unknown origin.

Beside the calls as the source has them stand the calls on plain entities (`plainCall`),
which are changed in place.  Gas, the restriction of data sources to entity types and
everything else that is only there for other kinds of data sources are left out.
-/
import SplitsSubgraph.Normal
import SplitsSubgraph.Lib.Program

namespace SplitsSubgraph

open Interaction

/-! ### Proof of indexing -/

inductive ProofOfIndexingEvent where
  | removeEntity (entityType id : String)
  | setEntity (entityType id : String) (data : Attributes)
  /-- the number of redacted events covers the events previous to this one which are no
  longer transacted to the database -/
  | deterministicError (redactedEvents : ℕ)

/-- `Hashers`, a hash function that can be paused.  What is hashed is written together with
its place in the whole of the proof of indexing. -/
structure Hashers (H : Type) where
  new : H
  writeEvent : H → ProofOfIndexingEvent → List ℕ → H
  writeLength : H → ℕ → List ℕ → H
  mixin : H → H → H
  toBytes : H → String
  fromBytes : String → H

structure BlockEventStream (H : Type) where
  vecLength : ℕ
  handlerStart : ℕ
  blockIndex : ℕ
  hasher : H

namespace BlockEventStream

variable {H : Type} (hashers : Hashers H)

def new (blockNumber : ℤ) : BlockEventStream H := ⟨0, 0, blockNumber.toNat, hashers.new⟩

/-- Finish the current block; `prev` is what the previous ones came to. -/
def pause (stream : BlockEventStream H) (prev : Option String) : String :=
  let digest := hashers.writeLength stream.hasher stream.vecLength [1, 0, stream.blockIndex, 0]
  match prev with
  | some prev => hashers.toBytes (hashers.mixin digest (hashers.fromBytes prev))
  | none => hashers.toBytes digest

def write (stream : BlockEventStream H) (event : ProofOfIndexingEvent) : BlockEventStream H :=
  { stream with
    hasher := hashers.writeEvent stream.hasher event
      [1, 0, stream.blockIndex, 0, stream.vecLength]
    vecLength := stream.vecLength + 1 }

def startHandler (stream : BlockEventStream H) : BlockEventStream H :=
  { stream with handlerStart := stream.vecLength }

end BlockEventStream

/-- `ProofOfIndexing`, for the one region that there is: the network of the data sources.
Its stream is made when it is used first. -/
structure ProofOfIndexing (H : Type) where
  blockNumber : ℤ
  perCausalityRegion : Option (BlockEventStream H)

namespace ProofOfIndexing

variable {H : Type} (hashers : Hashers H)

def entry (poi : ProofOfIndexing H) : BlockEventStream H :=
  poi.perCausalityRegion.getD (BlockEventStream.new hashers poi.blockNumber)

def write (poi : ProofOfIndexing H) (event : ProofOfIndexingEvent) : ProofOfIndexing H :=
  { poi with perCausalityRegion := some ((poi.entry hashers).write hashers event) }

def startHandler (poi : ProofOfIndexing H) : ProofOfIndexing H :=
  { poi with perCausalityRegion := some (poi.entry hashers).startHandler }

def writeDeterministicError (poi : ProofOfIndexing H) : ProofOfIndexing H :=
  let entry := poi.entry hashers
  poi.write hashers (.deterministicError (entry.vecLength - entry.handlerStart))

end ProofOfIndexing

/-! ### Calls on the host -/

inductive HostExportError where
  | unknown (message : String)
  | possibleReorg (message : String)
  | deterministic (message : String)
deriving DecidableEq

inductive HostCall where
  | storeGet (entityType entityId : String)
  | storeSet (entityType entityId : String) (data : Attributes)
  | storeRemove (entityType entityId : String)
  | log (message : String)

@[reducible] def HostCall.Answer : HostCall → Type
  | .storeGet _ _ => Option Attributes
  | .storeSet _ _ _ | .storeRemove _ _ | .log _ => Unit

/-- A handler of the mapping, or a part of one.  A failure that is its own is a trap. -/
abbrev HostProgram (α : Type) := Program HostCall HostCall.Answer HostExportError α

abbrev Handler := HostProgram Unit

/-- `BlockState`, with the proof of indexing and the log that go along with it; `S` is what
the entities are kept in. -/
structure BlockState (S H : Type) where
  entities : S
  deterministicErrors : List String
  proofOfIndexing : ProofOfIndexing H
  logger : List String

namespace BlockState

variable {S H : Type} (hashers : Hashers H)

def writePoiEvent (state : BlockState S H) (event : ProofOfIndexingEvent) : BlockState S H :=
  { state with proofOfIndexing := state.proofOfIndexing.write hashers event }

def log (state : BlockState S H) (message : String) : BlockState S H :=
  { state with logger := state.logger ++ [message] }

end BlockState

section calls

variable {H : Type} (env : EntityEnv) (store : ReadStore) (hashers : Hashers H)

/-- `HostExports`: the calls on the entity cache. -/
def hostCall : (call : HostCall) → BlockState EntityCache H →
    Except HostExportError call.Answer × BlockState EntityCache H
  | .storeGet entityType entityId, state =>
    let (entity, cache) := state.entities.get env store ⟨entityType, entityId⟩
    (.ok entity, { state with entities := cache })
  | .storeSet entityType entityId data, state =>
    let state := state.writePoiEvent hashers (.setEntity entityType entityId data)
    match state.entities.set env store ⟨entityType, entityId⟩ data with
    | (.ok _, cache) => (.ok (), { state with entities := cache })
    | (.error message, cache) => (.error (.unknown message), { state with entities := cache })
  | .storeRemove entityType entityId, state =>
    let state := state.writePoiEvent hashers (.removeEntity entityType entityId)
    (.ok (), { state with entities := state.entities.remove ⟨entityType, entityId⟩ })
  | .log message, state => (.ok (), state.log message)

end calls

/-! ### Handlers -/

inductive MappingError where
  | possibleReorg (message : String)
  | unknown (message : String)
deriving DecidableEq

/-- Why a block was not processed. -/
inductive ProcessError where
  | mapping (e : MappingError)
  | panic (p : Panic)
deriving DecidableEq

/-- `invoke_handler`. -/
def WasmInstance.invokeHandler {H : Type} (env : EntityEnv) (store : ReadStore)
    (hashers : Hashers H) (handler : Handler) (state : BlockState EntityCache H) :
    Except ProcessError (BlockState EntityCache H) := do
  let cache ← state.entities.enterHandler.mapError .panic
  match handler.run (hostCall env store hashers) { state with entities := cache } with
  | (.ok _, state) =>
    let cache ← state.entities.exitHandler.mapError .panic
    return { state with entities := cache }
  | (.error (.possibleReorg message), state) =>
    let _ ← state.entities.exitHandler.mapError .panic
    throw (.mapping (.possibleReorg message))
  | (.error (.unknown message), state) =>
    let _ ← state.entities.exitHandler.mapError .panic
    throw (.mapping (.unknown message))
  | (.error (.deterministic message), state) =>
    -- Restore the updates snapshot, effectively reverting the handler.
    let cache ← state.entities.exitHandlerAndDiscardChanges.mapError .panic
    return { state with
      entities := cache
      deterministicErrors := state.deterministicErrors ++ [message] }

/-! ### The plain thing -/

/-- Entities that are changed in place. -/
abbrev Entities := EntityKey → Option Attributes

/-- An entity merged into the one that is there. -/
def Entities.merged (entities : Entities) (key : EntityKey) (entity : Attributes) : Attributes :=
  match entities key with
  | some old => old.mergeRemoveNullFields entity
  | none => entity

/-- A `store.set` on plain entities. -/
def Entities.set (schema : SchemaDocument) (entities : Entities) (key : EntityKey)
    (data : Attributes) : Except String Entities :=
  match EntityCache.checkId schema key data with
  | .error e => .error e
  | .ok entity =>
    let merged := entities.merged key entity
    match entity.validate schema key with
    | .ok _ => .ok (Function.update entities key (some merged))
    | .error _ =>
      (merged.validate schema key).map fun _ => Function.update entities key (some merged)

section plain

variable {H : Type} (schema : SchemaDocument) (hashers : Hashers H)

/-- The calls on plain entities. -/
def plainCall : (call : HostCall) → BlockState Entities H →
    Except HostExportError call.Answer × BlockState Entities H
  | .storeGet entityType entityId, state => (.ok (state.entities ⟨entityType, entityId⟩), state)
  | .storeSet entityType entityId data, state =>
    let state := state.writePoiEvent hashers (.setEntity entityType entityId data)
    match state.entities.set schema ⟨entityType, entityId⟩ data with
    | .ok entities => (.ok (), { state with entities := entities })
    | .error message => (.error (.unknown message), state)
  | .storeRemove entityType entityId, state =>
    let state := state.writePoiEvent hashers (.removeEntity entityType entityId)
    (.ok (), { state with
      entities := Function.update state.entities ⟨entityType, entityId⟩ none })
  | .log message, state => (.ok (), state.log message)

/-- A handler on plain entities: one that is skipped leaves them as they were. -/
def plainInvoke (handler : Handler) (state : BlockState Entities H) :
    Except ProcessError (BlockState Entities H) :=
  match handler.run (plainCall schema hashers) state with
  | (.ok _, state) => .ok state
  | (.error (.possibleReorg message), _) => .error (.mapping (.possibleReorg message))
  | (.error (.unknown message), _) => .error (.mapping (.unknown message))
  | (.error (.deterministic message), state') =>
    .ok { state' with
      entities := state.entities
      deterministicErrors := state'.deterministicErrors ++ [message] }

end plain

end SplitsSubgraph
