/-
SplitsSubgraph/Runner.lean

The processing of a block (core/src/subgraph/runner.rs, trigger_processor.rs).

The triggers of a block are matched with the hosts of the subgraph, and the handlers run one
after the other on one entity cache.  Then the proof of indexing is updated, and the pending
operations become the modifications of the block.  If a handler failed for a deterministic
reason and the subgraph does not have the feature `nonFatalErrors`, only the proof of
indexing is written and the subgraph stops.

The loops over hosts and triggers are the same for the entity cache and for plain entities,
and take what they do with a handler as a parameter.  `plainBlock` is the plain counterpart
of `processBlock`: a function from the entities before a block to those after it.

This subgraph has no templates, so no data sources are created while blocks are processed,
and no off-chain data sources.  Triggers that do not decode are left out.
-/
import SplitsSubgraph.HostExports

namespace SplitsSubgraph

open Interaction

/-- What the runner knows of the subgraph: for each data source, the handler that a trigger
matches, if it does; the network; and whether errors are fatal. -/
structure Manifest (τ : Type) where
  hosts : List (τ → Option Handler)
  network : String
  nonFatalErrors : Bool

variable {τ S H : Type}

/-! ### Triggers -/

section triggers

variable (hashers : Hashers H)
  (invoke : Handler → BlockState S H → Except ProcessError (BlockState S H))

/-- `process_trigger`. -/
def SubgraphTriggerProcessor.processTrigger (hosts : List (τ → Option Handler))
    (state : BlockState S H) (trigger : τ) : Except ProcessError (BlockState S H) := do
  let errorCount := state.deterministicErrors.length
  let hostMapping := hosts.filterMap fun host => host trigger
  if hostMapping.isEmpty then return state
  let state ← hostMapping.foldlM (fun state handler => invoke handler state)
    { state with proofOfIndexing := state.proofOfIndexing.startHandler hashers }
  if state.deterministicErrors.length = errorCount then return state
  else if state.deterministicErrors.length = errorCount + 1 then
    return { state with proofOfIndexing := state.proofOfIndexing.writeDeterministicError hashers }
  else throw (.panic .deterministicErrors)

def processTriggers (hosts : List (τ → Option Handler)) (state : BlockState S H)
    (triggers : List τ) : Except ProcessError (BlockState S H) :=
  triggers.foldlM (SubgraphTriggerProcessor.processTrigger hashers invoke hosts) state

end triggers

/-- `BlockState::new`, and the proof of indexing of the block. -/
def BlockState.new (entities : S) (block : ℤ) : BlockState S H := ⟨entities, [], ⟨block, none⟩, []⟩

/-! ### The proof of indexing -/

/-- `PoICausalityRegion::from_network`. -/
def fromNetwork (network : String) : String := "ethereum/" ++ network

def poiKey (network : String) : EntityKey := ⟨POI_OBJECT, fromNetwork network⟩

def poiEntity (key : EntityKey) (digest : String) : Attributes :=
  Finmap.insert "id" (.string key.entityId) (Finmap.insert "digest" (.string digest) ∅)

/-- The digest attribute of the entity of the proof of indexing; a digest is a string here,
and bytes in the source. -/
def prevPoi : Option Attributes → Except ProcessError (Option String)
  | none => .ok none
  | some entity =>
    match entity.lookup "digest" with
    | some (.string digest) => .ok (some digest)
    | _ => .error (.panic .poiDigest)

/-- Transform the proof of indexing changes into entity updates. -/
def updateProofOfIndexing (env : EntityEnv) (store : ReadStore) (hashers : Hashers H)
    (network : String) (poi : ProofOfIndexing H) (cache : EntityCache) :
    Except ProcessError EntityCache :=
  match poi.perCausalityRegion with
  | none => .ok cache
  | some stream => do
    let key := poiKey network
    let (entity, cache) := cache.get env store key
    let prev ← prevPoi entity
    match cache.set env store key (poiEntity key (stream.pause hashers prev)) with
    | (.ok _, cache) => return cache
    | (.error message, _) => throw (.mapping (.unknown message))

/-- The update on plain entities. -/
def plainProofOfIndexing (schema : SchemaDocument) (hashers : Hashers H) (network : String)
    (poi : ProofOfIndexing H) (entities : Entities) : Except ProcessError Entities :=
  match poi.perCausalityRegion with
  | none => .ok entities
  | some stream => do
    let key := poiKey network
    let prev ← prevPoi (entities key)
    match entities.set schema key (poiEntity key (stream.pause hashers prev)) with
    | .ok entities => return entities
    | .error message => throw (.mapping (.unknown message))

/-! ### Blocks -/

def EntityModification.isPoi (m : EntityModification) : Bool :=
  decide (m.entityRef.entityType = POI_OBJECT)

/-- What comes of a block: the modifications to be written, the cache for the next block,
and the error that stops the subgraph, if there is one. -/
structure BlockOutcome where
  mods : List EntityModification
  cache : LfuCache EntityKey (Option Attributes)
  error : Option String

/-- The part of `process_block` that comes before the transaction. -/
def processBlock (env : EntityEnv) (store : ReadStore) (hashers : Hashers H)
    (entityCacheSize : ℕ) (manifest : Manifest τ) (entityLfuCache : LfuCache EntityKey
      (Option Attributes)) (block : ℤ) (triggers : List τ) : Except ProcessError BlockOutcome := do
  let state ← processTriggers hashers (WasmInstance.invokeHandler env store hashers)
    manifest.hosts (.new (.withCurrent entityLfuCache) block) triggers
  let cache ← updateProofOfIndexing env store hashers manifest.network state.proofOfIndexing
    state.entities
  let (mods, cache) ← (cache.asModifications env store entityCacheSize).mapError .panic
  match state.deterministicErrors.head?, manifest.nonFatalErrors with
  | some error, false =>
    -- Make the PoI to be the only entity that'll be stored.
    let mods := mods.filter EntityModification.isPoi
    if mods.length = 1 then
      -- `revert_state` clears the cache
      return ⟨mods, .new false, some error⟩
    else throw (.panic .poiModification)
  | _, _ => return ⟨mods, cache, none⟩

/-- The entities after a block, and the error that stops the subgraph. -/
def plainBlock (schema : SchemaDocument) (hashers : Hashers H) (manifest : Manifest τ) (block : ℤ)
    (triggers : List τ) (entities : Entities) :
    Except ProcessError (Entities × Option String) := do
  let state ← processTriggers hashers (plainInvoke schema hashers) manifest.hosts
    (.new entities block) triggers
  let after ← plainProofOfIndexing schema hashers manifest.network state.proofOfIndexing
    state.entities
  match state.deterministicErrors.head?, manifest.nonFatalErrors with
  | some error, false =>
    if after (poiKey manifest.network) = entities (poiKey manifest.network) then
      throw (.panic .poiModification)
    else
      return (fun key => if key.entityType = POI_OBJECT then after key else entities key,
        some error)
  | _, _ => return (after, none)

end SplitsSubgraph
