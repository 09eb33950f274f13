/-
SplitsSubgraph/Indexing.lean

A subgraph that is indexed: the runner, the queue of writes and the database together
(core/src/subgraph/runner.rs, store/postgres/src/writable.rs).

The runner takes blocks and reverts from the block stream.  A block is processed through the
entity cache that the block before it has left, and through lookups that go to the queue and
to a database which may have executed none, some or all of what was pushed before; then its
modifications are pushed.  A revert is pushed and clears the cache, and so does everything
else that goes wrong: a block that fails for an unknown reason or a possible reorg is tried
again with an empty cache.  A subgraph that is restarted after a crash starts, with an empty
cache, from what the database has executed, which is a state it has been in before
(`Indexing.restart`).  After a fatal error nothing is processed until the block was reverted
(`unfail_deterministic_error`).  The failure is recorded only after the block was written
(`fail_subgraph`), and a subgraph that crashes in between goes on as if it had not failed; here
the failure counts as recorded with the block.

Of all this, nothing can be seen in the database (`indexing_get`): as of every block it holds
the entities that the triggers of the blocks make which were not reverted, run one after the
other on plain entities (`replay`).  This is so for subgraphs whose handlers set no nulls and no
attributes that are no columns, and without immutable entity types (`Subgraph`): what else is
set may be seen in the cache until it is evicted, and never in the tables.
-/
import SplitsSubgraph.BlockRuns
import SplitsSubgraph.QueueRuns
import SplitsSubgraph.Canonical

namespace SplitsSubgraph

open Interaction EntityModification

/-! ### The plain thing -/

/-- What the block stream asks for. -/
inductive BlockStreamEvent (τ : Type) where
  | processBlock (block : ℤ) (triggers : List τ)
  | revert (block : ℤ)

section chain

variable {τ H : Type}

/-- The blocks after an event. -/
def Chain.follow (chain : Chain (List τ)) : BlockStreamEvent τ → Chain (List τ)
  | .processBlock block triggers => chain ++ [(block, triggers)]
  | .revert block => chain.upTo block

/-- The blocks that were not reverted, with their triggers. -/
def mainChain (events : List (BlockStreamEvent τ)) : Chain (List τ) :=
  events.foldl Chain.follow []

@[simp] theorem mainChain_concat (events : List (BlockStreamEvent τ)) (event : BlockStreamEvent τ) :
    mainChain (events ++ [event]) = (mainChain events).follow event := by
  simp [mainChain, List.foldl_append]

/-- The entities that blocks make of no entities. -/
def replay (schema : SchemaDocument) (hashers : Hashers H) (manifest : Manifest τ)
    (chain : Chain (List τ)) : Except ProcessError Entities :=
  chain.foldlM (fun entities b =>
    (plainBlock schema hashers manifest b.1 b.2 entities).map Prod.fst) fun _ => none

theorem replay_concat (schema : SchemaDocument) (hashers : Hashers H) (manifest : Manifest τ)
    (chain : Chain (List τ)) (block : ℤ) (triggers : List τ) :
    replay schema hashers manifest (chain ++ [(block, triggers)])
      = replay schema hashers manifest chain >>= fun entities =>
          (plainBlock schema hashers manifest block triggers entities).map Prod.fst := by
  rw [replay, List.foldlM_append]
  congr 1
  funext entities
  exact bind_pure _

/-- Blocks make entities that can be written. -/
theorem replay_sound {schema : SchemaDocument} (hschema : schema.Lawful) (hashers : Hashers H)
    {manifest : Manifest τ} (hproper : manifest.Proper schema) {chain : Chain (List τ)}
    {entities : Entities} (h : replay schema hashers manifest chain = .ok entities) :
    entities.Sound schema := by
  refine foldlM_invariant (I := Entities.Sound schema) ?_ ?_ h
  · intro b _ before after hbefore hblock
    rcases hplain : plainBlock schema hashers manifest b.1 b.2 before with e | ⟨after', error⟩
    · rw [hplain] at hblock
      cases hblock
    · rw [hplain] at hblock
      obtain rfl := Except.ok.inj hblock
      exact plainBlock_sound hashers hschema hproper hbefore hplain
  · intro key e he
    cases he

end chain

/-! ### Writing sound entities -/

section storable

variable {layout : Layout}

theorem checkRequired_eq_ok {key : EntityKey} {entity : Attributes} {columns : List Column}
    (h : ∀ column ∈ columns, column.isNullable = false →
      ∃ value, entity.lookup column.field = some value ∧ value.isNull = false) :
    Layout.checkRequired key entity columns = .ok () := by
  induction columns with
  | nil => rfl
  | cons column columns ih =>
    have hrest := ih fun c hc => h c (by simp [hc])
    rw [Layout.checkRequired]
    by_cases hnullable : column.isNullable = true
    · rw [if_pos hnullable]
      exact hrest
    · obtain ⟨value, hvalue, hnull⟩ := h column (by simp) (by simpa using hnullable)
      rw [if_neg hnullable, hvalue]
      rcases value with s | n | l | -
      · exact hrest
      · exact hrest
      · exact hrest
      · simp [Value.isNull] at hnull

theorem mem_entityTypes {key : EntityKey} {entity : Attributes}
    (h : entity.Sound layout.schema key) : key.entityType ∈ layout.entityTypes := by
  rw [Layout.entityTypes, List.mem_dedup]
  rcases h.known with hpoi | hobj
  · simp [hpoi]
  · obtain ⟨obj, hobj⟩ := Option.isSome_iff_exists.mp hobj
    have hmem : obj ∈ layout.schema := List.mem_of_find?_eq_some hobj
    have hname : obj.name = key.entityType := by simpa using List.find?_some hobj
    rw [← hname]
    exact List.mem_append_left _ (List.mem_map_of_mem hmem)

theorem insertRow_eq_ok {key : EntityKey} {entity : Attributes}
    (h : entity.Sound layout.schema key) :
    layout.insertRow key.entityType (key, entity)
      = .ok (key.entityId, entity.row layout.schema key.entityType) := by
  have hrequired : Layout.checkRequired key entity (layout.schema.tableColumns key.entityType)
      = .ok () := by
    apply checkRequired_eq_ok
    intro column hcolumn hnullable
    obtain ⟨value, hvalue⟩ := Option.isSome_iff_exists.mp (h.required column hcolumn hnullable)
    exact ⟨value, hvalue, (Attributes.normal_iff.mp h.normal _ _ hvalue).2⟩
  simp only [Layout.insertRow, hrequired, h.id, bind, Except.bind]
  rfl

/-- Modifications that lead from sound entities to sound entities can be written. -/
theorem storable_of_sound (hmutable : ∀ entityType, layout.isImmutable entityType = false)
    {before after : Entities} (hbefore : before.Sound layout.schema)
    (hafter : after.Sound layout.schema) {m : EntityModification}
    (happlicable : m.Applicable before) (hm : after m.entityRef = m.entity) :
    layout.Storable m := by
  rcases m with ⟨key, data⟩ | ⟨key, data⟩ | key
  · have hsound := hafter key data hm
    exact ⟨mem_entityTypes hsound, insertRow_eq_ok hsound⟩
  · have hsound := hafter key data hm
    exact ⟨mem_entityTypes hsound, hmutable key.entityType, insertRow_eq_ok hsound⟩
  · obtain ⟨old, hold⟩ := Option.isSome_iff_exists.mp happlicable
    exact ⟨mem_entityTypes (hbefore key old hold), hmutable key.entityType⟩

end storable

/-! ### The system -/

/-- A subgraph that can be indexed: its schema is lawful, its handlers are proper, that is they
set only what the tables keep, and none of its entities is immutable. -/
structure Subgraph (τ H : Type) where
  layout : Layout
  manifest : Manifest τ
  hashers : Hashers H
  env : EntityEnv
  entityCacheSize : ℕ
  lawful : layout.schema.Lawful
  proper : manifest.Proper layout.schema
  mutable : ∀ entityType, layout.isImmutable entityType = false

/-- The lookups of the runner while the queue has `reqs` to write.  Each one is made at a time
of its own: the database has come to some state, the queue was started on it at some time, and
the writer may go on while the lookup is made. -/
structure ReadsThrough (layout : Layout) (reqs : List Request) (store : ReadStore) : Prop where
  inputSchema : store.inputSchema = layout.schema
  isImmutable : store.isImmutable = layout.isImmutable
  get : ∀ key, ∃ written pushed capacity q q', reqs = written ++ pushed
    ∧ Queue.Reachable layout capacity (syncStore layout Deployment.empty written) q pushed
    ∧ q.poisoned = false ∧ q.pushing = none
    ∧ Relation.ReflTransGen (Queue.WriterStep layout) q q'
    ∧ store.get key = q.get layout q'.store key

variable {τ H : Type}

/-- The states that indexing comes to: the events that were handled, the requests that were
made for them, the cache, and whether the subgraph has failed. -/
inductive Indexing (g : Subgraph τ H) : List (BlockStreamEvent τ) → List Request →
    LfuCache EntityKey (Option Attributes) → Bool → Prop
  | start : Indexing g [] [] (.new false) false
  | processBlock {events : List (BlockStreamEvent τ)} {reqs : List Request}
      {cache : LfuCache EntityKey (Option Attributes)} {store : ReadStore} {block : ℤ}
      {triggers : List τ} {out : BlockOutcome} (h : Indexing g events reqs cache false)
      (hstore : ReadsThrough g.layout reqs store)
      (hforward : (syncStore g.layout Deployment.empty reqs).headNumber < block)
      (hmax : block < BLOCK_NUMBER_MAX)
      (hout : SplitsSubgraph.processBlock g.env store g.hashers g.entityCacheSize g.manifest cache
        block triggers = .ok out) :
      Indexing g (events ++ [.processBlock block triggers]) (reqs ++ [.write block out.mods])
        out.cache out.error.isSome
  | revert {events : List (BlockStreamEvent τ)} {reqs : List Request}
      {cache : LfuCache EntityKey (Option Attributes)} {failed : Bool} {head block : ℤ}
      (h : Indexing g events reqs cache failed)
      (hhead : (syncStore g.layout Deployment.empty reqs).head = some head)
      (hblock : block < head) :
      Indexing g (events ++ [.revert block]) (reqs ++ [.revertTo block]) (.new false) false
  | retry {events : List (BlockStreamEvent τ)} {reqs : List Request}
      {cache : LfuCache EntityKey (Option Attributes)} {failed : Bool}
      (h : Indexing g events reqs cache failed) : Indexing g events reqs (.new false) failed

/-- What is known of such a state. -/
structure Indexed (g : Subgraph τ H) (events : List (BlockStreamEvent τ)) (reqs : List Request)
    (cache : LfuCache EntityKey (Option Attributes)) : Prop where
  admitted : Admitted g.layout Deployment.empty reqs
  normal : ∀ req ∈ reqs, req.Normal g.layout.schema
  chain_le : ∀ b ∈ mainChain events, b.1 ≤ (syncStore g.layout Deployment.empty reqs).headNumber
  view : ∀ x, replay g.layout.schema g.hashers g.manifest ((mainChain events).upTo x)
    = .ok fun key => (syncStore g.layout Deployment.empty reqs).get g.layout key x
  agrees : ∀ store : ReadStore, store.inputSchema = g.layout.schema →
    (store.entities = fun key =>
      (syncStore g.layout Deployment.empty reqs).get g.layout key BLOCK_NUMBER_MAX) →
    cache.Agrees store
  cacheNormal : cache.Normal g.layout.schema
  noDeadWeight : cache.deadWeight = false

section runs

variable {g : Subgraph τ H} {events : List (BlockStreamEvent τ)} {reqs : List Request}
  {cache : LfuCache EntityKey (Option Attributes)} {store : ReadStore}

theorem Indexed.wf (h : Indexed g events reqs cache) :
    (syncStore g.layout Deployment.empty reqs).WF g.layout :=
  wf_syncStore (Deployment.WF.empty g.layout) h.admitted

/-- **The queue is not seen**: every lookup gives what a store without a queue has. -/
theorem Indexed.get_eq (h : Indexed g events reqs cache)
    (hstore : ReadsThrough g.layout reqs store) :
    store.get = fun key =>
      (syncStore g.layout Deployment.empty reqs).get g.layout key BLOCK_NUMBER_MAX := by
  funext key
  obtain ⟨written, pushed, capacity, q, q', rfl, hreach, hok, hidle, hlater, hget⟩ :=
    hstore.get key
  obtain ⟨hwritten, hpushed⟩ := admitted_append.mp h.admitted
  have hwf := wf_syncStore (Deployment.WF.empty g.layout) hwritten
  have htracks := Queue.tracks_of_reachable hwf hreach hpushed
  rw [hget, htracks.get_eq hwf hpushed (fun req hreq => h.normal req (by simp [hreq])) hok hidle
    hlater, syncStore_append]

theorem Indexed.readNormal (h : Indexed g events reqs cache)
    (hstore : ReadsThrough g.layout reqs store) : store.Normal := by
  intro key
  rw [hstore.inputSchema, h.get_eq hstore]
  exact Layout.norm_find h.wf key BLOCK_NUMBER_MAX

/-- The current entities are those of all blocks. -/
theorem Indexed.current (h : Indexed g events reqs cache) :
    replay g.layout.schema g.hashers g.manifest (mainChain events) = .ok fun key =>
      (syncStore g.layout Deployment.empty reqs).get g.layout key BLOCK_NUMBER_MAX := by
  have hview := h.view BLOCK_NUMBER_MAX
  have hhead := h.wf.head_lt
  rwa [Chain.upTo_eq_self fun b hb => by have := h.chain_le b hb; omega] at hview

theorem Indexed.start (g : Subgraph τ H) : Indexed g [] [] (.new false) where
  admitted := trivial
  normal := by simp
  chain_le := by simp [mainChain]
  view := fun _ => rfl
  agrees := fun _ _ _ => ⟨LfuCache.valid_new false, by simp⟩
  cacheNormal := by
    intro key entity he
    simp at he
  noDeadWeight := rfl

theorem Indexed.retry (h : Indexed g events reqs cache) : Indexed g events reqs (.new false) :=
  { h with
    agrees := fun _ _ _ => ⟨LfuCache.valid_new false, by simp⟩
    cacheNormal := by
      intro key entity he
      simp at he
    noDeadWeight := rfl }

/-- A block, compared with the block on plain entities. -/
theorem Indexed.processBlock_agree (h : Indexed g events reqs cache)
    (hstore : ReadsThrough g.layout reqs store) (block : ℤ) (triggers : List τ) :
    Agree (fun out after => out.error = after.2 ∧ Delivers store after.1 out)
      (SplitsSubgraph.processBlock g.env store g.hashers g.entityCacheSize g.manifest cache block
        triggers)
      (plainBlock g.layout.schema g.hashers g.manifest block triggers store.get) := by
  have hread := h.readNormal hstore
  have hentities : store.entities = store.get := funext hread
  rw [← hstore.inputSchema]
  apply SplitsSubgraph.processBlock_agree g.env g.hashers hread
  · rw [hstore.inputSchema]
    exact g.proper
  · intro entityType
    rw [hstore.isImmutable]
    exact g.mutable entityType
  · exact h.agrees store hstore.inputSchema (hentities.trans (h.get_eq hstore))
  · rw [hstore.inputSchema]
    exact h.cacheNormal
  · exact h.noDeadWeight

theorem Indexed.processBlock (h : Indexed g events reqs cache)
    (hstore : ReadsThrough g.layout reqs store) {block : ℤ} {triggers : List τ}
    {out : BlockOutcome}
    (hforward : (syncStore g.layout Deployment.empty reqs).headNumber < block)
    (hmax : block < BLOCK_NUMBER_MAX)
    (hout : SplitsSubgraph.processBlock g.env store g.hashers g.entityCacheSize g.manifest cache
      block triggers = .ok out) :
    Indexed g (events ++ [.processBlock block triggers]) (reqs ++ [.write block out.mods])
      out.cache := by
  set d := syncStore g.layout Deployment.empty reqs with hd
  have hread := h.readNormal hstore
  have hget : store.get = fun key => d.get g.layout key BLOCK_NUMBER_MAX := h.get_eq hstore
  have hentities : store.entities = store.get := funext hread
  -- the block on plain entities, and what the modifications make of the stored ones
  obtain ⟨after, error, hplain, hdelivers⟩ : ∃ after error,
      plainBlock g.layout.schema g.hashers g.manifest block triggers store.get = .ok (after, error)
        ∧ Delivers store after out := by
    have hagree := h.processBlock_agree hstore block triggers
    obtain ⟨⟨after, error⟩, hplain, -, hdelivers⟩ := hagree.ok_of hout
    exact ⟨after, error, hplain, hdelivers⟩
  have hbefore : Entities.Sound g.layout.schema store.get := by
    rw [hget]
    exact replay_sound g.lawful g.hashers g.proper h.current
  have hafter : after.Sound g.layout.schema :=
    plainBlock_sound g.hashers g.lawful g.proper hbefore hplain
  have happly : applyAll g.layout.schema (fun key => d.get g.layout key BLOCK_NUMBER_MAX) out.mods
      = after := by
    rw [← hget, ← hentities, ← hstore.inputSchema]
    exact hdelivers.applyAll_eq
  have happlicable : ∀ m ∈ out.mods, m.Applicable store.get := by
    rw [← hentities]
    exact hdelivers.applicable
  have haccepts : Layout.Accepts g.layout d block out.mods := by
    refine ⟨hforward, hmax, hdelivers.nodup, ?_, ?_⟩
    · rw [hget] at happlicable
      exact happlicable
    · intro m hm
      refine storable_of_sound g.mutable hbefore hafter (happlicable m hm) ?_
      have hnormal := hdelivers.normal m hm
      rw [← happly, applyAll_of_mem hdelivers.nodup hm, ← hstore.inputSchema, hnormal]
  have hwritten := Deployment.get_written h.wf haccepts
  have hsync : syncStore g.layout Deployment.empty (reqs ++ [.write block out.mods])
      = d.written g.layout block out.mods := syncStore_concat _ _ _
  refine ⟨?_, ?_, ?_, ?_, ?_, ?_, hdelivers.noDeadWeight⟩
  · rw [admitted_concat]
    exact ⟨h.admitted, haccepts⟩
  · intro req hreq
    rcases List.mem_append.mp hreq with hold | hnew
    · exact h.normal req hold
    · obtain rfl := List.mem_singleton.mp hnew
      rw [← hstore.inputSchema]
      exact hdelivers.normal
  · rw [hsync, mainChain_concat]
    intro b hb
    rcases List.mem_append.mp hb with hold | hnew
    · exact (h.chain_le b hold).trans hforward.le
    · obtain rfl := List.mem_singleton.mp hnew
      exact le_rfl
  · intro x
    rw [hsync, mainChain_concat, Chain.follow, Chain.upTo_concat h.chain_le hforward]
    by_cases hx : x < block
    · rw [if_pos hx, h.view x]
      congr 1
      funext key
      rw [hwritten, if_pos hx]
    · rw [if_neg hx, replay_concat, h.current, ← hd, ← hget]
      show (plainBlock _ _ _ _ _ _).map Prod.fst = _
      rw [hplain]
      show Except.ok after = _
      congr 1
      funext key
      rw [hwritten, if_neg hx, happly]
  · intro store' hschema hstore'
    apply hdelivers.agrees store' (hschema.trans hstore.inputSchema.symm)
    rw [hstore', hsync]
    funext key
    rw [hwritten, if_neg (by omega), happly]
  · rw [← hstore.inputSchema]
    exact hdelivers.cacheNormal

theorem Indexed.revert (h : Indexed g events reqs cache) {head block : ℤ}
    (hhead : (syncStore g.layout Deployment.empty reqs).head = some head) (hblock : block < head) :
    Indexed g (events ++ [.revert block]) (reqs ++ [.revertTo block]) (.new false) := by
  set d := syncStore g.layout Deployment.empty reqs with hd
  have hlt : block < d.headNumber := by rwa [headNumber_of_head hhead]
  have hsync : syncStore g.layout Deployment.empty (reqs ++ [.revertTo block])
      = d.reverted g.layout block := syncStore_concat _ _ _
  refine ⟨?_, ?_, ?_, ?_, fun _ _ _ => ⟨LfuCache.valid_new false, by simp⟩, ?_, rfl⟩
  · rw [admitted_concat]
    exact ⟨h.admitted, head, hhead, hblock⟩
  · intro req hreq
    rcases List.mem_append.mp hreq with hold | hnew
    · exact h.normal req hold
    · obtain rfl := List.mem_singleton.mp hnew
      trivial
  · rw [hsync, mainChain_concat]
    intro b hb
    exact of_decide_eq_true (List.mem_filter.mp hb).2
  · intro x
    rw [hsync, mainChain_concat, Chain.follow, Chain.upTo_upTo, h.view]
    congr 1
    funext key
    exact (Deployment.get_reverted h.wf hlt key x).symm
  · intro key entity he
    simp at he

theorem indexed_of_indexing {failed : Bool} (h : Indexing g events reqs cache failed) :
    Indexed g events reqs cache := by
  induction h with
  | start => exact Indexed.start g
  | processBlock _ hstore hforward hmax hout ih => exact ih.processBlock hstore hforward hmax hout
  | revert _ hhead hblock ih => exact ih.revert hhead hblock
  | retry _ ih => exact ih.retry

/-- **A restart.**  The database has executed some of the requests and the queue is lost; where
indexing goes on, with an empty cache, it has been before. -/
theorem Indexing.restart {failed : Bool} (h : Indexing g events reqs cache failed)
    {written : List Request} (hwritten : written <+: reqs) :
    ∃ events' failed', events' <+: events ∧ Indexing g events' written (.new false) failed' := by
  induction h with
  | start =>
    obtain rfl := List.prefix_nil.mp hwritten
    exact ⟨[], false, List.prefix_rfl, .start⟩
  | processBlock h hstore hforward hmax hout ih =>
    rcases List.prefix_concat_iff.mp hwritten with rfl | hbefore
    · exact ⟨_, _, List.prefix_rfl, (h.processBlock hstore hforward hmax hout).retry⟩
    · obtain ⟨events', failed', hevents, hstate⟩ := ih hbefore
      exact ⟨events', failed', hevents.trans (List.prefix_append _ _), hstate⟩
  | revert h hhead hblock ih =>
    rcases List.prefix_concat_iff.mp hwritten with rfl | hbefore
    · exact ⟨_, _, List.prefix_rfl, h.revert hhead hblock⟩
    · obtain ⟨events', failed', hevents, hstate⟩ := ih hbefore
      exact ⟨events', failed', hevents.trans (List.prefix_append _ _), hstate⟩
  | retry h ih => exact ih hwritten

/-- The store that the runner reads while the queue is `q` and the writer rests. -/
def Queue.readStore (layout : Layout) (hlawful : layout.schema.Lawful) (q : Queue) :
    ReadStore where
  inputSchema := layout.schema
  isImmutable := layout.isImmutable
  get := q.get layout q.store
  getMany keys := (q.getMany layout q.store keys).toOption.getD []
  mem_getMany := by
    intro keys key entity
    obtain ⟨all, hall, hmem⟩ := q.getMany_spec layout q.store keys
    rw [hall]
    exact hmem key entity
  typename := hlawful.typename_notMem

theorem readsThrough_readStore {layout : Layout} (hlawful : layout.schema.Lawful) {capacity : ℕ}
    {written pushed : List Request} {q : Queue}
    (h : Queue.Reachable layout capacity (syncStore layout Deployment.empty written) q pushed)
    (hok : q.poisoned = false) (hidle : q.pushing = none) :
    ReadsThrough layout (written ++ pushed) (q.readStore layout hlawful) where
  inputSchema := rfl
  isImmutable := rfl
  get := fun _ => ⟨written, pushed, capacity, q, q, rfl, h, hok, hidle, .refl, rfl⟩

/-- **A block that gets through on plain entities is processed.** -/
theorem Indexing.exists_processBlock (h : Indexing g events reqs cache false) {block : ℤ}
    {triggers : List τ}
    (hforward : (syncStore g.layout Deployment.empty reqs).headNumber < block)
    (hmax : block < BLOCK_NUMBER_MAX) {after : Entities} {error : Option String}
    (hplain : (replay g.layout.schema g.hashers g.manifest (mainChain events) >>=
      plainBlock g.layout.schema g.hashers g.manifest block triggers) = .ok (after, error)) :
    ∃ mods cache', Indexing g (events ++ [.processBlock block triggers])
      (reqs ++ [.write block mods]) cache' error.isSome := by
  have hindexed := indexed_of_indexing h
  set q := Queue.start 1 (syncStore g.layout Deployment.empty reqs)
  have hstart : Queue.Reachable g.layout 1 (syncStore g.layout Deployment.empty reqs) q [] :=
    .start
  have hreads := readsThrough_readStore g.lawful hstart rfl rfl
  rw [List.append_nil] at hreads
  rw [hindexed.current, ← hindexed.get_eq hreads] at hplain
  obtain ⟨out, hout, herror, -⟩ :=
    (hindexed.processBlock_agree hreads block triggers).of_ok hplain
  have hnext := h.processBlock hreads hforward hmax hout
  exact ⟨out.mods, out.cache, by rwa [show out.error = error from herror] at hnext⟩

end runs

/-! ### A small subgraph -/

/-- The store before the first block. -/
def emptyStore : ReadStore where
  inputSchema := schema
  isImmutable := fun _ => false
  get := fun _ => none
  getMany := fun _ => []
  mem_getMany := by simp
  typename := typename_notMem

end SplitsSubgraph
