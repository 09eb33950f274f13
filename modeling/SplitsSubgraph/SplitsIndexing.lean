/-
SplitsSubgraph/SplitsIndexing.lean

This subgraph, indexed: what the handlers of src/mapping.ts leave in the database.

The other modules about the node say that indexing can not be told from running the handlers on
plain entities (Indexing.lean), and that a handler does to plain entities what the function of
Mapping.lean does to the store (HandlerRuns.lean).  Together they say that the tables of the
database are those of `run`, as of every block, whatever was reverted (`indexing_run`).

A handler that traps stops the subgraph, because subgraph.yaml does not have the feature
`nonFatalErrors`, and then nothing of the block is kept (`indexBlock`).  An entity that is not
valid fails the block for a reason the node does not consider deterministic: the block is tried
again, and is never written.  So no save was rejected in the blocks that were written, and on
them the validated run is the plain one of the other modules (`indexing_run_plain`).

It also means that each `CreateSplit` event of these blocks comes after the call of its split.
On a chain that delivers the event of a new split before its call, and a transaction with both
is delivered so (Delivery.lean), the save of `handleCreateSplit` is rejected, the subgraph does
not get past that block, and all that is said here is about the blocks before it.
-/
import SplitsSubgraph.HandlerRuns
import SplitsSubgraph.Indexing
import SplitsSubgraph.Completeness

namespace SplitsSubgraph

open Interaction

/-- The entities are those of a store, the proof of indexing aside. -/
def Entities.Shows (entities : Entities) (st : Store) : Prop :=
  ∀ key : EntityKey, key.entityType ≠ POI_OBJECT → entities key = st.entities key

theorem shows_empty : Entities.Shows (fun _ => none) Store.empty := by
  intro key _
  unfold Store.entities
  split <;> rfl

variable {H : Type} {hashers : Hashers H} (trap : Abort → String)

/-! ### Handlers -/

section handlers

variable {t t' : BlockState Entities H} {st : Store} {trigger : Trigger}

theorem plainCall_errors (hashers : Hashers H) (call : HostCall) (t : BlockState Entities H) :
    (plainCall schema hashers call t).2.deterministicErrors = t.deterministicErrors := by
  rcases call with ⟨entityType, id⟩ | ⟨entityType, id, data⟩ | ⟨entityType, id⟩ | message
  · rfl
  · rcases hset : Entities.set schema t.entities ⟨entityType, id⟩ data with m | entities <;>
      simp only [plainCall, BlockState.writePoiEvent, hset]
  · rfl
  · rfl

/-- A handler does not see the errors of others. -/
theorem run_errors {α : Type} (hashers : Hashers H) (p : HostProgram α)
    (t : BlockState Entities H) :
    (p.run (plainCall schema hashers) t).2.deterministicErrors = t.deterministicErrors := by
  induction p generalizing t with
  | ret a => rfl
  | fail e => rfl
  | call call next ih =>
    have hcall := plainCall_errors hashers call t
    rw [Program.run]
    rcases hdef : plainCall schema hashers call t with ⟨e | a, t'⟩
    · rw [hdef] at hcall
      exact hcall
    · rw [hdef] at hcall
      exact (ih a t').trans hcall

theorem mirrors_enter (hashers : Hashers H) (ht : t.entities.Shows st) :
    Mirrors hashers t (Host.enter .validated st) t :=
  ⟨rfl, ht, rfl, (List.append_nil _).symm⟩

/-- A handler that ends. -/
theorem plainInvoke_ok (hashers : Hashers H) (ht : t.entities.Shows st) {host : Host}
    (hok : invokeHandler .validated st trigger = .ok host) :
    ∃ t', plainInvoke schema hashers (Mapping.handler trap trigger) t = .ok t'
      ∧ Mirrors hashers t host t' ∧ t'.deterministicErrors = t.deterministicErrors := by
  have hcomputes := computes_handler trap (mirrors_enter hashers ht) trigger
  have herrors := run_errors hashers (Mapping.handler trap trigger) t
  change handle (Host.enter .validated st) trigger = .ok host at hok
  rw [hok] at hcomputes
  obtain ⟨⟨⟩, t', hrun, hmirrors⟩ := hcomputes
  rw [hrun] at herrors
  exact ⟨t', by rw [plainInvoke, hrun], hmirrors, herrors⟩

/-- A handler that is stopped. -/
theorem plainInvoke_error (ht : t.entities.Shows st) {a : Abort}
    (herr : invokeHandler .validated st trigger = .error a) :
    (∃ message, a = .invalidEntity message
      ∧ plainInvoke schema hashers (Mapping.handler trap trigger) t
        = .error (.mapping (.unknown message)))
    ∨ (∀ message, a ≠ .invalidEntity message)
      ∧ ∃ t', plainInvoke schema hashers (Mapping.handler trap trigger) t = .ok t'
        ∧ t'.entities = t.entities
        ∧ t'.deterministicErrors = t.deterministicErrors ++ [trap a] := by
  have hcomputes := computes_handler trap (mirrors_enter hashers ht) trigger
  have herrors := run_errors hashers (Mapping.handler trap trigger) t
  change handle (Host.enter .validated st) trigger = .error a at herr
  rw [herr] at hcomputes
  obtain ⟨t', hrun⟩ := hcomputes
  rw [hrun] at herrors
  have htrap : ∀ message, Abort.hostError trap a = .deterministic message →
      ∃ t'', plainInvoke schema hashers (Mapping.handler trap trigger) t = .ok t''
        ∧ t''.entities = t.entities
        ∧ t''.deterministicErrors = t.deterministicErrors ++ [message] := by
    intro message hmessage
    rw [hmessage] at hrun
    refine ⟨{ t' with
      entities := t.entities
      deterministicErrors := t'.deterministicErrors ++ [message] }, ?_, rfl, ?_⟩
    · rw [plainInvoke, hrun]
    · exact congrArg (fun errors => errors ++ [message]) herrors
  rcases a with ⟨entityType, entityId, field⟩ | - | message
  · exact Or.inr ⟨nofun, htrap _ rfl⟩
  · exact Or.inr ⟨nofun, htrap _ rfl⟩
  · exact Or.inl ⟨message, rfl, by rw [plainInvoke, hrun]; rfl⟩

/-- What is read through the cache is what the plain state has. -/
theorem Follows.shows_get (env : EntityEnv) {store : ReadStore} (hstore : store.Normal)
    {s : BlockState EntityCache H} (hfollows : Follows store ⟨t.entities, none⟩ s t)
    (hshows : t.entities.Shows st) :
    Entities.Shows (fun key => (s.entities.get env store key).1) st := by
  intro key hkey
  show (s.entities.get env store key).1 = _
  rw [hfollows.refines.get_eq env hfollows.normal hstore key]
  exact hshows key hkey

/-- **A handler of src/mapping.ts, run by the node**, as the first one of a block or after others:
let the state of the block follow one on plain entities, and these be the entities of `st`.  A
handler that ends leaves the rows that Mapping.lean says, one event for each `store.set` call and
its warnings; a save that is rejected fails the block with the message; and a trap is noted and
leaves the rows as they were.  The state then follows again. -/
theorem invokeHandler_splits (env : EntityEnv) (hashers : Hashers H) {store : ReadStore}
    (hstore : store.Normal) (hschema : store.inputSchema = schema)
    {s : BlockState EntityCache H} (hfollows : Follows store ⟨t.entities, none⟩ s t)
    (hshows : t.entities.Shows st) (trigger : Trigger) :
    (∀ host, invokeHandler .validated st trigger = .ok host →
      ∃ s' t', WasmInstance.invokeHandler env store hashers (Mapping.handler trap trigger) s
          = .ok s'
        ∧ Follows store ⟨t'.entities, none⟩ s' t' ∧ t'.entities.Shows host.store
        ∧ Entities.Shows (fun key => (s'.entities.get env store key).1) host.store
        ∧ s'.proofOfIndexing
          = host.sets.foldl (fun poi e => poi.write hashers e.event) s.proofOfIndexing
        ∧ s'.logger = s.logger ++ host.warnings
        ∧ s'.deterministicErrors = s.deterministicErrors)
    ∧ ∀ a, invokeHandler .validated st trigger = .error a →
      (∃ message, a = .invalidEntity message ∧ WasmInstance.invokeHandler env store hashers
          (Mapping.handler trap trigger) s = .error (.mapping (.unknown message)))
      ∨ ∃ s' t', WasmInstance.invokeHandler env store hashers (Mapping.handler trap trigger) s
          = .ok s'
        ∧ Follows store ⟨t'.entities, none⟩ s' t' ∧ t'.entities.Shows st
        ∧ Entities.Shows (fun key => (s'.entities.get env store key).1) st
        ∧ s'.deterministicErrors = s.deterministicErrors ++ [trap a] := by
  have hproper : (Mapping.handler trap trigger).Always (HostCall.Proper store.inputSchema) := by
    rw [hschema]
    exact proper_handler trap trigger
  have hagree := invokeHandler_agree env hashers hstore hproper hfollows
  rw [hschema] at hagree
  constructor
  · intro host hok
    obtain ⟨t', hplain, hmirrors, herrors⟩ := plainInvoke_ok trap hashers hshows hok
    obtain ⟨s', hrun, hfollows'⟩ := hagree.of_ok hplain
    refine ⟨s', t', hrun, hfollows', hmirrors.entities,
      hfollows'.shows_get env hstore hmirrors.entities, ?_, ?_, ?_⟩
    · rw [hfollows'.proofOfIndexing, hfollows.proofOfIndexing]
      exact hmirrors.proofOfIndexing
    · rw [hfollows'.logger, hfollows.logger]
      exact hmirrors.logger
    · rw [hfollows'.errors, hfollows.errors]
      exact herrors
  · intro a herr
    rcases plainInvoke_error trap hshows herr with ⟨message, ha, hplain⟩
        | ⟨-, t', hplain, hentities, herrors⟩
    · exact Or.inl ⟨message, ha, hagree.of_error hplain⟩
    · obtain ⟨s', hrun, hfollows'⟩ := hagree.of_ok hplain
      have hshows' : t'.entities.Shows st := by rwa [hentities]
      refine Or.inr ⟨s', t', hrun, hfollows', hshows', hfollows'.shows_get env hstore hshows', ?_⟩
      rw [hfollows'.errors, hfollows.errors]
      exact herrors

/-- A split between two accounts. -/
def evenCall : CreateSplitCall :=
  ⟨[Address.filled 1, Address.filled 2], [500000, 500000], 0, Address.filled 9⟩

def evenKey : EntityKey := ⟨"Split", (Address.filled 9).toHex⟩

theorem exists_evenCall : ∃ host,
    invokeHandler .validated Store.empty (.createSplitCall evenCall) = .ok host
      ∧ (host.store.entities evenKey).isSome = true
      ∧ ∃ host', invokeHandler .validated host.store (.createSplit ⟨evenCall.split⟩) = .ok host'
        ∧ host'.store = host.store := ⟨_, rfl, rfl, _, rfl, rfl⟩

/-- The call of the split, and its event after it. -/
theorem invokeHandler_splits_evenCall : ∃ s s',
    WasmInstance.invokeHandler EntityCache.scanEnv emptyStore eventHashers
        (Mapping.handler (fun _ => "unreachable") (.createSplitCall evenCall))
        (.new (.withCurrent (.new false)) 1) = .ok s
      ∧ WasmInstance.invokeHandler EntityCache.scanEnv emptyStore eventHashers
        (Mapping.handler (fun _ => "unreachable") (.createSplit ⟨evenCall.split⟩)) s = .ok s'
      ∧ ((s'.entities.get EntityCache.scanEnv emptyStore evenKey).1).isSome = true
      ∧ s'.deterministicErrors = [] := by
  obtain ⟨host, hok, hsome, host', hok', hsame⟩ := exists_evenCall
  have hstore : emptyStore.Normal := fun _ => rfl
  have hnormal : LfuCache.Normal schema (.new false) := by
    intro key entity he
    simp at he
  have hnew := follows_new (H := List ProofOfIndexingEvent) hstore
    ⟨LfuCache.valid_new false, by simp⟩ hnormal rfl 1
  obtain ⟨s, t, hrun, hfollows, hshows, -, -, -, herrors⟩ := (invokeHandler_splits
    (fun _ => "unreachable") EntityCache.scanEnv eventHashers hstore rfl hnew shows_empty _).1
    host hok
  obtain ⟨s', t', hrun', -, -, hentities, -, -, herrors'⟩ := (invokeHandler_splits
    (fun _ => "unreachable") EntityCache.scanEnv eventHashers hstore rfl hfollows hshows _).1
    host' hok'
  have hsplit : (s'.entities.get EntityCache.scanEnv emptyStore evenKey).1
      = host'.store.entities evenKey := hentities evenKey (by decide)
  exact ⟨s, s', hrun, hrun', by rw [hsplit, hsame, hsome], herrors'.trans herrors⟩

end handlers

theorem proper_splitsManifest (nonFatalErrors : Bool) :
    (splitsManifest trap nonFatalErrors).Proper schema := by
  intro host hhost trigger handler h
  obtain rfl := List.mem_singleton.mp hhost
  obtain rfl := Option.some.inj h
  exact proper_handler trap trigger

/-! ### Blocks -/

/-- Some handler of the block is stopped. -/
def blockAborts (st : Store) : List Trigger → Bool
  | [] => false
  | trigger :: triggers =>
    match invokeHandler .validated st trigger with
    | .ok host => blockAborts host.store triggers
    | .error _ => true

/-- The store after a block.  If a handler is stopped, nothing of the block is kept, unless the
subgraph has `nonFatalErrors`. -/
def indexBlock (nonFatalErrors : Bool) (st : Store) (triggers : List Trigger) : Store :=
  if blockAborts st triggers && !nonFatalErrors then st
  else triggers.foldl (processTrigger .validated) st

section blocks

variable {t t' : BlockState Entities H} {st : Store} {nonFatalErrors : Bool}

theorem processTrigger_splits (ht : t.entities.Shows st) {trigger : Trigger}
    (hrun : SubgraphTriggerProcessor.processTrigger hashers (plainInvoke schema hashers)
      (splitsManifest trap nonFatalErrors).hosts t trigger = .ok t') :
    t'.entities.Shows (processTrigger .validated st trigger)
    ∧ ((∃ host, invokeHandler .validated st trigger = .ok host
        ∧ t'.deterministicErrors = t.deterministicErrors)
      ∨ ∃ a, invokeHandler .validated st trigger = .error a
        ∧ (∀ message, a ≠ .invalidEntity message)
        ∧ t'.deterministicErrors = t.deterministicErrors ++ [trap a]) := by
  rcases processTrigger_eq_ok hashers hrun with ⟨hnone, -⟩ | ⟨t₁, hall, hcheck⟩
  · cases hnone
  · set t₀ : BlockState Entities H :=
      { t with proofOfIndexing := t.proofOfIndexing.startHandler hashers }
    have ht₀ : t₀.entities.Shows st := ht
    have hone : plainInvoke schema hashers (Mapping.handler trap trigger) t₀ = .ok t₁ := by
      change ([Mapping.handler trap trigger].foldlM
        (fun s handler => plainInvoke schema hashers handler s) t₀) = .ok t₁ at hall
      rw [List.foldlM_cons] at hall
      simpa only [List.foldlM_nil, bind_pure] using hall
    -- the mark in the proof of indexing changes neither entities nor errors
    obtain ⟨hentities, herrors⟩ : t'.entities = t₁.entities
        ∧ t'.deterministicErrors = t₁.deterministicErrors := by
      rcases hcheck with ⟨-, rfl⟩ | ⟨-, rfl⟩ <;> exact ⟨rfl, rfl⟩
    rw [hentities, herrors]
    rcases hinvoke : invokeHandler .validated st trigger with a | host
    · rw [processTrigger_of_error _ _ _ hinvoke]
      rcases plainInvoke_error trap ht₀ hinvoke with ⟨m, -, hfails⟩
          | ⟨hvalid, t₂, hok, hsame, hmore⟩
      · rw [hfails] at hone
        cases hone
      · obtain rfl := Except.ok.inj (hok.symm.trans hone)
        refine ⟨?_, Or.inr ⟨a, rfl, hvalid, hmore⟩⟩
        rw [hsame]
        exact ht₀
    · rw [processTrigger_of_ok _ _ _ hinvoke]
      obtain ⟨t₂, hok, hmirrors, hsame⟩ := plainInvoke_ok trap hashers ht₀ hinvoke
      obtain rfl := Except.ok.inj (hok.symm.trans hone)
      exact ⟨hmirrors.entities, Or.inl ⟨host, rfl, hsame⟩⟩

/-- The triggers of a block, one after the other. -/
theorem processTriggers_splits (ht : t.entities.Shows st) {triggers : List Trigger}
    (hrun : processTriggers hashers (plainInvoke schema hashers)
      (splitsManifest trap nonFatalErrors).hosts t triggers = .ok t') :
    t'.entities.Shows (triggers.foldl (processTrigger .validated) st) ∧ SavesAccepted st triggers
    ∧ ∃ errors, t'.deterministicErrors = t.deterministicErrors ++ errors
      ∧ (errors.isEmpty = !blockAborts st triggers) := by
  induction triggers generalizing t st with
  | nil =>
    obtain rfl := Except.ok.inj hrun
    exact ⟨ht, trivial, [], (List.append_nil _).symm, rfl⟩
  | cons trigger triggers ih =>
    rw [processTriggers, List.foldlM_cons] at hrun
    rcases hone : SubgraphTriggerProcessor.processTrigger hashers (plainInvoke schema hashers)
        (splitsManifest trap nonFatalErrors).hosts t trigger with e | t₁
    · rw [hone] at hrun
      cases hrun
    · rw [hone] at hrun
      obtain ⟨hshows, herrors⟩ := processTrigger_splits trap ht hone
      obtain ⟨hshows', haccepted, errors, hmore, hempty⟩ := ih hshows hrun
      rcases herrors with ⟨host, hinvoke, hsame⟩ | ⟨a, hinvoke, hvalid, hadded⟩
      · refine ⟨hshows', ⟨fun message e => ?_, haccepted⟩, errors, by rw [hmore, hsame], ?_⟩
        · rw [hinvoke] at e
          cases e
        · rw [processTrigger_of_ok _ _ _ hinvoke] at hempty
          rw [hempty, blockAborts, hinvoke]
      · refine ⟨hshows', ⟨fun message e => ?_, haccepted⟩, trap a :: errors, ?_, ?_⟩
        · rw [hinvoke] at e
          exact hvalid message (Except.error.inj e)
        · rw [hmore, hadded, List.append_assoc]
          rfl
        · rw [blockAborts, hinvoke]
          rfl

/-- **A block of this subgraph.** -/
theorem plainBlock_splits {entities entities' : Entities} {block : ℤ} {triggers : List Trigger}
    {error : Option String} (h : entities.Shows st)
    (hrun : plainBlock schema hashers (splitsManifest trap nonFatalErrors) block triggers entities
      = .ok (entities', error)) :
    entities'.Shows (indexBlock nonFatalErrors st triggers) ∧ SavesAccepted st triggers
      ∧ error.isSome = (blockAborts st triggers && !nonFatalErrors) := by
  unfold plainBlock at hrun
  rcases htriggers : processTriggers hashers (plainInvoke schema hashers)
      (splitsManifest trap nonFatalErrors).hosts (.new entities block) triggers with e | state
  · simp only [htriggers] at hrun
    cases hrun
  · obtain ⟨hshows, haccepted, errors, herrors, hempty⟩ := processTriggers_splits trap h htriggers
    obtain rfl : state.deterministicErrors = errors := herrors
    rcases hpoi : plainProofOfIndexing schema hashers (splitsManifest trap nonFatalErrors).network
        state.proofOfIndexing state.entities with e | after
    · simp only [htriggers, hpoi, bind, Except.bind] at hrun
      cases hrun
    · -- the proof of indexing is no entity of the store
      have hafter : after.Shows (triggers.foldl (processTrigger .validated) st) := by
        intro key hkey
        rw [plainProofOfIndexing_of_ne hashers hpoi fun e => hkey (by rw [e]; rfl)]
        exact hshows key hkey
      simp only [htriggers, hpoi, bind, Except.bind] at hrun
      rcases hlist : state.deterministicErrors with - | ⟨message, rest⟩
      · have hnone : blockAborts st triggers = false := by simpa [hlist] using hempty
        rw [hlist] at hrun
        obtain ⟨rfl, rfl⟩ := Prod.mk.inj (Except.ok.inj hrun)
        rw [indexBlock, hnone]
        exact ⟨hafter, haccepted, rfl⟩
      · have hsome : blockAborts st triggers = true := by simpa [hlist] using hempty
        rw [hlist] at hrun
        rw [indexBlock, hsome]
        rcases nonFatalErrors with - | -
        · have hfatal : (splitsManifest trap false).nonFatalErrors = false := rfl
          simp only [hfatal, List.head?_cons] at hrun
          split at hrun
          · cases hrun
          · obtain ⟨rfl, rfl⟩ := Prod.mk.inj (Except.ok.inj hrun)
            refine ⟨fun key hkey => ?_, haccepted, rfl⟩
            show (if key.entityType = POI_OBJECT then after key else entities key) = st.entities key
            rw [if_neg hkey]
            exact h key hkey
        · obtain ⟨rfl, rfl⟩ := Prod.mk.inj (Except.ok.inj hrun)
          exact ⟨hafter, haccepted, rfl⟩

/-- A trigger whose handler ends. -/
theorem exists_processTrigger (ht : t.entities.Shows st) {trigger : Trigger} {host : Host}
    (hok : invokeHandler .validated st trigger = .ok host) :
    ∃ t', SubgraphTriggerProcessor.processTrigger hashers (plainInvoke schema hashers)
        (splitsManifest trap nonFatalErrors).hosts t trigger = .ok t'
      ∧ t'.entities.Shows host.store ∧ t'.deterministicErrors = t.deterministicErrors := by
  set t₀ : BlockState Entities H :=
    { t with proofOfIndexing := t.proofOfIndexing.startHandler hashers }
  have ht₀ : t₀.entities.Shows st := ht
  obtain ⟨t', hinvoke, hmirrors, herrors⟩ := plainInvoke_ok trap hashers ht₀ hok
  refine ⟨t', ?_, hmirrors.entities, herrors⟩
  show (plainInvoke schema hashers _ t₀ >>= pure) >>= _ = _
  rw [hinvoke]
  show (if t'.deterministicErrors.length = t.deterministicErrors.length then _ else _) = _
  rw [if_pos (congrArg List.length herrors)]
  rfl

theorem exists_processTriggers (ht : t.entities.Shows st) {triggers : List Trigger}
    (hends : blockAborts st triggers = false) :
    ∃ t', processTriggers hashers (plainInvoke schema hashers)
        (splitsManifest trap nonFatalErrors).hosts t triggers = .ok t'
      ∧ t'.deterministicErrors = t.deterministicErrors := by
  induction triggers generalizing t st with
  | nil => exact ⟨t, rfl, rfl⟩
  | cons trigger triggers ih =>
    rw [blockAborts] at hends
    rcases hinvoke : invokeHandler .validated st trigger with a | host
    · rw [hinvoke] at hends
      cases hends
    · rw [hinvoke] at hends
      obtain ⟨t₁, hone, hshows, hsame⟩ := exists_processTrigger trap ht hinvoke
      obtain ⟨t', hrun, herrors⟩ := ih hshows hends
      refine ⟨t', ?_, herrors.trans hsame⟩
      rw [processTriggers, List.foldlM_cons, hone]
      exact hrun

/-- **A block whose handlers all end gets through.** -/
theorem exists_plainBlock {entities : Entities} (hsound : entities.Sound schema)
    (h : entities.Shows st) (block : ℤ) {triggers : List Trigger}
    (hends : blockAborts st triggers = false) :
    ∃ after, plainBlock schema hashers (splitsManifest trap nonFatalErrors) block triggers entities
      = .ok (after, none) := by
  have hstart : (.new entities block : BlockState Entities H).entities.Shows st := h
  obtain ⟨state, htriggers, herrors⟩ := exists_processTriggers trap hstart hends
  have hafter : state.entities.Sound schema := processTriggers_sound hashers lawful_schema
    (proper_splitsManifest trap nonFatalErrors) hsound htriggers
  obtain ⟨after, hpoi⟩ : ∃ after, plainProofOfIndexing schema hashers
      (splitsManifest trap nonFatalErrors).network state.proofOfIndexing state.entities
        = .ok after := plainProofOfIndexing_ok hashers _ hafter
  have hnone : state.deterministicErrors = [] := herrors
  refine ⟨after, ?_⟩
  unfold plainBlock
  simp only [htriggers, hpoi, hnone, bind, Except.bind, List.head?_nil]
  rfl

end blocks

/-! ### Chains -/

/-- The store after the blocks of a chain. -/
def indexBlocks (nonFatalErrors : Bool) (chain : Chain (List Trigger)) : Store :=
  chain.foldl (fun st b => indexBlock nonFatalErrors st b.2) Store.empty

/-- No block of the chain has stopped the subgraph. -/
def Clean (nonFatalErrors : Bool) (chain : Chain (List Trigger)) : Prop :=
  ∀ before b, before ++ [b] <+: chain →
    (blockAborts (indexBlocks nonFatalErrors before) b.2 && !nonFatalErrors) = false

section chains

variable {nonFatalErrors : Bool} {chain : Chain (List Trigger)}

theorem indexBlocks_concat (b : ℤ × List Trigger) :
    indexBlocks nonFatalErrors (chain ++ [b])
      = indexBlock nonFatalErrors (indexBlocks nonFatalErrors chain) b.2 := by
  rw [indexBlocks, List.foldl_append]
  rfl

theorem clean_concat {b : ℤ × List Trigger} :
    Clean nonFatalErrors (chain ++ [b]) ↔ Clean nonFatalErrors chain
      ∧ (blockAborts (indexBlocks nonFatalErrors chain) b.2 && !nonFatalErrors) = false := by
  constructor
  · intro h
    exact ⟨fun before b' hb' => h before b' (hb'.trans (List.prefix_append _ _)),
      h chain b List.prefix_rfl⟩
  · rintro ⟨hchain, hb⟩ before b' hb'
    rcases List.prefix_concat_iff.mp hb' with heq | hprefix
    · obtain ⟨rfl, hlast⟩ := List.append_inj' heq rfl
      obtain rfl := List.singleton_inj.mp hlast
      exact hb
    · exact hchain before b' hprefix

/-- As long as nothing stops the subgraph, blocks are only a grouping of triggers. -/
theorem Clean.indexBlocks_eq (h : Clean nonFatalErrors chain) :
    indexBlocks nonFatalErrors chain = run .validated (chain.flatMap Prod.snd) := by
  induction chain using List.reverseRecOn with
  | nil => rfl
  | append_singleton chain b ih =>
    obtain ⟨hchain, hb⟩ := clean_concat.mp h
    rw [indexBlocks_concat, indexBlock, hb, ih hchain, List.flatMap_append, run, run,
      List.foldl_append]
    simp

theorem replay_splits {entities : Entities}
    (h : replay schema hashers (splitsManifest trap nonFatalErrors) chain = .ok entities) :
    entities.Shows (indexBlocks nonFatalErrors chain) := by
  induction chain using List.reverseRecOn generalizing entities with
  | nil =>
    obtain rfl := Except.ok.inj h
    exact shows_empty
  | append_singleton chain b ih =>
    obtain ⟨block, triggers⟩ := b
    rw [replay_concat] at h
    rcases hbefore : replay schema hashers (splitsManifest trap nonFatalErrors) chain
      with e | before
    · rw [hbefore] at h
      cases h
    · rw [hbefore] at h
      rcases hplain : plainBlock schema hashers (splitsManifest trap nonFatalErrors) block triggers
          before with e | ⟨after, error⟩
      · change (plainBlock schema hashers _ block triggers before).map Prod.fst = _ at h
        rw [hplain] at h
        cases h
      · change (plainBlock schema hashers _ block triggers before).map Prod.fst = _ at h
        rw [hplain] at h
        obtain rfl := Except.ok.inj h
        rw [indexBlocks_concat]
        exact (plainBlock_splits trap (ih hbefore) hplain).1

/-- In clean blocks that get through no save is rejected. -/
theorem Clean.savesAccepted (h : Clean nonFatalErrors chain) {entities : Entities}
    (hreplay : replay schema hashers (splitsManifest trap nonFatalErrors) chain = .ok entities) :
    SavesAccepted Store.empty (chain.flatMap Prod.snd) := by
  induction chain using List.reverseRecOn generalizing entities with
  | nil => trivial
  | append_singleton chain b ih =>
    obtain ⟨block, triggers⟩ := b
    obtain ⟨hchain, -⟩ := clean_concat.mp h
    rw [replay_concat] at hreplay
    rcases hbefore : replay schema hashers (splitsManifest trap nonFatalErrors) chain
      with e | before
    · rw [hbefore] at hreplay
      cases hreplay
    · rw [hbefore] at hreplay
      change (plainBlock schema hashers _ block triggers before).map Prod.fst = _ at hreplay
      rcases hplain : plainBlock schema hashers (splitsManifest trap nonFatalErrors) block triggers
          before with e | ⟨after, error⟩
      · rw [hplain] at hreplay
        cases hreplay
      · have hblock := (plainBlock_splits trap (replay_splits trap hbefore) hplain).2.1
        rw [hchain.indexBlocks_eq] at hblock
        have hone : [(block, triggers)].flatMap Prod.snd = triggers := by simp
        rw [List.flatMap_append, savesAccepted_append, hone]
        exact ⟨ih hchain hbefore, hblock⟩

end chains

/-! ### The subgraph -/

theorem mutable_splitsLayout (entityType : String) : splitsLayout.isImmutable entityType = false :=
  rfl

/-- This subgraph, with any hash functions, any way to keep the cache and any size of it. -/
def splitsSubgraph (hashers : Hashers H) (env : EntityEnv) (entityCacheSize : ℕ)
    (nonFatalErrors : Bool) : Subgraph Trigger H where
  layout := splitsLayout
  manifest := splitsManifest trap nonFatalErrors
  hashers := hashers
  env := env
  entityCacheSize := entityCacheSize
  lawful := lawful_schema
  proper := proper_splitsManifest trap nonFatalErrors
  mutable := mutable_splitsLayout

section subgraph

variable {env : EntityEnv} {entityCacheSize : ℕ} {nonFatalErrors failed : Bool}
  {events : List (BlockStreamEvent Trigger)} {reqs : List Request}
  {cache : LfuCache EntityKey (Option Attributes)}

/-- The blocks before a failure are clean. -/
theorem clean_of_indexing
    (h : Indexing (splitsSubgraph trap hashers env entityCacheSize nonFatalErrors) events reqs cache
      failed) (x : ℤ)
    (hx : failed = true → x < (syncStore splitsLayout Deployment.empty reqs).headNumber) :
    Clean nonFatalErrors ((mainChain events).upTo x) := by
  induction h generalizing x with
  | start =>
    intro before b hb
    simp [mainChain, Chain.upTo] at hb
  | @processBlock events reqs cache store block triggers out h hstore hforward hmax hout ih =>
    have hindexed := indexed_of_indexing h
    rw [mainChain_concat, Chain.follow, Chain.upTo_concat hindexed.chain_le hforward]
    by_cases hxblock : x < block
    · rw [if_pos hxblock]
      exact ih x fun hfailed => absurd hfailed Bool.false_ne_true
    · have hhead := hindexed.wf.head_lt
      have hself : (mainChain events).upTo BLOCK_NUMBER_MAX = mainChain events :=
        Chain.upTo_eq_self fun b hb => by have := hindexed.chain_le b hb; omega
      have hclean := ih BLOCK_NUMBER_MAX fun hfailed => absurd hfailed Bool.false_ne_true
      rw [hself] at hclean
      rw [if_neg hxblock, clean_concat]
      refine ⟨hclean, ?_⟩
      -- the block on the entities of the store, which has the same error
      have hshows : Entities.Shows store.get (indexBlocks nonFatalErrors (mainChain events)) := by
        rw [hindexed.get_eq hstore]
        exact replay_splits trap hindexed.current
      have hagree : Agree (fun out after => out.error = after.2 ∧ Delivers store after.1 out) _
          (plainBlock schema hashers (splitsManifest trap nonFatalErrors) block triggers
            store.get) := hindexed.processBlock_agree hstore block triggers
      obtain ⟨⟨after, error⟩, hplain, herror, -⟩ := hagree.ok_of hout
      have herror' : out.error = error := herror
      rw [← (plainBlock_splits trap hshows hplain).2.2, ← herror']
      by_contra hfailed
      rw [syncStore_concat] at hx
      exact hxblock (hx ((Bool.not_eq_false _).mp hfailed))
  | @revert events reqs cache failed head block h hhead hblock ih =>
    rw [mainChain_concat, Chain.follow, Chain.upTo_upTo]
    apply ih
    intro _
    change (syncStore splitsLayout Deployment.empty reqs).head = some head at hhead
    rw [headNumber_of_head hhead]
    omega
  | retry h ih => exact ih x hx

/-- **The tables of the database.**  Through whatever blocks, reverts, retries and restarts this
subgraph has come to a state, the database executes all the requests, and as of every block it
has the rows that the blocks make which were not reverted, where a block in which a handler is
stopped makes none. -/
theorem indexing_indexBlocks
    (h : Indexing (splitsSubgraph trap hashers env entityCacheSize nonFatalErrors) events reqs cache
      failed) :
    ∃ d, reqs.foldlM (fun d req => (Request.execute splitsLayout d req).map Prod.fst)
        Deployment.empty = .ok d
      ∧ ∀ x, Entities.Shows (fun key => d.get splitsLayout key x)
        (indexBlocks nonFatalErrors ((mainChain events).upTo x)) :=
  have hindexed := indexed_of_indexing h
  ⟨_, foldlM_execute (Deployment.WF.empty splitsLayout) hindexed.admitted,
    fun x => replay_splits trap (hindexed.view x)⟩

/-- **The database is that of `run`.**  As long as the subgraph has not failed, and for the blocks
before the failure if it has, the database has as of every block the rows that `run` makes of
the triggers of the blocks which were not reverted, handled one by one. -/
theorem indexing_run
    (h : Indexing (splitsSubgraph trap hashers env entityCacheSize nonFatalErrors) events reqs cache
      failed) :
    ∃ d, reqs.foldlM (fun d req => (Request.execute splitsLayout d req).map Prod.fst)
        Deployment.empty = .ok d
      ∧ ∀ x, (failed = true → x < d.headNumber) →
        Entities.Shows (fun key => d.get splitsLayout key x)
          (run .validated (((mainChain events).upTo x).flatMap Prod.snd)) := by
  have hindexed := indexed_of_indexing h
  refine ⟨_, foldlM_execute (Deployment.WF.empty splitsLayout) hindexed.admitted, ?_⟩
  intro x hx
  rw [← (clean_of_indexing trap h x hx).indexBlocks_eq]
  exact replay_splits trap (hindexed.view x)

/-- **Plain runs.**  On the blocks before a failure no save was rejected: the database is that of
the plain run too, about which the other modules are, and every `CreateSplit` event in these
blocks comes after a call of its split that was handled. -/
theorem indexing_run_plain
    (h : Indexing (splitsSubgraph trap hashers env entityCacheSize nonFatalErrors) events reqs cache
      failed) :
    ∃ d, reqs.foldlM (fun d req => (Request.execute splitsLayout d req).map Prod.fst)
        Deployment.empty = .ok d
      ∧ ∀ x, (failed = true → x < d.headNumber) →
        Entities.Shows (fun key => d.get splitsLayout key x)
          (run .plain (((mainChain events).upTo x).flatMap Prod.snd))
        ∧ ∀ pre event post,
          ((mainChain events).upTo x).flatMap Prod.snd = pre ++ .createSplit event :: post →
            CallHandled event.split pre := by
  have hindexed := indexed_of_indexing h
  refine ⟨_, foldlM_execute (Deployment.WF.empty splitsLayout) hindexed.admitted, ?_⟩
  intro x hx
  have hclean := clean_of_indexing trap h x hx
  have haccepted := hclean.savesAccepted trap (hindexed.view x)
  constructor
  · rw [run_plain_eq_validated haccepted, ← hclean.indexBlocks_eq]
    exact replay_splits trap (hindexed.view x)
  · intro pre event post hsplit
    rw [hsplit] at haccepted
    exact haccepted.callHandled

/-- **A block whose handlers all end is written.** -/
theorem exists_indexing
    (h : Indexing (splitsSubgraph trap hashers env entityCacheSize nonFatalErrors) events reqs cache
      false) {block : ℤ} {triggers : List Trigger}
    (hforward : (syncStore splitsLayout Deployment.empty reqs).headNumber < block)
    (hmax : block < BLOCK_NUMBER_MAX)
    (hends : blockAborts (indexBlocks nonFatalErrors (mainChain events)) triggers = false) :
    ∃ mods cache', Indexing (splitsSubgraph trap hashers env entityCacheSize nonFatalErrors)
      (events ++ [.processBlock block triggers]) (reqs ++ [.write block mods]) cache' false := by
  have hcurrent : replay schema hashers (splitsManifest trap nonFatalErrors) (mainChain events)
      = _ := (indexed_of_indexing h).current
  have hsound := replay_sound lawful_schema hashers (proper_splitsManifest trap nonFatalErrors)
    hcurrent
  obtain ⟨after, hplain⟩ : ∃ after, plainBlock schema hashers (splitsManifest trap nonFatalErrors)
      block triggers _ = .ok (after, none) :=
    exists_plainBlock trap hsound (replay_splits trap hcurrent) block hends
  have hnext : (replay schema hashers (splitsManifest trap nonFatalErrors) (mainChain events) >>=
      plainBlock schema hashers (splitsManifest trap nonFatalErrors) block triggers)
        = .ok (after, none) := by
    rw [hcurrent]
    exact hplain
  exact h.exists_processBlock hforward hmax hnext

end subgraph

/-! ### Some blocks -/

/-- The split of the call, distributed to. -/
def evenDistribution (amount : ℤ) : Trigger := .distributeETH ⟨evenCall.split, amount⟩

/-- A split is created and distributed to, the distribution is reverted, and another one comes
with a withdrawal. -/
def evenEvents : List (BlockStreamEvent Trigger) :=
  [.processBlock 1 [.createSplitCall evenCall, .createSplit ⟨evenCall.split⟩],
    .processBlock 2 [evenDistribution 10], .revert 1,
    .processBlock 2 [evenDistribution 20,
      .withdrawal ⟨Address.filled 1, 10, [], [], [7], 0, 100⟩]]

/-- What the split has for its first account. -/
def evenTokenKey : EntityKey :=
  ⟨"SplitRecipientToken",
    joinIds [joinIds [evenCall.split.toHex, (Address.filled 1).toHex], ZERO_ADDRESS]⟩

theorem exists_indexing_evenEvents : ∃ reqs cache,
    Indexing (splitsSubgraph (fun _ => "unreachable") eventHashers EntityCache.scanEnv 10 false)
      evenEvents reqs cache false := by
  have hstart : Indexing (splitsSubgraph (fun _ => "unreachable") eventHashers EntityCache.scanEnv
      10 false) [] [] (.new false) false := .start
  obtain ⟨mods₁, cache₁, h₁⟩ := exists_indexing _ hstart (by decide : (-1 : ℤ) < 1) (by decide)
    (rfl : blockAborts _ [.createSplitCall evenCall, .createSplit ⟨evenCall.split⟩] = false)
  obtain ⟨mods₂, cache₂, h₂⟩ := exists_indexing _ h₁ (by decide : (1 : ℤ) < 2) (by decide)
    (rfl : blockAborts _ [evenDistribution 10] = false)
  have h₃ := h₂.revert rfl (by decide : (1 : ℤ) < 2)
  obtain ⟨mods₄, cache₄, h₄⟩ := exists_indexing _ h₃ (by decide : (1 : ℤ) < 2) (by decide)
    (rfl : blockAborts _ [evenDistribution 20,
      .withdrawal ⟨Address.filled 1, 10, [], [], [7], 0, 100⟩] = false)
  exact ⟨_, _, h₄⟩

theorem indexing_indexBlocks_evenEvents : ∃ (reqs : List Request) (d : Deployment),
    reqs.foldlM (fun d req => (Request.execute splitsLayout d req).map Prod.fst)
        Deployment.empty = .ok d
      ∧ Entities.Shows (fun key => d.get splitsLayout key 2) (indexBlocks false
        [(1, [.createSplitCall evenCall, .createSplit ⟨evenCall.split⟩]),
          (2, [evenDistribution 20, .withdrawal ⟨Address.filled 1, 10, [], [], [7], 0, 100⟩])]) := by
  obtain ⟨reqs, cache, h⟩ := exists_indexing_evenEvents
  obtain ⟨d, hd, hshows⟩ := indexing_indexBlocks (fun _ => "unreachable") h
  exact ⟨reqs, d, hd, hshows 2⟩

/-- As of block 2 the database has what the second distribution came to, and as of block 1
nothing. -/
theorem indexing_run_evenEvents : ∃ (reqs : List Request) (d : Deployment),
    reqs.foldlM (fun d req => (Request.execute splitsLayout d req).map Prod.fst)
        Deployment.empty = .ok d
      ∧ (d.get splitsLayout evenTokenKey 2).bind (Finmap.lookup "totalDistributed")
        = some (.bigInt 10)
      ∧ d.get splitsLayout evenTokenKey 1 = none := by
  obtain ⟨reqs, cache, h⟩ := exists_indexing_evenEvents
  obtain ⟨d, hd, hshows⟩ := indexing_run (fun _ => "unreachable") h
  have htwo : d.get splitsLayout evenTokenKey 2 = _ := hshows 2 nofun evenTokenKey (by decide)
  have hone : d.get splitsLayout evenTokenKey 1 = _ := hshows 1 nofun evenTokenKey (by decide)
  refine ⟨reqs, d, hd, ?_, ?_⟩
  · rw [htwo]
    rfl
  · rw [hone]
    rfl

theorem indexing_run_plain_evenEvents : ∃ (reqs : List Request) (d : Deployment),
    reqs.foldlM (fun d req => (Request.execute splitsLayout d req).map Prod.fst)
        Deployment.empty = .ok d
      ∧ (d.get splitsLayout evenKey 2).isSome = true
      ∧ CallHandled evenCall.split [.createSplitCall evenCall] := by
  obtain ⟨reqs, cache, h⟩ := exists_indexing_evenEvents
  obtain ⟨d, hd, hshows⟩ := indexing_run_plain (fun _ => "unreachable") h
  have htwo : d.get splitsLayout evenKey 2 = _ := (hshows 2 nofun).1 evenKey (by decide)
  refine ⟨reqs, d, hd, ?_, (hshows 2 nofun).2 _ ⟨evenCall.split⟩ _ rfl⟩
  rw [htwo]
  rfl

end SplitsSubgraph
