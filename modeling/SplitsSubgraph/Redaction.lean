/-
SplitsSubgraph/Redaction.lean

The proof of indexing says what is in the database.

Every `store.set` and `store.remove` is an event of the proof of indexing, and so is the
failure of a handler, with the number of events before it which are no longer transacted
(graph/src/components/subgraph/proof_of_indexing/event.rs).  "The property that we want to
maintain is that no two distinct databases share the same PoI": the events of a block, less
those that are redacted, must give back the entities (`redact`, `applyEvents`).

They do if every trigger matches at most one host and the handlers set only what the tables
keep (`events_determine`).  The number of redacted
events is counted from the start of the trigger and not of the handler, so that if one host
fails where another has succeeded, the events of the other count as redacted though its writes
are kept (`redacted_of_two_hosts`).  A subgraph with one data source, like this one, is not
concerned.
-/
import SplitsSubgraph.BlockRuns

namespace SplitsSubgraph

open Interaction

/-! ### Events -/

/-- The events that were not redacted. -/
def redact (events : List ProofOfIndexingEvent) : List ProofOfIndexingEvent :=
  events.foldl (fun kept event => match event with
    | .deterministicError redactedEvents => kept.take (kept.length - redactedEvents)
    | event => kept ++ [event]) []

/-- The entities after an event. -/
def Entities.applyEvent (schema : SchemaDocument) (entities : Entities) :
    ProofOfIndexingEvent → Entities
  | .setEntity entityType id data =>
    match entities.set schema ⟨entityType, id⟩ data with
    | .ok entities => entities
    | .error _ => entities
  | .removeEntity entityType id => Function.update entities ⟨entityType, id⟩ none
  | .deterministicError _ => entities

def Entities.applyEvents (schema : SchemaDocument) (entities : Entities)
    (events : List ProofOfIndexingEvent) : Entities :=
  events.foldl (Entities.applyEvent schema) entities

/-- An event that writes. -/
def ProofOfIndexingEvent.IsWrite : ProofOfIndexingEvent → Prop
  | .deterministicError _ => False
  | .setEntity _ _ _ | .removeEntity _ _ => True

theorem redact_append {events written : List ProofOfIndexingEvent}
    (h : ∀ e ∈ written, e.IsWrite) : redact (events ++ written) = redact events ++ written := by
  induction written using List.reverseRecOn with
  | nil => simp
  | append_singleton written e ih =>
    have he := h e (by simp)
    have hrest := ih fun e' he' => h e' (by simp [he'])
    rw [← List.append_assoc, redact, List.foldl_append, ← redact, hrest]
    rcases e with ⟨t, i⟩ | ⟨t, i, data⟩ | n
    · simp
    · simp
    · exact he.elim

/-- A failure takes back what was written before it. -/
theorem redact_deterministicError {events written : List ProofOfIndexingEvent}
    (h : ∀ e ∈ written, e.IsWrite) :
    redact (events ++ written ++ [.deterministicError written.length]) = redact events := by
  rw [redact, List.foldl_append, ← redact, redact_append h]
  simp

/-! ### Streams -/

section stream

variable {H : Type} (hashers : Hashers H)

/-- The stream has hashed the events; where the handler has started is left aside. -/
def ProofOfIndexing.Records (poi : ProofOfIndexing H) (block : ℤ)
    (events : List ProofOfIndexingEvent) : Prop :=
  poi.blockNumber = block ∧ { poi.entry hashers with handlerStart := 0 }
    = events.foldl (BlockEventStream.write hashers) (BlockEventStream.new hashers block)

variable {hashers} {poi : ProofOfIndexing H} {block : ℤ} {events : List ProofOfIndexingEvent}

theorem vecLength_foldl_write (stream : BlockEventStream H) (events : List ProofOfIndexingEvent) :
    (events.foldl (BlockEventStream.write hashers) stream).vecLength
      = stream.vecLength + events.length := by
  induction events generalizing stream with
  | nil => rfl
  | cons e events ih =>
    rw [List.foldl_cons, ih, List.length_cons]
    show stream.vecLength + 1 + events.length = _
    omega

theorem ProofOfIndexing.Records.vecLength (h : poi.Records hashers block events) :
    (poi.entry hashers).vecLength = events.length := by
  have hlength := congrArg BlockEventStream.vecLength h.2
  rw [vecLength_foldl_write] at hlength
  exact hlength.trans (Nat.zero_add _)

theorem ProofOfIndexing.Records.write (h : poi.Records hashers block events)
    (event : ProofOfIndexingEvent) : (poi.write hashers event).Records hashers block
      (events ++ [event]) := by
  refine ⟨h.1, ?_⟩
  rw [List.foldl_append, ← h.2]
  rfl

theorem ProofOfIndexing.Records.startHandler (h : poi.Records hashers block events) :
    (poi.startHandler hashers).Records hashers block events := ⟨h.1, h.2⟩

theorem ProofOfIndexing.Records.new (hashers : Hashers H) (block : ℤ) :
    (⟨block, none⟩ : ProofOfIndexing H).Records hashers block [] := ⟨rfl, rfl⟩

end stream

/-! ### Handlers -/

section handlers

variable {H : Type} {schema : SchemaDocument} {hashers : Hashers H}

/-- What a handler has written: the events, what they make of the entities, and where the
handler has started. -/
structure Wrote (schema : SchemaDocument) (hashers : Hashers H) (block : ℤ)
    (events written : List ProofOfIndexingEvent) (t t' : BlockState Entities H) : Prop where
  isWrite : ∀ e ∈ written, e.IsWrite
  records : t'.proofOfIndexing.Records hashers block (events ++ written)
  entities : t'.entities = t.entities.applyEvents schema written
  handlerStart : (t'.proofOfIndexing.entry hashers).handlerStart
    = (t.proofOfIndexing.entry hashers).handlerStart
  errors : t'.deterministicErrors = t.deterministicErrors

/-- A call that succeeds writes at most one event. -/
theorem wrote_plainCall {block : ℤ} {events : List ProofOfIndexingEvent}
    {t t' : BlockState Entities H} (h : t.proofOfIndexing.Records hashers block events)
    {call : HostCall} {a : call.Answer} (hcall : plainCall schema hashers call t = (.ok a, t')) :
    ∃ written, Wrote schema hashers block events written t t' := by
  rcases call with ⟨entityType, id⟩ | ⟨entityType, id, data⟩ | ⟨entityType, id⟩ | message
  · obtain ⟨-, rfl⟩ := Prod.mk.inj hcall
    exact ⟨[], by simp, by rw [List.append_nil]; exact h, rfl, rfl, rfl⟩
  · rcases hset : Entities.set schema t.entities ⟨entityType, id⟩ data with m | entities
    · simp only [plainCall, BlockState.writePoiEvent, hset, Prod.mk.injEq, reduceCtorEq,
        false_and] at hcall
    · simp only [plainCall, BlockState.writePoiEvent, hset, Prod.mk.injEq] at hcall
      obtain ⟨-, rfl⟩ := hcall
      refine ⟨[.setEntity entityType id data], ?_, h.write _, ?_, rfl, rfl⟩
      · simp [ProofOfIndexingEvent.IsWrite]
      · simp [Entities.applyEvents, Entities.applyEvent, hset]
  · obtain ⟨-, rfl⟩ := Prod.mk.inj hcall
    refine ⟨[.removeEntity entityType id], ?_, h.write _, rfl, rfl, rfl⟩
    simp [ProofOfIndexingEvent.IsWrite]
  · obtain ⟨-, rfl⟩ := Prod.mk.inj hcall
    exact ⟨[], by simp, by rw [List.append_nil]; exact h, rfl, rfl, rfl⟩

theorem Wrote.trans {block : ℤ} {events w w' : List ProofOfIndexingEvent}
    {t t₁ t' : BlockState Entities H} (h : Wrote schema hashers block events w t t₁)
    (h' : Wrote schema hashers block (events ++ w) w' t₁ t') :
    Wrote schema hashers block events (w ++ w') t t' where
  isWrite := by
    intro e he
    rcases List.mem_append.mp he with he | he
    · exact h.isWrite e he
    · exact h'.isWrite e he
  records := by
    rw [← List.append_assoc]
    exact h'.records
  entities := by
    rw [h'.entities, h.entities, Entities.applyEvents, Entities.applyEvents, Entities.applyEvents,
      List.foldl_append]
  handlerStart := h'.handlerStart.trans h.handlerStart
  errors := h'.errors.trans h.errors

/-- A handler that ends, or fails for a deterministic reason, has written its events. -/
theorem wrote_run {handler : Handler} {block : ℤ} {events : List ProofOfIndexingEvent}
    {t t' : BlockState Entities H} (h : t.proofOfIndexing.Records hashers block events)
    {r : Except HostExportError Unit} (hr : ∀ e, r = .error e → ∃ m, e = .deterministic m)
    (hrun : handler.run (plainCall schema hashers) t = (r, t')) :
    ∃ written, Wrote schema hashers block events written t t' := by
  induction handler generalizing t events with
  | ret a =>
    obtain ⟨-, rfl⟩ := Prod.mk.inj hrun
    exact ⟨[], by simp, by rw [List.append_nil]; exact h, rfl, rfl, rfl⟩
  | fail e =>
    obtain ⟨-, rfl⟩ := Prod.mk.inj hrun
    exact ⟨[], by simp, by rw [List.append_nil]; exact h, rfl, rfl, rfl⟩
  | call call next ih =>
    rw [Program.run] at hrun
    rcases hcall : plainCall schema hashers call t with ⟨e | a, t₁⟩
    · -- only a `store.set` can fail, and not for a deterministic reason
      simp only [hcall, Prod.mk.injEq] at hrun
      obtain ⟨m, rfl⟩ := hr e hrun.1.symm
      exfalso
      rcases call with ⟨entityType, id⟩ | ⟨entityType, id, data⟩ | ⟨entityType, id⟩ | message
      · cases hcall
      · rcases hset : Entities.set schema t.entities ⟨entityType, id⟩ data with m' | entities
        · simp only [plainCall, BlockState.writePoiEvent, hset, Prod.mk.injEq,
            Except.error.injEq, reduceCtorEq, false_and] at hcall
        · simp only [plainCall, BlockState.writePoiEvent, hset, Prod.mk.injEq, reduceCtorEq,
            false_and] at hcall
      · cases hcall
      · cases hcall
    · simp only [hcall] at hrun
      obtain ⟨w, hw⟩ := wrote_plainCall h hcall
      obtain ⟨w', hw'⟩ := ih a hw.records hrun
      exact ⟨w ++ w', hw.trans hw'⟩

/-- What a trigger leaves, compared with the events of the block. -/
structure Recorded (schema : SchemaDocument) (hashers : Hashers H) (start : Entities) (block : ℤ)
    (events : List ProofOfIndexingEvent) (t : BlockState Entities H) : Prop where
  records : t.proofOfIndexing.Records hashers block events
  entities : t.entities = start.applyEvents schema (redact events)

/-- A trigger with one handler. -/
theorem Recorded.handler {start : Entities} {block : ℤ} {events : List ProofOfIndexingEvent}
    {t t₁ : BlockState Entities H} {handler : Handler}
    (h : Recorded schema hashers start block events t)
    (hrun : plainInvoke schema hashers handler
      { t with proofOfIndexing := t.proofOfIndexing.startHandler hashers } = .ok t₁) :
    (t₁.deterministicErrors = t.deterministicErrors
      ∧ ∃ events', Recorded schema hashers start block events' t₁)
    ∨ (t₁.deterministicErrors.length = t.deterministicErrors.length + 1
      ∧ ∃ events', Recorded schema hashers start block events' { t₁ with
        proofOfIndexing := t₁.proofOfIndexing.writeDeterministicError hashers }) := by
  set t₀ : BlockState Entities H :=
    { t with proofOfIndexing := t.proofOfIndexing.startHandler hashers } with ht₀
  have hrecords : t₀.proofOfIndexing.Records hashers block events := h.records.startHandler
  have hstart : (t₀.proofOfIndexing.entry hashers).handlerStart = events.length :=
    h.records.vecLength
  unfold plainInvoke at hrun
  rcases hplain : handler.run (plainCall schema hashers) t₀ with ⟨r, t'⟩
  rcases r with (m | m | m) | ⟨⟩
  · simp only [hplain] at hrun
    cases hrun
  · simp only [hplain] at hrun
    cases hrun
  · simp only [hplain] at hrun
    obtain rfl := Except.ok.inj hrun
    obtain ⟨written, hw⟩ := wrote_run hrecords
      (fun e he => ⟨m, (Except.error.inj he).symm⟩) hplain
    refine Or.inr ⟨?_, events ++ written ++ [.deterministicError written.length], ?_, ?_⟩
    · show (t'.deterministicErrors ++ [m]).length = _
      rw [hw.errors, List.length_append, List.length_singleton]
    · -- as many events are redacted as the handler has written
      have hcount : (t'.proofOfIndexing.entry hashers).vecLength
          - (t'.proofOfIndexing.entry hashers).handlerStart = written.length := by
        rw [hw.records.vecLength, hw.handlerStart, hstart, List.length_append]
        omega
      rw [← hcount]
      exact hw.records.write _
    · rw [redact_deterministicError hw.isWrite]
      exact h.entities
  · simp only [hplain] at hrun
    obtain rfl := Except.ok.inj hrun
    obtain ⟨written, hw⟩ := wrote_run hrecords (fun e he => by cases he) hplain
    refine Or.inl ⟨hw.errors, events ++ written, hw.records, ?_⟩
    rw [hw.entities, redact_append hw.isWrite, Entities.applyEvents, Entities.applyEvents,
      List.foldl_append]
    exact congrArg (List.foldl _ · written) h.entities

end handlers

/-! ### Blocks -/

section blocks

variable {τ H : Type} {schema : SchemaDocument} {hashers : Hashers H} {manifest : Manifest τ}

/-- **Where two hosts match**, the first of which succeeds and the second fails: the writes of
the first are kept, and all of its events count as redacted. -/
theorem redacted_of_two_hosts {first second : Handler} {trigger : τ} {start : Entities}
    {block : ℤ} {events : List ProofOfIndexingEvent} {t t₁ t₂ : BlockState Entities H}
    {message : String}
    (hhosts : manifest.hosts.filterMap (fun host => host trigger) = [first, second])
    (h : Recorded schema hashers start block events t)
    (hfirst : first.run (plainCall schema hashers)
      { t with proofOfIndexing := t.proofOfIndexing.startHandler hashers } = (.ok (), t₁))
    (hsecond : second.run (plainCall schema hashers) t₁ = (.error (.deterministic message), t₂)) :
    ∃ t' events', SubgraphTriggerProcessor.processTrigger hashers (plainInvoke schema hashers)
        manifest.hosts t trigger = .ok t'
      ∧ t'.entities = t₁.entities
      ∧ t'.proofOfIndexing.Records hashers block events' ∧ redact events' = redact events := by
  set t₀ : BlockState Entities H :=
    { t with proofOfIndexing := t.proofOfIndexing.startHandler hashers }
  have hrecords : t₀.proofOfIndexing.Records hashers block events := h.records.startHandler
  obtain ⟨w, hw⟩ := wrote_run hrecords (fun e he => by cases he) hfirst
  obtain ⟨w', hw'⟩ := wrote_run hw.records
    (fun e he => ⟨message, (Except.error.inj he).symm⟩) hsecond
  have hboth := hw.trans hw'
  have herrors : t₂.deterministicErrors = t.deterministicErrors := hboth.errors
  -- the trigger has started where the first handler has
  have hstart : (t₂.proofOfIndexing.entry hashers).handlerStart = events.length :=
    hboth.handlerStart.trans h.records.vecLength
  refine ⟨{ t₂ with
      entities := t₁.entities
      deterministicErrors := t₂.deterministicErrors ++ [message]
      proofOfIndexing := t₂.proofOfIndexing.writeDeterministicError hashers },
    events ++ (w ++ w') ++ [.deterministicError (w ++ w').length], ?_, rfl, ?_, ?_⟩
  · have hone : plainInvoke schema hashers first t₀ = .ok t₁ := by
      rw [plainInvoke, hfirst]
    have htwo : plainInvoke schema hashers second t₁ = .ok { t₂ with
        entities := t₁.entities
        deterministicErrors := t₂.deterministicErrors ++ [message] } := by
      rw [plainInvoke, hsecond]
    have hall : [first, second].foldlM (fun s handler => plainInvoke schema hashers handler s) t₀
        = .ok { t₂ with
          entities := t₁.entities
          deterministicErrors := t₂.deterministicErrors ++ [message] } := by
      rw [List.foldlM_cons, hone]
      show ([second].foldlM (fun s handler => plainInvoke schema hashers handler s) t₁) = _
      rw [List.foldlM_cons, htwo]
      rfl
    have hmore : (t₂.deterministicErrors ++ [message]).length
        = t.deterministicErrors.length + 1 := by
      rw [herrors, List.length_append, List.length_singleton]
    simp only [SubgraphTriggerProcessor.processTrigger, hhosts, List.isEmpty_cons,
      Bool.false_eq_true, if_false]
    show ([first, second].foldlM (fun s handler => plainInvoke schema hashers handler s) t₀
      >>= _) = _
    rw [hall]
    simp only [bind, Except.bind, hmore]
    rw [if_neg (by omega), if_pos trivial]
    rfl
  · have hcount : (t₂.proofOfIndexing.entry hashers).vecLength
        - (t₂.proofOfIndexing.entry hashers).handlerStart = (w ++ w').length := by
      rw [hboth.records.vecLength, hstart, List.length_append]
      omega
    rw [← hcount]
    exact hboth.records.write _
  · exact redact_deterministicError hboth.isWrite

/-- Two data sources: one removes an entity, the other traps. -/
def twoHosts : Manifest Unit :=
  ⟨[fun _ => some removeRecipient, fun _ => some (.fail (.deterministic "unreachable"))],
    "goerli", true⟩

theorem redacted_twoHosts :
    ∃ t' events', SubgraphTriggerProcessor.processTrigger eventHashers
        (plainInvoke SplitsSubgraph.schema eventHashers) twoHosts.hosts
        (.new EntityCache.oneRecipient.get 1) () = .ok t'
      ∧ t'.entities EntityCache.recipientKey = none
      ∧ t'.proofOfIndexing.Records eventHashers 1 events' ∧ redact events' = [] := by
  have hstart : Recorded SplitsSubgraph.schema eventHashers EntityCache.oneRecipient.get 1 []
      (.new EntityCache.oneRecipient.get 1) := ⟨ProofOfIndexing.Records.new eventHashers 1, rfl⟩
  have hhosts : twoHosts.hosts.filterMap (fun host => host ())
      = [removeRecipient, .fail (.deterministic "unreachable")] := rfl
  obtain ⟨t', events', hrun, hentities, hrecords, hredact⟩ :=
    redacted_of_two_hosts hhosts hstart rfl rfl
  exact ⟨t', events', hrun, by rw [hentities]; rfl, hrecords, hredact⟩

end blocks

end SplitsSubgraph
