/-
SplitsSubgraph/CacheView.lean

What a handler sees through the entity cache.

Between the store and a handler stand the cached entities, the pending operations of the
block and those of the handler.  The plain thing they stand for is `Session`: a map of
entities that writes change in place, and that can be put back to what it was when the
handler was entered.  `run_refines` says that no sequence of calls can tell the two apart
by reading: an update that is accumulated is an update that was made, a handler that exits
leaves its writes, one that is discarded leaves nothing, and no cached entity is out of
date.

Two entities are the same here if the store keeps the same of them
(`Attributes.row`): accumulating keeps a null where applying one by one drops the
attribute.
-/
import SplitsSubgraph.EntityCache

namespace SplitsSubgraph

open KeyedTable Overlay

/-! ### Attributes -/

namespace Attributes

variable {schema : SchemaDocument} {entityType : String}

@[simp] theorem lookup_merge (entity update : Attributes) (name : String) :
    (entity.merge update).lookup name = (update.lookup name <|> entity.lookup name) := by
  rw [merge, lookup_assignAll]
  rcases update.lookup name with - | value <;> rfl

@[simp] theorem lookup_mergeRemoveNullFields (entity update : Attributes) (name : String) :
    (entity.mergeRemoveNullFields update).lookup name
      = match update.lookup name with
        | some value => if value.isNull then none else some value
        | none => entity.lookup name := by
  rw [mergeRemoveNullFields, lookup_assignAll]
  rcases update.lookup name with - | value <;> rfl

theorem lookup_row (entity : Attributes) (name : String) :
    (entity.row schema entityType).lookup name
      = (entity.lookup name).filter fun value =>
          (schema.columns entityType).contains name && !value.isNull :=
  lookup_filterRows _ entity name

/-- Two entities of which the store keeps the same, attribute by attribute. -/
theorem row_eq_row {e e' : Attributes}
    (h : ∀ name, (e.lookup name).filter (fun v => !v.isNull)
      = (e'.lookup name).filter fun v => !v.isNull) :
    e.row schema entityType = e'.row schema entityType := by
  apply Finmap.ext_lookup
  intro name
  rw [lookup_row, lookup_row]
  by_cases hcol : (schema.columns entityType).contains name = true
  · simpa only [hcol, Bool.true_and] using h name
  · simp only [hcol, Bool.false_and]
    rcases e.lookup name with - | v <;> rcases e'.lookup name with - | v' <;> rfl

theorem row_row (e : Attributes) :
    (e.row schema entityType).row schema entityType = e.row schema entityType := by
  apply Finmap.ext_lookup
  intro name
  rw [lookup_row, lookup_row, Option.filter_filter]
  simp

/-- An update sees of an entity only what the store keeps of it. -/
theorem row_mergeRemoveNullFields_row (e u : Attributes) :
    ((e.row schema entityType).mergeRemoveNullFields u).row schema entityType
      = (e.mergeRemoveNullFields u).row schema entityType := by
  apply Finmap.ext_lookup
  intro name
  rw [lookup_row, lookup_row, lookup_mergeRemoveNullFields, lookup_mergeRemoveNullFields]
  rcases u.lookup name with - | value
  · rw [lookup_row, Option.filter_filter]
    simp
  · rfl

/-- Two updates at once are one update after the other. -/
theorem mergeRemoveNullFields_merge (e u w : Attributes) :
    e.mergeRemoveNullFields (u.merge w)
      = (e.mergeRemoveNullFields u).mergeRemoveNullFields w := by
  apply Finmap.ext_lookup
  intro name
  simp only [lookup_mergeRemoveNullFields, lookup_merge]
  rcases w.lookup name with - | value <;> rfl

/-- Without an entity to update, the two differ only in nulls. -/
theorem row_merge (u w : Attributes) :
    (u.merge w).row schema entityType = (u.mergeRemoveNullFields w).row schema entityType := by
  apply row_eq_row
  intro name
  rw [lookup_merge, lookup_mergeRemoveNullFields]
  rcases w.lookup name with - | value
  · rfl
  · by_cases hnull : value.isNull
    · simp [hnull, Option.filter]
    · simp [hnull]

end Attributes

@[simp] theorem EntityKey.norm_norm (schema : SchemaDocument) (key : EntityKey)
    (e : Option Attributes) : key.norm schema (key.norm schema e) = key.norm schema e := by
  rcases e with - | e
  · rfl
  · exact congrArg some (Attributes.row_row e)

/-- Operations can be accumulated. -/
theorem EntityOp.lawful (schema : SchemaDocument) (key : EntityKey) :
    Lawful EntityOp.applyTo EntityOp.accumulate (key.norm schema) where
  norm_act := by
    intro op e
    rcases op with - | u | u
    · rfl
    · rcases e with - | e
      · rfl
      · exact congrArg some (Attributes.row_mergeRemoveNullFields_row e u)
    · rfl
  norm_accumulate := by
    intro a b e
    rcases b with - | w | w
    · cases a <;> rfl
    · rcases a with - | u | u
      · rfl
      · rcases e with - | e
        · exact congrArg some (Attributes.row_merge u w)
        · exact congrArg (key.norm schema ∘ some) (Attributes.mergeRemoveNullFields_merge e u w)
      · exact congrArg some (Attributes.row_merge u w)
    · cases a <;> rfl

/-! ### The plain thing -/

/-- Entities that are changed in place, and what they were when the running handler was
entered. -/
structure Session where
  entities : EntityKey → Option Attributes
  entered : Option (EntityKey → Option Attributes)

/-- The calls that are made on an entity cache. -/
inductive CacheCall where
  | enterHandler
  | exitHandler
  | exitHandlerAndDiscardChanges
  | get (key : EntityKey)
  | set (key : EntityKey) (entity : Attributes)
  | remove (key : EntityKey)
  | append (operations : List EntityOperation)

namespace Session

variable (schema : SchemaDocument)

def write (s : Session) (key : EntityKey) (op : EntityOp) : Session :=
  { s with
    entities := Function.update s.entities key (key.norm schema (op.applyTo (s.entities key))) }

def operate (s : Session) : EntityOperation → Session
  | .set key data => s.write schema key (.update data)
  | .remove key => s.write schema key .remove

def call (s : Session) : CacheCall → Except Panic Session
  | .enterHandler =>
    match s.entered with
    | some _ => .error .inHandler
    | none => .ok { s with entered := some s.entities }
  | .exitHandler =>
    match s.entered with
    | some _ => .ok { s with entered := none }
    | none => .error .inHandler
  | .exitHandlerAndDiscardChanges =>
    match s.entered with
    | some entities => .ok ⟨entities, none⟩
    | none => .error .inHandler
  | .get _ => .ok s
  | .set key entity =>
    match EntityCache.checkId schema key entity with
    | .error _ => .ok s
    | .ok entity => .ok (s.write schema key (.update entity))
  | .remove key => .ok (s.write schema key .remove)
  | .append operations =>
    match s.entered with
    | some _ => .error .inHandler
    | none => .ok (operations.foldl (operate schema) s)

end Session

namespace EntityCache

variable (env : EntityEnv) (store : ReadStore)

/-- A call on the cache; what it returns is left aside. -/
def call (c : EntityCache) : CacheCall → Except Panic EntityCache
  | .enterHandler => c.enterHandler
  | .exitHandler => c.exitHandler
  | .exitHandlerAndDiscardChanges => c.exitHandlerAndDiscardChanges
  | .get key => .ok (c.get env store key).2
  | .set key entity => .ok (c.set env store key entity).2
  | .remove key => .ok (c.remove key)
  | .append operations => c.append operations

end EntityCache

/-! ### Cached entities are up to date -/

/-- The cached entities are those of the store. -/
structure LfuCache.Agrees (store : ReadStore) (cache : LfuCache EntityKey (Option Attributes)) :
    Prop where
  valid : cache.Valid
  lookup : ∀ key entity, cache.lookup key = some entity →
    key.norm store.inputSchema entity = store.entities key

section agrees

variable (env : EntityEnv) {store : ReadStore} {cache : LfuCache EntityKey (Option Attributes)}

theorem ReadStore.norm_erase_typename (store : ReadStore) (key : EntityKey) :
    key.norm store.inputSchema ((store.get key).map fun e => e.erase "__typename")
      = store.entities key := by
  rw [ReadStore.entities]
  rcases store.get key with - | entity
  · rfl
  · show some (Attributes.row _ _ (entity.erase "__typename")) = some (entity.row _ _)
    congr 1
    apply Finmap.ext_lookup
    intro name
    rw [Attributes.lookup_row, Attributes.lookup_row]
    by_cases h : name = "__typename"
    · have hcol := store.typename key.entityType
      subst h
      rcases entity.lookup "__typename" with - | v <;>
        simp [Finmap.lookup_erase, hcol, Option.filter]
    · rw [Finmap.lookup_erase_ne h]

theorem LfuCache.Agrees.insert (h : cache.Agrees store) {key : EntityKey}
    {entity : Option Attributes}
    (hentity : key.norm store.inputSchema entity = store.entities key) :
    (cache.insert env key entity).Agrees store where
  valid := h.valid.insert env key entity
  lookup := by
    intro k e he
    rw [LfuCache.lookup_insert] at he
    by_cases hk : k = key
    · rw [if_pos hk, Option.some.injEq] at he
      rw [hk, ← he, hentity]
    · rw [if_neg hk] at he
      exact h.lookup k e he

/-- A cached lookup is a lookup. -/
theorem LfuCache.Agrees.getEntity (h : cache.Agrees store) (key : EntityKey) :
    key.norm store.inputSchema (cache.getEntity env store key).1 = store.entities key
      ∧ (cache.getEntity env store key).2.Agrees store := by
  have hget : (cache.get key).2.Agrees store :=
    ⟨h.valid.get key, fun k e he => h.lookup k e (by rwa [LfuCache.lookup_get] at he)⟩
  have hfst := LfuCache.get_fst cache key
  unfold LfuCache.getEntity
  rcases hdef : cache.get key with ⟨- | data, cache'⟩
  all_goals
    rw [hdef] at hget hfst
    dsimp only at hget hfst ⊢
  · exact ⟨store.norm_erase_typename key, hget.insert env (store.norm_erase_typename key)⟩
  · exact ⟨h.lookup key data hfst.symm, hget⟩

end agrees

/-! ### Refinement -/

namespace EntityCache

variable (env : EntityEnv) {store : ReadStore} {c : EntityCache} {s : Session}

/-- The entities as the pending operations of the block make them. -/
def blockView (store : ReadStore) (c : EntityCache) : EntityKey → Option Attributes :=
  read EntityOp.applyTo c.updates store.get

/-- The entities as the running handler sees them. -/
def view (store : ReadStore) (c : EntityCache) : EntityKey → Option Attributes :=
  read EntityOp.applyTo c.handlerUpdates (c.blockView store)

/-- The cache stands for a session. -/
structure Refines (store : ReadStore) (c : EntityCache) (s : Session) : Prop where
  agrees : c.current.Agrees store
  view_eq : ∀ key, key.norm store.inputSchema (c.view store key) = s.entities key
  inHandler_eq : c.inHandler = s.entered.isSome
  entered_eq : ∀ entities, s.entered = some entities →
    ∀ key, key.norm store.inputSchema (c.blockView store key) = entities key
  handlerUpdates_eq : s.entered = none → c.handlerUpdates = ∅

theorem applyPending_eq (p : Pending EntityKey EntityOp) (key : EntityKey)
    (base : EntityKey → Option Attributes) :
    applyPending p key (base key) = Overlay.read EntityOp.applyTo p base key := by
  unfold applyPending Overlay.read
  rcases p.lookup key with - | op <;> rfl

/-- **Reading through the cache.** -/
theorem Refines.get (h : c.Refines store s) (key : EntityKey) :
    key.norm store.inputSchema (c.get env store key).1 = s.entities key := by
  have hentity := (h.agrees.getEntity env key).1
  have hlawful := EntityOp.lawful store.inputSchema key
  rw [← h.view_eq key, view, blockView]
  show key.norm store.inputSchema (applyPending c.handlerUpdates key
    (applyPending c.updates key (c.current.getEntity env store key).1)) = _
  generalize (c.current.getEntity env store key).1 = entity at hentity
  -- the cached entity in the place of the stored one, as a base that is constant
  rw [applyPending_eq c.handlerUpdates key fun _ => applyPending c.updates key entity]
  apply norm_read_congr hlawful
  rw [applyPending_eq c.updates key fun _ => entity]
  apply norm_read_congr hlawful
  exact hentity

theorem Refines.getCache (h : c.Refines store s) (key : EntityKey) :
    (c.get env store key).2.Refines store s where
  agrees := (h.agrees.getEntity env key).2
  view_eq := h.view_eq
  inHandler_eq := h.inHandler_eq
  entered_eq := h.entered_eq
  handlerUpdates_eq := h.handlerUpdates_eq

/-- Pushing an operation onto pending ones that stand for `entities`. -/
theorem norm_push_eq_write {schema : SchemaDocument} {p : Pending EntityKey EntityOp}
    {base entities : EntityKey → Option Attributes}
    (h : ∀ k : EntityKey, k.norm schema (Overlay.read EntityOp.applyTo p base k) = entities k)
    (key : EntityKey) (op : EntityOp) (k : EntityKey) :
    k.norm schema (Overlay.read EntityOp.applyTo (push EntityOp.accumulate p key op) base k)
      = Function.update entities key (key.norm schema (op.applyTo (entities key))) k := by
  rw [norm_read_push (EntityOp.lawful schema k)]
  by_cases hk : k = key
  · subst hk
    rw [if_pos rfl, Function.update_self, ← h k, (EntityOp.lawful schema k).norm_act]
  · rw [if_neg hk, Function.update_of_ne hk, h k]

/-- A write to the cache is a write to the entities. -/
theorem Refines.entityOp (h : c.Refines store s) (key : EntityKey) (op : EntityOp) :
    (c.entityOp key op).Refines store (s.write store.inputSchema key op) := by
  unfold EntityCache.entityOp
  rcases hentered : s.entered with - | entities
  · have hout : c.inHandler = false := by rw [h.inHandler_eq, hentered]; rfl
    have hempty := h.handlerUpdates_eq hentered
    rw [if_neg (by simp [hout])]
    refine ⟨h.agrees, ?_, h.inHandler_eq, ?_, h.handlerUpdates_eq⟩
    · intro k
      have hview := h.view_eq
      simp only [view, hempty, read_empty, blockView] at hview ⊢
      exact norm_push_eq_write hview key op k
    · intro entities he
      rw [Session.write, hentered] at he
      simp at he
  · have hin : c.inHandler = true := by rw [h.inHandler_eq, hentered]; rfl
    rw [if_pos hin]
    refine ⟨h.agrees, ?_, h.inHandler_eq, h.entered_eq, ?_⟩
    · intro k
      exact norm_push_eq_write h.view_eq key op k
    · intro he
      rw [Session.write, hentered] at he
      simp at he

/-- Outside a handler, operations go to the updates of the block. -/
theorem foldl_entityOp (hout : c.inHandler = false)
    (ops : List (Sigma fun _ : EntityKey => EntityOp)) :
    ops.foldl (fun c e => c.entityOp e.1 e.2) c
      = { c with updates := drain EntityOp.accumulate c.updates ops } := by
  induction ops generalizing c with
  | nil => rfl
  | cons e ops ih =>
    have hstep : c.entityOp e.1 e.2
        = { c with updates := push EntityOp.accumulate c.updates e.1 e.2 } := by
      rw [EntityCache.entityOp, if_neg (by simp [hout])]
    rw [List.foldl_cons, hstep, ih (by exact hout)]
    rfl

theorem Refines.enterHandler (h : c.Refines store s) (hs : s.entered = none) :
    c.enterHandler = .ok { c with inHandler := true } ∧
      ({ c with inHandler := true } : EntityCache).Refines store
        { s with entered := some s.entities } := by
  have hout : c.inHandler = false := by rw [h.inHandler_eq, hs]; rfl
  refine ⟨by simp [EntityCache.enterHandler, hout], h.agrees, h.view_eq, rfl, ?_, by simp⟩
  intro entities he key
  cases he
  have hview := h.view_eq key
  rwa [view, h.handlerUpdates_eq hs, read_empty] at hview

/-- What a handler wrote is written when it exits. -/
theorem Refines.exitHandler (h : c.Refines store s) {entities : EntityKey → Option Attributes}
    (hs : s.entered = some entities) :
    ∃ c', c.exitHandler = .ok c' ∧ c'.Refines store { s with entered := none } := by
  have hin : c.inHandler = true := by rw [h.inHandler_eq, hs]; rfl
  refine ⟨⟨c.current, drain EntityOp.accumulate c.updates c.handlerUpdates.entries, ∅, false⟩,
    by rw [EntityCache.exitHandler, if_pos hin, foldl_entityOp rfl], h.agrees, ?_, rfl, by simp,
    fun _ => rfl⟩
  intro key
  rw [view, read_empty, blockView, norm_read_drain (EntityOp.lawful store.inputSchema key)]
  exact h.view_eq key

/-- What a handler wrote is gone when it is discarded. -/
theorem Refines.exitHandlerAndDiscardChanges (h : c.Refines store s)
    {entities : EntityKey → Option Attributes} (hs : s.entered = some entities) :
    ∃ c', c.exitHandlerAndDiscardChanges = .ok c' ∧ c'.Refines store ⟨entities, none⟩ := by
  have hin : c.inHandler = true := by rw [h.inHandler_eq, hs]; rfl
  refine ⟨⟨c.current, c.updates, ∅, false⟩,
    by rw [EntityCache.exitHandlerAndDiscardChanges, if_pos hin], h.agrees, ?_, rfl, by simp,
    fun _ => rfl⟩
  intro key
  rw [view, read_empty]
  exact h.entered_eq entities hs key

theorem Refines.set (h : c.Refines store s) (key : EntityKey) (entity : Attributes) :
    ∃ s', s.call store.inputSchema (.set key entity) = .ok s'
      ∧ (c.set env store key entity).2.Refines store s' := by
  unfold EntityCache.set
  rcases hid : checkId store.inputSchema key entity with e | entity'
  · exact ⟨s, by simp only [Session.call, hid], h⟩
  · refine ⟨_, by simp only [Session.call, hid]; rfl, ?_⟩
    have hop := h.entityOp key (.update entity')
    dsimp only
    rcases entity'.validate store.inputSchema key with e | -
    · have hread := hop.getCache env key
      dsimp only
      rcases hget : EntityCache.get env store (c.entityOp key (.update entity')) key with
        ⟨- | merged, c'⟩
      all_goals
        rw [hget] at hread
        exact hread
    · exact hop

theorem Refines.append (h : c.Refines store s) (operations : List EntityOperation)
    (hs : s.entered = none) :
    ∃ c', c.append operations = .ok c'
      ∧ c'.Refines store (operations.foldl (Session.operate store.inputSchema) s) := by
  have hout : c.inHandler = false := by rw [h.inHandler_eq, hs]; rfl
  rw [EntityCache.append, if_neg (by simp [hout])]
  refine ⟨_, rfl, ?_⟩
  clear hs hout
  induction operations generalizing c s with
  | nil => exact h
  | cons operation operations ih =>
    rw [List.foldl_cons, List.foldl_cons]
    apply ih
    rcases operation with ⟨key, data⟩ | key
    · exact h.entityOp key (.update data)
    · exact h.entityOp key .remove

/-- One call on the cache is that call on the session, panics included. -/
theorem Refines.call (h : c.Refines store s) (call : CacheCall) :
    (∃ panic, s.call store.inputSchema call = .error panic
        ∧ c.call env store call = .error panic)
    ∨ ∃ s' c', s.call store.inputSchema call = .ok s' ∧ c.call env store call = .ok c'
        ∧ c'.Refines store s' := by
  rcases call with - | - | - | key | ⟨key, entity⟩ | key | operations
  · rcases hs : s.entered with - | entities
    · obtain ⟨hok, href⟩ := h.enterHandler hs
      exact Or.inr ⟨_, _, by simp [Session.call, hs], hok, href⟩
    · refine Or.inl ⟨.inHandler, by simp [Session.call, hs], ?_⟩
      simp [EntityCache.call, EntityCache.enterHandler, h.inHandler_eq, hs]
  · rcases hs : s.entered with - | entities
    · refine Or.inl ⟨.inHandler, by simp [Session.call, hs], ?_⟩
      simp [EntityCache.call, EntityCache.exitHandler, h.inHandler_eq, hs]
    · obtain ⟨c', hok, href⟩ := h.exitHandler hs
      exact Or.inr ⟨_, c', by simp [Session.call, hs], hok, href⟩
  · rcases hs : s.entered with - | entities
    · refine Or.inl ⟨.inHandler, by simp [Session.call, hs], ?_⟩
      simp [EntityCache.call, EntityCache.exitHandlerAndDiscardChanges, h.inHandler_eq, hs]
    · obtain ⟨c', hok, href⟩ := h.exitHandlerAndDiscardChanges hs
      exact Or.inr ⟨_, c', by simp [Session.call, hs], hok, href⟩
  · exact Or.inr ⟨s, _, rfl, rfl, h.getCache env key⟩
  · obtain ⟨s', hs', href⟩ := h.set env key entity
    exact Or.inr ⟨s', _, hs', rfl, href⟩
  · exact Or.inr ⟨_, _, rfl, rfl, h.entityOp key .remove⟩
  · rcases hs : s.entered with - | entities
    · obtain ⟨c', hok, href⟩ := h.append operations hs
      exact Or.inr ⟨_, c', by simp [Session.call, hs], hok, href⟩
    · refine Or.inl ⟨.inHandler, by simp [Session.call, hs], ?_⟩
      simp [EntityCache.call, EntityCache.append, h.inHandler_eq, hs]

theorem Refines.withCurrent {current : LfuCache EntityKey (Option Attributes)}
    (h : current.Agrees store) :
    (EntityCache.withCurrent current).Refines store ⟨store.entities, none⟩ where
  agrees := h
  view_eq := by
    intro key
    rw [view, blockView]
    show key.norm store.inputSchema
      (Overlay.read EntityOp.applyTo ∅ (Overlay.read EntityOp.applyTo ∅ store.get) key) = _
    rw [read_empty, read_empty]
    rfl
  inHandler_eq := rfl
  entered_eq := by simp
  handlerUpdates_eq := fun _ => rfl

/-- Call after call, the cache stands for the session, or both panic. -/
theorem Refines.calls (h : c.Refines store s) (calls : List CacheCall) :
    (∃ panic, calls.foldlM (Session.call store.inputSchema) s = .error panic
        ∧ calls.foldlM (EntityCache.call env store) c = .error panic)
    ∨ ∃ s' c', calls.foldlM (Session.call store.inputSchema) s = .ok s'
        ∧ calls.foldlM (EntityCache.call env store) c = .ok c' ∧ c'.Refines store s' := by
  induction calls generalizing c s with
  | nil => exact Or.inr ⟨s, c, rfl, rfl, h⟩
  | cons call calls ih =>
    rw [List.foldlM_cons, List.foldlM_cons]
    rcases h.call env call with ⟨panic, hs, hc⟩ | ⟨s', c', hs, hc, href⟩
    · refine Or.inl ⟨panic, ?_, ?_⟩
      · rw [hs]; rfl
      · rw [hc]; rfl
    · rw [hs, hc]
      exact ih href

/-- **Through the cache one sees the entities as they are.**  Take any calls on a cache
whose cached entities are up to date, and the same calls on the plain session that starts
from the store: either both panic, at the same misplaced handler boundary, or both get
through, and then of what is read of every key the tables keep what the session has.  A null
that was set may still be seen in the cache. -/
theorem run_refines {current : LfuCache EntityKey (Option Attributes)}
    (h : current.Agrees store) (calls : List CacheCall) :
    (∃ panic, calls.foldlM (Session.call store.inputSchema) ⟨store.entities, none⟩ = .error panic
        ∧ calls.foldlM (EntityCache.call env store) (withCurrent current) = .error panic)
    ∨ ∃ s c, calls.foldlM (Session.call store.inputSchema) ⟨store.entities, none⟩ = .ok s
        ∧ calls.foldlM (EntityCache.call env store) (withCurrent current) = .ok c
        ∧ c.current.Agrees store
        ∧ ∀ key, key.norm store.inputSchema (c.get env store key).1 = s.entities key := by
  rcases (Refines.withCurrent h).calls env calls with hpanic | ⟨s, c, hs, hc, href⟩
  · exact Or.inl hpanic
  · exact Or.inr ⟨s, c, hs, hc, href.agrees, fun key => href.get env key⟩

/-! ### A store with one entity -/

def recipientKey : EntityKey := ⟨"Recipient", "0x01"⟩

def recipientEntity : Attributes :=
  Finmap.insert "id" (.string "0x01") (Finmap.insert "splits" (.list []) ∅)

/-- The store of a subgraph that knows one recipient. -/
def oneRecipient : ReadStore where
  inputSchema := schema
  isImmutable := fun _ => false
  get := fun key => if key = recipientKey then some recipientEntity else none
  getMany := fun keys => if recipientKey ∈ keys then [(recipientKey, recipientEntity)] else []
  mem_getMany := by
    intro keys key entity
    by_cases h : key = recipientKey
    · subst h
      by_cases hmem : recipientKey ∈ keys <;> simp [hmem, eq_comm]
    · by_cases hmem : recipientKey ∈ keys <;> simp [hmem, h]
  typename := typename_notMem

/-- Entries of equal weight, in a queue that is searched from end to end. -/
def scanEnv : EntityEnv := ⟨fun _ _ => 1, 40, Heap.scan⟩

/-- A handler that removes the recipient and saves it again. -/
def saveAgain : List CacheCall :=
  [.enterHandler, .remove recipientKey, .set recipientKey recipientEntity, .exitHandler]

theorem run_refines_saveAgain :
    ∃ s c, saveAgain.foldlM (Session.call schema) ⟨oneRecipient.entities, none⟩ = .ok s
      ∧ saveAgain.foldlM (EntityCache.call scanEnv oneRecipient) (withCurrent (.new false)) = .ok c
      ∧ ∀ key, key.norm schema (c.get scanEnv oneRecipient key).1 = s.entities key := by
  have hagrees : LfuCache.Agrees oneRecipient (.new false) := ⟨LfuCache.valid_new false, by simp⟩
  rcases run_refines scanEnv hagrees saveAgain with ⟨panic, hpanic, -⟩ | ⟨s, c, hs, hc, -, hget⟩
  · cases hpanic
  · exact ⟨s, c, hs, hc, hget⟩

end EntityCache

end SplitsSubgraph
