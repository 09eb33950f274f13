/-
SplitsSubgraph/Normal.lean

Entities that hold what the store keeps and nothing else.

The entity cache agrees with the plain session only up to what the store keeps of an
entity.  A handler may set a null, or an attribute that is no column, and read it back as
long as the entity is cached; once it was written and has left the cache, it reads back
without.  An entity is normal if it has no such attributes.  If everything that is ever set
is normal, then so is everything the cache holds, and what is read through the cache is the
entity of the session itself (`run_get_eq`); and the modifications of a block and the
entities left for the next block are normal again.
-/
import SplitsSubgraph.Modifications
import SplitsSubgraph.Lib.Program

namespace SplitsSubgraph

open KeyedTable Overlay Interaction

/-! ### Entities -/

namespace Attributes

variable {schema : SchemaDocument} {entityType : String} {e u : Attributes}

/-- The attributes are columns, and none is null. -/
def Normal (schema : SchemaDocument) (entityType : String) (entity : Attributes) : Prop :=
  entity.row schema entityType = entity

theorem normal_iff : e.Normal schema entityType
    ↔ ∀ name value, e.lookup name = some value →
      name ∈ schema.columns entityType ∧ value.isNull = false := by
  constructor
  · intro h name value hlookup
    rw [← h, lookup_row, Option.filter_eq_some_iff] at hlookup
    simpa using hlookup.2
  · intro h
    apply Finmap.ext_lookup
    intro name
    rw [lookup_row]
    rcases hlookup : e.lookup name with - | value
    · rfl
    · obtain ⟨hcol, hnull⟩ := h name value hlookup
      simp [hcol, hnull]

theorem Normal.merge (he : e.Normal schema entityType) (hu : u.Normal schema entityType) :
    (e.merge u).Normal schema entityType := by
  rw [normal_iff] at he hu ⊢
  intro name value hlookup
  rw [lookup_merge] at hlookup
  rcases hn : u.lookup name with - | w
  · rw [hn] at hlookup
    exact he name value hlookup
  · rw [hn] at hlookup
    exact hu name value (hn.trans hlookup)

theorem Normal.mergeRemoveNullFields (he : e.Normal schema entityType)
    (hu : u.Normal schema entityType) :
    (e.mergeRemoveNullFields u).Normal schema entityType := by
  rw [normal_iff] at he hu ⊢
  intro name value hlookup
  rw [lookup_mergeRemoveNullFields] at hlookup
  rcases hn : u.lookup name with - | w
  · rw [hn] at hlookup
    exact he name value hlookup
  · have hw := hu name w hn
    rw [hn] at hlookup
    simp only [hw.2, Bool.false_eq_true, if_false, Option.some.injEq] at hlookup
    exact hlookup ▸ hw

theorem Normal.insert (he : e.Normal schema entityType) {name : String} {value : Value}
    (hcol : name ∈ schema.columns entityType) (hnull : value.isNull = false) :
    Normal schema entityType (e.insert name value) := by
  rw [normal_iff] at he ⊢
  intro n v hlookup
  rw [lookup_insert_eq_if] at hlookup
  by_cases hn : n = name
  · rw [if_pos hn, Option.some.injEq] at hlookup
    rw [hn, ← hlookup]
    exact ⟨hcol, hnull⟩
  · rw [if_neg hn] at hlookup
    exact he n v hlookup

theorem normal_empty : Normal schema entityType ∅ := by
  rw [normal_iff]
  simp

end Attributes

theorem EntityKey.norm_eq_self_iff {schema : SchemaDocument} {key : EntityKey}
    {o : Option Attributes} :
    key.norm schema o = o ↔ ∀ e, o = some e → e.Normal schema key.entityType := by
  rcases o with - | e
  · simp [EntityKey.norm]
  · simp [EntityKey.norm, Attributes.Normal]

/-! ### Operations -/

namespace EntityOp

variable {schema : SchemaDocument} {key : EntityKey}

def Normal (schema : SchemaDocument) (key : EntityKey) : EntityOp → Prop
  | .remove => True
  | .update entity | .overwrite entity => entity.Normal schema key.entityType

theorem Normal.accumulate {a b : EntityOp} (ha : a.Normal schema key) (hb : b.Normal schema key) :
    (a.accumulate b).Normal schema key := by
  rcases b with - | w | w
  · cases a <;> trivial
  · rcases a with - | u | u
    · exact hb
    · exact Attributes.Normal.merge ha hb
    · exact Attributes.Normal.merge ha hb
  · cases a <;> exact hb

theorem Normal.norm_applyTo {op : EntityOp} (hop : op.Normal schema key) {o : Option Attributes}
    (ho : key.norm schema o = o) : key.norm schema (op.applyTo o) = op.applyTo o := by
  rcases op with - | u | u
  · rfl
  · rcases o with - | e
    · exact congrArg some hop
    · exact congrArg some
        (Attributes.Normal.mergeRemoveNullFields (EntityKey.norm_eq_self_iff.mp ho e rfl) hop)
  · exact congrArg some hop

end EntityOp

/-- Pending operations that are all normal. -/
def NormalPending (schema : SchemaDocument) (p : Pending EntityKey EntityOp) : Prop :=
  ∀ key op, p.lookup key = some op → op.Normal schema key

section pending

variable {schema : SchemaDocument} {p : Pending EntityKey EntityOp}

theorem NormalPending.push (h : NormalPending schema p) {key : EntityKey} {op : EntityOp}
    (hop : op.Normal schema key) :
    NormalPending schema (Overlay.push EntityOp.accumulate p key op) := by
  intro k o hlookup
  rw [lookup_push] at hlookup
  by_cases hk : k = key
  · rw [if_pos hk, Option.some.injEq] at hlookup
    subst hk
    rcases hold : p.lookup k with - | a
    · simp only [hold] at hlookup
      exact hlookup ▸ hop
    · simp only [hold] at hlookup
      exact hlookup ▸ (h k a hold).accumulate hop
  · rw [if_neg hk] at hlookup
    exact h k o hlookup

theorem NormalPending.drain (h : NormalPending schema p)
    {ops : List (Sigma fun _ : EntityKey => EntityOp)}
    (hops : ∀ e ∈ ops, e.2.Normal schema e.1) :
    NormalPending schema (Overlay.drain EntityOp.accumulate p ops) := by
  induction ops generalizing p with
  | nil => exact h
  | cons e ops ih =>
    rw [Overlay.drain, List.foldl_cons]
    exact ih (h.push (hops e (by simp))) fun e' he' => hops e' (by simp [he'])

theorem NormalPending.entries (h : NormalPending schema p) :
    ∀ e ∈ p.entries, e.2.Normal schema e.1 :=
  fun e he => h e.1 e.2 (AList.mem_lookup_iff.mpr he)

theorem NormalPending.applyPending (h : NormalPending schema p) {key : EntityKey}
    {o : Option Attributes} (ho : key.norm schema o = o) :
    key.norm schema (EntityCache.applyPending p key o) = EntityCache.applyPending p key o := by
  unfold EntityCache.applyPending
  rcases hlookup : p.lookup key with - | op
  · exact ho
  · exact (h key op hlookup).norm_applyTo ho

end pending

/-! ### Caches -/

/-- Cached entities that are all normal. -/
def LfuCache.Normal (schema : SchemaDocument) (cache : LfuCache EntityKey (Option Attributes)) :
    Prop :=
  ∀ key entity, cache.lookup key = some entity → key.norm schema entity = entity

theorem LfuCache.Normal.insert {schema : SchemaDocument}
    {cache : LfuCache EntityKey (Option Attributes)} (env : EntityEnv)
    (h : cache.Normal schema) {key : EntityKey} {entity : Option Attributes}
    (hentity : key.norm schema entity = entity) : (cache.insert env key entity).Normal schema := by
  intro k e he
  rw [LfuCache.lookup_insert] at he
  by_cases hk : k = key
  · rw [if_pos hk, Option.some.injEq] at he
    rw [hk, ← he, hentity]
  · rw [if_neg hk] at he
    exact h k e he

/-- A store that keeps what it was given. -/
def ReadStore.Normal (store : ReadStore) : Prop :=
  ∀ key, key.norm store.inputSchema (store.get key) = store.get key

theorem ReadStore.Normal.erase_typename {store : ReadStore} (h : store.Normal) (key : EntityKey) :
    ((store.get key).map fun e => e.erase "__typename") = store.get key := by
  rcases he : store.get key with - | e
  · rfl
  · have hnormal := EntityKey.norm_eq_self_iff.mp (h key) e he
    show some (e.erase "__typename") = some e
    congr 1
    apply Finmap.ext_lookup
    intro name
    by_cases hname : name = "__typename"
    · rw [hname, Finmap.lookup_erase]
      rcases hlookup : e.lookup "__typename" with - | value
      · rfl
      · exact absurd (Attributes.normal_iff.mp hnormal _ _ hlookup).1
          (store.typename key.entityType)
    · rw [Finmap.lookup_erase_ne hname]

namespace EntityCache

variable (env : EntityEnv) {store : ReadStore} {c : EntityCache} {s : Session}

structure Normal (schema : SchemaDocument) (c : EntityCache) : Prop where
  current : c.current.Normal schema
  updates : NormalPending schema c.updates
  handlerUpdates : NormalPending schema c.handlerUpdates

theorem normal_withCurrent {schema : SchemaDocument}
    {current : LfuCache EntityKey (Option Attributes)} (h : current.Normal schema) :
    (withCurrent current).Normal schema where
  current := h
  updates := by
    intro key op hlookup
    simp [withCurrent] at hlookup
  handlerUpdates := by
    intro key op hlookup
    simp [withCurrent] at hlookup

theorem Normal.getEntity (h : c.Normal store.inputSchema) (hstore : store.Normal)
    (key : EntityKey) :
    key.norm store.inputSchema (c.current.getEntity env store key).1
        = (c.current.getEntity env store key).1
      ∧ (c.current.getEntity env store key).2.Normal store.inputSchema := by
  have hget : (c.current.get key).2.Normal store.inputSchema :=
    fun k e he => h.current k e (by rwa [LfuCache.lookup_get] at he)
  have hfst := LfuCache.get_fst c.current key
  unfold LfuCache.getEntity
  rcases hdef : c.current.get key with ⟨- | data, cache'⟩
  all_goals
    rw [hdef] at hget hfst
    dsimp only at hget hfst ⊢
  · rw [hstore.erase_typename key]
    exact ⟨hstore key, hget.insert env (hstore key)⟩
  · exact ⟨h.current key data hfst.symm, hget⟩

/-- What is read is normal, and the cache stays so. -/
theorem Normal.get (h : c.Normal store.inputSchema) (hstore : store.Normal) (key : EntityKey) :
    key.norm store.inputSchema (c.get env store key).1 = (c.get env store key).1
      ∧ (c.get env store key).2.Normal store.inputSchema := by
  obtain ⟨hentity, hcache⟩ := h.getEntity env hstore key
  exact ⟨h.handlerUpdates.applyPending (h.updates.applyPending hentity),
    hcache, h.updates, h.handlerUpdates⟩

/-- **What is read is the entity itself.** -/
theorem Refines.get_eq (href : c.Refines store s) (h : c.Normal store.inputSchema)
    (hstore : store.Normal) (key : EntityKey) : (c.get env store key).1 = s.entities key := by
  rw [← (h.get env hstore key).1]
  exact href.get env key

theorem Normal.entityOp {schema : SchemaDocument} (h : c.Normal schema) {key : EntityKey}
    {op : EntityOp} (hop : op.Normal schema key) : (c.entityOp key op).Normal schema := by
  unfold EntityCache.entityOp
  by_cases hin : c.inHandler = true
  · rw [if_pos hin]
    exact ⟨h.current, h.updates, h.handlerUpdates.push hop⟩
  · rw [if_neg hin]
    exact ⟨h.current, h.updates.push hop, h.handlerUpdates⟩

theorem Normal.exitHandler {schema : SchemaDocument} (h : c.Normal schema) {c' : EntityCache}
    (hexit : c.exitHandler = .ok c') : c'.Normal schema := by
  unfold EntityCache.exitHandler at hexit
  split at hexit
  · rw [foldl_entityOp rfl, Except.ok.injEq] at hexit
    subst hexit
    exact ⟨h.current, h.updates.drain h.handlerUpdates.entries, by
      intro key op hlookup
      simp at hlookup⟩
  · simp at hexit

theorem Normal.exitHandlerAndDiscardChanges {schema : SchemaDocument} (h : c.Normal schema)
    {c' : EntityCache} (hexit : c.exitHandlerAndDiscardChanges = .ok c') : c'.Normal schema := by
  unfold EntityCache.exitHandlerAndDiscardChanges at hexit
  split at hexit
  · rw [Except.ok.injEq] at hexit
    subst hexit
    exact ⟨h.current, h.updates, by
      intro key op hlookup
      simp at hlookup⟩
  · simp at hexit

/-- A `set` of a normal entity, whether it is accepted or not. -/
theorem Normal.set (h : c.Normal store.inputSchema) (hstore : store.Normal) {key : EntityKey}
    {entity : Attributes} (hentity : ∀ e, checkId store.inputSchema key entity = .ok e →
      e.Normal store.inputSchema key.entityType) :
    (c.set env store key entity).2.Normal store.inputSchema := by
  unfold EntityCache.set
  rcases hid : checkId store.inputSchema key entity with e | entity'
  · exact h
  · have hop : (c.entityOp key (.update entity')).Normal store.inputSchema :=
      h.entityOp (hentity entity' hid)
    dsimp only
    rcases entity'.validate store.inputSchema key with e | -
    · have hread := (hop.get env hstore key).2
      dsimp only
      rcases hget : EntityCache.get env store (c.entityOp key (.update entity')) key with
        ⟨- | merged, c'⟩
      all_goals
        rw [hget] at hread
        exact hread
    · exact hop

/-- The entity that is set is normal. -/
def CacheCall.Normal (schema : SchemaDocument) : CacheCall → Prop
  | .set key entity => ∀ e, checkId schema key entity = .ok e → e.Normal schema key.entityType
  | .append operations => ∀ key data, .set key data ∈ operations → data.Normal schema key.entityType
  | .enterHandler | .exitHandler | .exitHandlerAndDiscardChanges | .get _ | .remove _ => True

theorem Normal.append {schema : SchemaDocument} (h : c.Normal schema)
    {operations : List EntityOperation}
    (hoperations : ∀ key data, .set key data ∈ operations → data.Normal schema key.entityType)
    {c' : EntityCache} (happend : c.append operations = .ok c') : c'.Normal schema := by
  unfold EntityCache.append at happend
  split at happend
  · cases happend
  · rename_i hout
    obtain rfl := Except.ok.inj happend
    clear happend hout
    induction operations generalizing c with
    | nil => exact h
    | cons operation operations ih =>
      have hrest := fun key data hmem => hoperations key data (List.mem_cons_of_mem _ hmem)
      rcases operation with ⟨key, data⟩ | key
      · have hset : (c.entityOp key (.update data)).Normal schema :=
          h.entityOp (hoperations key data List.mem_cons_self)
        exact ih hset hrest
      · have hremove : (c.entityOp key .remove).Normal schema := h.entityOp trivial
        exact ih hremove hrest

theorem Normal.call (h : c.Normal store.inputSchema) (hstore : store.Normal) {call : CacheCall}
    (hcall : CacheCall.Normal store.inputSchema call) {c' : EntityCache}
    (hrun : EntityCache.call env store c call = .ok c') : c'.Normal store.inputSchema := by
  cases call with
  | enterHandler =>
    simp only [EntityCache.call, EntityCache.enterHandler] at hrun
    split at hrun
    · cases hrun
    · obtain rfl := Except.ok.inj hrun
      exact ⟨h.current, h.updates, h.handlerUpdates⟩
  | exitHandler => exact h.exitHandler hrun
  | exitHandlerAndDiscardChanges => exact h.exitHandlerAndDiscardChanges hrun
  | get key =>
    obtain rfl := Except.ok.inj hrun
    exact (h.get env hstore key).2
  | set key entity =>
    obtain rfl := Except.ok.inj hrun
    exact h.set env hstore hcall
  | remove key =>
    obtain rfl := Except.ok.inj hrun
    exact h.entityOp trivial
  | append operations => exact h.append hcall hrun

/-- **Calls that set normal entities only read the entities of the session themselves.** -/
theorem run_get_eq {current : LfuCache EntityKey (Option Attributes)} (hstore : store.Normal)
    (h : current.Agrees store) (hnormal : current.Normal store.inputSchema)
    {calls : List CacheCall} (hcalls : ∀ call ∈ calls, CacheCall.Normal store.inputSchema call)
    (hrun : calls.foldlM (EntityCache.call env store) (withCurrent current) = .ok c) :
    ∃ s, calls.foldlM (Session.call store.inputSchema) ⟨store.entities, none⟩ = .ok s
      ∧ ∀ key, (c.get env store key).1 = s.entities key := by
  have hlast : c.Normal store.inputSchema := foldlM_invariant
    (fun call hcall _ _ hc hone => hc.call env hstore (hcalls call hcall) hone)
    (normal_withCurrent hnormal) hrun
  rcases (Refines.withCurrent h).calls env calls with ⟨panic, -, hpanic⟩ | ⟨s, c', hs, hc, href⟩
  · rw [hrun] at hpanic
    cases hpanic
  · obtain rfl := Except.ok.inj (hrun.symm.trans hc)
    exact ⟨s, hs, fun key => href.get_eq env hlast hstore key⟩

/-! ### The end of a block -/

theorem modification_normal {schema : SchemaDocument} {key : EntityKey}
    {current : Option Attributes} {op : EntityOp} (hcurrent : key.norm schema current = current)
    (hop : op.Normal schema key) :
    (∀ entity, (modification key current op).1 = some entity → key.norm schema entity = entity)
    ∧ ∀ m, (modification key current op).2 = some m →
        m.entityRef = key ∧ key.norm schema m.entity = m.entity ∧ m.entity ≠ current := by
  have hcur := EntityKey.norm_eq_self_iff.mp hcurrent
  rcases current with - | current
  · rcases op with - | u | u
    · exact ⟨nofun, nofun⟩
    all_goals
      have hdata : key.norm schema (some (Attributes.mergeRemoveNullFields ∅ u)) = some _ :=
        congrArg some (Attributes.normal_empty.mergeRemoveNullFields hop)
      refine ⟨?_, ?_⟩
      · rintro _ ⟨rfl⟩
        exact hdata
      · rintro _ ⟨rfl⟩
        exact ⟨rfl, hdata, nofun⟩
  · have hold := hcur current rfl
    rcases op with - | u | u
    · refine ⟨?_, ?_⟩
      · rintro _ ⟨rfl⟩
        rfl
      · rintro _ ⟨rfl⟩
        exact ⟨rfl, rfl, nofun⟩
    · have hdata : key.norm schema (some (current.mergeRemoveNullFields u)) = some _ :=
        congrArg some (hold.mergeRemoveNullFields hop)
      refine ⟨?_, ?_⟩
      · rintro _ ⟨rfl⟩
        exact hdata
      · intro m hm
        simp only [modification] at hm
        split at hm
        · rename_i hne
          cases hm
          exact ⟨rfl, hdata, fun he => hne (Option.some.inj he).symm⟩
        · cases hm
    · have hdata : key.norm schema (some u) = some u := congrArg some hop
      refine ⟨?_, ?_⟩
      · rintro _ ⟨rfl⟩
        exact hdata
      · intro m hm
        simp only [modification] at hm
        split at hm
        · rename_i hne
          cases hm
          exact ⟨rfl, hdata, fun he => hne (Option.some.inj he).symm⟩
        · cases hm

/-- The state of the loop of `as_modifications`, where everything is normal: no modification
writes what is there already. -/
structure NormalLoop (store : ReadStore) (mods : List EntityModification)
    (current : LfuCache EntityKey (Option Attributes))
    (rest : List (Sigma fun _ : EntityKey => EntityOp)) : Prop
    extends LoopInv store mods current rest where
  current : current.Normal store.inputSchema
  mods : ∀ m ∈ mods, m.entityRef.norm store.inputSchema m.entity = m.entity
    ∧ m.entity ≠ store.get m.entityRef

theorem NormalLoop.step (hstore : store.Normal) {mods mods' : List EntityModification}
    {current current' : LfuCache EntityKey (Option Attributes)}
    {update : Sigma fun _ : EntityKey => EntityOp}
    {rest : List (Sigma fun _ : EntityKey => EntityOp)}
    (h : NormalLoop store mods current (update :: rest))
    (hop : update.2.Normal store.inputSchema update.1)
    (hstep : modifyStep env (mods, current) update = .ok (mods', current')) :
    NormalLoop store mods' current' rest := by
  obtain ⟨mods₁, current₁, hstep₁, hinv, -⟩ := h.toLoopInv.step env
  rw [hstep] at hstep₁
  obtain ⟨rfl, rfl⟩ := Prod.mk.inj (Except.ok.inj hstep₁)
  obtain ⟨cache', hremove, hvalid, hlookup⟩ := LfuCache.remove_spec env h.valid update.1
  have hnormal : update.1.norm store.inputSchema ((current.lookup update.1).bind id)
      = (current.lookup update.1).bind id := by
    rcases he : current.lookup update.1 with - | e
    · rfl
    · exact h.current update.1 e he
  -- what the operation is applied to is what the store holds
  have hready : (current.lookup update.1).bind id = store.get update.1 := by
    rw [← hnormal, h.ready update.1 (by simp)]
    exact hstore update.1
  obtain ⟨hcached, hmod⟩ := modification_normal hnormal hop
  rw [hready] at hmod
  have hrest : cache'.Normal store.inputSchema := by
    intro k e he
    rw [hlookup] at he
    by_cases hk : k = update.1
    · simp [hk] at he
    · rw [if_neg hk] at he
      exact h.current k e he
  set r := modification update.1 ((current.lookup update.1).bind id) update.2 with hr
  have hdef : modifyStep env (mods, current) update = .ok (mods ++ r.2.toList,
      r.1.elim cache' fun entity => cache'.insert env update.1 entity) := modifyStep_eq env hremove
  rw [hdef, Except.ok.injEq, Prod.mk.injEq] at hstep
  obtain ⟨rfl, rfl⟩ := hstep
  refine ⟨hinv, ?_, ?_⟩
  · rcases he : r.1 with - | entity
    · exact hrest
    · exact hrest.insert env (hcached entity he)
  · intro m hm
    rcases List.mem_append.mp hm with hm | hm
    · exact h.mods m hm
    · have hm := Option.mem_toList.mp hm
      rw [hr, hready] at hm
      obtain ⟨hkey, hdata, hne⟩ := hmod m hm
      rw [hkey]
      exact ⟨hdata, hne⟩

theorem NormalLoop.run (hstore : store.Normal)
    {updates : List (Sigma fun _ : EntityKey => EntityOp)} {mods mods' : List EntityModification}
    {current current' : LfuCache EntityKey (Option Attributes)}
    (h : NormalLoop store mods current updates)
    (hops : ∀ e ∈ updates, e.2.Normal store.inputSchema e.1)
    (hrun : updates.foldlM (modifyStep env) (mods, current) = .ok (mods', current')) :
    NormalLoop store mods' current' [] := by
  induction updates generalizing mods current with
  | nil =>
    rw [List.foldlM_nil] at hrun
    obtain ⟨rfl, rfl⟩ := Prod.mk.inj (Except.ok.inj hrun)
    exact h
  | cons e updates ih =>
    rw [List.foldlM_cons] at hrun
    rcases hstep : modifyStep env (mods, current) e with p | ⟨mods₁, current₁⟩
    · rw [hstep] at hrun
      cases hrun
    · rw [hstep] at hrun
      exact ih (h.step env hstore (hops e (by simp)) hstep)
        (fun e' he' => hops e' (by simp [he'])) hrun

theorem normal_foldl_insert (hstore : store.Normal)
    {cache : LfuCache EntityKey (Option Attributes)} (h : cache.Normal store.inputSchema)
    {found : List (EntityKey × Attributes)} (hfound : ∀ e ∈ found, store.get e.1 = some e.2) :
    (found.foldl (fun cache e => cache.insert env e.1 (some e.2)) cache).Normal
      store.inputSchema := by
  induction found generalizing cache with
  | nil => exact h
  | cons e found ih =>
    rw [List.foldl_cons]
    apply ih
    · apply h.insert env
      rw [← hfound e (by simp)]
      exact hstore e.1
    · exact fun e' he' => hfound e' (by simp [he'])

/-- What `as_modifications` hands on is normal, and every modification changes something. -/
theorem Normal.asModifications (h : c.Normal store.inputSchema) (hstore : store.Normal)
    (hagrees : c.current.Agrees store) (hdead : c.current.deadWeight = false)
    (himmutable : ∀ key ∈ c.updates, store.isImmutable key.entityType = true →
      store.get key = none) {entityCacheSize : ℕ} {mods : List EntityModification}
    {current : LfuCache EntityKey (Option Attributes)}
    (hrun : c.asModifications env store entityCacheSize = .ok (mods, current)) :
    (∀ m ∈ mods, m.entityRef.norm store.inputSchema m.entity = m.entity
        ∧ m.entity ≠ store.get m.entityRef)
      ∧ current.Normal store.inputSchema := by
  have hinit : NormalLoop store [] ((store.getMany (c.missing store)).foldl
      (fun current e => current.insert env e.1 (some e.2)) c.current) c.updates.entries :=
    ⟨loopInv_init env hagrees hdead himmutable, normal_foldl_insert env hstore h.current
      fun e he => ((store.mem_getMany _ e.1 e.2).mp he).2, by simp⟩
  rw [EntityCache.asModifications] at hrun
  rcases hin : c.inHandler with - | -
  · rw [hin] at hrun
    change (c.updates.entries.foldlM (modifyStep env) ([], _) >>= _) = _ at hrun
    rcases hloop : c.updates.entries.foldlM (modifyStep env) ([], (store.getMany
        (c.missing store)).foldl (fun current e => current.insert env e.1 (some e.2)) c.current)
      with p | ⟨mods₁, current₁⟩
    · rw [hloop] at hrun
      cases hrun
    · rw [hloop] at hrun
      change (current₁.evict env entityCacheSize >>= _) = _ at hrun
      have hlast := hinit.run env hstore h.updates.entries hloop
      rcases LfuCache.evictWithPeriod_spec env hlast.valid entityCacheSize STALE_PERIOD with
        ⟨-, hok⟩ | ⟨-, -, hbig⟩ | ⟨-, -, cache', -, hev, -, hok⟩
      · rw [LfuCache.evict, hok] at hrun
        obtain ⟨rfl, rfl⟩ := Prod.mk.inj (Except.ok.inj hrun)
        exact ⟨hlast.mods, hlast.current⟩
      · rw [LfuCache.evict, hbig] at hrun
        cases hrun
      · rw [LfuCache.evict, hok] at hrun
        obtain ⟨rfl, rfl⟩ := Prod.mk.inj (Except.ok.inj hrun)
        exact ⟨hlast.mods, fun k e he =>
          hlast.current k e (LfuCache.lookup_of_evictedFrom hev he)⟩
  · rw [hin] at hrun
    cases hrun

end EntityCache

end SplitsSubgraph
