/-
SplitsSubgraph/HandlerRuns.lean

The handlers as the node runs them do what Mapping.lean says.

Run on entities that are those of a store, a handler ends exactly if the function of Mapping.lean
does, and then leaves the entities of the store that the function leaves, has written one event
for each `store.set` call and has logged the warnings (`Mirrors`).  A handler that is stopped is
stopped for the same reason (`computes_handler`).  Each statement of a handler is one rule, and a
handler is gone through with the rules of Lib/Program.lean.
-/
import SplitsSubgraph.Handlers

namespace SplitsSubgraph

open KeyedTable Interaction

variable {H : Type} (hashers : Hashers H)

/-- The state of a block stands for the host of a handler that has begun at `start`. -/
structure Mirrors (start : BlockState Entities H) (h : Host) (t : BlockState Entities H) :
    Prop where
  mode : h.mode = .validated
  entities : ∀ key : EntityKey, key.entityType ≠ POI_OBJECT →
    t.entities key = h.store.entities key
  proofOfIndexing : t.proofOfIndexing
    = h.sets.foldl (fun poi s => poi.write hashers s.event) start.proofOfIndexing
  logger : t.logger = start.logger ++ h.warnings

variable {hashers} (trap : Abort → String) {start t : BlockState Entities H} {h : Host}

/-! ### Statements -/

section statements

variable {R : Type} (C : EntityClass R)

theorem Mirrors.run_load (hm : Mirrors hashers start h t) {id : String} {row : Option R}
    (hrow : (C.table h.store).lookup id = row) :
    (C.load id).run (plainCall schema hashers) t = (.ok row, t) := by
  rw [EntityClass.load, Program.run_bind, Program.run_perform]
  show (Except.ok ((t.entities ⟨C.entityType, id⟩).map C.ofAttributes), t) = _
  rw [C.map_ofAttributes (hm.entities ⟨C.entityType, id⟩ C.ne_poi), hrow]

/-- The state after a `store.set` call that is accepted. -/
theorem Mirrors.put (hm : Mirrors hashers start h t) (id : String) (row : R) :
    Mirrors hashers start (h.put (C.set id row))
      { t.writePoiEvent hashers (.setEntity C.entityType id (.ofEntity (C.entity id row))) with
        entities := Function.update t.entities ⟨C.entityType, id⟩
          (some (.ofEntity (C.entity id (mergeAt C.merge (C.table h.store) id row)))) } where
  mode := hm.mode
  entities := by
    intro key hkey
    show _ = (h.store.set (C.set id row)).entities key
    rw [C.entities_set]
    dsimp only
    by_cases hk : key = ⟨C.entityType, id⟩
    · subst hk
      rw [Function.update_self, Function.update_self]
    · rw [Function.update_of_ne hk, Function.update_of_ne hk]
      exact hm.entities key hkey
  proofOfIndexing := by
    show t.proofOfIndexing.write hashers _ = (h.sets ++ [C.set id row]).foldl _ _
    rw [List.foldl_append, ← hm.proofOfIndexing, ← C.event_set]
    rfl
  logger := hm.logger

/-- A save is accepted and rejected as the host accepts and rejects it. -/
theorem Mirrors.save (hm : Mirrors hashers start h t) (id : String) (row : R) :
    Computes (plainCall schema hashers) (Abort.hostError trap) (C.save id row) t
      (h.save (C.set id row)) fun _ h' t' => Mirrors hashers start h' t' := by
  have hset := C.set_eq (hm.entities ⟨C.entityType, id⟩ C.ne_poi) row
  have hput := hm.put C id row
  have hrun : (C.save id row).run (plainCall schema hashers) t
      = plainCall schema hashers (.storeSet C.entityType id (.ofEntity (C.entity id row))) t :=
    Program.run_perform _ _ _
  rw [Host.save, hm.mode]
  dsimp only
  rcases hvalid : (C.set id row).validate with m | ⟨⟩
  · rcases hmerged : ((C.set id row).merged h.store).validate with m' | ⟨⟩
    · rw [hvalid, hmerged] at hset
      refine ⟨t.writePoiEvent hashers
        (.setEntity C.entityType id (.ofEntity (C.entity id row))), ?_⟩
      rw [hrun]
      simp only [plainCall, BlockState.writePoiEvent, hset]
      rfl
    · rw [hvalid, hmerged] at hset
      refine ⟨(), _, ?_, hput⟩
      rw [hrun]
      simp only [plainCall, BlockState.writePoiEvent, hset]
      rfl
  · rw [hvalid] at hset
    refine ⟨(), _, ?_, hput⟩
    rw [hrun]
    simp only [plainCall, BlockState.writePoiEvent, hset]
    rfl

theorem Mirrors.warning (hm : Mirrors hashers start h t) (message : String) :
    Computes (plainCall schema hashers) (Abort.hostError trap) (Mapping.warning message) t
      (.ok (h.warn message)) fun _ h' t' => Mirrors hashers start h' t' := by
  refine ⟨(), _, Program.run_perform _ _ _, hm.mode, hm.entities, hm.proofOfIndexing, ?_⟩
  show t.logger ++ [message] = start.logger ++ (h.warnings ++ [message])
  rw [hm.logger, List.append_assoc]

variable {α : Type}

theorem computes_required (value : Option α) (entityType entityId field : String) :
    Computes (plainCall schema hashers) (Abort.hostError trap)
      (Mapping.required trap value entityType entityId field) t
      (required value entityType entityId field) fun a b t' => a = b ∧ t' = t := by
  rcases value with - | a
  · exact Computes.fail _
  · exact Computes.pure ⟨rfl, rfl⟩

theorem computes_arrayGet (xs : List α) (i : ℕ) :
    Computes (plainCall schema hashers) (Abort.hostError trap) (Mapping.arrayGet trap xs i) t
      (arrayGet xs i) fun a b t' => a = b ∧ t' = t := by
  unfold Mapping.arrayGet arrayGet
  rcases xs[i]? with - | a
  · exact Computes.fail _
  · exact Computes.pure ⟨rfl, rfl⟩

end statements

/-! ### Creating a split -/

theorem computes_handleCreateSplit (hm : Mirrors hashers start h t) (event : CreateSplit) :
    Computes (plainCall schema hashers) (Abort.hostError trap) (Mapping.handleCreateSplit event) t
      (handleCreateSplit h event) fun _ h' t' => Mirrors hashers start h' t' := by
  unfold Mapping.handleCreateSplit handleCreateSplit
  dsimp only
  rcases e : h.store.splits.lookup event.split.toHex with - | split
  · exact Computes.after (hm.run_load splitClass e) (hm.save trap splitClass event.split.toHex _)
  · exact Computes.after (hm.run_load splitClass e) (Computes.pure hm)

theorem computes_createSplitRecipients (splitId : String) {splitRecipientIds : List String}
    {accounts : List Address} {allocations : List ℤ} (hm : Mirrors hashers start h t) :
    Computes (plainCall schema hashers) (Abort.hostError trap)
      (Mapping.createSplitRecipients trap splitId splitRecipientIds accounts allocations) t
      (createSplitRecipients splitId h splitRecipientIds accounts allocations)
      fun ids r t' => ids = r.2 ∧ Mirrors hashers start r.1 t' := by
  induction accounts generalizing h t splitRecipientIds allocations with
  | nil => exact Computes.pure ⟨rfl, hm⟩
  | cons account accounts ih =>
    unfold Mapping.createSplitRecipients createSplitRecipients
    refine Computes.after (hm.run_load recipientClass rfl) ?_
    refine (computes_required trap _ _ _ _).bind ?_
    rintro splits _ _ ⟨rfl, rfl⟩
    refine (hm.save trap recipientClass _ _).bind ?_
    rintro _ h₁ t₁ hm₁
    refine (computes_arrayGet trap _ _).bind ?_
    rintro allocation _ _ ⟨rfl, rfl⟩
    refine (hm₁.save trap splitRecipientClass _ _).bind ?_
    rintro _ h₂ t₂ hm₂
    exact ih hm₂

theorem computes_handleCreateSplitCall (hm : Mirrors hashers start h t) (call : CreateSplitCall) :
    Computes (plainCall schema hashers) (Abort.hostError trap)
      (Mapping.handleCreateSplitCall trap call) t (handleCreateSplitCall h call)
      fun _ h' t' => Mirrors hashers start h' t' := by
  unfold Mapping.handleCreateSplitCall handleCreateSplitCall
  refine Computes.after (hm.run_load splitClass rfl) ?_
  refine (computes_createSplitRecipients trap call.split.toHex hm).bind ?_
  rintro _ ⟨h₁, ids⟩ t₁ ⟨rfl, hm₁⟩
  exact hm₁.save trap splitClass _ _

/-! ### Distributing -/

theorem computes_distributeToRecipients (amountToSplit : ℤ) (tokenAddress : String)
    {splitRecipientIds : List String} (hm : Mirrors hashers start h t) :
    Computes (plainCall schema hashers) (Abort.hostError trap)
      (Mapping.distributeToRecipients trap amountToSplit tokenAddress splitRecipientIds) t
      (distributeToRecipients amountToSplit tokenAddress h splitRecipientIds)
      fun _ h' t' => Mirrors hashers start h' t' := by
  induction splitRecipientIds generalizing h t with
  | nil => exact Computes.pure hm
  | cons splitRecipientId splitRecipientIds ih =>
    unfold Mapping.distributeToRecipients distributeToRecipients
    dsimp only
    rcases e : h.store.splitRecipients.lookup splitRecipientId with - | splitRecipient
    · exact Computes.after (hm.run_load splitRecipientClass e) (hm.warning trap _)
    · refine Computes.after (hm.run_load splitRecipientClass e) ?_
      refine Computes.after (hm.run_load splitRecipientTokenClass rfl) ?_
      refine (computes_required trap _ _ _ _).bind ?_
      rintro totalDistributed _ _ ⟨rfl, rfl⟩
      refine (computes_required trap _ _ _ _).bind ?_
      rintro allocation _ _ ⟨rfl, rfl⟩
      refine (hm.save trap splitRecipientTokenClass _ _).bind ?_
      rintro _ h₁ t₁ hm₁
      exact ih hm₁

theorem computes_handleDistribution (hm : Mirrors hashers start h t) (splitAddress : String)
    (amount : ℤ) (tokenAddress : String) :
    Computes (plainCall schema hashers) (Abort.hostError trap)
      (Mapping.handleDistribution trap splitAddress amount tokenAddress) t
      (handleDistribution h splitAddress amount tokenAddress)
      fun _ h' t' => Mirrors hashers start h' t' := by
  unfold Mapping.handleDistribution handleDistribution
  dsimp only
  rcases e : h.store.splits.lookup splitAddress with - | split
  · exact Computes.after (hm.run_load splitClass e) (hm.warning trap _)
  · refine Computes.after (hm.run_load splitClass e) ?_
    refine (computes_required trap _ _ _ _).bind ?_
    rintro distributorFee _ _ ⟨rfl, rfl⟩
    refine (computes_required trap _ _ _ _).bind ?_
    rintro splitRecipientIds _ _ ⟨rfl, rfl⟩
    exact computes_distributeToRecipients trap _ _ hm

/-! ### Withdrawing -/

theorem computes_settleToken (hm : Mirrors hashers start h t) (event : Withdrawal)
    (splitRecipientId token : String) :
    Computes (plainCall schema hashers) (Abort.hostError trap)
      (Mapping.settleToken trap event splitRecipientId token) t
      (settleToken event h splitRecipientId token)
      fun _ h' t' => Mirrors hashers start h' t' := by
  unfold Mapping.settleToken settleToken
  dsimp only
  rcases e : h.store.splitRecipientTokens.lookup (joinIds [splitRecipientId, token]) with - | row
  · exact Computes.after (hm.run_load splitRecipientTokenClass e) (Computes.pure hm)
  · refine Computes.after (hm.run_load splitRecipientTokenClass e) ?_
    refine (computes_required trap _ _ _ _).bind ?_
    rintro lastDistributed _ _ ⟨rfl, rfl⟩
    refine (computes_required trap _ _ _ _).bind ?_
    rintro lastClaimed _ _ ⟨rfl, rfl⟩
    by_cases hzero : lastDistributed - lastClaimed = 0
    · simp only [hzero, if_true]
      exact Computes.pure hm
    · simp only [hzero, if_false]
      refine (hm.save trap splitRecipientTokenClass _ _).bind ?_
      rintro _ h₁ t₁ hm₁
      refine (computes_arrayGet trap _ _).bind ?_
      rintro splitId _ _ ⟨rfl, rfl⟩
      exact hm₁.save trap splitRecipientWithdrawEventClass _ _

theorem computes_handleWithdrawal (hm : Mirrors hashers start h t) (event : Withdrawal) :
    Computes (plainCall schema hashers) (Abort.hostError trap)
      (Mapping.handleWithdrawal trap event) t (handleWithdrawal h event)
      fun _ h' t' => Mirrors hashers start h' t' := by
  unfold Mapping.handleWithdrawal handleWithdrawal
  dsimp only
  rcases e : h.store.recipients.lookup event.account.toHex with - | recipient
  · exact Computes.after (hm.run_load recipientClass e) (hm.warning trap _)
  · refine Computes.after (hm.run_load recipientClass e) ?_
    refine (computes_required trap _ _ _ _).bind ?_
    rintro splitRecipientIds _ _ ⟨rfl, rfl⟩
    refine Computes.forM (I := fun h t => Mirrors hashers start h t) ?_ hm
    intro splitRecipientId _ h₁ t₁ hm₁
    refine Computes.forM (I := fun h t => Mirrors hashers start h t) ?_ hm₁
    intro token _ h₂ t₂ hm₂
    exact computes_settleToken trap hm₂ event splitRecipientId token

/-- Each handler, on entities that stand for the host, does what its function does. -/
theorem computes_handler (hm : Mirrors hashers start h t) (trigger : Trigger) :
    Computes (plainCall schema hashers) (Abort.hostError trap) (Mapping.handler trap trigger) t
      (handle h trigger) fun _ h' t' => Mirrors hashers start h' t' := by
  rcases trigger with event | call | event | event | event
  · exact computes_handleCreateSplit trap hm event
  · exact computes_handleCreateSplitCall trap hm call
  · exact computes_handleDistribution trap hm _ _ _
  · exact computes_handleDistribution trap hm _ _ _
  · exact computes_handleWithdrawal trap hm event

/-! ### What the handlers call -/

section proper

theorem proper_load {R : Type} (C : EntityClass R) (id : String) :
    (C.load id).Always (HostCall.Proper schema) :=
  Program.Always.bind ⟨trivial, fun _ => trivial⟩ fun _ => trivial

theorem proper_save {R : Type} (C : EntityClass R) (id : String) (row : R) :
    (C.save id row).Always (HostCall.Proper schema) := Program.always_perform (C.proper_save id row)

theorem proper_required {α : Type} (value : Option α) (entityType entityId field : String) :
    (Mapping.required trap value entityType entityId field).Always (HostCall.Proper schema) := by
  rcases value with - | a <;> trivial

theorem proper_arrayGet {α : Type} (xs : List α) (i : ℕ) :
    (Mapping.arrayGet trap xs i).Always (HostCall.Proper schema) := by
  unfold Mapping.arrayGet
  rcases xs[i]? with - | a <;> trivial

theorem proper_warning (message : String) :
    (Mapping.warning message).Always (HostCall.Proper schema) :=
  ⟨trivial, fun _ => trivial⟩

theorem proper_createSplitRecipients (splitId : String) {splitRecipientIds : List String}
    {accounts : List Address} {allocations : List ℤ} :
    (Mapping.createSplitRecipients trap splitId splitRecipientIds accounts allocations).Always
      (HostCall.Proper schema) := by
  induction accounts generalizing splitRecipientIds allocations with
  | nil => trivial
  | cons account accounts ih =>
    refine (proper_load recipientClass _).bind fun _ => ?_
    refine (proper_required trap _ _ _ _).bind fun _ => ?_
    refine (proper_save recipientClass _ _).bind fun _ => ?_
    refine (proper_arrayGet trap _ _).bind fun _ => ?_
    exact (proper_save splitRecipientClass _ _).bind fun _ => ih

theorem proper_distributeToRecipients (amountToSplit : ℤ) (tokenAddress : String)
    (splitRecipientIds : List String) :
    (Mapping.distributeToRecipients trap amountToSplit tokenAddress splitRecipientIds).Always
      (HostCall.Proper schema) := by
  induction splitRecipientIds with
  | nil => trivial
  | cons splitRecipientId splitRecipientIds ih =>
    refine (proper_load splitRecipientClass _).bind fun loaded => ?_
    rcases loaded with - | splitRecipient
    · exact proper_warning _
    · refine (proper_load splitRecipientTokenClass _).bind fun _ => ?_
      refine (proper_required trap _ _ _ _).bind fun _ => ?_
      refine (proper_required trap _ _ _ _).bind fun _ => ?_
      exact (proper_save splitRecipientTokenClass _ _).bind fun _ => ih

theorem proper_handleDistribution (splitAddress : String) (amount : ℤ) (tokenAddress : String) :
    (Mapping.handleDistribution trap splitAddress amount tokenAddress).Always
      (HostCall.Proper schema) := by
  refine (proper_load splitClass _).bind fun loaded => ?_
  rcases loaded with - | split
  · exact proper_warning _
  · refine (proper_required trap _ _ _ _).bind fun _ => ?_
    refine (proper_required trap _ _ _ _).bind fun _ => ?_
    exact proper_distributeToRecipients trap _ _ _

theorem proper_settleToken (event : Withdrawal) (splitRecipientId token : String) :
    (Mapping.settleToken trap event splitRecipientId token).Always (HostCall.Proper schema) := by
  refine (proper_load splitRecipientTokenClass _).bind fun loaded => ?_
  rcases loaded with - | row
  · trivial
  · refine (proper_required trap _ _ _ _).bind fun lastDistributed => ?_
    refine (proper_required trap _ _ _ _).bind fun lastClaimed => ?_
    by_cases hzero : lastDistributed - lastClaimed = 0
    · simp only [hzero, if_true]
      trivial
    · simp only [hzero, if_false]
      refine (proper_save splitRecipientTokenClass _ _).bind fun _ => ?_
      refine (proper_arrayGet trap _ _).bind fun _ => ?_
      exact proper_save splitRecipientWithdrawEventClass _ _

theorem proper_handler (trigger : Trigger) :
    (Mapping.handler trap trigger).Always (HostCall.Proper schema) := by
  rcases trigger with event | call | event | event | event
  · refine (proper_load splitClass _).bind fun loaded => ?_
    rcases loaded with - | split
    · exact proper_save splitClass _ _
    · trivial
  · refine (proper_load splitClass _).bind fun _ => ?_
    exact (proper_createSplitRecipients trap _).bind fun _ => proper_save splitClass _ _
  · exact proper_handleDistribution trap _ _ _
  · exact proper_handleDistribution trap _ _ _
  · refine (proper_load recipientClass _).bind fun loaded => ?_
    rcases loaded with - | recipient
    · exact proper_warning _
    · refine (proper_required trap _ _ _ _).bind fun _ => ?_
      exact Program.always_forM fun _ => Program.always_forM fun _ => proper_settleToken trap _ _ _

end proper

end SplitsSubgraph
