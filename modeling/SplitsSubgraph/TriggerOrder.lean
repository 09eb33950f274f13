/-
SplitsSubgraph/TriggerOrder.lean

What the order of delivery costs.

The data of a split comes with the call, and the call comes after all logs of its
transaction, but the `CreateSplit` log comes in its place.  In between the split has a
row without a fee, and a distribution from it aborts (`abortsUnset_iff`).  So a
distribution is lost exactly when it follows the creation of its split in the same
transaction; every other action has the same effect as in execution order.

For the second half the rows are compared through their tallies: in both orders a
balance is the tally of what follows the call, and what follows differs only in the rest
of the transaction, which makes no distribution from the new split.
-/
import SplitsSubgraph.Delivery

namespace SplitsSubgraph

open KeyedTable Sweep

/-! ### Which invocations abort -/

/-- The invocation is aborted by reading a required field that was never set. -/
def AbortsUnset (st : Store) (trigger : Trigger) : Prop :=
  ∃ entityType entityId field,
    invokeHandler .plain st trigger = .error (.unsetField entityType entityId field)

theorem not_abortsUnset_of_ok {st : Store} {trigger : Trigger} {host : Host}
    (e : invokeHandler .plain st trigger = .ok host) : ¬ AbortsUnset st trigger := by
  rintro ⟨entityType, entityId, field, e'⟩
  rw [e] at e'
  cases e'

section invocations

variable {st : Store} {L : Ledger Address LogId}

theorem Refines.not_abortsUnset_createSplit (h : Refines st L) (event : CreateSplit) :
    ¬ AbortsUnset st (.createSplit event) := by
  have hrow := h.lookup_split event.split
  rcases e : L.splits event.split with - | x
  · rw [e, Option.map_none] at hrow
    obtain ⟨sets, hrun⟩ := handleCreateSplit_plain (h := Host.enter .plain st) rfl hrow
    exact not_abortsUnset_of_ok hrun
  · rw [e, Option.map_some] at hrow
    exact not_abortsUnset_of_ok (handleCreateSplit_known (h := Host.enter .plain st) hrow)

theorem Refines.not_abortsUnset_createSplitCall (h : Refines st L) (call : CreateSplitCall) :
    ¬ AbortsUnset st (.createSplitCall call) := by
  have hc : RecipientsComplete (Host.enter .plain st).store.recipients := h.recipientsComplete
  rcases Nat.lt_or_ge call.percentAllocations.length call.accounts.length with hlen | hlen
  · rintro ⟨entityType, entityId, field, e⟩
    -- a call with too few allocations is aborted too, but not for an unset field
    have e' := (handleCreateSplitCall_abort hc hlen).symm.trans e
    cases e'
  · obtain ⟨mid, saves, hrun, -⟩ := handleCreateSplitCall_spec hc hlen
    exact not_abortsUnset_of_ok hrun

theorem Refines.not_abortsUnset_withdrawal (h : Refines st L) (event : Withdrawal) :
    ¬ AbortsUnset st (.withdrawal event) := by
  obtain ⟨host, hrun, -⟩ := h.withdrawal_sets .plain event
  exact not_abortsUnset_of_ok hrun

/-- A distribution aborts iff the split has a row without a fee. -/
theorem Refines.abortsUnset_distribution_iff (h : Refines st L) (hv : L.Valid) {trigger : Trigger}
    {s t : Address} {amount : ℤ} (ht : trigger.distribution = some (s, t, amount)) :
    AbortsUnset st trigger ↔ ∃ rs, L.splits s = some (none, rs) := by
  have htrigger : invokeHandler .plain st trigger
      = handleDistribution (Host.enter .plain st) s.toHex amount t.toHex :=
    invokeHandler_of_distribution ht
  rcases e : L.splits s with - | ⟨- | fee, rs⟩
  · have hrun := htrigger.trans (h.distribution_of_none .plain e t amount)
    simp [not_abortsUnset_of_ok hrun]
  · have hrun := htrigger.trans (h.distribution_of_no_fee .plain e t amount)
    exact iff_of_true ⟨_, _, _, hrun⟩ ⟨rs, rfl⟩
  · obtain ⟨st', saves, hrun, -⟩ := h.distribution_of_fee hv .plain e t amount
    simp [not_abortsUnset_of_ok (htrigger.trans hrun)]

end invocations

/-- After a `CreateSplit` event the split has a row. -/
theorem isSome_splits_of_createSplit {triggers : List Trigger} {s : Address}
    (h : .createSplit ⟨s⟩ ∈ triggers) : ((ledger .plain triggers).splits s).isSome := by
  refine Replay.of_mem (Q := fun L : Ledger Address LogId => (L.splits s).isSome) ?_
    (List.mem_map_of_mem h) ?_
  · intro L a hL
    rcases Ledger.step_splits creditOf _ L a s with e | ⟨-, -, -, e⟩ | ⟨_, _, _, -, -, e⟩
    · rwa [e]
    · rw [e]
      rfl
    · rw [e]
      rfl
  · intro L
    show ((L.announce _ s).splits s).isSome
    rw [Ledger.announce]
    split_ifs with hnew
    · simp
    · rw [not_and] at hnew
      exact Option.isSome_iff_ne_none.mpr (hnew rfl)

/-- **Which invocations abort on an unset field**: the distributions from a split whose
event was handled, but none of whose calls. -/
theorem abortsUnset_iff (pre : List Trigger) (trigger : Trigger) :
    AbortsUnset (run .plain pre) trigger ↔
      ∃ s t amount, trigger.distribution = some (s, t, amount) ∧ .createSplit ⟨s⟩ ∈ pre
        ∧ ¬ CallHandled s pre := by
  have h := refines_run .plain pre
  -- a row without a fee: the event came, the data did not
  have hunpriced : ∀ s, (∃ rs, (ledger .plain pre).splits s = some (none, rs)) ↔
      .createSplit ⟨s⟩ ∈ pre ∧ ¬ CallHandled s pre := by
    intro s
    constructor
    · rintro ⟨rs, e⟩
      refine ⟨(announced_of_unpriced .plain e).2, fun hcall => ?_⟩
      have hdata := isSome_data_of_callHandled .plain hcall
      simp [Ledger.data, e] at hdata
    · rintro ⟨hevent, hcall⟩
      have hsome := isSome_splits_of_createSplit hevent
      rcases e : (ledger .plain pre).splits s with - | ⟨- | fee, rs⟩
      · simp [e] at hsome
      · exact ⟨rs, rfl⟩
      · refine absurd (callHandled_of_isSome_data .plain ?_) hcall
        rw [Ledger.data_eq_some.mpr e]
        rfl
  rcases e : trigger.distribution with - | ⟨s, t, amount⟩
  · refine iff_of_false ?_ (by simp)
    cases trigger with
    | createSplit event => exact h.not_abortsUnset_createSplit event
    | createSplitCall call => exact h.not_abortsUnset_createSplitCall call
    | withdrawal event => exact h.not_abortsUnset_withdrawal event
    | distributeETH event => simp [Trigger.distribution] at e
    | distributeERC20 event => simp [Trigger.distribution] at e
  · rw [h.abortsUnset_distribution_iff (valid_ledger .plain pre) e, hunpriced s]
    constructor
    · intro hs
      exact ⟨s, t, amount, rfl, hs⟩
    · rintro ⟨s', t', amount', e', hs⟩
      obtain ⟨rfl, -⟩ := Prod.mk.inj (Option.some.inj e')
      exact hs

/-! ### Execution order -/

/-- The split that an action distributes from. -/
def SplitMainAction.distributes : SplitMainAction → Option Address
  | .distributeETH split _ => some split
  | .distributeERC20 split _ _ => some split
  | _ => none

/-- No action distributes from a split that an earlier action of the transaction created. -/
def Transaction.SparesNewSplits (tx : Transaction) : Prop :=
  tx.actions.Pairwise fun a b => ∀ s, a.2.creates = some s → b.2.distributes ≠ some s

/-- The triggers of actions in execution order: with the creation of a split comes its
data. -/
def executedActions (timestamp : ℤ) (hash : Bytes) (actions : List (ℕ × SplitMainAction)) :
    List Trigger :=
  actions.flatMap fun a =>
    a.2.event timestamp hash a.1 :: (a.2.call.map Trigger.createSplitCall).toList

def Transaction.executed (p : ℤ × Transaction) : List Trigger :=
  executedActions p.1 p.2.hash p.2.actions

/-- The triggers of a chain in execution order. -/
def executed (chain : List Block) : List Trigger :=
  (transactionsOf chain).flatMap Transaction.executed

/-- The totals of a token row. -/
def totalsOf (st : Store) (s r t : Address) : Option (Option ℤ × Option ℤ) :=
  (tokenRowOf st s r t).map fun row => (row.totalDistributed, row.totalClaimed)

/-- Nothing is lost to the order of delivery: no handler aborts on an unset field, and
the totals are those of execution order. -/
structure NothingLost (chain : List Block) : Prop where
  no_abort : ∀ pre trigger post, delivered chain = pre ++ trigger :: post →
    ¬ AbortsUnset (run .plain pre) trigger
  totals : ∀ s r t, totalsOf (run .plain (delivered chain)) s r t
    = totalsOf (run .plain (executed chain)) s r t

namespace SplitMainAction

variable {a : SplitMainAction} {s : Address} {timestamp : ℤ} {hash : Bytes} {logIndex : ℕ}

theorem event_eq_createSplit :
    a.event timestamp hash logIndex = .createSplit ⟨s⟩ ↔ a.creates = some s := by
  cases a <;> simp [event, creates]

theorem exists_distribution_event :
    (∃ t amount, (a.event timestamp hash logIndex).distribution = some (s, t, amount))
      ↔ a.distributes = some s := by
  cases a <;> simp [event, distributes, Trigger.distribution]

theorem created_event : (a.event timestamp hash logIndex).created = none := by
  cases a <;> rfl

theorem created_call : (a.call.map Trigger.createSplitCall).bind Trigger.created = a.creates := by
  cases a <;> rfl

theorem length_call {call : CreateSplitCall} (h : a.call = some call) :
    call.accounts.length = call.percentAllocations.length := by
  cases a with
  | createSplit split recipients distributorFee =>
    obtain rfl := Option.some.inj h
    simp
  | distributeETH split amount => simp [SplitMainAction.call] at h
  | distributeERC20 split token amount => simp [SplitMainAction.call] at h
  | withdraw account ethAmount tokens tokenAmounts => simp [SplitMainAction.call] at h

theorem exists_call_of_creates (h : a.creates = some s) :
    ∃ call, a.call = some call ∧ call.split = s := by
  cases a with
  | createSplit split recipients distributorFee =>
    exact ⟨_, rfl, Option.some.inj h⟩
  | distributeETH split amount => simp [creates] at h
  | distributeERC20 split token amount => simp [creates] at h
  | withdraw account ethAmount tokens tokenAmounts => simp [creates] at h

end SplitMainAction

namespace Transaction

variable (tx : Transaction) (timestamp : ℤ)

theorem createSplit_mem_events {s : Address} :
    .createSplit ⟨s⟩ ∈ tx.events timestamp ↔ s ∈ tx.creates := by
  simp only [events, creates, List.mem_map, List.mem_filterMap,
    SplitMainAction.event_eq_createSplit]

theorem createdSplits_events : createdSplits (tx.events timestamp) = [] := by
  rw [createdSplits, events, List.filterMap_eq_nil_iff]
  intro trigger hmem
  obtain ⟨a, -, rfl⟩ := List.mem_map.mp hmem
  exact SplitMainAction.created_event

theorem createdSplits_createCalls : createdSplits (createCalls tx.actions) = tx.creates := by
  rw [createdSplits, createCalls, creates, List.filterMap_filterMap]
  exact List.filterMap_congr fun a _ => SplitMainAction.created_call

theorem createdSplits_executed : createdSplits (executed (timestamp, tx)) = tx.creates := by
  rw [createdSplits, executed, executedActions, creates, List.filterMap_flatMap]
  induction tx.actions with
  | nil => rfl
  | cons a actions ih =>
    rw [List.flatMap_cons, ih, List.filterMap_cons_none SplitMainAction.created_event]
    have hcall := SplitMainAction.created_call (a := a.2)
    rcases e : a.2.call with - | call
    · simp only [e, Option.map_none, Option.bind_none] at hcall
      simp [← hcall]
    · simp only [e, Option.map_some, Option.bind_some] at hcall
      simp [← hcall, Trigger.created]

end Transaction

/-! ### No invocation aborts -/

section chains

theorem append_eq_append_cons {α : Type*} {xs ys l r : List α} {a : α}
    (e : xs ++ ys = l ++ a :: r) :
    (∃ r', xs = l ++ a :: r') ∨ ∃ l', l = xs ++ l' ∧ ys = l' ++ a :: r := by
  rcases List.append_eq_append_iff.mp e with ⟨l', hl, hys⟩ | ⟨xs', hxs, hr⟩
  · exact Or.inr ⟨l', hl, hys⟩
  · rcases xs' with - | ⟨a', r'⟩
    · exact Or.inr ⟨[], by simpa using hxs.symm, by simpa using hr.symm⟩
    · obtain ⟨rfl, -⟩ := List.cons.inj hr
      exact Or.inl ⟨r', hxs⟩

variable {T : List (ℤ × Transaction)} {p : ℤ × Transaction} {s : Address}

theorem createdSplits_flatMap_delivered (T : List (ℤ × Transaction)) :
    createdSplits (T.flatMap Transaction.delivered) = T.flatMap fun p => p.2.creates := by
  rw [createdSplits, List.filterMap_flatMap]
  apply List.flatMap_congr
  intro p _
  show createdSplits (p.2.events p.1 ++ createCalls p.2.actions) = _
  rw [createdSplits_append, Transaction.createdSplits_events, List.nil_append,
    Transaction.createdSplits_createCalls]

theorem createdSplits_flatMap_executed (T : List (ℤ × Transaction)) :
    createdSplits (T.flatMap Transaction.executed) = T.flatMap fun p => p.2.creates := by
  rw [createdSplits, List.filterMap_flatMap]
  exact List.flatMap_congr fun p _ => p.2.createdSplits_executed p.1

/-- Once a transaction is over, the splits it created are known. -/
theorem callHandled_of_creates (hp : p ∈ T) (hs : s ∈ p.2.creates) :
    CallHandled s (T.flatMap Transaction.delivered) := by
  obtain ⟨a, ha, hcreates⟩ := List.mem_filterMap.mp hs
  obtain ⟨call, hcall, rfl⟩ := SplitMainAction.exists_call_of_creates hcreates
  refine ⟨call, ?_, rfl, (SplitMainAction.length_call hcall).le⟩
  refine List.mem_flatMap.mpr ⟨p, hp, List.mem_append_right _ ?_⟩
  exact List.mem_filterMap.mpr ⟨a, ha, by simp [hcall]⟩

/-- Within a transaction: a distribution after the event of its split. -/
theorem Transaction.not_sparesNewSplits {l post : List Trigger} {trigger : Trigger} {t : Address}
    {amount : ℤ} (e : Transaction.delivered p = l ++ trigger :: post)
    (hd : trigger.distribution = some (s, t, amount)) (hevent : .createSplit ⟨s⟩ ∈ l) :
    ¬ p.2.SparesNewSplits := by
  rcases append_eq_append_cons e with ⟨r, e⟩ | ⟨l', -, e⟩
  · intro hspares
    obtain ⟨A, R, hactions, rfl, hR⟩ := List.map_eq_append_iff.mp e
    obtain ⟨b, B, rfl, rfl, -⟩ := List.map_eq_cons_iff.mp hR
    obtain ⟨a, ha, hcreate⟩ := List.mem_map.mp hevent
    rw [Transaction.SparesNewSplits, hactions, List.pairwise_append] at hspares
    exact hspares.2.2 a ha b List.mem_cons_self s
      (SplitMainAction.event_eq_createSplit.mp hcreate)
      (SplitMainAction.exists_distribution_event.mp ⟨t, amount, hd⟩)
  · -- the calls come after the logs, and none of them is a distribution
    have hmem : trigger ∈ createCalls p.2.actions := by simp [e]
    obtain ⟨a, -, hcall⟩ := List.mem_filterMap.mp hmem
    obtain ⟨call, -, rfl⟩ := Option.map_eq_some_iff.mp hcall
    simp [Trigger.distribution] at hd

theorem not_abortsUnset_of_spares (h : ∀ p ∈ T, p.2.SparesNewSplits) {pre post : List Trigger}
    {trigger : Trigger} (e : T.flatMap Transaction.delivered = pre ++ trigger :: post) :
    ¬ AbortsUnset (run .plain pre) trigger := by
  rw [abortsUnset_iff]
  rintro ⟨s, t, amount, hd, hevent, hcall⟩
  induction T using List.reverseRecOn generalizing post with
  | nil => simp at e
  | append_singleton T p ih =>
    rw [List.flatMap_append, List.flatMap_singleton] at e
    rcases append_eq_append_cons e with ⟨r, hT⟩ | ⟨l, rfl, hp⟩
    · exact ih (fun q hq => h q (List.mem_append_left _ hq)) hT
    · rcases List.mem_append.mp hevent with hevent | hevent
      · -- the split is older than the transaction, so its call was handled
        obtain ⟨q, hq, hmem⟩ := List.mem_flatMap.mp hevent
        have hs : s ∈ q.2.creates := by
          rcases List.mem_append.mp hmem with hmem | hmem
          · exact (q.2.createSplit_mem_events q.1).mp hmem
          · simp [createCalls] at hmem
        exact hcall ((callHandled_of_creates hq hs).append l)
      · exact Transaction.not_sparesNewSplits hp hd hevent (h p (by simp))

/-- A distribution after the creation of its split in the same transaction aborts. -/
theorem exists_abortsUnset (honce : (T.flatMap fun p => p.2.creates).Nodup) (hp : p ∈ T)
    (h : ¬ p.2.SparesNewSplits) :
    ∃ pre trigger post, T.flatMap Transaction.delivered = pre ++ trigger :: post
      ∧ AbortsUnset (run .plain pre) trigger := by
  obtain ⟨T₁, T₂, rfl⟩ := List.append_of_mem hp
  rw [Transaction.SparesNewSplits, List.pairwise_iff_forall_sublist] at h
  push Not at h
  obtain ⟨a, b, hsub, s, ha, hb⟩ := h
  obtain ⟨A, R, hactions, haA, hbR⟩ := List.cons_sublist_iff.mp hsub
  obtain ⟨B, C, rfl⟩ := List.append_of_mem (List.singleton_sublist.mp hbR)
  obtain ⟨t, amount, hd⟩ := SplitMainAction.exists_distribution_event.mpr hb
  have hs : s ∈ p.2.creates :=
    List.mem_filterMap.mpr ⟨a, by simp [hactions, haA], ha⟩
  refine ⟨T₁.flatMap Transaction.delivered
      ++ (A ++ B).map (fun x => x.2.event p.1 p.2.hash x.1),
    b.2.event p.1 p.2.hash b.1, C.map (fun x => x.2.event p.1 p.2.hash x.1)
      ++ createCalls p.2.actions ++ T₂.flatMap Transaction.delivered, ?_, ?_⟩
  · simp [Transaction.delivered, Transaction.events, hactions]
  · rw [abortsUnset_iff]
    refine ⟨s, t, amount, hd, ?_, ?_⟩
    · refine List.mem_append_right _ (List.mem_map.mpr ⟨a, by simp [haA], ?_⟩)
      exact SplitMainAction.event_eq_createSplit.mpr ha
    · -- only earlier transactions had their calls, and they created other splits
      rintro ⟨call, hmem, rfl, -⟩
      have hcreated : call.split ∈ T₁.flatMap fun q => q.2.creates := by
        rcases List.mem_append.mp hmem with hmem | hmem
        · rw [← createdSplits_flatMap_delivered]
          exact List.mem_filterMap.mpr ⟨_, hmem, rfl⟩
        · obtain ⟨x, -, e⟩ := List.mem_map.mp hmem
          have hnone := congrArg Trigger.created e
          rw [SplitMainAction.created_event] at hnone
          cases hnone
      rw [List.flatMap_append, List.nodup_append] at honce
      exact honce.2.2 _ hcreated _ (List.mem_flatMap.mpr ⟨p, by simp, hs⟩) rfl

/-! ### The totals -/

section totals

variable {share : ℤ → ℤ} {r t : Address} {b : Option Balance}

theorem tally_createCalls (actions : List (ℕ × SplitMainAction)) :
    Ledger.tally share s r t b ((createCalls actions).map Trigger.action) = b := by
  induction actions with
  | nil => rfl
  | cons a actions ih =>
    rw [createCalls] at ih ⊢
    rcases e : a.2.call with - | call
    · rwa [List.filterMap_cons_none (by simp [e])]
    · rw [List.filterMap_cons_some (b := .createSplitCall call) (by simp [e])]
      exact ih

/-- Within a transaction both orders have the same effect on a balance. -/
theorem tally_executed (p : ℤ × Transaction) :
    Ledger.tally share s r t b ((Transaction.executed p).map Trigger.action)
      = Ledger.tally share s r t b ((p.2.events p.1).map Trigger.action) := by
  rw [Transaction.executed, executedActions, Transaction.events]
  induction p.2.actions generalizing b with
  | nil => rfl
  | cons a actions ih =>
    rw [List.flatMap_cons, List.map_append, Ledger.tally_append, ih, List.map_cons,
      List.map_cons]
    rcases a.2.call with - | call <;> rfl

theorem tally_delivered (T : List (ℤ × Transaction)) :
    Ledger.tally share s r t b ((T.flatMap Transaction.delivered).map Trigger.action)
      = Ledger.tally share s r t b ((T.flatMap Transaction.executed).map Trigger.action) := by
  induction T generalizing b with
  | nil => rfl
  | cons p T ih =>
    rw [List.flatMap_cons, List.flatMap_cons, List.map_append, List.map_append,
      Ledger.tally_append, Ledger.tally_append, ih, tally_executed, Transaction.delivered,
      List.map_append, Ledger.tally_append, tally_createCalls]

/-- Actions that do not distribute from the split leave it without a row. -/
theorem tally_rest {actions : List (ℕ × SplitMainAction)} {timestamp : ℤ} {hash : Bytes}
    (h : ∀ a ∈ actions, a.2.distributes ≠ some s) :
    Ledger.tally share s r t none
      ((executedActions timestamp hash actions).map Trigger.action) = none := by
  apply Ledger.tally_eq_none
  rw [filterMap_amountFor, distributedAmounts, List.filterMap_eq_nil_iff]
  intro trigger hmem
  obtain ⟨a, ha, hmem⟩ := List.mem_flatMap.mp hmem
  rcases List.mem_cons.mp hmem with rfl | hmem
  · rcases e : (a.2.event timestamp hash a.1).distribution with - | ⟨s', t', amount⟩
    · rfl
    · have hs : s' ≠ s := by
        rintro rfl
        exact h a ha (SplitMainAction.exists_distribution_event.mp ⟨t', amount, e⟩)
      simp [hs]
  · obtain ⟨call, -, rfl⟩ := Option.map_eq_some_iff.mp (Option.mem_toList.mp hmem)
    rfl

/-- Two runs that create the split by the same call, and in which the rest tallies
alike, give its balances alike. -/
theorem balances_eq_of_tally (m : SaveMode) {pre post pre' post' : List Trigger}
    {call : CreateSplitCall} (hlen : call.accounts.length ≤ call.percentAllocations.length)
    (h : (createdSplits (pre ++ .createSplitCall call :: post)).Nodup)
    (h' : (createdSplits (pre' ++ .createSplitCall call :: post')).Nodup)
    (htally : ∀ share r t,
      Ledger.tally share call.split r t none (post.map Trigger.action)
        = Ledger.tally share call.split r t none (post'.map Trigger.action)) (r t : Address) :
    (ledger m (pre ++ .createSplitCall call :: post)).balances call.split r t
      = (ledger m (pre' ++ .createSplitCall call :: post')).balances call.split r t := by
  obtain ⟨-, ha, hb⟩ := ledger_of_call m hlen (notMem_createdSplits h).1 (notMem_createdSplits h).2
  obtain ⟨-, ha', hb'⟩ :=
    ledger_of_call m hlen (notMem_createdSplits h').1 (notMem_createdSplits h').2
  by_cases hr : r ∈ call.accounts
  · rw [hb r hr t, hb' r hr t, htally]
  · have hnone : lastAssoc call.accounts call.percentAllocations r = none := lastAssoc_eq_none hr
    rw [(valid_ledger m _).balances_eq_none ((ha r).trans hnone),
      (valid_ledger m _).balances_eq_none ((ha' r).trans hnone)]

end totals

/-- If no transaction distributes from a split that it created before, the balances are
those of execution order. -/
theorem balances_delivered_eq (honce : (T.flatMap fun p => p.2.creates).Nodup)
    (h : ∀ p ∈ T, p.2.SparesNewSplits) (s r t : Address) :
    (ledger .plain (T.flatMap Transaction.delivered)).balances s r t
      = (ledger .plain (T.flatMap Transaction.executed)).balances s r t := by
  have hD := createdSplits_flatMap_delivered T
  have hE := createdSplits_flatMap_executed T
  by_cases hs : s ∈ T.flatMap fun p => p.2.creates
  · obtain ⟨p, hp, hsp⟩ := List.mem_flatMap.mp hs
    obtain ⟨a, haction, hcreates⟩ := List.mem_filterMap.mp hsp
    obtain ⟨call, hcall, rfl⟩ := SplitMainAction.exists_call_of_creates hcreates
    obtain ⟨T₁, T₂, rfl⟩ := List.append_of_mem hp
    obtain ⟨A, B, hactions⟩ := List.append_of_mem haction
    have hspares := h p hp
    rw [Transaction.SparesNewSplits, hactions, List.pairwise_append, List.pairwise_cons] at hspares
    have hrest : ∀ b ∈ B, b.2.distributes ≠ some call.split :=
      fun b hb => hspares.2.1.1 b hb call.split hcreates
    -- both runs, cut at the call that creates the split
    have eD : (T₁ ++ p :: T₂).flatMap Transaction.delivered
        = (T₁.flatMap Transaction.delivered ++ p.2.events p.1 ++ createCalls A)
          ++ .createSplitCall call :: (createCalls B ++ T₂.flatMap Transaction.delivered) := by
      simp [Transaction.delivered, createCalls, hactions, hcall]
    have eE : (T₁ ++ p :: T₂).flatMap Transaction.executed
        = (T₁.flatMap Transaction.executed ++ executedActions p.1 p.2.hash A
            ++ [a.2.event p.1 p.2.hash a.1])
          ++ .createSplitCall call
            :: (executedActions p.1 p.2.hash B ++ T₂.flatMap Transaction.executed) := by
      simp [Transaction.executed, executedActions, hactions, hcall]
    rw [← hD, eD] at honce
    have honce' := honce
    rw [← eD, hD, ← hE, eE] at honce'
    rw [eD, eE]
    refine balances_eq_of_tally .plain (SplitMainAction.length_call hcall).le honce honce' ?_ r t
    intro share r t
    rw [List.map_append, List.map_append, Ledger.tally_append, Ledger.tally_append,
      tally_createCalls, tally_rest hrest, tally_delivered]
  · rw [← hD] at hs
    rw [(valid_ledger .plain _).balances_eq_none (allocations_eq_none .plain hs r)]
    rw [hD, ← hE] at hs
    rw [(valid_ledger .plain _).balances_eq_none (allocations_eq_none .plain hs r)]

end chains

theorem totalsOf_congr {st st' : Store} {L L' : Ledger Address LogId} (h : Refines st L)
    (h' : Refines st' L') {s r t : Address} (e : L.balances s r t = L'.balances s r t) :
    totalsOf st s r t = totalsOf st' s r t := by
  rw [totalsOf, totalsOf, h.tokenRowOf_eq, h'.tokenRowOf_eq, e]

/-- **What is lost to the order of delivery.**  On a chain where each split is created
once, no handler aborts on an unset field and all totals are those of execution order, if
and only if no transaction distributes from a split after creating it. -/
theorem nothingLost_iff (chain : List Block) (honce : CreatedOnce chain) :
    NothingLost chain ↔ ∀ p ∈ transactionsOf chain, p.2.SparesNewSplits := by
  constructor
  · intro h p hp
    by_contra hspares
    obtain ⟨pre, trigger, post, e, habort⟩ := exists_abortsUnset honce hp hspares
    exact h.no_abort pre trigger post ((delivered_eq honce).trans e) habort
  · intro h
    refine ⟨?_, ?_⟩
    · intro pre trigger post e
      rw [delivered_eq honce] at e
      exact not_abortsUnset_of_spares h e
    · intro s r t
      rw [delivered_eq honce, executed]
      exact totalsOf_congr (refines_run .plain _) (refines_run .plain _)
        (balances_delivered_eq honce h s r t)

section example_chains

/-- Two recipients at 50% each, without a fee. -/
def evenSplit : SplitMainAction :=
  .createSplit (Address.filled 1) [(Address.filled 2, 500000), (Address.filled 3, 500000)] 0

/-- A split is created and distributed from in one transaction. -/
def freshDistribution : Block where
  timestamp := 1
  transactions := [⟨0, List.replicate 32 7,
    [(0, evenSplit), (1, .distributeETH (Address.filled 1) 100)]⟩]
  indexes := by decide
  logIndexes := by decide

/-- The distribution aborts and is missing from the totals. -/
theorem not_nothingLost_freshDistribution :
    ¬ NothingLost [freshDistribution]
    ∧ totalsOf (run .plain (delivered [freshDistribution])) (Address.filled 1) (Address.filled 2)
        zeroAddress = none
    ∧ totalsOf (run .plain (executed [freshDistribution])) (Address.filled 1) (Address.filled 2)
        zeroAddress = some (some 50, some 0) := by
  have hdelivered : delivered [freshDistribution]
      = [ .createSplit ⟨Address.filled 1⟩, .distributeETH ⟨Address.filled 1, 100⟩,
          .createSplitCall ⟨[Address.filled 2, Address.filled 3], [500000, 500000], 0,
            Address.filled 1⟩ ] := by
    rw [delivered_eq (by decide)]
    rfl
  refine ⟨fun h => ?_, ?_, by decide +kernel⟩
  · refine h.no_abort [.createSplit ⟨Address.filled 1⟩] _ _ hdelivered ?_
    exact ⟨"Split", (Address.filled 1).toHex, "distributorFee", rfl⟩
  · rw [hdelivered]
    decide +kernel

/-- The same in two transactions, with a withdrawal before and after. -/
def laterDistribution : Block where
  timestamp := 1
  transactions :=
    [ ⟨0, List.replicate 32 7, [(0, evenSplit), (1, .withdraw (Address.filled 2) 5 [] [])]⟩,
      ⟨2, List.replicate 32 8, [(4, .distributeETH (Address.filled 1) 100),
        (5, .withdraw (Address.filled 2) 50 [] [])]⟩ ]
  indexes := by decide
  logIndexes := by decide

theorem nothingLost_laterDistribution : NothingLost [laterDistribution] := by
  apply (nothingLost_iff [laterDistribution] (by decide)).mpr
  intro p hp
  have hp' : p ∈ laterDistribution.transactions.map fun tx =>
      (laterDistribution.timestamp, tx) := by
    simpa [transactionsOf] using hp
  fin_cases hp' <;> simp [Transaction.SparesNewSplits, evenSplit, SplitMainAction.creates,
    SplitMainAction.distributes]

end example_chains

end SplitsSubgraph
