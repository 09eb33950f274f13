/-
SplitsSubgraph/Completeness.lean

Which handlers save rows that the schema rejects.

Four of the five handlers only ever save rows that are complete by themselves.  The
fifth, `handleCreateSplit`, saves a new split with an empty list of recipients and
no fee; schema.graphql requires the fee, so a node that validates rejects that row
and discards the handler.  It saves nothing when the split already has a row, and
the only other writer of split rows is `handleCreateSplitCall`, so a run is free of
incomplete saves exactly when each `CreateSplit` event comes after a handled call
for its split (`saves_complete_iff`).  On the chain it is the other way round.
-/
import SplitsSubgraph.Announce
import SplitsSubgraph.Bounds

namespace SplitsSubgraph

open KeyedTable Sweep

/-! ### Complete saves -/

/-- Each row, once merged into the store as it is when the row is saved, passes
validation. -/
def CompleteSaves : Store → List SetEntity → Prop
  | _, [] => True
  | st, s :: saves => (s.merged st).validate = .ok () ∧ CompleteSaves (st.set s) saves

/-- A row that is complete by itself stays so when it is merged. -/
theorem SetEntity.Complete.merged {s : SetEntity} (hs : s.Complete) (st : Store) :
    (s.merged st).Complete := by
  cases s with
  | split id row =>
    simp only [SetEntity.Complete] at hs
    simp only [SetEntity.merged, mergeAt]
    split <;> simp [SetEntity.Complete, Split.merge, hs]
  | recipient id row =>
    simp only [SetEntity.Complete] at hs
    simp only [SetEntity.merged, mergeAt]
    split <;> simp [SetEntity.Complete, Recipient.merge, hs]
  | splitRecipient id row =>
    simp only [SetEntity.Complete] at hs
    simp only [SetEntity.merged, mergeAt]
    split <;> simp [SetEntity.Complete, SplitRecipient.merge, hs]
  | splitRecipientToken id row =>
    simp only [SetEntity.Complete] at hs
    simp only [SetEntity.merged, mergeAt]
    split <;> simp [SetEntity.Complete, SplitRecipientToken.merge, hs]
  | splitRecipientWithdrawEvent id row =>
    simp only [SetEntity.Complete] at hs
    simp only [SetEntity.merged, mergeAt]
    split <;> simp [SetEntity.Complete, SplitRecipientWithdrawEvent.merge, hs]

theorem completeSaves_of_complete {saves : List SetEntity} (h : ∀ s ∈ saves, s.Complete)
    (st : Store) : CompleteSaves st saves := by
  induction saves generalizing st with
  | nil => trivial
  | cons s saves ih =>
    refine ⟨(SetEntity.validate_eq_ok_iff _).mpr ((h s List.mem_cons_self).merged st), ?_⟩
    exact ih (fun x hx => h x (List.mem_cons_of_mem _ hx)) (st.set s)

/-! ### The handlers -/

/-- The invocation saves complete rows only and none of its saves is rejected. -/
def Accepted (m : SaveMode) (st : Store) (trigger : Trigger) : Prop :=
  (∀ host, invokeHandler m st trigger = .ok host → ∀ s ∈ host.sets, s.Complete)
    ∧ ∀ message, invokeHandler m st trigger ≠ .error (.invalidEntity message)

theorem accepted_of_ok {m : SaveMode} {st : Store} {trigger : Trigger} {host : Host}
    (e : invokeHandler m st trigger = .ok host) (hs : ∀ s ∈ host.sets, s.Complete) :
    Accepted m st trigger := by
  refine ⟨fun host' e' => ?_, fun message e' => ?_⟩
  · obtain rfl := Except.ok.inj (e.symm.trans e')
    exact hs
  · rw [e] at e'
    cases e'

theorem accepted_of_error {m : SaveMode} {st : Store} {trigger : Trigger} {a : Abort}
    (e : invokeHandler m st trigger = .error a) (ha : ∀ message, a ≠ .invalidEntity message) :
    Accepted m st trigger := by
  refine ⟨fun host' e' => ?_, fun message e' => ?_⟩
  · rw [e] at e'
    cases e'
  · exact ha message (Except.error.inj (e.symm.trans e'))

section handlers

variable {st : Store} {L : Ledger Address LogId}

theorem Refines.accepted_createSplit (h : Refines st L) (m : SaveMode) {event : CreateSplit}
    (hknown : (L.splits event.split).isSome) : Accepted m st (.createSplit event) := by
  obtain ⟨x, ex⟩ := Option.isSome_iff_exists.mp hknown
  have hrow := h.lookup_split event.split
  rw [ex, Option.map_some] at hrow
  exact accepted_of_ok (handleCreateSplit_known (h := Host.enter m st) hrow) (by simp [Host.enter])

theorem Refines.accepted_createSplitCall (h : Refines st L) (m : SaveMode)
    (call : CreateSplitCall) : Accepted m st (.createSplitCall call) := by
  have hc : RecipientsComplete (Host.enter m st).store.recipients := h.recipientsComplete
  rcases Nat.lt_or_ge call.percentAllocations.length call.accounts.length with hlen | hlen
  · exact accepted_of_error (handleCreateSplitCall_abort hc hlen) (by simp)
  · obtain ⟨mid, saves, hrun, hsaves, -⟩ := handleCreateSplitCall_spec hc hlen
    exact accepted_of_ok hrun (by simpa [Host.enter] using hsaves)

theorem Refines.accepted_distribution (h : Refines st L) (hv : L.Valid) (m : SaveMode)
    (trigger : Trigger) (s t : Address) (amount : ℤ)
    (htrigger : invokeHandler m st trigger
      = handleDistribution (Host.enter m st) s.toHex amount t.toHex) : Accepted m st trigger := by
  rcases e : L.splits s with - | ⟨- | fee, rs⟩
  · exact accepted_of_ok (htrigger.trans (h.distribution_of_none m e t amount))
      (by simp [Host.warn, Host.enter])
  · exact accepted_of_error (htrigger.trans (h.distribution_of_no_fee m e t amount)) (by simp)
  · obtain ⟨st', saves, hrun, hsaves, -⟩ := h.distribution_of_fee hv m e t amount
    exact accepted_of_ok (htrigger.trans hrun) hsaves

theorem Refines.accepted_withdrawal (h : Refines st L) (m : SaveMode) (event : Withdrawal) :
    Accepted m st (.withdrawal event) := by
  have hrow := h.lookup_recipient event.account
  rcases em : L.memberships event.account with - | ss
  · rw [em, Option.map_none] at hrow
    exact accepted_of_ok (handleWithdrawal_missing (h := Host.enter m st) hrow)
      (by simp [Host.warn, Host.enter])
  · rw [em, Option.map_some] at hrow
    obtain ⟨st', hrun, -⟩ := handleWithdrawal_spec (h := Host.enter m st) h.tokensComplete hrow
    refine accepted_of_ok hrun ?_
    intro s hs
    simp only [Host.enter, List.nil_append, List.mem_flatMap] at hs
    obtain ⟨p, -, hs⟩ := hs
    rw [settleSets] at hs
    split at hs
    next row e =>
      obtain ⟨sr, tok, d, c, rfl⟩ := SplitRecipientToken.exists_of_complete (h.tokensComplete _ _ e)
      simp only [List.mem_cons, List.not_mem_nil, or_false] at hs
      rcases hs with rfl | rfl
      · simp [SetEntity.Complete, SplitRecipientToken.settled]
      · simp [SetEntity.Complete, Withdrawal.historyRow]
    next => simp at hs

/-- Only a `CreateSplit` of an unknown split is not accepted. -/
theorem Refines.accepted (h : Refines st L) (hv : L.Valid) (m : SaveMode) {trigger : Trigger}
    (hknown : ∀ event, trigger = .createSplit event → (L.splits event.split).isSome) :
    Accepted m st trigger := by
  cases trigger with
  | createSplit event => exact h.accepted_createSplit m (hknown event rfl)
  | createSplitCall call => exact h.accepted_createSplitCall m call
  | distributeETH event =>
    apply h.accepted_distribution hv m _ event.split zeroAddress event.amount
    rw [toHex_zeroAddress]
    rfl
  | distributeERC20 event =>
    exact h.accepted_distribution hv m _ event.split event.token event.amount rfl
  | withdrawal event => exact h.accepted_withdrawal m event

end handlers

/-! ### Runs -/

/-- In a validated store a split has a row only if a call for it was handled. -/
theorem callHandled_of_splits {triggers : List Trigger} {s : Address}
    (h : ((ledger .validated triggers).splits s).isSome) : CallHandled s triggers := by
  rcases e : (ledger .validated triggers).splits s with - | ⟨- | fee, rs⟩
  · simp [e] at h
  · simpa [SaveMode.keepsPartial] using (announced_of_unpriced .validated e).1
  · apply callHandled_of_isSome_data .validated
    rw [Ledger.data_eq_some.mpr e]
    rfl

/-- A `CreateSplit` event whose save is not rejected finds a row. -/
theorem isSome_splits_of_accepted {triggers : List Trigger} {event : CreateSplit}
    (h : ∀ message, invokeHandler .validated (run .validated triggers) (.createSplit event)
      ≠ .error (.invalidEntity message)) :
    ((ledger .validated triggers).splits event.split).isSome := by
  rcases e : (ledger .validated triggers).splits event.split with - | x
  · have hrow := (refines_run .validated triggers).lookup_split event.split
    rw [e, Option.map_none] at hrow
    obtain ⟨message, hrun⟩ :=
      handleCreateSplit_validated (h := Host.enter .validated (run .validated triggers)) rfl hrow
    exact absurd hrun (h message)
  · rfl

/-- The split of a handled call has a row. -/
theorem isSome_splits_of_callHandled (m : SaveMode) {triggers : List Trigger} {s : Address}
    (h : CallHandled s triggers) : ((ledger m triggers).splits s).isSome := by
  have hdata := isSome_data_of_callHandled m h
  rcases e : (ledger m triggers).splits s with - | x
  · simp [Ledger.data, e] at hdata
  · rfl

/-- **When every saved row is complete.**  In a run, every row a handler saves passes
validation once merged, and a validating node discards no handler for its saves, if
and only if each `CreateSplit` event comes after a call for its split that could be
handled. -/
theorem saves_complete_iff (triggers : List Trigger) :
    (∀ pre trigger, pre ++ [trigger] <+: triggers →
      (∀ host, invokeHandler .plain (run .plain pre) trigger = .ok host →
        CompleteSaves (run .plain pre) host.sets)
      ∧ ∀ message, invokeHandler .validated (run .validated pre) trigger
          ≠ .error (.invalidEntity message)) ↔
      ∀ pre event, pre ++ [.createSplit event] <+: triggers →
        ∃ call, .createSplitCall call ∈ pre ∧ call.split = event.split
          ∧ call.accounts.length ≤ call.percentAllocations.length := by
  constructor
  · intro hall pre event hpre
    exact callHandled_of_splits (isSome_splits_of_accepted (hall pre _ hpre).2)
  · intro hcond pre trigger hpre
    have haccepted : ∀ m, Accepted m (run m pre) trigger := by
      intro m
      apply (refines_run m pre).accepted (valid_ledger m pre) m
      rintro event rfl
      exact isSome_splits_of_callHandled m (hcond pre event hpre)
    refine ⟨fun host hrun => ?_, (haccepted .validated).2⟩
    exact completeSaves_of_complete ((haccepted .plain).1 host hrun) _

/-- **A single `CreateSplit` event is enough to break it**: the row saved has no
`distributorFee`, and a validating node rejects it. -/
theorem createSplit_incomplete :
    invokeHandler .plain (run .plain []) (.createSplit ⟨Address.filled 1⟩)
        = .ok ((Host.enter .plain Store.empty).put
            (.split (Address.filled 1).toHex { recipients := some [] }))
    ∧ ¬ CompleteSaves (run .plain [])
        [.split (Address.filled 1).toHex { recipients := some [] }]
    ∧ invokeHandler .validated (run .validated []) (.createSplit ⟨Address.filled 1⟩)
        = .error (.invalidEntity ("Entity Split[" ++ (Address.filled 1).toHex
            ++ "]: missing value for non-nullable field `distributorFee`")) := by
  refine ⟨rfl, ?_, rfl⟩
  rintro ⟨hvalid, -⟩
  have hcomplete := (SetEntity.validate_eq_ok_iff _).mp hvalid
  simp [SetEntity.merged, mergeAt, SetEntity.Complete, run, Store.empty] at hcomplete

/-! ### Runs without a rejected save -/

/-- No save is rejected while the triggers are handled. -/
def SavesAccepted (st : Store) : List Trigger → Prop
  | [] => True
  | trigger :: triggers =>
    (∀ message, invokeHandler .validated st trigger ≠ .error (.invalidEntity message))
      ∧ SavesAccepted (processTrigger .validated st trigger) triggers

section accepted

variable {st : Store} {triggers triggers' : List Trigger}

theorem savesAccepted_append :
    SavesAccepted st (triggers ++ triggers') ↔ SavesAccepted st triggers
      ∧ SavesAccepted (triggers.foldl (processTrigger .validated) st) triggers' := by
  induction triggers generalizing st with
  | nil => simp [SavesAccepted]
  | cons trigger triggers ih =>
    rw [List.cons_append, SavesAccepted, SavesAccepted, ih, and_assoc]
    rfl

/-- Only an event whose save is rejected tells the two modes apart. -/
theorem ledger_plain_eq_validated (h : SavesAccepted Store.empty triggers) :
    ledger .plain triggers = ledger .validated triggers := by
  induction triggers using List.reverseRecOn with
  | nil => rfl
  | append_singleton triggers trigger ih =>
    obtain ⟨hbefore, haccepted, -⟩ := savesAccepted_append.mp h
    rw [ledger_concat, ledger_concat, ih hbefore]
    cases trigger with
    | createSplit event =>
      have hsome := isSome_splits_of_accepted haccepted
      have hrow : (ledger .validated triggers).splits event.split ≠ none :=
        Option.isSome_iff_ne_none.mp hsome
      simp only [Trigger.action, Ledger.step, Ledger.announce, hrow, and_false, if_false]
    | createSplitCall call => rfl
    | distributeETH event => rfl
    | distributeERC20 event => rfl
    | withdrawal event => rfl

/-- **Without a rejected save the run is the plain one.** -/
theorem run_plain_eq_validated (h : SavesAccepted Store.empty triggers) :
    run .plain triggers = run .validated triggers := by
  have hplain := refines_run .plain triggers
  rw [ledger_plain_eq_validated h] at hplain
  exact hplain.store_eq (refines_run .validated triggers)

/-- Then every `CreateSplit` event comes after a call of its split that was handled. -/
theorem SavesAccepted.callHandled {event : CreateSplit}
    (h : SavesAccepted Store.empty (triggers ++ .createSplit event :: triggers')) :
    CallHandled event.split triggers :=
  callHandled_of_splits (isSome_splits_of_accepted (savesAccepted_append.mp h).2.1)

end accepted

end SplitsSubgraph
