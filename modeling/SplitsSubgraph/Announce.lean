/-
SplitsSubgraph/Announce.lean

The `CreateSplit` event adds nothing.

An announcement only creates a split row without a fee, and only where there is no
row.  Such a row makes no difference to anybody: a distribution from it credits
nothing, as it would without a row, the call for the split overwrites it, and
withdrawals do not look at splits at all.  So two ledgers that agree on everything
but the rows without a fee (`Ledger.Agree`) stay so under every action, and
announcements can be dropped and inserted at will.
-/
import SplitsSubgraph.Commute

namespace SplitsSubgraph

open KeyedTable Sweep

/-! ### Ledgers up to announced splits -/

namespace Ledger

variable {A H : Type}

/-- The data of a split, once it is known. -/
def data (L : Ledger A H) (s : A) : Option (ℤ × List A) :=
  (L.splits s).bind fun x => x.1.map fun fee => (fee, x.2)

theorem data_eq_some {L : Ledger A H} {s : A} {fee : ℤ} {rs : List A} :
    L.data s = some (fee, rs) ↔ L.splits s = some (some fee, rs) := by
  rcases e : L.splits s with - | ⟨- | fee', rs'⟩ <;> simp [data, e]

/-- The two ledgers differ at most in splits that were only announced. -/
structure Agree (L L' : Ledger A H) : Prop where
  data : L.data = L'.data
  memberships : L.memberships = L'.memberships
  allocations : L.allocations = L'.allocations
  balances : L.balances = L'.balances
  history : L.history = L'.history

namespace Agree

variable {L L' L'' : Ledger A H}

theorem refl (L : Ledger A H) : L.Agree L := ⟨rfl, rfl, rfl, rfl, rfl⟩

theorem symm (h : L.Agree L') : L'.Agree L :=
  ⟨h.data.symm, h.memberships.symm, h.allocations.symm, h.balances.symm, h.history.symm⟩

theorem trans (h : L.Agree L') (h' : L'.Agree L'') : L.Agree L'' :=
  ⟨h.data.trans h'.data, h.memberships.trans h'.memberships,
    h.allocations.trans h'.allocations, h.balances.trans h'.balances,
    h.history.trans h'.history⟩

end Agree

variable [DecidableEq A] {L L' : Ledger A H} {credit : ℤ → ℤ → ℤ → ℤ}

theorem data_announce (keep : Bool) (s : A) : (L.announce keep s).data = L.data := by
  funext s'
  rcases announce_eq_or L keep s with h | ⟨hnone, h⟩
  · rw [h]
  · by_cases hs : s' = s
    · subst hs
      simp [data, h, hnone]
    · simp [data, h, hs]

theorem data_create_of_le {s : A} {fee : ℤ} {accounts : List A} {allocations : List ℤ}
    (hlen : accounts.length ≤ allocations.length) :
    (L.create s fee accounts allocations).data
      = Function.update L.data s (some (fee, accounts)) := by
  funext s'
  rw [create_of_le hlen]
  by_cases hs : s' = s
  · subst hs
    simp [data]
  · simp [data, hs]

/-- Shares are read off the known data. -/
theorem share_congr_data (hd : L.data = L'.data) (ha : L.allocations = L'.allocations) :
    share credit L = share credit L' := by
  have hshare : ∀ M : Ledger A H, share credit M = fun s r amount =>
      match M.data s with
      | some (fee, rs) =>
        if r ∈ rs then some (rs.count r * credit fee ((M.allocations s r).getD 0) amount) else none
      | none => none := by
    intro M
    funext s r amount
    rcases e : M.splits s with - | ⟨- | fee, rs⟩ <;> simp [share, data, e]
  rw [hshare, hshare, hd, ha]

theorem announce_agree (L : Ledger A H) (keep : Bool) (s : A) : (L.announce keep s).Agree L :=
  ⟨data_announce keep s, announce_memberships s, announce_allocations s, announce_balances s,
    announce_history s⟩

/-- The other actions do not see the difference. -/
theorem Agree.step [DecidableEq H] (h : L.Agree L') (keep : Bool) (a : Action A H) :
    (L.step credit keep a).Agree (L'.step credit keep a) := by
  cases a with
  | announce s => exact (announce_agree L keep s).trans (h.trans (announce_agree L' keep s).symm)
  | create s fee accounts allocations =>
    simp only [Ledger.step]
    rcases Nat.lt_or_ge allocations.length accounts.length with hlen | hlen
    · rw [create_of_lt hlen, create_of_lt hlen]
      exact h
    · refine ⟨?_, ?_, ?_, ?_, ?_⟩
      · rw [data_create_of_le hlen, data_create_of_le hlen, h.data]
      · simp only [create_of_le hlen, h.memberships]
      · simp only [create_of_le hlen, h.allocations]
      · simp only [create_balances, h.balances]
      · simp only [create_history, h.history]
  | distribute s t amount =>
    simp only [Ledger.step]
    refine ⟨?_, by simp [h.memberships], by simp [h.allocations], ?_, by simp [h.history]⟩
    · have hdata : ∀ M : Ledger A H, (M.distribute credit s t amount).data = M.data := by
        intro M
        funext s'
        simp only [Ledger.data, distribute_splits]
      rw [hdata, hdata, h.data]
    · funext s' r t'
      rw [distribute_balances, distribute_balances, share_congr_data h.data h.allocations,
        h.balances]
  | withdraw h' r tokens timestamp =>
    simp only [Ledger.step]
    have hdata : ∀ M : Ledger A H, (M.withdraw h' r tokens timestamp).data = M.data := by
      intro M
      funext s'
      simp only [Ledger.data, withdraw_splits]
    refine ⟨by rw [hdata, hdata, h.data], by simp [h.memberships], by simp [h.allocations], ?_, ?_⟩
    · unfold withdraw
      rw [h.memberships, h.balances]
      split <;> simp only [h.balances]
    · funext h₀ r₀
      rw [withdraw_history, withdraw_history, h.history,
        lastPayout_congr (congrFun h.memberships r) (fun s t _ => by rw [h.balances])]

/-- Known data stays known. -/
theorem isSome_data_step [DecidableEq H] {keep : Bool} {a : Action A H} {s : A}
    (h : (L.data s).isSome) : ((L.step credit keep a).data s).isSome := by
  rcases step_splits credit keep L a s with e | ⟨-, -, hnone, -⟩ | ⟨fee, accounts, -, -, -, e⟩
  · rwa [data, e]
  · simp [data, hnone] at h
  · rw [data_eq_some.mpr e]
    rfl

/-- An announcement may come before or after the data of its split. -/
theorem announce_create_comm (L : Ledger A H) (keep : Bool) (s : A) (fee : ℤ) (accounts : List A)
    (allocations : List ℤ) :
    (L.announce keep s).create s fee accounts allocations
      = (L.create s fee accounts allocations).announce keep s := by
  rcases Nat.lt_or_ge allocations.length accounts.length with hlen | hlen
  · rw [create_of_lt hlen, create_of_lt hlen]
  · have hrow : (L.create s fee accounts allocations).announce keep s
        = L.create s fee accounts allocations := by
      rw [announce, if_neg]
      rintro ⟨-, hnone⟩
      simp [create_of_le hlen] at hnone
    rw [hrow, create_of_le hlen, create_of_le hlen]
    rcases announce_eq_or L keep s with h | ⟨-, h⟩
    · rw [h]
    · rw [h]
      simp only [Function.update_idem]

end Ledger

/-! ### Runs -/

/-- The trigger is a `CreateSplit` event. -/
def Trigger.isCreateSplit : Trigger → Bool
  | .createSplit _ => true
  | _ => false

/-- A call for `s` ran to its end: none of its accounts lacks an allocation. -/
def CallHandled (s : Address) (triggers : List Trigger) : Prop :=
  ∃ call, .createSplitCall call ∈ triggers ∧ call.split = s
    ∧ call.accounts.length ≤ call.percentAllocations.length

/-- Dropping the `CreateSplit` events changes announced splits only. -/
theorem ledger_filter_agree (m : SaveMode) (triggers : List Trigger) :
    (ledger m triggers).Agree (ledger m (triggers.filter fun t => !t.isCreateSplit)) := by
  induction triggers using List.reverseRecOn with
  | nil => exact Ledger.Agree.refl _
  | append_singleton triggers trigger ih =>
    rw [ledger_concat, List.filter_append]
    rcases e : trigger.isCreateSplit with - | -
    · have hone : [trigger].filter (fun t => !t.isCreateSplit) = [trigger] := by simp [e]
      rw [hone, ledger_concat]
      exact ih.step m.keepsPartial trigger.action
    · have hone : [trigger].filter (fun t => !t.isCreateSplit) = [] := by simp [e]
      rw [hone, List.append_nil]
      cases trigger with
      | createSplit event => exact (Ledger.announce_agree _ _ _).trans ih
      | createSplitCall call => simp [Trigger.isCreateSplit] at e
      | distributeETH event => simp [Trigger.isCreateSplit] at e
      | distributeERC20 event => simp [Trigger.isCreateSplit] at e
      | withdrawal event => simp [Trigger.isCreateSplit] at e

theorem isSome_data_of_callHandled (m : SaveMode) {triggers : List Trigger} {s : Address}
    (h : CallHandled s triggers) : ((ledger m triggers).data s).isSome := by
  obtain ⟨call, hmem, rfl, hlen⟩ := h
  refine Replay.of_mem (Q := fun L : Ledger Address LogId => (L.data call.split).isSome)
    (fun L a hL => Ledger.isSome_data_step hL) (List.mem_map_of_mem hmem) fun L => ?_
  simp [Trigger.action, Ledger.step, Ledger.data_create_of_le hlen]

theorem CallHandled.append {s : Address} {triggers : List Trigger} (h : CallHandled s triggers)
    (post : List Trigger) : CallHandled s (triggers ++ post) := by
  obtain ⟨call, hmem, hs, hlen⟩ := h
  exact ⟨call, List.mem_append_left _ hmem, hs, hlen⟩

/-- The data of a split is known only once a call for it was handled. -/
theorem callHandled_of_isSome_data (m : SaveMode) {triggers : List Trigger} {s : Address}
    (h : ((ledger m triggers).data s).isSome) : CallHandled s triggers := by
  obtain ⟨L, a, ha, hbefore, hafter⟩ := Replay.exists_cause
    (Q := fun L : Ledger Address LogId => (L.data s).isSome) (by simp [Ledger.data, Ledger.empty]) h
  obtain ⟨trigger, hmem, rfl⟩ := List.mem_map.mp ha
  rcases Ledger.step_splits creditOf m.keepsPartial L trigger.action s with
    e | ⟨-, -, -, e⟩ | ⟨fee, accounts, allocations, haction, hlen, -⟩
  · rw [Ledger.data, e] at hafter
    exact absurd hafter hbefore
  · simp [Ledger.data, e] at hafter
  · obtain rfl := Trigger.eq_of_action_create haction
    exact ⟨_, hmem, rfl, hlen⟩

/-- A row without a fee comes from an event whose save was kept. -/
theorem announced_of_unpriced (m : SaveMode) {triggers : List Trigger} {s : Address}
    {rs : List Address} (h : (ledger m triggers).splits s = some (none, rs)) :
    m.keepsPartial = true ∧ .createSplit ⟨s⟩ ∈ triggers := by
  obtain ⟨L, a, ha, hbefore, hafter⟩ := Replay.exists_cause
    (Q := fun L : Ledger Address LogId => L.splits s = some (none, rs)) (by simp [Ledger.empty]) h
  obtain ⟨trigger, hmem, rfl⟩ := List.mem_map.mp ha
  rcases Ledger.step_splits creditOf m.keepsPartial L trigger.action s with
    e | ⟨haction, hkeep, -, -⟩ | ⟨fee, accounts, allocations, -, -, e⟩
  · exact absurd (e.symm.trans hafter) hbefore
  · obtain rfl := Trigger.eq_of_action_announce haction
    exact ⟨hkeep, hmem⟩
  · simp [e] at hafter

/-- Stores of ledgers that agree: four tables are equal, and so are the rows of the
splits whose data is known. -/
theorem Refines.eq_of_agree {st st' : Store} {L L' : Ledger Address LogId} (h : Refines st L)
    (h' : Refines st' L') (ha : L.Agree L') :
    st.recipients = st'.recipients ∧ st.splitRecipients = st'.splitRecipients
      ∧ st.splitRecipientTokens = st'.splitRecipientTokens
      ∧ st.splitRecipientWithdrawEvents = st'.splitRecipientWithdrawEvents
      ∧ ∀ id, (∀ s : Address, id = s.toHex → (L.data s).isSome) →
        st.splits.lookup id = st'.splits.lookup id := by
  refine ⟨?_, ?_, ?_, ?_, ?_⟩
  · exact (ha.memberships ▸ h.recipients).table_eq h'.recipients
  · exact (ha.allocations ▸ h.splitRecipients).table_eq h'.splitRecipients
  · exact (ha.balances ▸ h.tokens).table_eq h'.tokens
  · exact (ha.history ▸ h.history).table_eq h'.history
  · intro id hdata
    by_cases hid : ∃ s : Address, id = s.toHex
    · obtain ⟨s, rfl⟩ := hid
      obtain ⟨⟨fee, rs⟩, e⟩ := Option.isSome_iff_exists.mp (hdata s rfl)
      have e' := e
      rw [ha.data] at e'
      rw [h.lookup_split, h'.lookup_split, Ledger.data_eq_some.mp e, Ledger.data_eq_some.mp e']
    · have hne : ∀ s : Address, id ≠ s.toHex := fun s e => hid ⟨s, e⟩
      rw [h.splits.lookup_eq_none hne, h'.splits.lookup_eq_none hne]

/-- Event and call of a split may come in either order. -/
theorem run_swap_event_call (m : SaveMode) (pre post : List Trigger) {event : CreateSplit}
    {call : CreateSplitCall} (hs : event.split = call.split) :
    run m (pre ++ .createSplit event :: .createSplitCall call :: post)
      = run m (pre ++ .createSplitCall call :: .createSplit event :: post) := by
  have hcomm := processTrigger_comm (m := m) (a := .createSplit event) (b := .createSplitCall call)
    (refines_run m pre) (valid_ledger m pre) (by
      simp only [Trigger.action, Ledger.step, hs]
      exact Ledger.announce_create_comm _ _ _ _ _ _)
  simp only [run, List.foldl_append, List.foldl_cons] at hcomm ⊢
  rw [hcomm]

/-- A `CreateSplit` event of a split that has a row changes nothing. -/
theorem processTrigger_createSplit_known (m : SaveMode) {st : Store} {event : CreateSplit}
    {row : Split} (e : st.splits.lookup event.split.toHex = some row) :
    processTrigger m st (.createSplit event) = st :=
  processTrigger_of_ok m st (.createSplit event) (handleCreateSplit_known (h := Host.enter m st) e)

/-- **The `CreateSplit` event is redundant.**  Two runs that differ in `CreateSplit`
events only end with the same four other tables and the same split rows, apart from
splits for which no call was handled.  Event and call of a split may come in either
order, and a `CreateSplit` event of a split that has a row changes nothing at all. -/
theorem createSplit_redundant (triggers triggers' : List Trigger)
    (hsame : triggers.filter (fun t => !t.isCreateSplit)
      = triggers'.filter fun t => !t.isCreateSplit) :
    ((run .plain triggers).recipients = (run .plain triggers').recipients
      ∧ (run .plain triggers).splitRecipients = (run .plain triggers').splitRecipients
      ∧ (run .plain triggers).splitRecipientTokens = (run .plain triggers').splitRecipientTokens
      ∧ (run .plain triggers).splitRecipientWithdrawEvents
        = (run .plain triggers').splitRecipientWithdrawEvents
      ∧ ∀ id, (∀ s : Address, id = s.toHex → CallHandled s triggers) →
        (run .plain triggers).splits.lookup id = (run .plain triggers').splits.lookup id)
    ∧ (∀ pre post event call, event.split = call.split →
        run .plain (pre ++ .createSplit event :: .createSplitCall call :: post)
          = run .plain (pre ++ .createSplitCall call :: .createSplit event :: post))
    ∧ ∀ st event row, st.splits.lookup event.split.toHex = some row →
        processTrigger .plain st (.createSplit event) = st := by
  have hagree : (ledger .plain triggers).Agree (ledger .plain triggers') := by
    have h := ledger_filter_agree .plain triggers
    rw [hsame] at h
    exact h.trans (ledger_filter_agree .plain triggers').symm
  obtain ⟨hr, hsr, ht, hh, hs⟩ :=
    (refines_run .plain triggers).eq_of_agree (refines_run .plain triggers') hagree
  refine ⟨⟨hr, hsr, ht, hh, fun id hid => hs id fun s e => ?_⟩, ?_, ?_⟩
  · exact isSome_data_of_callHandled .plain (hid s e)
  · exact fun pre post event call hs => run_swap_event_call .plain pre post hs
  · exact fun st event row e => processTrigger_createSplit_known .plain e

theorem createSplit_redundant_oneSplit :
    (run .plain
      [ .createSplit ⟨Address.filled 1⟩,
        .createSplitCall
          ⟨[Address.filled 2, Address.filled 3], [500000, 500000], 0, Address.filled 1⟩,
        .distributeETH ⟨Address.filled 1, 10⟩ ]).splitRecipientTokens
    = (run .plain
      [ .createSplitCall
          ⟨[Address.filled 2, Address.filled 3], [500000, 500000], 0, Address.filled 1⟩,
        .createSplit ⟨Address.filled 1⟩, .distributeETH ⟨Address.filled 1, 10⟩,
        .createSplit ⟨Address.filled 1⟩ ]).splitRecipientTokens :=
  (createSplit_redundant _ _ (by decide)).1.2.2.1

/-- A call that lacks an allocation for its second account. -/
def shortCall : CreateSplitCall :=
  ⟨[Address.filled 2, Address.filled 3], [500000], 0, Address.filled 1⟩

/-- A call that is aborted leaves the row of an event before it as it was: here the event decides
whether the split has a row, though the call of the split is in both runs. -/
theorem createSplit_decides_shortCall :
    ¬ ∀ triggers triggers' : List Trigger,
      (∀ pre trigger, pre ++ [trigger] <+: triggers → ∀ d, trigger.distribution = some d →
        ∃ call, .createSplitCall call ∈ pre ∧ call.split = d.1) →
      triggers.filter (fun t => !t.isCreateSplit) = triggers'.filter (fun t => !t.isCreateSplit) →
      ∀ call, .createSplitCall call ∈ triggers →
        (run .plain triggers).splits.lookup call.split.toHex
          = (run .plain triggers').splits.lookup call.split.toHex := by
  intro hall
  have hnone : ∀ pre (trigger : Trigger), pre ++ [trigger] <+: [.createSplitCall shortCall] →
      ∀ d, trigger.distribution = some d →
        ∃ call, .createSplitCall call ∈ pre ∧ call.split = d.1 := by
    intro pre trigger hpre d hd
    obtain rfl : trigger = .createSplitCall shortCall :=
      List.mem_singleton.mp (hpre.subset (by simp))
    cases hd
  have hsame := hall [.createSplitCall shortCall]
    [.createSplit ⟨shortCall.split⟩, .createSplitCall shortCall] hnone (by decide) shortCall
    (by simp)
  have hcall : (run .plain [.createSplitCall shortCall]).splits.lookup shortCall.split.toHex
      = none := rfl
  have hboth : (run .plain
      [.createSplit ⟨shortCall.split⟩, .createSplitCall shortCall]).splits.lookup
        shortCall.split.toHex = some { recipients := some [] } := rfl
  rw [hcall, hboth] at hsame
  cases hsame

end SplitsSubgraph
