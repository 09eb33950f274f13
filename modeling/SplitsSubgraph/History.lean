/-
SplitsSubgraph/History.lean

What the rows of `SplitRecipientWithdrawEvent` say about past withdrawals.

Each withdrawal writes under ids of its own, so as long as no two withdrawals
share transaction hash and log index the history only grows, and a row that a
withdrawal leaves behind states how far that withdrawal raised the claimed total
(`history_append_only_and_truthful`).

The history is not complete, though.  The id of a history row is built from the
event and the account and not from the split and the token, so a withdrawal that
settles several token rows keeps the history row of the last one only.  The
claimed totals equal the recorded values after every step of a run exactly when
no withdrawal of the run finds two outstanding token rows
(`historyComplete_run_iff`).
-/
import SplitsSubgraph.Commute

namespace SplitsSubgraph

open KeyedTable Sweep

/-! ### Log positions -/

/-- Where a withdrawal was logged. -/
def Trigger.logId : Trigger → Option LogId
  | .withdrawal event => some (event.transactionHash, event.logIndex)
  | _ => none

theorem Trigger.logId_action (trigger : Trigger) : trigger.action.logId = trigger.logId := by
  cases trigger <;> rfl

/-- The log positions of the withdrawals of a run. -/
def withdrawalIds (triggers : List Trigger) : List LogId := triggers.filterMap Trigger.logId

/-- Under distinct log positions, no row of the history is under the position of a
withdrawal that is still to come. -/
theorem history_eq_none {m : SaveMode} {pre post : List Trigger} {trigger : Trigger} {h : LogId}
    (hids : (withdrawalIds (pre ++ trigger :: post)).Nodup) (hlog : trigger.logId = some h)
    (r : Address) : (ledger m pre).history h r = none := by
  rcases e : (ledger m pre).history h r with - | entry
  · rfl
  · have hmem := Ledger.mem_logIds_of_history e
    rw [List.filterMap_map] at hmem
    have hpre : h ∈ withdrawalIds pre := by
      simpa only [withdrawalIds, Function.comp_def, Trigger.logId_action] using hmem
    rw [withdrawalIds, List.filterMap_append, List.nodup_append] at hids
    exact absurd rfl (hids.2.2 h hpre h (by simp [hlog]))

/-! ### Append-only and truthful -/

theorem history_kept {m : SaveMode} {pre post : List Trigger} {trigger : Trigger}
    (hids : (withdrawalIds (pre ++ trigger :: post)).Nodup) {id : String}
    {row : SplitRecipientWithdrawEvent}
    (e : (run m pre).splitRecipientWithdrawEvents.lookup id = some row) :
    (processTrigger m (run m pre) trigger).splitRecipientWithdrawEvents.lookup id = some row := by
  have h := refines_run m pre
  have h' := h.processTrigger (valid_ledger m pre) m trigger
  obtain ⟨⟨log, r⟩, rfl⟩ := h.history.key id row e
  rw [h.history.lookup] at e
  rw [h'.history.lookup, Ledger.step_history_of_ne _ r]
  · exact e
  · intro hlog
    rw [Trigger.logId_action] at hlog
    simp [history_eq_none hids hlog r] at e

/-- The row names the event's account, timestamp and transaction, and a split and a
token such that its value is what `totalClaimed` of their token row grew by
between the two stores. -/
def SplitRecipientWithdrawEvent.StatesIncrease (row : SplitRecipientWithdrawEvent)
    (event : Withdrawal) (st st' : Store) : Prop :=
  ∃ s t before after claimed claimed',
    row.split = some s.toHex ∧ row.recipient = some event.account.toHex
    ∧ row.tokenAddress = some t.toHex
    ∧ st.splitRecipientTokens.lookup (splitRecipientTokenId s event.account t) = some before
    ∧ st'.splitRecipientTokens.lookup (splitRecipientTokenId s event.account t) = some after
    ∧ before.totalClaimed = some claimed ∧ after.totalClaimed = some claimed'
    ∧ row.value = some (claimed' - claimed)
    ∧ row.timestamp = some event.timestamp
    ∧ row.transactionHash = some (Bytes.toHex event.transactionHash)

theorem history_truthful (m : SaveMode) (pre : List Trigger) (event : Withdrawal) :
    ∃ host, invokeHandler m (run m pre) (.withdrawal event) = .ok host ∧
      ∀ id saved row, .splitRecipientWithdrawEvent id saved ∈ host.sets →
        host.store.splitRecipientWithdrawEvents.lookup id = some row →
        row.StatesIncrease event (run m pre) host.store := by
  have h := refines_run m pre
  have hv := valid_ledger m pre
  obtain ⟨host, hrun, hsets⟩ := h.withdrawal_sets m event
  refine ⟨host, hrun, ?_⟩
  intro id saved row hmem hrow
  obtain ⟨rfl, ss, p, em, hp, -⟩ := hsets id saved hmem
  have h' := h.withdrawal m event
  rw [processTrigger_of_ok m _ _ hrun] at h'
  -- something was paid out, so the row under the event's id is the last payout
  have hpay : ∃ e, (ledger m pre).lastPayout event.account event.covered event.timestamp
      = some e := by
    rcases elast : ((ledger m pre).payouts event.account (pairs ss event.covered)).getLast?
      with - | q
    · rw [List.getLast?_eq_none_iff.mp elast] at hp
      exact absurd hp List.not_mem_nil
    · exact ⟨_, by rw [Ledger.lastPayout, em, Option.bind_some, elast, Option.map_some]⟩
  obtain ⟨e, hlast⟩ := hpay
  rw [Withdrawal.historyId, h'.lookup_entry, Ledger.withdraw_history, if_pos ⟨rfl, rfl⟩, hlast,
    Option.some_or, Option.map_some] at hrow
  obtain rfl := Option.some.inj hrow
  obtain ⟨htoken, htime, b, eb, -, hvalue⟩ := Ledger.lastPayout_eq_some hlast
  refine ⟨e.split, e.token, encodeBalance e.split event.account e.token b,
    encodeBalance e.split event.account e.token b.settle, b.claimed, b.distributed,
    rfl, rfl, rfl, ?_, ?_, rfl, rfl, ?_, ?_, rfl⟩
  · rw [h.lookup_token, eb, Option.map_some]
  · rw [h'.lookup_token, hv.withdraw_balances, if_pos ⟨rfl, htoken⟩, eb]
    rfl
  · exact congrArg some hvalue
  · exact congrArg some htime

/-- **The history is append-only and truthful** in every run whose withdrawals are
logged at distinct positions: a handler changes no row that was there, and the row
a withdrawal leaves states the increase of `totalClaimed` that this withdrawal
caused. -/
theorem history_append_only_and_truthful (m : SaveMode) (triggers : List Trigger)
    (hids : (withdrawalIds triggers).Nodup) (pre post : List Trigger) (trigger : Trigger)
    (hsplit : triggers = pre ++ trigger :: post) :
    (∀ id row, (run m pre).splitRecipientWithdrawEvents.lookup id = some row →
      (processTrigger m (run m pre) trigger).splitRecipientWithdrawEvents.lookup id = some row)
    ∧ ∀ event, trigger = .withdrawal event →
      ∃ host, invokeHandler m (run m pre) trigger = .ok host ∧
        ∀ id saved row, .splitRecipientWithdrawEvent id saved ∈ host.sets →
          host.store.splitRecipientWithdrawEvents.lookup id = some row →
          row.StatesIncrease event (run m pre) host.store := by
  subst hsplit
  refine ⟨fun id row e => history_kept hids e, ?_⟩
  rintro event rfl
  exact history_truthful m pre event

section example_run

/-- Two recipients share a split that distributes ETH and a token. -/
def twoTokenDistributions : List Trigger :=
  [ .createSplit ⟨Address.filled 1⟩,
    .createSplitCall
      ⟨[Address.filled 2, Address.filled 3], [500000, 500000], 0, Address.filled 1⟩,
    .distributeETH ⟨Address.filled 1, 10⟩,
    .distributeERC20 ⟨Address.filled 1, Address.filled 4, 40⟩ ]

/-- One of them withdraws both. -/
def twoTokenWithdrawal : Withdrawal where
  account := Address.filled 2
  ethAmount := 5
  tokens := [Address.filled 4]
  tokenAmounts := [20]
  transactionHash := List.replicate 32 7
  logIndex := 0
  timestamp := 1

theorem history_append_only_and_truthful_twoTokens :
    (∀ id row, (run .plain twoTokenDistributions).splitRecipientWithdrawEvents.lookup id
        = some row →
      (processTrigger .plain (run .plain twoTokenDistributions)
        (.withdrawal twoTokenWithdrawal)).splitRecipientWithdrawEvents.lookup id = some row)
    ∧ ∃ host, invokeHandler .plain (run .plain twoTokenDistributions)
        (.withdrawal twoTokenWithdrawal) = .ok host ∧
      ∀ id saved row, .splitRecipientWithdrawEvent id saved ∈ host.sets →
        host.store.splitRecipientWithdrawEvents.lookup id = some row →
        row.StatesIncrease twoTokenWithdrawal (run .plain twoTokenDistributions) host.store := by
  obtain ⟨hkept, htrue⟩ := history_append_only_and_truthful .plain
    (twoTokenDistributions ++ [.withdrawal twoTokenWithdrawal]) (by decide) twoTokenDistributions
    [] (.withdrawal twoTokenWithdrawal) rfl
  exact ⟨hkept, htrue twoTokenWithdrawal rfl⟩

end example_run

/-! ### Complete -/

/-- What a history row contributes to the claims of `r` from `s` in token `t`. -/
def SplitRecipientWithdrawEvent.valueFor (s r t : String) (row : SplitRecipientWithdrawEvent) : ℤ :=
  if row.split = some s ∧ row.recipient = some r ∧ row.tokenAddress = some t then
    row.value.getD 0
  else 0

/-- The sum of `value` over the history rows of split `s`, recipient `r` and token
`t`. -/
def historyTotal (st : Store) (s r t : String) : ℤ :=
  total (SplitRecipientWithdrawEvent.valueFor s r t) st.splitRecipientWithdrawEvents

/-- No claimed amount is missing from the history. -/
def HistoryComplete (st : Store) : Prop :=
  ∀ id row x join s r t, st.splitRecipientTokens.lookup id = some row →
    row.splitRecipient = some x → st.splitRecipients.lookup x = some join →
    join.split = some s → join.recipient = some r → row.tokenAddress = some t →
    row.totalClaimed = some (historyTotal st s r t)

/-- The nested loop of the withdrawal looks at the token row `id`. -/
def Withdrawal.Names (event : Withdrawal) (st : Store) (id : String) : Prop :=
  ∃ row ids x t, st.recipients.lookup event.account.toHex = some row ∧ row.splits = some ids
    ∧ x ∈ ids ∧ t ∈ withdrawalTokens event ∧ id = joinIds [x, t]

/-- The withdrawal finds at most one token row with something left to claim. -/
def Withdrawal.SettlesAtMostOne (event : Withdrawal) (st : Store) : Prop :=
  ∀ id id', event.Names st id → event.Names st id' →
    outstanding st.splitRecipientTokens id = true → outstanding st.splitRecipientTokens id' = true →
    id = id'

section complete

variable {st st' : Store} {L L' : Ledger Address LogId}

theorem Refines.historyComplete_iff (h : Refines st L) (hv : L.Valid) :
    HistoryComplete st ↔ ∀ s r t b, L.balances s r t = some b →
      b.claimed = historyTotal st s.toHex r.toHex t.toHex := by
  constructor
  · intro hc s r t b eb
    obtain ⟨a, ha⟩ := Option.isSome_iff_exists.mp (hv.credited (by rw [eb]; rfl))
    have hrow := h.lookup_token s r t
    have hjoin := h.lookup_splitRecipient s r
    rw [eb, Option.map_some] at hrow
    rw [ha, Option.map_some] at hjoin
    exact Option.some.inj (hc _ _ _ _ _ _ _ hrow rfl hjoin rfl rfl rfl)
  · intro hc id row x join s r t hrow hx hjoin hs hr ht
    obtain ⟨⟨s', r', t'⟩, b, rfl, eb, rfl⟩ := h.tokens.exists_of_lookup hrow
    obtain rfl := Option.some.inj hx
    rw [h.lookup_splitRecipient] at hjoin
    obtain ⟨a, -, rfl⟩ := Option.map_eq_some_iff.mp hjoin
    obtain rfl := Option.some.inj hs
    obtain rfl := Option.some.inj hr
    obtain rfl := Option.some.inj ht
    exact congrArg some (hc s' r' t' b eb)

/-- The same condition, read off the ledger. -/
theorem Refines.settlesAtMostOne_iff (h : Refines st L) (hv : L.Valid) (event : Withdrawal) :
    event.SettlesAtMostOne st ↔ ∀ s t s' t', t ∈ event.covered → t' ∈ event.covered →
      L.due event.account (s, t) = true → L.due event.account (s', t') = true →
      s = s' ∧ t = t' := by
  -- whatever is due to the account in a covered token is visited by the loop
  have hnames : ∀ {s t}, t ∈ event.covered → L.due event.account (s, t) = true →
      event.Names st (splitRecipientTokenId s event.account t) := by
    intro s t ht hdue
    obtain ⟨b, eb, -⟩ := Ledger.due_iff.mp hdue
    obtain ⟨row, ids, erow, hids, hmem⟩ := h.exists_listed hv eb
    refine ⟨row, ids, splitRecipientId s event.account, t.toHex, erow, hids, hmem, ?_, rfl⟩
    rw [withdrawalTokens_eq]
    exact List.mem_map_of_mem ht
  constructor
  · intro hone s t s' t' ht ht' hdue hdue'
    have heq := hone _ _ (hnames ht hdue) (hnames ht' hdue')
      ((outstanding_eq_due h _ (s, t)).trans hdue) ((outstanding_eq_due h _ (s', t')).trans hdue')
    simpa using heq
  · rintro hone id id' ⟨row, ids, x, t, erow, hids, hx, ht, rfl⟩
      ⟨row', ids', x', t', erow', hids', hx', ht', rfl⟩ hout hout'
    obtain rfl := Option.some.inj (erow.symm.trans erow')
    obtain rfl := Option.some.inj (hids.symm.trans hids')
    obtain ⟨-, s, -, -, rfl⟩ := h.exists_member erow hids hx
    obtain ⟨-, s', -, -, rfl⟩ := h.exists_member erow hids hx'
    rw [withdrawalTokens_eq] at ht ht'
    obtain ⟨a, ha, rfl⟩ := List.mem_map.mp ht
    obtain ⟨a', ha', rfl⟩ := List.mem_map.mp ht'
    have hdue := (outstanding_eq_due h event.account (s, a)).symm.trans hout
    have hdue' := (outstanding_eq_due h event.account (s', a')).symm.trans hout'
    obtain ⟨rfl, rfl⟩ := hone s a s' a' ha ha' hdue hdue'
    rfl

/-- Without a balance there is nothing in the history either. -/
theorem Refines.historyTotal_eq_zero (h : Refines st L) (hv : L.Valid) {s r t : Address}
    (eb : L.balances s r t = none) : historyTotal st s.toHex r.toHex t.toHex = 0 := by
  apply total_eq_zero
  intro id row hrow
  obtain ⟨⟨log, r'⟩, e, rfl, ee, rfl⟩ := h.history.exists_of_lookup hrow
  rw [SplitRecipientWithdrawEvent.valueFor, if_neg]
  rintro ⟨hs, hr, ht⟩
  have hs' : e.split = s := by simpa [encodeEntry] using hs
  have hr' : r' = r := by simpa [encodeEntry] using hr
  have ht' : e.token = t := by simpa [encodeEntry] using ht
  have hb := hv.recorded ee
  rw [hs', hr', ht', eb] at hb
  simp at hb

theorem Refines.history_eq (h : Refines st L) (h' : Refines st' L') (e : L'.history = L.history) :
    st'.splitRecipientWithdrawEvents = st.splitRecipientWithdrawEvents := by
  have hh := h'.history
  rw [e] at hh
  exact hh.table_eq h.history

/-- What a withdrawal adds to the recorded values: its last payout and nothing
else. -/
theorem Refines.historyTotal_withdrawal (h : Refines st L) (m : SaveMode) (event : Withdrawal)
    (hfresh : L.history (event.transactionHash, event.logIndex) event.account = none)
    (s r t : Address) :
    historyTotal (SplitsSubgraph.processTrigger m st (.withdrawal event)) s.toHex r.toHex t.toHex =
      (if r = event.account then
        L.recordedPayout event.account event.covered event.timestamp s t else 0)
      + historyTotal st s.toHex r.toHex t.toHex := by
  have h' := h.withdrawal m event
  rw [Ledger.recordedPayout]
  rcases hlast : L.lastPayout event.account event.covered event.timestamp with - | e
  · have hsame := h.history_eq h' (by
      funext h₀ r₀
      rw [Ledger.withdraw_history, hlast, Option.none_or, ite_self])
    simp only [historyTotal, hsame, ite_self, zero_add]
  · have hins := h.history.insert entryKey_injective
      ((event.transactionHash, event.logIndex), event.account)
      (encodeEntry (event.transactionHash, event.logIndex) event.account e)
    have hsame : (SplitsSubgraph.processTrigger m st
          (.withdrawal event)).splitRecipientWithdrawEvents
        = st.splitRecipientWithdrawEvents.insert
            (entryKey ((event.transactionHash, event.logIndex), event.account))
            (encodeEntry (event.transactionHash, event.logIndex) event.account e) := by
      refine h'.history.table_eq (hins.congr ?_)
      rintro ⟨h₀, r₀⟩
      dsimp only
      rw [Ledger.withdraw_history, hlast, Option.some_or, Function.update_apply]
      by_cases hkey : h₀ = (event.transactionHash, event.logIndex) ∧ r₀ = event.account
      · obtain ⟨rfl, rfl⟩ := hkey
        simp
      · have hkey' : ¬ (h₀, r₀) = ((event.transactionHash, event.logIndex), event.account) :=
          fun e => hkey (Prod.mk.inj e)
        rw [if_neg hkey, if_neg hkey']
    -- the id is fresh, so the new row overwrites nothing
    have hnone : st.splitRecipientWithdrawEvents.lookup
        (entryKey ((event.transactionHash, event.logIndex), event.account)) = none := by
      rw [h.history.lookup, hfresh, Option.map_none]
    rw [historyTotal, hsame, total_insert _ hnone, historyTotal]
    by_cases hr : r = event.account
    · simp [SplitRecipientWithdrawEvent.valueFor, encodeEntry, hr]
    · simp [SplitRecipientWithdrawEvent.valueFor, encodeEntry, hr, Ne.symm hr]

/-- **One withdrawal** under a fresh log position keeps the history complete exactly
when it settles at most one token row. -/
theorem Refines.historyComplete_withdrawal (h : Refines st L) (hv : L.Valid) (m : SaveMode)
    (event : Withdrawal)
    (hfresh : L.history (event.transactionHash, event.logIndex) event.account = none)
    (hc : HistoryComplete st) :
    HistoryComplete (SplitsSubgraph.processTrigger m st (.withdrawal event))
      ↔ event.SettlesAtMostOne st := by
  have h' := h.withdrawal m event
  rw [h.historyComplete_iff hv] at hc
  rw [h'.historyComplete_iff (hv.withdraw _ _ _ _), h.settlesAtMostOne_iff hv,
    ← hv.unclaimed_eq_recordedPayout_iff event.account event.covered event.timestamp]
  have htotal := h.historyTotal_withdrawal m event hfresh
  constructor
  · intro hc' s t b ht eb
    have hafter := hc' s event.account t b.settle (by
      rw [hv.withdraw_balances, if_pos ⟨rfl, ht⟩, eb, Option.map_some])
    rw [htotal, if_pos rfl, ← hc s event.account t b eb] at hafter
    exact sub_eq_iff_eq_add.mpr hafter
  · intro hrec s r t b' eb'
    rw [hv.withdraw_balances] at eb'
    rw [htotal]
    split_ifs at eb' with hcov
    · obtain ⟨rfl, ht⟩ := hcov
      obtain ⟨b, eb, rfl⟩ := Option.map_eq_some_iff.mp eb'
      rw [if_pos rfl, ← hrec s t b ht eb, ← hc s event.account t b eb]
      exact (sub_add_cancel b.distributed b.claimed).symm
    · rw [← hc s r t b' eb']
      -- the history line is about this account and a token that is covered
      have hzero : (if r = event.account then
          L.recordedPayout event.account event.covered event.timestamp s t else 0) = 0 := by
        rcases hlast : L.lastPayout event.account event.covered event.timestamp with - | e
        · simp only [Ledger.recordedPayout, hlast, ite_self]
        · obtain ⟨htoken, -⟩ := Ledger.lastPayout_eq_some hlast
          by_cases hr : r = event.account
          · have hne : ¬ (e.split = s ∧ e.token = t) := fun hk => hcov ⟨hr, hk.2 ▸ htoken⟩
            simp only [Ledger.recordedPayout, hlast, hne, if_false, ite_self]
          · rw [if_neg hr]
      rw [hzero, zero_add]

/-- Every other trigger keeps the history complete. -/
theorem Refines.historyComplete_other (h : Refines st L) (hv : L.Valid) (m : SaveMode)
    {trigger : Trigger} (hlog : trigger.logId = none) (hc : HistoryComplete st) :
    HistoryComplete (SplitsSubgraph.processTrigger m st trigger) := by
  have h' := h.processTrigger hv m trigger
  rw [← Trigger.logId_action] at hlog
  have hsame := h.history_eq h' (by
    funext h₀ r₀
    exact Ledger.step_history_of_ne (by simp [hlog]) r₀)
  rw [h.historyComplete_iff hv] at hc
  rw [h'.historyComplete_iff (hv.step _ _)]
  intro s r t b' eb'
  rw [Ledger.step_claimed hlog eb', historyTotal, hsame]
  rcases eb : L.balances s r t with - | b
  · exact (h.historyTotal_eq_zero hv eb).symm
  · exact hc s r t b eb

end complete

/-- **When the history is complete.**  In a run whose withdrawals are logged at
distinct positions, the claimed totals equal the recorded values after every step
if and only if every withdrawal finds at most one token row with something left to
claim. -/
theorem historyComplete_run_iff (m : SaveMode) (triggers : List Trigger)
    (hids : (withdrawalIds triggers).Nodup) :
    (∀ pre, pre <+: triggers → HistoryComplete (run m pre)) ↔
      ∀ pre event, pre ++ [.withdrawal event] <+: triggers →
        event.SettlesAtMostOne (run m pre) := by
  -- each withdrawal writes under an id of its own
  have hstep : ∀ pre event, pre ++ [.withdrawal event] <+: triggers →
      HistoryComplete (run m pre) →
      (HistoryComplete (run m (pre ++ [.withdrawal event]))
        ↔ event.SettlesAtMostOne (run m pre)) := by
    rintro pre event ⟨post, rfl⟩ hc
    rw [List.append_assoc, List.singleton_append] at hids
    rw [run_concat]
    exact (refines_run m pre).historyComplete_withdrawal (valid_ledger m pre) m event
      (history_eq_none hids rfl event.account) hc
  constructor
  · intro hc pre event hpre
    have hbefore := hc pre ((List.prefix_append pre _).trans hpre)
    exact (hstep pre event hpre hbefore).mp (hc _ hpre)
  · intro hone pre
    induction pre using List.reverseRecOn with
    | nil =>
      intro _
      rw [run_nil, Refines.empty.historyComplete_iff Ledger.valid_empty]
      simp [Ledger.empty]
    | append_singleton pre trigger ih =>
      intro hpre
      have hc := ih ((List.prefix_append pre _).trans hpre)
      rcases hlog : trigger.logId with - | log
      · rw [run_concat]
        exact (refines_run m pre).historyComplete_other (valid_ledger m pre) m hlog hc
      · cases trigger with
        | withdrawal event => exact (hstep pre event hpre hc).mpr (hone pre event hpre)
        | createSplit event => simp [Trigger.logId] at hlog
        | createSplitCall call => simp [Trigger.logId] at hlog
        | distributeETH event => simp [Trigger.logId] at hlog
        | distributeERC20 event => simp [Trigger.logId] at hlog

/-- Before the token is distributed there is one row to settle. -/
theorem eq_of_names_oneToken {id : String}
    (hn : twoTokenWithdrawal.Names (run .plain (twoTokenDistributions.take 3)) id)
    (ho : outstanding (run .plain (twoTokenDistributions.take 3)).splitRecipientTokens id = true) :
    id = splitRecipientTokenId (Address.filled 1) (Address.filled 2) zeroAddress := by
  obtain ⟨row, ids, x, t, hrow, hids, hx, ht, rfl⟩ := hn
  have hlookup : (run .plain (twoTokenDistributions.take 3)).recipients.lookup
      (Address.filled 2).toHex
        = some ⟨some [splitRecipientId (Address.filled 1) (Address.filled 2)]⟩ := by
    decide +kernel
  obtain rfl := Option.some.inj (hrow.symm.trans hlookup)
  obtain rfl := Option.some.inj hids
  obtain rfl := List.mem_singleton.mp hx
  have htokens : withdrawalTokens twoTokenWithdrawal
      = [(Address.filled 4).toHex, zeroAddress.toHex] := by decide +kernel
  rw [htokens, List.mem_cons, List.mem_singleton] at ht
  rcases ht with rfl | rfl
  · exact absurd ho (by decide +kernel)
  · rfl

theorem historyComplete_run_iff_oneToken :
    (withdrawalIds (twoTokenDistributions.take 3 ++ [.withdrawal twoTokenWithdrawal])).Nodup
    ∧ HistoryComplete
        (run .plain (twoTokenDistributions.take 3 ++ [.withdrawal twoTokenWithdrawal])) := by
  refine ⟨by decide, (historyComplete_run_iff .plain _ (by decide)).mpr ?_ _ List.prefix_rfl⟩
  rintro pre event ⟨post, h⟩
  obtain ⟨rfl, rfl⟩ : pre = twoTokenDistributions.take 3 ∧ event = twoTokenWithdrawal := by
    rcases pre with - | ⟨a, - | ⟨b, - | ⟨c, - | ⟨d, pre⟩⟩⟩⟩ <;>
      simp [twoTokenDistributions] at h ⊢
    simp [h]
  intro id id' hn hn' ho ho'
  rw [eq_of_names_oneToken hn ho, eq_of_names_oneToken hn' ho']

/-- **The history is not complete in general**: the withdrawal of two tokens leaves
one history row, and the claim on the other token is not in it. -/
theorem not_historyComplete_twoTokens :
    (withdrawalIds (twoTokenDistributions ++ [.withdrawal twoTokenWithdrawal])).Nodup
    ∧ ¬ HistoryComplete
        (run .plain (twoTokenDistributions ++ [.withdrawal twoTokenWithdrawal])) := by
  refine ⟨by decide, fun hc => ?_⟩
  have hclaimed := hc
    (splitRecipientTokenId (Address.filled 1) (Address.filled 2) (Address.filled 4))
    ⟨some (splitRecipientId (Address.filled 1) (Address.filled 2)),
      some (Address.filled 4).toHex, some 20, some 20⟩
    (splitRecipientId (Address.filled 1) (Address.filled 2))
    ⟨some (Address.filled 1).toHex, some (Address.filled 2).toHex, some 500000⟩
    (Address.filled 1).toHex (Address.filled 2).toHex (Address.filled 4).toHex
    (by decide +kernel) rfl (by decide +kernel) rfl rfl rfl
  exact absurd hclaimed (by decide +kernel)

end SplitsSubgraph
