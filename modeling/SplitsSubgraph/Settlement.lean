/-
SplitsSubgraph/Settlement.lean

What a withdrawal settles.

The token rows that `handleWithdrawal` settles are chosen by the event alone: the
rows of the account's split recipients in the tokens that the event covers, and
all of them (`withdrawal_settles_covered`).  This needs no reachable store, only
one whose rows are complete; and because a settled row is not outstanding, a
second withdrawal that covers no other token finds nothing to do.

The event also reports how much of each token was withdrawn.  `handleWithdrawal`
looks at the amount of ETH, and skips ETH if it is zero, but it never looks at the
amounts of the other tokens: a token that is listed with amount zero is settled
like any other.  So rows are settled only for tokens with a positive amount exactly
when the account has nothing left to claim in the tokens that are listed without one
(`withdrawal_settles_reported_iff`).
-/
import SplitsSubgraph.Announce
import SplitsSubgraph.History

namespace SplitsSubgraph

open KeyedTable Sweep

/-! ### Complete stores -/

/-- Every row has all its fields set. -/
structure Store.Complete (st : Store) : Prop where
  splits : ∀ id row, st.splits.lookup id = some row → (SetEntity.split id row).Complete
  recipients : ∀ id row, st.recipients.lookup id = some row → (SetEntity.recipient id row).Complete
  splitRecipients : ∀ id row, st.splitRecipients.lookup id = some row →
    (SetEntity.splitRecipient id row).Complete
  splitRecipientTokens : ∀ id row, st.splitRecipientTokens.lookup id = some row →
    (SetEntity.splitRecipientToken id row).Complete
  splitRecipientWithdrawEvents : ∀ id row, st.splitRecipientWithdrawEvents.lookup id = some row →
    (SetEntity.splitRecipientWithdrawEvent id row).Complete

/-- A node that validates keeps complete rows only. -/
theorem complete_run_validated (triggers : List Trigger) : (run .validated triggers).Complete := by
  have h := refines_run .validated triggers
  refine ⟨?_, h.recipientsComplete, ?_, h.tokensComplete, ?_⟩
  · intro id row e
    obtain ⟨s, ⟨fee, rs⟩, rfl, es, rfl⟩ := h.splits.exists_of_lookup e
    cases fee with
    | none =>
      obtain ⟨hkeep, -⟩ := announced_of_unpriced .validated es
      simp [SaveMode.keepsPartial] at hkeep
    | some fee => simp [SetEntity.Complete, encodeSplit]
  · intro id row e
    obtain ⟨⟨s, r⟩, a, rfl, -, rfl⟩ := h.splitRecipients.exists_of_lookup e
    simp [SetEntity.Complete, encodeJoin]
  · intro id row e
    obtain ⟨⟨log, r⟩, entry, rfl, -, rfl⟩ := h.history.exists_of_lookup e
    simp [SetEntity.Complete, encodeEntry]

/-! ### After the loop -/

section settled

variable {event event' : Withdrawal} {st st' st'' : Store} {ps ps' : List (String × String)}

/-- Settling keeps token rows complete. -/
theorem Settled.tokensComplete (h : Settled event st ps st')
    (hc : TokensComplete st.splitRecipientTokens) : TokensComplete st'.splitRecipientTokens := by
  intro id row e
  rw [h.tokens id] at e
  split_ifs at e with hid
  · obtain ⟨row', e', rfl⟩ := Option.map_eq_some_iff.mp e
    obtain ⟨sr, t, d, c, rfl⟩ := SplitRecipientToken.exists_of_complete (hc _ _ e')
    simp [SetEntity.Complete, SplitRecipientToken.settled]
  · exact hc id row e

/-- A row that the loop has looked at is not outstanding any more. -/
theorem Settled.outstanding_eq_false (h : Settled event st ps st') {id : String}
    (hid : id ∈ ps.map pairId) : outstanding st'.splitRecipientTokens id = false := by
  rw [outstanding, h.tokens id, if_pos hid]
  rcases st.splitRecipientTokens.lookup id with - | row
  · rfl
  · simp [SplitRecipientToken.settled, SplitRecipientToken.unclaimed]

/-- The token table depends on which rows the loop looks at, not on the order or
on how often. -/
theorem Settled.tokens_eq (h : Settled event st ps st') (h' : Settled event' st ps' st'')
    (hids : ∀ id, id ∈ ps'.map pairId ↔ id ∈ ps.map pairId) :
    st''.splitRecipientTokens = st'.splitRecipientTokens := by
  apply Finmap.ext_lookup
  intro id
  rw [h.tokens id, h'.tokens id]
  exact if_congr (hids id) rfl rfl

/-- A loop that meets no outstanding row changes nothing. -/
theorem Settled.eq_self (h : Settled event st ps st')
    (hc : TokensComplete st.splitRecipientTokens)
    (hnone : ∀ p ∈ ps, outstanding st.splitRecipientTokens (pairId p) = false) : st' = st := by
  apply Store.ext h.splits h.recipients h.splitRecipients
  · apply Finmap.ext_lookup
    intro id
    rw [h.tokens id]
    split_ifs with hid
    · obtain ⟨p, hp, rfl⟩ := List.mem_map.mp hid
      exact map_settled_eq_self hc (hnone p hp)
    · rfl
  · have hnil : settlements st.splitRecipientTokens ps = [] := firstVisits_eq_nil_iff.mpr hnone
    simpa only [hnil, List.getLast?_nil] using h.history

end settled

/-! ### What a withdrawal settles -/

theorem mem_withdrawalTokens {event : Withdrawal} {token : String} :
    token ∈ withdrawalTokens event ↔ ∃ t, event.Covers t ∧ token = t.toHex := by
  rw [withdrawalTokens_eq, List.mem_map]
  constructor
  · rintro ⟨t, ht, rfl⟩
    exact ⟨t, Withdrawal.mem_covered.mp ht, rfl⟩
  · rintro ⟨t, ht, rfl⟩
    exact ⟨t, Withdrawal.mem_covered.mpr ht, rfl⟩

/-- The token rows that the nested loop of a withdrawal looks at. -/
theorem mem_pairId_pairs {event : Withdrawal} {ids : List String} {id : String} :
    id ∈ (pairs ids (withdrawalTokens event)).map pairId
      ↔ ∃ x t, x ∈ ids ∧ event.Covers t ∧ id = joinIds [x, t.toHex] := by
  rw [List.mem_map]
  constructor
  · rintro ⟨⟨x, token⟩, hp, rfl⟩
    obtain ⟨hx, htoken⟩ := mem_pairs.mp hp
    obtain ⟨t, ht, rfl⟩ := mem_withdrawalTokens.mp htoken
    exact ⟨x, t, hx, ht, rfl⟩
  · rintro ⟨x, t, hx, ht, rfl⟩
    exact ⟨(x, t.toHex), mem_pairs.mpr ⟨hx, mem_withdrawalTokens.mpr ⟨t, ht, rfl⟩⟩, rfl⟩

/-- A second withdrawal of the account that covers no further token changes
nothing, whatever its log position. -/
theorem withdrawal_again (m : SaveMode) {st : Store} (hc : TokensComplete st.splitRecipientTokens)
    {event event' : Withdrawal} {ids : List String}
    (e : st.recipients.lookup event.account.toHex = some ⟨some ids⟩)
    (haccount : event'.account = event.account) (hsub : ∀ t, event'.Covers t → event.Covers t) :
    processTrigger m (processTrigger m st (.withdrawal event)) (.withdrawal event')
      = processTrigger m st (.withdrawal event) := by
  obtain ⟨-, hst⟩ := settled_processTrigger m hc e
  have hc' := hst.tokensComplete hc
  have e' : (processTrigger m st (.withdrawal event)).recipients.lookup event'.account.toHex
      = some ⟨some ids⟩ := by
    rw [hst.recipients, haccount, e]
  obtain ⟨-, hst'⟩ := settled_processTrigger m hc' e'
  apply hst'.eq_self hc'
  rintro p hp
  apply hst.outstanding_eq_false
  obtain ⟨x, t, hx, ht, hid⟩ := mem_pairId_pairs.mp (List.mem_map_of_mem (f := pairId) hp)
  exact mem_pairId_pairs.mpr ⟨x, t, hx, hsub t ht, hid⟩

/-- **A withdrawal settles exactly what its event covers**, on every store of
complete rows, reachable or not.

* An account without a recipient row leaves the store as it is.
* Otherwise the handler runs to its end.  Each stored token row of one of the
  account's split recipients in a covered token ends with everything distributed
  also claimed; no other token row changes and none is created, nor does anything
  change in the tables of splits, recipients and split recipients.
* The token table is the same for any two events of the account that cover the same
  set of tokens.
* A further withdrawal of the account that covers no other token changes nothing,
  the history included. -/
theorem withdrawal_settles_covered (m : SaveMode) (st : Store) (hc : st.Complete)
    (event : Withdrawal) :
    (st.recipients.lookup event.account.toHex = none →
      processTrigger m st (.withdrawal event) = st)
    ∧ ∀ row, st.recipients.lookup event.account.toHex = some row →
      ∃ ids host, row.splits = some ids ∧ invokeHandler m st (.withdrawal event) = .ok host
        ∧ processTrigger m st (.withdrawal event) = host.store
        ∧ (∀ x ∈ ids, ∀ t, event.Covers t → ∀ token,
            st.splitRecipientTokens.lookup (joinIds [x, t.toHex]) = some token →
            host.store.splitRecipientTokens.lookup (joinIds [x, t.toHex])
              = some { token with totalClaimed := token.totalDistributed })
        ∧ (∀ id, (∀ x ∈ ids, ∀ t, event.Covers t → id ≠ joinIds [x, t.toHex]) →
            host.store.splitRecipientTokens.lookup id = st.splitRecipientTokens.lookup id)
        ∧ (∀ id, st.splitRecipientTokens.lookup id = none →
            host.store.splitRecipientTokens.lookup id = none)
        ∧ host.store.splits = st.splits
        ∧ host.store.recipients = st.recipients
        ∧ host.store.splitRecipients = st.splitRecipients
        ∧ (∀ event' : Withdrawal, event'.account = event.account →
            (∀ t, event'.Covers t ↔ event.Covers t) →
            (processTrigger m st (.withdrawal event')).splitRecipientTokens
              = host.store.splitRecipientTokens)
        ∧ ∀ event' : Withdrawal, event'.account = event.account →
            (∀ t, event'.Covers t → event.Covers t) →
            processTrigger m host.store (.withdrawal event') = host.store := by
  refine ⟨processTrigger_withdrawal_missing m, ?_⟩
  rintro ⟨splits⟩ e
  obtain ⟨ids, rfl⟩ := Option.isSome_iff_exists.mp (hc.recipients _ _ e)
  obtain ⟨⟨host, hrun⟩, hst⟩ := settled_processTrigger m hc.splitRecipientTokens e
  have hstore := processTrigger_of_ok m st (.withdrawal event) hrun
  rw [hstore] at hst
  refine ⟨ids, host, rfl, hrun, hstore, ?_, ?_, ?_, hst.splits, hst.recipients,
    hst.splitRecipients, ?_, ?_⟩
  · intro x hx t ht token etoken
    rw [hst.tokens, if_pos (mem_pairId_pairs.mpr ⟨x, t, hx, ht, rfl⟩), etoken]
    rfl
  · intro id hid
    rw [hst.tokens, if_neg]
    intro hmem
    obtain ⟨x, t, hx, ht, rfl⟩ := mem_pairId_pairs.mp hmem
    exact hid x hx t ht rfl
  · intro id hnone
    rw [hst.tokens, hnone, Option.map_none, ite_self]
  · intro event' haccount hcovers
    have e' : st.recipients.lookup event'.account.toHex = some ⟨some ids⟩ := by rw [haccount, e]
    obtain ⟨-, hst'⟩ := settled_processTrigger m hc.splitRecipientTokens e'
    apply hst.tokens_eq hst'
    intro id
    simp only [mem_pairId_pairs, hcovers]
  · intro event' haccount hsub
    rw [← hstore]
    exact withdrawal_again m hc.splitRecipientTokens e haccount hsub

theorem withdrawal_settles_covered_twoTokens :
    let st := run .validated twoTokenDistributions
    let again : Withdrawal := { twoTokenWithdrawal with ethAmount := 0, logIndex := 1 }
    let st' := processTrigger .validated st (.withdrawal twoTokenWithdrawal)
    st'.splitRecipientTokens.lookup
        (joinIds [splitRecipientId (Address.filled 1) (Address.filled 2), zeroAddress.toHex])
      = some ⟨some (splitRecipientId (Address.filled 1) (Address.filled 2)),
          some zeroAddress.toHex, some 5, some 5⟩
    ∧ processTrigger .validated st' (.withdrawal again) = st' := by
  intro st again st'
  obtain ⟨-, hsettle⟩ := withdrawal_settles_covered .validated st (complete_run_validated _)
    twoTokenWithdrawal
  have hrow : st.recipients.lookup twoTokenWithdrawal.account.toHex
      = some ⟨some [splitRecipientId (Address.filled 1) (Address.filled 2)]⟩ := by decide +kernel
  obtain ⟨ids, host, hids, -, hstore, hclaim, -, -, -, -, -, -, hagain⟩ := hsettle _ hrow
  obtain rfl := Option.some.inj hids
  rw [show st' = host.store from hstore]
  refine ⟨?_, hagain again rfl ?_⟩
  · exact hclaim _ List.mem_cons_self zeroAddress (Or.inr ⟨rfl, by decide⟩)
      ⟨some (splitRecipientId (Address.filled 1) (Address.filled 2)),
        some zeroAddress.toHex, some 5, some 0⟩ (by decide +kernel)
  · rintro t (ht | ⟨-, hpos⟩)
    · exact Or.inl ht
    · exact absurd hpos (by decide)

/-! ### Reported amounts -/

/-- The event reports that some of `t` was withdrawn: for ETH its `ethAmount` is
positive, for another token the entry of `tokenAmounts` at a position that lists
it. -/
def Withdrawal.ReportsPositive (event : Withdrawal) (t : Address) : Prop :=
  if t = zeroAddress then 0 < event.ethAmount
  else ∃ (i : ℕ) (amount : ℤ),
    event.tokens[i]? = some t ∧ event.tokenAmounts[i]? = some amount ∧ 0 < amount

/-- Handling the event changes a row of token `t`. -/
def ChangesTokenRow (m : SaveMode) (st : Store) (event : Withdrawal) (t : Address) : Prop :=
  ∃ id row, (processTrigger m st (.withdrawal event)).splitRecipientTokens.lookup id = some row
    ∧ st.splitRecipientTokens.lookup id ≠ some row ∧ row.tokenAddress = some t.toHex

/-- Handling the event saves a history row of token `t`. -/
def SavesHistoryRow (m : SaveMode) (st : Store) (event : Withdrawal) (t : Address) : Prop :=
  ∃ host id row, invokeHandler m st (.withdrawal event) = .ok host
    ∧ .splitRecipientWithdrawEvent id row ∈ host.sets ∧ row.tokenAddress = some t.toHex

/-- Nothing is settled and nothing recorded for a token of which the event reports
no positive amount. -/
def SettlesReportedOnly (m : SaveMode) (st : Store) (event : Withdrawal) : Prop :=
  ∀ t, ChangesTokenRow m st event t ∨ SavesHistoryRow m st event t → event.ReportsPositive t

/-- In a token that the event lists without a positive amount, the account has
claimed everything already. -/
def Withdrawal.UnreportedClaimed (event : Withdrawal) (st : Store) : Prop :=
  ∀ t ∈ event.tokens, ¬ event.ReportsPositive t →
    ∀ row ids, st.recipients.lookup event.account.toHex = some row → row.splits = some ids →
      ∀ x ∈ ids, ∀ token, st.splitRecipientTokens.lookup (joinIds [x, t.toHex]) = some token →
        token.totalClaimed = token.totalDistributed

/-- ETH is covered without being listed only if there is an amount of it. -/
theorem Withdrawal.mem_tokens_of_covers {event : Withdrawal} {t : Address} (hc : event.Covers t)
    (hn : ¬ event.ReportsPositive t) : t ∈ event.tokens := by
  rcases hc with ht | ⟨rfl, hpos⟩
  · exact ht
  · exact absurd (by simpa [ReportsPositive] using hpos) hn

section reported

variable {st : Store} {L : Ledger Address LogId}

/-- The tokens whose rows a withdrawal changes are the covered ones in which
something is due. -/
theorem Refines.changesTokenRow_iff (h : Refines st L) (hv : L.Valid) (m : SaveMode)
    (event : Withdrawal) (t : Address) :
    ChangesTokenRow m st event t
      ↔ event.Covers t ∧ ∃ s b, L.balances s event.account t = some b ∧ b.unclaimed ≠ 0 := by
  have h' := h.withdrawal m event
  constructor
  · rintro ⟨id, row, e', hne, ht⟩
    obtain ⟨⟨s, r, t'⟩, b, rfl, eb, rfl⟩ := h'.tokens.exists_of_lookup e'
    obtain rfl : t' = t := by simpa [encodeBalance] using ht
    rw [hv.withdraw_balances] at eb
    split_ifs at eb with hcov
    · obtain ⟨rfl, hmem⟩ := hcov
      obtain ⟨b₀, eb₀, rfl⟩ := Option.map_eq_some_iff.mp eb
      refine ⟨Withdrawal.mem_covered.mp hmem, s, b₀, eb₀, fun hzero => hne ?_⟩
      -- with nothing left to claim the row would have stayed
      rw [Balance.settle_eq_self_iff.mpr hzero]
      exact (h.lookup_token s _ t').trans (by rw [eb₀, Option.map_some])
    · refine absurd ?_ hne
      exact (h.lookup_token s r t').trans (by rw [eb, Option.map_some])
  · rintro ⟨hcov, s, b, eb, hne⟩
    refine ⟨splitRecipientTokenId s event.account t, encodeBalance s event.account t b.settle,
      ?_, ?_, rfl⟩
    · rw [h'.lookup_token, hv.withdraw_balances,
        if_pos ⟨rfl, Withdrawal.mem_covered.mpr hcov⟩, eb]
      rfl
    · rw [h.lookup_token, eb, Option.map_some]
      intro heq
      have hclaimed : b.claimed = b.distributed := by
        simpa [encodeBalance, Balance.settle] using heq
      exact hne (by rw [Balance.unclaimed, hclaimed, sub_self])

/-- A history row is saved only for a covered token in which something is due. -/
theorem Refines.due_of_savesHistoryRow (h : Refines st L) {m : SaveMode} {event : Withdrawal}
    {t : Address} (hs : SavesHistoryRow m st event t) :
    event.Covers t ∧ ∃ s b, L.balances s event.account t = some b ∧ b.unclaimed ≠ 0 := by
  obtain ⟨host, id, row, hrun, hmem, ht⟩ := hs
  obtain ⟨host', hrun', hsets⟩ := h.withdrawal_sets m event
  obtain rfl := Except.ok.inj (hrun.symm.trans hrun')
  obtain ⟨-, ss, ⟨s, t'⟩, -, hp, rfl⟩ := hsets id row hmem
  obtain rfl : t' = t := by simpa [encodeEntry, Ledger.entryOf] using ht
  obtain ⟨hpair, hdue⟩ := mem_of_mem_firstVisits hp
  exact ⟨Withdrawal.mem_covered.mp (mem_pairs.mp hpair).2, s, Ledger.due_iff.mp hdue⟩

/-- The condition, read off the ledger. -/
theorem Refines.unreportedClaimed_iff (h : Refines st L) (hv : L.Valid) (event : Withdrawal) :
    event.UnreportedClaimed st ↔ ∀ t ∈ event.tokens, ¬ event.ReportsPositive t →
      ∀ s b, L.balances s event.account t = some b → b.unclaimed = 0 := by
  constructor
  · intro hq t ht hn s b eb
    obtain ⟨row, ids, erow, hids, hmem⟩ := h.exists_listed hv eb
    have htoken := h.lookup_token s event.account t
    rw [eb, Option.map_some] at htoken
    have heq := hq t ht hn row ids erow hids _ hmem _ htoken
    have hclaimed : b.claimed = b.distributed := Option.some.inj heq
    rw [Balance.unclaimed, hclaimed, sub_self]
  · intro hq t ht hn row ids erow hids x hx token etoken
    obtain ⟨ss, s, -, -, rfl⟩ := h.exists_member erow hids hx
    have hlookup := h.lookup_token s event.account t
    rw [splitRecipientTokenId, etoken] at hlookup
    obtain ⟨b, eb, rfl⟩ := Option.map_eq_some_iff.mp hlookup.symm
    have hzero := hq t ht hn s b eb
    rw [Balance.unclaimed] at hzero
    exact congrArg some (show b.claimed = b.distributed by omega)

theorem Refines.settlesReportedOnly_iff (h : Refines st L) (hv : L.Valid) (m : SaveMode)
    (event : Withdrawal) : SettlesReportedOnly m st event ↔ event.UnreportedClaimed st := by
  rw [h.unreportedClaimed_iff hv]
  constructor
  · intro hp t ht hn s b eb
    by_contra hne
    exact hn (hp t (Or.inl ((h.changesTokenRow_iff hv m event t).mpr ⟨Or.inl ht, s, b, eb, hne⟩)))
  · intro hq t hsettled
    have hdue : event.Covers t
        ∧ ∃ s b, L.balances s event.account t = some b ∧ b.unclaimed ≠ 0 := by
      rcases hsettled with hchanged | hsaved
      · exact (h.changesTokenRow_iff hv m event t).mp hchanged
      · exact h.due_of_savesHistoryRow hsaved
    obtain ⟨hcov, s, b, eb, hne⟩ := hdue
    by_contra hn
    exact hne (hq t (Withdrawal.mem_tokens_of_covers hcov hn) hn s b eb)

end reported

/-- **When only reported tokens are settled.**  On a reachable store a withdrawal
settles and records tokens with a positive reported amount only, exactly when its
account has nothing left to claim in the tokens that it lists without one.  So a run
all of whose withdrawals meet this condition settles reported tokens only. -/
theorem withdrawal_settles_reported_iff (m : SaveMode) (triggers : List Trigger) :
    (∀ event, SettlesReportedOnly m (run m triggers) event
      ↔ event.UnreportedClaimed (run m triggers))
    ∧ ((∀ pre event, pre ++ [.withdrawal event] <+: triggers →
          event.UnreportedClaimed (run m pre)) →
        ∀ pre event, pre ++ [.withdrawal event] <+: triggers →
          SettlesReportedOnly m (run m pre) event) := by
  have hiff : ∀ pre event, SettlesReportedOnly m (run m pre) event
      ↔ event.UnreportedClaimed (run m pre) := fun pre event =>
    (refines_run m pre).settlesReportedOnly_iff (valid_ledger m pre) m event
  refine ⟨hiff triggers, ?_⟩
  intro hq pre event hpre
  exact (hiff pre event).mpr (hq pre event hpre)

/-- Two recipients share two units of a token. -/
def oneUnitDistribution : List Trigger :=
  [ .createSplitCall
      ⟨[Address.filled 2, Address.filled 3], [500000, 500000], 0, Address.filled 1⟩,
    .distributeERC20 ⟨Address.filled 1, Address.filled 4, 2⟩ ]

/-- One of them withdraws the token, and the event reports that it got none. -/
def emptyWithdrawal : Withdrawal :=
  { twoTokenWithdrawal with ethAmount := 0, tokens := [Address.filled 4], tokenAmounts := [0] }

/-- The two rows that the withdrawal saves: it claims the unit and records it. -/
theorem sets_emptyWithdrawal :
    (invokeHandler .plain (run .plain oneUnitDistribution)
        (.withdrawal emptyWithdrawal)).toOption.map Host.sets
      = some
        [ .splitRecipientToken
            (splitRecipientTokenId (Address.filled 1) (Address.filled 2) (Address.filled 4))
            ⟨some (splitRecipientId (Address.filled 1) (Address.filled 2)),
              some (Address.filled 4).toHex, some 1, some 1⟩,
          .splitRecipientWithdrawEvent emptyWithdrawal.historyId
            ⟨some (Address.filled 1).toHex, some (Address.filled 2).toHex,
              some (Address.filled 4).toHex, some 1, some 1,
              some (Bytes.toHex emptyWithdrawal.transactionHash)⟩ ] := by
  decide +kernel

/-- **A token that is listed with amount zero is settled all the same**: its row
changes and the withdrawal of a unit that nobody received enters the history. -/
theorem not_settlesReportedOnly_emptyWithdrawal :
    emptyWithdrawal.tokens.length = emptyWithdrawal.tokenAmounts.length
    ∧ ¬ emptyWithdrawal.ReportsPositive (Address.filled 4)
    ∧ ChangesTokenRow .plain (run .plain oneUnitDistribution) emptyWithdrawal (Address.filled 4)
    ∧ SavesHistoryRow .plain (run .plain oneUnitDistribution) emptyWithdrawal (Address.filled 4)
    ∧ ¬ SettlesReportedOnly .plain (run .plain oneUnitDistribution) emptyWithdrawal := by
  have hzero : ¬ emptyWithdrawal.ReportsPositive (Address.filled 4) := by
    rw [Withdrawal.ReportsPositive, if_neg (by decide)]
    rintro ⟨i, amount, -, hamount, hpos⟩
    have hmem : amount ∈ [(0 : ℤ)] := List.mem_of_getElem? hamount
    rw [List.mem_singleton.mp hmem] at hpos
    exact lt_irrefl 0 hpos
  have hchanges : ChangesTokenRow .plain (run .plain oneUnitDistribution) emptyWithdrawal
      (Address.filled 4) := by
    refine ⟨splitRecipientTokenId (Address.filled 1) (Address.filled 2) (Address.filled 4),
      ⟨some (splitRecipientId (Address.filled 1) (Address.filled 2)),
        some (Address.filled 4).toHex, some 1, some 1⟩, ?_, ?_, rfl⟩
    · decide +kernel
    · decide +kernel
  refine ⟨rfl, hzero, hchanges, ?_, fun hp => hzero (hp _ (Or.inl hchanges))⟩
  have hsets := sets_emptyWithdrawal
  rcases e : invokeHandler .plain (run .plain oneUnitDistribution) (.withdrawal emptyWithdrawal)
    with a | host
  · simp [e, Except.toOption] at hsets
  · rw [e] at hsets
    have hhost := Option.some.inj hsets
    refine ⟨host, emptyWithdrawal.historyId, ⟨some (Address.filled 1).toHex,
      some (Address.filled 2).toHex, some (Address.filled 4).toHex, some 1, some 1,
      some (Bytes.toHex emptyWithdrawal.transactionHash)⟩, e, ?_, rfl⟩
    rw [hhost]
    exact List.mem_cons_of_mem _ List.mem_cons_self

/-- Had the event reported the unit, the condition would hold. -/
theorem withdrawal_settles_reported_iff_oneUnit :
    let event : Withdrawal := { emptyWithdrawal with tokenAmounts := [1] }
    event.UnreportedClaimed (run .plain oneUnitDistribution)
    ∧ SettlesReportedOnly .plain (run .plain oneUnitDistribution) event := by
  intro event
  have hclaimed : event.UnreportedClaimed (run .plain oneUnitDistribution) := by
    intro t ht hn
    obtain rfl : t = Address.filled 4 := List.mem_singleton.mp ht
    refine absurd ?_ hn
    rw [Withdrawal.ReportsPositive, if_neg (by decide)]
    exact ⟨0, 1, rfl, rfl, Int.one_pos⟩
  exact ⟨hclaimed, ((withdrawal_settles_reported_iff .plain oneUnitDistribution).1 event).mpr
    hclaimed⟩

end SplitsSubgraph
