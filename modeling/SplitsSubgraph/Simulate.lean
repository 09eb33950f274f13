/-
SplitsSubgraph/Simulate.lean

The handlers implement the ledger.

`Refines.processTrigger` covers all five handlers, in both save modes, from every
store that refines a valid ledger: the handler's loops and string ids on one side,
one pointwise ledger operation on the other.  An aborted handler is an operation
that the ledger refuses.  Each handler has its lemma, which is what its loop does
(`Create`, `Distribute`, `Withdraw`) read through the encoding; the ids are
unambiguous, so a row that the loop names is the row of exactly one index.

Everything that is said later about runs of the handlers goes through
`refines_run`.
-/
import SplitsSubgraph.Refine

namespace SplitsSubgraph

open KeyedTable Sweep

section handlers

variable {st : Store} {L : Ledger Address LogId}

/-! ### Creating -/

theorem Refines.createSplit (h : Refines st L) (m : SaveMode) (event : CreateSplit) :
    Refines (processTrigger m st (.createSplit event)) (L.announce m.keepsPartial event.split) := by
  have hrow := h.lookup_split event.split
  rcases e : L.splits event.split with - | x
  · rw [e, Option.map_none] at hrow
    -- a new split: what becomes of the row without a fee depends on the mode
    cases m with
    | plain =>
      obtain ⟨sets, hrun⟩ := handleCreateSplit_plain (h := Host.enter .plain st) rfl hrow
      rw [processTrigger_of_ok _ _ (.createSplit event) hrun, Ledger.announce, if_pos ⟨rfl, e⟩]
      refine ⟨?_, h.recipients, h.splitRecipients, h.tokens, h.history⟩
      exact h.splits.insert_map Address.toHex_injective event.split (none, [])
    | validated =>
      obtain ⟨message, hrun⟩ := handleCreateSplit_validated (h := Host.enter .validated st) rfl hrow
      rw [processTrigger_of_error _ _ (.createSplit event) hrun, Ledger.announce,
        if_neg (by simp [SaveMode.keepsPartial])]
      exact h
  · rw [e, Option.map_some] at hrow
    have hrun := handleCreateSplit_known (h := Host.enter m st) hrow
    rw [processTrigger_of_ok _ _ (.createSplit event) hrun, Ledger.announce, if_neg (by simp [e])]
    exact h

section created

variable {s : Address} {accounts : List Address} {allocations : List ℤ} {st' : Store}

/-- An account gains the split as often as it is listed, all other rows stay. -/
theorem Refines.recipients_created (h : Refines st L)
    (hmid : Created s accounts allocations st st') :
    Represents Address.toHex st'.recipients fun r =>
      (if r ∈ accounts then
        some ((L.memberships r).getD [] ++ List.replicate (accounts.count r) s)
      else L.memberships r).map (encodeRecipient r) := by
  apply h.recipients.of_lookup
  · intro r
    by_cases hr : r ∈ accounts
    · have hrow := hmid.recipients r hr
      rw [h.splitsOf_eq] at hrow
      simp only [hr, if_true, hrow]
      simp [encodeRecipient]
    · have hout : r.toHex ∉ accounts.map Address.toHex := by simpa using hr
      simp only [hr, if_false, hmid.recipients_other _ hout]
      exact h.lookup_recipient r
  · intro k hk
    apply hmid.recipients_other
    intro hmem
    obtain ⟨r, -, rfl⟩ := List.mem_map.mp hmem
    exact hk r rfl

/-- An account listed twice keeps the later allocation. -/
theorem Refines.splitRecipients_created (h : Refines st L)
    (hlen : accounts.length ≤ allocations.length)
    (hmid : Created s accounts allocations st st') :
    Represents joinKey st'.splitRecipients fun p =>
      (if p.1 = s ∧ p.2 ∈ accounts then lastAssoc accounts allocations p.2
      else L.allocations p.1 p.2).map (encodeJoin p.1 p.2) := by
  apply h.splitRecipients.of_lookup
  · rintro ⟨s', r⟩
    by_cases hif : s' = s ∧ r ∈ accounts
    · obtain ⟨rfl, hr⟩ := hif
      obtain ⟨a, ha⟩ := Option.isSome_iff_exists.mp (lastAssoc_isSome hlen hr)
      have hrow := hmid.splitRecipients r hr
      rw [ha] at hrow
      simp only [hr, and_self, if_true, ha]
      exact hrow
    · have hout : joinKey (s', r) ∉ accounts.map (splitRecipientId s) := by
        intro hmem
        obtain ⟨r', hr', e⟩ := List.mem_map.mp hmem
        obtain ⟨rfl, rfl⟩ := splitRecipientId_inj.mp e
        exact hif ⟨rfl, hr'⟩
      simp only [hif, if_false, hmid.splitRecipients_other _ hout]
      exact h.lookup_splitRecipient s' r
  · intro k hk
    apply hmid.splitRecipients_other
    intro hmem
    obtain ⟨r, -, rfl⟩ := List.mem_map.mp hmem
    exact hk (s, r) rfl

end created

theorem Refines.createSplitCall (h : Refines st L) (m : SaveMode) (call : CreateSplitCall) :
    Refines (processTrigger m st (.createSplitCall call))
      (L.create call.split call.distributorFee call.accounts call.percentAllocations) := by
  have hc : RecipientsComplete (Host.enter m st).store.recipients := h.recipientsComplete
  rcases Nat.lt_or_ge call.percentAllocations.length call.accounts.length with hlen | hlen
  · rw [processTrigger_of_error _ _ (.createSplitCall call) (handleCreateSplitCall_abort hc hlen),
      Ledger.create_of_lt hlen]
    exact h
  · obtain ⟨mid, saves, hrun, -, hmid⟩ := handleCreateSplitCall_spec hc hlen
    rw [Host.enter_store] at hmid
    rw [processTrigger_of_ok _ _ (.createSplitCall call) hrun, Ledger.create_of_le hlen]
    have hrecipients := h.recipients_created hmid
    have hjoins := h.splitRecipients_created hlen hmid
    refine ⟨?_, hrecipients, hjoins, ?_, ?_⟩
    · exact h.splits.insert_map Address.toHex_injective call.split
        (some call.distributorFee, call.accounts)
    · show Represents balanceKey mid.splitRecipientTokens _
      rw [hmid.tokens]
      exact h.tokens
    · show Represents entryKey mid.splitRecipientWithdrawEvents _
      rw [hmid.history]
      exact h.history

/-! ### Distributing -/

theorem tokenRow_eq (h : Refines st L) (s r t : Address) :
    tokenRow st.splitRecipientTokens (splitRecipientId s r) t.toHex
      = encodeBalance s r t ((L.balances s r t).getD Balance.zero) := by
  have hrow := h.lookup_token s r t
  rw [splitRecipientTokenId] at hrow
  rw [tokenRow, hrow]
  rcases L.balances s r t with - | b <;> rfl

theorem shareOf_eq (h : Refines st L) (amountToSplit : ℤ) (s r : Address) :
    shareOf st.splitRecipients amountToSplit (splitRecipientId s r)
      = scaleAmountByPercentage amountToSplit ((L.allocations s r).getD 0) := by
  rw [shareOf, h.lookup_splitRecipient]
  rcases L.allocations s r with - | a <;> rfl

/-- The loop credits each recipient once per time it is listed. -/
theorem Refines.tokens_distributed (h : Refines st L) {s t : Address} {amount fee : ℤ}
    {rs : List Address} {st' : Store}
    (hd : Distributed (amountAfterFee amount fee) t.toHex st (rs.map (splitRecipientId s)) st') :
    Represents balanceKey st'.splitRecipientTokens fun p =>
      (if p.1 = s ∧ p.2.2 = t ∧ p.2.1 ∈ rs then
        some (((L.balances s p.2.1 t).getD Balance.zero).credit
          (rs.count p.2.1 * creditOf fee ((L.allocations s p.2.1).getD 0) amount))
      else L.balances p.1 p.2.1 p.2.2).map (encodeBalance p.1 p.2.1 p.2.2) := by
  apply h.tokens.of_lookup
  · rintro ⟨s', r, t'⟩
    by_cases hif : s' = s ∧ t' = t ∧ r ∈ rs
    · obtain ⟨rfl, rfl, hr⟩ := hif
      have hmem : splitRecipientId s' r ∈ rs.map (splitRecipientId s') := List.mem_map_of_mem hr
      have hcount : (rs.map (splitRecipientId s')).count (splitRecipientId s' r) = rs.count r :=
        List.count_map_of_injective rs _ (fun _ _ e => (splitRecipientId_inj.mp e).2) r
      have hcredit := hd.credited _ hmem
      rw [hcount] at hcredit
      simp only [hr, and_self, if_true]
      apply hcredit.trans
      rw [tokenRow_eq h, shareOf_eq h]
      rfl
    · -- ids are unambiguous, so this row is none of those the loop wrote
      have hout : balanceKey (s', r, t')
          ∉ (rs.map (splitRecipientId s)).map fun x => joinIds [x, t.toHex] := by
        intro hmem
        rw [List.map_map] at hmem
        obtain ⟨r', hr', e⟩ := List.mem_map.mp hmem
        obtain ⟨rfl, rfl, rfl⟩ := splitRecipientTokenId_inj.mp e
        exact hif ⟨rfl, rfl, hr'⟩
      simp only [if_neg hif]
      rw [hd.other _ hout]
      exact h.lookup_token s' r t'
  · intro k hk
    apply hd.other
    intro hmem
    rw [List.map_map] at hmem
    obtain ⟨r, -, rfl⟩ := List.mem_map.mp hmem
    exact hk (s, r, t) rfl

/-- Distributing from a split whose fee is known. -/
theorem Refines.distribution_of_fee (h : Refines st L) (hv : L.Valid) (m : SaveMode)
    {s : Address} {fee : ℤ} {rs : List Address} (e : L.splits s = some (some fee, rs))
    (t : Address) (amount : ℤ) :
    ∃ st' saves, handleDistribution (Host.enter m st) s.toHex amount t.toHex
        = .ok { Host.enter m st with store := st', sets := saves }
      ∧ (∀ x ∈ saves, SetEntity.Complete x)
      ∧ Refines st' (L.distribute creditOf s t amount) := by
  have hrow : (Host.enter m st).store.splits.lookup s.toHex
      = some ⟨some fee, some (rs.map (splitRecipientId s))⟩ := by
    show st.splits.lookup s.toHex = _
    rw [h.lookup_split, e]
    rfl
  obtain ⟨st', saves, hrun, hsaves, hd⟩ :=
    handleDistribution_spec amount t.toHex hrow h.tokensComplete (h.recipientsStored hv e)
  rw [Host.enter_store] at hd
  refine ⟨st', saves, hrun, hsaves, ?_⟩
  rw [Ledger.distribute_of_fee e]
  exact ⟨hd.splits ▸ h.splits, hd.recipients ▸ h.recipients,
    hd.splitRecipients ▸ h.splitRecipients, h.tokens_distributed hd, hd.history ▸ h.history⟩

/-- Distributing from a split that has no row: a warning and nothing else. -/
theorem Refines.distribution_of_none (h : Refines st L) (m : SaveMode) {s : Address}
    (e : L.splits s = none) (t : Address) (amount : ℤ) :
    handleDistribution (Host.enter m st) s.toHex amount t.toHex
      = .ok ((Host.enter m st).warn ("handleDistributeETH, no split found: " ++ s.toHex)) := by
  apply handleDistribution_missing
  rw [Host.enter_store, h.lookup_split, e, Option.map_none]

/-- Distributing from a split that was only announced aborts. -/
theorem Refines.distribution_of_no_fee (h : Refines st L) (m : SaveMode) {s : Address}
    {rs : List Address} (e : L.splits s = some (none, rs)) (t : Address) (amount : ℤ) :
    handleDistribution (Host.enter m st) s.toHex amount t.toHex
      = .error (.unsetField "Split" s.toHex "distributorFee") := by
  have hrow := h.lookup_split s
  rw [e, Option.map_some] at hrow
  exact handleDistribution_unset hrow rfl

/-- Both distribution handlers are `handleDistribution`, so the node's loop treats
them alike. -/
theorem Refines.distribution (h : Refines st L) (hv : L.Valid) (m : SaveMode) (trigger : Trigger)
    (s t : Address) (amount : ℤ)
    (htrigger : invokeHandler m st trigger
      = handleDistribution (Host.enter m st) s.toHex amount t.toHex) :
    Refines (processTrigger m st trigger) (L.distribute creditOf s t amount) := by
  rcases e : L.splits s with - | ⟨- | fee, rs⟩
  · rw [processTrigger_of_ok m st trigger (htrigger.trans (h.distribution_of_none m e t amount)),
      Ledger.distribute_of_no_fee (by simp [e])]
    exact h
  · rw [processTrigger_of_error m st trigger
      (htrigger.trans (h.distribution_of_no_fee m e t amount)),
      Ledger.distribute_of_no_fee (by simp [e])]
    exact h
  · obtain ⟨st', saves, hrun, -, hst⟩ := h.distribution_of_fee hv m e t amount
    rw [processTrigger_of_ok m st trigger (htrigger.trans hrun)]
    exact hst

/-! ### Withdrawing -/

/-- The token row a (split, token) pair names for the account `r`. -/
def namePair (r : Address) (p : Address × Address) : String × String :=
  (splitRecipientId p.1 r, p.2.toHex)

theorem pairId_namePair (r : Address) (p : Address × Address) :
    pairId (namePair r p) = splitRecipientTokenId p.1 r p.2 := rfl

theorem pairs_map_namePair (r : Address) (ss ts : List Address) :
    pairs (ss.map fun s => splitRecipientId s r) (ts.map Address.toHex)
      = (pairs ss ts).map (namePair r) := by
  simp only [pairs, List.flatMap_map, List.map_flatMap, List.map_map]
  rfl

theorem outstanding_eq_due (h : Refines st L) (r : Address) (p : Address × Address) :
    outstanding st.splitRecipientTokens (splitRecipientTokenId p.1 r p.2) = L.due r p := by
  rw [outstanding, h.lookup_token, Ledger.due]
  rcases L.balances p.1 r p.2 with - | b <;> rfl

/-- The pairs that act are the payouts of the ledger. -/
theorem settlements_eq (h : Refines st L) (r : Address) (ps : List (Address × Address)) :
    settlements st.splitRecipientTokens (ps.map (namePair r))
      = (L.payouts r ps).map (namePair r) := by
  have hinj : Function.Injective fun p : Address × Address =>
      splitRecipientTokenId p.1 r p.2 := by
    rintro ⟨s, t⟩ ⟨s', t'⟩ e
    simpa using e
  rw [settlements, Ledger.payouts]
  exact firstVisits_map hinj (pairId_namePair r) (outstanding_eq_due h r) ps

theorem mem_pairId_namePair {s r' t r : Address} {ps : List (Address × Address)} :
    balanceKey (s, r', t) ∈ (ps.map (namePair r)).map pairId ↔ r' = r ∧ (s, t) ∈ ps := by
  rw [List.map_map, List.mem_map]
  constructor
  · rintro ⟨⟨s', t'⟩, hmem, e⟩
    obtain ⟨rfl, rfl, rfl⟩ := splitRecipientTokenId_inj.mp e
    exact ⟨rfl, hmem⟩
  · rintro ⟨rfl, hmem⟩
    exact ⟨(s, t), hmem, rfl⟩

theorem historyRow_eq (h : Refines st L) (event : Withdrawal) {p : Address × Address}
    (hdue : L.due event.account p = true) :
    event.historyRow (namePair event.account p)
        (rowAt st.splitRecipientTokens (namePair event.account p))
      = encodeEntry (event.transactionHash, event.logIndex) event.account
          (L.entryOf event.account event.timestamp p) := by
  have hsplit : splitOfId (splitRecipientId p.1 event.account) = p.1.toHex := by
    rw [splitOfId, expandId_splitRecipientId]
    rfl
  obtain ⟨b, eb, -⟩ := Ledger.due_iff.mp hdue
  have hrow : rowAt st.splitRecipientTokens (namePair event.account p)
      = encodeBalance p.1 event.account p.2 b := by
    rw [rowAt, pairId_namePair, h.lookup_token, eb]
    rfl
  simp only [Withdrawal.historyRow, namePair, hsplit, Ledger.entryOf, eb] at hrow ⊢
  rw [hrow]
  rfl

section settled

variable {event : Withdrawal} {ss : List Address} {st' : Store}

/-- The loop settles the balances of the account with its splits in the covered
tokens. -/
theorem Refines.tokens_settled (h : Refines st L)
    (hst : Settled event st ((pairs ss event.covered).map (namePair event.account)) st') :
    Represents balanceKey st'.splitRecipientTokens fun p =>
      (if p.2.1 = event.account ∧ p.1 ∈ ss ∧ p.2.2 ∈ event.covered then
        (L.balances p.1 p.2.1 p.2.2).map Balance.settle
      else L.balances p.1 p.2.1 p.2.2).map (encodeBalance p.1 p.2.1 p.2.2) := by
  apply h.tokens.of_lookup
  · rintro ⟨s, r, t⟩
    have hl := hst.tokens (balanceKey (s, r, t))
    rw [if_congr mem_pairId_namePair rfl rfl, h.tokens.lookup] at hl
    apply hl.trans
    simp only [mem_pairs]
    split_ifs
    · rcases L.balances s r t with - | b <;> rfl
    · rfl
  · intro k hk
    rw [hst.tokens k, if_neg]
    intro hmem
    obtain ⟨q, hq, rfl⟩ := List.mem_map.mp hmem
    obtain ⟨p, -, rfl⟩ := List.mem_map.mp hq
    exact hk (p.1, event.account, p.2) rfl

/-- All payouts of the event share one history id, and the last one stays. -/
theorem Refines.history_settled (h : Refines st L)
    (hst : Settled event st ((pairs ss event.covered).map (namePair event.account)) st')
    {p : Address × Address}
    (elast : (L.payouts event.account (pairs ss event.covered)).getLast? = some p) :
    Represents entryKey st'.splitRecipientWithdrawEvents fun q =>
      (if q.1 = (event.transactionHash, event.logIndex) ∧ q.2 = event.account then
        some (L.entryOf event.account event.timestamp p)
      else L.history q.1 q.2).map (encodeEntry q.1 q.2) := by
  have hhist := hst.history
  obtain ⟨-, hdue⟩ := mem_of_mem_firstVisits (List.mem_of_getLast? elast)
  rw [settlements_eq h, List.getLast?_map, elast] at hhist
  simp only [Option.map_some, historyRow_eq h event hdue] at hhist
  rw [hhist]
  have hins := h.history.insert entryKey_injective
    ((event.transactionHash, event.logIndex), event.account)
    (encodeEntry (event.transactionHash, event.logIndex) event.account
      (L.entryOf event.account event.timestamp p))
  apply hins.congr
  rintro ⟨log, r⟩
  by_cases hif : log = (event.transactionHash, event.logIndex) ∧ r = event.account
  · obtain ⟨rfl, rfl⟩ := hif
    simp
  · have hne : (log, r) ≠ ((event.transactionHash, event.logIndex), event.account) :=
      fun e => hif (Prod.mk.inj e)
    simp only [Function.update_of_ne hne, hif, if_false]

end settled

theorem Refines.withdrawal (h : Refines st L) (m : SaveMode) (event : Withdrawal) :
    Refines (processTrigger m st (.withdrawal event))
      (L.withdraw (event.transactionHash, event.logIndex) event.account event.covered
        event.timestamp) := by
  have hrow := h.lookup_recipient event.account
  rcases em : L.memberships event.account with - | ss
  · rw [em, Option.map_none] at hrow
    rw [processTrigger_withdrawal_missing m hrow]
    simp only [Ledger.withdraw, em]
    exact h
  · rw [em, Option.map_some] at hrow
    obtain ⟨-, hst⟩ := settled_processTrigger m h.tokensComplete hrow
    rw [withdrawalTokens_eq, pairs_map_namePair] at hst
    simp only [Ledger.withdraw, em]
    refine ⟨hst.splits ▸ h.splits, hst.recipients ▸ h.recipients,
      hst.splitRecipients ▸ h.splitRecipients, h.tokens_settled hst, ?_⟩
    rcases elast : (L.payouts event.account (pairs ss event.covered)).getLast? with - | p
    · have hhist := hst.history
      rw [settlements_eq h, List.getLast?_map, elast] at hhist
      exact hhist ▸ h.history
    · exact h.history_settled hst elast

/-- A withdrawal never aborts, and each history row it saves is the line of one of
the ledger's payouts, under the one id of the event. -/
theorem Refines.withdrawal_sets (h : Refines st L) (m : SaveMode) (event : Withdrawal) :
    ∃ host, invokeHandler m st (.withdrawal event) = .ok host ∧
      ∀ id row, .splitRecipientWithdrawEvent id row ∈ host.sets → id = event.historyId ∧
        ∃ ss p, L.memberships event.account = some ss
          ∧ p ∈ L.payouts event.account (pairs ss event.covered)
          ∧ row = encodeEntry (event.transactionHash, event.logIndex) event.account
              (L.entryOf event.account event.timestamp p) := by
  have hrow := h.lookup_recipient event.account
  rcases em : L.memberships event.account with - | ss
  · rw [em, Option.map_none] at hrow
    refine ⟨_, handleWithdrawal_missing (h := Host.enter m st) hrow, ?_⟩
    intro id row hmem
    simp [Host.warn, Host.enter] at hmem
  · rw [em, Option.map_some] at hrow
    obtain ⟨st', hrun, -⟩ := handleWithdrawal_spec (h := Host.enter m st) h.tokensComplete hrow
    rw [Host.enter_store, withdrawalTokens_eq, pairs_map_namePair, settlements_eq h] at hrun
    refine ⟨_, hrun, ?_⟩
    intro id row hmem
    simp only [Host.enter, List.nil_append, List.mem_flatMap, List.mem_map] at hmem
    obtain ⟨-, ⟨p, hp, rfl⟩, hmem⟩ := hmem
    obtain ⟨-, hdue⟩ := mem_of_mem_firstVisits hp
    have hhist := historyRow_eq h event hdue
    rw [rowAt] at hhist
    rw [settleSets] at hmem
    split at hmem
    next trow et =>
      rw [et, Option.getD_some] at hhist
      simp only [List.mem_cons, SetEntity.splitRecipientWithdrawEvent.injEq, reduceCtorEq,
        List.not_mem_nil, false_or, or_false] at hmem
      obtain ⟨rfl, rfl⟩ := hmem
      exact ⟨rfl, ss, p, rfl, hp, hhist⟩
    next => simp at hmem

end handlers

/-! ### Runs -/

/-- **Simulation.**  Handling a trigger on a store that refines a valid ledger is
the trigger's action on the ledger. -/
theorem Refines.processTrigger {st : Store} {L : Ledger Address LogId} (h : Refines st L)
    (hv : L.Valid) (m : SaveMode) (trigger : Trigger) :
    Refines (processTrigger m st trigger) (L.step creditOf m.keepsPartial trigger.action) := by
  cases trigger with
  | createSplit event => exact h.createSplit m event
  | createSplitCall call => exact h.createSplitCall m call
  | distributeETH event =>
    apply h.distribution hv m _ event.split zeroAddress event.amount
    rw [toHex_zeroAddress]
    rfl
  | distributeERC20 event => exact h.distribution hv m _ event.split event.token event.amount rfl
  | withdrawal event => exact h.withdrawal m event

/-- The ledger that a run of the handlers builds. -/
def ledger (m : SaveMode) (triggers : List Trigger) : Ledger Address LogId :=
  Ledger.run creditOf m.keepsPartial (triggers.map Trigger.action)

@[simp] theorem ledger_nil (m : SaveMode) : ledger m [] = Ledger.empty := rfl

@[simp] theorem ledger_concat (m : SaveMode) (triggers : List Trigger) (trigger : Trigger) :
    ledger m (triggers ++ [trigger])
      = (ledger m triggers).step creditOf m.keepsPartial trigger.action := by
  simp [ledger]

theorem valid_ledger (m : SaveMode) (triggers : List Trigger) : (ledger m triggers).Valid :=
  Ledger.valid_run creditOf m.keepsPartial _

/-- **Every reachable store is a ledger written down.** -/
theorem refines_run (m : SaveMode) (triggers : List Trigger) :
    Refines (run m triggers) (ledger m triggers) := by
  induction triggers using List.reverseRecOn with
  | nil => exact Refines.empty
  | append_singleton triggers trigger ih =>
    rw [run_concat, ledger_concat]
    exact ih.processTrigger (valid_ledger m triggers) m trigger

end SplitsSubgraph
