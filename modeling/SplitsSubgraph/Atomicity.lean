/-
SplitsSubgraph/Atomicity.lean

Distributions are all or nothing.

The loop of `handleDistribution` saves each token row as it goes, and it returns
from the middle when a split recipient is missing: on an arbitrary store the
recipients before the missing one are credited and those after it are not
(`distribute_loop_stops`).  On a reachable store this never happens.  Every id
that a split lists is the id of a stored split recipient with an allocation, an
invariant of the ledger (`Ledger.Valid.listed`) that also a second call for the
same split keeps; so a distribution either changes nothing or credits every listed
recipient (`distribution_all_or_nothing`).
-/
import SplitsSubgraph.Commute

namespace SplitsSubgraph

open KeyedTable

/-! ### The early return -/

/-- The two warnings of `handleDistribution` are different texts. -/
theorem missing_ne_not_found (x s : String) :
    "handleDistributeETH, missing splitRecipient: " ++ x
      ≠ "handleDistributeETH, no split found: " ++ s := by
  intro h
  -- they part at their 22nd character
  have hchar := congrArg (fun text : String => text.toList[21]?) h
  simp only [String.toList_append] at hchar
  rw [List.getElem?_append_left (by decide), List.getElem?_append_left (by decide)] at hchar
  exact absurd hchar (by decide)

/-- A missing split recipient stops the loop: those listed before it are credited,
those after it are not. -/
theorem distribute_loop_stops (amountToSplit : ℤ) (token : String) (pre post : List String)
    {x : String} {h : Host} (hc : TokensComplete h.store.splitRecipientTokens)
    (hs : RecipientsStored h.store.splitRecipients pre)
    (hx : h.store.splitRecipients.lookup x = none) :
    ∃ st' saves, distributeToRecipients amountToSplit token h (pre ++ x :: post)
        = .ok ({ h with store := st', sets := h.sets ++ saves }.warn
            ("handleDistributeETH, missing splitRecipient: " ++ x))
      ∧ Distributed amountToSplit token h.store pre st' := by
  induction pre generalizing h with
  | nil =>
    refine ⟨h.store, [], ?_, distributed_nil amountToSplit token h.store⟩
    rw [List.nil_append, List.append_nil, distributeToRecipients]
    simp only [hx]
  | cons y pre ih =>
    obtain ⟨s, -, hstep⟩ := distributeToRecipients_cons hc (hs y List.mem_cons_self)
    obtain ⟨st', saves, hrun, hd⟩ := ih (h := { h with
      store := h.store.credit amountToSplit token y, sets := h.sets ++ [s] })
      (tokensComplete_credit hc) (fun z hz => hs z (List.mem_cons_of_mem _ hz)) hx
    refine ⟨st', s :: saves, ?_, distributed_cons hd⟩
    rw [List.cons_append, hstep, hrun]
    simp only [List.append_assoc, List.singleton_append]

/-! ### Reachable stores -/

/-- `st'` is `st` with the shares of a distribution added: every listed split recipient
is stored, and its row of the token, new or not, has its share more distributed, once
per time it is listed.  Nothing else differs. -/
structure CreditsAll (fee amount : ℤ) (token : String) (ids : List String) (st st' : Store) :
    Prop where
  credited : ∀ x ∈ ids, ∃ join allocation row distributed,
    st.splitRecipients.lookup x = some join ∧ join.allocation = some allocation
    ∧ row = (st.splitRecipientTokens.lookup (joinIds [x, token])).getD
        ⟨some x, some token, some 0, some 0⟩
    ∧ row.totalDistributed = some distributed
    ∧ st'.splitRecipientTokens.lookup (joinIds [x, token]) = some { row with
        totalDistributed := some (distributed + ids.count x *
          scaleAmountByPercentage (amount - scaleAmountByPercentage amount fee) allocation) }
  other : ∀ id, (∀ x ∈ ids, id ≠ joinIds [x, token]) →
    st'.splitRecipientTokens.lookup id = st.splitRecipientTokens.lookup id
  splits : st'.splits = st.splits
  recipients : st'.recipients = st.recipients
  splitRecipients : st'.splitRecipients = st.splitRecipients
  history : st'.splitRecipientWithdrawEvents = st.splitRecipientWithdrawEvents

theorem Distributed.creditsAll {fee amount : ℤ} {token : String} {ids : List String}
    {st st' : Store} (hd : Distributed (amountAfterFee amount fee) token st ids st')
    (hc : TokensComplete st.splitRecipientTokens)
    (hs : RecipientsStored st.splitRecipients ids) :
    CreditsAll fee amount token ids st st' := by
  refine ⟨?_, ?_, hd.splits, hd.recipients, hd.splitRecipients, hd.history⟩
  · intro x hx
    obtain ⟨join, a, ejoin, ha⟩ := hs x hx
    obtain ⟨sr, tok, d, c, hrow⟩ := tokenRow_complete hc x token
    refine ⟨join, a, tokenRow st.splitRecipientTokens x token, d, ejoin, ha, rfl, ?_, ?_⟩
    · rw [hrow]
    · rw [hd.credited x hx, hrow, shareOf, ejoin, Option.bind_some, ha]
      rfl
  · intro id hid
    apply hd.other
    intro hmem
    obtain ⟨x, hx, rfl⟩ := List.mem_map.mp hmem
    exact hid x hx rfl

/-- Without recipients nothing is credited. -/
theorem CreditsAll.eq_of_nil {fee amount : ℤ} {token : String} {st st' : Store}
    (h : CreditsAll fee amount token [] st st') : st' = st := by
  apply Store.ext h.splits h.recipients h.splitRecipients
  · apply Finmap.ext_lookup
    intro id
    exact h.other id (by simp)
  · exact h.history

/-- **A distribution is all or nothing** on every reachable store.

* If the split has no row, or its fee was never set (reading it aborts the handler), or
  it has no recipients, the whole store stays as it is.
* Otherwise every recipient that the split lists is credited.
* The warning about a missing split recipient, with which the handler would return
  from the middle of its loop, is never logged. -/
theorem distribution_all_or_nothing (m : SaveMode) (triggers : List Trigger) (trigger : Trigger)
    {s t : Address} {amount : ℤ} (htrigger : trigger.distribution = some (s, t, amount)) :
    let st := run m triggers
    let st' := processTrigger m st trigger
    ((st.splits.lookup s.toHex = none ∧ st' = st)
      ∨ (∃ row, st.splits.lookup s.toHex = some row ∧ row.distributorFee = none
          ∧ invokeHandler m st trigger = .error (.unsetField "Split" s.toHex "distributorFee")
          ∧ st' = st)
      ∨ ∃ row fee ids host, st.splits.lookup s.toHex = some row
          ∧ row.distributorFee = some fee ∧ row.recipients = some ids
          ∧ invokeHandler m st trigger = .ok host ∧ host.store = st'
          ∧ (ids = [] → st' = st) ∧ CreditsAll fee amount t.toHex ids st st')
    ∧ ∀ host, invokeHandler m st trigger = .ok host →
        ∀ x, "handleDistributeETH, missing splitRecipient: " ++ x ∉ host.warnings := by
  intro st st'
  have h := refines_run m triggers
  have hv := valid_ledger m triggers
  have hinvoke : invokeHandler m st trigger
      = handleDistribution (Host.enter m st) s.toHex amount t.toHex :=
    invokeHandler_of_distribution htrigger
  have hrow := h.lookup_split s
  rcases e : (ledger m triggers).splits s with - | ⟨- | fee, rs⟩
  · rw [e, Option.map_none] at hrow
    have hrun := hinvoke.trans (h.distribution_of_none m e t amount)
    refine ⟨Or.inl ⟨hrow, processTrigger_of_ok m st trigger hrun⟩, ?_⟩
    intro host hhost x hmem
    obtain rfl := Except.ok.inj (hrun.symm.trans hhost)
    exact missing_ne_not_found x s.toHex (List.mem_singleton.mp hmem)
  · rw [e, Option.map_some] at hrow
    have hrun := hinvoke.trans (h.distribution_of_no_fee m e t amount)
    refine ⟨Or.inr (Or.inl ⟨_, hrow, rfl, hrun, processTrigger_of_error m st trigger hrun⟩), ?_⟩
    intro host hhost
    exact absurd (hrun.symm.trans hhost) (by simp)
  · rw [e, Option.map_some] at hrow
    have hstored := h.recipientsStored hv e
    obtain ⟨st₁, saves, hspec, -, hd⟩ := handleDistribution_spec (h := Host.enter m st) amount
      t.toHex hrow h.tokensComplete hstored
    have hrun := hinvoke.trans hspec
    have hst : st' = st₁ := processTrigger_of_ok m st trigger hrun
    have hcredits := hd.creditsAll h.tokensComplete hstored
    rw [Host.enter_store, ← hst] at hcredits
    refine ⟨Or.inr (Or.inr ⟨_, fee, _, _, hrow, rfl, rfl, hrun, hst.symm, ?_, hcredits⟩), ?_⟩
    · intro hnil
      rw [hnil] at hcredits
      exact hcredits.eq_of_nil
    · intro host hhost x hmem
      obtain rfl := Except.ok.inj (hrun.symm.trans hhost)
      exact absurd hmem List.not_mem_nil

/-- One of two accounts is listed twice. -/
def repeatedAccountCall : CreateSplitCall where
  accounts := [Address.filled 2, Address.filled 3, Address.filled 2]
  percentAllocations := [100000, 500000, 250000]
  distributorFee := 0
  split := Address.filled 1

/-- The later allocation counts, once per time the account is listed. -/
theorem distribution_all_or_nothing_repeatedAccount :
    let st := run .plain [.createSplitCall repeatedAccountCall]
    let trigger := Trigger.distributeERC20 ⟨Address.filled 1, Address.filled 4, 40⟩
    (processTrigger .plain st trigger).splitRecipientTokens.lookup
        (joinIds [splitRecipientId (Address.filled 1) (Address.filled 2), (Address.filled 4).toHex])
      = some ⟨some (splitRecipientId (Address.filled 1) (Address.filled 2)),
          some (Address.filled 4).toHex, some 20, some 0⟩ := by
  intro st trigger
  have hsplit : st.splits.lookup (Address.filled 1).toHex = some ⟨some 0,
      some (repeatedAccountCall.accounts.map (splitRecipientId (Address.filled 1)))⟩ := by
    decide +kernel
  obtain ⟨⟨hnone, -⟩ | ⟨row, hrow, hfee, -⟩
    | ⟨row, fee, ids, host, hrow, hfee, hids, -, -, -, hcredits⟩, -⟩ :=
    distribution_all_or_nothing .plain [.createSplitCall repeatedAccountCall] trigger rfl
  · exact absurd (hsplit.symm.trans hnone) (by simp)
  · obtain rfl := Option.some.inj (hsplit.symm.trans hrow)
    exact absurd hfee (by simp)
  · obtain rfl := Option.some.inj (hsplit.symm.trans hrow)
    obtain rfl := Option.some.inj hfee
    obtain rfl := Option.some.inj hids
    obtain ⟨join, a, token, d, hjoin, ha, rfl, hd, hcredit⟩ := hcredits.credited
      (splitRecipientId (Address.filled 1) (Address.filled 2)) List.mem_cons_self
    have hjoin' : st.splitRecipients.lookup (splitRecipientId (Address.filled 1) (Address.filled 2))
        = some ⟨some (Address.filled 1).toHex, some (Address.filled 2).toHex, some 250000⟩ := by
      decide +kernel
    have hnew : st.splitRecipientTokens = ∅ := by decide +kernel
    have hcount : (repeatedAccountCall.accounts.map (splitRecipientId (Address.filled 1))).count
        (splitRecipientId (Address.filled 1) (Address.filled 2)) = 2 := by
      decide +kernel
    obtain rfl := Option.some.inj (hjoin'.symm.trans hjoin)
    obtain rfl := Option.some.inj ha
    rw [show (run .plain [.createSplitCall repeatedAccountCall]).splitRecipientTokens = ∅ from hnew]
      at hd hcredit
    rw [Finmap.lookup_empty, Option.getD_none] at hd hcredit
    obtain rfl := Option.some.inj hd
    rw [hcount] at hcredit
    exact hcredit

end SplitsSubgraph
