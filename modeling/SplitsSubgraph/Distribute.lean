/-
SplitsSubgraph/Distribute.lean

What `handleDistribution` does when the split's fee is set and every split
recipient it lists is stored.

The loop visits the listed split recipients in order and adds each one's share to
the token row of that split recipient, creating the row at zero on first touch.
Shares do not depend on the token table, so after the loop the row of `x` has
grown by its share once per occurrence of `x` in the list, and no other row has
changed (`distribute_loop`).
-/
import SplitsSubgraph.Withdraw

namespace SplitsSubgraph

open KeyedTable

/-- The split recipient `x` is stored with an allocation, for every `x` listed. -/
def RecipientsStored (t : Table String SplitRecipient) (ids : List String) : Prop :=
  ∀ x ∈ ids, ∃ row a, t.lookup x = some row ∧ row.allocation = some a

/-- What the distribution of `amountToSplit` adds to the row of `x`. -/
def shareOf (t : Table String SplitRecipient) (amountToSplit : ℤ) (x : String) : ℤ :=
  scaleAmountByPercentage amountToSplit (((t.lookup x).bind SplitRecipient.allocation).getD 0)

/-- The token row of `x` as the loop finds it, or the new one it starts from. -/
def tokenRow (t : Table String SplitRecipientToken) (x token : String) : SplitRecipientToken :=
  (t.lookup (joinIds [x, token])).getD ⟨some x, some token, some 0, some 0⟩

/-- The row with `share` more distributed. -/
def SplitRecipientToken.credit (row : SplitRecipientToken) (share : ℤ) : SplitRecipientToken :=
  { row with totalDistributed := some (row.totalDistributed.getD 0 + share) }

theorem SplitRecipientToken.credit_credit (row : SplitRecipientToken) (a b : ℤ) :
    (row.credit a).credit b = row.credit (a + b) := by
  simp [credit, add_assoc]

/-- `st'` is what distributing `amountToSplit` of `token` to `ids` makes of `st`. -/
structure Distributed (amountToSplit : ℤ) (token : String) (st : Store) (ids : List String)
    (st' : Store) : Prop where
  splits : st'.splits = st.splits
  recipients : st'.recipients = st.recipients
  splitRecipients : st'.splitRecipients = st.splitRecipients
  history : st'.splitRecipientWithdrawEvents = st.splitRecipientWithdrawEvents
  credited : ∀ x ∈ ids, st'.splitRecipientTokens.lookup (joinIds [x, token])
    = some ((tokenRow st.splitRecipientTokens x token).credit
        (ids.count x * shareOf st.splitRecipients amountToSplit x))
  other : ∀ id, id ∉ ids.map (fun x => joinIds [x, token]) →
    st'.splitRecipientTokens.lookup id = st.splitRecipientTokens.lookup id

/-! ### One recipient -/

/-- The store after crediting one recipient. -/
def Store.credit (st : Store) (amountToSplit : ℤ) (token x : String) : Store :=
  { st with
    splitRecipientTokens := st.splitRecipientTokens.insert (joinIds [x, token])
      ((tokenRow st.splitRecipientTokens x token).credit
        (shareOf st.splitRecipients amountToSplit x)) }

section step

variable {amountToSplit : ℤ} {token x : String}

theorem tokenRow_complete {t : Table String SplitRecipientToken} (hc : TokensComplete t)
    (x token : String) :
    ∃ sr tok d c, tokenRow t x token = ⟨some sr, some tok, some d, some c⟩ := by
  rcases e : t.lookup (joinIds [x, token]) with - | row
  · exact ⟨x, token, 0, 0, by simp [tokenRow, e]⟩
  · obtain ⟨sr, tok, d, c, rfl⟩ := SplitRecipientToken.exists_of_complete (hc _ _ e)
    exact ⟨sr, tok, d, c, by simp [tokenRow, e]⟩

theorem tokensComplete_credit {st : Store} (hc : TokensComplete st.splitRecipientTokens) :
    TokensComplete (st.credit amountToSplit token x).splitRecipientTokens := by
  intro id row e
  obtain ⟨sr, tok, d, c, hrow⟩ := tokenRow_complete hc x token
  simp only [Store.credit, lookup_insert_eq_if, hrow] at e
  split_ifs at e with h
  · obtain rfl := Option.some.inj e
    simp [SetEntity.Complete, SplitRecipientToken.credit]
  · exact hc id row e

theorem distributeToRecipients_cons {h : Host} {xs : List String}
    (hc : TokensComplete h.store.splitRecipientTokens)
    (hs : ∃ row a, h.store.splitRecipients.lookup x = some row ∧ row.allocation = some a) :
    ∃ s, SetEntity.Complete s
      ∧ distributeToRecipients amountToSplit token h (x :: xs)
        = distributeToRecipients amountToSplit token
            { h with store := h.store.credit amountToSplit token x, sets := h.sets ++ [s] } xs := by
  obtain ⟨sr, a, e, ha⟩ := hs
  obtain ⟨sr', tok, d, c, hrow⟩ := tokenRow_complete hc x token
  have hshare : shareOf h.store.splitRecipients amountToSplit x
      = scaleAmountByPercentage amountToSplit a := by simp [shareOf, e, ha]
  have hload : (h.store.splitRecipientTokens.lookup (joinIds [x, token])).getD
      ⟨some x, some token, some 0, some 0⟩ = ⟨some sr', some tok, some d, some c⟩ := hrow
  refine ⟨.splitRecipientToken (joinIds [x, token])
    ⟨some sr', some tok, some (d + scaleAmountByPercentage amountToSplit a), some c⟩,
    by simp [SetEntity.Complete], ?_⟩
  rw [distributeToRecipients]
  simp only [e, hload, required, ha, bind, Except.bind]
  rw [Host.save_of_complete (by simp [SetEntity.Complete])]
  simp only [Host.put, Store.set, upsert_token, Store.credit, hrow, hshare,
    SplitRecipientToken.credit, Option.getD_some]

end step

/-! ### The whole loop -/

theorem distributed_nil (amountToSplit : ℤ) (token : String) (st : Store) :
    Distributed amountToSplit token st [] st where
  splits := rfl
  recipients := rfl
  splitRecipients := rfl
  history := rfl
  credited := fun _ hx => absurd hx List.not_mem_nil
  other := fun _ _ => rfl

theorem distributed_cons {amountToSplit : ℤ} {token x : String} {xs : List String}
    {st st' : Store}
    (h : Distributed amountToSplit token (st.credit amountToSplit token x) xs st') :
    Distributed amountToSplit token st (x :: xs) st' where
  splits := h.splits
  recipients := h.recipients
  splitRecipients := h.splitRecipients
  history := h.history
  credited := by
    intro y hy
    have hshare : shareOf (st.credit amountToSplit token x).splitRecipients amountToSplit y
        = shareOf st.splitRecipients amountToSplit y := rfl
    by_cases hyx : y = x
    · subst hyx
      have hrow : tokenRow (st.credit amountToSplit token y).splitRecipientTokens y token
          = (tokenRow st.splitRecipientTokens y token).credit
              (shareOf st.splitRecipients amountToSplit y) := by
        simp [tokenRow, Store.credit]
      by_cases hmem : y ∈ xs
      · -- visited again later: the later visits add to what this one left
        rw [h.credited y hmem, hshare, hrow, SplitRecipientToken.credit_credit,
          List.count_cons_self]
        push_cast
        ring_nf
      · have hout : joinIds [y, token] ∉ xs.map fun x => joinIds [x, token] := by
          rintro hm
          obtain ⟨z, hz, e⟩ := List.mem_map.mp hm
          exact hmem (joinIds_pair_inj.mp e ▸ hz)
        rw [h.other _ hout, List.count_cons_self, List.count_eq_zero_of_not_mem hmem]
        simp [Store.credit]
    · have hmem : y ∈ xs := (List.mem_cons.mp hy).resolve_left hyx
      have hne : joinIds [y, token] ≠ joinIds [x, token] := fun e => hyx (joinIds_pair_inj.mp e)
      have hrow : tokenRow (st.credit amountToSplit token x).splitRecipientTokens y token
          = tokenRow st.splitRecipientTokens y token := by
        simp [tokenRow, Store.credit, hne]
      rw [h.credited y hmem, hshare, hrow, List.count_cons_of_ne (Ne.symm hyx)]
  other := by
    intro id hid
    rw [List.map_cons, List.mem_cons, not_or] at hid
    rw [h.other id hid.2]
    simp [Store.credit, hid.1]

/-- **The loop of `handleDistribution`** when all listed split recipients are
stored; no warning is logged. -/
theorem distribute_loop (amountToSplit : ℤ) (token : String) (ids : List String) {h : Host}
    (hc : TokensComplete h.store.splitRecipientTokens)
    (hs : RecipientsStored h.store.splitRecipients ids) :
    ∃ st' saves, distributeToRecipients amountToSplit token h ids
        = .ok { h with store := st', sets := h.sets ++ saves }
      ∧ (∀ x ∈ saves, SetEntity.Complete x) ∧ Distributed amountToSplit token h.store ids st' := by
  induction ids generalizing h with
  | nil => exact ⟨h.store, [], by simp [distributeToRecipients], by simp,
      distributed_nil amountToSplit token h.store⟩
  | cons x xs ih =>
    obtain ⟨s, hcomplete, hstep⟩ := distributeToRecipients_cons hc (hs x List.mem_cons_self)
    have hs' : RecipientsStored h.store.splitRecipients xs :=
      fun y hy => hs y (List.mem_cons_of_mem _ hy)
    obtain ⟨st', saves, hrun, hsaves, hd⟩ := ih (h := { h with
      store := h.store.credit amountToSplit token x, sets := h.sets ++ [s] })
      (tokensComplete_credit hc) hs'
    refine ⟨st', s :: saves, ?_, ?_, distributed_cons hd⟩
    · rw [hstep, hrun]
      simp only [List.append_assoc, List.singleton_append]
    · intro y hy
      rcases List.mem_cons.mp hy with rfl | hy
      · exact hcomplete
      · exact hsaves y hy

/-! ### The handler -/

theorem handleDistribution_missing {h : Host} {splitAddress tokenAddress : String} {amount : ℤ}
    (e : h.store.splits.lookup splitAddress = none) :
    handleDistribution h splitAddress amount tokenAddress
      = .ok (h.warn ("handleDistributeETH, no split found: " ++ splitAddress)) := by
  simp only [handleDistribution, e]

/-- Distributing from a split whose fee was never set aborts. -/
theorem handleDistribution_unset {h : Host} {splitAddress tokenAddress : String} {amount : ℤ}
    {split : Split} (e : h.store.splits.lookup splitAddress = some split)
    (hfee : split.distributorFee = none) :
    handleDistribution h splitAddress amount tokenAddress
      = .error (.unsetField "Split" splitAddress "distributorFee") := by
  simp only [handleDistribution, e, hfee, required, bind, Except.bind]

/-- The amount left for the recipients once the distributor is paid. -/
def amountAfterFee (amount fee : ℤ) : ℤ := amount - scaleAmountByPercentage amount fee

/-- **What `handleDistribution` does** for a split with fee `fee` and recipients
`ids`. -/
theorem handleDistribution_spec {h : Host} {splitAddress : String} {fee : ℤ}
    {ids : List String} (amount : ℤ) (tokenAddress : String)
    (e : h.store.splits.lookup splitAddress = some ⟨some fee, some ids⟩)
    (hc : TokensComplete h.store.splitRecipientTokens)
    (hs : RecipientsStored h.store.splitRecipients ids) :
    ∃ st' saves, handleDistribution h splitAddress amount tokenAddress
        = .ok { h with store := st', sets := h.sets ++ saves }
      ∧ (∀ x ∈ saves, SetEntity.Complete x)
      ∧ Distributed (amountAfterFee amount fee) tokenAddress h.store ids st' := by
  obtain ⟨st', saves, hrun, hsaves, hd⟩ :=
    distribute_loop (amountAfterFee amount fee) tokenAddress ids hc hs
  refine ⟨st', saves, ?_, hsaves, hd⟩
  rw [← hrun]
  simp only [handleDistribution, e, required, bind, Except.bind, amountAfterFee]

end SplitsSubgraph
