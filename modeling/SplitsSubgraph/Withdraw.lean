/-
SplitsSubgraph/Withdraw.lean

What `handleWithdrawal` does to a store whose token rows are complete, reachable
or not.

The nested loop visits the pairs (split recipient id, token) in order; a pair
acts when its token row is stored and its totals differ, and acting makes them
equal.  So the pairs that act are the first visits of the outstanding token rows
(`settlements`), and the whole effect of the loop is read off that list
(`settle_loop`):

* every token row the loop names ends with `totalClaimed = totalDistributed`, and
  nothing else of the token table changes;
* each pair that acts saves its token row and then a history row, and all these
  history rows have one and the same id, so that only the last one stays.
-/
import SplitsSubgraph.Mapping
import SplitsSubgraph.Validation
import SplitsSubgraph.Lib.Sweep

namespace SplitsSubgraph

open KeyedTable Sweep

/-! ### Complete token rows -/

/-- Every stored token row has all its fields. -/
def TokensComplete (t : Table String SplitRecipientToken) : Prop :=
  ∀ id row, t.lookup id = some row → (SetEntity.splitRecipientToken id row).Complete

theorem SplitRecipientToken.exists_of_complete {id : String} {row : SplitRecipientToken}
    (h : (SetEntity.splitRecipientToken id row).Complete) :
    ∃ sr t d c, row = ⟨some sr, some t, some d, some c⟩ := by
  rcases row with ⟨sr, t, d, c⟩
  simp only [SetEntity.Complete, Option.isSome_iff_exists] at h
  obtain ⟨⟨sr, rfl⟩, ⟨t, rfl⟩, ⟨d, rfl⟩, ⟨c, rfl⟩⟩ := h
  exact ⟨sr, t, d, c, rfl⟩

/-- A complete token row overrides whatever was stored. -/
theorem upsert_token (t : Table String SplitRecipientToken) (id sr token : String)
    (d c : ℤ) :
    upsert SplitRecipientToken.merge t id ⟨some sr, some token, some d, some c⟩
      = t.insert id ⟨some sr, some token, some d, some c⟩ :=
  upsert_of_absorbs fun _ => rfl

/-- The row with everything distributed also claimed. -/
def SplitRecipientToken.settled (row : SplitRecipientToken) : SplitRecipientToken :=
  { row with totalClaimed := row.totalDistributed }

/-- What a withdrawal would still pay out of the row. -/
def SplitRecipientToken.unclaimed (row : SplitRecipientToken) : ℤ :=
  row.totalDistributed.getD 0 - row.totalClaimed.getD 0

/-- The token row `id` is stored and its totals differ. -/
def outstanding (t : Table String SplitRecipientToken) (id : String) : Bool :=
  match t.lookup id with
  | some row => decide (row.unclaimed ≠ 0)
  | none => false

theorem outstanding_iff {t : Table String SplitRecipientToken} {id : String} :
    outstanding t id = true ↔ ∃ row, t.lookup id = some row ∧ row.unclaimed ≠ 0 := by
  rcases e : t.lookup id with - | row <;> simp [outstanding, e]

theorem SplitRecipientToken.settled_eq_self {id : String} {row : SplitRecipientToken}
    (h : (SetEntity.splitRecipientToken id row).Complete) (hu : row.unclaimed = 0) :
    row.settled = row := by
  obtain ⟨sr, t, d, c, rfl⟩ := exists_of_complete h
  simp only [unclaimed, Option.getD_some] at hu
  simp only [settled, SplitRecipientToken.mk.injEq, Option.some.injEq, true_and]
  omega

/-- Settling a row that is not outstanding leaves it as it is, stored or not. -/
theorem map_settled_eq_self {t : Table String SplitRecipientToken} (hc : TokensComplete t)
    {id : String} (hn : outstanding t id = false) :
    (t.lookup id).map SplitRecipientToken.settled = t.lookup id := by
  rcases e : t.lookup id with - | row
  · rfl
  · have hu : row.unclaimed = 0 := by simpa [outstanding, e] using hn
    rw [Option.map_some, SplitRecipientToken.settled_eq_self (hc _ _ e) hu]

/-! ### One pair of the nested loop -/

/-- The token row a pair names. -/
def pairId (p : String × String) : String := joinIds [p.1, p.2]

/-- `expandedId[0]`. -/
def splitOfId (id : String) : String := (expandId id).headD ""

theorem arrayGet_expandId (id : String) : arrayGet (expandId id) 0 = .ok (splitOfId id) := by
  have hne : expandId id ≠ [] := by
    simp [expandId, DelimitedText.splitChar, List.splitOn_ne_nil]
  rcases e : expandId id with - | ⟨a, l⟩
  · exact absurd e hne
  · simp [arrayGet, splitOfId, e]

/-- The id of every history row of the event. -/
def Withdrawal.historyId (event : Withdrawal) : String :=
  withdrawalEventId event.transactionHash event.logIndex event.account

/-- The history row a pair saves, given the token row it found. -/
def Withdrawal.historyRow (event : Withdrawal) (p : String × String)
    (row : SplitRecipientToken) : SplitRecipientWithdrawEvent where
  split := some (splitOfId p.1)
  recipient := some event.account.toHex
  tokenAddress := some p.2
  value := some row.unclaimed
  timestamp := some event.timestamp
  transactionHash := some (Bytes.toHex event.transactionHash)

theorem upsert_historyRow (t : Table String SplitRecipientWithdrawEvent) (id : String)
    (event : Withdrawal) (p : String × String) (row : SplitRecipientToken) :
    upsert SplitRecipientWithdrawEvent.merge t id (event.historyRow p row)
      = t.insert id (event.historyRow p row) :=
  upsert_of_absorbs fun _ => rfl

/-- The two saves of a pair that acts. -/
def settleSets (event : Withdrawal) (t : Table String SplitRecipientToken)
    (p : String × String) : List SetEntity :=
  match t.lookup (pairId p) with
  | some row =>
    [ .splitRecipientToken (pairId p) row.settled,
      .splitRecipientWithdrawEvent event.historyId (event.historyRow p row) ]
  | none => []

/-- The store after the saves of a pair that acts. -/
def Store.settle (st : Store) (event : Withdrawal) (p : String × String)
    (row : SplitRecipientToken) : Store :=
  { st with
    splitRecipientTokens := st.splitRecipientTokens.insert (pairId p) row.settled
    splitRecipientWithdrawEvents :=
      st.splitRecipientWithdrawEvents.insert event.historyId (event.historyRow p row) }

/-- A pair whose token row is missing or fully claimed is skipped. -/
theorem settleToken_skip {event : Withdrawal} {h : Host} {p : String × String}
    (hc : TokensComplete h.store.splitRecipientTokens)
    (hn : outstanding h.store.splitRecipientTokens (pairId p) = false) :
    settleToken event h p.1 p.2 = .ok h := by
  rcases e : h.store.splitRecipientTokens.lookup (joinIds [p.1, p.2]) with - | row
  · simp only [settleToken, e]
  · obtain ⟨sr, t, d, c, rfl⟩ := SplitRecipientToken.exists_of_complete (hc _ _ e)
    have hdc : d - c = 0 := by
      by_contra hne
      have hout := outstanding_iff.mpr ⟨_, e, hne⟩
      exact absurd hout (by simpa [pairId] using hn)
    simp only [settleToken, e, required, bind, Except.bind, hdc, if_true]

/-- A pair whose token row is outstanding saves the settled row and a history
row. -/
theorem settleToken_act {event : Withdrawal} {h : Host} {p : String × String}
    {row : SplitRecipientToken} (hc : TokensComplete h.store.splitRecipientTokens)
    (e : h.store.splitRecipientTokens.lookup (pairId p) = some row) (hu : row.unclaimed ≠ 0) :
    settleToken event h p.1 p.2
      = .ok { h with
          store := h.store.settle event p row
          sets := h.sets ++ settleSets event h.store.splitRecipientTokens p } := by
  have hsets : settleSets event h.store.splitRecipientTokens p
      = [ .splitRecipientToken (pairId p) row.settled,
          .splitRecipientWithdrawEvent event.historyId (event.historyRow p row) ] := by
    simp only [settleSets, e]
  rw [hsets]
  obtain ⟨sr, t, d, c, rfl⟩ := SplitRecipientToken.exists_of_complete (hc _ _ e)
  have hdc : ¬ d - c = 0 := by simpa [SplitRecipientToken.unclaimed] using hu
  have e' : h.store.splitRecipientTokens.lookup (joinIds [p.1, p.2])
      = some ⟨some sr, some t, some d, some c⟩ := e
  simp only [settleToken, e', required, bind, Except.bind, hdc, if_false, arrayGet_expandId]
  -- first the token row is saved, then the history row
  rw [Host.save_of_complete (by simp [SetEntity.Complete])]
  simp only []
  rw [Host.save_of_complete (by simp [SetEntity.Complete])]
  simp only [Host.put, Store.set, Store.settle, List.append_assoc, List.cons_append,
    List.nil_append, upsert_token]
  apply congrArg Except.ok
  rw [← upsert_historyRow]
  rfl

/-! ### The whole loop -/

/-- The pairs that act, in order. -/
def settlements (t : Table String SplitRecipientToken) (ps : List (String × String)) :
    List (String × String) :=
  firstVisits pairId (outstanding t) ps

/-- The token row a pair finds. -/
def rowAt (t : Table String SplitRecipientToken) (p : String × String) : SplitRecipientToken :=
  (t.lookup (pairId p)).getD {}

/-- `st'` is what a withdrawal makes of `st` when its loop walks over `ps`. -/
structure Settled (event : Withdrawal) (st : Store) (ps : List (String × String))
    (st' : Store) : Prop where
  splits : st'.splits = st.splits
  recipients : st'.recipients = st.recipients
  splitRecipients : st'.splitRecipients = st.splitRecipients
  tokens : ∀ id, st'.splitRecipientTokens.lookup id =
    if id ∈ ps.map pairId then (st.splitRecipientTokens.lookup id).map SplitRecipientToken.settled
    else st.splitRecipientTokens.lookup id
  history : st'.splitRecipientWithdrawEvents =
    match (settlements st.splitRecipientTokens ps).getLast? with
    | none => st.splitRecipientWithdrawEvents
    | some p => st.splitRecipientWithdrawEvents.insert event.historyId
        (event.historyRow p (rowAt st.splitRecipientTokens p))

section step

variable {event : Withdrawal} {st : Store} {p : String × String} {row : SplitRecipientToken}

theorem tokensComplete_settle (hc : TokensComplete st.splitRecipientTokens)
    (e : st.splitRecipientTokens.lookup (pairId p) = some row) :
    TokensComplete (st.settle event p row).splitRecipientTokens := by
  intro id row' e'
  simp only [Store.settle, lookup_insert_eq_if] at e'
  split_ifs at e' with h
  · obtain ⟨sr, t, d, c, rfl⟩ := SplitRecipientToken.exists_of_complete (hc _ _ e)
    obtain rfl := Option.some.inj e'
    simp [SetEntity.Complete, SplitRecipientToken.settled]
  · exact hc id row' e'

/-- Acting on a pair makes its row, and no other, no longer outstanding. -/
theorem outstanding_settle (hc : TokensComplete st.splitRecipientTokens)
    (e : st.splitRecipientTokens.lookup (pairId p) = some row) :
    outstanding (st.settle event p row).splitRecipientTokens
      = fun k => outstanding st.splitRecipientTokens k && decide (k ≠ pairId p) := by
  funext k
  by_cases h : k = pairId p
  · obtain ⟨sr, t, d, c, rfl⟩ := SplitRecipientToken.exists_of_complete (hc _ _ e)
    simp [outstanding, Store.settle, lookup_insert_eq_if, h, SplitRecipientToken.settled,
      SplitRecipientToken.unclaimed]
  · simp [outstanding, Store.settle, h]

theorem lookup_settle_of_ne {q : String × String} (h : pairId q ≠ pairId p) :
    (st.settle event p row).splitRecipientTokens.lookup (pairId q)
      = st.splitRecipientTokens.lookup (pairId q) := by
  simp [Store.settle, h]

/-- The pairs that act after `p` has acted find the rows they would have found
before. -/
theorem pairId_ne_of_mem_settlements {ps : List (String × String)} {q : String × String}
    (hc : TokensComplete st.splitRecipientTokens)
    (e : st.splitRecipientTokens.lookup (pairId p) = some row)
    (hq : q ∈ settlements (st.settle event p row).splitRecipientTokens ps) :
    pairId q ≠ pairId p := by
  obtain ⟨-, hdue⟩ := mem_of_mem_firstVisits hq
  rw [outstanding_settle hc e] at hdue
  simpa using (Bool.and_eq_true_iff.mp hdue).2

end step

theorem settled_nil (event : Withdrawal) (st : Store) : Settled event st [] st where
  splits := rfl
  recipients := rfl
  splitRecipients := rfl
  tokens := fun id => by simp
  history := by simp [settlements, firstVisits]

theorem settled_cons_skip {event : Withdrawal} {st st' : Store} {p : String × String}
    {ps : List (String × String)} (hc : TokensComplete st.splitRecipientTokens)
    (hn : outstanding st.splitRecipientTokens (pairId p) = false)
    (h : Settled event st ps st') : Settled event st (p :: ps) st' where
  splits := h.splits
  recipients := h.recipients
  splitRecipients := h.splitRecipients
  tokens := by
    intro id
    rw [h.tokens id, List.map_cons]
    by_cases hid : id = pairId p
    · -- the skipped row is already settled
      subst hid
      rw [map_settled_eq_self hc hn, ite_self, ite_self]
    · exact if_congr (by simp [hid]) rfl rfl
  history := by
    rw [h.history, settlements, settlements, firstVisits_cons_not_due hn]

theorem settled_cons_act {event : Withdrawal} {st st' : Store} {p : String × String}
    {row : SplitRecipientToken} {ps : List (String × String)}
    (hc : TokensComplete st.splitRecipientTokens)
    (e : st.splitRecipientTokens.lookup (pairId p) = some row) (hu : row.unclaimed ≠ 0)
    (h : Settled event (st.settle event p row) ps st') : Settled event st (p :: ps) st' where
  splits := h.splits
  recipients := h.recipients
  splitRecipients := h.splitRecipients
  tokens := by
    intro id
    rw [h.tokens id, List.map_cons]
    by_cases hid : id = pairId p
    · -- settling twice is settling once
      subst hid
      simp [Store.settle, e, SplitRecipientToken.settled]
    · have hother : (st.settle event p row).splitRecipientTokens.lookup id
          = st.splitRecipientTokens.lookup id := by simp [Store.settle, hid]
      rw [hother]
      exact if_congr (by simp [hid]) rfl rfl
  history := by
    have hdue : outstanding st.splitRecipientTokens (pairId p) = true :=
      outstanding_iff.mpr ⟨row, e, hu⟩
    have hlist : settlements st.splitRecipientTokens (p :: ps)
        = p :: settlements (st.settle event p row).splitRecipientTokens ps := by
      rw [settlements, firstVisits_cons_due hdue, settlements, outstanding_settle hc e]
    have hp : rowAt st.splitRecipientTokens p = row := by simp [rowAt, e]
    rw [h.history, hlist, List.getLast?_cons]
    rcases elast : (settlements (st.settle event p row).splitRecipientTokens ps).getLast?
      with - | q
    · simp [Store.settle, hp]
    · -- a later pair overwrites the history row of this one
      have hq : rowAt (st.settle event p row).splitRecipientTokens q
          = rowAt st.splitRecipientTokens q := by
        have hne := pairId_ne_of_mem_settlements hc e (List.mem_of_getLast? elast)
        rw [rowAt, rowAt, lookup_settle_of_ne hne]
      simp only [Option.getD_some, hq]
      exact Finmap.insert_insert _

/-- **The loop of `handleWithdrawal`.** -/
theorem settle_loop (event : Withdrawal) (ps : List (String × String)) {h : Host}
    (hc : TokensComplete h.store.splitRecipientTokens) :
    ∃ st', ps.foldlM (fun h p => settleToken event h p.1 p.2) h
        = .ok { h with
            store := st'
            sets := h.sets ++ (settlements h.store.splitRecipientTokens ps).flatMap
              (settleSets event h.store.splitRecipientTokens) }
      ∧ Settled event h.store ps st' := by
  induction ps generalizing h with
  | nil => exact ⟨h.store, by simp [settlements, firstVisits, pure, Except.pure],
      settled_nil event h.store⟩
  | cons p ps ih =>
    rcases hdue : outstanding h.store.splitRecipientTokens (pairId p) with - | -
    · obtain ⟨st', hrun, hst⟩ := ih hc
      refine ⟨st', ?_, settled_cons_skip hc hdue hst⟩
      rw [List.foldlM_cons, settleToken_skip hc hdue]
      simp only [settlements, firstVisits_cons_not_due hdue]
      exact hrun
    · obtain ⟨row, e, hu⟩ := outstanding_iff.mp hdue
      obtain ⟨st', hrun, hst⟩ := ih (h := { h with
        store := h.store.settle event p row
        sets := h.sets ++ settleSets event h.store.splitRecipientTokens p })
        (tokensComplete_settle hc e)
      refine ⟨st', ?_, settled_cons_act hc e hu hst⟩
      rw [List.foldlM_cons, settleToken_act hc e hu]
      apply hrun.trans
      -- the saves of the later pairs do not depend on the row settled first
      have hsets : (settlements (h.store.settle event p row).splitRecipientTokens ps).flatMap
            (settleSets event (h.store.settle event p row).splitRecipientTokens)
          = (settlements (h.store.settle event p row).splitRecipientTokens ps).flatMap
            (settleSets event h.store.splitRecipientTokens) := by
        apply List.flatMap_congr
        intro q hq
        rw [settleSets, settleSets,
          lookup_settle_of_ne (pairId_ne_of_mem_settlements hc e hq)]
      simp only [hsets]
      simp only [settlements, firstVisits_cons_due hdue, outstanding_settle hc e,
        List.flatMap_cons, List.append_assoc]

/-! ### The handler -/

/-- A withdrawal of an account with no recipient row only logs a warning. -/
theorem handleWithdrawal_missing {h : Host} {event : Withdrawal}
    (e : h.store.recipients.lookup event.account.toHex = none) :
    handleWithdrawal h event
      = .ok (h.warn ("handleWithdrawal, missing recipient: " ++ event.account.toHex)) := by
  simp only [handleWithdrawal, e]

/-- **What `handleWithdrawal` does** for an account whose recipient row lists
`ids`. -/
theorem handleWithdrawal_spec {h : Host} {event : Withdrawal} {ids : List String}
    (hc : TokensComplete h.store.splitRecipientTokens)
    (e : h.store.recipients.lookup event.account.toHex = some ⟨some ids⟩) :
    ∃ st', handleWithdrawal h event
        = .ok { h with
            store := st'
            sets := h.sets ++
              (settlements h.store.splitRecipientTokens
                (pairs ids (withdrawalTokens event))).flatMap
                (settleSets event h.store.splitRecipientTokens) }
      ∧ Settled event h.store (pairs ids (withdrawalTokens event)) st' := by
  obtain ⟨st', hrun, hst⟩ := settle_loop event (pairs ids (withdrawalTokens event)) hc
  refine ⟨st', ?_, hst⟩
  rw [← hrun, ← foldlM_foldlM_eq (fun h x t => settleToken event h x t)]
  simp only [handleWithdrawal, e, required, bind, Except.bind]

theorem processTrigger_withdrawal_missing (m : SaveMode) {st : Store} {event : Withdrawal}
    (e : st.recipients.lookup event.account.toHex = none) :
    processTrigger m st (.withdrawal event) = st :=
  processTrigger_of_ok m st (.withdrawal event)
    (handleWithdrawal_missing (h := Host.enter m st) e)

/-- The same, as the node sees it. -/
theorem settled_processTrigger (m : SaveMode) {st : Store} {event : Withdrawal} {ids : List String}
    (hc : TokensComplete st.splitRecipientTokens)
    (e : st.recipients.lookup event.account.toHex = some ⟨some ids⟩) :
    (∃ host, invokeHandler m st (.withdrawal event) = .ok host)
      ∧ Settled event st (pairs ids (withdrawalTokens event))
          (processTrigger m st (.withdrawal event)) := by
  obtain ⟨st', hrun, hst⟩ := handleWithdrawal_spec (h := Host.enter m st) hc e
  rw [processTrigger_of_ok m st (.withdrawal event) hrun]
  exact ⟨⟨_, hrun⟩, hst⟩

end SplitsSubgraph
