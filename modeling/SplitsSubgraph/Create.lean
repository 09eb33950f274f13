/-
SplitsSubgraph/Create.lean

What `handleCreateSplit` and `handleCreateSplitCall` do to a store whose
recipient rows are complete.

The loop of the call handler appends the new split recipient id to the `splits`
of each account's recipient row and writes the split recipient row; when an
account is listed twice its id is appended twice and the later allocation stays
(`create_loop`).  The split row is written last, with the fee and the list of
ids.  A call with fewer allocations than accounts runs past the end of the
allocations and is aborted.
-/
import SplitsSubgraph.Mapping
import SplitsSubgraph.Validation

namespace SplitsSubgraph

open KeyedTable

/-! ### Helpers -/

/-- Every stored recipient row has its list of splits. -/
def RecipientsComplete (t : Table String Recipient) : Prop :=
  ∀ id row, t.lookup id = some row → row.splits.isSome

/-- The `splits` of a recipient, empty when it has no row. -/
def splitsOf (t : Table String Recipient) (r : Address) : List String :=
  ((t.lookup r.toHex).bind Recipient.splits).getD []

theorem upsert_recipient (t : Table String Recipient) (id : String) (l : List String) :
    upsert Recipient.merge t id ⟨some l⟩ = t.insert id ⟨some l⟩ :=
  upsert_of_absorbs fun _ => rfl

theorem upsert_splitRecipient (t : Table String SplitRecipient) (id s r : String) (a : ℤ) :
    upsert SplitRecipient.merge t id ⟨some s, some r, some a⟩
      = t.insert id ⟨some s, some r, some a⟩ :=
  upsert_of_absorbs fun _ => rfl

theorem upsert_split (t : Table String Split) (id : String) (fee : ℤ) (l : List String) :
    upsert Split.merge t id ⟨some fee, some l⟩ = t.insert id ⟨some fee, some l⟩ :=
  upsert_of_absorbs fun _ => rfl

/-! ### One account -/

/-- `st'` is what the loop over `accounts` makes of `st`. -/
structure Created (s : Address) (accounts : List Address) (allocations : List ℤ)
    (st st' : Store) : Prop where
  splits : st'.splits = st.splits
  tokens : st'.splitRecipientTokens = st.splitRecipientTokens
  history : st'.splitRecipientWithdrawEvents = st.splitRecipientWithdrawEvents
  recipients : ∀ r ∈ accounts, st'.recipients.lookup r.toHex
    = some ⟨some (splitsOf st.recipients r
        ++ List.replicate (accounts.count r) (splitRecipientId s r))⟩
  recipients_other : ∀ id, id ∉ accounts.map Address.toHex →
    st'.recipients.lookup id = st.recipients.lookup id
  splitRecipients : ∀ r ∈ accounts, st'.splitRecipients.lookup (splitRecipientId s r)
    = some ⟨some s.toHex, some r.toHex, lastAssoc accounts allocations r⟩
  splitRecipients_other : ∀ id, id ∉ accounts.map (splitRecipientId s) →
    st'.splitRecipients.lookup id = st.splitRecipients.lookup id

/-- The store after the loop body for one account. -/
def Store.join (st : Store) (s r : Address) (a : ℤ) : Store :=
  { st with
    recipients := st.recipients.insert r.toHex
      ⟨some (splitsOf st.recipients r ++ [splitRecipientId s r])⟩
    splitRecipients := st.splitRecipients.insert (splitRecipientId s r)
      ⟨some s.toHex, some r.toHex, some a⟩ }

section step

variable {s r : Address} {a : ℤ} {accounts : List Address} {allocations : List ℤ}

theorem recipientsComplete_join {st : Store} (hc : RecipientsComplete st.recipients) :
    RecipientsComplete (st.join s r a).recipients := by
  intro id row e
  simp only [Store.join, lookup_insert_eq_if] at e
  split_ifs at e with h
  · obtain rfl := Option.some.inj e
    rfl
  · exact hc id row e

theorem required_splits {st : Store} (hc : RecipientsComplete st.recipients) (r : Address) :
    required ((st.recipients.lookup r.toHex).getD { splits := some [] }).splits
      "Recipient" r.toHex "splits" = .ok (splitsOf st.recipients r) := by
  rcases e : st.recipients.lookup r.toHex with - | row
  · simp [required, splitsOf, e]
  · obtain ⟨l, hl⟩ := Option.isSome_iff_exists.mp (hc _ _ e)
    simp [required, splitsOf, e, hl]

theorem createSplitRecipients_cons {h : Host} {ids : List String}
    (hc : RecipientsComplete h.store.recipients) :
    ∃ saves, (∀ x ∈ saves, SetEntity.Complete x)
      ∧ createSplitRecipients s.toHex h ids (r :: accounts) (a :: allocations)
        = createSplitRecipients s.toHex
            { h with store := h.store.join s r a, sets := h.sets ++ saves }
            (ids ++ [splitRecipientId s r]) accounts allocations := by
  refine ⟨[.recipient r.toHex ⟨some (splitsOf h.store.recipients r ++ [splitRecipientId s r])⟩]
    ++ [.splitRecipient (splitRecipientId s r) ⟨some s.toHex, some r.toHex, some a⟩],
    by simp [SetEntity.Complete], ?_⟩
  rw [createSplitRecipients]
  simp only [required_splits hc, bind, Except.bind]
  rw [Host.save_of_complete (by simp [SetEntity.Complete])]
  simp only [arrayGet, List.getElem?_cons_zero, List.tail_cons]
  rw [Host.save_of_complete (by simp [SetEntity.Complete])]
  simp only [Host.put, Store.set, upsert_recipient, upsert_splitRecipient, List.append_assoc]
  rfl

/-- Running out of allocations aborts. -/
theorem createSplitRecipients_cons_nil {h : Host} {ids : List String}
    (hc : RecipientsComplete h.store.recipients) :
    createSplitRecipients s.toHex h ids (r :: accounts) [] = .error .indexOutOfRange := by
  rw [createSplitRecipients]
  simp only [required_splits hc, bind, Except.bind]
  rw [Host.save_of_complete (by simp [SetEntity.Complete])]
  simp [arrayGet]

end step

/-! ### The whole loop -/

theorem created_nil (s : Address) (allocations : List ℤ) (st : Store) :
    Created s [] allocations st st where
  splits := rfl
  tokens := rfl
  history := rfl
  recipients := fun _ hr => absurd hr List.not_mem_nil
  recipients_other := fun _ _ => rfl
  splitRecipients := fun _ hr => absurd hr List.not_mem_nil
  splitRecipients_other := fun _ _ => rfl

theorem created_cons {s r : Address} {a : ℤ} {accounts : List Address} {allocations : List ℤ}
    {st st' : Store} (hlen : accounts.length ≤ allocations.length)
    (h : Created s accounts allocations (st.join s r a) st') :
    Created s (r :: accounts) (a :: allocations) st st' where
  splits := h.splits
  tokens := h.tokens
  history := h.history
  recipients := by
    intro q hq
    by_cases hqr : q = r
    · subst hqr
      have hl : splitsOf (st.join s q a).recipients q
          = splitsOf st.recipients q ++ [splitRecipientId s q] := by
        simp [splitsOf, Store.join]
      -- listed again further on: the loop pushes the id once more
      by_cases hmem : q ∈ accounts
      · rw [h.recipients q hmem, hl, List.count_cons_self, List.replicate_succ,
          List.append_assoc, List.singleton_append]
      · have hout : q.toHex ∉ accounts.map Address.toHex := by simpa using hmem
        rw [h.recipients_other _ hout, List.count_cons_self, List.count_eq_zero_of_not_mem hmem]
        simp [Store.join]
    · have hmem : q ∈ accounts := (List.mem_cons.mp hq).resolve_left hqr
      have hl : splitsOf (st.join s r a).recipients q = splitsOf st.recipients q := by
        simp [splitsOf, Store.join, hqr]
      rw [h.recipients q hmem, hl, List.count_cons_of_ne (Ne.symm hqr)]
  recipients_other := by
    intro id hid
    rw [List.map_cons, List.mem_cons, not_or] at hid
    rw [h.recipients_other id hid.2]
    simp [Store.join, hid.1]
  splitRecipients := by
    intro q hq
    -- a later row for the same account overwrites this one
    by_cases hmem : q ∈ accounts
    · obtain ⟨x, hx⟩ := Option.isSome_iff_exists.mp (lastAssoc_isSome hlen hmem)
      rw [h.splitRecipients q hmem, lastAssoc, hx]
      rfl
    · have hqr : q = r := (List.mem_cons.mp hq).resolve_right hmem
      subst hqr
      have hout : splitRecipientId s q ∉ accounts.map (splitRecipientId s) := by
        simpa using hmem
      rw [h.splitRecipients_other _ hout, lastAssoc, lastAssoc_eq_none hmem]
      simp [Store.join]
  splitRecipients_other := by
    intro id hid
    rw [List.map_cons, List.mem_cons, not_or] at hid
    rw [h.splitRecipients_other id hid.2]
    simp [Store.join, hid.1]

/-- **The loop of `handleCreateSplitCall`.** -/
theorem create_loop (s : Address) (accounts : List Address) (ids : List String)
    {allocations : List ℤ} {h : Host} (hc : RecipientsComplete h.store.recipients)
    (hlen : accounts.length ≤ allocations.length) :
    ∃ st' saves, createSplitRecipients s.toHex h ids accounts allocations
        = .ok ({ h with store := st', sets := h.sets ++ saves },
            ids ++ accounts.map (splitRecipientId s))
      ∧ (∀ x ∈ saves, SetEntity.Complete x) ∧ Created s accounts allocations h.store st' := by
  induction accounts generalizing h ids allocations with
  | nil => exact ⟨h.store, [], by simp [createSplitRecipients], by simp,
      created_nil s allocations h.store⟩
  | cons r accounts ih =>
    rcases allocations with - | ⟨a, allocations⟩
    · simp at hlen
    · have hlen' : accounts.length ≤ allocations.length := by simpa using hlen
      obtain ⟨saves, hsaves, hstep⟩ := createSplitRecipients_cons hc
      obtain ⟨st', saves', hrun, hsaves', hst⟩ := ih (ids ++ [splitRecipientId s r])
        (h := { h with store := h.store.join s r a, sets := h.sets ++ saves })
        (recipientsComplete_join hc) hlen'
      refine ⟨st', saves ++ saves', ?_, ?_, created_cons hlen' hst⟩
      · rw [hstep, hrun, List.map_cons]
        simp only [List.append_assoc, List.singleton_append]
      · intro x hx
        exact (List.mem_append.mp hx).elim (hsaves x) (hsaves' x)

theorem create_loop_abort (s : Address) (accounts : List Address) {allocations : List ℤ}
    {h : Host} {ids : List String} (hc : RecipientsComplete h.store.recipients)
    (hlen : allocations.length < accounts.length) :
    createSplitRecipients s.toHex h ids accounts allocations = .error .indexOutOfRange := by
  induction accounts generalizing h ids allocations with
  | nil => simp at hlen
  | cons r accounts ih =>
    rcases allocations with - | ⟨a, allocations⟩
    · exact createSplitRecipients_cons_nil hc
    · obtain ⟨saves, -, hstep⟩ := createSplitRecipients_cons hc
      rw [hstep]
      exact ih (recipientsComplete_join hc) (by simpa using hlen)

/-! ### The handlers -/

/-- A `CreateSplit` of a split that already has a row changes nothing. -/
theorem handleCreateSplit_known {h : Host} {event : CreateSplit} {row : Split}
    (e : h.store.splits.lookup event.split.toHex = some row) :
    handleCreateSplit h event = .ok h := by
  simp only [handleCreateSplit, e]

theorem handleCreateSplit_plain {h : Host} {event : CreateSplit} (hm : h.mode = .plain)
    (e : h.store.splits.lookup event.split.toHex = none) :
    ∃ sets, handleCreateSplit h event
      = .ok { h with
          store := { h.store with
            splits := h.store.splits.insert event.split.toHex ⟨none, some []⟩ }
          sets := sets } := by
  refine ⟨h.sets ++ [.split event.split.toHex ⟨none, some []⟩], ?_⟩
  simp only [handleCreateSplit, e, Host.save_plain hm, Host.put, Store.set, upsert, mergeAt]

/-- **The partial row of a new split is rejected by a validating node.** -/
theorem handleCreateSplit_validated {h : Host} {event : CreateSplit} (hm : h.mode = .validated)
    (e : h.store.splits.lookup event.split.toHex = none) :
    ∃ message, handleCreateSplit h event = .error (.invalidEntity message) := by
  simp only [handleCreateSplit, e]
  apply Host.save_rejected hm
  · simp [SetEntity.Complete]
  · simp [SetEntity.merged, mergeAt, e, SetEntity.Complete]

/-- **What `handleCreateSplitCall` does** when no account lacks an allocation. -/
theorem handleCreateSplitCall_spec {h : Host} {call : CreateSplitCall}
    (hc : RecipientsComplete h.store.recipients)
    (hlen : call.accounts.length ≤ call.percentAllocations.length) :
    ∃ mid saves, handleCreateSplitCall h call
        = .ok { h with
            store := { mid with
              splits := h.store.splits.insert call.split.toHex
                ⟨some call.distributorFee,
                  some (call.accounts.map (splitRecipientId call.split))⟩ }
            sets := h.sets ++ saves }
      ∧ (∀ x ∈ saves, SetEntity.Complete x)
      ∧ Created call.split call.accounts call.percentAllocations h.store mid := by
  obtain ⟨mid, saves, hrun, hsaves, hst⟩ := create_loop call.split call.accounts [] hc hlen
  refine ⟨mid, saves ++ [.split call.split.toHex ⟨some call.distributorFee,
    some (call.accounts.map (splitRecipientId call.split))⟩], ?_, ?_, hst⟩
  · simp only [handleCreateSplitCall, hrun, bind, Except.bind, List.nil_append]
    rw [Host.save_of_complete (by simp [SetEntity.Complete])]
    simp only [Host.put, Store.set, upsert_split, hst.splits, List.append_assoc]
  · intro x hx
    rcases List.mem_append.mp hx with hx | hx
    · exact hsaves x hx
    · obtain rfl := List.mem_singleton.mp hx
      simp [SetEntity.Complete]

theorem handleCreateSplitCall_abort {h : Host} {call : CreateSplitCall}
    (hc : RecipientsComplete h.store.recipients)
    (hlen : call.percentAllocations.length < call.accounts.length) :
    handleCreateSplitCall h call = .error .indexOutOfRange := by
  simp only [handleCreateSplitCall, create_loop_abort call.split call.accounts hc hlen, bind,
    Except.bind]

end SplitsSubgraph
