/-
SplitsSubgraph/Keys.lean

Composite ids are unambiguous.

`joinIds` and `expandId` are inverse to each other on lists of parts that do not
contain the separator, so a composite id can be read back.  The parts that the
handlers join are hexadecimal texts and a decimal number, which never contain it; so
every id in a reachable store names one split and recipient, one split, recipient
and token, or one log position and account, and the fields of the row say the same
(`Store.KeysUnambiguous`).  In particular `handleWithdrawal` may take the split out
of the id of a split recipient instead of loading its row.
-/
import SplitsSubgraph.Simulate

namespace SplitsSubgraph

open KeyedTable

/-! ### Rows and their ids -/

/-- Each id of a split recipient, of a token row and of a history row was built from one
choice of parts only, which is also what the row's fields say; and of an id listed by
a recipient the first component is the split of the split recipient that has this id. -/
structure Store.KeysUnambiguous (st : Store) : Prop where
  splitRecipients : ∀ id row, st.splitRecipients.lookup id = some row →
    ∃ s r : Address, id = joinIds [s.toHex, r.toHex]
      ∧ row.split = some s.toHex ∧ row.recipient = some r.toHex
      ∧ ∀ s' r' : Address, id = joinIds [s'.toHex, r'.toHex] → s' = s ∧ r' = r
  splitRecipientTokens : ∀ id row, st.splitRecipientTokens.lookup id = some row →
    ∃ s r t : Address, id = joinIds [joinIds [s.toHex, r.toHex], t.toHex]
      ∧ row.splitRecipient = some (joinIds [s.toHex, r.toHex]) ∧ row.tokenAddress = some t.toHex
      ∧ ∀ s' r' t' : Address, id = joinIds [joinIds [s'.toHex, r'.toHex], t'.toHex] →
          s' = s ∧ r' = r ∧ t' = t
  withdrawEvents : ∀ id row, st.splitRecipientWithdrawEvents.lookup id = some row →
    ∃ (tx : Bytes) (log : ℤ) (r : Address),
      id = joinIds [WITHDRAWAL_EVENT_PREFIX, Bytes.toHex tx, bigIntToString log, r.toHex]
      ∧ row.transactionHash = some (Bytes.toHex tx) ∧ row.recipient = some r.toHex
      ∧ ∀ (tx' : Bytes) (log' : ℤ) (r' : Address),
          id = joinIds [WITHDRAWAL_EVENT_PREFIX, Bytes.toHex tx', bigIntToString log', r'.toHex] →
          tx' = tx ∧ log' = log ∧ r' = r
  expandedId : ∀ account recipient ids x, st.recipients.lookup account = some recipient →
    recipient.splits = some ids → x ∈ ids →
    ∃ row s, st.splitRecipients.lookup x = some row ∧ row.split = some s
      ∧ arrayGet (expandId x) 0 = .ok s

/-- Every store that is a ledger written down has unambiguous ids. -/
theorem Refines.keysUnambiguous {st : Store} {L : Ledger Address LogId} (h : Refines st L)
    (hv : L.Valid) : st.KeysUnambiguous where
  splitRecipients := by
    intro id row e
    obtain ⟨⟨s, r⟩, a, rfl, -, rfl⟩ := h.splitRecipients.exists_of_lookup e
    refine ⟨s, r, rfl, rfl, rfl, ?_⟩
    intro s' r' hid
    exact splitRecipientId_inj.mp hid.symm
  splitRecipientTokens := by
    intro id row e
    obtain ⟨⟨s, r, t⟩, b, rfl, -, rfl⟩ := h.tokens.exists_of_lookup e
    refine ⟨s, r, t, rfl, rfl, rfl, ?_⟩
    intro s' r' t' hid
    exact splitRecipientTokenId_inj.mp hid.symm
  withdrawEvents := by
    intro id row e
    obtain ⟨⟨⟨tx, log⟩, r⟩, entry, rfl, -, rfl⟩ := h.history.exists_of_lookup e
    refine ⟨tx, log, r, rfl, rfl, rfl, ?_⟩
    intro tx' log' r' hid
    exact withdrawalEventId_inj.mp hid.symm
  expandedId := by
    intro account recipient ids x e hids hx
    obtain ⟨r, rfl⟩ := h.recipients.key account recipient e
    obtain ⟨ss, s, em, hs, rfl⟩ := h.exists_member e hids hx
    -- the account is a member of the split, so it has an allocation there
    obtain ⟨a, ha⟩ := Option.isSome_iff_exists.mp (hv.member.mpr ⟨ss, em, hs⟩)
    refine ⟨encodeJoin s r a, s.toHex, ?_, rfl, ?_⟩
    · rw [h.lookup_splitRecipient, ha, Option.map_some]
    · rw [expandId_splitRecipientId]
      rfl

/-! ### Main result -/

/-- **Composite ids are unambiguous.**

* Expanding a join of parts that do not contain the separator gives the parts back, and
  joining the parts of any string gives the string back.
* So joining is injective on non-empty lists of such parts, of any two lengths, also when
  non-empty groups of parts are joined first.
* So in every reachable store an id determines the parts it was built from. -/
theorem composite_ids_unambiguous :
    (∀ ids : List String, ids ≠ [] → (∀ i ∈ ids, ':' ∉ i.toList) → expandId (joinIds ids) = ids)
    ∧ (∀ x : String, joinIds (expandId x) = x)
    ∧ (∀ xs ys : List String, xs ≠ [] → ys ≠ [] → (∀ i ∈ xs, ':' ∉ i.toList) →
        (∀ i ∈ ys, ':' ∉ i.toList) → joinIds xs = joinIds ys → xs = ys)
    ∧ (∀ x y z : String, joinIds [joinIds [x, y], z] = joinIds [x, y, z])
    ∧ (∀ groups : List (List String), (∀ g ∈ groups, g ≠ []) →
        joinIds (groups.map joinIds) = joinIds groups.flatten)
    ∧ (∀ groups groups' : List (List String), groups ≠ [] → groups' ≠ [] →
        (∀ g ∈ groups, g ≠ []) → (∀ g ∈ groups', g ≠ []) →
        (∀ i ∈ groups.flatten, ':' ∉ i.toList) → (∀ i ∈ groups'.flatten, ':' ∉ i.toList) →
        joinIds (groups.map joinIds) = joinIds (groups'.map joinIds) →
        groups.flatten = groups'.flatten)
    ∧ ∀ (m : SaveMode) (triggers : List Trigger), (run m triggers).KeysUnambiguous := by
  refine ⟨?_, joinIds_expandId, ?_, joinIds_nest, ?_, ?_, ?_⟩
  · intro ids hne hsep
    exact expandId_joinIds hne hsep
  · intro xs ys hx hy hxs hys h
    exact joinIds_inj hx hy hxs hys h
  · intro groups hne
    exact joinIds_flatten hne
  · intro groups groups' hgs hgs' hne hne' hsep hsep' h
    -- a non-empty list of non-empty groups has a part
    have hparts : ∀ {gs : List (List String)}, gs ≠ [] → (∀ g ∈ gs, g ≠ []) →
        gs.flatten ≠ [] := by
      intro gs hgs hne hnil
      obtain ⟨g, hg⟩ := List.exists_mem_of_ne_nil gs hgs
      exact hne g hg (List.flatten_eq_nil_iff.mp hnil g hg)
    rw [joinIds_flatten hne, joinIds_flatten hne'] at h
    exact joinIds_inj (hparts hgs hne) (hparts hgs' hne') hsep hsep' h
  · intro m triggers
    exact (refines_run m triggers).keysUnambiguous (valid_ledger m triggers)

end SplitsSubgraph
