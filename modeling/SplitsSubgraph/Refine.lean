/-
SplitsSubgraph/Refine.lean

The store as an encoding of the ledger.

`Refines st L` says that the five tables of the store are exactly the five parts
of the ledger, written down under their ids: every row is the encoding of a ledger
fact, and every ledger fact has its row.  So a store is determined by the ledger
it refines (`Refines.store_eq`), and what the loops of the handlers ask of a store
(complete token rows, complete recipient rows, stored split recipients) holds of
every store that refines a valid ledger.
-/
import SplitsSubgraph.Distribute
import SplitsSubgraph.Create
import SplitsSubgraph.Ledger

namespace SplitsSubgraph

open KeyedTable Sweep

/-! ### Triggers as ledger actions -/

/-- The tokens a withdrawal covers; the zero address stands for ETH. -/
def Withdrawal.covered (event : Withdrawal) : List Address :=
  event.tokens ++ if event.ethAmount > 0 then [zeroAddress] else []

theorem withdrawalTokens_eq (event : Withdrawal) :
    withdrawalTokens event = event.covered.map Address.toHex := by
  unfold withdrawalTokens Withdrawal.covered
  split_ifs <;> simp [toHex_zeroAddress]

/-- The log position of an event: transaction hash and log index. -/
abbrev LogId := Bytes × ℤ

def Trigger.action : Trigger → Action Address LogId
  | .createSplit e => .announce e.split
  | .createSplitCall c => .create c.split c.distributorFee c.accounts c.percentAllocations
  | .distributeETH e => .distribute e.split zeroAddress e.amount
  | .distributeERC20 e => .distribute e.split e.token e.amount
  | .withdrawal e => .withdraw (e.transactionHash, e.logIndex) e.account e.covered e.timestamp

theorem Trigger.eq_of_action_announce {trigger : Trigger} {s : Address}
    (h : trigger.action = .announce s) : trigger = .createSplit ⟨s⟩ := by
  cases trigger with
  | createSplit event =>
    obtain rfl := Action.announce.inj h
    rfl
  | createSplitCall call => cases h
  | distributeETH event => cases h
  | distributeERC20 event => cases h
  | withdrawal event => cases h

theorem Trigger.eq_of_action_create {trigger : Trigger} {s : Address} {fee : ℤ}
    {accounts : List Address} {allocations : List ℤ}
    (h : trigger.action = .create s fee accounts allocations) :
    trigger = .createSplitCall ⟨accounts, allocations, fee, s⟩ := by
  cases trigger with
  | createSplitCall call =>
    obtain ⟨rfl, rfl, rfl, rfl⟩ := Action.create.inj h
    rfl
  | createSplit event => cases h
  | distributeETH event => cases h
  | distributeERC20 event => cases h
  | withdrawal event => cases h

/-- What a distribution of `amount` credits to an allocation, after the fee. -/
def creditOf (fee allocation amount : ℤ) : ℤ :=
  scaleAmountByPercentage (amountAfterFee amount fee) allocation

/-- Whether a row that lacks required fields stays in the store. -/
def SaveMode.keepsPartial : SaveMode → Bool
  | .plain => true
  | .validated => false

/-! ### The encoding -/

def encodeSplit (s : Address) (x : Option ℤ × List Address) : Split :=
  ⟨x.1, some (x.2.map (splitRecipientId s))⟩

def encodeRecipient (r : Address) (ss : List Address) : Recipient :=
  ⟨some (ss.map fun s => splitRecipientId s r)⟩

def encodeJoin (s r : Address) (a : ℤ) : SplitRecipient :=
  ⟨some s.toHex, some r.toHex, some a⟩

def encodeBalance (s r t : Address) (b : Balance) : SplitRecipientToken :=
  ⟨some (splitRecipientId s r), some t.toHex, some b.distributed, some b.claimed⟩

def encodeEntry (h : LogId) (r : Address) (e : Entry Address) : SplitRecipientWithdrawEvent :=
  ⟨some e.split.toHex, some r.toHex, some e.token.toHex, some e.value, some e.timestamp,
    some (Bytes.toHex h.1)⟩

def joinKey (p : Address × Address) : String := splitRecipientId p.1 p.2

def balanceKey (p : Address × Address × Address) : String :=
  splitRecipientTokenId p.1 p.2.1 p.2.2

def entryKey (p : LogId × Address) : String := withdrawalEventId p.1.1 p.1.2 p.2

theorem entryKey_injective : Function.Injective entryKey := by
  rintro ⟨⟨tx, log⟩, r⟩ ⟨⟨tx', log'⟩, r'⟩ h
  simpa [entryKey, and_assoc] using h

/-- The store is the ledger written down. -/
structure Refines (st : Store) (L : Ledger Address LogId) : Prop where
  splits : Represents Address.toHex st.splits fun s => (L.splits s).map (encodeSplit s)
  recipients : Represents Address.toHex st.recipients
    fun r => (L.memberships r).map (encodeRecipient r)
  splitRecipients : Represents joinKey st.splitRecipients
    fun p => (L.allocations p.1 p.2).map (encodeJoin p.1 p.2)
  tokens : Represents balanceKey st.splitRecipientTokens
    fun p => (L.balances p.1 p.2.1 p.2.2).map (encodeBalance p.1 p.2.1 p.2.2)
  history : Represents entryKey st.splitRecipientWithdrawEvents
    fun p => (L.history p.1 p.2).map (encodeEntry p.1 p.2)

namespace Refines

variable {st st' : Store} {L : Ledger Address LogId}

theorem empty : Refines Store.empty Ledger.empty where
  splits := Represents.empty
  recipients := Represents.empty
  splitRecipients := Represents.empty
  tokens := Represents.empty
  history := Represents.empty

/-- **A store is determined by its ledger.** -/
theorem store_eq (h : Refines st L) (h' : Refines st' L) : st = st' :=
  Store.ext (h.splits.table_eq h'.splits) (h.recipients.table_eq h'.recipients)
    (h.splitRecipients.table_eq h'.splitRecipients) (h.tokens.table_eq h'.tokens)
    (h.history.table_eq h'.history)

/-! ### Reading rows -/

theorem lookup_split (h : Refines st L) (s : Address) :
    st.splits.lookup s.toHex = (L.splits s).map (encodeSplit s) := h.splits.lookup s

theorem lookup_recipient (h : Refines st L) (r : Address) :
    st.recipients.lookup r.toHex = (L.memberships r).map (encodeRecipient r) :=
  h.recipients.lookup r

theorem lookup_splitRecipient (h : Refines st L) (s r : Address) :
    st.splitRecipients.lookup (splitRecipientId s r)
      = (L.allocations s r).map (encodeJoin s r) := h.splitRecipients.lookup (s, r)

theorem lookup_token (h : Refines st L) (s r t : Address) :
    st.splitRecipientTokens.lookup (splitRecipientTokenId s r t)
      = (L.balances s r t).map (encodeBalance s r t) := h.tokens.lookup (s, r, t)

theorem lookup_entry (h : Refines st L) (tx : Bytes) (log : ℤ) (r : Address) :
    st.splitRecipientWithdrawEvents.lookup (withdrawalEventId tx log r)
      = (L.history (tx, log) r).map (encodeEntry (tx, log) r) := h.history.lookup ((tx, log), r)

/-- The ids that a recipient row lists are those of the splits that the account is a
member of. -/
theorem exists_member (h : Refines st L) {r : Address} {row : Recipient} {ids : List String}
    {x : String} (e : st.recipients.lookup r.toHex = some row) (hids : row.splits = some ids)
    (hx : x ∈ ids) :
    ∃ ss s, L.memberships r = some ss ∧ s ∈ ss ∧ x = splitRecipientId s r := by
  rw [h.lookup_recipient] at e
  obtain ⟨ss, em, rfl⟩ := Option.map_eq_some_iff.mp e
  obtain rfl := Option.some.inj hids
  obtain ⟨s, hs, rfl⟩ := List.mem_map.mp hx
  exact ⟨ss, s, em, hs, rfl⟩

/-- Whoever has a balance with a split lists it. -/
theorem exists_listed (h : Refines st L) (hv : L.Valid) {s r t : Address} {b : Balance}
    (eb : L.balances s r t = some b) :
    ∃ row ids, st.recipients.lookup r.toHex = some row ∧ row.splits = some ids
      ∧ splitRecipientId s r ∈ ids := by
  obtain ⟨ss, em, hs⟩ := hv.member.mp (hv.credited (by rw [eb]; rfl))
  refine ⟨encodeRecipient r ss, _, ?_, rfl, List.mem_map_of_mem hs⟩
  rw [h.lookup_recipient, em, Option.map_some]

theorem tokensComplete (h : Refines st L) : TokensComplete st.splitRecipientTokens := by
  intro id row e
  obtain ⟨⟨s, r, t⟩, b, rfl, -, rfl⟩ := h.tokens.exists_of_lookup e
  simp [SetEntity.Complete, encodeBalance]

theorem recipientsComplete (h : Refines st L) : RecipientsComplete st.recipients := by
  intro id row e
  obtain ⟨r, ss, rfl, -, rfl⟩ := h.recipients.exists_of_lookup e
  rfl

theorem splitsOf_eq (h : Refines st L) (r : Address) :
    splitsOf st.recipients r
      = ((L.memberships r).getD []).map fun s => splitRecipientId s r := by
  rw [splitsOf, h.lookup_recipient]
  cases L.memberships r <;> rfl

theorem recipientsStored (h : Refines st L) (hv : L.Valid) {s : Address} {f : Option ℤ}
    {rs : List Address} (e : L.splits s = some (f, rs)) :
    RecipientsStored st.splitRecipients (rs.map (splitRecipientId s)) := by
  intro x hx
  obtain ⟨r, hr, rfl⟩ := List.mem_map.mp hx
  obtain ⟨a, ha⟩ := Option.isSome_iff_exists.mp (hv.listed e hr)
  exact ⟨encodeJoin s r a, a, by rw [h.lookup_splitRecipient, ha]; rfl, rfl⟩

end Refines

end SplitsSubgraph
