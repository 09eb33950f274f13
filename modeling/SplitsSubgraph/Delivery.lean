/-
SplitsSubgraph/Delivery.lean

The order in which the node delivers the triggers of a block.

`EthereumTrigger` and its order are those of graph-node's chain/ethereum/src/trigger.rs,
`BlockWithTriggers.new` is the constructor of graph/src/blockchain/block_stream.rs:
sort (stable), then drop repetitions.  A log carries the event it is decoded to and a
call its inputs and output; the receipt that may come with a log, which is the same for
the same log, is left out.

On the other side is the chain: blocks of transactions of SplitMain actions in execution
order.  Other transactions and other logs have indexes too, so the indexes of a block
only have to increase.  Log triggers and call triggers are fetched by separate requests,
and come in whatever order the requests are answered (`Fetched`).  The result does not
depend on it: transaction by transaction, all logs and then all calls (`Fetched.new_eq`).
The comparison itself is not by a key, since two logs are compared by log index alone;
within one block it is.
-/
import SplitsSubgraph.ClosedForm
import SplitsSubgraph.Lib.StableSort

namespace SplitsSubgraph

open StableSort

/-! ### Triggers of a block -/

/-- A decoded log with its place in the block. -/
structure Log where
  transactionHash : Bytes
  transactionIndex : ℕ
  logIndex : ℕ
  event : Trigger
deriving DecidableEq

/-- A decoded call trace with its place in the block. -/
structure EthereumCall where
  transactionHash : Bytes
  transactionIndex : ℕ
  call : CreateSplitCall
deriving DecidableEq

inductive EthereumBlockTriggerType where
  | every
  | withCallTo (address : Address)
deriving DecidableEq

inductive EthereumTrigger where
  | block (number : ℕ) (kind : EthereumBlockTriggerType)
  | call (call : EthereumCall)
  | log (log : Log)
deriving DecidableEq

namespace EthereumTrigger

/-- `PartialEq for EthereumTrigger`. -/
def eq : EthereumTrigger → EthereumTrigger → Bool
  | .block aNumber aKind, .block bNumber bKind => aNumber = bNumber && aKind = bKind
  | .call a, .call b => a = b
  | .log a, .log b => a.transactionHash = b.transactionHash && a.logIndex = b.logIndex
  | _, _ => false

/-- `Ord for EthereumTrigger`. -/
def cmp : EthereumTrigger → EthereumTrigger → Ordering
  -- keep the order when comparing two block triggers
  | .block _ _, .block _ _ => .eq
  -- block triggers always come last
  | .block _ _, _ => .gt
  | _, .block _ _ => .lt
  -- calls are ordered by their transaction indexes
  | .call a, .call b => compare a.transactionIndex b.transactionIndex
  -- events are ordered by their log index
  | .log a, .log b => compare a.logIndex b.logIndex
  -- calls and events by their transaction index, within a transaction events first
  | .call a, .log b =>
    if a.transactionIndex = b.transactionIndex then .gt
    else compare a.transactionIndex b.transactionIndex
  | .log a, .call b =>
    if a.transactionIndex = b.transactionIndex then .lt
    else compare a.transactionIndex b.transactionIndex

def isCall : EthereumTrigger → Bool
  | .call _ => true
  | _ => false

/-- The handler invocation a trigger leads to; subgraph.yaml has no block handlers. -/
def decode : EthereumTrigger → Option Trigger
  | .block _ _ => none
  | .call c => some (.createSplitCall c.call)
  | .log l => some l.event

/-- What the comparison amounts to within a block: transaction, logs before calls,
log index. -/
def key : EthereumTrigger → ℕ ×ₗ ℕ ×ₗ ℕ
  | .log l => toLex (l.transactionIndex, toLex (0, l.logIndex))
  | .call c => toLex (c.transactionIndex, toLex (1, 0))
  | .block number _ => toLex (number, toLex (2, 0))

end EthereumTrigger

/-- The trigger data of a block, ordered and without duplicates. -/
def BlockWithTriggers.new (triggerData : List EthereumTrigger) : List EthereumTrigger :=
  (triggerData.mergeSort fun a b => (a.cmp b).isLE).destutter fun a b => ¬ a.eq b

/-! ### The chain -/

/-- What SplitMain can be made to do.  Each recipient comes with its allocation. -/
inductive SplitMainAction where
  | createSplit (split : Address) (recipients : List (Address × ℤ)) (distributorFee : ℤ)
  | distributeETH (split : Address) (amount : ℤ)
  | distributeERC20 (split token : Address) (amount : ℤ)
  | withdraw (account : Address) (ethAmount : ℤ) (tokens : List Address) (tokenAmounts : List ℤ)
deriving DecidableEq

/-- A transaction: its index in the block, its hash and its actions in execution order,
each with the index of its log in the block. -/
structure Transaction where
  index : ℕ
  hash : Bytes
  actions : List (ℕ × SplitMainAction)
deriving DecidableEq

/-- A block numbers its transactions, and all its logs, in execution order. -/
structure Block where
  timestamp : ℤ
  transactions : List Transaction
  indexes : transactions.Pairwise fun a b => a.index < b.index
  logIndexes : (transactions.flatMap fun tx => tx.actions.map Prod.fst).Pairwise (· < ·)

/-- The event that an action emits. -/
def SplitMainAction.event (timestamp : ℤ) (hash : Bytes) (logIndex : ℕ) :
    SplitMainAction → Trigger
  | .createSplit split _ _ => .createSplit ⟨split⟩
  | .distributeETH split amount => .distributeETH ⟨split, amount⟩
  | .distributeERC20 split token amount => .distributeERC20 ⟨split, token, amount⟩
  | .withdraw account ethAmount tokens tokenAmounts =>
    .withdrawal ⟨account, ethAmount, tokens, tokenAmounts, hash, logIndex, timestamp⟩

/-- The `createSplit` call that an action is. -/
def SplitMainAction.call : SplitMainAction → Option CreateSplitCall
  | .createSplit split recipients distributorFee =>
    some ⟨recipients.map Prod.fst, recipients.map Prod.snd, distributorFee, split⟩
  | _ => none

namespace Transaction

def logs (timestamp : ℤ) (tx : Transaction) : List Log :=
  tx.actions.map fun a => ⟨tx.hash, tx.index, a.1, a.2.event timestamp tx.hash a.1⟩

def calls (tx : Transaction) : List EthereumCall :=
  tx.actions.filterMap fun a => a.2.call.map fun call => ⟨tx.hash, tx.index, call⟩

/-- The logs of the transaction, then its calls. -/
def delivery (timestamp : ℤ) (tx : Transaction) : List EthereumTrigger :=
  (tx.logs timestamp).map .log ++ tx.calls.map .call

end Transaction

namespace Block

def logs (b : Block) : List EthereumTrigger :=
  b.transactions.flatMap fun tx => (tx.logs b.timestamp).map .log

def calls (b : Block) : List EthereumTrigger :=
  b.transactions.flatMap fun tx => tx.calls.map .call

/-- Transaction by transaction, the logs and then the calls. -/
def delivery (b : Block) : List EthereumTrigger :=
  b.transactions.flatMap fun tx => tx.delivery b.timestamp

end Block

/-- All logs and calls of the block in some order, in which the calls are as the trace
has them. -/
structure Fetched (b : Block) (l : List EthereumTrigger) : Prop where
  perm : l.Perm (b.logs ++ b.calls)
  calls : l.filter EthereumTrigger.isCall = b.calls

/-! ### Sorting a block -/

/-- The log is earlier in its block. -/
def Log.Before (x y : Log) : Prop :=
  x.transactionIndex ≤ y.transactionIndex ∧ x.logIndex < y.logIndex

namespace Block

variable {b : Block}

theorem perm_delivery (b : Block) : (b.logs ++ b.calls).Perm b.delivery :=
  List.flatMap_append_perm _ _ _

theorem filter_isCall_delivery (b : Block) :
    b.delivery.filter EthereumTrigger.isCall = b.calls := by
  rw [delivery, List.filter_flatMap, calls]
  apply congrArg (List.flatMap · b.transactions)
  funext tx
  rw [Transaction.delivery, List.filter_append, List.filter_eq_nil_iff.mpr, List.nil_append,
    List.filter_eq_self.mpr]
  · intro x hx
    obtain ⟨c, -, rfl⟩ := List.mem_map.mp hx
    rfl
  · intro x hx
    obtain ⟨l, -, rfl⟩ := List.mem_map.mp hx
    simp [EthereumTrigger.isCall]

theorem pairwise_before (b : Block) :
    (b.transactions.flatMap (Transaction.logs b.timestamp)).Pairwise Log.Before := by
  obtain ⟨hwithin, hacross⟩ := List.pairwise_flatMap.mp b.logIndexes
  rw [List.pairwise_flatMap]
  constructor
  · intro tx htx
    rw [Transaction.logs, List.pairwise_map]
    exact (List.pairwise_map.mp (hwithin tx htx)).imp fun h => ⟨le_rfl, h⟩
  · refine b.indexes.imp₂ (fun tx tx' hindex hlog => ?_) hacross
    intro x hx y hy
    obtain ⟨a, ha, rfl⟩ := List.mem_map.mp hx
    obtain ⟨a', ha', rfl⟩ := List.mem_map.mp hy
    exact ⟨hindex.le, hlog a.1 (List.mem_map_of_mem ha) a'.1 (List.mem_map_of_mem ha')⟩

theorem mem_logs {x : EthereumTrigger} :
    x ∈ b.logs ↔ ∃ l ∈ b.transactions.flatMap (Transaction.logs b.timestamp), x = .log l := by
  simp only [logs, List.mem_flatMap, List.mem_map]
  constructor
  · rintro ⟨tx, htx, l, hl, rfl⟩
    exact ⟨l, ⟨tx, htx, hl⟩, rfl⟩
  · rintro ⟨l, ⟨tx, htx, hl⟩, rfl⟩
    exact ⟨tx, htx, l, hl, rfl⟩

theorem mem_calls {x : EthereumTrigger} (hx : x ∈ b.calls) : ∃ c, x = .call c := by
  obtain ⟨tx, -, hx⟩ := List.mem_flatMap.mp hx
  obtain ⟨c, -, rfl⟩ := List.mem_map.mp hx
  exact ⟨c, rfl⟩

/-- Of two different logs of a block one comes first. -/
theorem logs_trichotomy {x y : Log} (hx : .log x ∈ b.logs) (hy : .log y ∈ b.logs) :
    x = y ∨ x.Before y ∨ y.Before x := by
  obtain ⟨_, hx, e⟩ := mem_logs.mp hx
  obtain ⟨_, hy, e'⟩ := mem_logs.mp hy
  obtain rfl := EthereumTrigger.log.inj e
  obtain rfl := EthereumTrigger.log.inj e'
  have hall := List.Pairwise.forall_of_forall_of_flip
    (R := fun u v : Log => u = v ∨ u.Before v ∨ v.Before u) (fun u _ => Or.inl rfl)
    (b.pairwise_before.imp fun h => Or.inr (Or.inl h))
    (b.pairwise_before.imp fun h => Or.inr (Or.inr h))
  exact hall hx hy

/-- Within a block the comparison is by key. -/
theorem cmp_eq_keyLe {x y : EthereumTrigger} (hx : x ∈ b.logs ++ b.calls)
    (hy : y ∈ b.logs ++ b.calls) :
    (x.cmp y).isLE = keyLe EthereumTrigger.key x y := by
  rw [Bool.eq_iff_iff]
  rcases List.mem_append.mp hx with hx | hx
  · obtain ⟨lx, -, rfl⟩ := mem_logs.mp hx
    rcases List.mem_append.mp hy with hy | hy
    · obtain ⟨ly, -, rfl⟩ := mem_logs.mp hy
      simp only [EthereumTrigger.cmp, EthereumTrigger.key, keyLe, Nat.isLE_compare,
        Prod.Lex.toLex_le_toLex, decide_eq_true_eq, lt_irrefl, false_or, true_and]
      -- comparing log indexes alone also compares transactions
      rcases logs_trichotomy hx hy with rfl | h | h
      · simp
      · have h' : lx.transactionIndex ≤ ly.transactionIndex ∧ lx.logIndex < ly.logIndex := h
        omega
      · have h' : ly.transactionIndex ≤ lx.transactionIndex ∧ ly.logIndex < lx.logIndex := h
        omega
    · obtain ⟨cy, rfl⟩ := mem_calls hy
      simp only [EthereumTrigger.cmp, EthereumTrigger.key, keyLe,
        Prod.Lex.toLex_le_toLex, decide_eq_true_eq]
      split_ifs with h
      · simp [h]
      · rw [Nat.isLE_compare]
        omega
  · obtain ⟨cx, rfl⟩ := mem_calls hx
    rcases List.mem_append.mp hy with hy | hy
    · obtain ⟨ly, -, rfl⟩ := mem_logs.mp hy
      simp only [EthereumTrigger.cmp, EthereumTrigger.key, keyLe,
        Prod.Lex.toLex_le_toLex, decide_eq_true_eq]
      split_ifs with h
      · simp [h]
      · rw [Nat.isLE_compare]
        omega
    · obtain ⟨cy, rfl⟩ := mem_calls hy
      simp only [EthereumTrigger.cmp, EthereumTrigger.key, keyLe, Nat.isLE_compare,
        Prod.Lex.toLex_le_toLex, decide_eq_true_eq, le_refl, and_true]
      omega

end Block

theorem Transaction.key_log {timestamp : ℤ} {tx : Transaction} {l : Log}
    (h : l ∈ tx.logs timestamp) :
    (EthereumTrigger.log l).key = toLex (tx.index, toLex (0, l.logIndex)) := by
  obtain ⟨a, -, rfl⟩ := List.mem_map.mp h
  rfl

theorem Transaction.key_call {tx : Transaction} {c : EthereumCall} (h : c ∈ tx.calls) :
    (EthereumTrigger.call c).key = toLex (tx.index, toLex (1, 0)) := by
  obtain ⟨a, -, e⟩ := List.mem_filterMap.mp h
  obtain ⟨call, -, rfl⟩ := Option.map_eq_some_iff.mp e
  rfl

/-- The delivery of a transaction is sorted, if its log indexes increase. -/
theorem Transaction.pairwise_key_delivery {timestamp : ℤ} {tx : Transaction}
    (h : (tx.logs timestamp).Pairwise Log.Before) :
    (tx.delivery timestamp).Pairwise fun x y => x.key ≤ y.key := by
  rw [Transaction.delivery, List.pairwise_append, List.pairwise_map, List.pairwise_map]
  refine ⟨?_, ?_, ?_⟩
  · refine List.Pairwise.imp_of_mem (fun {x y} hx hy hbefore => ?_) h
    rw [key_log hx, key_log hy, Prod.Lex.toLex_le_toLex, Prod.Lex.toLex_le_toLex]
    exact Or.inr ⟨rfl, Or.inr ⟨rfl, hbefore.2.le⟩⟩
  · -- calls of one transaction are ties
    apply List.pairwise_of_forall_mem_list
    intro x hx y hy
    rw [key_call hx, key_call hy]
  · intro x hx y hy
    obtain ⟨l, hl, rfl⟩ := List.mem_map.mp hx
    obtain ⟨c, hc, rfl⟩ := List.mem_map.mp hy
    rw [key_log hl, key_call hc, Prod.Lex.toLex_le_toLex, Prod.Lex.toLex_le_toLex]
    exact Or.inr ⟨rfl, Or.inl zero_lt_one⟩

/-- Everything in the delivery of a transaction is filed under its index. -/
theorem Transaction.exists_key {timestamp : ℤ} {tx : Transaction} {x : EthereumTrigger}
    (h : x ∈ tx.delivery timestamp) : ∃ p : ℕ ×ₗ ℕ, x.key = toLex (tx.index, p) := by
  rcases List.mem_append.mp h with h | h
  · obtain ⟨l, hl, rfl⟩ := List.mem_map.mp h
    exact ⟨_, key_log hl⟩
  · obtain ⟨c, hc, rfl⟩ := List.mem_map.mp h
    exact ⟨_, key_call hc⟩

/-- The delivery of a block is sorted. -/
theorem Block.pairwise_key_delivery (b : Block) :
    b.delivery.Pairwise fun x y => x.key ≤ y.key := by
  rw [Block.delivery, List.pairwise_flatMap]
  constructor
  · intro tx htx
    apply Transaction.pairwise_key_delivery
    exact (List.pairwise_flatMap.mp b.pairwise_before).1 tx htx
  · refine b.indexes.imp fun {tx tx'} hindex => ?_
    intro x hx y hy
    obtain ⟨p, ex⟩ := Transaction.exists_key hx
    obtain ⟨q, ey⟩ := Transaction.exists_key hy
    rw [ex, ey, Prod.Lex.toLex_le_toLex]
    exact Or.inl hindex

namespace Fetched

variable {b : Block} {l : List EthereumTrigger}

theorem logs_append_calls (b : Block) : Fetched b (b.logs ++ b.calls) := by
  refine ⟨List.Perm.refl _, ?_⟩
  rw [List.filter_append, List.filter_eq_nil_iff.mpr, List.nil_append, List.filter_eq_self.mpr]
  · intro x hx
    obtain ⟨c, rfl⟩ := Block.mem_calls hx
    rfl
  · intro x hx
    obtain ⟨log, -, rfl⟩ := Block.mem_logs.mp hx
    simp [EthereumTrigger.isCall]

/-- A log has its key to itself. -/
theorem eq_of_key_eq {x : Log} {y : EthereumTrigger} (hx : .log x ∈ b.logs)
    (hy : y ∈ b.logs ++ b.calls) (e : y.key = (EthereumTrigger.log x).key) : y = .log x := by
  rcases List.mem_append.mp hy with hy | hy
  · obtain ⟨ly, -, rfl⟩ := Block.mem_logs.mp hy
    have hindex : ly.logIndex = x.logIndex := congrArg (fun k => (ofLex (ofLex k).2).2) e
    rcases Block.logs_trichotomy hy hx with rfl | h | h
    · rfl
    · exact absurd hindex h.2.ne
    · exact absurd hindex h.2.ne'
  · obtain ⟨c, rfl⟩ := Block.mem_calls hy
    have hkind : (1 : ℕ) = 0 := congrArg (fun k => (ofLex (ofLex k).2).1) e
    exact absurd hkind one_ne_zero

/-- Whatever the order of the requests, the ties are the same: a log has none, and the
calls keep their order. -/
theorem ties (h : Fetched b l) (k : ℕ ×ₗ ℕ ×ₗ ℕ) :
    (b.delivery.filter fun x => x.key = k) = l.filter fun x => x.key = k := by
  have hperm : l.Perm b.delivery := h.perm.trans b.perm_delivery
  -- a key is that of one log, or of the calls of one transaction
  by_cases hlog : ∃ x, .log x ∈ b.logs ∧ (EthereumTrigger.log x).key = k
  · obtain ⟨x, hx, rfl⟩ := hlog
    have hrep : ∀ l' : List EthereumTrigger, l'.Perm l →
        (l'.filter fun y => y.key = (EthereumTrigger.log x).key)
          = List.replicate (l.filter fun y => y.key = (EthereumTrigger.log x).key).length
              (.log x) := by
      intro l' hl'
      rw [← (hl'.filter _).length_eq]
      apply List.eq_replicate_of_mem
      intro y hy
      obtain ⟨hy, e⟩ := List.mem_filter.mp hy
      exact eq_of_key_eq hx (h.perm.mem_iff.mp (hl'.mem_iff.mp hy)) (by simpa using e)
    exact (hrep _ hperm.symm).trans (hrep l (List.Perm.refl l)).symm
  · have hcall : ∀ l' : List EthereumTrigger, l'.Perm (b.logs ++ b.calls) →
        (l'.filter fun x => x.key = k)
          = (l'.filter EthereumTrigger.isCall).filter fun x => x.key = k := by
      intro l' hl'
      rw [List.filter_filter]
      apply List.filter_congr
      intro x hx
      rcases List.mem_append.mp (hl'.mem_iff.mp hx) with hx | hx
      · obtain ⟨log, -, rfl⟩ := Block.mem_logs.mp hx
        have hk : (EthereumTrigger.log log).key ≠ k := fun e => hlog ⟨log, hx, e⟩
        simp [hk]
      · obtain ⟨c, rfl⟩ := Block.mem_calls hx
        simp [EthereumTrigger.isCall]
    rw [hcall _ b.perm_delivery.symm, hcall _ h.perm, b.filter_isCall_delivery, h.calls]

theorem sort_eq (h : Fetched b l) :
    (l.mergeSort fun x y => (x.cmp y).isLE) = b.delivery := by
  refine mergeSort_eq_of_key ?_ b.pairwise_key_delivery h.ties
  intro x hx y hy
  exact Block.cmp_eq_keyLe (h.perm.mem_iff.mp hx) (h.perm.mem_iff.mp hy)

/-- Within a block the node's equality of triggers is equality. -/
theorem eq_of_eq {x y : EthereumTrigger} (hx : x ∈ b.logs ++ b.calls) (hy : y ∈ b.logs ++ b.calls)
    (e : x.eq y = true) : x = y := by
  rcases List.mem_append.mp hx with hx | hx <;> rcases List.mem_append.mp hy with hy | hy
  · obtain ⟨lx, -, rfl⟩ := Block.mem_logs.mp hx
    obtain ⟨ly, -, rfl⟩ := Block.mem_logs.mp hy
    simp only [EthereumTrigger.eq, Bool.and_eq_true, decide_eq_true_eq] at e
    rcases Block.logs_trichotomy hx hy with rfl | h | h
    · rfl
    · exact absurd e.2 h.2.ne
    · exact absurd e.2 h.2.ne'
  · obtain ⟨lx, -, rfl⟩ := Block.mem_logs.mp hx
    obtain ⟨cy, rfl⟩ := Block.mem_calls hy
    simp [EthereumTrigger.eq] at e
  · obtain ⟨cx, rfl⟩ := Block.mem_calls hx
    obtain ⟨ly, -, rfl⟩ := Block.mem_logs.mp hy
    simp [EthereumTrigger.eq] at e
  · obtain ⟨cx, rfl⟩ := Block.mem_calls hx
    obtain ⟨cy, rfl⟩ := Block.mem_calls hy
    exact congrArg EthereumTrigger.call (by simpa [EthereumTrigger.eq] using e)

theorem nodup_delivery (hcalls : b.calls.Nodup) : b.delivery.Nodup := by
  rw [← b.perm_delivery.nodup_iff, List.nodup_append]
  refine ⟨?_, hcalls, ?_⟩
  · rw [Block.logs, ← List.map_flatMap]
    refine List.Nodup.map (fun _ _ e => EthereumTrigger.log.inj e) ?_
    exact b.pairwise_before.imp fun {x y} h e => h.2.ne (congrArg Log.logIndex e)
  · rintro x hx y hy rfl
    obtain ⟨l, -, rfl⟩ := Block.mem_logs.mp hx
    obtain ⟨c, e⟩ := Block.mem_calls hy
    simp at e

/-- **The order of delivery.**  However the logs and calls of a block were fetched, they
are delivered transaction by transaction, the logs before the calls. -/
theorem new_eq (h : Fetched b l) (hcalls : b.calls.Nodup) :
    BlockWithTriggers.new l = b.delivery := by
  rw [BlockWithTriggers.new, h.sort_eq]
  -- nothing is dropped: the triggers of a block are distinct
  apply List.destutter_of_isChain
  refine List.Pairwise.isChain (List.Pairwise.imp_of_mem ?_ (nodup_delivery hcalls))
  intro x y hx hy hne e
  exact hne (eq_of_eq (b.perm_delivery.mem_iff.mpr hx) (b.perm_delivery.mem_iff.mpr hy) e)

end Fetched

/-! ### What the handlers see of a chain -/

/-- The triggers of a chain in the order the node delivers them. -/
def delivered (chain : List Block) : List Trigger :=
  chain.flatMap fun b =>
    (BlockWithTriggers.new (b.logs ++ b.calls)).filterMap EthereumTrigger.decode

/-- The split that an action creates. -/
def SplitMainAction.creates : SplitMainAction → Option Address
  | .createSplit split _ _ => some split
  | _ => none

/-- The `createSplit` calls among actions. -/
def createCalls (actions : List (ℕ × SplitMainAction)) : List Trigger :=
  actions.filterMap fun a => a.2.call.map Trigger.createSplitCall

namespace Transaction

variable (tx : Transaction)

/-- The events of a transaction in execution order. -/
def events (timestamp : ℤ) : List Trigger :=
  tx.actions.map fun a => a.2.event timestamp tx.hash a.1

/-- The splits that a transaction creates. -/
def creates : List Address := tx.actions.filterMap fun a => a.2.creates

theorem decode_delivery (timestamp : ℤ) :
    (tx.delivery timestamp).filterMap EthereumTrigger.decode
      = tx.events timestamp ++ createCalls tx.actions := by
  rw [delivery, List.filterMap_append, logs, calls, List.map_map, List.map_filterMap,
    List.filterMap_filterMap, List.filterMap_map]
  congr 1
  · exact List.filterMap_eq_map_iff_forall_eq_some.mpr fun a _ => rfl
  · apply List.filterMap_congr
    intro a _
    rcases a.2.call with - | call <;> rfl

end Transaction

/-- The transactions of a chain with their timestamps. -/
def transactionsOf (chain : List Block) : List (ℤ × Transaction) :=
  chain.flatMap fun b => b.transactions.map fun tx => (b.timestamp, tx)

/-- The triggers of a transaction as they are delivered: the events, then the calls. -/
def Transaction.delivered (p : ℤ × Transaction) : List Trigger :=
  p.2.events p.1 ++ createCalls p.2.actions

/-- Each split is created once. -/
def CreatedOnce (chain : List Block) : Prop :=
  ((transactionsOf chain).flatMap fun p => p.2.creates).Nodup

instance (chain : List Block) : Decidable (CreatedOnce chain) :=
  inferInstanceAs (Decidable (List.Nodup _))

theorem CreatedOnce.nodup_calls {chain : List Block} (h : CreatedOnce chain) {b : Block}
    (hb : b ∈ chain) : b.calls.Nodup := by
  have hsplits : ((b.transactions.flatMap Transaction.calls).map fun c => c.call.split).Nodup := by
    have hchain : (chain.flatMap fun b => b.transactions.flatMap Transaction.creates).Nodup := by
      simpa only [CreatedOnce, transactionsOf, List.flatMap_assoc, List.flatMap_map] using h
    have hblock := (List.nodup_flatMap.mp hchain).1 b hb
    rw [List.map_flatMap]
    convert hblock using 3 with tx
    rw [Transaction.calls, Transaction.creates, List.map_filterMap]
    apply List.filterMap_congr
    intro a _
    cases a.2 <;> rfl
  rw [Block.calls, ← List.map_flatMap]
  exact (List.Nodup.of_map _ hsplits).map fun _ _ e => EthereumTrigger.call.inj e

/-- **The triggers that the handlers see.** -/
theorem delivered_eq {chain : List Block} (h : CreatedOnce chain) :
    delivered chain = (transactionsOf chain).flatMap Transaction.delivered := by
  rw [delivered, transactionsOf, List.flatMap_assoc]
  apply List.flatMap_congr
  intro b hb
  rw [(Fetched.logs_append_calls b).new_eq (h.nodup_calls hb), Block.delivery,
    List.filterMap_flatMap, List.flatMap_map]
  apply List.flatMap_congr
  intro tx _
  exact tx.decode_delivery b.timestamp

end SplitsSubgraph
