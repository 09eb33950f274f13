/-
SplitsSubgraph/Mapping.lean

The five handlers of src/mapping.ts and the node's loop around them.

A handler takes the host and its event (or call) and returns the host it leaves
behind, or the reason it was aborted.  Loops of the source are recursions over
the array they walk; the nested loop of `handleWithdrawal` is a fold inside a
fold.  Event parameters that no handler reads (the controller of a split, the
distributor of a distribution) are left out.

`processTrigger` is what the node makes of one invocation: the updates of a
handler that ran to its end are kept, those of one that trapped are discarded
("Handler skipped due to execution failure").  A rejected save is a failure of
another kind, which the node does not take for deterministic: it fails the whole
block.  With `SaveMode.validated` the handler is only skipped here, so what is
said of a validated run is the node's up to the first rejected save; what comes
of the block is said in SplitsIndexing.lean.  `run` feeds a list of triggers to
the empty store.
-/
import SplitsSubgraph.Store

namespace SplitsSubgraph

/-! ### Triggers -/

/-- `CreateSplit(indexed address)`. -/
structure CreateSplit where
  split : Address
deriving DecidableEq

/-- The call `createSplit(address[],uint32[],uint32,address)` and its output. -/
structure CreateSplitCall where
  accounts : List Address
  percentAllocations : List ℤ
  distributorFee : ℤ
  split : Address
deriving DecidableEq

/-- `DistributeETH(indexed address,uint256,indexed address)`. -/
structure DistributeETH where
  split : Address
  amount : ℤ
deriving DecidableEq

/-- `DistributeERC20(indexed address,indexed address,uint256,indexed address)`. -/
structure DistributeERC20 where
  split : Address
  token : Address
  amount : ℤ
deriving DecidableEq

/-- `Withdrawal(indexed address,uint256,address[],uint256[])`, with the hash of
its transaction, its log index and the timestamp of its block. -/
structure Withdrawal where
  account : Address
  ethAmount : ℤ
  tokens : List Address
  tokenAmounts : List ℤ
  transactionHash : Bytes
  logIndex : ℤ
  timestamp : ℤ
deriving DecidableEq

/-- What the node can hand to the mapping: the event and call handlers of
subgraph.yaml. -/
inductive Trigger where
  | createSplit (event : CreateSplit)
  | createSplitCall (call : CreateSplitCall)
  | distributeETH (event : DistributeETH)
  | distributeERC20 (event : DistributeERC20)
  | withdrawal (event : Withdrawal)
deriving DecidableEq

/-! ### Amounts -/

/-- `_scaleAmountByPercentage`; `BigInt.div` truncates toward zero. -/
def scaleAmountByPercentage (amount scaledPercent : ℤ) : ℤ :=
  (amount * scaledPercent).tdiv PERCENTAGE_SCALE

/-! ### Creating a split -/

def handleCreateSplit (h : Host) (event : CreateSplit) : Except Abort Host :=
  let splitId := event.split.toHex
  match h.store.splits.lookup splitId with
  | some _ => .ok h
  | none => h.save (.split splitId { recipients := some [] })

/-- The loop of `handleCreateSplitCall`: the accounts from index `i` on with the
allocations from index `i` on, and the split recipient ids pushed so far. -/
def createSplitRecipients (splitId : String) (h : Host) (splitRecipientIds : List String) :
    List Address → List ℤ → Except Abort (Host × List String)
  | [], _ => .ok (h, splitRecipientIds)
  | account :: recipients, allocations => do
    let recipientId := account.toHex
    let splitRecipientId := joinIds [splitId, recipientId]
    let recipient : Recipient :=
      (h.store.recipients.lookup recipientId).getD { splits := some [] }
    let recipientSplits ← required recipient.splits "Recipient" recipientId "splits"
    let h ← h.save (.recipient recipientId
      { recipient with splits := some (recipientSplits ++ [splitRecipientId]) })
    let allocation ← arrayGet allocations 0
    let h ← h.save (.splitRecipient splitRecipientId
      { split := some splitId, recipient := some recipientId, allocation := some allocation })
    createSplitRecipients splitId h (splitRecipientIds ++ [splitRecipientId]) recipients
      allocations.tail

def handleCreateSplitCall (h : Host) (call : CreateSplitCall) : Except Abort Host := do
  let splitId := call.split.toHex
  let split : Split := (h.store.splits.lookup splitId).getD {}
  let (h, splitRecipientIds) ←
    createSplitRecipients splitId h [] call.accounts call.percentAllocations
  h.save (.split splitId
    { split with distributorFee := some call.distributorFee, recipients := some splitRecipientIds })

/-! ### Distributing -/

/-- The loop of `handleDistribution`, from the current recipient on.  A missing
split recipient ends the handler without aborting it. -/
def distributeToRecipients (amountToSplit : ℤ) (tokenAddress : String) (h : Host) :
    List String → Except Abort Host
  | [] => .ok h
  | splitRecipientId :: splitRecipientIds =>
    match h.store.splitRecipients.lookup splitRecipientId with
    | none => .ok (h.warn ("handleDistributeETH, missing splitRecipient: " ++ splitRecipientId))
    | some splitRecipient => do
      let splitRecipientTokenId := joinIds [splitRecipientId, tokenAddress]
      let splitRecipientToken : SplitRecipientToken :=
        (h.store.splitRecipientTokens.lookup splitRecipientTokenId).getD
          { splitRecipient := some splitRecipientId
            tokenAddress := some tokenAddress
            totalDistributed := some 0
            totalClaimed := some 0 }
      let totalDistributed ← required splitRecipientToken.totalDistributed
        "SplitRecipientToken" splitRecipientTokenId "totalDistributed"
      let allocation ← required splitRecipient.allocation
        "SplitRecipient" splitRecipientId "allocation"
      let h ← h.save (.splitRecipientToken splitRecipientTokenId
        { splitRecipientToken with
          totalDistributed :=
            some (totalDistributed + scaleAmountByPercentage amountToSplit allocation) })
      distributeToRecipients amountToSplit tokenAddress h splitRecipientIds

/-- Shared helper for `DistributeETH` and `DistributeERC20`. -/
def handleDistribution (h : Host) (splitAddress : String) (amount : ℤ)
    (tokenAddress : String) : Except Abort Host :=
  match h.store.splits.lookup splitAddress with
  | none => .ok (h.warn ("handleDistributeETH, no split found: " ++ splitAddress))
  | some split => do
    let distributorFee ← required split.distributorFee "Split" splitAddress "distributorFee"
    let amountToSplit := amount - scaleAmountByPercentage amount distributorFee
    let splitRecipientIds ← required split.recipients "Split" splitAddress "recipients"
    distributeToRecipients amountToSplit tokenAddress h splitRecipientIds

def handleDistributeETH (h : Host) (event : DistributeETH) : Except Abort Host :=
  handleDistribution h event.split.toHex event.amount ZERO_ADDRESS

def handleDistributeERC20 (h : Host) (event : DistributeERC20) : Except Abort Host :=
  handleDistribution h event.split.toHex event.amount event.token.toHex

/-! ### Withdrawing -/

/-- The tokens a withdrawal covers, as `handleWithdrawal` collects them. -/
def withdrawalTokens (event : Withdrawal) : List String :=
  event.tokens.map Address.toHex ++ if event.ethAmount > 0 then [ZERO_ADDRESS] else []

/-- The body of the nested loop of `handleWithdrawal`. -/
def settleToken (event : Withdrawal) (h : Host) (splitRecipientId token : String) :
    Except Abort Host :=
  let recipientId := event.account.toHex
  let splitRecipientTokenId := joinIds [splitRecipientId, token]
  match h.store.splitRecipientTokens.lookup splitRecipientTokenId with
  -- this split has not made a distribution with this token
  | none => .ok h
  | some splitRecipientToken => do
    let lastDistributed ← required splitRecipientToken.totalDistributed
      "SplitRecipientToken" splitRecipientTokenId "totalDistributed"
    let lastClaimed ← required splitRecipientToken.totalClaimed
      "SplitRecipientToken" splitRecipientTokenId "totalClaimed"
    let valueWithdrawn := lastDistributed - lastClaimed
    -- no value withdrawn, hence nothing for the history
    if valueWithdrawn = 0 then .ok h
    else
      let h ← h.save (.splitRecipientToken splitRecipientTokenId
        { splitRecipientToken with totalClaimed := some lastDistributed })
      let txHash := Bytes.toHex event.transactionHash
      let logIdx := bigIntToString event.logIndex
      let withdrawalEventId := joinIds [WITHDRAWAL_EVENT_PREFIX, txHash, logIdx, recipientId]
      let splitId ← arrayGet (expandId splitRecipientId) 0
      h.save (.splitRecipientWithdrawEvent withdrawalEventId
        { split := some splitId
          recipient := some recipientId
          tokenAddress := some token
          value := some valueWithdrawn
          timestamp := some event.timestamp
          transactionHash := some txHash })

def handleWithdrawal (h : Host) (event : Withdrawal) : Except Abort Host :=
  let recipientId := event.account.toHex
  match h.store.recipients.lookup recipientId with
  | none => .ok (h.warn ("handleWithdrawal, missing recipient: " ++ recipientId))
  | some recipient => do
    let tokens := withdrawalTokens event
    let splitRecipientIds ← required recipient.splits "Recipient" recipientId "splits"
    splitRecipientIds.foldlM
      (fun h splitRecipientId =>
        tokens.foldlM (fun h token => settleToken event h splitRecipientId token) h) h

/-! ### The node -/

/-- The handler that subgraph.yaml names for each trigger. -/
def handle (h : Host) : Trigger → Except Abort Host
  | .createSplit event => handleCreateSplit h event
  | .createSplitCall call => handleCreateSplitCall h call
  | .distributeETH event => handleDistributeETH h event
  | .distributeERC20 event => handleDistributeERC20 h event
  | .withdrawal event => handleWithdrawal h event

/-- One handler invocation on a store. -/
def invokeHandler (mode : SaveMode) (st : Store) (trigger : Trigger) : Except Abort Host :=
  handle (Host.enter mode st) trigger

/-- The store after one invocation; an aborted handler leaves it unchanged.  That the run
goes on after a rejected save is an idealisation. -/
def processTrigger (mode : SaveMode) (st : Store) (trigger : Trigger) : Store :=
  match invokeHandler mode st trigger with
  | .ok h => h.store
  | .error _ => st

/-- The store after handling the triggers one by one, from the empty store. -/
def run (mode : SaveMode) (triggers : List Trigger) : Store :=
  triggers.foldl (processTrigger mode) Store.empty

@[simp] theorem run_nil (mode : SaveMode) : run mode [] = Store.empty := rfl

@[simp] theorem run_concat (mode : SaveMode) (triggers : List Trigger) (trigger : Trigger) :
    run mode (triggers ++ [trigger]) = processTrigger mode (run mode triggers) trigger := by
  simp [run]

theorem processTrigger_of_ok (mode : SaveMode) (st : Store) (trigger : Trigger) {h : Host}
    (e : invokeHandler mode st trigger = .ok h) : processTrigger mode st trigger = h.store := by
  simp only [processTrigger, e]

theorem processTrigger_of_error (mode : SaveMode) (st : Store) (trigger : Trigger) {a : Abort}
    (e : invokeHandler mode st trigger = .error a) : processTrigger mode st trigger = st := by
  simp only [processTrigger, e]

end SplitsSubgraph
