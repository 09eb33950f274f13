/-
SplitsSubgraph/Handlers.lean

The handlers of src/mapping.ts as the node runs them: programs of `store.get`, `store.set` and
`log` calls (HostExports.lean).

Mapping.lean has the same handlers as functions on a host that holds the five tables.  Here an
entity is loaded by a call that answers with its attributes, and saved by a call that takes
them.  Reading a required field that is not set, and indexing an array past its end, traps; the
texts of the traps come from the compiler, and are a parameter.

`splitsManifest` is what the runner knows of subgraph.yaml: one data source on one network, and
a handler for each kind of trigger.
-/
import SplitsSubgraph.EntityClass
import SplitsSubgraph.Runner

namespace SplitsSubgraph

open Interaction

/-! ### Entities -/

namespace EntityClass

variable {R : Type} (C : EntityClass R)

/-- The static method `load` of an entity class. -/
def load (id : String) : HostProgram (Option R) := do
  let entity ← Program.perform (HostCall.storeGet C.entityType id)
  return entity.map C.ofAttributes

/-- The method `save` of an entity class. -/
def save (id : String) (row : R) : HostProgram Unit :=
  Program.perform (HostCall.storeSet C.entityType id (.ofEntity (C.entity id row)))

end EntityClass

/-- What the node is told when a handler is stopped; `trap` gives the texts of traps. -/
def Abort.hostError (trap : Abort → String) : Abort → HostExportError
  | .invalidEntity message => .unknown message
  | a => .deterministic (trap a)

namespace Mapping

variable (trap : Abort → String)

/-- The getter of a required field. -/
def required {α : Type} (value : Option α) (entityType entityId field : String) : HostProgram α :=
  match value with
  | some a => pure a
  | none => .fail (Abort.hostError trap (.unsetField entityType entityId field))

/-- `xs[i]`. -/
def arrayGet {α : Type} (xs : List α) (i : ℕ) : HostProgram α :=
  match xs[i]? with
  | some a => pure a
  | none => .fail (Abort.hostError trap .indexOutOfRange)

/-- `log.warning`. -/
def warning (message : String) : HostProgram Unit := Program.perform (HostCall.log message)

/-! ### Creating a split -/

def handleCreateSplit (event : CreateSplit) : Handler := do
  let splitId := event.split.toHex
  let split ← splitClass.load splitId
  if split.isSome then return ()
  splitClass.save splitId { recipients := some [] }

/-- The loop of `handleCreateSplitCall`. -/
def createSplitRecipients (splitId : String) (splitRecipientIds : List String) :
    List Address → List ℤ → HostProgram (List String)
  | [], _ => return splitRecipientIds
  | account :: recipients, allocations => do
    let recipientId := account.toHex
    let splitRecipientId := joinIds [splitId, recipientId]
    let loaded ← recipientClass.load recipientId
    let recipient : Recipient := loaded.getD { splits := some [] }
    let recipientSplits ← required trap recipient.splits "Recipient" recipientId "splits"
    recipientClass.save recipientId
      { recipient with splits := some (recipientSplits ++ [splitRecipientId]) }
    let allocation ← arrayGet trap allocations 0
    splitRecipientClass.save splitRecipientId
      { split := some splitId, recipient := some recipientId, allocation := some allocation }
    createSplitRecipients splitId (splitRecipientIds ++ [splitRecipientId]) recipients
      allocations.tail

def handleCreateSplitCall (call : CreateSplitCall) : Handler := do
  let splitId := call.split.toHex
  let loaded ← splitClass.load splitId
  let split : Split := loaded.getD {}
  let splitRecipientIds ←
    createSplitRecipients trap splitId [] call.accounts call.percentAllocations
  splitClass.save splitId
    { split with distributorFee := some call.distributorFee, recipients := some splitRecipientIds }

/-! ### Distributing -/

/-- The loop of `handleDistribution`. -/
def distributeToRecipients (amountToSplit : ℤ) (tokenAddress : String) : List String → Handler
  | [] => return ()
  | splitRecipientId :: splitRecipientIds => do
    let loaded ← splitRecipientClass.load splitRecipientId
    match loaded with
    | none => warning ("handleDistributeETH, missing splitRecipient: " ++ splitRecipientId)
    | some splitRecipient =>
      let splitRecipientTokenId := joinIds [splitRecipientId, tokenAddress]
      let loaded ← splitRecipientTokenClass.load splitRecipientTokenId
      let splitRecipientToken : SplitRecipientToken := loaded.getD
        { splitRecipient := some splitRecipientId
          tokenAddress := some tokenAddress
          totalDistributed := some 0
          totalClaimed := some 0 }
      let totalDistributed ← required trap splitRecipientToken.totalDistributed
        "SplitRecipientToken" splitRecipientTokenId "totalDistributed"
      let allocation ← required trap splitRecipient.allocation
        "SplitRecipient" splitRecipientId "allocation"
      splitRecipientTokenClass.save splitRecipientTokenId
        { splitRecipientToken with
          totalDistributed :=
            some (totalDistributed + scaleAmountByPercentage amountToSplit allocation) }
      distributeToRecipients amountToSplit tokenAddress splitRecipientIds

def handleDistribution (splitAddress : String) (amount : ℤ) (tokenAddress : String) : Handler := do
  let loaded ← splitClass.load splitAddress
  match loaded with
  | none => warning ("handleDistributeETH, no split found: " ++ splitAddress)
  | some split =>
    let distributorFee ← required trap split.distributorFee "Split" splitAddress "distributorFee"
    let amountToSplit := amount - scaleAmountByPercentage amount distributorFee
    let splitRecipientIds ← required trap split.recipients "Split" splitAddress "recipients"
    distributeToRecipients trap amountToSplit tokenAddress splitRecipientIds

def handleDistributeETH (event : DistributeETH) : Handler :=
  handleDistribution trap event.split.toHex event.amount ZERO_ADDRESS

def handleDistributeERC20 (event : DistributeERC20) : Handler :=
  handleDistribution trap event.split.toHex event.amount event.token.toHex

/-! ### Withdrawing -/

/-- The body of the nested loop of `handleWithdrawal`. -/
def settleToken (event : Withdrawal) (splitRecipientId token : String) : Handler := do
  let recipientId := event.account.toHex
  let splitRecipientTokenId := joinIds [splitRecipientId, token]
  let loaded ← splitRecipientTokenClass.load splitRecipientTokenId
  match loaded with
  -- this split has not made a distribution with this token
  | none => return ()
  | some splitRecipientToken =>
    let lastDistributed ← required trap splitRecipientToken.totalDistributed
      "SplitRecipientToken" splitRecipientTokenId "totalDistributed"
    let lastClaimed ← required trap splitRecipientToken.totalClaimed
      "SplitRecipientToken" splitRecipientTokenId "totalClaimed"
    let valueWithdrawn := lastDistributed - lastClaimed
    -- no value withdrawn, hence nothing for the history
    if valueWithdrawn = 0 then return ()
    else
      splitRecipientTokenClass.save splitRecipientTokenId
        { splitRecipientToken with totalClaimed := some lastDistributed }
      let txHash := Bytes.toHex event.transactionHash
      let logIdx := bigIntToString event.logIndex
      let withdrawalEventId := joinIds [WITHDRAWAL_EVENT_PREFIX, txHash, logIdx, recipientId]
      let splitId ← arrayGet trap (expandId splitRecipientId) 0
      splitRecipientWithdrawEventClass.save withdrawalEventId
        { split := some splitId
          recipient := some recipientId
          tokenAddress := some token
          value := some valueWithdrawn
          timestamp := some event.timestamp
          transactionHash := some txHash }

def handleWithdrawal (event : Withdrawal) : Handler := do
  let recipientId := event.account.toHex
  let loaded ← recipientClass.load recipientId
  match loaded with
  | none => warning ("handleWithdrawal, missing recipient: " ++ recipientId)
  | some recipient =>
    let tokens := withdrawalTokens event
    let splitRecipientIds ← required trap recipient.splits "Recipient" recipientId "splits"
    splitRecipientIds.forM fun splitRecipientId =>
      tokens.forM fun token => settleToken trap event splitRecipientId token

/-! ### The manifest -/

/-- The handler that subgraph.yaml names for each trigger. -/
def handler : Trigger → Handler
  | .createSplit event => handleCreateSplit event
  | .createSplitCall call => handleCreateSplitCall trap call
  | .distributeETH event => handleDistributeETH trap event
  | .distributeERC20 event => handleDistributeERC20 trap event
  | .withdrawal event => handleWithdrawal trap event

end Mapping

/-- subgraph.yaml; it does not ask for the feature `nonFatalErrors`. -/
def splitsManifest (trap : Abort → String) (nonFatalErrors : Bool) : Manifest Trigger where
  hosts := [fun trigger => some (Mapping.handler trap trigger)]
  network := "goerli"
  nonFatalErrors := nonFatalErrors

end SplitsSubgraph
