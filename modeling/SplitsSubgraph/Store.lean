/-
SplitsSubgraph/Store.lean

The five entity types and the store the handlers work on.

A row is an entity without its `id`, which is the key it is stored under.  Every
field is optional: the generated constructor sets only the id, each assignment
sets its own field, and reading a required field that was never set traps.
`Store.set` is what `store.set` makes of a saved row: the fields that are set
replace those of the row already stored under that id, the others stay
(`EntityOp::accumulate`, `Entity::merge`).

`Host` is the environment of one handler invocation: the store as the handler
sees it, whether the node validates saves against the schema, and what the
handler has done so far, the `store.set` calls it made (one `SetEntity` event of
the proof of indexing each) and the warnings it logged.
-/
import SplitsSubgraph.Schema
import SplitsSubgraph.Lib.Table

namespace SplitsSubgraph

open KeyedTable

/-! ### Rows -/

structure Split where
  distributorFee : Option ℤ := none
  recipients : Option (List String) := none
deriving DecidableEq

structure Recipient where
  splits : Option (List String) := none
deriving DecidableEq

structure SplitRecipient where
  split : Option String := none
  recipient : Option String := none
  allocation : Option ℤ := none
deriving DecidableEq

structure SplitRecipientToken where
  splitRecipient : Option String := none
  tokenAddress : Option String := none
  totalDistributed : Option ℤ := none
  totalClaimed : Option ℤ := none
deriving DecidableEq

structure SplitRecipientWithdrawEvent where
  split : Option String := none
  recipient : Option String := none
  tokenAddress : Option String := none
  value : Option ℤ := none
  timestamp : Option ℤ := none
  transactionHash : Option String := none
deriving DecidableEq

/-! ### Merging a saved row into the stored one -/

def Split.merge (old update : Split) : Split where
  distributorFee := update.distributorFee <|> old.distributorFee
  recipients := update.recipients <|> old.recipients

def Recipient.merge (old update : Recipient) : Recipient where
  splits := update.splits <|> old.splits

def SplitRecipient.merge (old update : SplitRecipient) : SplitRecipient where
  split := update.split <|> old.split
  recipient := update.recipient <|> old.recipient
  allocation := update.allocation <|> old.allocation

def SplitRecipientToken.merge (old update : SplitRecipientToken) : SplitRecipientToken where
  splitRecipient := update.splitRecipient <|> old.splitRecipient
  tokenAddress := update.tokenAddress <|> old.tokenAddress
  totalDistributed := update.totalDistributed <|> old.totalDistributed
  totalClaimed := update.totalClaimed <|> old.totalClaimed

def SplitRecipientWithdrawEvent.merge (old update : SplitRecipientWithdrawEvent) :
    SplitRecipientWithdrawEvent where
  split := update.split <|> old.split
  recipient := update.recipient <|> old.recipient
  tokenAddress := update.tokenAddress <|> old.tokenAddress
  value := update.value <|> old.value
  timestamp := update.timestamp <|> old.timestamp
  transactionHash := update.transactionHash <|> old.transactionHash

/-! ### Rows as entities of the node -/

/-- The attribute `name`, when it is set. -/
def entityAttr {α : Type} (name : String) (wrap : α → Value) (value : Option α) : Entity :=
  (value.map fun a => (name, wrap a)).toList

def stringAttr (name : String) (value : Option String) : Entity :=
  entityAttr name Value.string value

def bigIntAttr (name : String) (value : Option ℤ) : Entity :=
  entityAttr name Value.bigInt value

def stringListAttr (name : String) (value : Option (List String)) : Entity :=
  entityAttr name (fun l => Value.list (l.map Value.string)) value

def Split.entity (id : String) (row : Split) : Entity :=
  ("id", .string id) :: (bigIntAttr "distributorFee" row.distributorFee
    ++ stringListAttr "recipients" row.recipients)

def Recipient.entity (id : String) (row : Recipient) : Entity :=
  ("id", .string id) :: stringListAttr "splits" row.splits

def SplitRecipient.entity (id : String) (row : SplitRecipient) : Entity :=
  ("id", .string id) :: (stringAttr "split" row.split
    ++ stringAttr "recipient" row.recipient
    ++ bigIntAttr "allocation" row.allocation)

def SplitRecipientToken.entity (id : String) (row : SplitRecipientToken) : Entity :=
  ("id", .string id) :: (stringAttr "splitRecipient" row.splitRecipient
    ++ stringAttr "tokenAddress" row.tokenAddress
    ++ bigIntAttr "totalDistributed" row.totalDistributed
    ++ bigIntAttr "totalClaimed" row.totalClaimed)

def SplitRecipientWithdrawEvent.entity (id : String) (row : SplitRecipientWithdrawEvent) :
    Entity :=
  ("id", .string id) :: (stringAttr "split" row.split
    ++ stringAttr "recipient" row.recipient
    ++ stringAttr "tokenAddress" row.tokenAddress
    ++ bigIntAttr "value" row.value
    ++ bigIntAttr "timestamp" row.timestamp
    ++ stringAttr "transactionHash" row.transactionHash)

/-! ### The store -/

/-- The five tables. -/
@[ext] structure Store where
  splits : Table String Split
  recipients : Table String Recipient
  splitRecipients : Table String SplitRecipient
  splitRecipientTokens : Table String SplitRecipientToken
  splitRecipientWithdrawEvents : Table String SplitRecipientWithdrawEvent
deriving DecidableEq

def Store.empty : Store := ⟨∅, ∅, ∅, ∅, ∅⟩

/-- One `store.set` call: the entity type, the id and the row as it was set. -/
inductive SetEntity where
  | split (id : String) (row : Split)
  | recipient (id : String) (row : Recipient)
  | splitRecipient (id : String) (row : SplitRecipient)
  | splitRecipientToken (id : String) (row : SplitRecipientToken)
  | splitRecipientWithdrawEvent (id : String) (row : SplitRecipientWithdrawEvent)
deriving DecidableEq

/-- The store after a `store.set` call. -/
def Store.set (st : Store) : SetEntity → Store
  | .split id row => { st with splits := upsert Split.merge st.splits id row }
  | .recipient id row => { st with recipients := upsert Recipient.merge st.recipients id row }
  | .splitRecipient id row =>
    { st with splitRecipients := upsert SplitRecipient.merge st.splitRecipients id row }
  | .splitRecipientToken id row =>
    { st with
      splitRecipientTokens := upsert SplitRecipientToken.merge st.splitRecipientTokens id row }
  | .splitRecipientWithdrawEvent id row =>
    { st with
      splitRecipientWithdrawEvents :=
        upsert SplitRecipientWithdrawEvent.merge st.splitRecipientWithdrawEvents id row }

/-- `entity.validate` on the row as it was set. -/
def SetEntity.validate : SetEntity → Except String Unit
  | .split id row => SplitsSubgraph.validate schema "Split" id (row.entity id)
  | .recipient id row => SplitsSubgraph.validate schema "Recipient" id (row.entity id)
  | .splitRecipient id row => SplitsSubgraph.validate schema "SplitRecipient" id (row.entity id)
  | .splitRecipientToken id row =>
    SplitsSubgraph.validate schema "SplitRecipientToken" id (row.entity id)
  | .splitRecipientWithdrawEvent id row =>
    SplitsSubgraph.validate schema "SplitRecipientWithdrawEvent" id (row.entity id)

/-- The row that a `store.set` call leaves in the store: the set row merged into
the one that was stored there. -/
def SetEntity.merged (st : Store) : SetEntity → SetEntity
  | .split id row => .split id (mergeAt Split.merge st.splits id row)
  | .recipient id row => .recipient id (mergeAt Recipient.merge st.recipients id row)
  | .splitRecipient id row =>
    .splitRecipient id (mergeAt SplitRecipient.merge st.splitRecipients id row)
  | .splitRecipientToken id row =>
    .splitRecipientToken id (mergeAt SplitRecipientToken.merge st.splitRecipientTokens id row)
  | .splitRecipientWithdrawEvent id row =>
    .splitRecipientWithdrawEvent id
      (mergeAt SplitRecipientWithdrawEvent.merge st.splitRecipientWithdrawEvents id row)

/-! ### The host of a handler -/

/-- Whether the node checks saved entities against the schema. -/
inductive SaveMode where
  | plain
  | validated
deriving DecidableEq

/-- Why a handler was stopped. -/
inductive Abort where
  /-- a required field was read that was never set -/
  | unsetField (entityType entityId field : String)
  /-- an array was indexed past its end -/
  | indexOutOfRange
  /-- `EntityCache::set` rejected a save -/
  | invalidEntity (message : String)
deriving DecidableEq

structure Host where
  mode : SaveMode
  store : Store
  sets : List SetEntity
  warnings : List String

/-- The host at the start of a handler invocation. -/
def Host.enter (mode : SaveMode) (st : Store) : Host := ⟨mode, st, [], []⟩

@[simp] theorem Host.enter_store (mode : SaveMode) (st : Store) :
    (Host.enter mode st).store = st := rfl

/-- `log.warning`. -/
def Host.warn (h : Host) (message : String) : Host :=
  { h with warnings := h.warnings ++ [message] }

/-- The host after a `store.set` call that is not rejected. -/
def Host.put (h : Host) (s : SetEntity) : Host :=
  { h with store := h.store.set s, sets := h.sets ++ [s] }

/-- `entity.save()`, that is `store.set` and `EntityCache::set`: an entity that is
not valid by itself is looked at again once merged with the stored one, and is
rejected if it is still not valid. -/
def Host.save (h : Host) (s : SetEntity) : Except Abort Host :=
  match h.mode with
  | .plain => .ok (h.put s)
  | .validated =>
    match s.validate with
    | .ok _ => .ok (h.put s)
    | .error _ =>
      match (s.merged h.store).validate with
      | .ok _ => .ok (h.put s)
      | .error message => .error (.invalidEntity message)

/-- The getter of a required field. -/
def required {α : Type} (value : Option α) (entityType entityId field : String) :
    Except Abort α :=
  match value with
  | some a => .ok a
  | none => .error (.unsetField entityType entityId field)

/-- `xs[i]`. -/
def arrayGet {α : Type} (xs : List α) (i : ℕ) : Except Abort α :=
  match xs[i]? with
  | some a => .ok a
  | none => .error .indexOutOfRange

end SplitsSubgraph
