/-
SplitsSubgraph/WriteQueue.lean

The queue between the indexing of blocks and the database
(store/postgres/src/writable.rs, graph/src/util/bounded_queue.rs).

Writes and reverts are put in a queue of bounded size, and a background writer executes
them one after the other.  It looks at the front of the queue, executes the request and
only then removes it, so that a request may be in the queue and in the database at once.
A lookup goes through the queue from the newest request to the oldest, and asks the
database as of a block that no request of the queue affects.

`Queue.Step` has the steps that the two sides can take, in any order.  A push checks for
errors first and may then have to wait for room in the queue (`pushing`); the first error
of the writer empties the queue and poisons it.  A lookup is not one step: the queue is
locked while it is searched, but not while the database is asked, and the writer may take
any number of steps in between (`Queue.WriterStep`).
-/
import SplitsSubgraph.Deployment
import SplitsSubgraph.Lib.WriteBehind

namespace SplitsSubgraph

open RangeTable EntityModification

/-! ### Requests -/

/-- A write request received from the `WritableStore` frontend that gets queued. -/
inductive Request where
  | write (block : ℤ) (mods : List EntityModification)
  | revertTo (block : ℤ)
  | stop

inductive ExecResult where
  | cont
  | stop
deriving DecidableEq

def Request.execute (layout : Layout) (store : Deployment) :
    Request → Except StoreError (Deployment × ExecResult)
  | .write block mods =>
    (store.transactBlockOperations layout block mods).map fun store => (store, .cont)
  | .revertTo block =>
    (store.revertBlockOperations layout block).map fun store => (store, .cont)
  | .stop => .ok (store, .stop)

/-- The block numbers seen so far while traversing the queue, newest request first. -/
structure BlockTracker where
  /-- the smallest block number that has been reverted to -/
  revert : ℤ
  /-- the largest block number that is not affected by entries in the queue -/
  block : ℤ

namespace BlockTracker

def new : BlockTracker := ⟨BLOCK_NUMBER_MAX, BLOCK_NUMBER_MAX⟩

def update (tracker : BlockTracker) : Request → BlockTracker
  | .write block _ => { tracker with block := min tracker.block (block - 1) }
  | .revertTo block => ⟨min tracker.revert block, min tracker.block block⟩
  | .stop => tracker

/-- The block at which a query should run. -/
def queryBlock (tracker : BlockTracker) : ℤ := tracker.block

/-- A write at this block will be visible, i.e. not reverted by a newer entry. -/
def visible (tracker : BlockTracker) (block : ℤ) : Bool := decide (block ≤ tracker.revert)

end BlockTracker

/-! ### Lookups -/

/-- The search of `Queue::get`, newest request first: what the queue says about the
entity, if anything, and the tracker. -/
def findMap (key : EntityKey) (tracker : BlockTracker) :
    List Request → Option (Option Attributes) × BlockTracker
  | [] => (none, tracker)
  | req :: rest =>
    let tracker := tracker.update req
    let op := match req with
      | .write block mods =>
        if tracker.visible block then
          (mods.find? fun m => decide (m.entityRef = key)).map EntityModification.entity
        else none
      | _ => none
    match op with
    | some op => (some op, tracker)
    | none => findMap key tracker rest

/-- The modifications of one request in `Queue::get_many`: the keys that are still to be
found, and the entities found. -/
def takeMods (found : List EntityKey × List (EntityKey × Option Attributes)) :
    List EntityModification → List EntityKey × List (EntityKey × Option Attributes)
  | [] => found
  | m :: mods =>
    -- The key must be removed to avoid overwriting it with a stale value.
    if m.entityRef ∈ found.1 then
      takeMods (found.1.filter (· ≠ m.entityRef), found.2 ++ [(m.entityRef, m.entity)]) mods
    else takeMods found mods

/-- The search of `Queue::get_many`. -/
def foldMany (tracker : BlockTracker)
    (found : List EntityKey × List (EntityKey × Option Attributes)) :
    List Request → (List EntityKey × List (EntityKey × Option Attributes)) × BlockTracker
  | [] => (found, tracker)
  | req :: rest =>
    let tracker := tracker.update req
    match req with
    | .write block mods =>
      foldMany tracker (if tracker.visible block then takeMods found mods else found) rest
    | _ => foldMany tracker found rest

/-- `SyncStore::get_many`. -/
def Deployment.getMany (layout : Layout) (store : Deployment) (keys : List EntityKey) (block : ℤ) :
    List (EntityKey × Attributes) :=
  keys.filterMap fun key => (store.get layout key block).map fun entity => (key, entity)

/-- Extend the store results with the entities from the queue; a key that is there already
is a failed assertion. -/
def extendResults (map : List (EntityKey × Attributes)) :
    List (EntityKey × Option Attributes) → Except StoreError (List (EntityKey × Attributes))
  | [] => .ok map
  | (_, none) :: rest => extendResults map rest
  | (key, some entity) :: rest =>
    if key ∈ map.map Prod.fst then .error (.panic "assertion failed: !overwrite")
    else extendResults (map ++ [(key, entity)]) rest

/-! ### The queue -/

/-- What the background writer does next. -/
inductive WriterState where
  /-- look at the front of the queue and execute it -/
  | peek
  /-- remove the front, which has been executed -/
  | pop (res : ExecResult)
  /-- nothing: the writer has returned -/
  | returned
deriving DecidableEq

structure Queue where
  capacity : ℕ
  /-- what the database holds -/
  store : Deployment
  queue : List Request
  /-- a push that has checked for errors and waits for room -/
  pushing : Option Request
  writeErr : Option StoreError
  poisoned : Bool
  writer : WriterState

namespace Queue

variable (layout : Layout)

def start (capacity : ℕ) (store : Deployment) : Queue :=
  ⟨capacity, store, [], none, none, false, .peek⟩

/-- `check_err`: the recorded error is reported once. -/
def checkErr (q : Queue) : Except StoreError Unit × Queue :=
  match q.writeErr with
  | some e => (.error e, { q with writeErr := none })
  | none => (if q.poisoned then .error .poisoned else .ok (), q)

/-- `record_err`: the queue can not be used anymore. -/
def recordErr (q : Queue) (e : StoreError) : Queue :=
  { q with writeErr := some e, poisoned := true, queue := [], writer := .returned }

/-- A panic while executing is an error too. -/
def writerError : StoreError → StoreError
  | .panic message => .writerPanic message
  | e => e

/-- Execute the front of the queue. -/
def execute (q : Queue) (req : Request) : Queue :=
  match req.execute layout q.store with
  | .ok (store, res) => { q with store := store, writer := .pop res }
  | .error e => q.recordErr (writerError e)

/-- Remove the front of the queue. -/
def pop (q : Queue) (res : ExecResult) : Queue :=
  { q with queue := q.queue.tail, writer := if res = .stop then .returned else .peek }

/-- The steps of the background writer.  Whatever it executes can also fail for reasons of
the database, and then has no effect. -/
inductive WriterStep : Queue → Queue → Prop
  | execute {q : Queue} {req : Request} (hwriter : q.writer = .peek)
      (hqueue : q.queue.head? = some req) : WriterStep q (q.execute layout req)
  | fail {q : Queue} (e : StoreError) (hwriter : q.writer = .peek)
      (hqueue : q.queue ≠ []) : WriterStep q (q.recordErr e)
  | pop {q : Queue} {res : ExecResult} (hwriter : q.writer = .pop res) :
      WriterStep q (q.pop res)

/-- The steps of both sides; a step that starts a push is labelled with the request. -/
inductive Step : Queue → Option Request → Queue → Prop
  | push {q : Queue} (req : Request) (hidle : q.pushing = none) (hok : q.checkErr.1 = .ok ()) :
      Step q (some req) { q.checkErr.2 with pushing := some req }
  | pushFailed {q : Queue} {e : StoreError} (hidle : q.pushing = none)
      (herr : q.checkErr.1 = .error e) : Step q none q.checkErr.2
  | enqueue {q : Queue} {req : Request} (hpush : q.pushing = some req)
      (hroom : q.queue.length < q.capacity) :
      Step q none { q with queue := q.queue ++ [req], pushing := none }
  | writer {q q' : Queue} (h : WriterStep layout q q') : Step q none q'

/-- The states that can come about, with the requests whose push was begun. -/
inductive Reachable (capacity : ℕ) (store : Deployment) : Queue → List Request → Prop
  | start : Reachable capacity store (start capacity store) []
  | step {q q' : Queue} {label : Option Request} {reqs : List Request}
      (h : Reachable capacity store q reqs) (hstep : Step layout q label q') :
      Reachable capacity store q' (reqs ++ label.toList)

/-- `Queue::get`, with the store as it is once the queue was searched. -/
def get (q : Queue) (store : Deployment) (key : EntityKey) : Option Attributes :=
  match findMap key .new q.queue.reverse with
  | (some op, _) => op
  | (none, tracker) => store.get layout key tracker.queryBlock

/-- `Queue::get_many`, with the store as it is once the queue was searched. -/
def getMany (q : Queue) (store : Deployment) (keys : List EntityKey) :
    Except StoreError (List (EntityKey × Attributes)) :=
  let ((keys, found), tracker) := foldMany .new (keys.dedup, []) q.queue.reverse
  extendResults (store.getMany layout keys tracker.queryBlock) found

end Queue

end SplitsSubgraph
