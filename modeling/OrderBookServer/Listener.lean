import OrderBookServer.BookState
import OrderBookServer.BatchQueue

/-!
# The listener

The listener holds the live books of all coins, the queues of unmatched blocks,
the pairs cached for a validation in progress and the epoch of the stream. It is
driven by records of the three sources, by snapshots of the node that are fetched
aside, and by a maintenance tick; what it publishes is the list of messages sent.
A call returns the listener it leaves beside its outcome, and a call that ends in
a panic leaves nothing to go on with.
-/
namespace OrderBookServer

/-- The statuses and the diffs of one block. -/
abbrev BlockPair := Batch NodeDataOrderStatus × Batch NodeDataOrderDiff

/-- What is sent to the connections. -/
inductive InternalMessage where
  | gap
  | snapshot (l2Snapshots : L2Snapshots) (time height : ℕ)
  | fills (batch : Batch NodeDataFill)
  | l4BookUpdates (diffBatch : Batch NodeDataOrderDiff) (statusBatch : Batch NodeDataOrderStatus)

structure OrderBookListener where
  limits : ResourceLimits
  recoveryEpoch : BitVec 64
  snapshotCacheBytes : ℕ
  snapshotCacheStarted : Option Instant
  ignoreSpot : Bool
  scope : CoinScope
  /-- None until a valid snapshot has been seen. -/
  orderBookState : Option OrderBookState
  lastFill : Option ℕ
  orderDiffCache : BatchQueue NodeDataOrderDiff
  orderStatusCache : BatchQueue NodeDataOrderStatus
  /-- Some while updates are collected for a validation. -/
  fetchedSnapshotCache : Option (List BlockPair)
  /-- The messages sent so far, oldest first, where there is a sender. -/
  internalMessageTx : Option (List InternalMessage)

/-! ### Consistency of a snapshot -/

inductive SnapshotConsistency where
  | equal
  | emptyBooksAdded
  deriving DecidableEq, Repr

/-- The texts of a failed validation. -/
inductive Divergence where
  /-- Order counts do not match for {coin} -/
  | orderCounts (coin : Coin)
  /-- Orders do not match -/
  | orders (coin : Coin)
  /-- Missing {coin} book -/
  | missingBook (coin : Coin)
  /-- Extra orderbooks detected -/
  | extraBooks
  deriving DecidableEq, Repr

/-- An order in which the entries of a hash map are visited. -/
structure MapOrder where
  visit : Finset Coin → List Coin
  visit_nodup : ∀ coins, (visit coins).Nodup
  mem_visit : ∀ coins coin, coin ∈ visit coins ↔ coin ∈ coins

theorem MapOrder.nonempty : Nonempty MapOrder :=
  ⟨⟨Finset.toList, fun coins => coins.nodup_toList, fun coins _ => coins.mem_toList⟩⟩

section Validate

variable {O : Type} [DecidableEq O]

/-- The check of one book against the one expected. -/
def validateBook (coin : Coin) (book1 book2 : Snapshot O) : Except Divergence Unit :=
  if book1.bids.length ≠ book2.bids.length ∨ book1.asks.length ≠ book2.asks.length then
    .error (.orderCounts coin)
  else if (book1.bids.zip book2.bids).any (fun e => e.1 ≠ e.2) ∨
      (book1.asks.zip book2.asks).any (fun e => e.1 ≠ e.2) then
    .error (.orders coin)
  else .ok ()

/-- The loop over the books of `snapshot`, which takes each book found off the map
of those expected. -/
def validateBooks (snapshot : Snapshots O) (ignoreSpot : Bool) :
    List Coin → Snapshots O → Except Divergence (Snapshots O)
  | [], snapshotMap => .ok snapshotMap
  | coin :: coins, snapshotMap =>
    match snapshot.lookup coin with
    | none => validateBooks snapshot ignoreSpot coins snapshotMap
    | some book1 =>
      if ignoreSpot && coin.isSpot then validateBooks snapshot ignoreSpot coins snapshotMap
      else
        match snapshotMap.lookup coin with
        | some book2 => do
          validateBook coin book1 book2
          validateBooks snapshot ignoreSpot coins (snapshotMap.erase coin)
        | none =>
          if book1.isEmpty then validateBooks snapshot ignoreSpot coins snapshotMap
          else .error (.missingBook coin)

def validateSnapshotConsistency (mapOrder : MapOrder) (snapshot expected : Snapshots O)
    (ignoreSpot : Bool) : Except Divergence SnapshotConsistency := do
  let snapshotMap := expected.restrict fun coin => !coin.isSpot || !ignoreSpot
  let left ← validateBooks snapshot ignoreSpot (mapOrder.visit snapshot.keys) snapshotMap
  if ∃ coin ∈ left.keys, (left.lookup coin).any (fun book => !book.isEmpty) then .error .extraBooks
  else if left.keys = ∅ then return .equal
  else return .emptyBooksAdded

end Validate

namespace OrderBookListener

def new (internalMessageTx : Option (List InternalMessage)) (ignoreSpot : Bool) (scope : CoinScope) :
    OrderBookListener where
  limits := .DEFAULT
  recoveryEpoch := 0
  snapshotCacheBytes := 0
  snapshotCacheStarted := none
  ignoreSpot := ignoreSpot
  scope := scope
  orderBookState := none
  lastFill := none
  orderDiffCache := .new
  orderStatusCache := .new
  fetchedSnapshotCache := none
  internalMessageTx := internalMessageTx

def send (self : OrderBookListener) (message : InternalMessage) : OrderBookListener :=
  { self with internalMessageTx := self.internalMessageTx.map (· ++ [message]) }

/-- Discard the books and all that is queued for them; a snapshot is needed next. -/
def fence (self : OrderBookListener) : OrderBookListener :=
  { self with
    recoveryEpoch := self.recoveryEpoch + 1
    orderBookState := none
    orderStatusCache := .new
    orderDiffCache := .new
    fetchedSnapshotCache := none
    snapshotCacheStarted := none
    snapshotCacheBytes := 0 }.send .gap

def cloneState (self : OrderBookListener) : Option OrderBookState := self.orderBookState

def isReady (self : OrderBookListener) : Bool := self.orderBookState.isSome

/-- Pop the earliest pair of queued blocks of one height, if there is one. -/
def popCache (self : OrderBookListener) : Option BlockPair × OrderBookListener :=
  let out := popPair self.orderStatusCache self.orderDiffCache
  (out.1, { self with orderStatusCache := out.2.1, orderDiffCache := out.2.2 })

/-- Queue a block of statuses or diffs; publish fills of a new height. -/
def accept (self : OrderBookListener) (now : Instant) :
    EventBatch → Except Error OrderBookListener
  | .orders batch => do
    let (_, queue) ← self.orderStatusCache.push batch self.limits now
    return { self with orderStatusCache := queue }
  | .bookDiffs batch => do
    let (_, queue) ← self.orderDiffCache.push batch self.limits now
    return { self with orderDiffCache := queue }
  | .fills batch =>
    if self.lastFill.all fun height => decide (height < batch.blockNumber) then
      return { self with lastFill := some batch.blockNumber }.send (.fills batch)
    else return self

/-- The validation cache has no room for one more pair. -/
def cacheFull (self : OrderBookListener) (nextCacheBytes : Option ℕ) : Bool :=
  self.fetchedSnapshotCache.any fun cache =>
    decide (cache.length ≥ self.limits.queueHeights) ||
      nextCacheBytes.all fun bytes => decide (bytes > self.limits.queueBytes)

/-- Discard the validation in progress; the live books stay. -/
def dropCache (self : OrderBookListener) : OrderBookListener :=
  { self with
    recoveryEpoch := self.recoveryEpoch + 1
    fetchedSnapshotCache := none
    snapshotCacheStarted := none
    snapshotCacheBytes := 0 }

/-- Cache an applied pair for the validation in progress, and publish it. -/
def recordPair (self : OrderBookListener) (pair : BlockPair) : OrderBookListener × Except Fault Unit :=
  match U64.checkedAdd pair.1.wireBytes pair.2.wireBytes with
  | none => (self, .error (.error .pairedByteOverflow))
  | some pairBytes =>
    let nextCacheBytes := U64.checkedAdd self.snapshotCacheBytes pairBytes
    let self := if self.cacheFull nextCacheBytes then self.dropCache else self
    match self.fetchedSnapshotCache with
    | none => (self.send (.l4BookUpdates pair.2 pair.1), .ok ())
    | some cache =>
      match nextCacheBytes with
      | none => (self, .error (.error .validationByteOverflow))
      | some bytes =>
        ({ self with
          snapshotCacheBytes := bytes
          fetchedSnapshotCache := some (cache ++ [pair]) }.send (.l4BookUpdates pair.2 pair.1), .ok ())

/-- Apply at most one queued pair to the live books. -/
def advance (self : OrderBookListener) : OrderBookListener × Except Fault Unit :=
  match self.orderBookState with
  | none => (self, .ok ())
  | some book =>
    match self.popCache with
    | (none, self) => (self, .ok ())
    | (some pair, self) =>
      if pair.1.blockNumber ≤ book.height then (self, .ok ())
      else
        match book.applyUpdates pair.1 pair.2 with
        | (book, .error fault) => ({ self with orderBookState := some book }, .error fault)
        | (book, .ok ()) => recordPair { self with orderBookState := some book } pair

def receiveBatch (self : OrderBookListener) (now : Instant) (updates : EventBatch) :
    OrderBookListener × Except Fault Unit :=
  match self.accept now updates with
  | .error e => (self, .error (.error e))
  | .ok self => self.advance

def beginCaching (self : OrderBookListener) (now : Instant) : OrderBookListener :=
  { self with
    snapshotCacheStarted := some now
    snapshotCacheBytes := 0
    fetchedSnapshotCache := some [] }

/-- Take the cached pairs and stop collecting. -/
def takeCache (self : OrderBookListener) : List BlockPair × OrderBookListener :=
  (self.fetchedSnapshotCache.getD [], { self with
    snapshotCacheStarted := none
    snapshotCacheBytes := 0
    fetchedSnapshotCache := none })

/-- The loop that brings new books up to the queued pairs. Nothing is left of the
books when a pair does not apply; every turn takes a block of statuses off. -/
def initLoop : ℕ → OrderBookListener → OrderBookState →
    OrderBookListener × Except Fault (Option OrderBookState)
  | 0, self, newOrderBook => (self, .ok (some newOrderBook))
  | turns + 1, self, newOrderBook =>
    match self.popCache with
    | (none, self) => (self, .ok (some newOrderBook))
    | (some pair, self) =>
      match newOrderBook.applyUpdates pair.1 pair.2 with
      | (_, .error .panic) => (self, .error .panic)
      | (_, .error (.error _)) => (self, .ok none)
      | (newOrderBook, .ok ()) => initLoop turns self newOrderBook

def initFromSnapshot (self : OrderBookListener) (snapshot : Snapshots InnerL4Order) (height : ℕ) :
    OrderBookListener × Except Fault Unit :=
  let newOrderBook := OrderBookState.fromSnapshot snapshot height 0 true self.ignoreSpot
  match initLoop (self.orderStatusCache.deque.length + 1) self newOrderBook with
  | (self, .error fault) => (self, .error fault)
  | (self, .ok none) => (self, .ok ())
  | (self, .ok (some newOrderBook)) => ({ self with orderBookState := some newOrderBook }, .ok ())

/-- The views of the live books, once for each height. -/
def l2Snapshots (self : OrderBookListener) (preventFutureSnaps : Bool) :
    Option (ℕ × ℕ × L2Snapshots) × OrderBookListener :=
  match self.orderBookState with
  | none => (none, self)
  | some book =>
    ((book.l2Snapshots preventFutureSnaps).1,
      { self with orderBookState := some (book.l2Snapshots preventFutureSnaps).2 })

/-- Publish the views of the live books unless they were at this height. -/
def publishViews (self : OrderBookListener) : OrderBookListener :=
  match self.l2Snapshots true with
  | (none, self) => self
  | (some (time, height, l2Snapshots), self) => self.send (.snapshot l2Snapshots time height)

def computeL2Snapshot (self : OrderBookListener) :
    Option (ℕ × ℕ × L2Snapshots) × OrderBookListener :=
  match self.orderBookState with
  | none => (none, self)
  | some book =>
    (some book.computeL2Snapshot.1, { self with orderBookState := some book.computeL2Snapshot.2 })

def computeSnapshot (self : OrderBookListener) : Option TimedSnapshots :=
  self.orderBookState.map OrderBookState.computeSnapshot

/-- Replay cached pairs until the books reach a height: the books and the pairs
left, or nothing when the pairs run out before. -/
def replayTo (height : ℕ) : OrderBookState → List BlockPair →
    Except Fault (Option (OrderBookState × List BlockPair))
  | state, [] => if state.height < height then .ok none else .ok (some (state, []))
  | state, pair :: cache =>
    if state.height < height then
      match state.applyUpdates pair.1 pair.2 with
      | (_, .error fault) => .error fault
      | (state, .ok ()) => replayTo height state cache
    else .ok (some (state, pair :: cache))

/-- Replay all pairs, in order, until one does not apply. -/
def replay : OrderBookState → List BlockPair → Except Fault OrderBookState
  | state, [] => .ok state
  | state, pair :: cache =>
    match state.applyUpdates pair.1 pair.2 with
    | (_, .error fault) => .error fault
    | (state, .ok ()) => replay state cache

/-- Rebuild the books from a snapshot and the pairs cached after it. -/
def rebuild (self : OrderBookListener) (expectedSnapshot : Snapshots InnerL4Order) (height time : ℕ)
    (cache : List BlockPair) (emptyAdditions : Bool) : OrderBookListener × Except Fault Unit :=
  let recovered := OrderBookState.fromSnapshot expectedSnapshot height time true self.ignoreSpot
  match replay recovered cache with
  | .error fault => (self, .error fault)
  | .ok recovered =>
    let self := { self with orderBookState := some recovered }
    (if emptyAdditions then self.publishViews else self.send .gap, .ok ())

/-- Compare a snapshot of the node with the captured books replayed to its height,
and reload the live books where they differ. -/
def reconcileSnapshot (mapOrder : MapOrder) (self : OrderBookListener)
    (state : Option OrderBookState) (expectedSnapshot : Snapshots InnerL4Order) (height : ℕ)
    (cache : List BlockPair) : OrderBookListener × Except Fault Unit :=
  match state with
  | none => self.initFromSnapshot expectedSnapshot height
  | some state =>
    match replayTo height state cache with
    | .error fault => (self, .error fault)
    | .ok none => (self, .ok ())
    | .ok (some (state, cache)) =>
      if state.height > height then (self, .ok ())
      else
        let baseline := state.computeSnapshot
        match validateSnapshotConsistency mapOrder baseline.snapshot expectedSnapshot
            self.ignoreSpot with
        | .ok .equal => (self, .ok ())
        | .ok .emptyBooksAdded => self.rebuild expectedSnapshot height baseline.time cache true
        | .error _ => self.rebuild expectedSnapshot height 0 cache false

/-- End a snapshot attempt; nothing happens when its epoch has passed. -/
def finishSnapshot (mapOrder : MapOrder) (self : OrderBookListener) (epoch : BitVec 64)
    (state : Option OrderBookState) (snapshot : Snapshots InnerL4Order) (height : ℕ) :
    OrderBookListener × Except Fault Unit :=
  if self.recoveryEpoch ≠ epoch then (self, .ok ())
  else reconcileSnapshot mapOrder self.takeCache.2 state snapshot height self.takeCache.1

/-- The part of the maintenance tick that concerns the listener. -/
def maintenance (self : OrderBookListener) (now : Instant) : OrderBookListener :=
  let self := if self.snapshotCacheStarted.any fun at_ => decide (now - at_ > self.limits.queueAge) then
      { self with recoveryEpoch := self.recoveryEpoch + 1 }.takeCache.2
    else self
  if self.orderStatusCache.expired self.limits now || self.orderDiffCache.expired self.limits now then
    self.fence
  else self

/-! ### Records -/

/-- `split_inclusive('\n')`, `cur` being the record read so far. -/
def splitInclusive (cur : List Char) : List Char → List (List Char)
  | [] => if cur.isEmpty then [] else [cur]
  | c :: rest =>
    if c = '\n' then (cur ++ [c]) :: splitInclusive [] rest else splitInclusive (cur ++ [c]) rest

/-- `trim_end_matches(['\r', '\n'])` -/
def trimEnd (record : List Char) : List Char :=
  record.rdropWhile fun c => decide (c = '\r' ∨ c = '\n')

/-- The batch a line of a source holds. -/
def parseLine (serde : SerdeJson) (source : EventSource) (line : String) (scope : CoinScope) :
    Except String EventBatch :=
  match source with
  | .fills => EventBatch.fills <$> Batch.parseInScope serde (.fills serde) line scope
  | .orderStatuses => EventBatch.orders <$> Batch.parseInScope serde (.statuses serde) line scope
  | .orderDiffs => EventBatch.bookDiffs <$> Batch.parseInScope serde (.diffs serde) line scope

/-- The loop over the records of a turn; `clock` is read once a record. A batch
that fails discards the live books. -/
def processRecords (serde : SerdeJson) (source : EventSource) (clock : ℕ → Instant) :
    OrderBookListener → List (List Char) → OrderBookListener × Except Fault Unit
  | self, [] => (self, .ok ())
  | self, record :: records =>
    if record.getLast? ≠ some '\n' then (self, .error (.error .incompleteRecord))
    else
      let line := trimEnd record
      if line.isEmpty then processRecords serde source clock self records
      else
        match parseLine serde source (String.ofList line) self.scope with
        | .error message => (self, .error (.error (.malformedRecord source message)))
        | .ok batch =>
          match self.receiveBatch (clock records.length) batch with
          | (self, .error fault) => ({ self with orderBookState := none }, .error fault)
          | (self, .ok ()) => processRecords serde source clock self records

def processData (serde : SerdeJson) (self : OrderBookListener) (data : String)
    (source : EventSource) (clock : ℕ → Instant) : OrderBookListener × Except Fault Unit :=
  match processRecords serde source clock self (splitInclusive [] data.toList) with
  | (self, .error fault) => (self, .error fault)
  | (self, .ok ()) => (self.publishViews, .ok ())

/-- A turn of the reader under the lock: what was read is processed, and an error
fences the stream. Nothing comes after a panic. -/
def turn (serde : SerdeJson) (self : OrderBookListener) (data : String) (source : EventSource)
    (clock : ℕ → Instant) : Option OrderBookListener :=
  if data.isEmpty then some self
  else
    match self.processData serde data source clock with
    | (self, .ok ()) => some self
    | (self, .error (.error _)) => some self.fence
    | (_, .error .panic) => none

end OrderBookListener
end OrderBookServer
