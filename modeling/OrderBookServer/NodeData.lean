import OrderBookServer.Orders
import Mathlib.Data.Finset.Basic

/-!
# Records of the node

The node writes one record a line and a block: a batch of order statuses, of book
diffs or of fills. A record is read in full when every coin is in scope. Else the
record is read with its events left raw, each event is probed for its coin, and
only the events in scope are read in full.

The tokens of a line and the leaves of a record are read by `SerdeJson`, which
stands for the tokeniser and the decoders of leaves; the decoders of records are
derived from their fields.
-/
namespace OrderBookServer

/-- A parsed JSON value. -/
inductive Json where
  | null
  | bool (b : Bool)
  | num (text : String)
  | str (s : String)
  | arr (elems : List Json)
  | obj (fields : List (String × Json))

namespace Json

/-- One field of an object, null for an optional one that is left out. Unknown fields
are skipped, and a field given twice is refused. -/
def field (optional : List String) (fields : List (String × Json)) (name : String) :
    Except String Json :=
  match fields.filter fun f => f.1 = name with
  | [f] => .ok f.2
  | [] => if name ∈ optional then .ok .null else .error s!"missing field {name}"
  | _ => .error s!"duplicate field {name}"

/-- The fields of a record in the order of its declaration. An array gives all of them
by position. -/
def fields (optional names : List String) : Json → Except String (List Json)
  | .obj fields => names.mapM (field optional fields)
  | .arr elems => if elems.length = names.length then .ok elems else .error "invalid length"
  | _ => .error "invalid type"

end Json

/-- A time without a zone, in nanoseconds from the epoch. -/
structure NaiveDateTime where
  nanos : ℤ
  deriving DecidableEq, Repr

def NaiveDateTime.timestampMillis (t : NaiveDateTime) : ℤ := t.nanos / 1000000

structure NodeDataOrderDiff where
  user : Address
  oid : ℕ
  px : String
  coin : String
  rawBookDiff : OrderDiff
  deriving DecidableEq, Repr

def NodeDataOrderDiff.price (self : NodeDataOrderDiff) : Except String ℕ := Px.parseFromStr self.px

structure NodeDataOrderStatus where
  time : NaiveDateTime
  user : Address
  status : String
  order : L4Order
  deriving DecidableEq, Repr

def NodeDataOrderStatus.isInsertedIntoBook (self : NodeDataOrderStatus) : Bool :=
  (self.status == "open" && !self.order.isTrigger && self.order.tif != some "Ioc") ||
    (self.order.isTrigger && self.status == "triggered")

structure Liquidation where
  liquidatedUser : String
  markPx : String
  method : String
  deriving DecidableEq, Repr

structure Fill where
  coin : String
  px : String
  sz : String
  side : Side
  time : ℕ
  startPosition : String
  dir : String
  closedPnl : String
  hash : String
  oid : ℕ
  crossed : Bool
  fee : String
  tid : ℕ
  feeToken : String
  liquidation : Option Liquidation
  deriving DecidableEq, Repr

structure NodeDataFill where
  user : Address
  fill : Fill
  deriving DecidableEq, Repr

/-- The coins whose books, trades and updates are kept. -/
structure CoinScope where
  isAll : Bool
  extra : Finset String

/-- A hash sign and then one digit at least, and nothing but digits. -/
def isHip4Coin (coin : String) : Bool :=
  match coin.toList with
  | '#' :: id => !id.isEmpty && id.all Char.isDigit
  | _ => false

namespace CoinScope

def all : CoinScope := ⟨true, ∅⟩

def contains (self : CoinScope) (coin : String) : Bool :=
  self.isAll || isHip4Coin coin || decide (coin ∈ self.extra)

@[simp] theorem contains_all (coin : String) : all.contains coin = true := rfl

theorem contains_of_isAll {scope : CoinScope} (h : scope.isAll = true) (coin : String) :
    scope.contains coin = true := by simp [contains, h]

end CoinScope

/-- One block of one source. -/
structure Batch (E : Type) where
  localTime : NaiveDateTime
  blockTime : NaiveDateTime
  blockNumber : ℕ
  events : List E
  wireBytes : ℕ
  deriving DecidableEq, Repr

namespace Batch

variable {E : Type}

/-- `block_time()`: the milliseconds, or nothing where the conversion panics. -/
def blockTimeMillis (self : Batch E) : Option ℕ :=
  if 0 ≤ self.blockTime.timestampMillis then some self.blockTime.timestampMillis.toNat else none

/-- A block without events, for runs on fixed inputs. -/
def emptyBlock (height : ℕ) : Batch E := ⟨⟨0⟩, ⟨0⟩, height, [], 0⟩

def withWireBytes (self : Batch E) (bytes : ℕ) : Batch E := { self with wireBytes := bytes }

end Batch

/-- A block whose events are left raw. -/
structure RawBatch where
  localTime : NaiveDateTime
  blockTime : NaiveDateTime
  blockNumber : ℕ
  events : List Json

/-- The tokeniser and the decoders of leaves. -/
structure SerdeJson where
  tokenise : String → Except String Json
  dateTime : Json → Except String NaiveDateTime
  /-- A 64-bit word. -/
  word : Json → Except String ℕ
  address : Json → Except String Address
  side : Json → Except String Side
  rawBookDiff : Json → Except String OrderDiff

namespace SerdeJson

def string : Json → Except String String
  | .str s => .ok s
  | _ => .error "invalid type"

def bool : Json → Except String Bool
  | .bool b => .ok b
  | _ => .error "invalid type"

def array : Json → Except String (List Json)
  | .arr elems => .ok elems
  | _ => .error "invalid type"

def pair (value : Json) : Except String (Json × Json) := do
  match ← array value with
  | [fst, snd] => return (fst, snd)
  | _ => .error "invalid length"

def option {A : Type} (decode : Json → Except String A) : Json → Except String (Option A)
  | .null => .ok none
  | value => some <$> decode value

/-- The coin of a diff, by itself. -/
def coinProbe (raw : Json) : Except String String := do
  match ← raw.fields [] ["coin"] with
  | [coin] => string coin
  | _ => .error "invalid length"

/-- The coin of a status, which its order carries. -/
def orderStatusProbe (raw : Json) : Except String String := do
  match ← raw.fields [] ["order"] with
  | [order] => coinProbe order
  | _ => .error "invalid length"

/-- The coin of a fill, the second of a pair. -/
def fillProbe (raw : Json) : Except String String := do
  coinProbe (← pair raw).2

variable (serde : SerdeJson)

def l4Order (value : Json) : Except String L4Order := do
  match ← value.fields ["user", "tif", "cloid"]
    ["user", "coin", "side", "limitPx", "sz", "oid", "timestamp", "triggerCondition", "isTrigger",
      "triggerPx", "isPositionTpsl", "reduceOnly", "orderType", "tif", "cloid"] with
  | [user, coin, side, limitPx, sz, oid, timestamp, triggerCondition, isTrigger, triggerPx,
      isPositionTpsl, reduceOnly, orderType, tif, cloid] =>
    return {
      user := ← option serde.address user
      coin := ← string coin
      side := ← serde.side side
      limitPx := ← string limitPx
      sz := ← string sz
      oid := ← serde.word oid
      timestamp := ← serde.word timestamp
      triggerCondition := ← string triggerCondition
      isTrigger := ← bool isTrigger
      triggerPx := ← string triggerPx
      isPositionTpsl := ← bool isPositionTpsl
      reduceOnly := ← bool reduceOnly
      orderType := ← string orderType
      tif := ← option string tif
      cloid := ← option string cloid }
  | _ => .error "invalid length"

def orderStatus (value : Json) : Except String NodeDataOrderStatus := do
  match ← value.fields [] ["time", "user", "status", "order"] with
  | [time, user, status, order] =>
    return {
      time := ← serde.dateTime time
      user := ← serde.address user
      status := ← string status
      order := ← serde.l4Order order }
  | _ => .error "invalid length"

def orderDiff (value : Json) : Except String NodeDataOrderDiff := do
  match ← value.fields [] ["user", "oid", "px", "coin", "raw_book_diff"] with
  | [user, oid, px, coin, rawBookDiff] =>
    return {
      user := ← serde.address user
      oid := ← serde.word oid
      px := ← string px
      coin := ← string coin
      rawBookDiff := ← serde.rawBookDiff rawBookDiff }
  | _ => .error "invalid length"

def liquidation (value : Json) : Except String Liquidation := do
  match ← value.fields [] ["liquidatedUser", "markPx", "method"] with
  | [liquidatedUser, markPx, method] =>
    return ⟨← string liquidatedUser, ← string markPx, ← string method⟩
  | _ => .error "invalid length"

def fill (value : Json) : Except String Fill := do
  match ← value.fields ["liquidation"]
    ["coin", "px", "sz", "side", "time", "startPosition", "dir", "closedPnl", "hash", "oid",
      "crossed", "fee", "tid", "feeToken", "liquidation"] with
  | [coin, px, sz, side, time, startPosition, dir, closedPnl, hash, oid, crossed, fee, tid, feeToken,
      liquidation] =>
    return {
      coin := ← string coin
      px := ← string px
      sz := ← string sz
      side := ← serde.side side
      time := ← serde.word time
      startPosition := ← string startPosition
      dir := ← string dir
      closedPnl := ← string closedPnl
      hash := ← string hash
      oid := ← serde.word oid
      crossed := ← bool crossed
      fee := ← string fee
      tid := ← serde.word tid
      feeToken := ← string feeToken
      liquidation := ← option SerdeJson.liquidation liquidation }
  | _ => .error "invalid length"

def nodeDataFill (value : Json) : Except String NodeDataFill := do
  let (user, fill) ← pair value
  return ⟨← serde.address user, ← serde.fill fill⟩

/-- The line of an empty block of height 6. -/
def emptyBlockLine : String := "[\"1970-01-01T00:00:00\",\"1970-01-01T00:00:00\",6,[]]"

/-- A reader of the given lines, for runs on fixed inputs. -/
def ofLines (lines : List (String × Json)) : SerdeJson where
  tokenise line := (lines.lookup line).elim (.error "expected value") .ok
  dateTime
    | .str "1970-01-01T00:00:00" => .ok ⟨0⟩
    | _ => .error "invalid type"
  word
    | .num "4" => .ok 4
    | .num "5" => .ok 5
    | .num "6" => .ok 6
    | _ => .error "invalid type"
  address
    | .str "0x0000000000000000000000000000000000000000" => .ok 0
    | _ => .error "invalid type"
  side
    | .str "A" => .ok .ask
    | .str "B" => .ok .bid
    | _ => .error "invalid type"
  rawBookDiff
    | .str "remove" => .ok .remove
    | _ => .error "invalid type"

def ofEmptyBlock : SerdeJson :=
  ofLines [(emptyBlockLine,
    .arr [.str "1970-01-01T00:00:00", .str "1970-01-01T00:00:00", .num "6", .arr []])]

end SerdeJson

/-- A source's events: how they are read, and how they are probed for a coin. -/
structure ScopedEvent (E : Type) where
  decode : Json → Except String E
  probe : Json → Except String String
  coin : E → String

namespace ScopedEvent

variable {E : Type}

def inScope (event : ScopedEvent E) (raw : Json) (scope : CoinScope) : Except String Bool := do
  return scope.contains (← event.probe raw)

def statuses (serde : SerdeJson) : ScopedEvent NodeDataOrderStatus :=
  ⟨serde.orderStatus, SerdeJson.orderStatusProbe, fun s => s.order.coin⟩

def diffs (serde : SerdeJson) : ScopedEvent NodeDataOrderDiff :=
  ⟨serde.orderDiff, SerdeJson.coinProbe, fun d => d.coin⟩

def fills (serde : SerdeJson) : ScopedEvent NodeDataFill :=
  ⟨serde.nodeDataFill, SerdeJson.fillProbe, fun f => f.fill.coin⟩

/-- The events in scope, read in full; the others are only probed. -/
def decodeInScope (event : ScopedEvent E) (scope : CoinScope) : List Json → Except String (List E)
  | [] => return []
  | raw :: rest => do
    if ← event.inScope raw scope then
      let e ← event.decode raw
      return e :: (← event.decodeInScope scope rest)
    else event.decodeInScope scope rest

end ScopedEvent

def RawBatch.decode (serde : SerdeJson) (value : Json) : Except String RawBatch := do
  match ← value.fields [] ["local_time", "block_time", "block_number", "events"] with
  | [localTime, blockTime, blockNumber, events] =>
    let localTime ← serde.dateTime localTime
    let blockTime ← serde.dateTime blockTime
    let blockNumber ← serde.word blockNumber
    let events ← SerdeJson.array events
    return ⟨localTime, blockTime, blockNumber, events⟩
  | _ => .error "invalid length"

namespace Batch

variable {E : Type}

/-- The derived decoder of a batch: that of the raw batch, and every event in full. -/
def decode (serde : SerdeJson) (event : ScopedEvent E) (value : Json) : Except String (Batch E) := do
  let raw ← RawBatch.decode serde value
  let events ← raw.events.mapM event.decode
  return ⟨raw.localTime, raw.blockTime, raw.blockNumber, events, 0⟩

/-- Parse one block record, keeping only the events in scope. -/
def parseInScope (serde : SerdeJson) (event : ScopedEvent E) (line : String) (scope : CoinScope) :
    Except String (Batch E) := do
  let value ← serde.tokenise line
  if scope.isAll then
    let batch ← decode serde event value
    return batch.withWireBytes line.utf8ByteSize
  else
    let raw ← RawBatch.decode serde value
    let events ← event.decodeInScope scope raw.events
    return ⟨raw.localTime, raw.blockTime, raw.blockNumber, events, line.utf8ByteSize⟩

end Batch

inductive EventSource where
  | fills
  | orderStatuses
  | orderDiffs
  deriving DecidableEq, Repr

inductive EventBatch where
  | orders (batch : Batch NodeDataOrderStatus)
  | bookDiffs (batch : Batch NodeDataOrderDiff)
  | fills (batch : Batch NodeDataFill)

/-- The errors of the listener, one for each text in the source. -/
inductive Error where
  /-- Expecting block {expected}, got block {got} -/
  | unexpectedBlock (expected got : ℕ)
  /-- a price or size that is not a number -/
  | parse (message : String)
  /-- Unable to find insertBefore order on the book {diff} -/
  | missingInsertBefore (diff : NodeDataOrderDiff)
  /-- Unable to find order opening status {diff} -/
  | missingOpeningStatus (diff : NodeDataOrderDiff)
  /-- Unable to find order on the book {diff} -/
  | missingOrder (diff : NodeDataOrderDiff)
  /-- unmatched queue byte counter overflow -/
  | queueByteOverflow
  /-- unmatched queue limit: bytes={bytes}, heights={heights} -/
  | queueLimit (bytes heights : ℕ)
  /-- paired batch byte counter overflow -/
  | pairedByteOverflow
  /-- validation byte counter overflow -/
  | validationByteOverflow
  /-- incomplete record escaped the bounded file cursor -/
  | incompleteRecord
  /-- malformed {source} record: {message} -/
  | malformedRecord (source : EventSource) (message : String)
  deriving DecidableEq, Repr

/-- How a call can end early: with an error, or in a panic. -/
inductive Fault where
  | error (e : Error)
  | panic
  deriving DecidableEq, Repr

/-- A number read from a text, as a step of a call. -/
def parsed {A : Type} : Except String A → Except Fault A
  | .ok a => .ok a
  | .error message => .error (.error (.parse message))

end OrderBookServer
