import OrderBookServer.Feed

/-!
# Messages to clients

What a connection sends: the confirmation of a subscription, an L2 frame, an L4
snapshot or the updates of a block, the trades of a batch of fills, or an error.
-/
namespace OrderBookServer

structure Level where
  px : String
  sz : String
  n : ℕ
  deriving DecidableEq, Repr

def Level.ofInner (level : InnerLevel) : Level :=
  ⟨Px.toStr level.px, Sz.toStr level.sz, level.n⟩

def Level.toJson (level : Level) : List Char :=
  '\x7b' :: JsonText.field "px" (JsonText.string level.px)
    (',' :: JsonText.field "sz" (JsonText.string level.sz)
      (',' :: JsonText.field "n" (JsonText.number level.n) ['\x7d']))

def Snapshot.exportInnerSnapshot (self : Snapshot InnerLevel) : Snapshot Level :=
  ⟨self.bids.map Level.ofInner, self.asks.map Level.ofInner⟩

structure L2Book where
  coin : String
  time : ℕ
  height : ℕ
  levels : Snapshot Level
  deriving DecidableEq, Repr

def L2Book.fromL2Snapshot (coin : String) (snapshot : Snapshot Level) (time height : ℕ) : L2Book :=
  ⟨coin, time, height, snapshot⟩

def L2Book.toJson (book : L2Book) : List Char :=
  let sides := [book.levels.bids, book.levels.asks]
  '\x7b' :: JsonText.field "coin" (JsonText.string book.coin)
    (',' :: JsonText.field "time" (JsonText.number book.time)
      (',' :: JsonText.field "height" (JsonText.number book.height)
        (',' :: JsonText.field "levels"
          (JsonText.array (sides.map fun side => JsonText.array (side.map Level.toJson)))
          ['\x7d'])))

/-- An order as it is sent, with its price and size as text. -/
def L4Order.ofInner (order : InnerL4Order) : L4Order where
  user := some order.user
  coin := order.coin.value
  side := order.side
  limitPx := Px.toStr order.limitPx
  sz := Sz.toStr order.sz
  oid := order.oid
  timestamp := order.timestamp
  triggerCondition := order.triggerCondition
  isTrigger := order.isTrigger
  triggerPx := order.triggerPx
  isPositionTpsl := order.isPositionTpsl
  reduceOnly := order.reduceOnly
  orderType := order.orderType
  tif := order.tif
  cloid := order.cloid

inductive L4Book where
  | snapshot (coin : String) (time height : ℕ) (levels : Snapshot L4Order)
  | updates (updates : L4BookUpdates)
  deriving DecidableEq, Repr

structure Trade where
  coin : String
  side : Side
  px : String
  sz : String
  hash : String
  time : ℕ
  tid : ℕ
  /-- The buyer and the seller. -/
  users : Address × Address
  deriving DecidableEq, Repr

/-- The trade of a fill on each side, if both are of one trade. -/
def Trade.fromFills (fills : HashMap Side NodeDataFill) : Option Trade := do
  let ⟨seller, askFill⟩ ← fills.lookup .ask
  let ⟨buyer, bidFill⟩ ← (fills.erase .ask).lookup .bid
  if askFill.coin ≠ bidFill.coin ∨ askFill.tid ≠ bidFill.tid then none
  else
    let side := if askFill.crossed then Side.ask else Side.bid
    some ⟨askFill.coin, side, askFill.px, askFill.sz, askFill.hash, askFill.time, askFill.tid,
      (buyer, seller)⟩

/-- The loop over the fills, two at a time from the back. -/
def pairFills (trades : HashMap String (List Trade)) :
    List NodeDataFill → HashMap String (List Trade)
  | f2 :: f1 :: rest =>
    let fills : HashMap Side NodeDataFill :=
      (Finmap.singleton f1.fill.side f1).insert f2.fill.side f2
    match Trade.fromFills fills with
    | some trade => pairFills (trades.upsert trade.coin [] (· ++ [trade])) rest
    | none => pairFills trades rest
  | _ => trades

def coinToTrades (batch : Batch NodeDataFill) : HashMap String (List Trade) :=
  (pairFills ∅ batch.events.reverse).mapValues fun _ list => list.reverse

inductive ServerResponse where
  | subscriptionResponse (message : ClientMessage)
  | l2Book (book : L2Book)
  | l4Book (book : L4Book)
  | trades (trades : List Trade)
  | error (message : String)
  deriving DecidableEq, Repr

/-- The text of an L2 frame. -/
def ServerResponse.l2Frame (book : L2Book) : String :=
  String.ofList ('\x7b' :: JsonText.field "channel" (JsonText.string "l2Book")
    (',' :: JsonText.field "data" book.toJson ['\x7d']))

example : ServerResponse.l2Frame ⟨"#10", 1000, 1, ⟨[⟨"34", "11.5", 7⟩], []⟩⟩ =
    "\x7b\"channel\":\"l2Book\",\"data\":\x7b\"coin\":\"#10\",\"time\":1000,\"height\":1," ++
      "\"levels\":[[\x7b\"px\":\"34\",\"sz\":\"11.5\",\"n\":7\x7d],[]]\x7d\x7d" := by
  decide

end OrderBookServer
