import OrderBookServer.WireCache

/-!
# A connection

The loop of one connection: it takes the broadcasts in order and the messages of its
client, and writes to its socket. What it reads elsewhere on the way is part of the event:
the clock, the answers of the shared cache, the listener at the time of a request, and the
order in which the set of its subscriptions is walked. A call leaves the connection beside
its outcome, and an error ends the connection.
-/
namespace OrderBookServer

/-- What is written to the socket. A frame or a push is for a subscription, which the bytes
do not name. -/
inductive Sent where
  | reply (response : ServerResponse)
  | frame (subscription : Subscription) (height : ℕ) (encoded : String)
  | push (subscription : Subscription) (response : ServerResponse)
  deriving DecidableEq

structure Connection where
  manager : SubscriptionManager
  sentPositions : HashMap String ℕ
  /-- The coins that may be subscribed to. -/
  coins : Finset String
  /-- All that was written so far, oldest first. -/
  sent : List Sent

def requireRecentSource (now timeMs : ℕ) : Except String Unit :=
  if max now timeMs - min now timeMs > 3000 then
    .error "Source/queue age exceeded 3 seconds; resnapshot required"
  else .ok ()

/-- The snapshot that begins a stream, of the listener and at a time of the clock. -/
def Subscription.handleImmediateSnapshot (self : Subscription) (listener : OrderBookListener)
    (now : ℕ) : Except String (Option ServerResponse) :=
  match self with
  | .l2Book coin nSigFigs nLevels mantissa =>
    match listener.computeL2Snapshot.1 with
    | none => .error "Snapshot Failed"
    | some (time, height, snapshots) => do
      requireRecentSource now time
      match BookWireCache.levels snapshots coin nSigFigs nLevels mantissa with
      | some levels => .ok (some (.l2Book (.fromL2Snapshot coin levels time height)))
      | none => .error "Snapshot Failed"
  | .l4Book coin =>
    match listener.computeSnapshot with
    | none => .error "Snapshot Failed"
    | some ⟨time, height, snapshot⟩ => do
      requireRecentSource now time
      match snapshot.lookup ⟨coin⟩ with
      | some snapshot =>
        let levels := ⟨snapshot.bids.map L4Order.ofInner, snapshot.asks.map L4Order.ofInner⟩
        .ok (some (.l4Book (.snapshot coin time height levels)))
      | none => .error "Snapshot Failed"
  | .trades _ => .ok none

namespace Connection

def send (self : Connection) (sent : Sent) : Connection := { self with sent := self.sent ++ [sent] }

def reply (self : Connection) (response : ServerResponse) : Connection := self.send (.reply response)

/-- Send the frame of a subscription, if its height is new; whether it was sent. The frame
is what the shared cache answers. -/
def sendWsDataFromSnapshot (self : Connection) (now : ℕ) (subscription : Subscription)
    (time height : ℕ) (encoded : Except String (Option String)) :
    Connection × Except String Bool :=
  match subscription with
  | .l2Book .. =>
    match requireRecentSource now time with
    | .error e => (self, .error e)
    | .ok () =>
      if (self.sentPositions.lookup subscription.toJson).any fun previous => height ≤ previous then
        (self, .ok false)
      else
        match encoded with
        | .error e => (self, .error e)
        | .ok none => (self, .ok false)
        | .ok (some encoded) =>
          ({ self.send (.frame subscription height encoded) with
            sentPositions := self.sentPositions.insert subscription.toJson height }, .ok true)
  | _ => (self, .ok false)

/-- The loop over the subscriptions at a broadcast of views. -/
def sendViews (time height : ℕ) (now : Subscription → ℕ)
    (encoded : Subscription → Except String (Option String)) :
    Connection → List Subscription → Connection × Except String Unit
  | self, [] => (self, .ok ())
  | self, sub :: subs =>
    match self.sendWsDataFromSnapshot (now sub) sub time height (encoded sub) with
    | (self, .error e) => (self, .error e)
    | (self, .ok _) => sendViews time height now encoded self subs

/-- The stream of a batch, for what it is about and who asked for it. -/
structure Stream (V : Type) where
  name : String
  coin : Subscription → Option String
  response : V → ServerResponse

/-- A batch is refused once it is old. -/
def Stream.recent {V : Type} (stream : Stream V) (height time now : ℕ) : Except String Unit :=
  match requireRecentSource now time with
  | .ok () => .ok ()
  | .error e => .error (e ++ "; stream=" ++ stream.name ++ " height=" ++ toString height ++
      " source_time_ms=" ++ toString time)

/-- The loop over the subscriptions at a batch. What is sent for one is taken out. -/
def sendEach {V : Type} (stream : Stream V) (height time : ℕ) (now : Subscription → ℕ) :
    Connection → HashMap String V → List Subscription → Connection × Except String Unit
  | self, _, [] => (self, .ok ())
  | self, data, sub :: subs =>
    match stream.coin sub with
    | none => sendEach stream height time now self data subs
    | some coin =>
      match stream.recent height time (now sub) with
      | .error e => (self, .error e)
      | .ok () =>
        match data.lookup coin with
        | none => sendEach stream height time now self data subs
        | some v =>
          sendEach stream height time now (self.send (.push sub (stream.response v)))
            (data.erase coin) subs

/-- Send a batch, if a subscription is for its stream. A time of the batch that does not
convert ends the connection in a panic. -/
def sendBatch {V : Type} (stream : Stream V) (height : ℕ) (time : Option ℕ) (start : ℕ)
    (now : Subscription → ℕ) (data : HashMap String V) (self : Connection)
    (order : List Subscription) : Connection × Except String Unit :=
  if order.all fun sub => (stream.coin sub).isNone then (self, .ok ())
  else
    match time with
    | none => (self, .error "panic")
    | some time =>
      match stream.recent height time start with
      | .error e => (self, .error e)
      | .ok () => sendEach stream height time now self data order

def trades : Stream (List Trade) where
  name := "trades"
  coin | .trades coin => some coin | _ => none
  response := .trades

def l4 : Stream L4BookUpdates where
  name := "l4"
  coin | .l4Book coin => some coin | _ => none
  response updates := .l4Book (.updates updates)

def sendFillBatch (self : Connection) (batch : Batch NodeDataFill) (order : List Subscription)
    (start : ℕ) (now : Subscription → ℕ) : Connection × Except String Unit :=
  sendBatch trades batch.blockNumber batch.blockTimeMillis start now (coinToTrades batch) self order

def sendL4Batch (self : Connection) (diffBatch : Batch NodeDataOrderDiff)
    (statusBatch : Batch NodeDataOrderStatus) (order : List Subscription) (start : ℕ)
    (now : Subscription → ℕ) : Connection × Except String Unit :=
  sendBatch l4 diffBatch.blockNumber diffBatch.blockTimeMillis start now
    ((coinToBookUpdates diffBatch statusBatch).getD ∅) self order

/-- A subscription that is not kept after all. -/
def rollBack (self : Connection) (subscription : Subscription) (message : String) : Connection :=
  { self with manager := (self.manager.unsubscribe subscription).2 }.reply (.error message)

/-- What is read on the way of a request: the listener, the clock twice, and twice the
answer of the shared cache for the views of the listener. -/
structure Reading where
  listener : OrderBookListener
  now : ℕ
  later : ℕ
  view : Except String (Option String)
  encoded : Except String (Option String)

/-- The answer to a new subscription to L2 frames: its confirmation and the first frame. -/
def startL2 (fromStr : String → Except String Subscription) (self : Connection)
    (selection : Subscription) (reading : Reading) : Connection × Except String Unit :=
  let refused := self.rollBack selection "Unable to grab fresh order book snapshot"
  match reading.listener.computeL2Snapshot.1 with
  | none => (refused, .ok ())
  | some (time, height, _) =>
    match reading.view with
    | .error e => (self, .error e)
    | .ok view =>
      if view.isSome ∧ requireRecentSource reading.now time = .ok () then
        let self := self.reply (.subscriptionResponse (.subscribe selection))
        match fromStr selection.toJson with
        | .error e => (self, .error e)
        | .ok selection =>
          match self.sendWsDataFromSnapshot reading.later selection time height reading.encoded with
          | (self, .error e) => (self, .error e)
          | (self, .ok _) => (self, .ok ())
      else (refused, .ok ())

/-- The answer to any other new subscription: its confirmation and the snapshot, if any. -/
def startOther (self : Connection) (subscription : Subscription) (reading : Reading) :
    Connection × Except String Unit :=
  match subscription.handleImmediateSnapshot reading.listener reading.now with
  | .error err =>
    (self.rollBack subscription ("Unable to grab order book snapshot: " ++ err), .ok ())
  | .ok snapshotMsg =>
    let self := self.reply (.subscriptionResponse (.subscribe subscription))
    match snapshotMsg with
    | none => (self, .ok ())
    | some (.l2Book book) =>
      ({ self with
        sentPositions := self.sentPositions.insert subscription.toJson book.height }.send
          (.push subscription (.l2Book book)), .ok ())
    | some snapshotMsg => (self.send (.push subscription snapshotMsg), .ok ())

def startStream (fromStr : String → Except String Subscription) (self : Connection)
    (subscription : Subscription) (reading : Reading) : Connection × Except String Unit :=
  match subscription with
  | .l2Book .. => self.startL2 fromStr subscription reading
  | _ => self.startOther subscription reading

def receiveClientMessage (fromStr : String → Except String Subscription) (self : Connection)
    (clientMessage : ClientMessage) (reading : Reading) : Connection × Except String Unit :=
  match clientMessage with
  | .subscribe subscription =>
    if self.manager.subscriptions.card ≥ maxSubscriptions ∧
        subscription ∉ self.manager.subscriptions then
      (self.reply (.error "Subscription capacity reached"), .ok ())
    else if subscription.validate self.coins = false then
      (self.reply (.error ("Invalid subscription: " ++ subscription.toJson)), .ok ())
    else
      let out := self.manager.subscribe subscription
      let self := { self with manager := out.2 }
      if out.1 then self.startStream fromStr subscription reading
      else (self.reply (.error ("Already subscribed: " ++ subscription.toJson)), .ok ())
  | .unsubscribe subscription =>
    if subscription.validate self.coins = false then
      (self.reply (.error ("Invalid subscription: " ++ subscription.toJson)), .ok ())
    else
      let out := self.manager.unsubscribe subscription
      let self := { self with manager := out.2 }
      if out.1 then
        ({ self with sentPositions := self.sentPositions.erase subscription.toJson }.reply
          (.subscriptionResponse clientMessage), .ok ())
      else (self.reply (.error ("Already unsubscribed: " ++ subscription.toJson)), .ok ())

/-- One turn of the loop. -/
inductive Event where
  /-- A message of the listener, with the order in which the subscriptions are walked, the
  clock before and at each of them, and the answers of the shared cache for each. -/
  | broadcast (message : InternalMessage) (order : List Subscription) (start : ℕ)
    (now : Subscription → ℕ) (encoded : Subscription → Except String (Option String))
  | request (message : ClientMessage) (reading : Reading)
  | malformed (text : String)

/-- One turn of the loop, and whether it goes on. -/
def step (fromStr : String → Except String Subscription) (ignoreSpot : Bool) (self : Connection) :
    Event → Connection × Bool
  | .broadcast .gap _ _ _ _ => (self.reply (.error "Source gap; resnapshot required"), false)
  | .broadcast (.snapshot l2Snapshots time height) order _ now encoded =>
    let out := sendViews time height now encoded
      { self with coins := newUniverse l2Snapshots ignoreSpot } order
    (out.1, out.2.isOk)
  | .broadcast (.fills batch) order start now _ =>
    let out := self.sendFillBatch batch order start now
    (out.1, out.2.isOk)
  | .broadcast (.l4BookUpdates diffBatch statusBatch) order start now _ =>
    let out := self.sendL4Batch diffBatch statusBatch order start now
    (out.1, out.2.isOk)
  | .request message reading =>
    let out := self.receiveClientMessage fromStr message reading
    (out.1, out.2.isOk)
  | .malformed text =>
    (self.reply (.error ("Error parsing JSON into valid websocket request: " ++ text)), true)

end Connection
end OrderBookServer
