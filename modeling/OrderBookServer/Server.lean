import OrderBookServer.ListenRuns
import OrderBookServer.Delivery

/-!
# The server

`run_websocket_server` runs the loop of the listener and accepts connections, each with one
of a fixed number of permits. A connection joins the broadcasts, asks whether the books are
ready and which coins there are, one lock at a time, and then takes turns of its own until
it ends, at which its permit is free again. What the connections share is the listener, the
broadcasts, and the cache of frames, of which only the answers are seen.
-/
namespace OrderBookServer

/-- An accepted connection. -/
inductive Client where
  /-- `ws_handler` waits for the upgrade. -/
  | upgrading
  /-- `handle_socket` has joined the broadcasts; how many had been sent. -/
  | joined (received : ℕ)
  /-- It knows whether the books are ready. -/
  | asked (received : ℕ) (isReady : Bool)
  /-- Its loop goes on; how many of the broadcasts are behind it. -/
  | streaming (received : ℕ) (connection : Connection)

namespace Client

/-- The messages that were broadcast. -/
def messages (l : OrderBookListener) : List InternalMessage := l.internalMessageTx.getD []

def notReady : Sent :=
  .reply (.error "Order book not ready for streaming (waiting for snapshot)")

/-- What was sent in between. -/
def newly (before after : Connection) : List Sent := after.sent.drop before.sent.length

/-- A turn that a connection may take, and how many of the broadcasts are behind it then. -/
inductive Turn (toString : ServerResponse → Except String String) (l : OrderBookListener)
    (received : ℕ) (connection : Connection) : Connection.Event → ℕ → Prop
  | receive {message : InternalMessage} (order : List Subscription) (start : ℕ)
      (now : Subscription → ℕ) (encoded : Subscription → Except String (Option String))
      (hnext : (messages l)[received]? = some message)
      (hadmits : (Connection.Event.broadcast message order start now encoded).Admits toString
        connection) :
      Turn toString l received connection (.broadcast message order start now encoded)
        (received + 1)
  | request (message : ClientMessage) (reading : Connection.Reading)
      (hlistener : reading.listener = l)
      (hadmits : (Connection.Event.request message reading).Admits toString connection) :
      Turn toString l received connection (.request message reading) received
  | malformed (text : String) : Turn toString l received connection (.malformed text) received

theorem Turn.admits {toString : ServerResponse → Except String String} {l : OrderBookListener}
    {received next : ℕ} {connection : Connection} {e : Connection.Event}
    (h : Turn toString l received connection e next) : e.Admits toString connection := by
  cases h with
  | receive order start now encoded hnext hadmits => exact hadmits
  | request message reading hlistener hadmits => exact hadmits
  | malformed text => trivial

/-- What a connection does next, what it sends on the way, and whether it goes on. -/
inductive Step (toString : ServerResponse → Except String String)
    (fromStr : String → Except String Subscription) (ignoreSpot : Bool) (l : OrderBookListener) :
    Client → List Sent → Option Client → Prop
  | join : Step toString fromStr ignoreSpot l .upgrading [] (some (.joined (messages l).length))
  | ask (received : ℕ) :
    Step toString fromStr ignoreSpot l (.joined received) [] (some (.asked received l.isReady))
  | start (received : ℕ) :
    Step toString fromStr ignoreSpot l (.asked received true) []
      (some (.streaming received (.start l)))
  | refuse (received : ℕ) :
    Step toString fromStr ignoreSpot l (.asked received false) [notReady] none
  | turn {received next : ℕ} {connection : Connection} {e : Connection.Event}
    (h : Turn toString l received connection e next) :
    Step toString fromStr ignoreSpot l (.streaming received connection)
      (newly connection (connection.step fromStr ignoreSpot e).1)
      (if (connection.step fromStr ignoreSpot e).2 then
        some (.streaming next (connection.step fromStr ignoreSpot e).1)
      else none)
  /-- A write fails within a turn. -/
  | cut {received next : ℕ} {connection : Connection} {e : Connection.Event} (n : ℕ)
    (h : Turn toString l received connection e next) :
    Step toString fromStr ignoreSpot l (.streaming received connection)
      ((newly connection (connection.step fromStr ignoreSpot e).1).take n) none
  /-- The upgrade has failed, the client has gone away or sent what is not read, or the receiver
  has fallen behind. -/
  | leave (client : Client) : Step toString fromStr ignoreSpot l client [] none

end Client

structure Server where
  loop : HlListen
  clients : HashMap ℕ Client
  /-- `NEXT_ID` -/
  nextId : ℕ

namespace Server

def maxConnections : ℕ := 256

/-- What a step gives out: what happens in the loop of the listener, and what is written to the
socket of a connection. -/
inductive Output where
  | loop (happening : HlListen.Happening)
  | sent (id : ℕ) (sent : Sent)

/-- The connection is left as it is now; once it has ended its permit is free. -/
def leave (self : Server) (id : ℕ) : Option Client → Server
  | some client => { self with clients := self.clients.insert id client }
  | none => { self with clients := self.clients.erase id }

/-- One step of the loop of the listener with all that goes with it, or of a connection. -/
inductive Step (toString : ServerResponse → Except String String)
    (fromStr : String → Except String Subscription) (serde : SerdeJson)
    (changes : Disk → Disk → Prop) (ignoreSpot : Bool) : Server → List Output → Server → Prop
  | loop {s : Server} {out : List HlListen.Happening} {loop : HlListen}
    (h : HlListen.Step serde changes s.loop out loop) :
    Step toString fromStr serde changes ignoreSpot s (out.map .loop) { s with loop := loop }
  | accept {s : Server} (hpermit : s.clients.keys.card < maxConnections) :
    Step toString fromStr serde changes ignoreSpot s []
      { s with clients := s.clients.insert s.nextId .upgrading, nextId := s.nextId + 1 }
  | client {s : Server} {id : ℕ} {client : Client} {log : List Sent} {after : Option Client}
    (hclient : s.clients.lookup id = some client)
    (h : client.Step toString fromStr ignoreSpot s.loop.listener log after) :
    Step toString fromStr serde changes ignoreSpot s (log.map (.sent id)) (s.leave id after)

/-- The server as it starts. -/
def starts (limits : SourceLimits) (roots : List (PathBuf × EventSource)) (ignoreSpot : Bool)
    (scope : CoinScope) (disk : Disk) (now : Instant) : Server :=
  ⟨HlListen.starts limits roots ignoreSpot scope disk now, ∅, 1⟩

end Server
end OrderBookServer
