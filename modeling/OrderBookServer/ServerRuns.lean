import OrderBookServer.Server
import OrderBookServer.SentViews
import OrderBookServer.Rendering
import OrderBookServer.L4Delivery

/-!
# Runs of the server

The connections do not reach into the loop of the listener, so a run of the server is one of
the loop with turns of the connections in between. What the loop keeps holds of the server,
and what a connection sends is what the loop has read of the files: every frame and every
push is of books made of a snapshot and of lines, or of such lines themselves. To each
connection the server is a listener of its own, however many others there are.
-/
namespace OrderBookServer
namespace Server

open HlListen OrderBookListener

variable {toString : ServerResponse → Except String String}
  {fromStr : String → Except String Subscription} {serde : SerdeJson}
  {changes : Disk → Disk → Prop} {ignoreSpot : Bool} {limits : SourceLimits}
  {roots : List (PathBuf × EventSource)} {scope : CoinScope} {disk : Disk} {now : Instant}
  {s s' : Server} {out more : List Output} {id : ℕ}

/-! ### The loop and the sockets -/

def loopOf (out : List Output) : List Happening :=
  out.filterMap fun
    | .loop happening => some happening
    | .sent _ _ => none

@[simp] theorem loopOf_append (out more : List Output) :
    loopOf (out ++ more) = loopOf out ++ loopOf more := List.filterMap_append

@[simp] theorem loopOf_loop (out : List Happening) : loopOf (out.map .loop) = out := by
  simp [loopOf, List.filterMap_map]

@[simp] theorem loopOf_sent (id : ℕ) (log : List Sent) : loopOf (log.map (.sent id)) = [] := by
  simp [loopOf, List.filterMap_map]

@[simp] theorem leave_loop (s : Server) (id : ℕ) (after : Option Client) :
    (s.leave id after).loop = s.loop := by
  cases after <;> rfl

/-- A step of the server is one of the loop, or leaves the loop alone. -/
theorem step_loop (h : Step toString fromStr serde changes ignoreSpot s more s') :
    HlListen.Step serde changes s.loop (loopOf more) s'.loop ∨
      s'.loop = s.loop ∧ loopOf more = [] := by
  cases h with
  | loop h => exact .inl (by simpa using h)
  | accept hpermit => exact .inr ⟨rfl, rfl⟩
  | client hclient h => exact .inr (by simp)

theorem run_loop (h : Run (Step toString fromStr serde changes ignoreSpot)
      (starts limits roots ignoreSpot scope disk now) out s) :
    Run (HlListen.Step serde changes) (HlListen.starts limits roots ignoreSpot scope disk now)
      (loopOf out) s.loop := by
  refine h.invariant (fun out s => Run (HlListen.Step serde changes)
    (HlListen.starts limits roots ignoreSpot scope disk now) (loopOf out) s.loop) .refl ?_
  intro out more s s' _ hloop hstep
  rw [loopOf_append]
  obtain hstep | ⟨hsame, hnone⟩ := step_loop hstep
  · exact hloop.tail hstep
  · rw [hsame, hnone, List.append_nil]
    exact hloop

/-- What is written to the socket of a connection. -/
def sentTo (id : ℕ) (out : List Output) : List Sent :=
  out.filterMap fun
    | .sent id' x => if id' = id then some x else none
    | .loop _ => none

@[simp] theorem sentTo_append (id : ℕ) (out more : List Output) :
    sentTo id (out ++ more) = sentTo id out ++ sentTo id more := List.filterMap_append

@[simp] theorem sentTo_loop (id : ℕ) (out : List Happening) : sentTo id (out.map .loop) = [] := by
  simp [sentTo, List.filterMap_map]

@[simp] theorem sentTo_sent (id id' : ℕ) (log : List Sent) :
    sentTo id (log.map (.sent id')) = if id' = id then log else [] := by
  split_ifs with h <;> simp [sentTo, List.filterMap_map, h]

theorem lookup_leave (s : Server) (id id' : ℕ) (after : Option Client) :
    (s.leave id after).clients.lookup id' = if id' = id then after else s.clients.lookup id' := by
  cases after with
  | none => simp [leave, HashMap.lookup_erase_ite]
  | some client => simp [leave, HashMap.lookup_insert_ite]

theorem lookup_leave_of_ne (s : Server) {id id' : ℕ} (after : Option Client) (h : id' ≠ id) :
    (s.leave id after).clients.lookup id' = s.clients.lookup id' := by
  rw [lookup_leave, if_neg h]

theorem lookup_leave_self (s : Server) (id : ℕ) (after : Option Client) :
    (s.leave id after).clients.lookup id = after := by
  rw [lookup_leave, if_pos rfl]

/-- While the connections do nothing a run of the loop is one of the server. -/
theorem run_of_loop {out : List Happening} {loop : HlListen}
    (h : Run (HlListen.Step serde changes) s.loop out loop) :
    Run (Step toString fromStr serde changes ignoreSpot) s (out.map .loop)
      { s with loop := loop } := by
  refine h.invariant (fun out loop => Run (Step toString fromStr serde changes ignoreSpot) s
    (out.map .loop) { s with loop := loop }) .refl ?_
  intro out more loop loop' _ hrun hstep
  rw [List.map_append]
  exact hrun.tail (Step.loop hstep)

/-- While the books are live and a permit is free, a client is let in. -/
theorem run_opened {first : Server}
    (h : Run (Step toString fromStr serde changes ignoreSpot) first out s)
    (hpermit : s.clients.keys.card < maxConnections) (hready : s.loop.listener.isReady = true) :
    ∃ clients : HashMap ℕ Client, Run (Step toString fromStr serde changes ignoreSpot) first out
        ⟨s.loop, clients, s.nextId + 1⟩ ∧
      clients.keys = insert s.nextId s.clients.keys ∧
      clients.lookup s.nextId = some (.streaming (Client.messages s.loop.listener).length
        (.start s.loop.listener)) ∧
      ∀ other ≠ s.nextId, clients.lookup other = s.clients.lookup other := by
  have hstep {clients : HashMap ℕ Client} {client next : Client}
      (hrun : Run (Step toString fromStr serde changes ignoreSpot) first out
        ⟨s.loop, clients, s.nextId + 1⟩)
      (hclient : clients.lookup s.nextId = some client)
      (h : client.Step toString fromStr ignoreSpot s.loop.listener [] (some next)) :
      Run (Step toString fromStr serde changes ignoreSpot) first out
        ⟨s.loop, clients.insert s.nextId next, s.nextId + 1⟩ := by
    simpa [leave] using hrun.tail (.client hclient h)
  have haccepted : Run (Step toString fromStr serde changes ignoreSpot) first out
      ⟨s.loop, s.clients.insert s.nextId .upgrading, s.nextId + 1⟩ := by
    simpa using h.tail (.accept hpermit)
  let received := (Client.messages s.loop.listener).length
  have hjoined := hstep haccepted (Finmap.lookup_insert _) .join
  have hasked := hstep hjoined (Finmap.lookup_insert _) (.ask received)
  rw [hready] at hasked
  have hstarted := hstep hasked (Finmap.lookup_insert _) (.start received)
  refine ⟨_, hstarted, by simp [HashMap.keys_insert], Finmap.lookup_insert _, fun other hne => ?_⟩
  simp [hne]

/-- A turn after which the connection goes on. -/
theorem run_turn {first : Server} {received next : ℕ} {connection connection' : Connection}
    {e : Connection.Event} {log : List Sent}
    (h : Run (Step toString fromStr serde changes ignoreSpot) first out s)
    (hclient : s.clients.lookup id = some (.streaming received connection))
    (hturn : Client.Turn toString s.loop.listener received connection e next)
    (hstep : connection.step fromStr ignoreSpot e = (connection', true))
    (hsent : connection'.sent = connection.sent ++ log) :
    Run (Step toString fromStr serde changes ignoreSpot) first (out ++ log.map (.sent id))
      (s.leave id (some (.streaming next connection'))) := by
  have hmore := h.tail (.client hclient (.turn hturn))
  simpa [hstep, Client.newly, hsent] using hmore

/-! ### Clients of the book of a coin -/

def btcFrames : Subscription := .l2Book "BTC" none none none

def frameToString : ServerResponse → Except String String
  | .l2Book book => .ok (ServerResponse.l2Frame book)
  | _ => .error "not an L2 frame"

/-- What is read of the listener and of the cache, at the time of the book. -/
def btcReading (l : OrderBookListener) (answer : Option String) : Connection.Reading :=
  ⟨l, 0, 0, .ok answer, .ok answer⟩

/-- The frame of the coin, with one order of size 1 at price 1 or none. -/
def bidFrame : String := ServerResponse.l2Frame ⟨"BTC", 0, 5, ⟨[⟨"1", "1", 1⟩], []⟩⟩

def noBidFrame : String := ServerResponse.l2Frame ⟨"BTC", 0, 6, ⟨[], []⟩⟩

def bidStart : Connection := ⟨⟨∅⟩, ∅, {"BTC"}, []⟩

def bidFirst : Connection :=
  ((bidStart.subscribed btcFrames).reply
    (.subscriptionResponse (.subscribe btcFrames))).delivered btcFrames 5 bidFrame

def bidSecond : Connection :=
  ((bidFirst.subscribed (.l4Book "BTC")).reply
    (.subscriptionResponse (.subscribe (.l4Book "BTC")))).send
      (.push (.l4Book "BTC") (.l4Book (.snapshot "BTC" 0 5 ⟨[.ofInner restingBid], []⟩)))

/-- Both subscriptions are walked. -/
def receiveBoth (message : InternalMessage) : Connection.Event :=
  .broadcast message [btcFrames, .l4Book "BTC"] 0 (fun _ => 0) fun sub =>
    match message with
    | .snapshot views time height => BookWireCache.encode frameToString sub views time height
    | _ => .ok none

/-- What the clients meet before the block. -/
def Shown (before : OrderBookListener) : Prop :=
  before.isReady = true ∧ (Connection.start before).coins = {"BTC"} ∧
  (Client.messages before).length = 1 ∧
  (before.computeL2Snapshot.1.map fun out => (out.1, out.2.1,
    BookWireCache.encode frameToString btcFrames out.2.2 out.1 out.2.1)) =
      some (0, 5, .ok (some bidFrame)) ∧
  (Subscription.l4Book "BTC").handleImmediateSnapshot before 0 =
    .ok (some (.l4Book (.snapshot "BTC" 0 5 ⟨[.ofInner restingBid], []⟩)))

instance (before : OrderBookListener) : Decidable (Shown before) :=
  inferInstanceAs (Decidable (_ ∧ _ ∧ _ ∧ _ ∧ _))

/-- A client is sent the updates of the block, and then the next frame. -/
def Delivers (block views : InternalMessage) (updates : L4BookUpdates) : Prop :=
  let third := bidSecond.step Socket.unread false (receiveBoth block)
  let last := third.1.step Socket.unread false (receiveBoth views)
  updates.height = 6 ∧ third.2 = true ∧
  third.1.manager.subscriptions = bidSecond.manager.subscriptions ∧
  third.1.sent = bidSecond.sent ++ [.push (.l4Book "BTC") (.l4Book (.updates updates))] ∧
  last.2 = true ∧ last.1.sent = third.1.sent ++ [.frame btcFrames 6 noBidFrame]

instance (block views : InternalMessage) (updates : L4BookUpdates) :
    Decidable (Delivers block views updates) :=
  inferInstanceAs (Decidable (_ ∧ _ ∧ _ ∧ _ ∧ _ ∧ _))

theorem bidTurns_served : ∃ p ∈ bidTurns (fun before => before), Shown p.1 ∧
    ∃ block ∈ (Client.messages p.2)[1]?, ∃ views ∈ (Client.messages p.2)[2]?,
      ∃ updates ∈ coinUpdates "BTC" block, Delivers block views updates := by
  simp only [bidTurns, OrderBookListener.turn,
    processData_line arrayDiffLine (by decide) (by decide +kernel),
    processData_line SerdeJson.emptyBlockLine (by decide) (by decide +kernel)]
  decide +kernel

/-- A broadcast is handled without a look at how subscriptions are parsed. -/
theorem step_receiveBoth (fromStr fromStr' : String → Except String Subscription)
    (connection : Connection) (message : InternalMessage) :
    connection.step fromStr ignoreSpot (receiveBoth message) =
      connection.step fromStr' ignoreSpot (receiveBoth message) := by
  cases message <;> rfl

theorem admits_receiveBoth (connection : Connection) (message : InternalMessage)
    (hheld : connection.manager.subscriptions = {btcFrames, .l4Book "BTC"}) :
    (receiveBoth message).Admits frameToString connection := by
  have hwalks : connection.Walks [btcFrames, .l4Book "BTC"] :=
    ⟨by decide, by rw [hheld]; rfl⟩
  cases message with
  | snapshot views time height =>
    exact ⟨hwalks, fun sub _ => Connection.answers_encode frameToString sub views time height⟩
  | _ => exact hwalks

section
variable {l : OrderBookListener} (hshown : Shown l)
include hshown

theorem start_of_shown : Connection.start l = bidStart := by
  obtain ⟨-, hcoins, -⟩ := hshown
  rw [bidStart, ← hcoins]
  rfl

theorem step_btcFrames (hround : ∀ sub : Subscription, fromStr sub.toJson = .ok sub) :
    bidStart.step fromStr false (.request (.subscribe btcFrames) (btcReading l (some bidFrame))) =
      (bidFirst, true) := by
  obtain ⟨-, -, -, hframe, -⟩ := hshown
  obtain ⟨⟨time, height, views⟩, hcurrent, heq⟩ := Option.map_eq_some_iff.mp hframe
  obtain ⟨rfl, rfl, -⟩ : time = 0 ∧ height = 5 ∧ _ := by simpa using heq
  have hrecent : requireRecentSource 0 0 = .ok () := by decide
  have haccepts : (bidStart.subscribed btcFrames).startL2 fromStr btcFrames
      (btcReading l (some bidFrame)) = (bidFirst, .ok ()) :=
    Connection.startL2_accepts rfl (Finmap.lookup_empty _) (hround btcFrames) hcurrent rfl rfl
      hrecent hrecent
  have hmanager : bidStart.manager.subscriptions = ∅ := rfl
  have hnew := Connection.receive_new fromStr (btcReading l (some bidFrame)) (by simp [hmanager])
    (show btcFrames.validate bidStart.coins = true by decide +kernel)
    (by simp [hmanager, maxSubscriptions])
  exact congrArg (fun out => (out.1, out.2.isOk)) (hnew.trans haccepts)

theorem step_btcBook : bidFirst.step fromStr false
    (.request (.subscribe (.l4Book "BTC")) (btcReading l none)) = (bidSecond, true) := by
  obtain ⟨-, -, -, -, hbook⟩ := hshown
  have hother : (bidFirst.subscribed (.l4Book "BTC")).startOther (.l4Book "BTC")
      (btcReading l none) = (bidSecond, .ok ()) := by
    simp [Connection.startOther, btcReading, hbook, bidSecond]
  have hmanager : bidFirst.manager.subscriptions = {btcFrames} := rfl
  have hnew := Connection.receive_new fromStr (btcReading l none) (by simp [hmanager, btcFrames])
    (show (Subscription.l4Book "BTC").validate bidFirst.coins = true by decide +kernel)
    (by simp [hmanager, maxSubscriptions])
  exact congrArg (fun out => (out.1, out.2.isOk)) (hnew.trans hother)

theorem served_btcFrames :
    (btcReading l (some bidFrame)).Served frameToString btcFrames := by
  obtain ⟨-, -, -, hframe, -⟩ := hshown
  intro time height views hviews
  have hcurrent : l.computeL2Snapshot.1 = some (time, height, views) := hviews
  rw [hcurrent] at hframe
  obtain ⟨rfl, rfl, hbytes⟩ : time = 0 ∧ height = 5 ∧
      BookWireCache.encode frameToString btcFrames views time height = .ok (some bidFrame) := by
    simpa using hframe
  have hanswers := Connection.answers_encode frameToString btcFrames views 0 5
  rw [hbytes] at hanswers
  exact ⟨hanswers, hanswers⟩

omit hshown in
theorem served_btcBook : (btcReading l none).Served frameToString (.l4Book "BTC") := by
  intro time height views _
  have hanswers := Connection.answers_encode frameToString (.l4Book "BTC") views time height
  exact ⟨hanswers, hanswers⟩

end

/-- Two clients have subscribed to the frames before the block. -/
theorem run_framed {before after : OrderBookListener}
    (hturns : bidTurns (fun before => before) = some (before, after)) (hshown : Shown before) :
    ∃ (fromStr : String → Except String Subscription) (out : List Output) (s : Server),
      (∀ sub : Subscription, fromStr sub.toJson = .ok sub) ∧
      Run (Step frameToString fromStr restingReader Disk.Grows false)
        (starts .DEFAULT blockSixRoots false .all blockSixFiles.disk 0) out s ∧
      (∀ id ∈ [1, 2], s.clients.lookup id = some (.streaming 1 bidFirst)) ∧
      sentTo 1 out = bidFirst.sent ∧ givenBy (loopOf out) = [(bidSnapshot, 5)] ∧
      queuedBy (loopOf out) = queuedData restingReader bidListener (SerdeJson.emptyBlockLine ++ "\n")
        .orderStatuses (fun _ => 0) ∧
      Awaits ["diffs", "6"] s.loop ∧ s.loop.listener = before := by
  have : Nonempty Subscription := ⟨btcFrames⟩
  let fromStr (text : String) : Except String Subscription :=
    .ok (Function.invFun Subscription.toJson text)
  have hround (sub : Subscription) : fromStr sub.toJson = .ok sub :=
    congrArg Except.ok (Function.leftInverse_invFun Subscription.toJson_injective sub)
  obtain ⟨loop, hloop, hawaits, -, rfl⟩ := run_statuses (bidTurns_iff.mp hturns).1
  have hrun : Run (Step frameToString fromStr restingReader Disk.Grows false)
      (starts .DEFAULT blockSixRoots false .all blockSixFiles.disk 0) _ ⟨loop, ∅, 1⟩ :=
    run_of_loop (s := starts .DEFAULT blockSixRoots false .all blockSixFiles.disk 0) hloop
  have hready := hshown.1
  have hone := hshown.2.2.1
  obtain ⟨clients, hopened, hkeys, hfirst, -⟩ := run_opened hrun (by simp [maxConnections]) hready
  obtain ⟨clients', hopened', -, hsecond, hother⟩ := run_opened hopened
    (by simp [hkeys, maxConnections]) hready
  dsimp only at hfirst hsecond hother hopened'
  rw [← hother 1 (by decide), hone, start_of_shown hshown] at hfirst
  rw [hone, start_of_shown hshown] at hsecond
  have hturn := run_turn hopened' hfirst
    (.request (.subscribe btcFrames) (btcReading _ (some bidFrame)) rfl (served_btcFrames hshown))
    (step_btcFrames hshown hround) rfl
  have hturn' := run_turn hturn ((lookup_leave_of_ne _ _ (by decide)).trans hsecond)
    (.request (.subscribe btcFrames) (btcReading _ (some bidFrame)) rfl (served_btcFrames hshown))
    (step_btcFrames hshown hround) rfl
  refine ⟨fromStr, _, _, hround, hturn', ?_, ?_, ?_, ?_, hawaits, rfl⟩
  · rw [List.forall_mem_cons, List.forall_mem_singleton]
    exact ⟨(lookup_leave_of_ne _ _ (by decide)).trans (lookup_leave_self _ 1 _),
      lookup_leave_self _ 2 _⟩
  · simp only [sentTo_append, sentTo_loop, sentTo_sent]
    rfl
  · simp only [loopOf_append, loopOf_loop, loopOf_sent, List.append_nil]
    rfl
  · simp only [loopOf_append, loopOf_loop, loopOf_sent, List.append_nil]
    simp [queuedBy]

/-- The first of them subscribes to the L4 book as well. -/
theorem turn_btcBook (l : OrderBookListener) : Client.Turn frameToString l 1 bidFirst
    (.request (.subscribe (.l4Book "BTC")) (btcReading l none)) 1 :=
  .request _ _ rfl served_btcBook

/-- The block is read, and the first client is sent its updates and the next frame. -/
theorem run_delivered {before after : OrderBookListener} {block views : InternalMessage}
    {updates : L4BookUpdates}
    (hturns : bidTurns (fun before => before) = some (before, after))
    (hblock : (Client.messages after)[1]? = some block)
    (hviews : (Client.messages after)[2]? = some views) (hdelivers : Delivers block views updates)
    (hawaits : Awaits ["diffs", "6"] s.loop) (hlistener : s.loop.listener = before)
    (hclient : s.clients.lookup 1 = some (.streaming 1 bidSecond)) :
    ∃ (more : List Output) (s' : Server) (connection : Connection),
      Run (Step frameToString fromStr restingReader Disk.Grows false) s more s' ∧
      s'.clients.lookup 1 = some (.streaming 3 connection) ∧
      s'.clients.lookup 2 = s.clients.lookup 2 ∧
      sentTo 1 more = [.push (.l4Book "BTC") (.l4Book (.updates updates)),
        .frame btcFrames 6 noBidFrame] ∧
      givenBy (loopOf more) = [] ∧ queuedBy (loopOf more) = queuedData restingReader before
        (arrayDiffLine ++ "\n") .orderDiffs (fun _ => 0) := by
  obtain ⟨-, hthird, hheld, hpushed, hlast, hframe⟩ := hdelivers
  simp only [step_receiveBoth Socket.unread fromStr] at hthird hheld hpushed hlast hframe
  subst hlistener
  obtain ⟨cursors, -, hread⟩ := hawaits.run .diffs (bidTurns_iff.mp hturns).2
  have hlisten : Run (Step frameToString fromStr restingReader Disk.Grows false) s _ _ :=
    run_of_loop hread
  have hboth : bidSecond.manager.subscriptions = {btcFrames, .l4Book "BTC"} :=
    Finset.pair_comm _ _
  have hupdates := run_turn hlisten hclient (.receive _ _ _ _ hblock
    (admits_receiveBoth bidSecond block hboth)) (Prod.ext rfl hthird) hpushed
  have hshown := run_turn hupdates (lookup_leave_self _ 1 _) (.receive _ _ _ _ hviews
    (admits_receiveBoth _ views (hheld.trans hboth))) (Prod.ext rfl hlast) hframe
  refine ⟨_, _, _, hshown, lookup_leave_self _ 1 _, ?_, ?_, ?_, ?_⟩
  · rw [lookup_leave_of_ne _ _ (by decide), lookup_leave_of_ne _ _ (by decide)]
  · simp only [sentTo_append, sentTo_loop, sentTo_sent]
    rfl
  · simp only [loopOf_append, loopOf_loop, loopOf_sent, List.append_nil]
    rfl
  · simp only [loopOf_append, loopOf_loop, loopOf_sent, List.append_nil]
    simp [queuedBy]

/-- Two clients have subscribed, and the block is delivered to the first of them. -/
theorem run_two_clients : ∃ (fromStr : String → Except String Subscription)
    (out more : List Output) (s s' : Server) (connection : Connection) (updates : L4BookUpdates),
    (∀ sub : Subscription, fromStr sub.toJson = .ok sub) ∧ updates.height = 6 ∧
    Run (Step frameToString fromStr restingReader Disk.Grows false)
      (starts .DEFAULT blockSixRoots false .all blockSixFiles.disk 0) out s ∧
    Run (Step frameToString fromStr restingReader Disk.Grows false) s more s' ∧
    s.clients.lookup 1 = some (.streaming 1 bidSecond) ∧ sentTo 1 out = bidSecond.sent ∧
    s'.clients.lookup 1 = some (.streaming 3 connection) ∧
    sentTo 1 more = [.push (.l4Book "BTC") (.l4Book (.updates updates)),
      .frame btcFrames 6 noBidFrame] ∧
    s'.clients.lookup 2 = some (.streaming 1 bidFirst) := by
  obtain ⟨⟨before, after⟩, hturns, hshown, block, hblock, views, hviews, updates, -, hdelivers⟩ :=
    bidTurns_served
  obtain ⟨fromStr, out, s, hround, hrun, hclients, hsent, -, -, hawaits, hlistener⟩ :=
    run_framed hturns hshown
  rw [List.forall_mem_cons, List.forall_mem_singleton] at hclients
  subst hlistener
  have hturn := run_turn hrun hclients.1 (turn_btcBook _) (step_btcBook hshown) rfl
  obtain ⟨more, s', connection, hmore, hclient, hother, hlog, -⟩ :=
    run_delivered hturns hblock hviews hdelivers (by rw [leave_loop]; exact hawaits)
      (congrArg HlListen.listener (leave_loop s 1 _)) (lookup_leave_self s 1 _)
  refine ⟨fromStr, _, more, _, s', connection, updates, hround, hdelivers.1, hturn, hmore,
    lookup_leave_self s 1 _, ?_, hclient, hlog, ?_⟩
  · rw [sentTo_append, hsent, sentTo_sent]
    rfl
  · rw [hother, lookup_leave_of_ne _ _ (by decide)]
    exact hclients.2

/-! ### What is sent comes from the files -/

/-- What was sent, as it stands in the files: nothing is asked of a reply. -/
inductive Backed (toString : ServerResponse → Except String String) (serde : SerdeJson)
    (first : HlListen) (out : List Happening) (s : HlListen) : Sent → Prop
  | reply (response : ServerResponse) :
      Backed toString serde first out s (.reply response)
  /-- A frame encodes the views of books that were live. -/
  | frame {sub : Subscription} {book : OrderBookState} {text : String}
      (hbook : BookOfLines serde first out s book)
      (h : BookWireCache.encode toString sub book.computeL2Snapshot.1.2.2 book.time book.height =
        .ok (some text)) :
      Backed toString serde first out s (.frame sub book.height text)
  | snapshot {coin : String} {book : OrderBookState} {orders : Snapshot InnerL4Order}
      (hbook : BookOfLines serde first out s book)
      (h : book.orderBook.toSnapshots.lookup ⟨coin⟩ = some orders) :
      Backed toString serde first out s
        (.push (.l4Book coin) (.l4Book (.snapshot coin book.time book.height
          ⟨orders.bids.map L4Order.ofInner, orders.asks.map L4Order.ofInner⟩)))
  | trades {batch : Batch NodeDataFill} {coin : String} {trades : List Trade}
      (hline : LineOf serde first out s (.fills batch))
      (h : (coinToTrades batch).lookup coin = some trades) :
      Backed toString serde first out s (.push (.trades coin) (.trades trades))
  | updates {diffBatch : Batch NodeDataOrderDiff} {statusBatch : Batch NodeDataOrderStatus}
      {coin : String} {updates : L4BookUpdates}
      (hdiffs : LineOf serde first out s (.bookDiffs diffBatch))
      (hstatuses : LineOf serde first out s (.orders statusBatch))
      (h : coinUpdates coin (.l4BookUpdates diffBatch statusBatch) = some updates) :
      Backed toString serde first out s
        (.push (.l4Book coin) (.l4Book (.updates updates)))

variable {first l l' : HlListen} {past later : List Happening} {x : Sent}

theorem bookOfLines_step {book : OrderBookState} (h : BookOfLines serde first past l book)
    (hstep : HlListen.Step serde Disk.Grows l later l') :
    BookOfLines serde first (past ++ later) l' book := by
  obtain ⟨file, snapshot, height, pairs, hgiven, hfile, hhistory, hlines⟩ := h
  refine ⟨file, snapshot, height, pairs, by simp [hgiven], hfile,
    ⟨fun p hp => (hhistory.paired p hp).mono (by simp), hhistory.consecutive, hhistory.reached,
      hhistory.replayed⟩, fun p hp => ?_⟩
  obtain ⟨hstatuses, hdiffs⟩ := hlines p hp
  exact ⟨hstatuses.step hstep, hdiffs.step hstep⟩

theorem Backed.step (h : Backed toString serde first past l x)
    (hstep : HlListen.Step serde Disk.Grows l later l') :
    Backed toString serde first (past ++ later) l' x := by
  cases h with
  | reply response => exact .reply response
  | frame hbook h => exact .frame (bookOfLines_step hbook hstep) h
  | snapshot hbook h => exact .snapshot (bookOfLines_step hbook hstep) h
  | trades hline h => exact .trades (hline.step hstep) h
  | updates hdiffs hstatuses h => exact .updates (hdiffs.step hstep) (hstatuses.step hstep) h

theorem exists_log_of_mem {self : OrderBookListener} {message : InternalMessage}
    (h : message ∈ Client.messages self) :
    ∃ log, self.internalMessageTx = some log ∧ message ∈ log := by
  cases hlog : self.internalMessageTx with
  | none => simp [Client.messages, hlog] at h
  | some log => exact ⟨log, rfl, by simpa [Client.messages, hlog] using h⟩

/-- A connection without others, in a run of a listener. It joins the broadcasts, finds the books
ready, and reads the coins; then it takes turns, in which what it reads is what the listener has
and what is encoded of it. -/
inductive Alone (toString : ServerResponse → Except String String) (serde : SerdeJson)
    (fromStr : String → Except String Subscription) (limits : ResourceLimits) (ignoreSpot : Bool)
    (scope : CoinScope) : Socket → Prop
  | opened {joined ready fetch : FetchWorld} {log : List InternalMessage}
    (hjoined : Relation.ReflTransGen (FetchWorld.Step serde) (.start limits ignoreSpot scope) joined)
    (hlog : joined.listener.internalMessageTx = some log)
    (hready : Relation.ReflTransGen (FetchWorld.Step serde) joined ready)
    (hisReady : ready.listener.isReady = true)
    (hstart : Relation.ReflTransGen (FetchWorld.Step serde) ready fetch) :
    Alone toString serde fromStr limits ignoreSpot scope
      ⟨fetch, .start fetch.listener, true, log.length, log.length⟩
  | listener {w : Socket} {fetch : FetchWorld}
    (h : Alone toString serde fromStr limits ignoreSpot scope w)
    (hstep : FetchWorld.Step serde w.fetch fetch) :
    Alone toString serde fromStr limits ignoreSpot scope { w with fetch := fetch }
  | turn {w : Socket} {e : Connection.Event} {next : ℕ}
    (h : Alone toString serde fromStr limits ignoreSpot scope w) (hopen : w.goesOn = true)
    (hturn : Client.Turn toString w.fetch.listener w.received w.connection e next) :
    Alone toString serde fromStr limits ignoreSpot scope
      { w.turn fromStr ignoreSpot e with received := next }

/-- A connection at some point, and what was written to its socket. Once it has ended, that is
what one that is alone would have sent, or the beginning of it. -/
inductive Follows (toString : ServerResponse → Except String String) (serde : SerdeJson)
    (fromStr : String → Except String Subscription) (limits : ResourceLimits) (ignoreSpot : Bool)
    (scope : CoinScope) (fetch : FetchWorld) : Option Client → List Sent → Prop
  | upgrading : Follows toString serde fromStr limits ignoreSpot scope fetch (some .upgrading) []
  | joined {joined : FetchWorld} {log : List InternalMessage}
    (hjoined : Relation.ReflTransGen (FetchWorld.Step serde) (.start limits ignoreSpot scope) joined)
    (hlog : joined.listener.internalMessageTx = some log)
    (h : Relation.ReflTransGen (FetchWorld.Step serde) joined fetch) :
    Follows toString serde fromStr limits ignoreSpot scope fetch (some (.joined log.length)) []
  | asked {joined ready : FetchWorld} {log : List InternalMessage}
    (hjoined : Relation.ReflTransGen (FetchWorld.Step serde) (.start limits ignoreSpot scope) joined)
    (hlog : joined.listener.internalMessageTx = some log)
    (hready : Relation.ReflTransGen (FetchWorld.Step serde) joined ready)
    (h : Relation.ReflTransGen (FetchWorld.Step serde) ready fetch) :
    Follows toString serde fromStr limits ignoreSpot scope fetch
      (some (.asked log.length ready.listener.isReady)) []
  | streaming {joined received : ℕ} {connection : Connection}
    (h : Alone toString serde fromStr limits ignoreSpot scope
      ⟨fetch, connection, true, joined, received⟩) :
    Follows toString serde fromStr limits ignoreSpot scope fetch
      (some (.streaming received connection)) connection.sent
  | refused : Follows toString serde fromStr limits ignoreSpot scope fetch none [Client.notReady]
  | absent : Follows toString serde fromStr limits ignoreSpot scope fetch none []
  | gone {w : Socket} {log : List Sent}
    (h : Alone toString serde fromStr limits ignoreSpot scope w)
    (hlog : log <+: w.connection.sent) :
    Follows toString serde fromStr limits ignoreSpot scope fetch none log

variable {queueLimits : ResourceLimits} {world world' : FetchWorld} {log : List Sent}
  {client : Client} {after : Option Client}

theorem Alone.fetch {w : Socket} (h : Alone toString serde fromStr queueLimits ignoreSpot scope w)
    (hworld : Relation.ReflTransGen (FetchWorld.Step serde) w.fetch world') :
    Alone toString serde fromStr queueLimits ignoreSpot scope { w with fetch := world' } := by
  induction hworld with
  | refl => exact h
  | tail _ hstep ih => exact ih.listener hstep

theorem Follows.fetch
    (h : Follows toString serde fromStr queueLimits ignoreSpot scope world after log)
    (hworld : Relation.ReflTransGen (FetchWorld.Step serde) world world') :
    Follows toString serde fromStr queueLimits ignoreSpot scope world' after log := by
  cases h with
  | upgrading => exact .upgrading
  | joined hjoined hlog h => exact .joined hjoined hlog (h.trans hworld)
  | asked hjoined hlog hready h => exact .asked hjoined hlog hready (h.trans hworld)
  | streaming h => exact .streaming (h.fetch hworld)
  | refused => exact .refused
  | absent => exact .absent
  | gone h hlog => exact .gone h hlog

theorem walks_of_turn {self : OrderBookListener} {received next : ℕ} {connection : Connection}
    {e : Connection.Event} (h : Client.Turn toString self received connection e next) :
    e.Walks connection := by
  cases h with
  | @receive message order start now encoded hnext hadmits =>
    cases message with
    | snapshot views time height => exact hadmits.1
    | _ => exact hadmits
  | request => trivial
  | malformed => trivial

theorem sent_turn {self : OrderBookListener} {received next : ℕ} {connection : Connection}
    {e : Connection.Event} (ignoreSpot : Bool)
    (h : Client.Turn toString self received connection e next) :
    (connection.step fromStr ignoreSpot e).1.sent =
      connection.sent ++ Client.newly connection (connection.step fromStr ignoreSpot e).1 := by
  obtain ⟨log, hlog, -⟩ := Connection.step_tells fromStr ignoreSpot (walks_of_turn h) ""
  simp [Client.newly, hlog]

/-- A turn within the server is one of a connection that is alone. -/
theorem socketStep_of_turn {joined received next : ℕ} {connection : Connection}
    {e : Connection.Event} (ignoreSpot : Bool)
    (h : Client.Turn toString world.listener received connection e next) :
    Socket.Step serde fromStr ignoreSpot ⟨world, connection, true, joined, received⟩
      ⟨world, (connection.step fromStr ignoreSpot e).1, (connection.step fromStr ignoreSpot e).2,
        joined, next⟩ := by
  have hwalks := walks_of_turn h
  cases h with
  | receive order start now encoded hnext hadmits =>
    exact .receive order start now encoded rfl hnext hwalks
  | request message reading hlistener hadmits => exact .request message reading rfl hlistener
  | malformed text => exact .malformed text rfl

/-- A connection that is alone is one of those of a listener. -/
theorem Alone.socket {w : Socket} (h : Alone toString serde fromStr queueLimits ignoreSpot scope w) :
    ∃ w₀, Socket.Opened serde queueLimits ignoreSpot scope w₀ ∧
      Relation.ReflTransGen (Socket.Step serde fromStr ignoreSpot) w₀ w := by
  induction h with
  | @opened joined ready fetch log hjoined hlog hready _ hstart =>
    refine ⟨_, .intro fetch.listener hjoined hlog, ?_⟩
    exact (hready.trans hstart).lift
      (fun f => (⟨f, .start fetch.listener, true, log.length, log.length⟩ : Socket))
      fun _ _ hstep => .listener hstep
  | listener _ hstep ih =>
    obtain ⟨w₀, hopened, hrun⟩ := ih
    exact ⟨w₀, hopened, hrun.tail (.listener hstep)⟩
  | @turn w e next _ hopen hturn ih =>
    obtain ⟨w₀, hopened, hrun⟩ := ih
    obtain ⟨fetch, connection, goesOn, joined, received⟩ := w
    dsimp only at hopen hturn
    subst hopen
    exact ⟨w₀, hopened, hrun.tail (socketStep_of_turn ignoreSpot hturn)⟩

/-- Whatever the connection does next, it goes on as one that is alone. -/
theorem Follows.step {more : List Sent}
    (hrun : Relation.ReflTransGen (FetchWorld.Step serde) (.start queueLimits ignoreSpot scope) world)
    (h : Follows toString serde fromStr queueLimits ignoreSpot scope world (some client) log)
    (hstep : client.Step toString fromStr ignoreSpot world.listener more after) :
    Follows toString serde fromStr queueLimits ignoreSpot scope world after (log ++ more) := by
  cases hstep with
  | join =>
    cases h
    obtain ⟨messages, hpublishes⟩ := (FetchWorld.run_sound hrun).publishes
    have hmessages := hpublishes.sender
    have hlength : (Client.messages world.listener).length = messages.length := by
      simp [Client.messages, hmessages]
    exact hlength ▸ .joined hrun hmessages .refl
  | ask received =>
    cases h with | joined hjoined hlog h => exact .asked hjoined hlog h .refl
  | start received =>
    generalize hready : true = isReady at h
    cases h with
    | asked hjoined hlog hasked h =>
      exact .streaming (.opened hjoined hlog hasked hready.symm h)
  | refuse received =>
    generalize false = isReady at h
    cases h
    exact .refused
  | turn hturn =>
    cases h with
    | streaming h =>
      rw [← sent_turn ignoreSpot hturn]
      have hnext := h.turn rfl hturn
      unfold Socket.turn at hnext
      split_ifs with hgoes
      · rw [hgoes] at hnext
        exact .streaming hnext
      · exact .gone hnext (List.prefix_refl _)
  | cut n hturn =>
    cases h with
    | streaming h =>
      refine .gone (h.turn rfl hturn) ?_
      dsimp only [Socket.turn]
      rw [sent_turn ignoreSpot hturn]
      exact (List.prefix_append_right_inj _).mpr (List.take_prefix n _)
  | leave =>
    rw [List.append_nil]
    cases h with
    | upgrading => exact .absent
    | joined => exact .absent
    | asked => exact .absent
    | streaming h => exact .gone h (List.prefix_refl _)

theorem Follows.alone {received : ℕ} {connection : Connection}
    (h : Follows toString serde fromStr queueLimits ignoreSpot scope world
      (some (.streaming received connection)) log) :
    log = connection.sent ∧ ∃ joined, Alone toString serde fromStr queueLimits ignoreSpot scope
      ⟨world, connection, true, joined, received⟩ := by
  cases h with | streaming h => exact ⟨rfl, _, h⟩

theorem Follows.told
    (h : Follows toString serde fromStr queueLimits ignoreSpot scope world after log) :
    log = [] ∨ log = [Client.notReady] ∨
      ∃ w, Alone toString serde fromStr queueLimits ignoreSpot scope w ∧
        log <+: w.connection.sent := by
  cases h with
  | streaming h => exact .inr (.inr ⟨_, h, List.prefix_refl _⟩)
  | refused => exact .inr (.inl rfl)
  | gone h hlog => exact .inr (.inr ⟨_, h, hlog⟩)
  | _ => exact .inl rfl

/-- What holds of each connection, accepted or not yet. -/
structure Serves (toString : ServerResponse → Except String String) (serde : SerdeJson)
    (fromStr : String → Except String Subscription) (limits : ResourceLimits) (ignoreSpot : Bool)
    (scope : CoinScope) (out : List Output) (s : Server) : Prop where
  follows : ∀ id, Follows toString serde fromStr limits ignoreSpot scope s.loop.fetchWorld
    (s.clients.lookup id) (sentTo id out)
  fresh : ∀ id, s.nextId ≤ id → s.clients.lookup id = none ∧ sentTo id out = []
  permits : s.clients.keys.card ≤ maxConnections

theorem leave_nextId (s : Server) (id : ℕ) (after : Option Client) :
    (s.leave id after).nextId = s.nextId := by
  cases after <;> rfl

/-- No permit is taken by a connection that has one. -/
theorem card_leave (hclient : s.clients.lookup id = some client) (after : Option Client) :
    (s.leave id after).clients.keys.card ≤ s.clients.keys.card := by
  cases after with
  | none => exact Finset.card_le_card (by simp [leave, Finmap.keys_erase, Finset.erase_subset])
  | some after =>
    have hmem : id ∈ s.clients.keys := Finmap.mem_keys.mpr (Finmap.mem_of_lookup_eq_some hclient)
    simp [leave, HashMap.keys_insert, Finset.insert_eq_of_mem hmem]

theorem run_serves (h : Run (Step toString fromStr serde changes ignoreSpot)
      (starts limits roots ignoreSpot scope disk now) out s) :
    Serves toString serde fromStr limits.toResourceLimits ignoreSpot scope out s := by
  refine h.invariant (Serves toString serde fromStr limits.toResourceLimits ignoreSpot scope) ?_ ?_
  · refine ⟨fun id => ?_, fun id _ => ?_, by simp [starts]⟩
    · simpa [starts, sentTo] using Follows.absent
    · simp [starts, sentTo]
  intro out more s s' hrun hs hstep
  have hloop := run_loop hrun
  have hopened := run_fetchWorld hloop
  cases hstep with
  | loop hstep =>
    have hworld := (step_concerns (run_single hloop) hstep).fetchWorld
    refine ⟨fun id => ?_, fun id hid => ?_, hs.permits⟩
    · simpa using (hs.follows id).fetch hworld
    · simpa using hs.fresh id hid
  | accept hpermit =>
    refine ⟨fun id => ?_, fun id hid => ?_, ?_⟩
    · rw [HashMap.lookup_insert_ite, List.append_nil]
      split_ifs with hid
      · rw [hid, (hs.fresh _ le_rfl).2]
        exact .upgrading
      · exact hs.follows id
    · have hlt : s.nextId < id := hid
      simpa [HashMap.lookup_insert_ite, hlt.ne'] using hs.fresh id hlt.le
    · have hone := Finset.card_insert_le s.nextId s.clients.keys
      rw [HashMap.keys_insert]
      omega
  | @client id client log after hclient hstep =>
    have hlt : id < s.nextId := by
      by_contra hle
      simp [(hs.fresh id (Nat.le_of_not_lt hle)).1] at hclient
    have hnext := Follows.step hopened (hclient ▸ hs.follows id) hstep
    refine ⟨fun id' => ?_, fun id' hid => ?_, (card_leave hclient after).trans hs.permits⟩
    · rw [lookup_leave, sentTo_append, sentTo_sent, leave_loop]
      by_cases hid : id' = id
      · rw [if_pos hid, if_pos hid.symm, hid]
        exact hnext
      · rw [if_neg hid, if_neg (Ne.symm hid), List.append_nil]
        exact hs.follows id'
    · rw [leave_nextId] at hid
      have hne : id' ≠ id := by omega
      obtain ⟨hnone, hsent⟩ := hs.fresh id' hid
      rw [lookup_leave, if_neg hne, sentTo_append, hsent, sentTo_sent, if_neg hne.symm]
      exact ⟨hnone, rfl⟩

end Server
end OrderBookServer
