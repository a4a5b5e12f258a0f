import OrderBookServer.ServerStreams
import OrderBookServer.NodeLedger

/-!
# The book that a client holds

A client of an L4 book installs the snapshot that it is sent, and applies the updates that
follow by the rules of the server, but for those that the snapshot has already. In every run
of the server that is fed by a node it holds the orders of the book of the node.
-/
namespace OrderBookServer

open OrderBookState OrderBookListener InternalMessage

/-! ### What a client does -/

namespace L4BookUpdates

/-- A client applies the updates of one block after the other. -/
def applyAll : OrderBooks InnerL4Order → List L4BookUpdates →
    Except Fault (OrderBooks InnerL4Order)
  | books, [] => .ok books
  | books, updates :: rest =>
    match updates.apply books with
    | (_, .error fault) => .error fault
    | (books, .ok ()) => applyAll books rest

/-- A feed is followed by applying what is in it of the coin. -/
theorem applyAll_of_follow (coin : Coin) (books : OrderBooks InnerL4Order)
    (feed : List (HashMap String L4BookUpdates)) :
    applyAll books (feed.filterMap fun updates => updates.lookup coin.value) =
      follow coin books feed := by
  induction feed generalizing books with
  | nil => rfl
  | cons updates feed ih =>
    cases hlookup : updates.lookup coin.value with
    | none => simpa [follow, hlookup] using ih books
    | some mine =>
      simp only [List.filterMap_cons, follow, hlookup, applyAll]
      rcases mine.apply books with ⟨next, fault | ⟨⟩⟩
      · rfl
      · exact ih next

end L4BookUpdates

/-- The books of a client that was sent the orders of one coin at a height, and updates since. -/
def clientBooks (coin : Coin) (orders : Snapshot InnerL4Order) (height : ℕ)
    (updates : List L4BookUpdates) : Except Fault (OrderBooks InnerL4Order) :=
  L4BookUpdates.applyAll (Finmap.singleton coin (.fromSnapshot orders true))
    (updates.filter fun u => height < u.height)

/-! ### Following the node -/

namespace NodeLedger

variable {ignoreSpot : Bool} {node : NodeLedger ignoreSpot} {h n : ℕ} {coin : Coin}

/-- The books of the node, with the book of one coin read back from its orders. -/
def reread (node : NodeLedger ignoreSpot) (h : ℕ) (coin : Coin) : OrderBookState :=
  { node.books h with
    orderBook := (node.books h).orderBook.insert coin
      (.fromSnapshot ((node.books h).orderBook.book coin).toSnapshot true) }

theorem same_reread (hle : h ≤ node.tip) : Same (node.books h) (node.reread h coin) := by
  have hbooks := (node.fed_books hle).books
  refine ⟨fun c _ => ?_, rfl, rfl⟩
  by_cases hc : c = coin
  · subst hc
    obtain ⟨hread, hsame⟩ := (hbooks c).atRest.fromSnapshot
    have hbook : (node.reread h c).orderBook.book c =
        .fromSnapshot ((node.books h).orderBook.book c).toSnapshot true := by
      simp [reread, OrderBooks.book]
    rw [hbook]
    refine ⟨(hbooks c).repInv, hread.repInv, fun x => ?_⟩
    rw [OrderBook.orders, OrderBook.orders, hsame]
  · have hbook : (node.reread h coin).orderBook.book c = (node.books h).orderBook.book c := by
      simp [reread, OrderBooks.book, hc]
    rw [hbook]
    exact ⟨(hbooks c).repInv, (hbooks c).repInv, fun _ => rfl⟩

theorem booksOf_reread : (node.reread h coin).booksOf coin =
    Finmap.singleton coin
      (.fromSnapshot ((node.books h).orderBook.book coin).toSnapshot true) := by
  refine Finmap.ext_lookup fun c => ?_
  rw [lookup_booksOf]
  split_ifs with hc
  · subst hc
    simp [reread, Finmap.lookup_singleton_eq]
  · rw [Finmap.lookup_eq_none.mpr (by simpa using hc)]

/-- The updates of a coin in the blocks of the node lead its book along. -/
theorem applyAll_blocksAfter (coin : Coin) (hle : h + n ≤ node.tip)
    (hkept : ¬ coin.Ignored ignoreSpot) :
    ∃ books, L4BookUpdates.applyAll (Finmap.singleton coin
        (.fromSnapshot ((node.books h).orderBook.book coin).toSnapshot true))
        ((node.blocksAfter h n).filterMap (blockUpdates coin.value)) = .ok books ∧
      ∀ x, (books.book coin).orders x = ((node.books (h + n)).orderBook.book coin).orders x := by
  have hfed := node.fed_books (Nat.le_of_add_right_le hle)
  have hspot : ((node.books (h + n)).ignoreSpot) = ignoreSpot := (node.fed_books hle).ignoreSpot_eq
  obtain ⟨t, ht, hsame⟩ := node.replay_same hle (node.same_reread (Nat.le_of_add_right_le hle))
  have hupdates (p : BlockPair) (hp : p ∈ node.blocksAfter h n) :
      ∃ updates, coinToBookUpdates p.2 p.1 = some updates := by
    obtain ⟨k, hk, rfl⟩ := node.mem_blocksAfter hp
    obtain ⟨time, htime⟩ := node.timed k (by omega)
    simp [coinToBookUpdates, htime]
  have hfeed : List.Forall₂ (fun p updates => coinToBookUpdates p.2 p.1 = some updates)
      (node.blocksAfter h n)
      ((node.blocksAfter h n).map fun p => (coinToBookUpdates p.2 p.1).getD ∅) := by
    refine List.forall₂_map_right_iff.mpr (List.forall₂_same.mpr fun p hp => ?_)
    obtain ⟨updates, hu⟩ := hupdates p hp
    simp [hu]
  have hfollow := follow_feed (s := node.reread h coin)
    (by rw [show (node.reread h coin).ignoreSpot = ignoreSpot from hfed.ignoreSpot_eq]; exact hkept)
    (fun p hp => node.coins_blocksAfter hle hp)
    (by
      rw [show (node.reread h coin).height = h from node.height_books (Nat.le_of_add_right_le hle)]
      exact node.consecutive_blocksAfter hle) ht hfeed
  rw [← L4BookUpdates.applyAll_of_follow, List.filterMap_map, booksOf_reread] at hfollow
  refine ⟨t.booksOf coin, ?_, fun x => ?_⟩
  · rw [← hfollow]
    congr 1
    refine List.filterMap_congr fun p hp => ?_
    obtain ⟨updates, hu⟩ := hupdates p hp
    simp [blockUpdates, coinUpdates, hu]
  · have hbook : (t.booksOf coin).book coin = t.orderBook.book coin := by
      simp [OrderBooks.book]
    rw [hbook]
    exact ((hsame.orders coin (by rwa [hspot])).orders x).symm

/-- The snapshot of a book with the orders of the node is that of its book. -/
theorem eq_toSnapshot {book : OrderBookState} {orders : Snapshot InnerL4Order}
    (hle : h ≤ node.tip) (hsame : Same (node.books h) book) (hkept : ¬ coin.Ignored ignoreSpot)
    (horders : book.orderBook.toSnapshots.lookup coin = some orders) :
    orders = ((node.books h).orderBook.book coin).toSnapshot := by
  have hspot : (node.books h).ignoreSpot = ignoreSpot := (node.fed_books hle).ignoreSpot_eq
  rw [(hsame.orders coin (by rwa [hspot])).toSnapshot]
  rw [OrderBooks.toSnapshots, HashMap.lookup_mapValues] at horders
  obtain ⟨mine, hmine, rfl⟩ := Option.map_eq_some_iff.mp horders
  simp [OrderBooks.book, hmine]

end NodeLedger

/-! ### What a client is sent -/

namespace Connection

/-- The snapshot that answers a subscription to an L4 book is of the live books. -/
theorem live_of_snapshot (toString : ServerResponse → Except String String)
    {fromStr : String → Except String Subscription} {self : Connection} {reading : Reading}
    {coin : String} {time height : ℕ} {levels : Snapshot L4Order}
    (hsent : (self.receiveClientMessage fromStr (.subscribe (.l4Book coin)) reading).1.sent =
      self.sent ++ [.reply (.subscriptionResponse (.subscribe (.l4Book coin))),
        .push (.l4Book coin) (.l4Book (.snapshot coin time height levels))]) :
    ∃ book orders, reading.listener.orderBookState = some book ∧ book.height = height ∧
      book.orderBook.toSnapshots.lookup ⟨coin⟩ = some orders ∧
      levels = ⟨orders.bids.map L4Order.ofInner, orders.asks.map L4Order.ofInner⟩ := by
  have hadds : Adds (Renders toString (.request (.subscribe (.l4Book coin)) reading)) self
      (self.receiveClientMessage fromStr (.subscribe (.l4Book coin)) reading).1 := by
    obtain ⟨m, hout⟩ | ⟨-, -, hout⟩ := receive_subscribe fromStr self (.l4Book coin) reading
    · rw [hout]
      exact adds_reply _ self _
    · have hheld : Adds (Renders toString (.request (.subscribe (.l4Book coin)) reading)) self
          (self.subscribed (.l4Book coin)) := .of_sent_eq rfl
      rw [hout]
      exact hheld.trans (adds_startOther (by simp))
  obtain ⟨log, hlog, hall⟩ := hadds
  obtain rfl := List.append_cancel_left (hlog.symm.trans hsent)
  cases hall (.push (.l4Book coin) (.l4Book (.snapshot coin time height levels))) (by simp) with
  | @snapshot _ _ book orders hbook horders => exact ⟨book, orders, hbook, rfl, horders, rfl⟩

end Connection

/-- Updates that come late are passed over block by block. -/
theorem filter_filterMap_blockUpdates (coin : String) (height : ℕ) {pairs : List BlockPair}
    (hpaired : ∀ p ∈ pairs, p.2.blockNumber = p.1.blockNumber) :
    (pairs.filterMap (blockUpdates coin)).filter (fun u => height < u.height) =
      (pairs.filter fun p => height < p.1.blockNumber).filterMap (blockUpdates coin) := by
  induction pairs with
  | nil => rfl
  | cons p pairs ih =>
    obtain ⟨hp, hpairs⟩ := List.forall_mem_cons.mp hpaired
    have ih := ih hpairs
    cases hu : blockUpdates coin p with
    | none =>
      rw [List.filterMap_cons_none hu, ih, List.filter_cons]
      split_ifs
      · rw [List.filterMap_cons_none hu]
      · rfl
    | some updates =>
      have hheight := (height_of_blockUpdates hu).trans hp
      rw [List.filterMap_cons_some hu, List.filter_cons, List.filter_cons, ih, hheight]
      split_ifs
      · rw [List.filterMap_cons_some hu]
      · rfl

theorem mem_of_mem_blocks {log : List InternalMessage} {p : BlockPair} (hp : p ∈ blocks log) :
    .l4BookUpdates p.2 p.1 ∈ log := by
  induction log with
  | nil => simp [blocks] at hp
  | cons message log ih =>
    cases message <;> simp only [blocks, List.mem_cons, List.not_mem_nil] at hp ⊢
    case l4BookUpdates => exact hp.imp (fun h => by rw [h]) ih
    all_goals exact .inr (ih hp)

namespace Socket

variable {serde : SerdeJson} {fromStr : String → Except String Subscription} {ignoreSpot : Bool}
  {w w' : Socket} {log : List Sent} {since : List InternalMessage} {coin : String}
  {book : OrderBookState}

/-- No block that waits is past the live books, if there is no gap before it. -/
theorem Sound.le_of_mem_waiting (hs : Sound w) (hgap : w.waiting.any isGap = false)
    (hlive : w.fetch.listener.orderBookState = some book) {p : BlockPair}
    (hp : p ∈ blocks w.waiting) : p.1.blockNumber ≤ book.height := by
  have hpublishing := hs.publishing
  rw [messages_append] at hpublishing
  obtain ⟨last, hlast, hle⟩ := hpublishing.gapless.le_lastUpdate hgap hp
  have hreached := (hpublishing.update book last hlive hlast).1
  omega

/-- What has been received since, once all that waited has been: late blocks, and then those of
the heights that follow, in order. -/
theorem Sound.blocks_since (hs : Sound w) (hlive : w.fetch.listener.orderBookState = some book)
    (hmore : Relation.ReflTransGen (Step serde fromStr ignoreSpot) w w')
    (hsince : Since coin w w' log since) (hopen : w'.goesOn = true)
    (hpast : w.messages.length ≤ w'.received) :
    Consecutive book.height
        ((blocks since).filter fun p => book.height < p.1.blockNumber) ∧
      (∀ p ∈ blocks since, p.2.blockNumber = p.1.blockNumber) ∧
      (w'.received = w'.messages.length → ∃ live, w'.fetch.listener.orderBookState = some live ∧
        live.height = book.height +
          ((blocks since).filter fun p => book.height < p.1.blockNumber).length) := by
  obtain ⟨hs', ⟨more, hadvances⟩, -⟩ := hs.run coin hmore
  have hmessages : w'.messages = w.messages ++ more := messages_advances hs hadvances
  let fresh := more.take (w'.received - w.messages.length)
  have hseen : w'.seen = w.messages ++ fresh := by
    rw [seen, hmessages, List.take_append, List.take_of_length_le hpast]
  have hsplit : since = w.waiting ++ fresh := by
    refine List.append_cancel_left (hsince.seen.symm.trans ?_)
    rw [hseen, messages_append, List.append_assoc]
  have hgap := hsince.gapless hopen
  rw [hsplit, List.any_append, Bool.or_eq_false_iff] at hgap
  have hblocks : blocks since = blocks w.waiting ++ blocks fresh := by
    rw [hsplit, blocks_append, hgap.1, if_neg Bool.false_ne_true]
  have hconsecutive : Consecutive book.height (blocks more) := hadvances.consecutive book hlive
  obtain ⟨rest, hrest⟩ := blocks_mono (List.take_prefix (w'.received - w.messages.length) more)
  have hfresh : Consecutive book.height (blocks fresh) := .of_append (hrest ▸ hconsecutive)
  have hdue : (blocks since).filter (fun p => book.height < p.1.blockNumber) = blocks fresh := by
    have hlate : (blocks w.waiting).filter (fun p => book.height < p.1.blockNumber) = [] := by
      refine List.filter_eq_nil_iff.mpr fun p hp => ?_
      simpa using hs.le_of_mem_waiting hgap.1 hlive hp
    have hnew : (blocks fresh).filter (fun p => book.height < p.1.blockNumber) = blocks fresh :=
      List.filter_eq_self.mpr fun p hp => decide_eq_true (hfresh.lt_of_mem hp)
    rw [hblocks, List.filter_append, hlate, hnew, List.nil_append]
  rw [hdue]
  refine ⟨hfresh, ?_, fun hall => ?_⟩
  · have hgapless := hs'.publishing.gapless
    rw [messages_append, hsince.seen] at hgapless
    exact hgapless.of_append.increasing.1
  · have hmore : fresh = more := by
      refine List.take_of_length_le ?_
      rw [hall, hmessages, List.length_append]
      omega
    rw [hmore] at hgap ⊢
    exact hadvances.live book hlive hgap.2

end Socket

/-! ### In the server -/

namespace Server
open HlListen

variable {toString : ServerResponse → Except String String}
  {fromStr : String → Except String Subscription} {serde : SerdeJson}
  {changes : Disk → Disk → Prop} {ignoreSpot : Bool} {limits : SourceLimits}
  {roots : List (PathBuf × EventSource)} {scope : CoinScope} {disk : Disk} {now : Instant}
  {s s₁ s' : Server} {out more : List Output} {id : ℕ}
  {coin : String} {height : ℕ} {levels : Snapshot L4Order} {node : NodeLedger ignoreSpot}

/-- The client subscribes to an L4 book, is sent the snapshot, and its connection goes on. -/
inductive Subscribes (toString : ServerResponse → Except String String)
    (fromStr : String → Except String Subscription) (ignoreSpot : Bool) (id : ℕ) (coin : String)
    (s : Server) : ℕ → Snapshot L4Order → Server → Prop
  | intro {received : ℕ} {connection connection' : Connection} {reading : Connection.Reading}
    {time height : ℕ} {levels : Snapshot L4Order}
    (hclient : s.clients.lookup id = some (.streaming received connection))
    (hturn : Client.Turn toString s.loop.listener received connection
      (.request (.subscribe (.l4Book coin)) reading) received)
    (hstep : connection.step fromStr ignoreSpot (.request (.subscribe (.l4Book coin)) reading) =
      (connection', true))
    (hanswer : connection'.sent = connection.sent ++
      [.reply (.subscriptionResponse (.subscribe (.l4Book coin))),
        .push (.l4Book coin) (.l4Book (.snapshot coin time height levels))]) :
    Subscribes toString fromStr ignoreSpot id coin s height levels
      (s.leave id (some (.streaming received connection')))

/-- The snapshot is of the live books. -/
theorem Subscribes.live (h : Subscribes toString fromStr ignoreSpot id coin s height levels s₁) :
    s₁.loop = s.loop ∧ ∃ book orders, s.loop.listener.orderBookState = some book ∧
      book.height = height ∧ book.orderBook.toSnapshots.lookup ⟨coin⟩ = some orders ∧
      levels = ⟨orders.bids.map L4Order.ofInner, orders.asks.map L4Order.ofInner⟩ := by
  cases h with
  | @intro received connection connection' reading time height levels hclient hturn hstep hanswer =>
    refine ⟨leave_loop s id _, ?_⟩
    have hreading : reading.listener = s.loop.listener := by
      cases hturn with | request message reading hlistener hadmits => exact hlistener
    have hsent : (connection.receiveClientMessage fromStr (.subscribe (.l4Book coin))
        reading).1 = connection' := congrArg Prod.fst hstep
    rw [← hreading]
    exact Connection.live_of_snapshot toString (hsent ▸ hanswer)

/-- It is a step of the server. -/
theorem Subscribes.run (h : Subscribes toString fromStr ignoreSpot id coin s height levels s₁)
    (hrun : Run (Step toString fromStr serde changes ignoreSpot)
      (starts limits roots ignoreSpot scope disk now) out s) :
    ∃ received connection log, s₁.clients.lookup id = some (.streaming received connection) ∧
      .l4Book coin ∈ connection.manager.subscriptions ∧
      Run (Step toString fromStr serde changes ignoreSpot)
        (starts limits roots ignoreSpot scope disk now) (out ++ log) s₁ ∧ loopOf log = [] := by
  cases h with
  | @intro received connection connection' reading time height levels hclient hturn hstep hanswer =>
    have hnext := run_turn hrun hclient hturn hstep hanswer
    refine ⟨received, connection', _, lookup_leave_self s id _, ?_, hnext, loopOf_sent id _⟩
    obtain ⟨-, joined, halone⟩ := ((lookup_leave_self s id _) ▸ (run_serves hnext).follows id).alone
    obtain ⟨w₀, hopened, hw⟩ := halone.socket
    obtain ⟨hs, -⟩ := hopened.sound.run coin hw
    have hheld := hs.held rfl
    dsimp only at hheld
    rw [← hheld, hanswer, heldIn, List.foldl_append]
    exact Finset.mem_insert_self _ _

/-- A block that was sent is one that the node has reported. -/
theorem reports_of_message (h : Run (Step toString fromStr serde changes ignoreSpot)
      (starts limits roots ignoreSpot scope disk now) out s) (hfed : FedBy node (loopOf out))
    {p : BlockPair} (hp : .l4BookUpdates p.2 p.1 ∈ Client.messages s.loop.listener) :
    node.Reports (.orders p.1) ∧ node.Reports (.bookDiffs p.2) := by
  obtain ⟨all, hall, hmem⟩ := exists_log_of_mem hp
  have hpaired := run_blocks (run_loop h) hall hmem
  exact ⟨hfed.blocks _ hpaired.statuses, hfed.blocks _ hpaired.diffs⟩

/-- What a subscription to an L4 book is sent, from a point where the books are live on: updates
of late blocks, and of the blocks of the node after the live books. -/
theorem updates_of_node {received₁ received : ℕ} {connection₁ connection : Connection}
    {book : OrderBookState}
    (hrun : Run (Step toString fromStr serde changes ignoreSpot)
      (starts limits roots ignoreSpot scope disk now) out s₁)
    (hclient₁ : s₁.clients.lookup id = some (.streaming received₁ connection₁))
    (hheld : .l4Book coin ∈ connection₁.manager.subscriptions)
    (hlive : s₁.loop.listener.orderBookState = some book) (htip : book.height ≤ node.tip)
    (hmore : Run (Step toString fromStr serde changes ignoreSpot) s₁ more s')
    (hclient : s'.clients.lookup id = some (.streaming received connection))
    (hpast : (Client.messages s₁.loop.listener).length ≤ received)
    (hkept : .reply (.subscriptionResponse (.unsubscribe (.l4Book coin))) ∉ sentTo id more)
    (hfed : FedBy node (loopOf (out ++ more))) :
    ∃ (pairs : List BlockPair) (n : ℕ), updatesFor (.l4Book coin) (sentTo id more) =
        pairs.filterMap (blockUpdates coin) ∧
      (∀ p ∈ pairs, p.2.blockNumber = p.1.blockNumber ∧ p.1.blockNumber ≤ book.height + n) ∧
      pairs.filter (fun p => book.height < p.1.blockNumber) = node.blocksAfter book.height n ∧
      book.height + n ≤ node.tip ∧
      (received = (Client.messages s'.loop.listener).length →
        ∃ live, s'.loop.listener.orderBookState = some live ∧ live.height = book.height + n) := by
  obtain ⟨-, joined, halone⟩ := (hclient₁ ▸ (run_serves hrun).follows id).alone
  obtain ⟨w₀, hopened, hbefore⟩ := halone.socket
  obtain ⟨hs, -⟩ := hopened.sound.run coin hbefore
  have hgoes := (run_goes joined hrun hclient₁ hmore).2
  rw [hclient] at hgoes
  cases hgoes with
  | streams hsteps hsent =>
    obtain ⟨-, -, log, since, hsince⟩ := hs.run coin hsteps
    obtain rfl : sentTo id more = log := List.append_cancel_left (hsent.symm.trans hsince.sent)
    have hupdates := (hsince.delivered (by rw [hs.held rfl]; exact hheld) hkept).2 rfl
    obtain ⟨hconsecutive, hpaired, hreached⟩ :=
      hs.blocks_since hlive hsteps hsince rfl hpast
    have hreports : ∀ p ∈ (blocks since).filter fun p => book.height < p.1.blockNumber,
        node.Reports (.orders p.1) ∧ node.Reports (.bookDiffs p.2) ∧
          p.1.blockNumber = p.2.blockNumber := by
      intro p hp
      have hp := List.mem_of_mem_filter hp
      have hseen : .l4BookUpdates p.2 p.1 ∈ Client.messages s'.loop.listener :=
        List.mem_of_mem_take (hsince.seen ▸ List.mem_append_right _ (mem_of_mem_blocks hp))
      obtain ⟨hstatuses, hdiffs⟩ := reports_of_message (hrun.trans hmore) hfed hseen
      exact ⟨hstatuses, hdiffs, (hpaired p hp).symm⟩
    refine ⟨blocks since, _, hupdates, fun p hp => ⟨hpaired p hp, ?_⟩,
      NodeLedger.eq_blocksAfter hconsecutive hreports,
      NodeLedger.le_tip_of_reports hconsecutive (fun p hp => (hreports p hp).1) htip, hreached⟩
    by_cases hlate : p.1.blockNumber ≤ book.height
    · omega
    · exact hconsecutive.le_of_mem (List.mem_filter.mpr ⟨hp, by simpa using hlate⟩)

/-- A client that subscribes to the L4 book of a coin holds the book of the node. It installs the
snapshot it is sent and applies the updates that come for it, but for those of heights that the
snapshot has. As long as its connection goes on and once it has received what was broadcast before
it subscribed, this succeeds, and its book has the orders that the node's had at some height, which
is that of the live books where it has received all. -/
theorem client_holds_book_of_node {received : ℕ} {connection : Connection}
    (h : Run (Step toString fromStr serde changes ignoreSpot)
      (starts limits roots ignoreSpot scope disk now) out s)
    (hsubscribes : Subscribes toString fromStr ignoreSpot id coin s height levels s₁)
    (h' : Run (Step toString fromStr serde changes ignoreSpot) s₁ more s')
    (hclient : s'.clients.lookup id = some (.streaming received connection))
    (hpast : (Client.messages s.loop.listener).length ≤ received)
    (hkept : .reply (.subscriptionResponse (.unsubscribe (.l4Book coin))) ∉ sentTo id more)
    (hcoin : ¬ (Coin.mk coin).Ignored ignoreSpot)
    (hfed : FedBy node (loopOf (out ++ more))) :
    ∃ orders n books,
      levels = ⟨orders.bids.map L4Order.ofInner, orders.asks.map L4Order.ofInner⟩ ∧
      clientBooks ⟨coin⟩ orders height (updatesFor (.l4Book coin) (sentTo id more)) = .ok books ∧
      (∀ x, (books.book ⟨coin⟩).orders x = ((node.books n).orderBook.book ⟨coin⟩).orders x) ∧
      height ≤ n ∧ (∀ u ∈ updatesFor (.l4Book coin) (sentTo id more), u.height ≤ n) ∧
      (received = (Client.messages s'.loop.listener).length →
        ∃ live, s'.loop.listener.orderBookState = some live ∧ live.height = n) := by
  obtain ⟨hloop, book, orders, hlive, rfl, horders, hlevels⟩ := hsubscribes.live
  obtain ⟨received₁, connection₁, log, hclient₁, hheld, hrun, hquiet⟩ := hsubscribes.run h
  have hfed' : FedBy node (loopOf (out ++ log ++ more)) := by
    simpa [hquiet] using hfed
  rw [loopOf_append] at hfed
  obtain ⟨htip, hsame⟩ := hfed.of_append.live (run_loop h) hlive
  obtain ⟨pairs, n, hupdates, hpairs, hdue, htop, hall⟩ := updates_of_node hrun hclient₁ hheld
    (hloop ▸ hlive) htip h' hclient (hloop ▸ hpast) hkept hfed'
  obtain ⟨books, hbooks, hbook⟩ := node.applyAll_blocksAfter ⟨coin⟩ htop hcoin
  refine ⟨orders, book.height + n, books, hlevels, ?_, hbook, Nat.le_add_right _ _, ?_, hall⟩
  · rw [clientBooks, hupdates, filter_filterMap_blockUpdates coin _ fun p hp => (hpairs p hp).1,
      hdue, NodeLedger.eq_toSnapshot htip hsame hcoin horders]
    exact hbooks
  · rw [hupdates]
    intro u hu
    obtain ⟨p, hp, hblock⟩ := List.mem_filterMap.mp hu
    obtain ⟨hpaired, hle⟩ := hpairs p hp
    rw [height_of_blockUpdates hblock]
    omega

/-- A client subscribes before the block, and removes the bid. -/
theorem client_holds_book_of_node_block_six : ∃ (orders : Snapshot InnerL4Order)
    (updates : L4BookUpdates) (n : ℕ) (books : OrderBooks InnerL4Order), updates.height = 6 ∧
      clientBooks ⟨"BTC"⟩ orders 5 [updates] = .ok books ∧ 6 ≤ n ∧
      ∀ x, (books.book ⟨"BTC"⟩).orders x = ((bidNode.books n).orderBook.book ⟨"BTC"⟩).orders x := by
  obtain ⟨⟨before, after⟩, hturns, hshown, block, hblock, views, hviews, updates, -, hdelivers⟩ :=
    bidTurns_served
  have hsix := hdelivers.1
  obtain ⟨fromStr, out, s, hround, hrun, hclients, -, hgiven, hqueued, hawaits, hlistener⟩ :=
    run_framed hturns hshown
  rw [List.forall_mem_cons, List.forall_mem_singleton] at hclients
  subst hlistener
  have hsubscribes : Subscribes frameToString fromStr false 1 "BTC" s 5
      ⟨[.ofInner restingBid], []⟩ (s.leave 1 (some (.streaming 1 bidSecond))) :=
    .intro hclients.1 (turn_btcBook _) (step_btcBook hshown) rfl
  obtain ⟨more, s', connection, hmore, hclient, -, hlog, hgiven', hqueued'⟩ :=
    run_delivered hturns hblock hviews hdelivers (by rw [leave_loop]; exact hawaits)
      (congrArg HlListen.listener (leave_loop s 1 _)) (lookup_leave_self s 1 _)
  have hfed : FedBy bidNode (loopOf (out ++ more)) := by
    rw [loopOf_append]
    exact fedBy_bidNode (show bidListener.scope = .all from rfl) (run_config (run_loop hrun)).2.2
      hgiven hqueued hgiven' hqueued'
  have hpast : (Client.messages s.loop.listener).length ≤ 3 := by
    rw [hshown.2.2.1]
    decide
  obtain ⟨orders, n, books, -, hbooks, hbook, -, hle, -⟩ := client_holds_book_of_node hrun
    hsubscribes hmore hclient hpast (by simp [hlog]) (by decide) hfed
  have hone : updatesFor (.l4Book "BTC") (sentTo 1 more) = [updates] := by
    rw [hlog]
    rfl
  rw [hone] at hbooks hle
  exact ⟨orders, updates, n, books, hsix, hbooks, hsix ▸ hle updates (by simp), hbook⟩

end Server
end OrderBookServer
