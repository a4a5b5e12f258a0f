import OrderBookServer.SourceLines
import OrderBookServer.Audit

/-!
# The books of the node

What the server is for: a node has books at every height and reports them, block by block and
in snapshots. Whatever the listener was given in a run, in whatever order, its live books are
those of the node at their height.
-/
namespace OrderBookServer

open OrderBookState OrderBookListener

/-- The books of a node at each height, as far as it has got, and the blocks between them. It
reports no size of 0, opens no order under an oid that rests, the status of an order is of the coin
of its diff, and no block is of a time before 1970. -/
structure NodeLedger (ignoreSpot : Bool) where
  tip : ℕ
  books : ℕ → OrderBookState
  block : ℕ → BlockPair
  fed : (books 0).Fed ignoreSpot
  start : (books 0).height = 0
  numbered : ∀ h < tip, (block (h + 1)).1.blockNumber = h + 1
  applied : ∀ h < tip,
    (books h).applyUpdates (block (h + 1)).1 (block (h + 1)).2 = (books (h + 1), .ok ())
  fair : ∀ h < tip, (books h).Fair (block (h + 1))
  coins : ∀ h < tip,
    SameCoins (· ∈ (block (h + 1)).1.events) (· ∈ (block (h + 1)).2.events)
  timed : ∀ h < tip, ∃ time, (block (h + 1)).2.blockTimeMillis = some time

theorem OrderBookListener.Consecutive.of_append {h : ℕ} {ps qs : List BlockPair}
    (hboth : Consecutive h (ps ++ qs)) : Consecutive h ps := by
  induction ps generalizing h with
  | nil => exact .nil h
  | cons p ps ih =>
    obtain ⟨hp, hrest⟩ := consecutive_cons.mp hboth
    exact consecutive_cons.mpr ⟨hp, ih hrest⟩

theorem OrderBookListener.Consecutive.le_of_mem {h : ℕ} {ps : List BlockPair} {p : BlockPair}
    (hps : Consecutive h ps) (hp : p ∈ ps) : p.1.blockNumber ≤ h + ps.length := by
  have hmem : p.1.blockNumber ∈ List.range' (h + 1) ps.length := hps ▸ List.mem_map_of_mem hp
  rw [List.mem_range'_1] at hmem
  omega

/-- A diff that opens an order opens it in a book of its own coin. -/
theorem SameCoins.opensNoIgnored {pair : BlockPair}
    (h : SameCoins (· ∈ pair.1.events) (· ∈ pair.2.events)) (ignoreSpot : Bool) :
    OpensNoIgnored ignoreSpot pair := by
  intro diff hdiff hkept sz anchor _ status hstatus
  obtain ⟨hmem, hoid⟩ := mem_of_openingStatuses hstatus
  rw [h status diff hmem hdiff hoid]
  exact hkept

namespace NodeLedger

variable {ignoreSpot : Bool} (node : NodeLedger ignoreSpot) {h n : ℕ}

theorem height_books (hle : h ≤ node.tip) : (node.books h).height = h := by
  induction h with
  | zero => exact node.start
  | succ h ih =>
    have hbefore := ih (by omega)
    have hblock := node.numbered h hle
    obtain ⟨-, hold⟩ | ⟨hheight, -, -⟩ := height_le_of_applyUpdates (node.applied h hle)
    · omega
    · rw [hheight, hbefore]

theorem fed_books (hle : h ≤ node.tip) : (node.books h).Fed ignoreSpot := by
  induction h with
  | zero => exact node.fed
  | succ h ih => exact (ih (by omega)).applyUpdates (node.fair h hle) (node.applied h hle)

/-- The blocks of the `n` heights after `h`. -/
def blocksAfter (h n : ℕ) : List BlockPair := (List.range' (h + 1) n).map node.block

@[simp] theorem blocksAfter_zero (h : ℕ) : node.blocksAfter h 0 = [] := rfl

@[simp] theorem blocksAfter_succ (h n : ℕ) :
    node.blocksAfter h (n + 1) = node.block (h + 1) :: node.blocksAfter (h + 1) n := rfl

@[simp] theorem length_blocksAfter (h n : ℕ) : (node.blocksAfter h n).length = n := by
  simp [blocksAfter]

theorem blocksAfter_add (h m n : ℕ) :
    node.blocksAfter h (m + n) = node.blocksAfter h m ++ node.blocksAfter (h + m) n := by
  rw [blocksAfter, blocksAfter, blocksAfter, ← List.map_append, Nat.add_right_comm,
    List.range'_append_1]

theorem mem_blocksAfter {pair : BlockPair} (hpair : pair ∈ node.blocksAfter h n) :
    ∃ k < h + n, pair = node.block (k + 1) := by
  obtain ⟨m, hm, rfl⟩ := List.mem_map.mp hpair
  rw [List.mem_range'_1] at hm
  exact ⟨m - 1, by omega, by rw [Nat.sub_add_cancel (by omega)]⟩

theorem replay_books (hle : h + n ≤ node.tip) :
    replay (node.books h) (node.blocksAfter h n) = .ok (node.books (h + n)) := by
  induction n generalizing h with
  | zero => rfl
  | succ n ih =>
    have hrest := ih (h := h + 1) (by omega)
    rw [Nat.succ_add_eq_add_succ] at hrest
    simp only [blocksAfter_succ, replay, node.applied h (by omega), hrest]

theorem fairAll_books (hle : h + n ≤ node.tip) :
    (node.books h).FairAll (node.blocksAfter h n) := by
  induction n generalizing h with
  | zero => trivial
  | succ n ih =>
    refine ⟨node.fair h (by omega), ?_⟩
    rw [node.applied h (by omega)]
    exact ih (by omega)

theorem consecutive_blocksAfter (hle : h + n ≤ node.tip) :
    Consecutive h (node.blocksAfter h n) := by
  induction n generalizing h with
  | zero => exact .nil h
  | succ n ih =>
    exact consecutive_cons.mpr ⟨node.numbered h (by omega), ih (by omega)⟩

theorem coins_blocksAfter (hle : h + n ≤ node.tip) {pair : BlockPair}
    (hpair : pair ∈ node.blocksAfter h n) :
    SameCoins (· ∈ pair.1.events) (· ∈ pair.2.events) := by
  obtain ⟨k, hk, rfl⟩ := node.mem_blocksAfter hpair
  exact node.coins k (by omega)

/-- Books with the orders of the node keep them through its blocks. -/
theorem replay_same {s : OrderBookState} (hle : h + n ≤ node.tip) (hsame : Same (node.books h) s) :
    ∃ t, replay s (node.blocksAfter h n) = .ok t ∧ Same (node.books (h + n)) t := by
  obtain ⟨t, ht, hlast, -⟩ := hsame.replay (node.fairAll_books hle)
    (fun pair hpair => (node.coins_blocksAfter hle hpair).opensNoIgnored _) (node.replay_books hle)
  exact ⟨t, ht, hlast⟩

/-! ### What is reported -/

/-- What a batch of a source says is what the node has done. -/
def Reports : EventBatch → Prop
  | .orders batch => batch.blockNumber ≤ node.tip ∧ batch = (node.block batch.blockNumber).1
  | .bookDiffs batch => batch.blockNumber ≤ node.tip ∧ batch = (node.block batch.blockNumber).2
  | .fills _ => True

/-- Trigger orders apart, the orders of a snapshot are those of the books at its height. -/
def Shows (snapshot : Snapshots InnerL4Order) (height : ℕ) : Prop :=
  height ≤ node.tip ∧ ∀ coin : Coin, ¬ coin.Ignored ignoreSpot →
    (snapshotBook snapshot coin).removeTriggers =
      ((node.books height).orderBook.book coin).toSnapshot

/-- The orders of a snapshot are those of the books at its height: the node is asked for one
without trigger orders. -/
def ShowsPlainly (snapshot : Snapshots InnerL4Order) (height : ℕ) : Prop :=
  height ≤ node.tip ∧ ∀ coin : Coin, ¬ coin.Ignored ignoreSpot →
    snapshotBook snapshot coin = ((node.books height).orderBook.book coin).toSnapshot

variable {node} {snapshot : Snapshots InnerL4Order} {height : ℕ} {pairs : List BlockPair}

theorem ShowsPlainly.shows (h : node.ShowsPlainly snapshot height) :
    node.Shows snapshot height := by
  refine ⟨h.1, fun coin hkept => ?_⟩
  rw [h.2 coin hkept]
  exact ((node.fed_books h.1).books coin).atRest.removeTriggers

theorem Shows.same (hshows : node.Shows snapshot height) (time : ℕ) :
    Same (node.books height) (.fromSnapshot snapshot height time true ignoreSpot) := by
  have hfed := node.fed_books hshows.1
  refine ⟨fun coin hkept => ?_, (node.height_books hshows.1).symm, hfed.ignoreSpot_eq.symm⟩
  rw [hfed.ignoreSpot_eq] at hkept
  have hbook := hshows.2 coin hkept
  have hmine := hfed.books coin
  have hread : (OrderBookState.fromSnapshot snapshot height time true ignoreSpot).orderBook.book
      coin = .fromSnapshot (snapshotBook snapshot coin).removeTriggers true := by
    refine (OrderBooks.book_fromSnapshots snapshot true coin).trans ?_
    rw [hbook, OrderBook.fromSnapshot, OrderBook.fromSnapshot, if_pos rfl, if_pos rfl,
      hmine.atRest.removeTriggers, ← hbook]
    rfl
  obtain ⟨hother, hsame⟩ := hmine.atRest.fromSnapshot
  rw [hread, hbook]
  refine ⟨hmine.repInv, hother.repInv, fun x => ?_⟩
  rw [OrderBook.orders, OrderBook.orders, hsame]

/-- Pairs that are reported, of consecutive heights, are the blocks of the node. -/
theorem eq_blocksAfter (hconsecutive : Consecutive h pairs)
    (hreports : ∀ p ∈ pairs, node.Reports (.orders p.1) ∧ node.Reports (.bookDiffs p.2) ∧
      p.1.blockNumber = p.2.blockNumber) : pairs = node.blocksAfter h pairs.length := by
  induction pairs generalizing h with
  | nil => rfl
  | cons p pairs ih =>
    obtain ⟨hnumber, hrest⟩ := consecutive_cons.mp hconsecutive
    obtain ⟨⟨⟨-, hstatuses⟩, ⟨-, hdiffs⟩, hpaired⟩, hreports⟩ := List.forall_mem_cons.mp hreports
    rw [← hpaired, hnumber] at hdiffs
    rw [hnumber] at hstatuses
    rw [List.length_cons, blocksAfter_succ, ← ih hrest hreports]
    exact congrArg (· :: pairs) (Prod.ext hstatuses hdiffs)

/-- The last of them is not past the tip. -/
theorem le_tip_of_reports (hconsecutive : Consecutive h pairs)
    (hreports : ∀ p ∈ pairs, node.Reports (.orders p.1)) (hle : h ≤ node.tip) :
    h + pairs.length ≤ node.tip := by
  induction pairs generalizing h with
  | nil => exact hle
  | cons p pairs ih =>
    obtain ⟨hnumber, hrest⟩ := consecutive_cons.mp hconsecutive
    obtain ⟨hfirst, hreports⟩ := List.forall_mem_cons.mp hreports
    have htip := ih hrest hreports (hnumber ▸ hfirst.1)
    rw [List.length_cons]
    omega

/-- A history of what is reported leads to the books of the node. -/
theorem same_of_history {accepted : List EventBatch} {s : OrderBookState}
    (hhistory : History accepted ignoreSpot snapshot height pairs s)
    (hreports : ∀ batch ∈ accepted, node.Reports batch) (hshows : node.Shows snapshot height) :
    s.height ≤ node.tip ∧ Same (node.books s.height) s := by
  have hpairs : ∀ p ∈ pairs, node.Reports (.orders p.1) ∧ node.Reports (.bookDiffs p.2) ∧
      p.1.blockNumber = p.2.blockNumber := fun p hp => by
    have hpaired := hhistory.paired p hp
    exact ⟨hreports _ hpaired.statuses, hreports _ hpaired.diffs, hpaired.height⟩
  have htip := le_tip_of_reports hhistory.consecutive (fun p hp => (hpairs p hp).1) hshows.1
  obtain ⟨r, hr, hagree⟩ := hhistory.replayed
  obtain ⟨t, ht, hsame⟩ := node.replay_same htip (hshows.same 0)
  rw [← eq_blocksAfter hhistory.consecutive hpairs, hr, Except.ok.injEq] at ht
  rw [hhistory.reached]
  exact ⟨htip, (ht ▸ hsame).congr (.refl _) hagree.symm⟩

/-- A node whose blocks have no event. -/
def idle (snapshot : Snapshots InnerL4Order) (ignoreSpot : Bool) (tip : ℕ) (htip : tip < 2 ^ 64)
    (opens : ∀ coin book, snapshot.lookup coin = some book → book.Opens) :
    NodeLedger ignoreSpot where
  tip := tip
  books h := .fromSnapshot snapshot h 0 true ignoreSpot
  block h := (.emptyBlock h, .emptyBlock h)
  fed := .fromSnapshot 0 0 opens
  start := rfl
  numbered _ _ := rfl
  applied h hlt := by
    have hwrap : U64.wrappingAdd h 1 = h + 1 := Nat.mod_eq_of_lt (lt_of_le_of_lt hlt htip)
    exact applyUpdates_eq_ok_iff.mpr (@Advanced.next (.fromSnapshot snapshot h 0 true ignoreSpot)
      (.emptyBlock (h + 1)) (.emptyBlock (h + 1)) 0 _ rfl rfl hwrap rfl (.nil _))
  fair _ _ := trivial
  coins _ _ _ _ hstatus := nomatch hstatus
  timed _ _ := ⟨0, rfl⟩

/-- Books that are read from a snapshot show it. -/
theorem showsPlainly_of_fromSnapshot {time : ℕ} (hle : height ≤ node.tip)
    (hbooks : node.books height = .fromSnapshot snapshot height time true ignoreSpot)
    (hrest : ∀ coin, OrderBook.AtRest (snapshotBook snapshot coin)) :
    node.ShowsPlainly snapshot height := by
  refine ⟨hle, fun coin _ => ?_⟩
  rw [hbooks]
  have hbook : (OrderBookState.fromSnapshot snapshot height time true ignoreSpot).orderBook.book
      coin = .fromSnapshot (snapshotBook snapshot coin) true :=
    OrderBooks.book_fromSnapshots snapshot true coin
  rw [hbook]
  exact (hrest coin).fromSnapshot.2.symm

/-- The node has done one more block. -/
def extend (node : NodeLedger ignoreSpot) (pair : BlockPair)
    (hnumbered : pair.1.blockNumber = node.tip + 1)
    (happlied : ((node.books node.tip).applyUpdates pair.1 pair.2).2 = .ok ())
    (hfair : (node.books node.tip).Fair pair)
    (hcoins : SameCoins (· ∈ pair.1.events) (· ∈ pair.2.events))
    (htimed : ∃ time, pair.2.blockTimeMillis = some time) : NodeLedger ignoreSpot where
  tip := node.tip + 1
  books h := if h ≤ node.tip then node.books h else
    ((node.books node.tip).applyUpdates pair.1 pair.2).1
  block h := if h ≤ node.tip then node.block h else pair
  fed := by simpa using node.fed
  start := by simpa using node.start
  numbered := Nat.forall_lt_succ_right.mpr
    ⟨fun h hlt => by simpa [Nat.succ_le_of_lt hlt] using node.numbered h hlt, by simpa using hnumbered⟩
  applied := by
    have hlast : (node.books node.tip).applyUpdates pair.1 pair.2 = (_, .ok ()) :=
      Prod.ext rfl happlied
    exact Nat.forall_lt_succ_right.mpr
      ⟨fun h hlt => by simpa [Nat.succ_le_of_lt hlt, hlt.le] using node.applied h hlt,
        by simpa using hlast⟩
  fair := Nat.forall_lt_succ_right.mpr
    ⟨fun h hlt => by simpa [Nat.succ_le_of_lt hlt, hlt.le] using node.fair h hlt, by simpa using hfair⟩
  coins := Nat.forall_lt_succ_right.mpr
    ⟨fun h hlt => by simpa [Nat.succ_le_of_lt hlt] using node.coins h hlt, by simpa using hcoins⟩
  timed := Nat.forall_lt_succ_right.mpr
    ⟨fun h hlt => by simpa [Nat.succ_le_of_lt hlt] using node.timed h hlt, by simpa using htimed⟩

end NodeLedger

namespace HlListen

variable {serde : SerdeJson} {changes : Disk → Disk → Prop} {s : HlListen}
  {out more : List Happening} {limits : SourceLimits} {roots : List (PathBuf × EventSource)}
  {ignoreSpot : Bool} {scope : CoinScope} {disk : Disk} {now : Instant}
  {node : NodeLedger ignoreSpot} {book : OrderBookState}

/-- All that was queued and given is of the node. -/
structure FedBy (node : NodeLedger ignoreSpot) (out : List Happening) : Prop where
  blocks : ∀ batch ∈ queuedBy out, node.Reports batch
  snapshots : ∀ e ∈ givenBy out, node.Shows e.1 e.2

theorem FedBy.of_append (h : FedBy node (out ++ more)) : FedBy node out where
  blocks batch hbatch := h.blocks batch (by simp [hbatch])
  snapshots e he := h.snapshots e (by simp [he])

theorem FedBy.live (hfed : FedBy node out)
    (h : Run (Step serde changes) (starts limits roots ignoreSpot scope disk now) out s)
    (hbook : s.listener.orderBookState = some book) :
    book.height ≤ node.tip ∧ Same (node.books book.height) book := by
  obtain ⟨w, hw⟩ := run_sourcing h
  obtain ⟨e, he, pairs, hhistory⟩ := (World.run_sourced hw.run).live book (hw.listener ▸ hbook)
  rw [hw.accepted] at hhistory
  exact NodeLedger.same_of_history hhistory hfed.blocks (hfed.snapshots e (hw.given e he).1)

/-- Whatever the order in which files are written, read and rotated, snapshots asked for and
compared, books fenced, dropped and rebuilt: while what the listener takes in is of the node, live
books are at a height that the node has reached and hold the orders that its books held there. -/
theorem live_books_of_node
    (h : Run (Step serde changes) (starts limits roots ignoreSpot scope disk now) out s)
    (hfed : FedBy node out) (hbook : s.listener.orderBookState = some book) :
    book.height ≤ node.tip ∧ Same (node.books book.height) book := hfed.live h hbook

/-- The block of height 6, as it is read. -/
def blockSix : BlockPair :=
  (⟨⟨0⟩, ⟨0⟩, 6, [], SerdeJson.emptyBlockLine.utf8ByteSize⟩,
    ⟨⟨0⟩, ⟨0⟩, 6, [⟨0, 5, "1", "BTC", .remove⟩], arrayDiffLine.utf8ByteSize⟩)

theorem parseLine_blockSix :
    parseLine restingReader .orderStatuses SerdeJson.emptyBlockLine .all = .ok (.orders blockSix.1) ∧
    parseLine restingReader .orderDiffs arrayDiffLine .all = .ok (.bookDiffs blockSix.2) := by
  constructor <;> rfl

theorem snapshotBook_bidSnapshot (coin : Coin) :
    OrderBook.AtRest (snapshotBook bidSnapshot coin) := by
  have hbid : OrderBook.AtRest (⟨[restingBid], []⟩ : Snapshot InnerL4Order) :=
    atRest_bid rfl (by decide)
  by_cases hcoin : coin = ⟨"BTC"⟩
  · rw [snapshotBook, bidSnapshot, hcoin, Finmap.lookup_singleton_eq]
    exact hbid
  · have hnone : bidSnapshot.lookup coin = none :=
      Finmap.lookup_eq_none.mpr (by simpa [bidSnapshot] using hcoin)
    rw [snapshotBook, hnone]
    exact atRest_nil

theorem opens_bidSnapshot (coin : Coin) (book : Snapshot InnerL4Order)
    (h : bidSnapshot.lookup coin = some book) : book.Opens := by
  have hrest := snapshotBook_bidSnapshot coin
  rw [snapshotBook, h] at hrest
  exact hrest.opens

theorem five_lt_word : 5 < 2 ^ 64 := by decide

/-- The node is idle up to the block. -/
def idleNode : NodeLedger false := .idle bidSnapshot false 5 five_lt_word opens_bidSnapshot

theorem applied_blockSix :
    ((idleNode.books 5).applyUpdates blockSix.1 blockSix.2).2 = .ok () := by decide +kernel

theorem fair_blockSix : (idleNode.books 5).Fair blockSix := ⟨by decide +kernel, trivial⟩

theorem coins_blockSix : SameCoins (· ∈ blockSix.1.events) (· ∈ blockSix.2.events) :=
  fun _ _ hstatus => nomatch hstatus

theorem timed_blockSix : ∃ time, blockSix.2.blockTimeMillis = some time := ⟨0, rfl⟩

def bidNode : NodeLedger false :=
  idleNode.extend blockSix rfl applied_blockSix fair_blockSix coins_blockSix timed_blockSix

/-- The block is of the node. -/
theorem fedBy_bidNode {l l' : OrderBookListener} (hl : l.scope = .all) (hl' : l'.scope = .all)
    (hgiven : givenBy out = [(bidSnapshot, 5)])
    (hqueued : queuedBy out = queuedData restingReader l (SerdeJson.emptyBlockLine ++ "\n")
      .orderStatuses fun _ => 0)
    (hmore : givenBy more = [])
    (hqueued' : queuedBy more = queuedData restingReader l' (arrayDiffLine ++ "\n") .orderDiffs
      fun _ => 0) : FedBy bidNode (out ++ more) where
  blocks batch hbatch := by
    rw [queuedBy_append, List.mem_append, hqueued, hqueued'] at hbatch
    obtain hbatch | hbatch := hbatch
    · have hparse := parseLine_of_mem_queuedData SerdeJson.emptyBlockLine (by decide +kernel) hbatch
      rw [hl, parseLine_blockSix.1] at hparse
      cases hparse
      exact ⟨le_rfl, rfl⟩
    · have hparse := parseLine_of_mem_queuedData arrayDiffLine (by decide +kernel) hbatch
      rw [hl', parseLine_blockSix.2] at hparse
      cases hparse
      exact ⟨le_rfl, rfl⟩
  snapshots e he := by
    rw [givenBy_append, hgiven, hmore] at he
    obtain rfl : e = (bidSnapshot, 5) := by simpa using he
    have hplain : bidNode.ShowsPlainly bidSnapshot 5 :=
      NodeLedger.showsPlainly_of_fromSnapshot (Nat.le_succ 5) rfl snapshotBook_bidSnapshot
    exact hplain.shows

/-- The block is read. -/
theorem live_books_of_node_block_six : ∃ book : OrderBookState, book.height = 6 ∧
    6 ≤ bidNode.tip ∧ Same (bidNode.books 6) book := by
  obtain ⟨⟨before, after⟩, hturns, hsix⟩ := bidTurns_applied
  obtain ⟨hstatuses, hdiffs⟩ := bidTurns_iff.mp hturns
  obtain ⟨s, hrun, hawaits, -, rfl⟩ := run_statuses hstatuses
  obtain ⟨cursors, -, hblock⟩ := hawaits.run .diffs hdiffs
  obtain ⟨book, hbook, hheight⟩ := Option.map_eq_some_iff.mp hsix
  obtain ⟨htip, hsame⟩ := live_books_of_node (hrun.trans hblock)
    (fedBy_bidNode (show bidListener.scope = .all from rfl) (run_config hrun).2.2 rfl
      (by simp [queuedBy]) rfl (by simp [queuedBy])) hbook
  rw [hheight] at htip hsame
  exact ⟨book, hheight, htip, hsame⟩

end HlListen
end OrderBookServer
