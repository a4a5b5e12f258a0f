import OrderBookServer.CoinSelection
import OrderBookServer.Universe

/-!
# The feed of one coin

The statuses and diffs of a block are regrouped by coin for the subscribers. A client
that applies the updates of its coin to the book of that coin, by the rules of the
server, gets the server's book after the block, and so it does block after block.
-/
namespace OrderBookServer

structure L4BookUpdates where
  time : ℕ
  height : ℕ
  orderStatuses : List NodeDataOrderStatus
  bookDiffs : List NodeDataOrderDiff
  deriving DecidableEq, Repr

namespace L4BookUpdates

def new (time height : ℕ) : L4BookUpdates := ⟨time, height, [], []⟩

def pushDiff (diff : NodeDataOrderDiff) (self : L4BookUpdates) : L4BookUpdates :=
  { self with bookDiffs := self.bookDiffs ++ [diff] }

def pushStatus (status : NodeDataOrderStatus) (self : L4BookUpdates) : L4BookUpdates :=
  { self with orderStatuses := self.orderStatuses ++ [status] }

theorem foldl_pushDiff (diffs : List NodeDataOrderDiff) (self : L4BookUpdates) :
    diffs.foldl (fun u diff => u.pushDiff diff) self =
      { self with bookDiffs := self.bookDiffs ++ diffs } := by
  induction diffs generalizing self with
  | nil => rw [List.append_nil, List.foldl_nil]
  | cons diff diffs ih => rw [List.foldl_cons, ih, pushDiff, List.append_assoc, List.singleton_append]

theorem foldl_pushStatus (statuses : List NodeDataOrderStatus) (self : L4BookUpdates) :
    statuses.foldl (fun u status => u.pushStatus status) self =
      { self with orderStatuses := self.orderStatuses ++ statuses } := by
  induction statuses generalizing self with
  | nil => rw [List.append_nil, List.foldl_nil]
  | cons status statuses ih =>
    rw [List.foldl_cons, ih, pushStatus, List.append_assoc, List.singleton_append]

/-- A client applies the updates of its coin by the rules of the server, and skips none. -/
def apply (self : L4BookUpdates) (books : OrderBooks InnerL4Order) :
    OrderBooks InnerL4Order × Except Fault Unit :=
  let block : BlockState := ⟨books, ∅, openingStatuses self.orderStatuses⟩
  let out := block.applyDiffs false self.bookDiffs
  (out.1.orderBook, out.2)

end L4BookUpdates

/-- The updates of each coin; nothing where the time of the diffs does not convert. -/
def coinToBookUpdates (diffBatch : Batch NodeDataOrderDiff)
    (statusBatch : Batch NodeDataOrderStatus) : Option (HashMap String L4BookUpdates) :=
  diffBatch.blockTimeMillis.map fun time =>
    let height := diffBatch.blockNumber
    let updates := diffBatch.events.foldl
      (fun updates diff => updates.upsert diff.coin (.new time height) (.pushDiff diff)) ∅
    statusBatch.events.foldl
      (fun updates status =>
        updates.upsert status.order.coin (.new time height) (.pushStatus status)) updates

section

variable {diffs : Batch NodeDataOrderDiff} {statuses : Batch NodeDataOrderStatus}
  {updates : HashMap String L4BookUpdates}

/-- A coin is given its own statuses and diffs in their order, or nothing if it has none. -/
theorem lookup_coinToBookUpdates (h : coinToBookUpdates diffs statuses = some updates)
    (coin : String) : ∃ time, diffs.blockTimeMillis = some time ∧ updates.lookup coin =
      if diffs.events.filter (fun d => d.coin = coin) = [] ∧
          statuses.events.filter (fun s => s.order.coin = coin) = [] then none
      else some ⟨time, diffs.blockNumber, statuses.events.filter fun s => s.order.coin = coin,
        diffs.events.filter fun d => d.coin = coin⟩ := by
  obtain ⟨time, htime, rfl⟩ := Option.map_eq_some_iff.mp h
  refine ⟨time, htime, ?_⟩
  dsimp only
  rw [HashMap.lookup_foldl_upsert (fun s => s.order.coin) _ L4BookUpdates.pushStatus,
    HashMap.lookup_foldl_upsert (fun d => d.coin) _ L4BookUpdates.pushDiff, Finmap.lookup_empty,
    L4BookUpdates.foldl_pushDiff, L4BookUpdates.foldl_pushStatus]
  by_cases hd : diffs.events.filter (fun d => d.coin = coin) = []
  · by_cases hs : statuses.events.filter (fun s => s.order.coin = coin) = []
    · simp [hd, hs]
    · simp [hd, hs, L4BookUpdates.new]
  · by_cases hs : statuses.events.filter (fun s => s.order.coin = coin) = []
    · simp [hd, hs, L4BookUpdates.new]
    · simp [hd, hs, L4BookUpdates.new]

namespace BlockState

/-- Diffs that are not skipped are applied alike whether spot is ignored or not. -/
theorem AppliedAll.unskipped {ignoreSpot : Bool} {self last : BlockState}
    {diffs : List NodeDataOrderDiff} (h : AppliedAll ignoreSpot self diffs last)
    (hkept : ∀ diff ∈ diffs, ¬ Skipped ignoreSpot diff) : AppliedAll false self diffs last := by
  have hnone (diff : NodeDataOrderDiff) : ¬ Skipped false diff := by simp [Skipped]
  induction h with
  | nil => exact .nil _
  | @cons self next last diff diffs first _ ih =>
    refine .cons ?_ (ih fun d hd => hkept d (List.mem_cons_of_mem diff hd))
    cases first with
    | skipped hs => exact absurd hs (hkept diff List.mem_cons_self)
    | opened _ kind hstatus horder done => exact .opened (hnone diff) kind hstatus horder done
    | resized _ kind done => exact .resized (hnone diff) kind done
    | removed _ kind done => exact .removed (hnone diff) kind done

end BlockState

/-- The book of one coin alone. -/
def OrderBookState.booksOf (self : OrderBookState) (coin : Coin) : OrderBooks InnerL4Order :=
  self.orderBook.restrict fun c => c = coin

variable {s s' : OrderBookState} {coin : Coin}

/-- The statuses and diffs of a coin do to its book what the whole block does. -/
theorem appliedAll_booksOf (hcoins : SameCoins (· ∈ statuses.events) (· ∈ diffs.events))
    (hnext : statuses.blockNumber = s.height + 1)
    (ha : s.applyUpdates statuses diffs = (s', .ok ())) (hkept : ¬ coin.Ignored s.ignoreSpot) :
    ∃ block, BlockState.AppliedAll false
        ⟨s.booksOf coin, ∅, openingStatuses (statuses.events.filter fun s => s.order.coin = coin.value)⟩
        (diffs.events.filter fun d => d.coin = coin.value) block ∧
      block.orderBook = s'.booksOf coin ∧ s'.height = diffs.blockNumber := by
  cases OrderBookState.applyUpdates_eq_ok_iff.mp ha with
  | old htime hsame hle hold => omega
  | next htime hsame hwrap hheight happlied =>
    have hselect (d : NodeDataOrderDiff) :
        decide (Coin.mk d.coin = coin) = decide (d.coin = coin.value) :=
      decide_eq_decide.mpr ⟨fun h => congrArg Coin.value h, fun h => congrArg Coin.mk h⟩
    have hstart : BlockState.Selected (fun c => decide (c = coin)) statuses.events diffs.events
        ⟨s.orderBook, s.dirtyCoins, openingStatuses statuses.events⟩
        ⟨s.booksOf coin, s.dirtyCoins.filter fun c => c = coin,
          openingStatuses (statuses.events.filter fun s => s.order.coin = coin.value)⟩ := by
      refine ⟨rfl, fun c => by simp, fun _ _ => mem_of_openingStatuses, ?_⟩
      intro diff hdiff hin
      rw [hselect, decide_eq_true_eq] at hin
      refine lookup_openingStatuses_filter fun status hs hoid => ?_
      exact decide_eq_true ((hcoins status diff hs hdiff hoid).trans hin)
    obtain ⟨block, hblock, hend⟩ := hstart.appliedAll hcoins (List.Subset.refl _) happlied
    rw [List.filter_congr fun d _ => hselect d] at hblock
    have hunskipped := hblock.unskipped fun d hd => by
      have hd : d.coin = coin.value := by simpa using (List.mem_filter.mp hd).2
      rw [BlockState.Skipped, hd]
      exact hkept
    have hclean : BlockState.Agree
        ⟨s.booksOf coin, ∅, openingStatuses (statuses.events.filter fun s => s.order.coin = coin.value)⟩
        ⟨s.booksOf coin, s.dirtyCoins.filter fun c => c = coin,
          openingStatuses (statuses.events.filter fun s => s.order.coin = coin.value)⟩ := ⟨rfl, rfl⟩
    obtain ⟨block', hblock', hagree⟩ := hunskipped.congr hclean
    exact ⟨block', hblock', hagree.orderBook.trans hend.orderBook, hsame⟩

@[simp] theorem lookup_booksOf (s : OrderBookState) (coin c : Coin) :
    (s.booksOf coin).lookup c = if c = coin then s.orderBook.lookup c else none := by
  rw [OrderBookState.booksOf, HashMap.lookup_restrict]
  simp

/-- The updates of a coin do to its book what the block does; without any, it is as it was. -/
theorem apply_feed (hcoins : SameCoins (· ∈ statuses.events) (· ∈ diffs.events))
    (hnext : statuses.blockNumber = s.height + 1)
    (ha : s.applyUpdates statuses diffs = (s', .ok ())) (hkept : ¬ coin.Ignored s.ignoreSpot)
    (hu : coinToBookUpdates diffs statuses = some updates) :
    (∀ u, updates.lookup coin.value = some u →
      u.height = s'.height ∧ u.apply (s.booksOf coin) = (s'.booksOf coin, .ok ())) ∧
    (updates.lookup coin.value = none → s'.orderBook.lookup coin = s.orderBook.lookup coin) := by
  obtain ⟨block, hblock, hbooks, hheight⟩ := appliedAll_booksOf hcoins hnext ha hkept
  obtain ⟨time, -, hlookup⟩ := lookup_coinToBookUpdates hu coin.value
  constructor
  · intro u hsome
    rw [hlookup] at hsome
    split_ifs at hsome
    obtain rfl := Option.some.inj hsome
    refine ⟨hheight.symm, ?_⟩
    simp only [L4BookUpdates.apply, BlockState.applyDiffs_eq_ok_iff.mpr hblock, hbooks]
  · intro hnone
    rw [hlookup] at hnone
    split_ifs at hnone with hempty
    rw [hempty.1] at hblock
    cases hblock
    have hsame := congrArg (fun books => books.lookup coin) hbooks
    simpa using hsame.symm

/-- A client follows the feed of a coin, block after block. -/
def follow (coin : Coin) : OrderBooks InnerL4Order → List (HashMap String L4BookUpdates) →
    Except Fault (OrderBooks InnerL4Order)
  | books, [] => .ok books
  | books, updates :: rest =>
    match updates.lookup coin.value with
    | none => follow coin books rest
    | some u =>
      match u.apply books with
      | (_, .error fault) => .error fault
      | (books, .ok ()) => follow coin books rest

theorem follow_feed {pairs : List BlockPair} {feed : List (HashMap String L4BookUpdates)}
    {t : OrderBookState} (hkept : ¬ coin.Ignored s.ignoreSpot)
    (hcoins : ∀ p ∈ pairs, SameCoins (· ∈ p.1.events) (· ∈ p.2.events))
    (hnext : OrderBookListener.Consecutive s.height pairs)
    (hreplay : OrderBookListener.replay s pairs = .ok t)
    (hfeed : List.Forall₂ (fun p updates => coinToBookUpdates p.2 p.1 = some updates) pairs feed) :
    follow coin (s.booksOf coin) feed = .ok (t.booksOf coin) := by
  induction hfeed generalizing s with
  | nil =>
    cases hreplay
    rfl
  | @cons p updates pairs feed hu hfeed ih =>
    obtain ⟨s', ha, hrest⟩ := OrderBookListener.replay_cons_ok hreplay
    obtain ⟨hfirst, hlater⟩ := OrderBookListener.consecutive_cons.mp hnext
    obtain ⟨hsome, hnone⟩ := apply_feed (hcoins p List.mem_cons_self) hfirst ha hkept hu
    have hstep : s'.height = s.height + 1 ∧ s'.ignoreSpot = s.ignoreSpot := by
      cases OrderBookState.applyUpdates_eq_ok_iff.mp ha with
      | old htime hsame hle hold => omega
      | next htime hsame hwrap hheight happlied => exact ⟨hheight, rfl⟩
    rw [← hstep.1] at hlater
    rw [← hstep.2] at hkept
    have htail := ih hkept (fun q hq => hcoins q (List.mem_cons_of_mem p hq)) hlater hrest
    rw [follow]
    cases hl : updates.lookup coin.value with
    | none =>
      have hbooks : s.booksOf coin = s'.booksOf coin := by
        refine Finmap.ext_lookup fun c => ?_
        rw [lookup_booksOf, lookup_booksOf]
        split_ifs with hc
        · rw [hc, hnone hl]
        · rfl
      rw [hbooks]
      exact htail
    | some u =>
      simp only [(hsome u hl).2]
      exact htail

/-- The updates of one coin are enough for its book: a client that applies those of a
block to the book of the coin gets the book after the block, and one that follows the
feed has the book of the server at every height. -/
theorem coin_feed_reconstructs_book {s : OrderBookState} {coin : Coin}
    (hkept : ¬ coin.Ignored s.ignoreSpot) :
    (∀ statuses diffs s' updates, SameCoins (· ∈ statuses.events) (· ∈ diffs.events) →
      statuses.blockNumber = s.height + 1 → s.applyUpdates statuses diffs = (s', .ok ()) →
      coinToBookUpdates diffs statuses = some updates →
      (∀ u, updates.lookup coin.value = some u →
        u.height = s'.height ∧ u.apply (s.booksOf coin) = (s'.booksOf coin, .ok ())) ∧
      (updates.lookup coin.value = none → s'.orderBook.lookup coin = s.orderBook.lookup coin)) ∧
    ∀ pairs feed t, (∀ p ∈ pairs, SameCoins (· ∈ p.1.events) (· ∈ p.2.events)) →
      OrderBookListener.Consecutive s.height pairs → OrderBookListener.replay s pairs = .ok t →
      List.Forall₂ (fun p updates => coinToBookUpdates p.2 p.1 = some updates) pairs feed →
      follow coin (s.booksOf coin) feed = .ok (t.booksOf coin) :=
  ⟨fun _ _ _ _ hcoins hnext ha hu => apply_feed hcoins hnext ha hkept hu,
    fun _ _ _ hcoins hnext hreplay hfeed => follow_feed hkept hcoins hnext hreplay hfeed⟩

end

/-- A block that opens an order of each of two coins, seen by a client of the second. -/
theorem coin_feed_reconstructs_book_two_coins :
    let order (coin : String) (oid : ℕ) : L4Order := ⟨none, coin, .bid, "100", "2", oid, 0, "N/A",
      false, "0.0", false, false, "Limit", some "Gtc", none⟩
    let statuses : Batch NodeDataOrderStatus := ⟨⟨0⟩, ⟨0⟩, 101,
      [⟨⟨0⟩, 0, "open", order "BTC" 7⟩, ⟨⟨0⟩, 0, "open", order "ETH" 8⟩], 0⟩
    let diffs : Batch NodeDataOrderDiff := ⟨⟨0⟩, ⟨0⟩, 101,
      [⟨0, 7, "100", "BTC", .new "2" none⟩, ⟨0, 8, "100", "ETH", .new "2" none⟩], 0⟩
    let s := OrderBookState.fromSnapshot ∅ 100 0 true false
    let s' := (s.applyUpdates statuses diffs).1
    ∃ updates u, coinToBookUpdates diffs statuses = some updates ∧
      updates.lookup "ETH" = some u ∧ u.bookDiffs.length = 1 ∧ u.height = 101 ∧
      u.apply (s.booksOf ⟨"ETH"⟩) = (s'.booksOf ⟨"ETH"⟩, .ok ()) := by
  intro order statuses diffs s s'
  have hok : (s.applyUpdates statuses diffs).2 = .ok () := by decide +kernel
  have hheight : s'.height = 101 := by decide +kernel
  have hcoins : SameCoins (· ∈ statuses.events) (· ∈ diffs.events) := by
    have hall : ∀ status ∈ statuses.events, ∀ diff ∈ diffs.events,
        status.order.oid = diff.oid → status.order.coin = diff.coin := by decide +kernel
    exact fun status diff hs hd => hall status hs diff hd
  obtain ⟨updates, hu⟩ : ∃ updates, coinToBookUpdates diffs statuses = some updates := ⟨_, rfl⟩
  obtain ⟨time, htime, hlookup⟩ := lookup_coinToBookUpdates hu "ETH"
  rw [if_neg (by decide)] at hlookup
  have hkept : ¬ (Coin.mk "ETH").Ignored s.ignoreSpot := by decide
  obtain ⟨hu', happly⟩ := ((coin_feed_reconstructs_book hkept).1 statuses diffs s' updates hcoins
    rfl (Prod.ext rfl hok) hu).1 _ hlookup
  have hone : (diffs.events.filter fun d => d.coin = "ETH").length = 1 := by decide
  exact ⟨updates, _, hu, hlookup, hone, hu'.trans hheight, happly⟩

end OrderBookServer
