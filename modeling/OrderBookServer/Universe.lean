import OrderBookServer.LiveBooks
import OrderBookServer.Subscription
import OrderBookServer.ViewCache

/-!
# The universe of a connection

A connection starts with the coins that have a book, and takes the coins of the views
from each broadcast on. Only the second way leaves out the coins that are ignored as
spot, so the two agree where no such coin has a book.
-/
namespace OrderBookServer

/-- No outcome coin is a spot coin. -/
theorem Coin.not_hip4_of_ignored {ignoreSpot : Bool} {value : String}
    (h : (Coin.mk value).Ignored ignoreSpot) : isHip4Coin value = false := by
  by_contra hhip
  rw [Bool.not_eq_false] at hhip
  have hspot : (Coin.mk value).isSpot = true := (Bool.and_eq_true_iff.mp h).1
  unfold isHip4Coin at hhip
  unfold Coin.isSpot at hspot
  have hpurr : "PURR/USDC".toList.head? = some 'P' := by decide
  split at hhip
  · rename_i id hlist
    rw [hlist, Bool.or_eq_true] at hspot
    obtain hspot | hspot := hspot
    · cases hspot
    · obtain rfl : value = "PURR/USDC" := by simpa using hspot
      rw [hlist] at hpurr
      cases hpurr
  · cases hhip

def OrderBookListener.universe (self : OrderBookListener) : Finset Coin :=
  match self.orderBookState with
  | none => ∅
  | some book => book.computeUniverse

/-- What `handle_socket` starts with. -/
def OrderBookListener.startUniverse (self : OrderBookListener) : Finset String :=
  self.universe.image Coin.value

/-- What each broadcast of views replaces it with. -/
def newUniverse (l2Snapshots : L2Snapshots) (ignoreSpot : Bool) : Finset String :=
  (l2Snapshots.keys.filter fun c => !c.isSpot || !ignoreSpot).image Coin.value

theorem mem_newUniverse {views : L2Snapshots} {ignoreSpot : Bool} {value : String} :
    value ∈ newUniverse views ignoreSpot ↔
      Coin.mk value ∈ views ∧ ¬ (Coin.mk value).Ignored ignoreSpot := by
  have hkept (c : Coin) : (!c.isSpot || !ignoreSpot) = true ↔ ¬ c.Ignored ignoreSpot := by
    rw [Coin.Ignored, ← Bool.not_and, Bool.not_eq_true, Bool.not_eq_true']
  simp only [newUniverse, Finset.mem_image, Finset.mem_filter, Finmap.mem_keys, hkept]
  constructor
  · rintro ⟨c, hc, rfl⟩
    exact hc
  · exact fun h => ⟨_, h, rfl⟩

/-- No broadcast lets a client subscribe to an ignored coin. -/
theorem validate_newUniverse_of_ignored {sub : Subscription} {ignoreSpot : Bool}
    (h : (Coin.mk sub.coin).Ignored ignoreSpot) (views : L2Snapshots) :
    sub.validate (newUniverse views ignoreSpot) = false := by
  by_contra hvalid
  rw [Bool.not_eq_false] at hvalid
  exact (mem_newUniverse.mp (Subscription.mem_of_validate hvalid (Coin.not_hip4_of_ignored h))).2 h

namespace BlockState

/-- A diff makes no book but that of its own coin, and none where it is skipped. -/
theorem Applied.mem_books {ignoreSpot : Bool} {self next : BlockState} {diff : NodeDataOrderDiff}
    (h : Applied ignoreSpot self diff next) (hn : NamesCoin self.orderMap diff) {c : Coin}
    (hc : c ∈ next.orderBook) : c ∈ self.orderBook ∨ ¬ c.Ignored ignoreSpot := by
  rw [← Finmap.lookup_isSome] at hc ⊢
  cases h with
  | skipped => exact .inl hc
  | opened kept kind hstatus horder done =>
    rw [OrderBooks.lookup_addOrderBefore] at hc
    split_ifs at hc with he
    · rw [he, hn.coin_eq kind hstatus horder]
      exact .inr kept
    · exact .inl hc
  | resized kept =>
    rw [OrderBooks.lookup_modifySz] at hc
    split_ifs at hc with he
    · rw [he]
      exact .inr kept
    · exact .inl hc
  | removed kept =>
    rw [OrderBooks.lookup_cancelOrder] at hc
    split_ifs at hc with he
    · rw [he]
      exact .inr kept
    · exact .inl hc

theorem AppliedAll.mem_books {ignoreSpot : Bool} {self next : BlockState}
    {diffs : List NodeDataOrderDiff} (h : AppliedAll ignoreSpot self diffs next)
    (hn : ∀ diff ∈ diffs, NamesCoin self.orderMap diff) {c : Coin} (hc : c ∈ next.orderBook) :
    c ∈ self.orderBook ∨ ¬ c.Ignored ignoreSpot := by
  induction h with
  | nil => exact .inl hc
  | cons first _ ih =>
    have hstatuses := (first.touched (hn _ List.mem_cons_self)).statuses
    have hlater := ih (fun diff hd sz anchor status hraw hk =>
      hn diff (List.mem_cons_of_mem _ hd) sz anchor status hraw (hstatuses _ _ hk)) hc
    exact hlater.elim (first.mem_books (hn _ List.mem_cons_self)) .inr

end BlockState

namespace OrderBookListener
open OrderBookState

/-- No snapshot that was given has a book of an ignored coin. -/
def SpotFree (ignoreSpot : Bool) (given : List (Snapshots InnerL4Order × ℕ)) : Prop :=
  ∀ e ∈ given, ∀ c ∈ e.1, ¬ c.Ignored ignoreSpot

/-- The New diffs of the blocks accepted name the coin of their opening status. -/
def NamesAll (accepted : List EventBatch) : Prop :=
  ∀ statuses diffs, .orders statuses ∈ accepted → .bookDiffs diffs ∈ accepted →
    statuses.blockNumber = diffs.blockNumber → NamesCoins statuses diffs

section

variable {given : List (Snapshots InnerL4Order × ℕ)} {accepted : List EventBatch}
  {ignoreSpot : Bool} {s : OrderBookState}

theorem Live.reachable (h : Live given accepted ignoreSpot s) (hn : NamesAll accepted) :
    OrderBookState.Reachable s := by
  induction h with
  | fromSnapshot time h => exact .fromSnapshot _ _ time true _
  | applyUpdates _ hpair ok ih =>
    exact .applyUpdates ih (hn _ _ hpair.statuses hpair.diffs hpair.height) ok
  | computeL2Snapshot _ ih => exact .computeL2Snapshot ih
  | l2Snapshots _ prevent ih => exact .l2Snapshots ih prevent

theorem mem_refreshL2Snapshots {books : OrderBooks InnerL4Order} {cached : L2Snapshots}
    {dirty : Finset Coin} {c : Coin} : c ∈ refreshL2Snapshots books cached dirty ↔
      (c ∈ dirty ∧ c ∈ books) ∨ c ∈ cached := by
  simp only [← Finmap.lookup_isSome, lookup_refreshL2Snapshots]
  by_cases hd : c ∈ dirty <;> simp [hd]

/-- Only coins with a book have views. -/
theorem Live.mem_of_mem_l2Cache (h : Live given accepted ignoreSpot s) {c : Coin}
    (hc : c ∈ s.l2Cache) : c ∈ s.orderBook := by
  have hrefresh {t : OrderBookState} (ih : c ∈ t.l2Cache → c ∈ t.orderBook)
      (hc : c ∈ refreshL2Snapshots t.orderBook t.l2Cache t.dirtyCoins) : c ∈ t.orderBook :=
    (mem_refreshL2Snapshots.mp hc).elim And.right ih
  induction h with
  | fromSnapshot => exact absurd hc Finmap.notMem_empty
  | applyUpdates _ _ ok ih =>
    cases applyUpdates_eq_ok_iff.mp ok with
    | old => exact ih hc
    | next _ _ _ _ happlied => exact happlied.keeps (ih hc)
  | @computeL2Snapshot t _ ih => exact hrefresh (t := t) ih hc
  | @l2Snapshots t _ prevent ih =>
    unfold OrderBookState.l2Snapshots at hc ⊢
    split_ifs at hc ⊢
    · exact ih hc
    · exact hrefresh (t := t) ih hc

/-- No coin that is ignored has a book. -/
theorem Live.not_ignored (h : Live given accepted ignoreSpot s) (hn : NamesAll accepted)
    (hspot : SpotFree ignoreSpot given) {c : Coin} (hc : c ∈ s.orderBook) :
    ¬ c.Ignored ignoreSpot := by
  induction h with
  | fromSnapshot time h =>
    refine hspot _ h c ?_
    rw [← Finmap.mem_keys] at hc ⊢
    change c ∈ (HashMap.mapValues _ _).keys at hc
    rwa [HashMap.keys_mapValues] at hc
  | applyUpdates hlive hpair ok ih =>
    cases applyUpdates_eq_ok_iff.mp ok with
    | old => exact ih hc
    | next _ _ _ _ happlied =>
      have hbooks := happlied.mem_books (hn _ _ hpair.statuses hpair.diffs hpair.height) hc
      rw [hlive.ignoreSpot_eq] at hbooks
      exact hbooks.elim ih id
  | computeL2Snapshot _ ih => exact ih hc
  | l2Snapshots _ prevent ih =>
    rw [(agree_l2Snapshots _ prevent).1.orderBook] at hc
    exact ih hc

variable {self : OrderBookListener}

theorem mem_startUniverse (hs : self.orderBookState = some s) {value : String} :
    value ∈ self.startUniverse ↔ Coin.mk value ∈ s.orderBook := by
  simp only [startUniverse, OrderBookListener.universe, hs, computeUniverse, Finset.mem_image, Finmap.mem_keys]
  constructor
  · rintro ⟨c, hc, rfl⟩
    exact hc
  · exact fun h => ⟨_, h, rfl⟩

/-- The universes agree where no ignored coin has a book and each coin with a book has
views or is to get them. -/
theorem Live.universes_agree_iff (h : Live given accepted ignoreSpot s)
    (hs : self.orderBookState = some s) :
    self.startUniverse = newUniverse s.computeL2Snapshot.1.2.2 ignoreSpot ↔
      ∀ c ∈ s.orderBook, ¬ c.Ignored ignoreSpot ∧ (c ∈ s.dirtyCoins ∨ c ∈ s.l2Cache) := by
  have hviews {c : Coin} : c ∈ s.computeL2Snapshot.1.2.2 ↔
      (c ∈ s.dirtyCoins ∧ c ∈ s.orderBook) ∨ c ∈ s.l2Cache := mem_refreshL2Snapshots
  constructor
  · intro heq c hc
    have hmem : c.value ∈ newUniverse s.computeL2Snapshot.1.2.2 ignoreSpot :=
      heq ▸ (mem_startUniverse hs).mpr hc
    obtain ⟨hview, hkept⟩ := mem_newUniverse.mp hmem
    exact ⟨hkept, (hviews.mp hview).imp_left And.left⟩
  · intro hall
    ext value
    rw [mem_startUniverse hs, mem_newUniverse, hviews]
    constructor
    · intro hc
      obtain ⟨hkept, hcached⟩ := hall _ hc
      exact ⟨hcached.imp_left fun hd => ⟨hd, hc⟩, hkept⟩
    · rintro ⟨⟨-, hc⟩ | hc, -⟩
      · exact hc
      · exact h.mem_of_mem_l2Cache hc

end

namespace World

/-- In every run, the universe a connection starts with is that of the views unless an
ignored coin has a book or a book has no views to come. Where the snapshots given have no
book of an ignored coin and the diffs name the coins of their statuses, this holds
throughout, and no universe of a connection admits an ignored coin. -/
theorem universes_agree {serde : SerdeJson} {limits : ResourceLimits}
    {internalMessageTx : Option (List InternalMessage)} {ignoreSpot : Bool} {scope : CoinScope}
    {w : World}
    (hrun : Relation.ReflTransGen (Step serde) (start limits internalMessageTx ignoreSpot scope) w) :
    (∀ s, w.listener.orderBookState = some s →
      (w.listener.startUniverse = newUniverse s.computeL2Snapshot.1.2.2 ignoreSpot ↔
        ∀ c ∈ s.orderBook, ¬ c.Ignored ignoreSpot ∧ (c ∈ s.dirtyCoins ∨ c ∈ s.l2Cache))) ∧
      (SpotFree ignoreSpot w.given → NamesAll w.accepted →
        (∀ s, w.listener.orderBookState = some s →
          w.listener.startUniverse = newUniverse s.computeL2Snapshot.1.2.2 ignoreSpot) ∧
        ∀ sub : Subscription, (Coin.mk sub.coin).Ignored ignoreSpot →
          sub.validate w.listener.startUniverse = false ∧
          ∀ views, sub.validate (newUniverse views ignoreSpot) = false) := by
  have hlive := run_live hrun
  refine ⟨fun s hs => (hlive s hs).universes_agree_iff hs, fun hspot hnames => ⟨fun s hs => ?_, ?_⟩⟩
  · refine ((hlive s hs).universes_agree_iff hs).mpr fun c hc => ?_
    refine ⟨(hlive s hs).not_ignored hnames hspot hc, ?_⟩
    rw [or_iff_not_imp_left]
    intro hd
    obtain ⟨book, hbook⟩ := Finmap.mem_iff.mp hc
    exact Finmap.mem_iff.mpr ⟨_, ((hlive s hs).reachable hnames).cacheInv.current c book hbook hd⟩
  · intro sub hignored
    refine ⟨?_, validate_newUniverse_of_ignored hignored⟩
    by_contra hvalid
    rw [Bool.not_eq_false] at hvalid
    have hmem := Subscription.mem_of_validate hvalid (Coin.not_hip4_of_ignored hignored)
    cases hs : w.listener.orderBookState with
    | none => simp [startUniverse, OrderBookListener.universe, hs] at hmem
    | some s =>
      exact (hlive s hs).not_ignored hnames hspot ((mem_startUniverse hs).mp hmem) hignored

/-- With spot ignored, the snapshot still makes a book for a spot coin, and clients may
subscribe to it until the next broadcast. -/
theorem ignored_coin_admitted :
    ∃ (w : World) (s : OrderBookState),
      Relation.ReflTransGen (Step .ofEmptyBlock) (start .DEFAULT (some []) true .all) w ∧
      w.listener.orderBookState = some s ∧
      w.listener.startUniverse ≠ newUniverse s.computeL2Snapshot.1.2.2 true ∧
      (Subscription.l2Book "@1" none none none).validate w.listener.startUniverse = true := by
  obtain ⟨w, hrun, -, -, -, hs⟩ :=
    run_first_snapshot .ofEmptyBlock true (Finmap.singleton ⟨"@1"⟩ ⟨[], []⟩)
  have hmem : "@1" ∈ w.listener.startUniverse := by
    rw [mem_startUniverse hs, ← Finmap.lookup_isSome]
    decide +kernel
  refine ⟨w, _, hrun, hs, fun heq => ?_, ?_⟩
  · rw [heq] at hmem
    exact (mem_newUniverse.mp hmem).2 (by decide)
  · have hsize : ¬ "@1".utf8ByteSize > 64 := by decide
    simp [Subscription.validate, Subscription.coin, Subscription.validPrecision, hmem, hsize,
      defaultLevels, maxLevels]

/-- The opening status and the New diff of the block are both of BTC. -/
theorem namesAll_openedBid {accepted : List EventBatch}
    (h : ∀ batch ∈ accepted, batch = .orders openedBid.1 ∨ batch = .bookDiffs openedBid.2) :
    NamesAll accepted := by
  intro statuses diffs hstatuses hdiffs _
  obtain hfirst | hfirst := h _ hstatuses
  · obtain hlast | hlast := h _ hdiffs
    · cases hlast
    · cases hfirst
      cases hlast
      intro diff hdiff sz anchor status _ hstatus
      obtain rfl : diff = ⟨0, 5, "100", "BTC", .new "2" none⟩ := List.mem_singleton.mp hdiff
      have hcoin : ((openingStatuses openedBid.1.events).lookup 5).all
          (fun status => status.order.coin == "BTC") = true := by
        decide +kernel
      rw [hstatus] at hcoin
      simpa using hcoin
  · cases hfirst

theorem universes_agree_one_coin :
    ∃ (w : World) (s : OrderBookState),
      w.listener.orderBookState = some s ∧ s.height = 6 ∧
      (s.orderBook.book ⟨"BTC"⟩).toSnapshot.bids.map InnerL4Order.oid = [5, 7] ∧
      w.listener.startUniverse = newUniverse s.computeL2Snapshot.1.2.2 true := by
  obtain ⟨w, s, hrun, hgiven, haccepted, hs, hheight, hbids⟩ := run_opened_bid true
  have hspot : SpotFree true w.given := by
    intro e he c hc
    rw [hgiven, List.mem_singleton] at he
    subst he
    obtain rfl : c = ⟨"BTC"⟩ := by simpa [oneBid] using hc
    decide
  exact ⟨w, s, hs, hheight, hbids,
    ((universes_agree hrun).2 hspot (namesAll_openedBid haccepted)).1 _ hs⟩

end World
end OrderBookListener
end OrderBookServer
