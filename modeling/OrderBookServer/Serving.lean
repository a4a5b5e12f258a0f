import OrderBookServer.Universe
import OrderBookServer.ViewArithmetic
import OrderBookServer.WireCache

/-!
# Accepted subscriptions are served

A subscription is accepted by the universe of coins and the rules for its precision, and
served from the views that are kept. The precisions that are accepted are those of the views,
so what decides is whether each coin that may be asked for has views: it does unless an order
was put into a book that no diff marked dirty.
-/
namespace OrderBookServer

namespace Subscription

variable {coin : String} {nSigFigs nLevels mantissa : Option ℕ} {coins : Finset String}

theorem validate_l2Book (h : (l2Book coin nSigFigs nLevels mantissa).validate coins = true) :
    coin.utf8ByteSize ≤ 64 ∧ (coin ∈ coins ∨ isHip4Coin coin = true) ∧
      validPrecision nSigFigs mantissa = true := by
  unfold validate at h
  split_ifs at h with hsize
  dsimp only at h
  split_ifs at h with hcoin hdefault hlevels
  refine ⟨by simpa [Subscription.coin] using hsize, ?_, h⟩
  rw [not_and, Bool.not_eq_false] at hcoin
  exact or_iff_not_imp_left.mpr hcoin

/-- A coin of the universe with a name that is not too long may be asked for as it is. -/
theorem validate_plain (hsize : coin.utf8ByteSize ≤ 64) (hcoin : coin ∈ coins) :
    (l2Book coin none none none).validate coins = true := by
  have hfits : ¬ coin.utf8ByteSize > 64 := by omega
  simp [validate, Subscription.coin, validPrecision, hfits, hcoin, defaultLevels, maxLevels]

end Subscription

/-- Each precision that is accepted has a view, in whatever book. -/
theorem exists_view_of_validate {coin : String} {nSigFigs nLevels mantissa : Option ℕ}
    {coins : Finset String} {O : Type} [InnerOrder O]
    (h : (Subscription.l2Book coin nSigFigs nLevels mantissa).validate coins = true)
    (book : OrderBook O) : ∃ view, (coinViews book).lookup ⟨nSigFigs, mantissa⟩ = some view := by
  have hparams : (viewEntries book).map Prod.fst = viewPaths.map Prod.fst := by
    simp [viewEntries_eq, viewPaths]
  obtain ⟨path, hpath, hfst⟩ := exists_viewPath (Subscription.validate_l2Book h).2.2
  have hmem : path.1 ∈ (viewEntries book).map Prod.fst := by
    rw [hparams]
    exact List.mem_map_of_mem hpath
  obtain ⟨⟨params, view⟩, hview, hentry⟩ := List.mem_map.mp hmem
  have hkey : params = ⟨nSigFigs, mantissa⟩ := hentry.trans hfst
  exact ⟨view, (lookup_coinViews book _ view).mpr (hkey ▸ hview)⟩

namespace OrderBookState

/-- What a subscription is to be sent of the views of a state: the first levels of the view
that is kept for it, or none for an outcome coin without a book. -/
inductive Owed (s : OrderBookState) (views : L2Snapshots) (coin : String)
    (nSigFigs nLevels mantissa : Option ℕ) : Snapshot Level → Prop
  | stored {kept : L2Views} {view : Snapshot InnerLevel} (hcoin : views.lookup ⟨coin⟩ = some kept)
      (hview : kept.lookup ⟨nSigFigs, mantissa⟩ = some view) :
      Owed s views coin nSigFigs nLevels mantissa
        ⟨(view.bids.take (nLevels.getD 20)).map Level.ofInner,
          (view.asks.take (nLevels.getD 20)).map Level.ofInner⟩
  | noBook (hhip : isHip4Coin coin = true) (hbook : Coin.mk coin ∉ s.orderBook) :
      Owed s views coin nSigFigs nLevels mantissa ⟨[], []⟩

end OrderBookState

namespace OrderBookListener
open OrderBookState

/-- Every L2 subscription that is accepted for a state gets, from whatever cache, the frame of
the levels that it is owed, with the time and the height of the state, unless it is too long. -/
def Serves (toString : ServerResponse → Except String String) (ignoreSpot : Bool)
    (self : OrderBookListener) (s : OrderBookState) : Prop :=
  ∀ (coin : String) (nSigFigs nLevels mantissa : Option ℕ),
    (Subscription.l2Book coin nSigFigs nLevels mantissa).validate self.startUniverse = true ∨
      (Subscription.l2Book coin nSigFigs nLevels mantissa).validate
        (newUniverse s.computeL2Snapshot.1.2.2 ignoreSpot) = true →
    ∃ levels frame, s.Owed s.computeL2Snapshot.1.2.2 coin nSigFigs nLevels mantissa levels ∧
      toString (.l2Book ⟨coin, s.time, s.height, levels⟩) = .ok frame ∧
      ∀ calls (cache : BookWireCache) (snapshots : SharedSnapshots),
        BookWireCache.Calls toString calls cache →
        snapshots.value = s.computeL2Snapshot.1.2.2 → cache.KeepsAddress snapshots →
        (cache.get toString (.l2Book coin nSigFigs nLevels mantissa) snapshots
            s.computeL2Snapshot.1.1 s.computeL2Snapshot.1.2.1).1 =
          if frame.utf8ByteSize > 16 * 1024 * 1024 then .error "Book frame exceeds byte bound"
          else .ok (some frame)

/-- Each coin with a book, if its name is not too long to be asked for, has views or is to get
them. -/
def Viewed (s : OrderBookState) : Prop :=
  ∀ c ∈ s.orderBook, c.value.utf8ByteSize ≤ 64 → c ∈ s.dirtyCoins ∨ c ∈ s.l2Cache

variable {given : List (Snapshots InnerL4Order × ℕ)} {accepted : List EventBatch}
  {ignoreSpot : Bool} {s : OrderBookState} {self : OrderBookListener}
  {toString : ServerResponse → Except String String}

/-- The views of a coin are those of a book. -/
theorem Live.lookup_l2Cache (h : Live given accepted ignoreSpot s) {c : Coin} {kept : L2Views}
    (hkept : s.l2Cache.lookup c = some kept) :
    ∃ book : OrderBook InnerL4Order, kept = coinViews book := by
  have hrefresh {t : OrderBookState}
      (ih : t.l2Cache.lookup c = some kept → ∃ book : OrderBook InnerL4Order, kept = coinViews book)
      (hkept : (refreshL2Snapshots t.orderBook t.l2Cache t.dirtyCoins).lookup c = some kept) :
      ∃ book : OrderBook InnerL4Order, kept = coinViews book := by
    rw [lookup_refreshL2Snapshots] at hkept
    split_ifs at hkept
    · cases hbook : t.orderBook.lookup c with
      | none =>
        rw [hbook, Option.map_none, Option.none_or] at hkept
        exact ih hkept
      | some book =>
        rw [hbook, Option.map_some, Option.some_or] at hkept
        exact ⟨book, (Option.some.inj hkept).symm⟩
    · exact ih hkept
  induction h with
  | fromSnapshot => simp [OrderBookState.fromSnapshot] at hkept
  | applyUpdates _ _ ok ih =>
    cases applyUpdates_eq_ok_iff.mp ok with
    | old => exact ih hkept
    | next => exact ih hkept
  | @computeL2Snapshot t _ ih => exact hrefresh (t := t) ih hkept
  | @l2Snapshots t _ prevent ih =>
    unfold OrderBookState.l2Snapshots at hkept
    split_ifs at hkept
    · exact ih hkept
    · exact hrefresh (t := t) ih hkept

/-- The same of the views that are published. -/
theorem Live.lookup_views (h : Live given accepted ignoreSpot s) {c : Coin} {kept : L2Views}
    (hkept : s.computeL2Snapshot.1.2.2.lookup c = some kept) :
    ∃ book : OrderBook InnerL4Order, kept = coinViews book :=
  (Live.computeL2Snapshot h).lookup_l2Cache hkept

theorem mem_views {c : Coin} : c ∈ s.computeL2Snapshot.1.2.2 ↔
    (c ∈ s.dirtyCoins ∧ c ∈ s.orderBook) ∨ c ∈ s.l2Cache := mem_refreshL2Snapshots

theorem Live.mem_of_mem_views (h : Live given accepted ignoreSpot s) {c : Coin}
    (hc : c ∈ s.computeL2Snapshot.1.2.2) : c ∈ s.orderBook :=
  (mem_views.mp hc).elim And.right h.mem_of_mem_l2Cache

/-- The levels that the cache encodes are those that are owed, where the coin has views. -/
theorem Live.owed_of_mem_views (h : Live given accepted ignoreSpot s) {coin : String}
    {nSigFigs nLevels mantissa : Option ℕ} {coins : Finset String}
    (hvalid : (Subscription.l2Book coin nSigFigs nLevels mantissa).validate coins = true)
    (hcoin : Coin.mk coin ∈ s.computeL2Snapshot.1.2.2) :
    ∃ levels, s.Owed s.computeL2Snapshot.1.2.2 coin nSigFigs nLevels mantissa levels ∧
      BookWireCache.levels s.computeL2Snapshot.1.2.2 coin nSigFigs nLevels mantissa = some levels := by
  obtain ⟨kept, hkept⟩ := Finmap.mem_iff.mp hcoin
  obtain ⟨book, hbook⟩ := h.lookup_views hkept
  obtain ⟨view, hview⟩ := exists_view_of_validate hvalid book
  rw [← hbook] at hview
  refine ⟨_, .stored hkept hview, ?_⟩
  rw [BookWireCache.levels, hkept, Option.bind_some, hview]
  rfl

/-- So they are for an outcome coin without a book. -/
theorem Live.owed_of_hip4 (h : Live given accepted ignoreSpot s) {coin : String}
    (nSigFigs nLevels mantissa : Option ℕ) (hhip : isHip4Coin coin = true)
    (hbook : Coin.mk coin ∉ s.orderBook) :
    ∃ levels, s.Owed s.computeL2Snapshot.1.2.2 coin nSigFigs nLevels mantissa levels ∧
      BookWireCache.levels s.computeL2Snapshot.1.2.2 coin nSigFigs nLevels mantissa = some levels := by
  have hnone : s.computeL2Snapshot.1.2.2.lookup ⟨coin⟩ = none :=
    Finmap.lookup_eq_none.mpr fun hmem => hbook (h.mem_of_mem_views hmem)
  refine ⟨_, .noBook hhip hbook, ?_⟩
  rw [BookWireCache.levels, hnone]
  simp [hhip]

/-- If each book has views, then what is accepted in a universe of books is owed its levels. -/
theorem Live.owed_of_validate (h : Live given accepted ignoreSpot s) (hviewed : Viewed s)
    {coin : String} {nSigFigs nLevels mantissa : Option ℕ} {coins : Finset String}
    (hcoins : coin ∈ coins → Coin.mk coin ∈ s.orderBook)
    (hvalid : (Subscription.l2Book coin nSigFigs nLevels mantissa).validate coins = true) :
    ∃ levels, s.Owed s.computeL2Snapshot.1.2.2 coin nSigFigs nLevels mantissa levels ∧
      BookWireCache.levels s.computeL2Snapshot.1.2.2 coin nSigFigs nLevels mantissa = some levels := by
  by_cases hviews : Coin.mk coin ∈ s.computeL2Snapshot.1.2.2
  · exact h.owed_of_mem_views hvalid hviews
  · obtain ⟨hsize, hcoin, -⟩ := Subscription.validate_l2Book hvalid
    have hbook : Coin.mk coin ∉ s.orderBook := fun hmem =>
      hviews (mem_views.mpr ((hviewed _ hmem hsize).imp_left fun hdirty => ⟨hdirty, hmem⟩))
    have hhip : isHip4Coin coin = true := hcoin.resolve_left fun hmem => hbook (hcoins hmem)
    exact h.owed_of_hip4 nSigFigs nLevels mantissa hhip hbook

/-- A live state serves every subscription that it accepts exactly if each book has views. -/
theorem Live.serves_iff (h : Live given accepted ignoreSpot s) (hs : self.orderBookState = some s)
    (htext : ∀ book, ∃ text, toString (.l2Book book) = .ok text) :
    self.Serves toString ignoreSpot s ↔ Viewed s := by
  constructor
  · intro hserves c hc hsize
    have hvalid : (Subscription.l2Book c.value none none none).validate self.startUniverse = true :=
      Subscription.validate_plain hsize ((mem_startUniverse hs).mpr hc)
    obtain ⟨levels, frame, howed, -⟩ := hserves c.value none none none (.inl hvalid)
    cases howed with
    | stored hcoin hview =>
      exact (mem_views.mp (Finmap.mem_of_lookup_eq_some hcoin)).imp_left And.left
    | noBook hhip hbook => exact absurd hc hbook
  · intro hviewed coin nSigFigs nLevels mantissa haccepted
    have hlevels := haccepted.elim
      (h.owed_of_validate hviewed (mem_startUniverse hs).mp)
      (h.owed_of_validate hviewed fun hmem => h.mem_of_mem_views (mem_newUniverse.mp hmem).1)
    obtain ⟨levels, howed, hlevels⟩ := hlevels
    obtain ⟨frame, hframe⟩ := htext ⟨coin, s.time, s.height, levels⟩
    refine ⟨levels, frame, howed, hframe, fun calls cache snapshots hcalls hvalue hkeeps => ?_⟩
    rw [(BookWireCache.get_eq_encode hcalls.valid hkeeps).1, hvalue, BookWireCache.encode, hlevels]
    have hencoded : toString (.l2Book (.fromL2Snapshot coin levels s.time s.height)) = .ok frame :=
      hframe
    show (do
      let encoded ← toString (.l2Book (.fromL2Snapshot coin levels s.time s.height))
      if encoded.utf8ByteSize > maxWireBytes then .error "Book frame exceeds byte bound"
      else .ok (some encoded)) = _
    rw [hencoded]
    rfl

namespace World

/-- In every run the live state serves every L2 subscription that it accepts exactly if each coin
with a book has views or is to get them; so it does throughout a run whose New diffs name the coin
of their opening status. No precision is accepted that has no view. -/
theorem accepted_subscriptions_served (htext : ∀ book, ∃ text, toString (.l2Book book) = .ok text)
    {serde : SerdeJson} {limits : ResourceLimits} {internalMessageTx : Option (List InternalMessage)}
    {scope : CoinScope} {w : World}
    (hrun : Relation.ReflTransGen (Step serde) (start limits internalMessageTx ignoreSpot scope) w) :
    (∀ s, w.listener.orderBookState = some s →
      (w.listener.Serves toString ignoreSpot s ↔ Viewed s)) ∧
      (NamesAll w.accepted → ∀ s, w.listener.orderBookState = some s →
        w.listener.Serves toString ignoreSpot s) ∧
      ∀ (coin : String) (nSigFigs nLevels mantissa : Option ℕ) (coins : Finset String),
        (Subscription.l2Book coin nSigFigs nLevels mantissa).validate coins = true →
        ∀ book : OrderBook InnerL4Order,
          ∃ view, (coinViews book).lookup ⟨nSigFigs, mantissa⟩ = some view := by
  have hlive := run_live hrun
  refine ⟨fun s hs => (hlive s hs).serves_iff hs htext, fun hnames s hs => ?_,
    fun coin nSigFigs nLevels mantissa coins hvalid => exists_view_of_validate hvalid⟩
  refine ((hlive s hs).serves_iff hs htext).mpr fun c hc _ => ?_
  rw [or_iff_not_imp_left]
  intro hdirty
  obtain ⟨book, hbook⟩ := Finmap.mem_iff.mp hc
  have hcurrent := ((hlive s hs).reachable hnames).cacheInv.current c book hbook hdirty
  exact Finmap.mem_of_lookup_eq_some hcurrent

/-! ### A book that no diff names -/

/-- An order of ETH is opened, by a diff that names BTC. -/
def foreignReader : SerdeJson := openingReader "ETH"

/-- ETH has a book after the block, and no views. -/
theorem foreignBlock_turns : ∃ mid last s,
    (readyAt 5).turn foreignReader (openStatusLine "ETH" ++ "\n") .orderStatuses (fun _ => 0) = some mid ∧
    mid.turn foreignReader (btcDiffLine ++ "\n") .orderDiffs (fun _ => 0) = some last ∧
    last.orderBookState = some s ∧ (⟨"ETH"⟩ : Coin) ∈ s.orderBook ∧
    (⟨"ETH"⟩ : Coin) ∉ s.computeL2Snapshot.1.2.2 := by
  have hturns : (((readyAt 5).turn foreignReader (openStatusLine "ETH" ++ "\n") .orderStatuses
      fun _ => 0).bind fun mid =>
      (mid.turn foreignReader (btcDiffLine ++ "\n") .orderDiffs fun _ => 0).bind
        fun last => last.orderBookState.map fun s =>
          ((s.orderBook.lookup ⟨"ETH"⟩).isSome,
            (s.computeL2Snapshot.1.2.2.lookup ⟨"ETH"⟩).isSome)) = some (true, false) := by
    simp only [turn, processData_line (openStatusLine "ETH") (by decide) (by decide +kernel),
      processData_line btcDiffLine (by decide) (by decide +kernel)]
    decide +kernel
  obtain ⟨mid, hmid, hturns⟩ := Option.bind_eq_some_iff.mp hturns
  obtain ⟨last, hlast, hturns⟩ := Option.bind_eq_some_iff.mp hturns
  obtain ⟨s, hs, hout⟩ := Option.map_eq_some_iff.mp hturns
  simp only [Prod.mk.injEq] at hout
  refine ⟨mid, last, s, hmid, hlast, hs, ?_, fun hviews => ?_⟩
  · rw [← Finmap.lookup_isSome]
    exact hout.1
  · rw [← Finmap.lookup_isSome, hout.2] at hviews
    simp at hviews

/-- A client may subscribe to ETH, and gets nothing. -/
theorem foreign_book_not_served : ∃ (w : World) (s : OrderBookState),
    Relation.ReflTransGen (Step foreignReader) (start .DEFAULT (some []) false .all) w ∧
      w.listener.orderBookState = some s ∧
      (Subscription.l2Book "ETH" none none none).validate w.listener.startUniverse = true ∧
      ∀ toString address, (({} : BookWireCache).get toString (.l2Book "ETH" none none none)
        ⟨address, s.computeL2Snapshot.1.2.2⟩ s.time s.height).1 = .ok none := by
  obtain ⟨mid, last, s, hmid, hlast, hs, hbook, hviews⟩ := foreignBlock_turns
  obtain ⟨w, hready, -, -, hw, -⟩ := run_first_snapshot foreignReader false ∅
  rw [readyAt, ← hw] at hmid
  have hqueued := hready.tail (.progress (.turn _ _ _ hmid))
  refine ⟨_, s, hqueued.tail (.progress (.turn _ _ _ hlast)), hs,
    Subscription.validate_plain (by decide) ((mem_startUniverse hs).mpr hbook), fun toString address => ?_⟩
  have hnone : s.computeL2Snapshot.1.2.2.lookup ⟨"ETH"⟩ = none := Finmap.lookup_eq_none.mpr hviews
  have hkeeps : ({} : BookWireCache).KeepsAddress ⟨address, s.computeL2Snapshot.1.2.2⟩ := by
    intro source hsource
    simp at hsource
  have hlevels : BookWireCache.levels s.computeL2Snapshot.1.2.2 "ETH" none none none = none := by
    rw [BookWireCache.levels, hnone]
    decide
  rw [(BookWireCache.get_eq_encode BookWireCache.valid_default hkeeps).1, BookWireCache.encode, hlevels]

/-- Two bids of one coin, and JSON that is the text of L2 frames. -/
theorem accepted_subscriptions_served_one_coin : ∃ (w : World) (s : OrderBookState),
    w.listener.orderBookState = some s ∧ s.height = 6 ∧
      (s.orderBook.book ⟨"BTC"⟩).toSnapshot.bids.map InnerL4Order.oid = [5, 7] ∧
      w.listener.Serves (fun
        | .l2Book book => .ok (ServerResponse.l2Frame book)
        | _ => .error "not an L2 frame") false s := by
  obtain ⟨w, s, hrun, -, haccepted, hs, hheight, hbids⟩ := run_opened_bid false
  exact ⟨w, s, hs, hheight, hbids, (accepted_subscriptions_served (fun book => ⟨_, rfl⟩) hrun).2.1
    (namesAll_openedBid haccepted) _ hs⟩

end World

end OrderBookListener
end OrderBookServer
