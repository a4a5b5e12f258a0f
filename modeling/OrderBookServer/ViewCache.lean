import OrderBookServer.BookState

/-!
# The cached views are those of the books

A coin is marked dirty before its book changes and cleared when its views are
rebuilt, so a coin that is not dirty has the views of its current book. The
invariant holds along every run of a state from its snapshot on, and bringing
the cache up to date therefore gives what a rebuild from nothing gives.
-/
namespace OrderBookServer

namespace BlockState

/-- The opening status found for a New diff names the coin of the diff. -/
def NamesCoin (orderMap : HashMap Oid NodeDataOrderStatus) (diff : NodeDataOrderDiff) : Prop :=
  ∀ sz anchor status, diff.rawBookDiff = .new sz anchor → orderMap.lookup diff.oid = some status →
    status.order.coin = diff.coin

/-- What diffs leave untouched: the books of the coins that are not dirty. -/
structure Touched (before after : BlockState) : Prop where
  dirty : before.dirtyCoins ⊆ after.dirtyCoins
  statuses : ∀ k status, after.orderMap.lookup k = some status → before.orderMap.lookup k = some status
  books : ∀ c, c ∈ before.orderBook → c ∈ after.orderBook
  clean : ∀ c, c ∉ after.dirtyCoins → after.orderBook.lookup c = before.orderBook.lookup c

theorem Touched.refl (self : BlockState) : Touched self self :=
  ⟨Finset.Subset.refl _, fun _ _ h => h, fun _ h => h, fun _ _ => rfl⟩

theorem Touched.trans {a b c : BlockState} (h : Touched a b) (h' : Touched b c) : Touched a c where
  dirty := h.dirty.trans h'.dirty
  statuses k status hk := h.statuses k status (h'.statuses k status hk)
  books coin hc := h'.books coin (h.books coin hc)
  clean coin hc := (h'.clean coin hc).trans (h.clean coin fun hd => hc (h'.dirty hd))

theorem tryFrom_new {raw : OrderDiff} {sz : ℕ} {anchor : Option Oid}
    (h : InnerOrderDiff.tryFrom raw = .ok (.new sz anchor)) : ∃ text, raw = .new text anchor := by
  cases raw with
  | new text before =>
    cases hs : Sz.parseFromStr text with
    | error e => simp [InnerOrderDiff.tryFrom, hs, bind, Except.bind] at h
    | ok n =>
      simp only [InnerOrderDiff.tryFrom, hs, bind, Except.bind, pure, Except.pure, Except.ok.injEq,
        InnerOrderDiff.new.injEq] at h
      exact ⟨text, by rw [h.2]⟩
  | update a b =>
    cases ha : Sz.parseFromStr a with
    | error e => simp [InnerOrderDiff.tryFrom, ha, bind, Except.bind] at h
    | ok n =>
      cases hb : Sz.parseFromStr b with
      | error e => simp [InnerOrderDiff.tryFrom, ha, hb, bind, Except.bind] at h
      | ok m => simp [InnerOrderDiff.tryFrom, ha, hb, bind, Except.bind, pure, Except.pure] at h
  | remove => simp [InnerOrderDiff.tryFrom, pure, Except.pure] at h

/-- A book once made is kept. -/
theorem Applied.keeps {ignoreSpot : Bool} {self next : BlockState} {diff : NodeDataOrderDiff}
    (h : Applied ignoreSpot self diff next) {c : Coin} (hc : c ∈ self.orderBook) :
    c ∈ next.orderBook := by
  rw [← Finmap.lookup_isSome] at hc ⊢
  cases h with
  | skipped => exact hc
  | opened =>
    rw [OrderBooks.lookup_addOrderBefore]
    split_ifs
    · rfl
    · exact hc
  | resized =>
    rw [OrderBooks.lookup_modifySz]
    split_ifs with he
    · subst he
      simpa using hc
    · exact hc
  | removed =>
    rw [OrderBooks.lookup_cancelOrder]
    split_ifs with he
    · subst he
      simpa using hc
    · exact hc

theorem AppliedAll.keeps {ignoreSpot : Bool} {self next : BlockState}
    {diffs : List NodeDataOrderDiff} (h : AppliedAll ignoreSpot self diffs next) {c : Coin}
    (hc : c ∈ self.orderBook) : c ∈ next.orderBook := by
  induction h with
  | nil => exact hc
  | cons first _ ih => exact ih (first.keeps hc)

/-- A New diff that names the coin of its status rests its order in the book of its coin. -/
theorem NamesCoin.coin_eq {orderMap : HashMap Oid NodeDataOrderStatus} {diff : NodeDataOrderDiff}
    (h : NamesCoin orderMap diff) {sz : ℕ} {anchor : Option Oid} {status : NodeDataOrderStatus}
    {order : InnerL4Order} (kind : InnerOrderDiff.tryFrom diff.rawBookDiff = .ok (.new sz anchor))
    (hstatus : orderMap.lookup diff.oid = some status)
    (horder : openedOrder status diff sz = .ok order) : InnerOrder.coin order = ⟨diff.coin⟩ := by
  obtain ⟨text, hraw⟩ := tryFrom_new kind
  change order.coin = _
  rw [(openedOrder_eq_ok horder).1, h text anchor status hraw hstatus]

theorem Applied.touched {ignoreSpot : Bool} {self next : BlockState} {diff : NodeDataOrderDiff}
    (h : Applied ignoreSpot self diff next) (hn : NamesCoin self.orderMap diff) :
    Touched self next := by
  have hbooks : ∀ c, c ∈ self.orderBook → c ∈ next.orderBook := fun _ hc => h.keeps hc
  cases h with
  | skipped => exact Touched.refl self
  | opened kept kind hstatus horder done =>
    refine ⟨Finset.subset_insert _ _, ?_, hbooks, ?_⟩
    · intro k st hk
      rw [HashMap.lookup_erase_ite] at hk
      split_ifs at hk
      exact hk
    · intro c hc
      rw [OrderBooks.lookup_addOrderBefore, if_neg]
      rintro rfl
      exact hc (hn.coin_eq kind hstatus horder ▸ Finset.mem_insert_self _ _)
  | resized kept kind done =>
    refine ⟨Finset.subset_insert _ _, fun _ _ hk => hk, hbooks, ?_⟩
    intro c hc
    rw [OrderBooks.lookup_modifySz, if_neg]
    rintro rfl
    exact hc (Finset.mem_insert_self _ _)
  | removed kept kind done =>
    refine ⟨Finset.subset_insert _ _, fun _ _ hk => hk, hbooks, ?_⟩
    intro c hc
    rw [OrderBooks.lookup_cancelOrder, if_neg]
    rintro rfl
    exact hc (Finset.mem_insert_self _ _)

theorem AppliedAll.touched {ignoreSpot : Bool} {self next : BlockState}
    {diffs : List NodeDataOrderDiff} (h : AppliedAll ignoreSpot self diffs next)
    (hn : ∀ diff ∈ diffs, NamesCoin self.orderMap diff) : Touched self next := by
  induction h with
  | nil => exact Touched.refl _
  | cons first _ ih =>
    have h1 := first.touched (hn _ (by simp))
    refine h1.trans (ih fun diff hd => ?_)
    intro sz anchor status hraw hk
    exact hn diff (List.mem_cons_of_mem _ hd) sz anchor status hraw (h1.statuses _ _ hk)

end BlockState

namespace OrderBookState

/-- The New diffs of a block name the coin of their opening status. -/
def NamesCoins (statuses : Batch NodeDataOrderStatus) (diffs : Batch NodeDataOrderDiff) : Prop :=
  ∀ diff ∈ diffs.events, BlockState.NamesCoin (openingStatuses statuses.events) diff

/-- Only coins with a book are cached, and those not dirty with their current views. -/
structure CacheInv (s : OrderBookState) : Prop where
  keys : ∀ c, c ∈ s.l2Cache → c ∈ s.orderBook
  current : ∀ c book, s.orderBook.lookup c = some book → c ∉ s.dirtyCoins →
    s.l2Cache.lookup c = some (coinViews book)

theorem CacheInv.fromSnapshot (snapshot : Snapshots InnerL4Order) (height time : ℕ)
    (ignoreTriggers ignoreSpot : Bool) :
    CacheInv (fromSnapshot snapshot height time ignoreTriggers ignoreSpot) where
  keys c hc := absurd hc (Finmap.notMem_empty)
  current c book hb hd := by
    refine absurd (Finmap.mem_keys.mpr ?_) hd
    rw [← Finmap.lookup_isSome]
    change (OrderBooks.fromSnapshots snapshot ignoreTriggers).lookup c = some book at hb
    rw [hb]
    rfl

theorem CacheInv.applyUpdates {s s' : OrderBookState} {statuses : Batch NodeDataOrderStatus}
    {diffs : Batch NodeDataOrderDiff} (h : CacheInv s) (hn : NamesCoins statuses diffs)
    (hok : s.applyUpdates statuses diffs = (s', .ok ())) : CacheInv s' := by
  cases applyUpdates_eq_ok_iff.mp hok with
  | old => exact h
  | next htime hsame hwrap hheight happlied =>
    have ht := happlied.touched hn
    constructor
    · exact fun c hc => ht.books c (h.keys c hc)
    · intro c book hb hd
      exact h.current c book ((ht.clean c hd).symm.trans hb) fun hd' => hd (ht.dirty hd')

/-- Bringing the cache up to date caches every book with its views. -/
theorem CacheInv.lookup_refresh {s : OrderBookState} (h : CacheInv s) (c : Coin) :
    (refreshL2Snapshots s.orderBook s.l2Cache s.dirtyCoins).lookup c =
      (s.orderBook.lookup c).map coinViews := by
  rw [lookup_refreshL2Snapshots]
  cases hb : s.orderBook.lookup c with
  | none =>
    have hcache : s.l2Cache.lookup c = none := by
      rw [Finmap.lookup_eq_none]
      exact fun hc => Finmap.lookup_eq_none.mp hb (h.keys c hc)
    simp [hcache]
  | some book =>
    split_ifs with hd
    · rfl
    · exact h.current c book hb hd

theorem CacheInv.computeL2Snapshot {s : OrderBookState} (h : CacheInv s) :
    CacheInv s.computeL2Snapshot.2 where
  keys c hc := by
    rw [← Finmap.lookup_isSome] at hc ⊢
    change (refreshL2Snapshots s.orderBook s.l2Cache s.dirtyCoins |>.lookup c).isSome at hc
    rw [h.lookup_refresh c, Option.isSome_map] at hc
    exact hc
  current c book hb _ := by
    change (refreshL2Snapshots s.orderBook s.l2Cache s.dirtyCoins).lookup c = _
    rw [h.lookup_refresh c]
    change s.orderBook.lookup c = some book at hb
    rw [hb]
    rfl

theorem CacheInv.snapped {s : OrderBookState} (h : CacheInv s) (b : Bool) :
    CacheInv { s with snapped := b } := ⟨h.keys, h.current⟩

theorem CacheInv.l2Snapshots {s : OrderBookState} (h : CacheInv s) (prevent : Bool) :
    CacheInv (s.l2Snapshots prevent).2 := by
  unfold OrderBookState.l2Snapshots
  split_ifs
  · exact h
  · exact (h.snapped _).computeL2Snapshot

def clone (self : OrderBookState) : OrderBookState := self

/-- A state made from a snapshot by blocks that succeed, by reading the views and
by cloning. -/
inductive Reachable : OrderBookState → Prop
  | fromSnapshot (snapshot : Snapshots InnerL4Order) (height time : ℕ)
      (ignoreTriggers ignoreSpot : Bool) :
      Reachable (fromSnapshot snapshot height time ignoreTriggers ignoreSpot)
  | applyUpdates {s s' : OrderBookState} (h : Reachable s) {statuses : Batch NodeDataOrderStatus}
      {diffs : Batch NodeDataOrderDiff} (names : NamesCoins statuses diffs)
      (ok : s.applyUpdates statuses diffs = (s', .ok ())) : Reachable s'
  | computeL2Snapshot {s : OrderBookState} (h : Reachable s) : Reachable s.computeL2Snapshot.2
  | l2Snapshots {s : OrderBookState} (h : Reachable s) (prevent : Bool) :
      Reachable (s.l2Snapshots prevent).2
  | clone {s : OrderBookState} (h : Reachable s) : Reachable s.clone

theorem Reachable.cacheInv {s : OrderBookState} (h : Reachable s) : CacheInv s := by
  induction h with
  | fromSnapshot snapshot height time ignoreTriggers ignoreSpot => exact .fromSnapshot ..
  | applyUpdates _ names ok ih => exact ih.applyUpdates names ok
  | computeL2Snapshot _ ih => exact ih.computeL2Snapshot
  | l2Snapshots _ prevent ih => exact ih.l2Snapshots prevent
  | clone _ ih => exact ih

/-- The views built from nothing for the current books. -/
def rebuiltViews (s : OrderBookState) : L2Snapshots :=
  refreshL2Snapshots s.orderBook ∅ s.orderBook.keys

theorem lookup_rebuiltViews (s : OrderBookState) (c : Coin) :
    s.rebuiltViews.lookup c = (s.orderBook.lookup c).map coinViews := by
  rw [rebuiltViews, lookup_refreshL2Snapshots]
  split_ifs with hc
  · simp
  · have hnone : s.orderBook.lookup c = none :=
      Finmap.lookup_eq_none.mpr fun hm => hc (Finmap.mem_keys.mpr hm)
    simp [hnone]

theorem CacheInv.refresh_eq {s : OrderBookState} (h : CacheInv s) :
    refreshL2Snapshots s.orderBook s.l2Cache s.dirtyCoins = s.rebuiltViews :=
  Finmap.ext_lookup fun c => (h.lookup_refresh c).trans (s.lookup_rebuiltViews c).symm

/-- In every reachable state the views returned are those built from nothing, for
exactly the coins with a book and at the height and time of the state, and what
is cached for a coin that is not dirty is current. -/
theorem incremental_views_eq_rebuild {s : OrderBookState} (h : Reachable s) :
    s.computeL2Snapshot.1 = (s.time, s.height, s.rebuiltViews) ∧
    (∀ prevent views, (s.l2Snapshots prevent).1 = some views →
      views = (s.time, s.height, s.rebuiltViews)) ∧
    s.computeL2Snapshot.1.2.2.keys = s.orderBook.keys ∧
    (∀ c, s.computeL2Snapshot.1.2.2.lookup c = (s.orderBook.lookup c).map coinViews) ∧
    ∀ c views, c ∉ s.dirtyCoins → s.l2Cache.lookup c = some views →
      ∃ book, s.orderBook.lookup c = some book ∧ views = coinViews book := by
  have hinv := h.cacheInv
  refine ⟨?_, ?_, ?_, hinv.lookup_refresh, ?_⟩
  · exact congrArg (fun views => (s.time, s.height, views)) hinv.refresh_eq
  · intro prevent views hv
    unfold OrderBookState.l2Snapshots at hv
    split_ifs at hv
    cases hv
    exact congrArg (fun views => (s.time, s.height, views)) hinv.refresh_eq
  · ext c
    rw [Finmap.mem_keys, Finmap.mem_keys, ← Finmap.lookup_isSome, ← Finmap.lookup_isSome]
    change ((refreshL2Snapshots s.orderBook s.l2Cache s.dirtyCoins).lookup c).isSome = true ↔ _
    rw [hinv.lookup_refresh c, Option.isSome_map]
  · intro c views hd hv
    have hc : c ∈ s.orderBook := hinv.keys c (Finmap.mem_iff.mpr ⟨views, hv⟩)
    obtain ⟨book, hb⟩ := Finmap.mem_iff.mp hc
    refine ⟨book, hb, ?_⟩
    have := hinv.current c book hb hd
    rw [hv] at this
    exact Option.some.inj this

/-- A block that opens the first order of a coin, applied to a state without books. -/
theorem incremental_views_eq_rebuild_first_order :
    let order : L4Order := ⟨none, "BTC", .bid, "100", "2", 7, 0, "N/A", false, "0.0", false, false,
      "Limit", some "Gtc", none⟩
    let statuses : Batch NodeDataOrderStatus := ⟨⟨0⟩, ⟨0⟩, 101, [⟨⟨0⟩, 0, "open", order⟩], 0⟩
    let diffs : Batch NodeDataOrderDiff := ⟨⟨0⟩, ⟨0⟩, 101, [⟨0, 7, "100", "BTC", .new "2" none⟩], 0⟩
    let s := ((fromSnapshot ∅ 100 0 true false).applyUpdates statuses diffs).1
    s.height = 101 ∧ s.computeL2Snapshot.1 = (s.time, s.height, s.rebuiltViews) := by
  intro order statuses diffs s
  have hok : ((fromSnapshot ∅ 100 0 true false).applyUpdates statuses diffs).2 = .ok () := by
    decide +kernel
  have names : NamesCoins statuses diffs := by
    intro diff hd sz anchor status _ hs
    have hlookup : (openingStatuses statuses.events).lookup 7 = some ⟨⟨0⟩, 0, "open", order⟩ := by
      decide +kernel
    obtain rfl := List.mem_singleton.mp hd
    rw [hlookup] at hs
    cases hs
    rfl
  have hs : Reachable s := .applyUpdates (.fromSnapshot ∅ 100 0 true false) names (Prod.ext rfl hok)
  exact ⟨by decide +kernel, (incremental_views_eq_rebuild hs).1⟩

end OrderBookState
end OrderBookServer
