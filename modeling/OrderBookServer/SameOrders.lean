import OrderBookServer.NodeBooks

/-!
# Books with the same orders

Two books may hold the same orders and differ all the same: in their index, and in being
empty or missing. A block does the same to both, as long as it is fair and no order goes
into a book that is ignored.
-/
namespace OrderBookServer
open InnerOrder PriceTime

namespace OrderBook

variable {O : Type} [InnerOrder O]

/-- Two books with the same orders. -/
structure Same (b r : OrderBook O) : Prop where
  left : RepInv b
  right : RepInv r
  orders : ∀ x, b.orders x = r.orders x

variable {b r : OrderBook O}

theorem Same.toSnapshot (h : Same b r) : b.toSnapshot = r.toSnapshot := Snapshot.ext_orders h.orders

theorem Same.addOrderBefore (h : Same b r) {o : O} (anchor : Option Oid) (fresh : b.Fresh o) :
    (b.addOrderBefore o anchor).1 = (r.addOrderBefore o anchor).1 ∧
      Same (b.addOrderBefore o anchor).2 (r.addOrderBefore o anchor).2 := by
  have hb := (addOrderBefore_spec (repInv_iff.mp h.left).1 o anchor).1
  have hr := (addOrderBefore_spec (repInv_iff.mp h.right).1 o anchor).1
  rw [← h.toSnapshot, ← hb] at hr
  have hfresh : ∀ x, ∀ o' ∈ r.orders x, oid o' ≠ oid o := fun x o' ho' =>
    fresh.2 x o' (h.orders x ▸ ho')
  refine ⟨(congrArg Prod.fst hr).symm, h.left.addOrderBefore o anchor fresh.2,
    h.right.addOrderBefore o anchor hfresh, fun x => ?_⟩
  have hsnap : (r.addOrderBefore o anchor).2.toSnapshot = (b.addOrderBefore o anchor).2.toSnapshot :=
    congrArg Prod.snd hr
  unfold OrderBook.orders
  rw [hsnap]

theorem Same.rests (h : Same b r) (k : Oid) :
    (∃ x, ∃ o ∈ b.orders x, oid o = k) ↔ ∃ x, ∃ o ∈ r.orders x, oid o = k := by
  simp only [h.orders]

theorem Same.cancelOrder (h : Same b r) (k : Oid) :
    (b.cancelOrder k).1 = (r.cancelOrder k).1 ∧ Same (b.cancelOrder k).2 (r.cancelOrder k).2 := by
  obtain ⟨hb, hbdone, hborders⟩ := h.left.cancelOrder k
  obtain ⟨hr, hrdone, hrorders⟩ := h.right.cancelOrder k
  refine ⟨Bool.eq_iff_iff.mpr (hbdone.trans ((h.rests k).trans hrdone.symm)), hb, hr, fun x => ?_⟩
  rw [hborders, hrorders, h.orders]

theorem Same.modifySz (h : Same b r) (k : Oid) (s : ℕ) :
    (b.modifySz k s).1 = (r.modifySz k s).1 ∧ Same (b.modifySz k s).2 (r.modifySz k s).2 := by
  obtain ⟨hb, hbdone, hborders⟩ := h.left.modifySz k s
  obtain ⟨hr, hrdone, hrorders⟩ := h.right.modifySz k s
  refine ⟨Bool.eq_iff_iff.mpr (hbdone.trans ((h.rests k).trans hrdone.symm)), hb, hr, fun x => ?_⟩
  rw [hborders, hrorders, h.orders]

end OrderBook

/-- Two sets of books with the same orders, of all coins that are not ignored. -/
def SameOrders (ignoreSpot : Bool) (b r : OrderBooks InnerL4Order) : Prop :=
  ∀ coin : Coin, ¬ coin.Ignored ignoreSpot → OrderBook.Same (b.book coin) (r.book coin)

/-- No diff of a coin that is not ignored opens an order of one that is. -/
def OpensNoIgnored (ignoreSpot : Bool) (pair : BlockPair) : Prop :=
  ∀ diff ∈ pair.2.events, ¬ (Coin.mk diff.coin).Ignored ignoreSpot → ∀ sz anchor,
    InnerOrderDiff.tryFrom diff.rawBookDiff = .ok (.new sz anchor) →
    ∀ status, (openingStatuses pair.1.events).lookup diff.oid = some status →
      ¬ (Coin.mk status.order.coin).Ignored ignoreSpot

namespace BlockState

variable {ignoreSpot : Bool} {b b' r : BlockState}

/-- A diff does to books with the same orders what it does to the books. -/
theorem Applied.same {diff : NodeDataOrderDiff} (ha : Applied ignoreSpot b diff b')
    (hfair : Fair ignoreSpot b diff)
    (hopens : ¬ Skipped ignoreSpot diff → ∀ sz anchor,
      InnerOrderDiff.tryFrom diff.rawBookDiff = .ok (.new sz anchor) →
      ∀ status, b.orderMap.lookup diff.oid = some status →
        ¬ (Coin.mk status.order.coin).Ignored ignoreSpot)
    (h : SameOrders ignoreSpot b.orderBook r.orderBook) (hmap : r.orderMap = b.orderMap) :
    ∃ r', Applied ignoreSpot r diff r' ∧ SameOrders ignoreSpot b'.orderBook r'.orderBook ∧
      r'.orderMap = b'.orderMap := by
  cases ha with
  | skipped hs => exact ⟨r, .skipped hs, h, hmap⟩
  | @opened sz anchor status order kept kind hstatus horder done =>
    have hcoin : ¬ order.coin.Ignored ignoreSpot := by
      rw [(openedOrder_eq_ok horder).1]
      exact hopens kept sz anchor kind status hstatus
    have hadd := (h order.coin hcoin).addOrderBefore anchor
      ((hfair.kind kept kind).fresh hstatus horder)
    refine ⟨_, .opened kept kind (hmap ▸ hstatus) horder (hadd.1.symm.trans done), fun c hc => ?_,
      by rw [hmap]⟩
    rw [OrderBooks.book_addOrderBefore, OrderBooks.book_addOrderBefore]
    split_ifs with heq
    · subst heq
      exact hadd.2
    · exact h c hc
  | @resized origSz newSz kept kind done =>
    obtain ⟨hb, hbooks⟩ := OrderBooks.modifySz_eq b.orderBook diff.oid ⟨diff.coin⟩ newSz
    obtain ⟨hr, hrbooks⟩ := OrderBooks.modifySz_eq r.orderBook diff.oid ⟨diff.coin⟩ newSz
    have hresize := (h ⟨diff.coin⟩ kept).modifySz diff.oid newSz
    refine ⟨_, .resized kept kind (hr.trans (hresize.1.symm.trans (hb.symm.trans done))),
      fun c hc => ?_, hmap⟩
    rw [hbooks, hrbooks]
    split_ifs with heq
    · exact ((h c hc).modifySz diff.oid newSz).2
    · exact h c hc
  | removed kept kind done =>
    obtain ⟨hb, hbooks⟩ := OrderBooks.cancelOrder_eq b.orderBook diff.oid ⟨diff.coin⟩
    obtain ⟨hr, hrbooks⟩ := OrderBooks.cancelOrder_eq r.orderBook diff.oid ⟨diff.coin⟩
    have hcancel := (h ⟨diff.coin⟩ kept).cancelOrder diff.oid
    refine ⟨_, .removed kept kind (hr.trans (hcancel.1.symm.trans (hb.symm.trans done))),
      fun c hc => ?_, hmap⟩
    rw [hbooks, hrbooks]
    split_ifs with heq
    · exact ((h c hc).cancelOrder diff.oid).2
    · exact h c hc

/-- A diff takes statuses off, and adds none. -/
theorem Applied.lookup_orderMap {diff : NodeDataOrderDiff} (ha : Applied ignoreSpot b diff b')
    {k : Oid} {status : NodeDataOrderStatus} (h : b'.orderMap.lookup k = some status) :
    b.orderMap.lookup k = some status := by
  cases ha with
  | skipped => exact h
  | opened kept kind hstatus horder done =>
    rw [HashMap.lookup_erase_ite] at h
    split_ifs at h
    exact h
  | resized => exact h
  | removed => exact h

theorem AppliedAll.same {pair : BlockPair} {diffs : List NodeDataOrderDiff}
    (ha : AppliedAll ignoreSpot b diffs b') (hfair : FairAll ignoreSpot b diffs)
    (hopens : OpensNoIgnored ignoreSpot pair) (hsub : diffs ⊆ pair.2.events)
    (hstatuses : ∀ k status, b.orderMap.lookup k = some status →
      (openingStatuses pair.1.events).lookup k = some status)
    (h : SameOrders ignoreSpot b.orderBook r.orderBook) (hmap : r.orderMap = b.orderMap) :
    ∃ r', AppliedAll ignoreSpot r diffs r' ∧
      SameOrders ignoreSpot b'.orderBook r'.orderBook := by
  induction ha generalizing r with
  | nil => exact ⟨r, .nil r, h⟩
  | @cons b next last diff diffs first _ ih =>
    obtain ⟨hone, hrest⟩ := hfair
    rw [applyDiff_eq_ok_iff.mpr first] at hrest
    obtain ⟨hmem, hsub⟩ := List.cons_subset.mp hsub
    obtain ⟨mid, hmid, hsame, hmaps⟩ := first.same hone (fun kept sz anchor kind status hstatus =>
      hopens diff hmem kept sz anchor kind status (hstatuses _ _ hstatus)) h hmap
    obtain ⟨r', hr', hlast⟩ := ih hrest hsub
      (fun k status hk => hstatuses k status (first.lookup_orderMap hk)) hsame hmaps
    exact ⟨r', .cons hmid hr', hlast⟩

end BlockState

namespace OrderBookState

/-- Two states at one height, with the same orders. -/
structure Same (s r : OrderBookState) : Prop where
  orders : SameOrders s.ignoreSpot s.orderBook r.orderBook
  height : r.height = s.height
  ignoreSpot : r.ignoreSpot = s.ignoreSpot

variable {s s' r r' : OrderBookState}

theorem Same.congr (h : Same s r) (hs : Agree s' s) (hr : Agree r' r) : Same s' r' where
  orders coin hkept := by
    rw [hs.orderBook, hr.orderBook]
    exact h.orders coin (hs.ignoreSpot ▸ hkept)
  height := by rw [hr.height, h.height, hs.height]
  ignoreSpot := by rw [hr.ignoreSpot, h.ignoreSpot, hs.ignoreSpot]

theorem Same.applyUpdates {pair : BlockPair} (h : Same s r) (hfair : s.Fair pair)
    (hopens : OpensNoIgnored s.ignoreSpot pair)
    (happlied : s.applyUpdates pair.1 pair.2 = (s', .ok ())) :
    ∃ r', r.applyUpdates pair.1 pair.2 = (r', .ok ()) ∧ Same s' r' ∧
      (r.time = s.time → r'.time = s'.time) := by
  cases applyUpdates_eq_ok_iff.mp happlied with
  | old htime hsame hnext hold =>
    rw [← h.height] at hnext hold
    exact ⟨r, applyUpdates_eq_ok_iff.mpr (.old htime hsame hnext hold), h, id⟩
  | next htime hsame hwrap hheight hall =>
    obtain ⟨block, hblock, horders⟩ := hall.same (r := ⟨r.orderBook, r.dirtyCoins, _⟩) hfair hopens
      (List.Subset.refl _) (fun _ _ hk => hk) h.orders rfl
    rw [← h.ignoreSpot] at hblock
    rw [← h.height] at hwrap hheight
    exact ⟨_, applyUpdates_eq_ok_iff.mpr (.next htime hsame hwrap hheight hblock),
      ⟨horders, rfl, h.ignoreSpot⟩, fun _ => rfl⟩

/-- A replay takes states with the same orders to states with the same orders. -/
theorem Same.replay {pairs : List BlockPair} (h : Same s r) (hfair : s.FairAll pairs)
    (hopens : ∀ pair ∈ pairs, OpensNoIgnored s.ignoreSpot pair)
    (hreplay : OrderBookListener.replay s pairs = .ok s') :
    ∃ r', OrderBookListener.replay r pairs = .ok r' ∧ Same s' r' ∧
      (r.time = s.time → r'.time = s'.time) := by
  induction pairs generalizing s r with
  | nil =>
    cases hreplay
    exact ⟨r, rfl, h, id⟩
  | cons pair pairs ih =>
    obtain ⟨next, hnext, hrest⟩ := OrderBookListener.replay_cons_ok hreplay
    obtain ⟨hone, hfair⟩ := hfair
    obtain ⟨hopen, hopens⟩ := List.forall_mem_cons.mp hopens
    rw [hnext] at hfair
    obtain ⟨mid, hmid, hsame, htime⟩ := h.applyUpdates hone hopen hnext
    have hspot : next.ignoreSpot = s.ignoreSpot := by
      obtain ⟨rfl, -⟩ | ⟨-, -, hspot⟩ := OrderBookListener.height_le_of_applyUpdates hnext
      · rfl
      · exact hspot
    obtain ⟨r', hr', hlast, htimes⟩ := ih hsame hfair (hspot ▸ hopens) hrest
    refine ⟨r', ?_, hlast, fun ht => htimes (htime ht)⟩
    simp only [OrderBookListener.replay, hmid, hr']

end OrderBookState
end OrderBookServer
