import OrderBookServer.Consistency
import OrderBookServer.Messages
import OrderBookServer.SameOrders

/-!
# The audit of the live books

Snapshots of the node are compared with the books that were captured, brought to their
height. Books found equal are kept, and otherwise books are rebuilt from the snapshot: in
both cases the live books are those of the snapshot and of the blocks after it.
-/
namespace OrderBookServer

open OrderBookState

namespace OrderBookListener

/-! ### The pairs on both sides of a height -/

def pairsUpTo (height : ℕ) (cache : List BlockPair) : List BlockPair :=
  cache.filter fun pair => pair.1.blockNumber ≤ height

def pairsAbove (height : ℕ) (cache : List BlockPair) : List BlockPair :=
  cache.filter fun pair => height < pair.1.blockNumber

variable {s r : OrderBookState} {cache : List BlockPair} {height : ℕ}

theorem pairsAbove_of_consecutive (h : Consecutive height cache) :
    pairsUpTo height cache = [] ∧ pairsAbove height cache = cache := by
  constructor
  · refine List.filter_eq_nil_iff.mpr fun pair hp => ?_
    have := h.lt_of_mem hp
    simpa using this
  · refine List.filter_eq_self.mpr fun pair hp => ?_
    exact decide_eq_true (h.lt_of_mem hp)

/-- Consecutive pairs each take the books one height on. -/
theorem height_of_replay (hc : Consecutive s.height cache) (h : replay s cache = .ok r) :
    r.height = s.height + cache.length := by
  induction cache generalizing s with
  | nil =>
    cases h
    rfl
  | cons pair cache ih =>
    obtain ⟨hpair, hc⟩ := consecutive_cons.mp hc
    obtain ⟨next, hnext, hrest⟩ := replay_cons_ok h
    obtain ⟨rfl, hold⟩ | ⟨hheight, -, -⟩ := height_le_of_applyUpdates hnext
    · omega
    · rw [← hheight] at hc
      rw [ih hc hrest, hheight, List.length_cons]
      omega

/-- Where a replay to a height stops, and what is left. -/
structure Reached (s r : OrderBookState) (cache : List BlockPair) (height : ℕ)
    (reached : OrderBookState) : Prop where
  replayTo : replayTo height s cache = .ok (some (reached, pairsAbove height cache))
  atHeight : reached.height = height
  upTo : replay s (pairsUpTo height cache) = .ok reached
  above : replay reached (pairsAbove height cache) = .ok r
  consecutive : Consecutive height (pairsAbove height cache)
  split : cache = pairsUpTo height cache ++ pairsAbove height cache

theorem exists_reached (hc : Consecutive s.height cache) (h : replay s cache = .ok r)
    (hle : s.height ≤ height) (hge : height ≤ r.height) :
    ∃ reached, Reached s r cache height reached := by
  induction cache generalizing s with
  | nil =>
    cases h
    obtain rfl : r.height = height := le_antisymm hle hge
    exact ⟨r, by simp [replayTo, pairsAbove], rfl, rfl, rfl, .nil _, rfl⟩
  | cons pair cache ih =>
    obtain ⟨hpair, hrest⟩ := consecutive_cons.mp hc
    by_cases hlt : s.height < height
    · obtain ⟨next, hnext, hreplay⟩ := replay_cons_ok h
      obtain ⟨rfl, hold⟩ | ⟨hheight, -, -⟩ := height_le_of_applyUpdates hnext
      · omega
      rw [← hheight] at hrest
      obtain ⟨reached, hr⟩ := ih hrest hreplay (by omega)
      have hup : pairsUpTo height (pair :: cache) = pair :: pairsUpTo height cache :=
        List.filter_cons_of_pos (decide_eq_true (by omega))
      have habove : pairsAbove height (pair :: cache) = pairsAbove height cache :=
        List.filter_cons_of_neg (by simp; omega)
      refine ⟨reached, ?_, hr.atHeight, ?_, habove ▸ hr.above, habove ▸ hr.consecutive, ?_⟩
      · rw [OrderBookListener.replayTo, if_pos hlt, hnext, habove]
        exact hr.replayTo
      · rw [hup]
        simp only [replay, hnext, hr.upTo]
      · rw [hup, habove, List.cons_append, ← hr.split]
    · obtain rfl : s.height = height := by omega
      obtain ⟨hup, habove⟩ := pairsAbove_of_consecutive hc
      refine ⟨s, ?_, rfl, ?_, ?_, ?_, ?_⟩
      · rw [OrderBookListener.replayTo, if_neg hlt, habove]
      · rw [hup]
        rfl
      · rw [habove]
        exact h
      · rw [habove]
        exact hc
      · rw [hup, habove]
        rfl

/-- The pairs run out before a height that is past them. -/
theorem replayTo_past (h : replay s cache = .ok r) (hc : Consecutive s.height cache)
    (hlt : r.height < height) : replayTo height s cache = .ok none := by
  induction cache generalizing s with
  | nil =>
    cases h
    exact if_pos hlt
  | cons pair cache ih =>
    have hheight := height_of_replay hc h
    obtain ⟨next, hnext, hreplay⟩ := replay_cons_ok h
    obtain ⟨hpair, hrest⟩ := consecutive_cons.mp hc
    obtain ⟨rfl, hold⟩ | ⟨hh, -, -⟩ := height_le_of_applyUpdates hnext
    · omega
    rw [← hh] at hrest
    rw [replayTo, if_pos (by omega), hnext]
    exact ih hreplay hrest

/-- Nothing is replayed for a height before the books. -/
theorem replayTo_before (hlt : height < s.height) :
    replayTo height s cache = .ok (some (s, cache)) := by
  cases cache with
  | nil => exact if_neg (Nat.lt_asymm hlt)
  | cons pair cache => exact if_neg (Nat.lt_asymm hlt)

theorem fairAll_append {ps qs : List BlockPair} (h : replay s ps = .ok r) :
    s.FairAll (ps ++ qs) ↔ s.FairAll ps ∧ r.FairAll qs := by
  induction ps generalizing s with
  | nil =>
    cases h
    exact (and_iff_right trivial).symm
  | cons pair ps ih =>
    obtain ⟨next, hnext, hrest⟩ := replay_cons_ok h
    rw [List.cons_append, FairAll, FairAll, hnext, ih hrest, and_assoc]

/-! ### Books rebuilt from a consistent snapshot -/

theorem snapshotBook_computeSnapshot (s : OrderBookState) (coin : Coin) :
    snapshotBook s.computeSnapshot.snapshot coin = (s.orderBook.book coin).toSnapshot := by
  show ((s.orderBook.toSnapshots).lookup coin).getD ⟨[], []⟩ = _
  unfold OrderBooks.toSnapshots OrderBooks.book
  rw [HashMap.lookup_mapValues]
  cases s.orderBook.lookup coin with
  | none => rfl
  | some book => rfl

/-- Books that are fed have the orders of those read from a consistent snapshot. -/
theorem same_of_consistent {ignoreSpot : Bool} {snapshot : Snapshots InnerL4Order}
    {mapOrder : MapOrder} {consistency : SnapshotConsistency} (hfed : s.Fed ignoreSpot)
    (hvalid : validateSnapshotConsistency mapOrder s.computeSnapshot.snapshot snapshot ignoreSpot =
      .ok consistency) (time : ℕ) :
    Same s (.fromSnapshot snapshot s.height time true ignoreSpot) := by
  refine ⟨fun coin hkept => ?_, rfl, hfed.ignoreSpot_eq.symm⟩
  rw [hfed.ignoreSpot_eq] at hkept
  have hbook := eq_of_validateSnapshotConsistency hvalid hkept
  rw [snapshotBook_computeSnapshot] at hbook
  have hmine := hfed.books coin
  obtain ⟨hread, hsame⟩ := hmine.atRest.fromSnapshot
  rw [hbook] at hread
  have hother : (OrderBookState.fromSnapshot snapshot s.height time true ignoreSpot).orderBook.book
      coin = .fromSnapshot (snapshotBook snapshot coin) true :=
    OrderBooks.book_fromSnapshots snapshot true coin
  rw [hother]
  refine ⟨hmine.repInv, hread.repInv, fun x => ?_⟩
  rw [OrderBook.orders, OrderBook.orders, ← hbook, hsame]

/-- A replay that moves the books is not snapped yet. -/
theorem snapped_of_replay (h : replay s cache = .ok r) (hs : s.snapped = false) :
    r.snapped = false := by
  induction cache generalizing s with
  | nil =>
    cases h
    exact hs
  | cons pair cache ih =>
    obtain ⟨next, hnext, hrest⟩ := replay_cons_ok h
    cases applyUpdates_eq_ok_iff.mp hnext with
    | old => exact ih hrest hs
    | next => exact ih hrest rfl

/-- Views of books that are not snapped are published, and the books stay as they are. -/
theorem publishViews_of_not_snapped {self : OrderBookListener} {book : OrderBookState}
    (hbook : self.orderBookState = some book) (hsnapped : book.snapped = false) :
    ∃ views book', self.publishViews.orderBookState = some book' ∧ Agree book' book ∧
      book'.time = book.time ∧ self.publishViews.internalMessageTx =
        self.internalMessageTx.map (· ++ [.snapshot views book.time book.height]) := by
  obtain ⟨hagree, htime⟩ := agree_l2Snapshots book true
  have hviews : (book.l2Snapshots true).1 = some (book.time, book.height,
      refreshL2Snapshots book.orderBook book.l2Cache book.dirtyCoins) := by
    unfold OrderBookState.l2Snapshots
    rw [hsnapped]
    rfl
  refine ⟨refreshL2Snapshots book.orderBook book.l2Cache book.dirtyCoins,
    (book.l2Snapshots true).2, ?_, hagree, htime, ?_⟩
  all_goals
    unfold publishViews OrderBookListener.l2Snapshots
    rw [hbook]
    dsimp only
    rw [hviews]
    rfl

/-! ### The outcomes -/

/-- What an audit is given: the live books, books captured before, and the pairs between them,
all fed by a node. -/
structure Captured (listener : OrderBookListener) (l s : OrderBookState)
    (cache : List BlockPair) : Prop where
  live : listener.orderBookState = some l
  fed : s.Fed listener.ignoreSpot
  consecutive : Consecutive s.height cache
  fair : s.FairAll cache
  replayed : ∃ r, replay s cache = .ok r ∧ Agree l r ∧ l.time = r.time

section Outcomes

variable {self : OrderBookListener} {l reached recovered : OrderBookState}
  {snapshot : Snapshots InnerL4Order} {mapOrder : MapOrder} {time : ℕ}

theorem reconcileSnapshot_of_reached (h : Reached s r cache height reached) :
    reconcileSnapshot mapOrder self (some s) snapshot height cache =
      match validateSnapshotConsistency mapOrder reached.computeSnapshot.snapshot snapshot
        self.ignoreSpot with
      | .ok .equal => (self, .ok ())
      | .ok .emptyBooksAdded =>
        self.rebuild snapshot height reached.time (pairsAbove height cache) true
      | .error _ => self.rebuild snapshot height 0 (pairsAbove height cache) false := by
  unfold reconcileSnapshot
  dsimp only
  rw [h.replayTo]
  dsimp only
  rw [if_neg (by rw [h.atHeight]; exact lt_irrefl _)]
  rfl

theorem rebuild_error {fault : Fault} {emptyAdditions : Bool}
    (h : replay (.fromSnapshot snapshot height time true self.ignoreSpot) cache = .error fault) :
    self.rebuild snapshot height time cache emptyAdditions = (self, .error fault) := by
  unfold rebuild
  dsimp only
  rw [h]

/-- Rebuilt books are live, and announced by their views or by a gap. -/
theorem rebuild_ok (emptyAdditions : Bool)
    (h : replay (.fromSnapshot snapshot height time true self.ignoreSpot) cache = .ok recovered) :
    (self.rebuild snapshot height time cache emptyAdditions).2 = .ok () ∧
      ∃ l', (self.rebuild snapshot height time cache emptyAdditions).1.orderBookState = some l' ∧
        Agree l' recovered ∧ l'.time = recovered.time ∧
        ∃ views, (self.rebuild snapshot height time cache emptyAdditions).1.internalMessageTx =
          self.internalMessageTx.map (· ++ [if emptyAdditions then
            .snapshot views recovered.time recovered.height else .gap]) := by
  unfold rebuild
  dsimp only
  rw [h]
  dsimp only
  refine ⟨rfl, ?_⟩
  cases emptyAdditions with
  | false => exact ⟨recovered, rfl, .refl _, rfl, ∅, rfl⟩
  | true =>
    have hlive : { self with orderBookState := some recovered }.orderBookState = some recovered :=
      rfl
    obtain ⟨views, book, hbook, hagree, htime, hsent⟩ :=
      publishViews_of_not_snapped hlive (snapped_of_replay h rfl)
    exact ⟨book, hbook, hagree, htime, views, hsent⟩

/-- The captured books at a height in between are fed, and so are the pairs left. -/
theorem Captured.exists_reached (h : Captured self l s cache) (hle : s.height ≤ height)
    (hge : height ≤ l.height) : ∃ r reached, Reached s r cache height reached ∧ Agree l r ∧
      l.time = r.time ∧ reached.Fed self.ignoreSpot ∧
      reached.FairAll (pairsAbove height cache) := by
  obtain ⟨r, hreplay, hagree, htime⟩ := h.replayed
  obtain ⟨reached, hr⟩ :=
    OrderBookListener.exists_reached h.consecutive hreplay hle (hagree.height ▸ hge)
  have hfair := h.fair
  rw [hr.split, fairAll_append hr.upTo] at hfair
  exact ⟨r, reached, hr, hagree, htime, h.fed.replay hfair.1 hr.upTo, hfair.2⟩

/-- Books read from a consistent snapshot go through the pairs left as the captured books do. -/
theorem Reached.follow {consistency : SnapshotConsistency} (hr : Reached s r cache height reached)
    (hfed : reached.Fed self.ignoreSpot) (hfair : reached.FairAll (pairsAbove height cache))
    (hopens : ∀ pair ∈ pairsAbove height cache, OpensNoIgnored self.ignoreSpot pair)
    (hvalid : validateSnapshotConsistency mapOrder reached.computeSnapshot.snapshot snapshot
      self.ignoreSpot = .ok consistency) (time : ℕ) :
    ∃ b, replay (.fromSnapshot snapshot height time true self.ignoreSpot)
      (pairsAbove height cache) = .ok b ∧ Same r b ∧ (time = reached.time → b.time = r.time) := by
  have hsame := same_of_consistent hfed hvalid time
  rw [hr.atHeight] at hsame
  exact hsame.replay hfair (hfed.ignoreSpot_eq ▸ hopens) hr.above

theorem orders_eq_of_agree {l r b : OrderBookState} (hagree : Agree l r) (h : Same r b) {coin : Coin}
    (hkept : ¬ coin.Ignored l.ignoreSpot) (x : Side) :
    (l.orderBook.book coin).orders x = (b.orderBook.book coin).orders x := by
  rw [hagree.orderBook]
  exact (h.orders coin (hagree.ignoreSpot ▸ hkept)).orders x

/-- A snapshot at a height before the captured books, or past their replay, is passed over. -/
theorem reconcileSnapshot_out_of_replay (mapOrder : MapOrder) (hreplay : replay s cache = .ok r)
    (hc : Consecutive s.height cache) (hout : height < s.height ∨ r.height < height) :
    reconcileSnapshot mapOrder self (some s) snapshot height cache = (self, .ok ()) := by
  unfold reconcileSnapshot
  dsimp only
  obtain hbefore | hpast := hout
  · rw [replayTo_before hbefore]
    exact if_pos hbefore
  · rw [replayTo_past hreplay hc hpast]

theorem reconcileSnapshot_out_of_reach (mapOrder : MapOrder) (h : Captured self l s cache)
    (snapshot : Snapshots InnerL4Order) (hout : height < s.height ∨ l.height < height) :
    reconcileSnapshot mapOrder self (some s) snapshot height cache = (self, .ok ()) := by
  obtain ⟨r, hreplay, hagree, -⟩ := h.replayed
  exact reconcileSnapshot_out_of_replay mapOrder hreplay h.consecutive (hagree.height ▸ hout)

/-- A rebuild that fails leaves the live books alone, and one that does not leaves those of the
snapshot and the pairs. -/
theorem rebuild_follows (self : OrderBookListener) (snapshot : Snapshots InnerL4Order)
    (height t : ℕ) (rest : List BlockPair) (emptyAdditions : Bool) :
    let out := self.rebuild snapshot height t rest emptyAdditions
    (out.2 ≠ .ok () → out.1 = self) ∧
    (out.2 = .ok () → ∀ time, ∃ l' b, out.1.orderBookState = some l' ∧
      replay (.fromSnapshot snapshot height time true self.ignoreSpot) rest = .ok b ∧
      Agree l' b) := by
  intro out
  cases hreplay : replay (.fromSnapshot snapshot height t true self.ignoreSpot) rest with
  | error fault =>
    have hout : out = (self, .error fault) := rebuild_error hreplay
    rw [hout]
    exact ⟨fun _ => rfl, fun hok => nomatch hok⟩
  | ok recovered =>
    obtain ⟨hok, l', hl', hagree, -, -⟩ := rebuild_ok emptyAdditions hreplay
    refine ⟨fun herror => absurd hok herror, fun _ time => ?_⟩
    have hstart : Agree (.fromSnapshot snapshot height time true self.ignoreSpot)
        (.fromSnapshot snapshot height t true self.ignoreSpot) := ⟨rfl, rfl, rfl⟩
    obtain ⟨b, hb, hsame, -⟩ := replay_agree hstart hreplay
    exact ⟨l', b, hl', hb, hagree.trans hsame.symm⟩

/-- Live books at the height they had, with the orders of a snapshot and the pairs after it. -/
def FollowsSnapshot (ignoreSpot : Bool) (live : Option OrderBookState) (liveHeight : ℕ)
    (snapshot : Snapshots InnerL4Order) (height : ℕ) (rest : List BlockPair) : Prop :=
  ∀ time, ∃ l' b, live = some l' ∧ l'.height = liveHeight ∧
    replay (.fromSnapshot snapshot height time true ignoreSpot) rest = .ok b ∧
    ∀ coin : Coin, ¬ coin.Ignored ignoreSpot → ∀ x,
      (l'.orderBook.book coin).orders x = (b.orderBook.book coin).orders x

end Outcomes

/-! ### A spot order in front of another -/

def spotSnapshot : Snapshots InnerL4Order := Finmap.singleton ⟨"@1"⟩ ⟨[.unitBid "@1" 7], []⟩

/-- A spot order rests at height 5. -/
def spotAtFive (ignoreSpot : Bool) : OrderBookState := .fromSnapshot spotSnapshot 5 0 true ignoreSpot

/-- The block of height 6 opens a spot order in front of it, by a diff of the given coin. -/
def spotOpened (coin : String) : BlockPair :=
  (⟨⟨0⟩, ⟨0⟩, 6, [⟨⟨0⟩, 0, "open", .ofInner (.unitBid "@1" 9)⟩], 0⟩,
    ⟨⟨0⟩, ⟨0⟩, 6, [⟨0, 9, "1", coin, .new "1" (some 7)⟩], 0⟩)

theorem atRest_nil : OrderBook.AtRest (⟨[], []⟩ : Snapshot InnerL4Order) where
  side_eq x _ ho := by cases x <;> cases ho
  sorted x := by cases x <;> exact List.Pairwise.nil
  uncrossed _ _ _ hask := nomatch hask
  pos x _ ho := by cases x <;> cases ho
  oids := List.nodup_nil

/-- A bid by itself is at rest. -/
theorem atRest_bid {o : InnerL4Order} (hside : o.side = .bid) (hpos : 0 < o.sz) :
    OrderBook.AtRest (⟨[o], []⟩ : Snapshot InnerL4Order) where
  side_eq x o' ho := by
    cases x with
    | bid => rwa [List.mem_singleton.mp ho]
    | ask => cases ho
  sorted x := by cases x <;> simp [Snapshot.orders, PriceTime.Sorted]
  uncrossed _ _ _ hask := nomatch hask
  pos x o' ho := by
    cases x with
    | bid => rwa [List.mem_singleton.mp ho]
    | ask => cases ho
  oids := List.nodup_singleton _

theorem spotSnapshot_atRest {coin : Coin} {book : Snapshot InnerL4Order}
    (h : spotSnapshot.lookup coin = some book) : OrderBook.AtRest book := by
  have hcoin : coin = ⟨"@1"⟩ :=
    Finmap.mem_singleton _ _ _ |>.mp (Finmap.mem_of_lookup_eq_some h)
  rw [hcoin, spotSnapshot, Finmap.lookup_singleton_eq] at h
  exact Option.some.inj h ▸ atRest_bid rfl (by decide)

/-- A listener whose live books the block has reached, and what its audit is given. -/
theorem captured_spotOpened {ignoreSpot : Bool} {coin : String} {l : OrderBookState}
    (hreplay : replay (spotAtFive ignoreSpot) [spotOpened coin] = .ok l)
    (hfair : (spotAtFive ignoreSpot).Fair (spotOpened coin)) :
    Captured { OrderBookListener.new (some []) ignoreSpot .all with orderBookState := some l } l
      (spotAtFive ignoreSpot) [spotOpened coin] where
  live := rfl
  fed := .fromSnapshot 5 0 fun _ _ hbook => (spotSnapshot_atRest hbook).opens
  consecutive := rfl
  fair := ⟨hfair, trivial⟩
  replayed := ⟨l, hreplay, .refl l, rfl⟩

/-- The captured books are at the height of the snapshot, and the block is left. -/
theorem reached_spotOpened {ignoreSpot : Bool} {coin : String} {l : OrderBookState}
    (hreplay : replay (spotAtFive ignoreSpot) [spotOpened coin] = .ok l) :
    l.height = 6 ∧ pairsAbove 5 [spotOpened coin] = [spotOpened coin] ∧
      Reached (spotAtFive ignoreSpot) l [spotOpened coin] 5 (spotAtFive ignoreSpot) := by
  have hc : Consecutive (spotAtFive ignoreSpot).height [spotOpened coin] := rfl
  have hheight : l.height = 6 := height_of_replay hc hreplay
  obtain ⟨hup, habove⟩ := pairsAbove_of_consecutive hc
  obtain ⟨reached, hr⟩ := exists_reached hc hreplay le_rfl (hheight ▸ Nat.le_succ 5)
  have hsame : replay (spotAtFive ignoreSpot) [] = .ok reached := hup ▸ hr.upTo
  cases hsame
  exact ⟨hheight, habove, hr⟩

theorem spotOpened_BTC : (∃ l, replay (spotAtFive true) [spotOpened "BTC"] = .ok l) ∧
    (spotAtFive true).Fair (spotOpened "BTC") := by
  have hfair : BlockState.Fair true ⟨(spotAtFive true).orderBook, (spotAtFive true).dirtyCoins,
      openingStatuses (spotOpened "BTC").1.events⟩ ⟨0, 9, "1", "BTC", .new "1" (some 7)⟩ := by
    decide +kernel
  exact ⟨exists_of_isOk (by decide +kernel), hfair, trivial⟩

theorem spotOpened_spot : (∃ l, replay (spotAtFive false) [spotOpened "@1"] = .ok l) ∧
    (spotAtFive false).Fair (spotOpened "@1") := by
  have hfair : BlockState.Fair false ⟨(spotAtFive false).orderBook, (spotAtFive false).dirtyCoins,
      openingStatuses (spotOpened "@1").1.events⟩ ⟨0, 9, "1", "@1", .new "1" (some 7)⟩ := by
    decide +kernel
  exact ⟨exists_of_isOk (by decide +kernel), hfair, trivial⟩

theorem keys_spotAtFive (ignoreSpot : Bool) :
    (spotAtFive ignoreSpot).computeSnapshot.snapshot.keys = {⟨"@1"⟩} := by
  cases ignoreSpot <;> decide +kernel

/-- Where spot is ignored, no book is missing in a snapshot without books. -/
theorem validate_without_spot (mapOrder : MapOrder) :
    validateSnapshotConsistency mapOrder (spotAtFive true).computeSnapshot.snapshot ∅ true =
      .ok .equal ∧
    validateSnapshotConsistency mapOrder (spotAtFive true).computeSnapshot.snapshot
      (Finmap.singleton ⟨"ETH"⟩ ⟨[], []⟩) true = .ok .emptyBooksAdded := by
  unfold validateSnapshotConsistency
  rw [keys_spotAtFive, mapOrder.visit_singleton]
  decide +kernel

/-- Where it is not, the snapshot the books began with is equal, and with an empty book more it
adds that one. -/
theorem validate_with_spot (mapOrder : MapOrder) :
    validateSnapshotConsistency mapOrder (spotAtFive false).computeSnapshot.snapshot spotSnapshot
      false = .ok .equal ∧
    validateSnapshotConsistency mapOrder (spotAtFive false).computeSnapshot.snapshot
      (spotSnapshot.insert ⟨"ETH"⟩ ⟨[], []⟩) false = .ok .emptyBooksAdded := by
  unfold validateSnapshotConsistency
  rw [keys_spotAtFive, mapOrder.visit_singleton]
  decide +kernel

theorem opensNoIgnored_of_spot (cache : List BlockPair) :
    ∀ pair ∈ cache, OpensNoIgnored false pair := by
  intro pair _ diff _ _ sz anchor _ status _
  rw [Coin.Ignored, Bool.and_false]
  exact Bool.false_ne_true

/-! ### What an audit guarantees -/

variable {self : OrderBookListener} {l reached : OrderBookState}
  {snapshot : Snapshots InnerL4Order}

/-- An audit that fails, or is of a height out of reach, leaves the live books alone. After any
other, the live books are at the height they were, and their orders are those of the
snapshot with the pairs above it. -/
theorem audited_books_follow_the_snapshot (mapOrder : MapOrder) (h : Captured self l s cache)
    (snapshot : Snapshots InnerL4Order) (height : ℕ)
    (hopens : ∀ pair ∈ pairsAbove height cache, OpensNoIgnored self.ignoreSpot pair) :
    let out := reconcileSnapshot mapOrder self (some s) snapshot height cache
    (out.2 ≠ .ok () ∨ height < s.height ∨ l.height < height → out.1.orderBookState = some l) ∧
    (out.2 = .ok () → s.height ≤ height → height ≤ l.height →
      FollowsSnapshot self.ignoreSpot out.1.orderBookState l.height snapshot height
        (pairsAbove height cache)) := by
  intro out
  by_cases hreach : s.height ≤ height ∧ height ≤ l.height
  swap
  · have hout : out = (self, .ok ()) :=
      reconcileSnapshot_out_of_reach mapOrder h snapshot (by omega)
    rw [hout]
    exact ⟨fun _ => h.live, fun _ hle hge => absurd ⟨hle, hge⟩ hreach⟩
  obtain ⟨r, reached, hr, hagree, -, hfed, hfair⟩ := h.exists_reached hreach.1 hreach.2
  suffices hboth : (out.2 ≠ .ok () → out.1.orderBookState = some l) ∧
      (out.2 = .ok () → FollowsSnapshot self.ignoreSpot out.1.orderBookState l.height snapshot
        height (pairsAbove height cache)) by
    refine ⟨?_, fun heq _ _ => hboth.2 heq⟩
    rintro (herror | hbefore | hpast)
    · exact hboth.1 herror
    · omega
    · omega
  have hheight {b : OrderBookState} {time : ℕ}
      (hb : replay (.fromSnapshot snapshot height time true self.ignoreSpot)
        (pairsAbove height cache) = .ok b) : b.height = l.height := by
    have hlive := height_of_replay (hr.atHeight.symm ▸ hr.consecutive) hr.above
    rw [hagree.height, hlive, hr.atHeight]
    exact height_of_replay (s := .fromSnapshot _ _ _ _ _) hr.consecutive hb
  have hrebuilt {flag : Bool} {t : ℕ}
      (hout : out = self.rebuild snapshot height t (pairsAbove height cache) flag) :
      (out.2 ≠ .ok () → out.1.orderBookState = some l) ∧
      (out.2 = .ok () → FollowsSnapshot self.ignoreSpot out.1.orderBookState l.height snapshot
        height (pairsAbove height cache)) := by
    obtain ⟨herror, hok⟩ := rebuild_follows self snapshot height t (pairsAbove height cache) flag
    rw [← hout] at herror hok
    refine ⟨fun hne => by rw [herror hne]; exact h.live, fun heq time => ?_⟩
    obtain ⟨l', b, hl', hb, hsame⟩ := hok heq time
    refine ⟨l', b, hl', hsame.height.trans (hheight hb), hb, fun coin _ x => ?_⟩
    rw [hsame.orderBook]
  have hout : out = _ := reconcileSnapshot_of_reached hr
  cases hvalid : validateSnapshotConsistency mapOrder reached.computeSnapshot.snapshot snapshot
      self.ignoreSpot with
  | error divergence =>
    rw [hvalid] at hout
    exact hrebuilt hout
  | ok consistency =>
    rw [hvalid] at hout
    cases consistency with
    | emptyBooksAdded => exact hrebuilt hout
    | equal =>
      -- the books that are kept have the orders that a rebuild would give
      rw [hout]
      refine ⟨fun hne => absurd rfl hne, fun _ time => ?_⟩
      obtain ⟨b, hb, hsame, -⟩ := hr.follow hfed hfair hopens hvalid time
      have hspot : l.ignoreSpot = self.ignoreSpot :=
        hagree.ignoreSpot.trans (hfed.replay hfair hr.above).ignoreSpot_eq
      exact ⟨l, b, h.live, rfl, hb,
        fun coin hkept x => orders_eq_of_agree hagree hsame (hspot ▸ hkept) x⟩

theorem audited_books_follow_the_snapshot_spot : ∃ (l s : OrderBookState)
    (cache : List BlockPair) (live : Option OrderBookState), s.height = 5 ∧ l.height = 6 ∧
    FollowsSnapshot false live 6 spotSnapshot 5 (pairsAbove 5 cache) := by
  obtain ⟨hvisit⟩ := MapOrder.nonempty
  obtain ⟨⟨l, hreplay⟩, hfair⟩ := spotOpened_spot
  obtain ⟨hheight, -, hr⟩ := reached_spotOpened hreplay
  have hcaptured := captured_spotOpened hreplay hfair
  have hok : (reconcileSnapshot hvisit { OrderBookListener.new (some []) false .all with
      orderBookState := some l } (some (spotAtFive false)) spotSnapshot 5
      [spotOpened "@1"]).2 = .ok () := by
    rw [reconcileSnapshot_of_reached hr]
    dsimp only [OrderBookListener.new]
    rw [(validate_with_spot hvisit).1]
  have hfollows := (audited_books_follow_the_snapshot hvisit hcaptured spotSnapshot 5
    (opensNoIgnored_of_spot _)).2 hok le_rfl (hheight ▸ Nat.le_succ 5)
  rw [hheight] at hfollows
  exact ⟨l, spotAtFive false, _, _, rfl, hheight, hfollows⟩

/-- Spot is ignored: the order in front of which the block opens another is not in the snapshot,
so its books cannot follow the block, though they are found equal. -/
theorem equal_books_lose_the_spot_order : ∃ (mapOrder : MapOrder) (self : OrderBookListener)
    (l s : OrderBookState) (cache : List BlockPair) (snapshot : Snapshots InnerL4Order),
    Captured self l s cache ∧
    (∀ coin book, snapshot.lookup coin = some book → OrderBook.AtRest book) ∧
    s.height ≤ 5 ∧ 5 ≤ l.height ∧
    (reconcileSnapshot mapOrder self (some s) snapshot 5 cache).2 = .ok () ∧
    ¬ FollowsSnapshot self.ignoreSpot
      (reconcileSnapshot mapOrder self (some s) snapshot 5 cache).1.orderBookState l.height
      snapshot 5 (pairsAbove 5 cache) := by
  obtain ⟨hvisit⟩ := MapOrder.nonempty
  obtain ⟨⟨l, hreplay⟩, hfair⟩ := spotOpened_BTC
  obtain ⟨hheight, habove, hr⟩ := reached_spotOpened hreplay
  refine ⟨hvisit, _, l, _, _, ∅, captured_spotOpened hreplay hfair, ?_, le_rfl, by omega, ?_, ?_⟩
  · intro coin book hbook
    rw [Finmap.lookup_empty] at hbook
    cases hbook
  · rw [reconcileSnapshot_of_reached hr]
    dsimp only [OrderBookListener.new]
    rw [(validate_without_spot hvisit).1]
  · intro h
    obtain ⟨-, b, -, -, hb, -⟩ := h 0
    rw [habove] at hb
    have hfails : (replay (.fromSnapshot ∅ 5 0 true true) [spotOpened "BTC"]).isOk = false := by
      decide +kernel
    cases hfails.symm.trans (congrArg Except.isOk hb)

/-- Where only empty books are added, the books are rebuilt with the orders, the height and the
time they had, which is announced by their views: blocks to come do the same to both. -/
theorem empty_additions_keep_the_orders (mapOrder : MapOrder) (h : Captured self l s cache)
    (hle : s.height ≤ height) (hge : height ≤ l.height)
    (hreached : replay s (pairsUpTo height cache) = .ok reached)
    (hvalid : validateSnapshotConsistency mapOrder reached.computeSnapshot.snapshot snapshot
      self.ignoreSpot = .ok .emptyBooksAdded)
    (hopens : ∀ pair ∈ pairsAbove height cache, OpensNoIgnored self.ignoreSpot pair) :
    let out := reconcileSnapshot mapOrder self (some s) snapshot height cache
    out.2 = .ok () ∧
    (∃ views, out.1.internalMessageTx =
      self.internalMessageTx.map (· ++ [.snapshot views l.time l.height])) ∧
    ∃ l', out.1.orderBookState = some l' ∧ l'.height = l.height ∧ l'.time = l.time ∧
      (∀ coin : Coin, ¬ coin.Ignored self.ignoreSpot → ∀ x,
        (l'.orderBook.book coin).orders x = (l.orderBook.book coin).orders x) ∧
      ∀ later t, l.FairAll later → (∀ pair ∈ later, OpensNoIgnored self.ignoreSpot pair) →
        replay l later = .ok t → ∃ t', replay l' later = .ok t' ∧
          ∀ coin : Coin, ¬ coin.Ignored self.ignoreSpot → ∀ x,
            (t'.orderBook.book coin).orders x = (t.orderBook.book coin).orders x := by
  intro out
  obtain ⟨r, reached', hr, hagree, htime, hfed, hfair⟩ := h.exists_reached hle hge
  cases hreached.symm.trans hr.upTo
  obtain ⟨b, hb, hsame, hbtime⟩ := hr.follow hfed hfair hopens hvalid reached.time
  have hout : out = self.rebuild snapshot height reached.time (pairsAbove height cache) true := by
    show reconcileSnapshot mapOrder self (some s) snapshot height cache = _
    rw [reconcileSnapshot_of_reached hr, hvalid]
  obtain ⟨hok, l', hl', hagree', htime', views, hsent⟩ := rebuild_ok true hb
  rw [← hout] at hok hl' hsent
  have hboth : Same l l' := hsame.congr hagree hagree'
  have hspot : l.ignoreSpot = self.ignoreSpot :=
    hagree.ignoreSpot.trans (hfed.replay hfair hr.above).ignoreSpot_eq
  refine ⟨hok, ⟨views, ?_⟩, l', hl', hboth.height, ?_, fun coin hkept x => ?_, ?_⟩
  · rw [hsent, hbtime rfl, ← htime, hsame.height, ← hagree.height]
    rfl
  · rw [htime', hbtime rfl, htime]
  · exact ((hboth.orders coin (hspot ▸ hkept)).orders x).symm
  · intro later t hlater hkept hreplay
    obtain ⟨t', ht', hsame', -⟩ := hboth.replay hlater (hspot ▸ hkept) hreplay
    obtain ⟨-, -, -, -, -, ht⟩ := exists_consecutive_of_replay hreplay
    exact ⟨t', ht', fun coin hcoin x =>
      ((hsame'.orders coin ((ht.trans hspot).symm ▸ hcoin)).orders x).symm⟩

theorem empty_additions_keep_the_orders_spot : ∃ (self after : OrderBookListener)
    (l l' : OrderBookState), self.orderBookState = some l ∧ l.height = 6 ∧
    after.orderBookState = some l' ∧ l'.height = 6 ∧
    ∀ coin : Coin, ¬ coin.Ignored false → ∀ x,
      (l'.orderBook.book coin).orders x = (l.orderBook.book coin).orders x := by
  obtain ⟨hvisit⟩ := MapOrder.nonempty
  obtain ⟨⟨l, hreplay⟩, hfair⟩ := spotOpened_spot
  obtain ⟨hheight, -, hr⟩ := reached_spotOpened hreplay
  have hcaptured := captured_spotOpened hreplay hfair
  obtain ⟨-, -, l', hl', hsame, -, horders, -⟩ := empty_additions_keep_the_orders hvisit hcaptured
    le_rfl (hheight ▸ Nat.le_succ 5) hr.upTo (validate_with_spot hvisit).2
    (opensNoIgnored_of_spot _)
  exact ⟨_, _, l, l', hcaptured.live, hheight, hl', hsame.trans hheight, horders⟩

/-- The block does not apply to the books rebuilt either, so the audit fails where an empty book
is added. -/
theorem empty_addition_loses_the_spot_order : ∃ (mapOrder : MapOrder) (self : OrderBookListener)
    (l s reached : OrderBookState) (cache : List BlockPair) (snapshot : Snapshots InnerL4Order),
    Captured self l s cache ∧ s.height ≤ 5 ∧ 5 ≤ l.height ∧
    replay s (pairsUpTo 5 cache) = .ok reached ∧
    validateSnapshotConsistency mapOrder reached.computeSnapshot.snapshot snapshot
      self.ignoreSpot = .ok .emptyBooksAdded ∧
    (reconcileSnapshot mapOrder self (some s) snapshot 5 cache).2 ≠ .ok () := by
  obtain ⟨hvisit⟩ := MapOrder.nonempty
  obtain ⟨⟨l, hreplay⟩, hfair⟩ := spotOpened_BTC
  obtain ⟨hheight, habove, hr⟩ := reached_spotOpened hreplay
  refine ⟨hvisit, _, l, _, _, _, Finmap.singleton ⟨"ETH"⟩ ⟨[], []⟩,
    captured_spotOpened hreplay hfair, le_rfl, by omega, hr.upTo, (validate_without_spot hvisit).2,
    fun hok => ?_⟩
  rw [reconcileSnapshot_of_reached hr] at hok
  dsimp only [OrderBookListener.new] at hok
  rw [(validate_without_spot hvisit).2, habove] at hok
  obtain ⟨-, b, -, hb, -⟩ := (rebuild_follows _ _ _ _ _ _).2 hok 0
  have hfails : (replay (.fromSnapshot (Finmap.singleton ⟨"ETH"⟩ ⟨[], []⟩) 5 0 true true)
      [spotOpened "BTC"]).isOk = false := by decide +kernel
  cases hfails.symm.trans (congrArg Except.isOk hb)

end OrderBookListener
end OrderBookServer
