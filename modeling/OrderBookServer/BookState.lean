import OrderBookServer.Levels
import OrderBookServer.NodeData

/-!
# The state of the books at a height

The books of all coins after a block, the cached views and the coins whose views
are out of date. A block is applied in place, diff by diff, so a block that fails
leaves the diffs before the failure applied: every step returns the state it
leaves beside its outcome.
-/
namespace OrderBookServer
open InnerOrder

abbrev Snapshots (O : Type) := HashMap Coin (Snapshot O)

namespace OrderBooks

variable {O : Type} [InnerOrder O]

def fromSnapshots (snapshot : Snapshots O) (ignoreTriggers : Bool) : OrderBooks O :=
  snapshot.mapValues fun _ book => OrderBook.fromSnapshot book ignoreTriggers

/-- The book of a coin, empty where the coin has none. -/
def book (self : OrderBooks O) (coin : Coin) : OrderBook O := (self.lookup coin).getD .new

def addOrderBefore (self : OrderBooks O) (order : O) (insertBefore : Option Oid) :
    Bool × OrderBooks O :=
  let out := (self.book (coin order)).addOrderBefore order insertBefore
  (out.1, self.insert (coin order) out.2)

def cancelOrder (self : OrderBooks O) (oid : Oid) (coin : Coin) : Bool × OrderBooks O :=
  match self.lookup coin with
  | some book => ((book.cancelOrder oid).1, self.insert coin (book.cancelOrder oid).2)
  | none => (false, self)

def modifySz (self : OrderBooks O) (oid : Oid) (coin : Coin) (sz : ℕ) : Bool × OrderBooks O :=
  match self.lookup coin with
  | some book => ((book.modifySz oid sz).1, self.insert coin (book.modifySz oid sz).2)
  | none => (false, self)

def toSnapshots (self : OrderBooks O) : Snapshots O := self.mapValues fun _ book => book.toSnapshot

end OrderBooks

/-- What the loop over the diffs of a block changes. -/
structure BlockState where
  orderBook : OrderBooks InnerL4Order
  dirtyCoins : Finset Coin
  orderMap : HashMap Oid NodeDataOrderStatus

/-- The order a status and its book diff open: the diff gives the price and size
it rests with, the status all else and the time a trigger enters the book. -/
def openedOrder (status : NodeDataOrderStatus) (diff : NodeDataOrderDiff) (sz : ℕ) :
    Except Fault InnerL4Order := do
  let time := status.time.timestampMillis
  let innerOrder ← parsed (InnerL4Order.tryFrom status.user status.order)
  let px ← parsed diff.price
  let innerOrder := ({ innerOrder with limitPx := px } : InnerL4Order).modifySz sz
  if 0 ≤ time then return innerOrder.convertTrigger time.toNat else throw .panic

namespace BlockState

/-- A New diff takes the opening status of its oid and rests its order. -/
def applyNew (self : BlockState) (diff : NodeDataOrderDiff) (sz : ℕ) (insertBefore : Option Oid) :
    BlockState × Except Fault Unit :=
  match self.orderMap.lookup diff.oid with
  | none => (self, .error (.error (.missingOpeningStatus diff)))
  | some status =>
    let self := { self with orderMap := self.orderMap.erase diff.oid }
    match openedOrder status diff sz with
    | .error fault => (self, .error fault)
    | .ok order =>
      let out := self.orderBook.addOrderBefore order insertBefore
      ({ self with orderBook := out.2 },
        if out.1 then .ok () else .error (.error (.missingInsertBefore diff)))

def applyChange (self : BlockState) (diff : NodeDataOrderDiff)
    (change : Bool × OrderBooks InnerL4Order) : BlockState × Except Fault Unit :=
  ({ self with orderBook := change.2 },
    if change.1 then .ok () else .error (.error (.missingOrder diff)))

/-- One diff. Those of a spot coin are skipped where spot is ignored. -/
def applyDiff (ignoreSpot : Bool) (self : BlockState) (diff : NodeDataOrderDiff) :
    BlockState × Except Fault Unit :=
  if (Coin.mk diff.coin).isSpot && ignoreSpot then (self, .ok ())
  else
    let self := { self with dirtyCoins := insert ⟨diff.coin⟩ self.dirtyCoins }
    match InnerOrderDiff.tryFrom diff.rawBookDiff with
    | .error message => (self, .error (.error (.parse message)))
    | .ok (.new sz insertBefore) => self.applyNew diff sz insertBefore
    | .ok (.update _ newSz) =>
      self.applyChange diff (self.orderBook.modifySz diff.oid ⟨diff.coin⟩ newSz)
    | .ok .remove => self.applyChange diff (self.orderBook.cancelOrder diff.oid ⟨diff.coin⟩)

/-- The loop over the diffs, which the first failure ends. -/
def applyDiffs (ignoreSpot : Bool) : BlockState → List NodeDataOrderDiff →
    BlockState × Except Fault Unit
  | self, [] => (self, .ok ())
  | self, diff :: diffs =>
    match self.applyDiff ignoreSpot diff with
    | (self, .ok ()) => applyDiffs ignoreSpot self diffs
    | (self, .error fault) => (self, .error fault)

end BlockState

/-- The statuses that open an order, by oid; a later one replaces an earlier one. -/
def openingStatuses (statuses : List NodeDataOrderStatus) : HashMap Oid NodeDataOrderStatus :=
  HashMap.collect <| statuses.filterMap fun status =>
    if status.isInsertedIntoBook then some (status.order.oid, status) else none

structure OrderBookState where
  orderBook : OrderBooks InnerL4Order
  height : ℕ
  time : ℕ
  snapped : Bool
  ignoreSpot : Bool
  l2Cache : L2Snapshots
  dirtyCoins : Finset Coin

/-- The books of all coins as lists, with the time and height they hold at. -/
structure TimedSnapshots where
  time : ℕ
  height : ℕ
  snapshot : Snapshots InnerL4Order

namespace OrderBookState

def fromSnapshot (snapshot : Snapshots InnerL4Order) (height time : ℕ)
    (ignoreTriggers ignoreSpot : Bool) : OrderBookState where
  orderBook := OrderBooks.fromSnapshots snapshot ignoreTriggers
  height := height
  time := time
  snapped := false
  ignoreSpot := ignoreSpot
  l2Cache := ∅
  dirtyCoins := (OrderBooks.fromSnapshots snapshot ignoreTriggers).keys

def computeSnapshot (self : OrderBookState) : TimedSnapshots :=
  ⟨self.time, self.height, self.orderBook.toSnapshots⟩

/-- Bring the cached views up to date and return them: time, height, views. -/
def computeL2Snapshot (self : OrderBookState) : (ℕ × ℕ × L2Snapshots) × OrderBookState :=
  let self := { self with
    l2Cache := refreshL2Snapshots self.orderBook self.l2Cache self.dirtyCoins
    dirtyCoins := ∅ }
  ((self.time, self.height, self.l2Cache), self)

/-- The same, once for each height when later calls are to be prevented. -/
def l2Snapshots (self : OrderBookState) (preventFutureSnaps : Bool) :
    Option (ℕ × ℕ × L2Snapshots) × OrderBookState :=
  if self.snapped then (none, self)
  else
    let out := { self with snapped := preventFutureSnaps || self.snapped }.computeL2Snapshot
    (some out.1, out.2)

def computeUniverse (self : OrderBookState) : Finset Coin := self.orderBook.keys

/-- Apply the block of a height: nothing for an old height, an error for one that
is not the next. On an error the diffs before it stay applied. -/
def applyUpdates (self : OrderBookState) (orderStatuses : Batch NodeDataOrderStatus)
    (orderDiffs : Batch NodeDataOrderDiff) : OrderBookState × Except Fault Unit :=
  let height := orderStatuses.blockNumber
  match orderStatuses.blockTimeMillis with
  | none => (self, .error .panic)
  | some time =>
    if orderStatuses.blockNumber ≠ orderDiffs.blockNumber then (self, .error .panic)
    else if height > U64.wrappingAdd self.height 1 then
      (self, .error (.error (.unexpectedBlock (U64.wrappingAdd self.height 1) height)))
    else if height ≤ self.height then (self, .ok ())
    else
      let block : BlockState :=
        ⟨self.orderBook, self.dirtyCoins, openingStatuses orderStatuses.events⟩
      let out := block.applyDiffs self.ignoreSpot orderDiffs.events
      let self := { self with orderBook := out.1.orderBook, dirtyCoins := out.1.dirtyCoins }
      match out.2 with
      | .error fault => (self, .error fault)
      | .ok () =>
        ({ self with
          height := U64.wrappingAdd self.height 1
          time := time
          snapped := false }, .ok ())

end OrderBookState

/-! ### What a call can do -/

namespace OrderBooks

variable {O : Type} [InnerOrder O]

/-- Each of the three calls writes one book back. -/
theorem lookup_addOrderBefore (books : OrderBooks O) (order : O) (anchor : Option Oid) (c : Coin) :
    (books.addOrderBefore order anchor).2.lookup c =
      if c = coin order then some ((books.book (coin order)).addOrderBefore order anchor).2
      else books.lookup c := HashMap.lookup_insert_ite _ _ _ _

omit [InnerOrder O] in
theorem lookup_cancelOrder (books : OrderBooks O) (oid : Oid) (coin c : Coin) :
    (books.cancelOrder oid coin).2.lookup c =
      if c = coin then (books.lookup coin).map fun book => (book.cancelOrder oid).2
      else books.lookup c := by
  unfold cancelOrder
  cases h : books.lookup coin with
  | none =>
    by_cases hc : c = coin
    · subst hc; simp [h]
    · simp [hc]
  | some book => exact HashMap.lookup_insert_ite _ _ _ _

theorem lookup_modifySz (books : OrderBooks O) (oid : Oid) (coin c : Coin) (sz : ℕ) :
    (books.modifySz oid coin sz).2.lookup c =
      if c = coin then (books.lookup coin).map fun book => (book.modifySz oid sz).2
      else books.lookup c := by
  unfold modifySz
  cases h : books.lookup coin with
  | none =>
    by_cases hc : c = coin
    · subst hc; simp [h]
    · simp [hc]
  | some book => exact HashMap.lookup_insert_ite _ _ _ _

end OrderBooks

theorem openedOrder_eq_ok {status : NodeDataOrderStatus} {diff : NodeDataOrderDiff} {sz : ℕ}
    {order : InnerL4Order} (h : openedOrder status diff sz = .ok order) :
    order.coin = ⟨status.order.coin⟩ ∧ order.oid = status.order.oid ∧
      order.side = status.order.side ∧ order.sz = sz := by
  unfold openedOrder at h
  cases ho : InnerL4Order.tryFrom status.user status.order with
  | error e => rw [ho] at h; cases h
  | ok o =>
    cases hp : diff.price with
    | error e => rw [ho, hp] at h; cases h
    | ok px =>
      obtain ⟨hcoin, hoid, hside⟩ := InnerL4Order.tryFrom_eq_ok ho
      rw [ho, hp] at h
      by_cases ht : 0 ≤ status.time.timestampMillis
      · simp only [parsed, bind, Except.bind, if_pos ht, pure, Except.pure, Except.ok.injEq] at h
        subst h
        simp [InnerL4Order.modifySz, hcoin, hoid, hside]
      · simp only [parsed, bind, Except.bind, if_neg ht] at h
        cases h

namespace BlockState

/-- A diff is skipped where spot is ignored and its coin is a spot coin. -/
def Skipped (ignoreSpot : Bool) (diff : NodeDataOrderDiff) : Prop :=
  ((Coin.mk diff.coin).isSpot && ignoreSpot) = true

instance (ignoreSpot : Bool) (diff : NodeDataOrderDiff) : Decidable (Skipped ignoreSpot diff) :=
  inferInstanceAs (Decidable (_ = true))

/-- What a diff that is applied does. -/
inductive Applied (ignoreSpot : Bool) (self : BlockState) (diff : NodeDataOrderDiff) :
    BlockState → Prop
  | skipped (h : Skipped ignoreSpot diff) : Applied ignoreSpot self diff self
  | opened {sz : ℕ} {anchor : Option Oid} {status : NodeDataOrderStatus} {order : InnerL4Order}
      (kept : ¬ Skipped ignoreSpot diff)
      (kind : InnerOrderDiff.tryFrom diff.rawBookDiff = .ok (.new sz anchor))
      (hstatus : self.orderMap.lookup diff.oid = some status)
      (horder : openedOrder status diff sz = .ok order)
      (done : (self.orderBook.addOrderBefore order anchor).1 = true) :
      Applied ignoreSpot self diff
        ⟨(self.orderBook.addOrderBefore order anchor).2, insert ⟨diff.coin⟩ self.dirtyCoins,
          self.orderMap.erase diff.oid⟩
  | resized {origSz newSz : ℕ} (kept : ¬ Skipped ignoreSpot diff)
      (kind : InnerOrderDiff.tryFrom diff.rawBookDiff = .ok (.update origSz newSz))
      (done : (self.orderBook.modifySz diff.oid ⟨diff.coin⟩ newSz).1 = true) :
      Applied ignoreSpot self diff
        ⟨(self.orderBook.modifySz diff.oid ⟨diff.coin⟩ newSz).2,
          insert ⟨diff.coin⟩ self.dirtyCoins, self.orderMap⟩
  | removed (kept : ¬ Skipped ignoreSpot diff)
      (kind : InnerOrderDiff.tryFrom diff.rawBookDiff = .ok .remove)
      (done : (self.orderBook.cancelOrder diff.oid ⟨diff.coin⟩).1 = true) :
      Applied ignoreSpot self diff
        ⟨(self.orderBook.cancelOrder diff.oid ⟨diff.coin⟩).2,
          insert ⟨diff.coin⟩ self.dirtyCoins, self.orderMap⟩

theorem applyDiff_of_skipped {ignoreSpot : Bool} {self : BlockState} {diff : NodeDataOrderDiff}
    (h : Skipped ignoreSpot diff) : self.applyDiff ignoreSpot diff = (self, .ok ()) := if_pos h

theorem applyDiff_of_kept {ignoreSpot : Bool} {self : BlockState} {diff : NodeDataOrderDiff}
    (h : ¬ Skipped ignoreSpot diff) : self.applyDiff ignoreSpot diff =
      let self := { self with dirtyCoins := insert ⟨diff.coin⟩ self.dirtyCoins }
      match InnerOrderDiff.tryFrom diff.rawBookDiff with
      | .error message => (self, .error (.error (.parse message)))
      | .ok (.new sz insertBefore) => self.applyNew diff sz insertBefore
      | .ok (.update _ newSz) =>
        self.applyChange diff (self.orderBook.modifySz diff.oid ⟨diff.coin⟩ newSz)
      | .ok .remove => self.applyChange diff (self.orderBook.cancelOrder diff.oid ⟨diff.coin⟩) :=
  if_neg h

/-- A diff succeeds exactly when it is applied. -/
theorem applyDiff_eq_ok_iff {ignoreSpot : Bool} {self self' : BlockState} {diff : NodeDataOrderDiff} :
    self.applyDiff ignoreSpot diff = (self', .ok ()) ↔ Applied ignoreSpot self diff self' := by
  constructor
  · intro h
    by_cases hs : Skipped ignoreSpot diff
    · rw [applyDiff_of_skipped hs] at h
      cases h
      exact .skipped hs
    rw [applyDiff_of_kept hs] at h
    cases hk : InnerOrderDiff.tryFrom diff.rawBookDiff with
    | error message => simp [hk] at h
    | ok kind =>
      simp only [hk] at h
      cases kind with
      | new sz anchor =>
        simp only [applyNew] at h
        cases hstatus : self.orderMap.lookup diff.oid with
        | none => simp [hstatus] at h
        | some status =>
          cases horder : openedOrder status diff sz with
          | error fault => simp [hstatus, horder] at h
          | ok order =>
            simp only [hstatus, horder, Prod.mk.injEq] at h
            obtain ⟨rfl, hdone⟩ := h
            refine .opened hs hk hstatus horder ?_
            by_contra hd
            simp [hd] at hdone
      | update origSz newSz =>
        simp only [applyChange, Prod.mk.injEq] at h
        obtain ⟨rfl, hdone⟩ := h
        refine .resized hs hk ?_
        by_contra hd
        simp [hd] at hdone
      | remove =>
        simp only [applyChange, Prod.mk.injEq] at h
        obtain ⟨rfl, hdone⟩ := h
        refine .removed hs hk ?_
        by_contra hd
        simp [hd] at hdone
  · rintro (hs | ⟨hs, hk, hstatus, horder, hdone⟩ | ⟨hs, hk, hdone⟩ | ⟨hs, hk, hdone⟩)
    · exact applyDiff_of_skipped hs
    · rw [applyDiff_of_kept hs, hk]
      simp only [applyNew, hstatus, horder, hdone, if_true]
    · rw [applyDiff_of_kept hs, hk]
      simp only [applyChange, hdone, if_true]
    · rw [applyDiff_of_kept hs, hk]
      simp only [applyChange, hdone, if_true]

/-- Diffs applied one after the other. -/
inductive AppliedAll (ignoreSpot : Bool) : BlockState → List NodeDataOrderDiff → BlockState → Prop
  | nil (self : BlockState) : AppliedAll ignoreSpot self [] self
  | cons {self next last : BlockState} {diff : NodeDataOrderDiff} {diffs : List NodeDataOrderDiff}
      (first : Applied ignoreSpot self diff next) (rest : AppliedAll ignoreSpot next diffs last) :
      AppliedAll ignoreSpot self (diff :: diffs) last

theorem applyDiffs_eq_ok_iff {ignoreSpot : Bool} {self self' : BlockState}
    {diffs : List NodeDataOrderDiff} :
    self.applyDiffs ignoreSpot diffs = (self', .ok ()) ↔ AppliedAll ignoreSpot self diffs self' := by
  induction diffs generalizing self with
  | nil =>
    constructor
    · intro h; cases h; exact .nil _
    · rintro ⟨⟩; rfl
  | cons diff diffs ih =>
    constructor
    · intro h
      rw [applyDiffs] at h
      rcases hd : self.applyDiff ignoreSpot diff with ⟨next, fault | ⟨⟩⟩
      · simp [hd] at h
      · rw [hd] at h
        exact .cons (applyDiff_eq_ok_iff.mp hd) (ih.mp h)
    · rintro (_ | ⟨first, rest⟩)
      rw [applyDiffs, applyDiff_eq_ok_iff.mpr first]
      exact ih.mpr rest

end BlockState

namespace OrderBookState

/-- What a call to apply a block that succeeds does: nothing for an old height, or
all the diffs of the next height. -/
inductive Advanced (self : OrderBookState) (statuses : Batch NodeDataOrderStatus)
    (diffs : Batch NodeDataOrderDiff) : OrderBookState → Prop
  | old {time : ℕ} (htime : statuses.blockTimeMillis = some time)
      (hsame : statuses.blockNumber = diffs.blockNumber)
      (hnext : ¬ statuses.blockNumber > U64.wrappingAdd self.height 1)
      (hold : statuses.blockNumber ≤ self.height) : Advanced self statuses diffs self
  | next {time : ℕ} {block : BlockState} (htime : statuses.blockTimeMillis = some time)
      (hsame : statuses.blockNumber = diffs.blockNumber)
      (hwrap : U64.wrappingAdd self.height 1 = statuses.blockNumber)
      (hheight : statuses.blockNumber = self.height + 1)
      (happlied : BlockState.AppliedAll self.ignoreSpot
        ⟨self.orderBook, self.dirtyCoins, openingStatuses statuses.events⟩ diffs.events block) :
      Advanced self statuses diffs
        { self with
          orderBook := block.orderBook
          dirtyCoins := block.dirtyCoins
          height := statuses.blockNumber
          time := time
          snapped := false }

theorem next_height {h height : ℕ} (hle : ¬ height > U64.wrappingAdd h 1) (hgt : ¬ height ≤ h) :
    height = h + 1 ∧ U64.wrappingAdd h 1 = height := by
  have hmod : U64.wrappingAdd h 1 ≤ h + 1 := Nat.mod_le _ _
  omega

/-- A block succeeds exactly when it advances the state. -/
theorem applyUpdates_eq_ok_iff {self self' : OrderBookState} {statuses : Batch NodeDataOrderStatus}
    {diffs : Batch NodeDataOrderDiff} :
    self.applyUpdates statuses diffs = (self', .ok ()) ↔ Advanced self statuses diffs self' := by
  constructor
  · intro h
    unfold applyUpdates at h
    cases htime : statuses.blockTimeMillis with
    | none => simp [htime] at h
    | some time =>
      simp only [htime] at h
      by_cases hsame : statuses.blockNumber = diffs.blockNumber
      · rw [if_neg (not_not.mpr hsame)] at h
        by_cases hle : statuses.blockNumber > U64.wrappingAdd self.height 1
        · simp [hle] at h
        · rw [if_neg hle] at h
          by_cases hold : statuses.blockNumber ≤ self.height
          · rw [if_pos hold] at h
            cases h
            exact .old htime hsame hle hold
          · rw [if_neg hold] at h
            obtain ⟨hheight, hwrap⟩ := next_height hle hold
            generalize hout : BlockState.applyDiffs self.ignoreSpot
              ⟨self.orderBook, self.dirtyCoins, openingStatuses statuses.events⟩ diffs.events = out at h
            obtain ⟨block, fault | ⟨⟩⟩ := out
            · simp at h
            · simp only [Prod.mk.injEq, and_true, hwrap] at h
              subst h
              exact .next htime hsame hwrap hheight (BlockState.applyDiffs_eq_ok_iff.mp hout)
      · simp [hsame] at h
  · rintro (⟨htime, hsame, hnext, hold⟩ | ⟨htime, hsame, hwrap, hheight, happlied⟩)
    · rw [applyUpdates, htime]
      simp only
      rw [if_neg (not_not.mpr hsame), if_neg hnext, if_pos hold]
    · have hout := BlockState.applyDiffs_eq_ok_iff.mpr happlied
      rw [applyUpdates, htime]
      simp only
      rw [if_neg (not_not.mpr hsame), hwrap, if_neg (lt_irrefl _), if_neg (by omega), hout]

end OrderBookState
end OrderBookServer
