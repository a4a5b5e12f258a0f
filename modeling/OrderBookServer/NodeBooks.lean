import OrderBookServer.Replay
import OrderBookServer.RoundTrip

/-!
# Books as a node feeds them

A node opens no order under an oid that rests, and reports no size of 0. The books it
feeds hold sized orders under distinct oids, so each is read back from its snapshot as it
was.
-/
namespace OrderBookServer
open InnerOrder PriceTime

section Books

variable {O : Type} [InnerOrder O]

namespace PriceTime

/-- Makers with size that stay keep some of it. -/
theorem fillMakers_pos {t : O} {ms : List O} (h : ∀ m ∈ ms, 0 < sz m) :
    ∀ m ∈ (fillMakers t ms).2.2, 0 < sz m := by
  induction ms generalizing t with
  | nil => exact h
  | cons m ms ih =>
    obtain ⟨hm, hms⟩ := List.forall_mem_cons.mp h
    unfold fillMakers
    split_ifs with hc hz ht
    · exact hms
    · exact ih hms
    · exact List.forall_mem_cons.mpr ⟨Nat.pos_of_ne_zero hz, hms⟩
    · exact h

end PriceTime

namespace OrderBook

/-- An order with size, under an oid that does not rest. -/
def Fresh (b : OrderBook O) (o : O) : Prop :=
  0 < sz o ∧ ∀ x, ∀ o' ∈ b.orders x, oid o' ≠ oid o

/-- A book that is fed fresh orders, and sizes other than 0. -/
inductive Fed : OrderBook O → Prop
  | new : Fed new
  | addOrderBefore {b : OrderBook O} (h : Fed b) {o : O} (anchor : Option Oid)
      (fresh : b.Fresh o) : Fed (b.addOrderBefore o anchor).2
  | cancelOrder {b : OrderBook O} (h : Fed b) (k : Oid) : Fed (b.cancelOrder k).2
  | modifySz {b : OrderBook O} (h : Fed b) (k : Oid) {s : ℕ} (pos : 0 < s) :
      Fed (b.modifySz k s).2

variable {b : OrderBook O}

theorem Fed.repInv (h : Fed b) : RepInv b := by
  induction h with
  | new => exact repInv_new
  | addOrderBefore _ anchor fresh ih => exact ih.addOrderBefore _ anchor fresh.2
  | cancelOrder _ k ih => exact (ih.cancelOrder k).1
  | modifySz _ k _ ih => exact (ih.modifySz k _).1

theorem Fed.sound (h : Fed b) : Sound b := by
  induction h with
  | new => exact .new
  | addOrderBefore _ anchor _ ih => exact ih.addOrderBefore _ anchor
  | cancelOrder _ k ih => exact ih.cancelOrder k
  | modifySz _ k _ ih => exact ih.modifySz k _

/-- What rests after an order was added rested before, or is what is left of the order. -/
theorem mem_orders_addOrderBefore (h : BookInv b) {o m : O} {anchor : Option Oid} {x : Side}
    (hm : m ∈ (b.addOrderBefore o anchor).2.orders x) :
    m ∈ (fillMakers o (b.orders (side o).opposite)).2.2 ∨ m ∈ b.orders (side o) ∨
      0 < sz m ∧ oid m = oid o := by
  obtain ⟨hopp, hown⟩ := orders_addOrderBefore h o anchor
  by_cases hx : x = side o
  · rw [hx, hown] at hm
    split_ifs at hm with hpos
    · obtain rfl | hm := mem_rest hm
      · exact .inr (.inr ⟨hpos, fillMakers_taker_oid o _⟩)
      · exact .inr (.inl hm)
    · exact .inr (.inl hm)
  · rw [Side.ne_iff_eq_opposite.mp hx, hopp] at hm
    exact .inl hm

/-- Every order of a book that is fed has size. -/
theorem Fed.pos (h : Fed b) : ∀ x, ∀ o ∈ b.orders x, 0 < sz o := by
  induction h with
  | new =>
    intro x o ho
    cases x <;> cases ho
  | @addOrderBefore b hb o anchor fresh ih =>
    intro x m hm
    obtain hm | hm | hm := mem_orders_addOrderBefore hb.sound.filed hm
    · exact fillMakers_pos (ih _) m hm
    · exact ih _ m hm
    · exact hm.1
  | @cancelOrder b hb k ih =>
    intro x m hm
    rw [(hb.repInv.cancelOrder k).2.2 x] at hm
    exact ih x m (List.mem_of_mem_filter hm)
  | @modifySz b hb k s pos ih =>
    intro x m hm
    rw [(hb.repInv.modifySz k s).2.2 x, List.mem_map] at hm
    obtain ⟨m', hm', rfl⟩ := hm
    split_ifs
    · rw [sz_modifySz]
      exact pos
    · exact ih x m' hm'

/-- A book that is fed is at rest. -/
theorem Fed.atRest (h : Fed b) : AtRest b.toSnapshot := h.sound.atRest h.pos h.repInv.once

/-- Orders that are each fresh when it is their turn. -/
def Opens : OrderBook O → List O → Prop
  | _, [] => True
  | b, o :: os => b.Fresh o ∧ Opens (b.addOrder o) os

theorem Fed.addOrders (h : Fed b) {os : List O} (hos : b.Opens os) : Fed (os.foldl addOrder b) := by
  induction os generalizing b with
  | nil => exact h
  | cons o os ih => exact ih (h.addOrderBefore none hos.1) hos.2

/-- Orders with sizes under distinct oids, none of which rests, are fresh in their turn. -/
theorem opens_of_distinct (h : BookInv b) {os : List O} (hpos : ∀ o ∈ os, 0 < sz o)
    (hoids : (os.map oid).Nodup) (hnew : ∀ x, ∀ m ∈ b.orders x, oid m ∉ os.map oid) :
    b.Opens os := by
  induction os generalizing b with
  | nil => trivial
  | cons o os ih =>
    rw [List.map_cons, List.nodup_cons] at hoids
    obtain ⟨ho, hpos⟩ := List.forall_mem_cons.mp hpos
    have hfresh : ∀ x, ∀ m ∈ b.orders x, oid m ≠ oid o ∧ oid m ∉ os.map oid := by
      intro x m hm
      have := hnew x m hm
      rwa [List.map_cons, List.mem_cons, not_or] at this
    refine ⟨⟨ho, fun x m hm => (hfresh x m hm).1⟩, ?_⟩
    refine ih (addOrderBefore_spec h o none).2 hpos hoids.2 fun x m hm => ?_
    obtain hm | hm | hm := mem_orders_addOrderBefore h hm
    · have hident : ident m ∈ (b.orders (side o).opposite).map ident := by
        rw [← fillMakers_ident o]
        exact List.mem_append_right _ (List.mem_map_of_mem hm)
      obtain ⟨m', hm', he⟩ := List.mem_map.mp hident
      rw [← show oid m' = oid m from congrArg Prod.fst he]
      exact (hfresh _ m' hm').2
    · exact (hfresh _ m hm).2
    · rw [hm.2]
      exact hoids.1

end OrderBook

/-- The orders of a snapshot, trigger orders aside, are fresh in their turn. -/
def Snapshot.Opens (s : Snapshot O) : Prop :=
  OrderBook.new.Opens (s.removeTriggers.bids ++ s.removeTriggers.asks)

namespace OrderBook

theorem fed_fromSnapshot {s : Snapshot O} (h : s.Opens) : Fed (fromSnapshot s true) := by
  have hread : fromSnapshot s true =
      (s.removeTriggers.bids ++ s.removeTriggers.asks).foldl addOrder new := List.foldl_append.symm
  rw [hread]
  exact Fed.new.addOrders h

theorem AtRest.removeTriggers {s : Snapshot O} (h : AtRest s) : s.removeTriggers = s := by
  have hnone : Snapshot.removeTriggers ⟨s.bids ++ [], s.asks ++ []⟩ = s :=
    @Snapshot.removeTriggers_append O _ s ⟨[], []⟩ h.oids (fun _ => Iff.rfl) (by simp)
  rwa [List.append_nil, List.append_nil] at hnone

theorem AtRest.opens {s : Snapshot O} (h : AtRest s) : s.Opens := by
  have hempty (x : Side) : (new : OrderBook O).orders x = [] := by cases x <;> rfl
  rw [Snapshot.Opens, h.removeTriggers]
  refine opens_of_distinct BookInv.new (fun o ho => ?_) h.oids (by simp [hempty])
  obtain ho | ho := List.mem_append.mp ho
  · exact h.pos .bid o ho
  · exact h.pos .ask o ho

/-- Sides at rest are read back as they are, into a book that is fed. -/
theorem AtRest.fromSnapshot {s : Snapshot O} (h : AtRest s) :
    Fed (fromSnapshot s true) ∧ (OrderBook.fromSnapshot s true).toSnapshot = s := by
  have hread : OrderBook.fromSnapshot s true = OrderBook.fromSnapshot s false :=
    congrArg (fun t => t.asks.foldl addOrder (t.bids.foldl addOrder new)) h.removeTriggers
  exact ⟨fed_fromSnapshot h.opens, hread ▸ (fromSnapshot_of_atRest h).2⟩

end OrderBook
end Books

/-! ### The books of all coins -/

namespace OrderBooks

section Book

variable {O : Type} [InnerOrder O]

theorem book_addOrderBefore (books : OrderBooks O) (order : O) (anchor : Option Oid) (c : Coin) :
    (books.addOrderBefore order anchor).2.book c =
      if c = coin order then ((books.book c).addOrderBefore order anchor).2 else books.book c := by
  unfold book
  rw [lookup_addOrderBefore]
  split_ifs with hc
  · rw [hc]
    rfl
  · rfl

omit [InnerOrder O] in
theorem cancelOrder_eq (books : OrderBooks O) (oid : Oid) (coin : Coin) :
    (books.cancelOrder oid coin).1 = ((books.book coin).cancelOrder oid).1 ∧
      ∀ c, (books.cancelOrder oid coin).2.book c =
        if c = coin then ((books.book c).cancelOrder oid).2 else books.book c := by
  have hnew : (OrderBook.new : OrderBook O).cancelOrder oid = (false, .new) :=
    OrderBook.cancelOrder_of_lookup_none (Finmap.lookup_empty oid)
  refine ⟨?_, fun c => ?_⟩
  · unfold cancelOrder book
    cases books.lookup coin with
    | none => rw [Option.getD_none, hnew]
    | some b => rfl
  · unfold book
    rw [lookup_cancelOrder]
    split_ifs with hc
    · subst hc
      cases books.lookup c with
      | none => rw [Option.map_none, Option.getD_none, hnew]
      | some b => rfl
    · rfl

theorem modifySz_eq (books : OrderBooks O) (oid : Oid) (coin : Coin) (sz : ℕ) :
    (books.modifySz oid coin sz).1 = ((books.book coin).modifySz oid sz).1 ∧
      ∀ c, (books.modifySz oid coin sz).2.book c =
        if c = coin then ((books.book c).modifySz oid sz).2 else books.book c := by
  have hnew : (OrderBook.new : OrderBook O).modifySz oid sz = (false, .new) :=
    OrderBook.modifySz_of_lookup_none sz (Finmap.lookup_empty oid)
  refine ⟨?_, fun c => ?_⟩
  · unfold modifySz book
    cases books.lookup coin with
    | none => rw [Option.getD_none, hnew]
    | some b => rfl
  · unfold book
    rw [lookup_modifySz]
    split_ifs with hc
    · subst hc
      cases books.lookup c with
      | none => rw [Option.map_none, Option.getD_none, hnew]
      | some b => rfl
    · rfl

/-- The book of a coin read from snapshots. -/
theorem book_fromSnapshots (snapshot : Snapshots O) (ignoreTriggers : Bool) (coin : Coin) :
    (fromSnapshots snapshot ignoreTriggers).book coin =
      .fromSnapshot ((snapshot.lookup coin).getD ⟨[], []⟩) ignoreTriggers := by
  unfold book fromSnapshots
  rw [HashMap.lookup_mapValues]
  cases snapshot.lookup coin with
  | none => cases ignoreTriggers <;> rfl
  | some s => rfl

end Book

/-- Every book is fed. -/
def Fed (books : OrderBooks InnerL4Order) : Prop := ∀ coin, (books.book coin).Fed

end OrderBooks

/-! ### What a node reports -/

namespace BlockState

/-- No size is 0, and no oid is opened that rests in the book it goes to. -/
def FairKind (self : BlockState) (diff : NodeDataOrderDiff) : InnerOrderDiff → Prop
  | .new sz _ => 0 < sz ∧ ∀ status ∈ self.orderMap.lookup diff.oid,
      status.order.oid ∉ (self.orderBook.book ⟨status.order.coin⟩).resting.map Prod.fst
  | .update _ newSz => 0 < newSz
  | .remove => True

instance (self : BlockState) (diff : NodeDataOrderDiff) :
    (kind : InnerOrderDiff) → Decidable (self.FairKind diff kind)
  | .new _ _ => inferInstanceAs (Decidable (_ ∧ _))
  | .update _ _ => inferInstanceAs (Decidable (_ < _))
  | .remove => .isTrue trivial

/-- What a node reports in a diff that is not skipped. -/
def Fair (ignoreSpot : Bool) (self : BlockState) (diff : NodeDataOrderDiff) : Prop :=
  Skipped ignoreSpot diff ∨
    ∀ kind ∈ (InnerOrderDiff.tryFrom diff.rawBookDiff).toOption, self.FairKind diff kind

instance (ignoreSpot : Bool) (self : BlockState) (diff : NodeDataOrderDiff) :
    Decidable (Fair ignoreSpot self diff) := inferInstanceAs (Decidable (_ ∨ _))

def FairAll (ignoreSpot : Bool) : BlockState → List NodeDataOrderDiff → Prop
  | _, [] => True
  | self, diff :: diffs =>
    Fair ignoreSpot self diff ∧ FairAll ignoreSpot (self.applyDiff ignoreSpot diff).1 diffs

theorem Fair.kind {ignoreSpot : Bool} {self : BlockState} {diff : NodeDataOrderDiff}
    (h : Fair ignoreSpot self diff) (kept : ¬ Skipped ignoreSpot diff) {kind : InnerOrderDiff}
    (hkind : InnerOrderDiff.tryFrom diff.rawBookDiff = .ok kind) : self.FairKind diff kind :=
  h.resolve_left kept kind (by rw [hkind]; rfl)

/-- The order that a fair diff opens is fresh. -/
theorem FairKind.fresh {self : BlockState} {diff : NodeDataOrderDiff} {sz : ℕ}
    {anchor : Option Oid} (h : self.FairKind diff (.new sz anchor)) {status : NodeDataOrderStatus}
    (hstatus : self.orderMap.lookup diff.oid = some status) {order : InnerL4Order}
    (horder : openedOrder status diff sz = .ok order) :
    (self.orderBook.book (coin order)).Fresh order := by
  obtain ⟨hcoin, hoid, -, hsz⟩ := openedOrder_eq_ok horder
  obtain ⟨hpos, hrests⟩ := h
  have hnot := hrests status hstatus
  rw [OrderBook.fst_mem_resting, ← hoid, ← hcoin] at hnot
  refine ⟨?_, fun x o ho he => hnot ⟨x, o, ho, he⟩⟩
  show 0 < order.sz
  rw [hsz]
  exact hpos

/-- A fair diff feeds the books. -/
theorem Applied.fed {ignoreSpot : Bool} {self after : BlockState} {diff : NodeDataOrderDiff}
    (ha : Applied ignoreSpot self diff after) (hfair : Fair ignoreSpot self diff)
    (h : self.orderBook.Fed) : after.orderBook.Fed := by
  intro c
  cases ha with
  | skipped hs => exact h c
  | opened kept kind hstatus horder done =>
    rw [OrderBooks.book_addOrderBefore]
    split_ifs with hc
    · subst hc
      exact (h _).addOrderBefore _ ((hfair.kind kept kind).fresh hstatus horder)
    · exact h c
  | resized kept kind done =>
    rw [(OrderBooks.modifySz_eq _ _ _ _).2]
    split_ifs
    · exact (h c).modifySz _ (hfair.kind kept kind)
    · exact h c
  | removed kept kind done =>
    rw [(OrderBooks.cancelOrder_eq _ _ _).2]
    split_ifs
    · exact (h c).cancelOrder _
    · exact h c

theorem AppliedAll.fed {ignoreSpot : Bool} {self after : BlockState}
    {diffs : List NodeDataOrderDiff} (ha : AppliedAll ignoreSpot self diffs after)
    (hfair : FairAll ignoreSpot self diffs) (h : self.orderBook.Fed) : after.orderBook.Fed := by
  induction ha with
  | nil => exact h
  | cons first _ ih =>
    obtain ⟨hone, hrest⟩ := hfair
    rw [applyDiff_eq_ok_iff.mpr first] at hrest
    exact ih hrest (first.fed hone h)

end BlockState

namespace OrderBookState

/-- What a node reports in a block. -/
def Fair (self : OrderBookState) (pair : BlockPair) : Prop :=
  BlockState.FairAll self.ignoreSpot
    ⟨self.orderBook, self.dirtyCoins, openingStatuses pair.1.events⟩ pair.2.events

/-- What a node reports in the blocks that follow a state. -/
def FairAll : OrderBookState → List BlockPair → Prop
  | _, [] => True
  | self, pair :: pairs => self.Fair pair ∧ FairAll (self.applyUpdates pair.1 pair.2).1 pairs

/-- A state that is fed by a node: it began with a snapshot, and blocks followed. -/
inductive Fed (ignoreSpot : Bool) : OrderBookState → Prop
  | fromSnapshot {snapshot : Snapshots InnerL4Order} (height time : ℕ)
      (opens : ∀ coin book, snapshot.lookup coin = some book → book.Opens) :
      Fed ignoreSpot (.fromSnapshot snapshot height time true ignoreSpot)
  | applyUpdates {s s' : OrderBookState} {pair : BlockPair} (h : Fed ignoreSpot s)
      (fair : s.Fair pair) (happlied : s.applyUpdates pair.1 pair.2 = (s', .ok ())) :
      Fed ignoreSpot s'
  /-- The views of the books are brought up to date. -/
  | views {s r : OrderBookState} (h : Fed ignoreSpot s) (same : Agree r s) : Fed ignoreSpot r

variable {ignoreSpot : Bool} {s r : OrderBookState}

theorem Fed.ignoreSpot_eq (h : Fed ignoreSpot s) : s.ignoreSpot = ignoreSpot := by
  induction h with
  | fromSnapshot => rfl
  | applyUpdates _ _ happlied ih =>
    obtain ⟨rfl, -⟩ | ⟨-, -, hspot⟩ := OrderBookListener.height_le_of_applyUpdates happlied
    · exact ih
    · exact hspot.trans ih
  | views _ same ih => exact same.ignoreSpot.trans ih

theorem Fed.books (h : Fed ignoreSpot s) : s.orderBook.Fed := by
  induction h with
  | @fromSnapshot snapshot height time opens =>
    intro coin
    show ((OrderBooks.fromSnapshots snapshot true).book coin).Fed
    rw [OrderBooks.book_fromSnapshots]
    cases hbook : snapshot.lookup coin with
    | none => exact .new
    | some book => exact OrderBook.fed_fromSnapshot (opens coin book hbook)
  | applyUpdates _ fair happlied ih =>
    cases applyUpdates_eq_ok_iff.mp happlied with
    | old => exact ih
    | next _ _ _ _ hall => exact hall.fed fair ih
  | views _ same ih =>
    rw [same.orderBook]
    exact ih

theorem Fed.replay {pairs : List BlockPair} (h : Fed ignoreSpot s) (hfair : s.FairAll pairs)
    (hreplay : OrderBookListener.replay s pairs = .ok r) : Fed ignoreSpot r := by
  induction pairs generalizing s with
  | nil =>
    cases hreplay
    exact h
  | cons pair pairs ih =>
    obtain ⟨next, hnext, hrest⟩ := OrderBookListener.replay_cons_ok hreplay
    obtain ⟨hone, hfair⟩ := hfair
    rw [hnext] at hfair
    exact ih (h.applyUpdates hone hnext) hfair hrest

end OrderBookState
end OrderBookServer
