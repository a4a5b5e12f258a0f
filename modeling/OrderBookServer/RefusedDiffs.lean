import OrderBookServer.Panics
import OrderBookServer.Results

/-!
# Which diffs a block refuses

A block fails with an error exactly where it comes to a diff that is refused. What a diff
is refused by is looked up in the books that it bears on, so the first diff of a block to
bear on its books is refused by the books that the block finds. And nothing comes to rest
under an oid but what takes the opening status of the oid.
-/
namespace OrderBookServer
open InnerOrder PriceTime

namespace OrderBook

variable {O : Type} [InnerOrder O]

/-- An order with the oid rests, on either side. -/
def Rests (b : OrderBook O) (k : Oid) : Prop := k ∈ b.resting.map Prod.fst

theorem rests_of_mem {b : OrderBook O} {k : Oid} {v : Side × ℕ} (h : (k, v) ∈ b.resting) :
    b.Rests k := List.mem_map_of_mem h

instance (b : OrderBook O) (k : Oid) : Decidable (b.Rests k) :=
  inferInstanceAs (Decidable (_ ∈ _))

/-- The book when the order has been matched, and nothing of it rests yet. -/
def matched (b : OrderBook O) (o : O) : OrderBook O :=
  b.setLevels (side o).opposite (matchOrder (b.levels (side o).opposite) o).2.2

/-- The oid rests in one place at most. -/
def OnePlace (b : OrderBook O) (k : Oid) : Prop :=
  ∀ v v', (k, v) ∈ b.resting → (k, v') ∈ b.resting → v = v'

/-- The index finds an order that rests. -/
def Listed (b : OrderBook O) (k : Oid) : Prop :=
  ∃ x p, b.oidToSidePx.lookup k = some (x, p) ∧ b.RestsAt k x p

theorem cancelOrder_ok_iff {b : OrderBook O} (h : BookInv b) (k : Oid) :
    (b.cancelOrder k).1 = true ↔ b.Listed k := by
  cases hl : b.oidToSidePx.lookup k with
  | none =>
    rw [cancelOrder_of_lookup_none hl]
    simp [Listed, hl]
  | some v =>
    obtain ⟨x, p⟩ := v
    rw [(cancelOrder_of_lookup h hl).1, mem_atPrice_iff h, ← restsAt_iff h]
    simp [Listed, hl]

/-- Something is left of the order and may not rest. -/
def Refuses (b : OrderBook O) (o : O) (anchor : Option Oid) : Prop :=
  ((b.crossedBy o).map sz).sum < sz o ∧ ¬ b.Accepts o anchor

instance (b : OrderBook O) (o : O) : (anchor : Option Oid) → Decidable (b.Accepts o anchor)
  | none => isTrue trivial
  | some _ => inferInstanceAs (Decidable (_ ∧ _))

instance (b : OrderBook O) (o : O) (anchor : Option Oid) : Decidable (b.Refuses o anchor) :=
  inferInstanceAs (Decidable (_ ∧ _))

/-- An order with size is refused in front of an anchor at the place where its oid rests. -/
theorem refuses_of_rests {b : OrderBook O} (h : Sound b) {o : O} (a : Oid) (hpos : 0 < sz o)
    (hrests : ident o ∈ b.resting) : b.Refuses o (some a) := by
  obtain ⟨m, hm, hoid, hpx⟩ := (mem_resting h.filed).mp hrests
  have hcross : b.crossedBy o = [] := by
    rw [crossedBy, List.filter_eq_nil_iff]
    intro maker hmaker
    rw [← hpx]
    simpa using (uncrossed_iff (side o)).mp h.uncrossed m hm maker hmaker
  refine ⟨by simpa [hcross] using hpos, fun haccepts => haccepts.1 ?_⟩
  rw [mem_atPrice_iff h.filed]
  exact hrests

/-! ### What a call leaves resting -/

theorem mem_resting_iff {b : OrderBook O} {e : Oid × Side × ℕ} :
    e ∈ b.resting ↔ ∃ x, ∃ m ∈ b.orders x, ident m = e := by
  simp only [resting, List.mem_map, List.mem_append]
  constructor
  · rintro ⟨m, hm | hm, rfl⟩
    · exact ⟨.bid, m, hm, rfl⟩
    · exact ⟨.ask, m, hm, rfl⟩
  · rintro ⟨x, m, hm, rfl⟩
    cases x with
    | bid => exact ⟨m, .inl hm, rfl⟩
    | ask => exact ⟨m, .inr hm, rfl⟩

theorem orders_matched {b : OrderBook O} (h : BookInv b) (o : O) :
    (b.matched o).orders (side o).opposite = (fillMakers o (b.orders (side o).opposite)).2.2 ∧
    (b.matched o).orders (side o) = b.orders (side o) := by
  obtain ⟨-, -, horders, -⟩ := matchOrder_spec o (h (side o).opposite)
  rw [matched, orders_eq, orders_eq, orders_eq, orders_eq, levels_setLevels, horders,
    levels_opposite_setLevels]
  exact ⟨rfl, rfl⟩

theorem mem_resting_matched {b : OrderBook O} (h : BookInv b) (o : O) {e : Oid × Side × ℕ}
    (he : e ∈ (b.matched o).resting) : e ∈ b.resting := by
  obtain ⟨hopp, hown⟩ := orders_matched h o
  obtain ⟨x, m, hm, rfl⟩ := mem_resting_iff.mp he
  rw [mem_resting_iff]
  by_cases hx : x = side o
  · subst hx
    exact ⟨side o, m, hown ▸ hm, rfl⟩
  · obtain rfl := Side.ne_iff_eq_opposite.mp hx
    rw [hopp] at hm
    have hident : ident m ∈ (b.orders (side o).opposite).map ident := by
      rw [← fillMakers_ident o, List.mem_append]
      exact .inr (List.mem_map_of_mem hm)
    obtain ⟨m', hm', he⟩ := List.mem_map.mp hident
    exact ⟨(side o).opposite, m', hm', he⟩

/-- An order is matched, and then it alone may have come to rest. -/
theorem mem_resting_addOrderBefore {b : OrderBook O} (h : BookInv b) (o : O)
    (anchor : Option Oid) {e : Oid × Side × ℕ} (he : e ∈ (b.addOrderBefore o anchor).2.resting) :
    e = ident o ∨ e ∈ (b.matched o).resting := by
  obtain ⟨hopp, hown⟩ := orders_addOrderBefore h o anchor
  obtain ⟨hopp', hown'⟩ := orders_matched h o
  obtain ⟨x, m, hm, rfl⟩ := mem_resting_iff.mp he
  rw [mem_resting_iff]
  by_cases hx : x = side o
  · subst hx
    rw [hown] at hm
    split_ifs at hm with hz
    · obtain rfl | hm := mem_rest hm
      · exact .inl (fillMakers_taker_ident o _)
      · exact .inr ⟨side o, m, hown'.symm ▸ hm, rfl⟩
    · exact .inr ⟨side o, m, hown'.symm ▸ hm, rfl⟩
  · obtain rfl := Side.ne_iff_eq_opposite.mp hx
    exact .inr ⟨(side o).opposite, m, by rwa [hopp', ← hopp], rfl⟩

theorem mem_resting_cancelOrder {b : OrderBook O} (h : BookInv b) (k : Oid)
    {e : Oid × Side × ℕ} (he : e ∈ (b.cancelOrder k).2.resting) :
    e ∈ b.resting ∧ (e.1 = k → b.oidToSidePx.lookup k ≠ some e.2) := by
  cases hl : b.oidToSidePx.lookup k with
  | none =>
    rw [cancelOrder_of_lookup_none hl] at he
    exact ⟨he, fun _ => by simp⟩
  | some v =>
    obtain ⟨y, p⟩ := v
    obtain ⟨-, hsnap, -, -⟩ := cancelOrder_of_lookup h hl
    obtain ⟨x, m, hm, rfl⟩ := mem_resting_iff.mp he
    rw [mem_resting_iff]
    by_cases hx : x = y
    · subst hx
      rw [orders, hsnap, Snapshot.orders_setOrders, remove, List.mem_filter] at hm
      obtain ⟨hm, hkept⟩ := hm
      refine ⟨⟨x, m, hm, rfl⟩, fun hk hplace => ?_⟩
      simp only [ident, Option.some.injEq, Prod.mk.injEq] at hk hplace
      exact of_decide_eq_true hkept ⟨hplace.2.symm, hk⟩
    · obtain rfl := Side.ne_iff_eq_opposite.mp hx
      rw [orders, hsnap, Snapshot.orders_setOrders_opposite] at hm
      refine ⟨⟨y.opposite, m, hm, rfl⟩, fun _ hplace => ?_⟩
      simp only [ident, Option.some.injEq, Prod.mk.injEq, BookInv.side_eq h hm] at hplace
      exact Side.opposite_ne y hplace.1.symm

theorem mem_resting_modifySz {b : OrderBook O} (h : BookInv b) (k : Oid) (s : ℕ)
    {e : Oid × Side × ℕ} (he : e ∈ (b.modifySz k s).2.resting) : e ∈ b.resting := by
  cases hl : b.oidToSidePx.lookup k with
  | none => rwa [modifySz_of_lookup_none s hl] at he
  | some v =>
    obtain ⟨y, p⟩ := v
    obtain ⟨-, hsnap, -, -⟩ := modifySz_of_lookup h s hl
    obtain ⟨x, m, hm, rfl⟩ := mem_resting_iff.mp he
    rw [mem_resting_iff]
    by_cases hx : x = y
    · subst hx
      rw [orders, hsnap, Snapshot.orders_setOrders, resize, List.mem_map] at hm
      obtain ⟨m', hm', rfl⟩ := hm
      refine ⟨x, m', hm', ?_⟩
      split_ifs
      · simp [ident]
      · rfl
    · obtain rfl := Side.ne_iff_eq_opposite.mp hx
      rw [orders, hsnap, Snapshot.orders_setOrders_opposite] at hm
      exact ⟨y.opposite, m, hm, rfl⟩

/-- An oid that rests in one place is gone when it has been cancelled. -/
theorem not_rests_cancelOrder {b : OrderBook O} (h : BookInv b) {k : Oid} (hone : b.OnePlace k)
    (hdone : (b.cancelOrder k).1 = true) : ¬ (b.cancelOrder k).2.Rests k := by
  obtain ⟨x, p, hindex, hrests⟩ := (cancelOrder_ok_iff h k).mp hdone
  rw [restsAt_iff h] at hrests
  intro hleft
  obtain ⟨⟨k, v⟩, hv, rfl⟩ := List.mem_map.mp hleft
  obtain ⟨hv, hplace⟩ := mem_resting_cancelOrder h k hv
  exact hplace rfl (hindex.trans (congrArg some (hone _ _ hrests hv)))

end OrderBook

namespace BlockState
open OrderBook

variable {ignoreSpot : Bool} {self : BlockState} {diff : NodeDataOrderDiff}

/-- The order that a New diff opens, where it opens one. -/
def incoming (self : BlockState) (diff : NodeDataOrderDiff) (sz : ℕ) : Option InnerL4Order := do
  let status ← self.orderMap.lookup diff.oid
  (openedOrder status diff sz).toOption

/-- A New diff is refused: it has no opening status, or not one that can be read, or its order is
refused. -/
inductive RefusesNew (self : BlockState) (diff : NodeDataOrderDiff) (sz : ℕ)
    (anchor : Option Oid) : Prop
  | unopened (h : self.orderMap.lookup diff.oid = none)
  | unread {status : NodeDataOrderStatus} {e : Error}
      (hstatus : self.orderMap.lookup diff.oid = some status)
      (h : openedOrder status diff sz = .error (.error e))
  | order {status : NodeDataOrderStatus} {order : InnerL4Order}
      (hstatus : self.orderMap.lookup diff.oid = some status)
      (horder : openedOrder status diff sz = .ok order)
      (h : (self.orderBook.book order.coin).Refuses order anchor)

theorem RefusesNew.congr {block : BlockState} {sz : ℕ} {anchor : Option Oid}
    (h : self.RefusesNew diff sz anchor) (hmap : block.orderMap = self.orderMap)
    (hbook : block.orderBook = self.orderBook) : block.RefusesNew diff sz anchor := by
  obtain hnone | ⟨hsome, hread⟩ | ⟨hsome, hread, hno⟩ := h
  · exact .unopened (hmap ▸ hnone)
  · exact .unread (hmap ▸ hsome) hread
  · exact .order (hmap ▸ hsome) hread (hbook ▸ hno)

/-- A diff is refused: it cannot be read, or it opens an order that is refused, or it names an
order that the index of its coin does not find. -/
def Refuses (ignoreSpot : Bool) (self : BlockState) (diff : NodeDataOrderDiff) : Prop :=
  ¬ Skipped ignoreSpot diff ∧
    match InnerOrderDiff.tryFrom diff.rawBookDiff with
    | .error _ => True
    | .ok (.new sz anchor) => self.RefusesNew diff sz anchor
    | .ok (.update _ _) => ¬ (self.orderBook.book ⟨diff.coin⟩).Listed diff.oid
    | .ok .remove => ¬ (self.orderBook.book ⟨diff.coin⟩).Listed diff.oid

/-- A diff bears on the book of a coin: it opens an order of the coin, or changes one. -/
def BearsOn (ignoreSpot : Bool) (orderMap : HashMap Oid NodeDataOrderStatus) (c : Coin)
    (diff : NodeDataOrderDiff) : Prop :=
  ¬ Skipped ignoreSpot diff ∧
    match InnerOrderDiff.tryFrom diff.rawBookDiff with
    | .error _ => False
    | .ok (.new _ _) => ∃ status, orderMap.lookup diff.oid = some status ∧
        Coin.mk status.order.coin = c
    | .ok (.update _ _) => Coin.mk diff.coin = c
    | .ok .remove => Coin.mk diff.coin = c

theorem bearsOn_of_opened {sz : ℕ} {anchor : Option Oid} {status : NodeDataOrderStatus}
    {order : InnerL4Order} (kept : ¬ Skipped ignoreSpot diff)
    (kind : InnerOrderDiff.tryFrom diff.rawBookDiff = .ok (.new sz anchor))
    (hstatus : self.orderMap.lookup diff.oid = some status)
    (horder : openedOrder status diff sz = .ok order) :
    BearsOn ignoreSpot self.orderMap order.coin diff := by
  rw [BearsOn, kind]
  exact ⟨kept, status, hstatus, (openedOrder_eq_ok horder).1.symm⟩

/-- A book changes only under a diff that bears on it. -/
theorem Applied.book_eq {next : BlockState} (h : Applied ignoreSpot self diff next) {c : Coin}
    (hc : ¬ BearsOn ignoreSpot self.orderMap c diff) :
    next.orderBook.book c = self.orderBook.book c := by
  cases h with
  | skipped hs => rfl
  | @opened sz anchor status order kept kind hstatus horder done =>
    have hother : c ≠ order.coin := by
      rintro rfl
      exact hc (bearsOn_of_opened kept kind hstatus horder)
    rw [OrderBooks.book_addOrderBefore]
    exact if_neg hother
  | resized kept kind done =>
    have hother : c ≠ ⟨diff.coin⟩ := by
      rintro rfl
      exact hc (by rw [BearsOn, kind]; exact ⟨kept, rfl⟩)
    rw [(OrderBooks.modifySz_eq _ _ _ _).2, if_neg hother]
  | removed kept kind done =>
    have hother : c ≠ ⟨diff.coin⟩ := by
      rintro rfl
      exact hc (by rw [BearsOn, kind]; exact ⟨kept, rfl⟩)
    rw [(OrderBooks.cancelOrder_eq _ _ _).2, if_neg hother]

theorem BearsOn.mono {orderMap orderMap' : HashMap Oid NodeDataOrderStatus} {c : Coin}
    (h : BearsOn ignoreSpot orderMap c diff)
    (hmap : ∀ k status, orderMap.lookup k = some status → orderMap'.lookup k = some status) :
    BearsOn ignoreSpot orderMap' c diff := by
  obtain ⟨kept, h⟩ := h
  refine ⟨kept, ?_⟩
  cases hkind : InnerOrderDiff.tryFrom diff.rawBookDiff with
  | error message => simp [hkind] at h
  | ok kind =>
    rw [hkind] at h
    cases kind with
    | new sz anchor =>
      obtain ⟨status, hstatus, hcoin⟩ := h
      exact ⟨status, hmap _ _ hstatus, hcoin⟩
    | update => exact h
    | remove => exact h

variable {start block : BlockState} {before : List NodeDataOrderDiff}

theorem AppliedAll.book_eq (h : AppliedAll ignoreSpot start before block) {c : Coin}
    (hc : ∀ d ∈ before, ¬ BearsOn ignoreSpot start.orderMap c d) :
    block.orderBook.book c = start.orderBook.book c := by
  induction h with
  | nil => rfl
  | @cons start mid block d before first rest ih =>
    obtain ⟨hd, hrest⟩ := List.forall_mem_cons.mp hc
    have hmid : ∀ d ∈ before, ¬ BearsOn ignoreSpot mid.orderMap c d := fun d hd' hbears =>
      hrest d hd' (hbears.mono fun _ _ => first.lookup_orderMap)
    rw [ih hmid, first.book_eq hd]

/-- An opening status that is gone was taken by a diff before. -/
theorem AppliedAll.taken (h : AppliedAll ignoreSpot start before block) {k : Oid}
    {status : NodeDataOrderStatus} (hstart : start.orderMap.lookup k = some status)
    (hblock : block.orderMap.lookup k = none) :
    ∃ d ∈ before, BearsOn ignoreSpot start.orderMap ⟨status.order.coin⟩ d := by
  induction h with
  | nil => cases hstart.symm.trans hblock
  | @cons start mid block d before first rest ih =>
    cases hmid : mid.orderMap.lookup k with
    | some status' =>
      cases (first.lookup_orderMap hmid).symm.trans hstart
      obtain ⟨d', hd', hbears⟩ := ih hmid hblock
      exact ⟨d', List.mem_cons_of_mem d hd', hbears.mono fun _ _ => first.lookup_orderMap⟩
    | none =>
      refine ⟨d, List.mem_cons_self, ?_⟩
      cases first with
      | skipped hs => cases hstart.symm.trans hmid
      | opened kept kind hstatus horder done =>
        rw [HashMap.lookup_erase_ite] at hmid
        split_ifs at hmid with hk
        · subst hk
          rw [BearsOn, kind]
          exact ⟨kept, status, hstart, rfl⟩
        · cases hstart.symm.trans hmid
      | resized => cases hstart.symm.trans hmid
      | removed => cases hstart.symm.trans hmid

/-- Each opening status is under its own oid. -/
def Keyed (block : BlockState) : Prop :=
  ∀ k status, block.orderMap.lookup k = some status → status.order.oid = k

theorem Keyed.applied {next : BlockState} (h : self.Keyed) (ha : Applied ignoreSpot self diff next) :
    next.Keyed :=
  fun k status hstatus => h k status (ha.lookup_orderMap hstatus)

theorem AppliedAll.keyed (h : AppliedAll ignoreSpot start before block) (hk : start.Keyed) :
    block.Keyed :=
  fun k status hstatus => hk k status (h.lookup_orderMap hstatus)

/-- What comes to rest under an oid has taken the opening status of the oid. -/
theorem Applied.mem_resting {next : BlockState} (h : Applied ignoreSpot self diff next)
    (hbuilt : self.orderBook.Built) (hkeyed : self.Keyed) {c : Coin} {k : Oid} {v : Side × ℕ}
    (hv : (k, v) ∈ (next.orderBook.book c).resting) :
    (k, v) ∈ (self.orderBook.book c).resting ∨ next.orderMap.lookup k = none := by
  have hfiled := (hbuilt c).sound.filed
  cases h with
  | skipped hs => exact .inl hv
  | @opened sz anchor status order kept kind hstatus horder done =>
    rw [OrderBooks.book_addOrderBefore] at hv
    split_ifs at hv with hc
    · obtain hident | hv := mem_resting_addOrderBefore hfiled order anchor hv
      · right
        have hk : k = diff.oid :=
          (congrArg Prod.fst hident).trans
            ((openedOrder_eq_ok horder).2.1.trans (hkeyed _ _ hstatus))
        rw [HashMap.lookup_erase_ite, if_pos hk]
      · exact .inl (mem_resting_matched hfiled order hv)
    · exact .inl hv
  | resized kept kind done =>
    rw [(OrderBooks.modifySz_eq _ _ _ _).2] at hv
    split_ifs at hv
    · exact .inl (mem_resting_modifySz hfiled _ _ hv)
    · exact .inl hv
  | removed kept kind done =>
    rw [(OrderBooks.cancelOrder_eq _ _ _).2] at hv
    split_ifs at hv
    · exact .inl (mem_resting_cancelOrder hfiled _ hv).1
    · exact .inl hv

theorem AppliedAll.mem_resting (h : AppliedAll ignoreSpot start before block)
    (hbuilt : start.orderBook.Built) (hkeyed : start.Keyed) {c : Coin} {k : Oid} {v : Side × ℕ}
    (hv : (k, v) ∈ (block.orderBook.book c).resting) :
    (k, v) ∈ (start.orderBook.book c).resting ∨ block.orderMap.lookup k = none := by
  induction h with
  | nil => exact .inl hv
  | cons first rest ih =>
    obtain hv | hnone := ih ((AppliedAll.cons first (.nil _)).built hbuilt) (hkeyed.applied first) hv
    · obtain hv | hnone := first.mem_resting hbuilt hkeyed hv
      · exact .inl hv
      · right
        rw [Option.eq_none_iff_forall_ne_some] at hnone ⊢
        exact fun status hstatus => hnone status (rest.lookup_orderMap hstatus)
    · exact .inr hnone

theorem mem_incoming {sz : ℕ} {order : InnerL4Order} : order ∈ self.incoming diff sz ↔
    ∃ status, self.orderMap.lookup diff.oid = some status ∧
      openedOrder status diff sz = .ok order := by
  simp only [incoming, Option.mem_def, Option.bind_eq_bind, Option.bind_eq_some_iff,
    toOption_eq_some]

/-- No diff before bears on a book that the diff bears on. -/
def FirstToBear (ignoreSpot : Bool) (orderMap : HashMap Oid NodeDataOrderStatus)
    (before : List NodeDataOrderDiff) (diff : NodeDataOrderDiff) : Prop :=
  ∀ c, BearsOn ignoreSpot orderMap c diff → ∀ d ∈ before, ¬ BearsOn ignoreSpot orderMap c d

theorem AppliedAll.lookup_eq (h : AppliedAll ignoreSpot start before block)
    (hfirst : FirstToBear ignoreSpot start.orderMap before diff) (kept : ¬ Skipped ignoreSpot diff)
    {sz : ℕ} {anchor : Option Oid}
    (kind : InnerOrderDiff.tryFrom diff.rawBookDiff = .ok (.new sz anchor)) :
    block.orderMap.lookup diff.oid = start.orderMap.lookup diff.oid := by
  cases hblock : block.orderMap.lookup diff.oid with
  | some status => exact (h.lookup_orderMap hblock).symm
  | none =>
    cases hstart : start.orderMap.lookup diff.oid with
    | none => rfl
    | some status =>
      obtain ⟨d, hd, hbears⟩ := h.taken hstart hblock
      refine absurd hbears (hfirst _ ?_ d hd)
      rw [BearsOn, kind]
      exact ⟨kept, status, hstart, rfl⟩

/-- The first diff to bear on its books is refused by them as they were at the start. -/
theorem AppliedAll.refuses_iff (h : AppliedAll ignoreSpot start before block)
    (hfirst : FirstToBear ignoreSpot start.orderMap before diff) :
    Refuses ignoreSpot block diff ↔ Refuses ignoreSpot start diff := by
  refine and_congr_right fun kept => ?_
  have hbook : ∀ c, BearsOn ignoreSpot start.orderMap c diff →
      block.orderBook.book c = start.orderBook.book c := fun c hc => h.book_eq (hfirst c hc)
  cases hkind : InnerOrderDiff.tryFrom diff.rawBookDiff with
  | error message => exact Iff.rfl
  | ok kind =>
    cases kind with
    | new sz anchor =>
      have hlookup := h.lookup_eq hfirst kept hkind
      dsimp only
      constructor
      · rintro (hnone | ⟨hsome, hread⟩ | ⟨hsome, hread, hno⟩)
        · exact .unopened (hlookup ▸ hnone)
        · exact .unread (hlookup ▸ hsome) hread
        · rw [hlookup] at hsome
          rw [hbook _ (bearsOn_of_opened kept hkind hsome hread)] at hno
          exact .order hsome hread hno
      · rintro (hnone | ⟨hsome, hread⟩ | ⟨hsome, hread, hno⟩)
        · exact .unopened (hlookup.trans hnone)
        · exact .unread (hlookup.trans hsome) hread
        · rw [← hbook _ (bearsOn_of_opened kept hkind hsome hread)] at hno
          exact .order (hlookup.trans hsome) hread hno
    | update origSz newSz =>
      dsimp only
      rw [hbook ⟨diff.coin⟩ (by rw [BearsOn, hkind]; exact ⟨kept, rfl⟩)]
    | remove =>
      dsimp only
      rw [hbook ⟨diff.coin⟩ (by rw [BearsOn, hkind]; exact ⟨kept, rfl⟩)]

/-- Under an oid whose opening status is still there nothing has come to rest. -/
theorem AppliedAll.rested (h : AppliedAll ignoreSpot start before block)
    (hbuilt : start.orderBook.Built) (hkeyed : start.Keyed) {c : Coin} {k : Oid} {v : Side × ℕ}
    {status : NodeDataOrderStatus} (hstatus : block.orderMap.lookup k = some status)
    (hv : (k, v) ∈ (block.orderBook.book c).resting) :
    (k, v) ∈ (start.orderBook.book c).resting := by
  refine (h.mem_resting hbuilt hkeyed hv).resolve_right ?_
  rw [hstatus]
  exact Option.some_ne_none status

theorem AppliedAll.of_append {pre rest : List NodeDataOrderDiff}
    (h : AppliedAll ignoreSpot start (pre ++ rest) block) :
    ∃ mid, AppliedAll ignoreSpot start pre mid ∧ AppliedAll ignoreSpot mid rest block := by
  induction pre generalizing start with
  | nil => exact ⟨start, .nil start, h⟩
  | cons d pre ih =>
    obtain _ | ⟨first, h⟩ := h
    obtain ⟨mid, hpre, hrest⟩ := ih h
    exact ⟨mid, .cons first hpre, hrest⟩

/-- An order that is removed, and rested in one place, does not rest after it. -/
theorem Applied.not_rests_of_removed {mid next : BlockState} {d : NodeDataOrderDiff}
    (h : Applied ignoreSpot mid d next) (hbuilt : mid.orderBook.Built)
    (kept : ¬ Skipped ignoreSpot d)
    (kind : InnerOrderDiff.tryFrom d.rawBookDiff = .ok .remove)
    (hone : (mid.orderBook.book ⟨d.coin⟩).OnePlace d.oid) :
    ¬ (next.orderBook.book ⟨d.coin⟩).Rests d.oid := by
  cases h with
  | skipped hs => exact absurd hs kept
  | opened _ kind' => cases kind.symm.trans kind'
  | resized _ kind' => cases kind.symm.trans kind'
  | removed _ _ done =>
    rw [(OrderBooks.cancelOrder_eq _ _ _).1] at done
    rw [(OrderBooks.cancelOrder_eq _ _ _).2, if_pos rfl]
    exact not_rests_cancelOrder (hbuilt ⟨d.coin⟩).sound.filed hone done

/-- An order that is opened leaves what it leaves when it is matched, and itself. -/
theorem Applied.rests_of_opened {mid next : BlockState} {d : NodeDataOrderDiff} {sz : ℕ}
    {anchor : Option Oid} {order : InnerL4Order} (h : Applied ignoreSpot mid d next)
    (hbuilt : mid.orderBook.Built) (hkeyed : mid.Keyed) (kept : ¬ Skipped ignoreSpot d)
    (kind : InnerOrderDiff.tryFrom d.rawBookDiff = .ok (.new sz anchor))
    (horder : ∀ status, mid.orderMap.lookup d.oid = some status →
      openedOrder status d sz = .ok order) {k : Oid} {v : Side × ℕ}
    (hv : (k, v) ∈ (next.orderBook.book order.coin).resting) :
    next.orderMap.lookup k = none ∨ ((mid.orderBook.book order.coin).matched order).Rests k := by
  cases h with
  | skipped hs => exact absurd hs kept
  | resized _ kind' => cases kind.symm.trans kind'
  | removed _ kind' => cases kind.symm.trans kind'
  | opened _ kind' hstatus horder' done =>
    cases kind.symm.trans kind'
    cases (horder _ hstatus).symm.trans horder'
    have hown : (mid.orderBook.addOrderBefore order anchor).2.book order.coin =
        ((mid.orderBook.book order.coin).addOrderBefore order anchor).2 := by
      rw [OrderBooks.book_addOrderBefore]
      exact if_pos rfl
    rw [hown] at hv
    obtain hident | hv := mem_resting_addOrderBefore (hbuilt order.coin).sound.filed order _ hv
    · left
      have hk : k = d.oid := (congrArg Prod.fst hident).trans
        ((openedOrder_eq_ok horder').2.1.trans (hkeyed _ _ hstatus))
      rw [HashMap.lookup_erase_ite, if_pos hk]
    · exact .inr (rests_of_mem hv)

end BlockState
end OrderBookServer
