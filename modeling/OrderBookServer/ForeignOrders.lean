import OrderBookServer.StateRuns
import OrderBookServer.CoinSelection
import OrderBookServer.Results

/-!
# Orders that a block opens for coins it does not name

A New diff is skipped, or marks its coin dirty, by the coin it names. The order comes
from the status of its oid and rests in the book of the coin that the status names. So
the book of a coin that no diff names may change, and is not marked. It stays as it was
where no order is opened for it, or one that leaves no trace in it.
-/
namespace OrderBookServer
open InnerOrder PriceTime

namespace PriceTime

theorem length_fillMakers_le (t : InnerL4Order) (ms : List InnerL4Order) :
    (fillMakers t ms).2.2.length ≤ ms.length := by
  have hlen := congrArg List.length (fillMakers_ident t ms)
  simp only [List.length_append, List.length_map] at hlen
  omega

/-- Makers stay as they are unless the first is crossed, and the taker has size or the maker has
none. -/
theorem fillMakers_eq_self_iff {t : InnerL4Order} {ms : List InnerL4Order} :
    (fillMakers t ms).2.2 = ms ↔
      ∀ m ∈ ms.head?, t.side.Matches t.limitPx m.limitPx → t.sz = 0 ∧ 0 < m.sz := by
  cases ms with
  | nil => simp [fillMakers]
  | cons m ms =>
    have hmaker : sz (maker t m) = m.sz - t.sz := sz_maker t m
    have hshort : ∀ left : List InnerL4Order, left.length ≤ ms.length → left ≠ m :: ms := by
      rintro _ hle rfl
      simp at hle
    simp only [List.head?_cons, Option.mem_some_iff, forall_eq']
    by_cases hc : t.side.Matches t.limitPx m.limitPx
    · have hc' : (side t).Matches (limitPx t) (limitPx m) := hc
      rw [fillMakers, if_pos hc', imp_iff_right hc]
      split_ifs with hz ht
      · exact iff_of_false (hshort ms le_rfl) (by omega)
      · exact iff_of_false (hshort _ (length_fillMakers_le _ _)) (by omega)
      · constructor
        · intro heq
          have hsame := congrArg InnerL4Order.sz (List.cons.inj heq).1
          change sz (maker t m) = m.sz at hsame
          omega
        · rintro ⟨hzero, -⟩
          have hnone : min t.sz m.sz = 0 := by omega
          change { m with sz := m.sz - min t.sz m.sz } :: ms = m :: ms
          rw [hnone, Nat.sub_zero]
    · have hc' : ¬ (side t).Matches (limitPx t) (limitPx m) := hc
      rw [fillMakers, if_neg hc']
      exact iff_of_true rfl fun h => absurd h hc

/-- Makers that are as they were have not been filled. -/
theorem fillMakers_fills_eq_nil {t : InnerL4Order} {ms : List InnerL4Order}
    (h : (fillMakers t ms).2.2 = ms) : (fillMakers t ms).2.1 = [] := by
  have hlen := congrArg List.length (fillMakers_ident t ms)
  rw [h] at hlen
  simp only [List.length_append, List.length_map] at hlen
  exact List.length_eq_zero_iff.mp (by omega)

theorem fillMakers_of_head {t : InnerL4Order} {ms : List InnerL4Order}
    (h : ∀ m ∈ ms.head?, ¬ t.side.Matches t.limitPx m.limitPx) : fillMakers t ms = (t, [], ms) := by
  cases ms with
  | nil => rfl
  | cons m ms =>
    have hc : ¬ (side t).Matches (limitPx t) (limitPx m) := h m rfl
    rw [fillMakers, if_neg hc]

/-- An order that may rest leaves the others alone exactly where its oid rests at its price and
nothing has come to rest. -/
theorem rest_eq_self_iff {anchor : Option Oid} {t : InnerL4Order} {os : List InnerL4Order}
    (hs : os = better t.side t.limitPx os ++ (atPrice t.limitPx os ++ worse t.side t.limitPx os))
    (hdone : (rest anchor t os).1 = true) :
    (rest anchor t os).2 = os ↔ t.oid ∈ (atPrice t.limitPx os).map oid := by
  cases anchor with
  | none =>
    by_cases hmem : oid t ∈ (atPrice (limitPx t) os).map oid
    · simp only [rest, if_pos hmem, true_iff]
      exact hmem
    · simp only [rest, if_neg hmem]
      refine iff_of_false (fun heq => ?_) hmem
      have hlen := (restBack_perm_cons t rfl hs).length_eq
      rw [heq] at hlen
      simp at hlen
  | some before =>
    have haccepted : ¬ (oid t ∈ (atPrice (limitPx t) os).map oid ∨
        before ∉ (atPrice (limitPx t) os).map oid) := by
      intro hno
      simp only [rest, if_pos hno] at hdone
      cases hdone
    simp only [rest, if_neg haccepted]
    refine iff_of_false (fun heq => ?_) fun hmem => haccepted (.inl hmem)
    have hlen := (restBefore_perm_cons before t rfl hs).length_eq
    rw [heq] at hlen
    simp at hlen

end PriceTime

namespace OrderBook

/-- An order that leaves a book as it was: it trades with no order, and rests as what is known of
its oid. -/
structure Inert (b : OrderBook InnerL4Order) (o : InnerL4Order) : Prop where
  crosses : ∀ m ∈ (b.crossedBy o).head?, o.sz = 0 ∧ 0 < m.sz
  rests : 0 < o.sz → (o.oid, o.side, o.limitPx) ∈ b.resting ∧
    b.oidToSidePx.lookup o.oid = some (o.side, o.limitPx)

theorem crossedBy_head? {b : OrderBook InnerL4Order} (h : Sound b) (o : InnerL4Order)
    (p : InnerL4Order → Prop) : (∀ m ∈ (b.crossedBy o).head?, p m) ↔
      ∀ m ∈ (b.orders o.side.opposite).head?, o.side.Matches o.limitPx m.limitPx → p m := by
  have hfront : b.crossedBy o = (b.orders o.side.opposite).takeWhile
      fun m => o.side.Matches o.limitPx m.limitPx :=
    (takeWhile_eq_filter limitPx (limitPx o) (h.sorted (side o).opposite)).1.symm
  rw [hfront]
  cases b.orders o.side.opposite with
  | nil => simp
  | cons m ms => by_cases hc : o.side.Matches o.limitPx m.limitPx <;> simp [hc]

variable {b : OrderBook InnerL4Order} {o : InnerL4Order} {anchor : Option Oid}

/-- An order with size that trades with nothing leaves the book as it was exactly where it comes
to rest as what is known of its oid. -/
theorem addOrderBefore_eq_self_iff_of_sized (h : Sound b) (hz : 0 < o.sz)
    (hnone : ∀ m ∈ (b.orders o.side.opposite).head?, ¬ o.side.Matches o.limitPx m.limitPx)
    (hdone : (b.addOrderBefore o anchor).1 = true) :
    (b.addOrderBefore o anchor).2 = b ↔ (o.oid, o.side, o.limitPx) ∈ b.resting ∧
      b.oidToSidePx.lookup o.oid = some (o.side, o.limitPx) := by
  obtain ⟨hopp, hown⟩ := orders_addOrderBefore h.filed o anchor
  have hindex := addOrderBefore_index h.filed o anchor
  have hfilled := addOrderBefore_spec h.filed o anchor
  have hfill : fillMakers o (b.orders (side o).opposite) = (o, [], b.orders (side o).opposite) :=
    fillMakers_of_head hnone
  have hrest : (rest anchor o (b.orders (side o))).1 = true := by
    have hplace := congrArg Prod.fst hfilled.1
    rw [hdone, place_fst] at hplace
    have hrested : (if 0 < sz (fillMakers o (b.orders (side o).opposite)).1 then
      (rest anchor (fillMakers o (b.orders (side o).opposite)).1 (b.orders (side o))).1
      else true) = true := hplace.symm
    rw [hfill] at hrested
    exact (if_pos hz).symm.trans hrested
  rw [hfill] at hopp hown hindex
  dsimp only at hopp hown hindex
  rw [if_pos (show 0 < sz o from hz)] at hown
  rw [if_pos ⟨show 0 < sz o from hz, hrest⟩] at hindex
  have hself := rest_eq_self_iff (orders_eq b (side o) ▸ (h.filed (side o)).split (limitPx o)) hrest
  have hplaced := hself.trans (mem_atPrice_iff h.filed)
  constructor
  · intro heq
    rw [heq] at hown hindex
    refine ⟨hplaced.mp hown.symm, ?_⟩
    rw [hindex]
    exact Finmap.lookup_insert _
  · rintro ⟨hrests, hlisted⟩
    refine BookInv.ext_side hfilled.2 h.filed ?_ (side o) ?_ hopp
    · rw [hindex]
      apply Finmap.ext_lookup
      intro k
      rw [HashMap.lookup_insert_ite]
      split_ifs with hk
      · rw [hk]
        exact hlisted.symm
      · rfl
    · rw [hown]
      exact hplaced.mpr hrests

/-- An order without size that leaves the makers as they were leaves the book as it was. -/
theorem addOrderBefore_eq_self_of_sizeless (h : BookInv b) (hz : o.sz = 0)
    (hmatch : (fillMakers o (b.orders o.side.opposite)).2.2 = b.orders o.side.opposite) :
    (b.addOrderBefore o anchor).2 = b := by
  obtain ⟨hopp, hown⟩ := orders_addOrderBefore h o anchor
  have hindex := addOrderBefore_index h o anchor
  have hzero : ¬ 0 < sz (fillMakers o (b.orders (side o).opposite)).1 := by
    rw [sz_fillMakers]
    have : sz o = 0 := hz
    omega
  have hnone : (fillMakers o (b.orders (side o).opposite)).2.1 = [] :=
    fillMakers_fills_eq_nil hmatch
  rw [if_neg hzero] at hown
  dsimp only at hindex
  rw [if_neg (fun hc => hzero hc.1), hnone] at hindex
  exact BookInv.ext_side (addOrderBefore_spec h o anchor).2 h hindex (side o) hown
    (hopp.trans hmatch)

/-- An order that is accepted leaves the book as it was exactly where it is inert. -/
theorem addOrderBefore_eq_self_iff (h : Sound b)
    (hdone : (b.addOrderBefore o anchor).1 = true) :
    (b.addOrderBefore o anchor).2 = b ↔ b.Inert o := by
  have hkept : (fillMakers o (b.orders o.side.opposite)).2.2 = b.orders o.side.opposite ↔ _ :=
    fillMakers_eq_self_iff
  have hcrosses := hkept.trans
    (crossedBy_head? h o fun m => o.sz = 0 ∧ 0 < m.sz).symm
  by_cases hmatch : (fillMakers o (b.orders o.side.opposite)).2.2 = b.orders o.side.opposite
  swap
  · refine iff_of_false (fun heq => hmatch ?_) fun hinert => hmatch (hcrosses.mpr hinert.crosses)
    have hopp := (orders_addOrderBefore h.filed o anchor).1
    rw [heq] at hopp
    exact hopp.symm
  have hhead := fillMakers_eq_self_iff.mp hmatch
  obtain hz | hz := Nat.eq_zero_or_pos o.sz
  · exact iff_of_true (addOrderBefore_eq_self_of_sizeless h.filed hz hmatch)
      ⟨hcrosses.mp hmatch, fun hpos => absurd hz hpos.ne'⟩
  · rw [addOrderBefore_eq_self_iff_of_sized h hz
      (fun m hm hc => hz.ne' (hhead m hm hc).1) hdone]
    exact ⟨fun hrests => ⟨hcrosses.mp hmatch, fun _ => hrests⟩, fun hinert => hinert.rests hz⟩

end OrderBook
namespace BlockState

variable {ignoreSpot : Bool} {self next : BlockState} {diff : NodeDataOrderDiff}
variable {diffs : List NodeDataOrderDiff} {c : Coin}

/-- The orders that diffs open, with their anchors, in their order. -/
def openings (ignoreSpot : Bool) : HashMap Oid NodeDataOrderStatus → List NodeDataOrderDiff →
    List (InnerL4Order × Option Oid)
  | _, [] => []
  | orderMap, diff :: diffs =>
    if Skipped ignoreSpot diff then openings ignoreSpot orderMap diffs
    else
      match InnerOrderDiff.tryFrom diff.rawBookDiff with
      | .ok (.new sz anchor) =>
        ((orderMap.lookup diff.oid).bind fun status =>
          (openedOrder status diff sz).toOption.map fun order => (order, anchor)).toList ++
        openings ignoreSpot (orderMap.erase diff.oid) diffs
      | _ => openings ignoreSpot orderMap diffs

/-- Orders added one after the other to a book, which is made for the first. -/
def addAll (book : Option (OrderBook InnerL4Order)) (orders : List (InnerL4Order × Option Oid)) :
    Option (OrderBook InnerL4Order) :=
  orders.foldl (fun book e => some ((book.getD .new).addOrderBefore e.1 e.2).2) book

/-- The orders among these that are of a coin. -/
def ofCoin (c : Coin) (orders : List (InnerL4Order × Option Oid)) :
    List (InnerL4Order × Option Oid) :=
  orders.filter fun e => e.1.coin = c

/-- A diff that is not skipped names the coin. -/
def Names (ignoreSpot : Bool) (diffs : List NodeDataOrderDiff) (c : Coin) : Prop :=
  ∃ diff ∈ diffs, ¬ Skipped ignoreSpot diff ∧ Coin.mk diff.coin = c

theorem not_names_cons (h : ¬ Names ignoreSpot (diff :: diffs) c) :
    (¬ Skipped ignoreSpot diff → Coin.mk diff.coin ≠ c) ∧ ¬ Names ignoreSpot diffs c := by
  constructor
  · exact fun hs hc => h ⟨diff, List.mem_cons_self, hs, hc⟩
  · rintro ⟨d, hd, hs, hc⟩
    exact h ⟨d, List.mem_cons_of_mem diff hd, hs, hc⟩

/-- The book of a coin that no diff names only takes the orders that are opened for it. -/
theorem AppliedAll.lookup_of_not_names (h : AppliedAll ignoreSpot self diffs next)
    (hc : ¬ Names ignoreSpot diffs c) : next.orderBook.lookup c =
      addAll (self.orderBook.lookup c) (ofCoin c (openings ignoreSpot self.orderMap diffs)) := by
  induction h with
  | nil => rfl
  | @cons self mid last diff diffs first rest ih =>
    obtain ⟨hother, hrest⟩ := not_names_cons hc
    rw [ih hrest, openings]
    cases first with
    | skipped hs => rw [if_pos hs]
    | @opened sz anchor status order kept kind hstatus horder done =>
      have hopened : (openedOrder status diff sz).toOption = some order := by rw [horder]; rfl
      rw [if_neg kept, kind]
      dsimp only
      rw [hstatus, Option.bind_some, hopened, Option.map_some, Option.toList_some,
        OrderBooks.lookup_addOrderBefore, List.singleton_append, ofCoin, ofCoin, List.filter_cons]
      change addAll (if c = order.coin then _ else _) _ = _
      by_cases hcoin : order.coin = c
      · subst hcoin
        rw [if_pos rfl, if_pos (by simp)]
        rfl
      · rw [if_neg (Ne.symm hcoin), if_neg (by simpa using hcoin)]
    | resized kept kind done =>
      rw [if_neg kept, kind]
      dsimp only
      rw [OrderBooks.lookup_modifySz, if_neg (Ne.symm (hother kept))]
    | removed kept kind done =>
      rw [if_neg kept, kind]
      dsimp only
      rw [OrderBooks.lookup_cancelOrder, if_neg (Ne.symm (hother kept))]

/-- The first order that is opened for a coin that no diff names is accepted by its book. -/
theorem AppliedAll.accepts_of_not_names (h : AppliedAll ignoreSpot self diffs next)
    (hc : ¬ Names ignoreSpot diffs c) {order : InnerL4Order} {anchor : Option Oid}
    {more : List (InnerL4Order × Option Oid)}
    (horders : ofCoin c (openings ignoreSpot self.orderMap diffs) = (order, anchor) :: more) :
    ((self.orderBook.book c).addOrderBefore order anchor).1 = true := by
  induction h with
  | nil => cases horders
  | @cons self mid last diff diffs first rest ih =>
    obtain ⟨hother, hrest⟩ := not_names_cons hc
    rw [openings] at horders
    cases first with
    | skipped hs =>
      rw [if_pos hs] at horders
      exact ih hrest horders
    | @opened sz anchor' status opened kept kind hstatus horder done =>
      have hopened : (openedOrder status diff sz).toOption = some opened := by rw [horder]; rfl
      rw [if_neg kept, kind] at horders
      dsimp only at horders
      rw [hstatus, Option.bind_some, hopened, Option.map_some, Option.toList_some,
        List.singleton_append, ofCoin, List.filter_cons] at horders
      by_cases hcoin : opened.coin = c
      · rw [if_pos (by simpa using hcoin)] at horders
        cases horders
        rw [← hcoin]
        exact done
      · rw [if_neg (by simpa using hcoin)] at horders
        have haccepts := ih hrest horders
        have hcoin' : ¬ c = coin opened := Ne.symm hcoin
        rwa [OrderBooks.book_addOrderBefore, if_neg hcoin'] at haccepts
    | resized kept kind done =>
      rw [if_neg kept, kind] at horders
      have haccepts := ih hrest horders
      rwa [(OrderBooks.modifySz_eq _ _ _ _).2, if_neg (Ne.symm (hother kept))] at haccepts
    | removed kept kind done =>
      rw [if_neg kept, kind] at horders
      have haccepts := ih hrest horders
      rwa [(OrderBooks.cancelOrder_eq _ _ _).2, if_neg (Ne.symm (hother kept))] at haccepts

/-- An order that is opened is of the coin of an opening status. -/
theorem mem_openings {orderMap : HashMap Oid NodeDataOrderStatus}
    {e : InnerL4Order × Option Oid} (h : e ∈ openings ignoreSpot orderMap diffs) :
    ∃ diff ∈ diffs, ¬ Skipped ignoreSpot diff ∧
      ∃ sz anchor, InnerOrderDiff.tryFrom diff.rawBookDiff = .ok (.new sz anchor) ∧
        ∃ status, orderMap.lookup diff.oid = some status ∧
          Coin.mk status.order.coin = e.1.coin := by
  induction diffs generalizing orderMap with
  | nil => cases h
  | cons diff diffs ih =>
    have hlater {map : HashMap Oid NodeDataOrderStatus} (hmem : e ∈ openings ignoreSpot map diffs)
        (hmap : ∀ k status, map.lookup k = some status → orderMap.lookup k = some status) :
        ∃ d ∈ diff :: diffs, ¬ Skipped ignoreSpot d ∧
          ∃ sz anchor, InnerOrderDiff.tryFrom d.rawBookDiff = .ok (.new sz anchor) ∧
            ∃ status, orderMap.lookup d.oid = some status ∧
              Coin.mk status.order.coin = e.1.coin := by
      obtain ⟨d, hd, kept, sz, anchor, kind, status, hstatus, hcoin⟩ := ih hmem
      exact ⟨d, List.mem_cons_of_mem diff hd, kept, sz, anchor, kind, status, hmap _ _ hstatus, hcoin⟩
    rw [openings] at h
    by_cases hs : Skipped ignoreSpot diff
    · rw [if_pos hs] at h
      exact hlater h fun _ _ hstatus => hstatus
    rw [if_neg hs] at h
    split at h
    · next sz anchor kind =>
      rw [List.mem_append] at h
      obtain h | h := h
      · obtain ⟨status, hstatus, h⟩ := Option.bind_eq_some_iff.mp (Option.mem_toList.mp h)
        obtain ⟨order, horder, rfl⟩ := Option.map_eq_some_iff.mp h
        exact ⟨diff, List.mem_cons_self, hs, sz, anchor, kind, status, hstatus,
          (openedOrder_eq_ok (toOption_eq_some.mp horder)).1.symm⟩
      · refine hlater h fun k status hstatus => ?_
        rw [HashMap.lookup_erase_ite] at hstatus
        split_ifs at hstatus
        exact hstatus
    · exact hlater h fun _ _ hstatus => hstatus

/-- The coins that are dirty after diffs are those that were and those that the diffs name. -/
theorem AppliedAll.mem_dirtyCoins (h : AppliedAll ignoreSpot self diffs next) :
    c ∈ next.dirtyCoins ↔ c ∈ self.dirtyCoins ∨ Names ignoreSpot diffs c := by
  induction h with
  | nil =>
    rw [iff_self_or]
    rintro ⟨diff, hd, -⟩
    cases hd
  | @cons self mid last diff diffs first rest ih =>
    have hcons : Names ignoreSpot (diff :: diffs) c ↔
        (¬ Skipped ignoreSpot diff ∧ Coin.mk diff.coin = c) ∨ Names ignoreSpot diffs c := by
      simp [Names]
    rw [ih, hcons, ← or_assoc]
    apply or_congr_left
    cases first with
    | skipped hs => simp [hs]
    | opened kept => simp [kept, eq_comm, or_comm]
    | resized kept => simp [kept, eq_comm, or_comm]
    | removed kept => simp [kept, eq_comm, or_comm]

end BlockState

namespace OrderBookState

/-- From a state to the next only books of coins that the diffs name have changed, none of an ignored
coin has, and each that has is marked dirty. -/
structure TouchesNamed (s s' : OrderBookState) (diffs : List NodeDataOrderDiff) : Prop where
  named : ∀ c, (∀ diff ∈ diffs, Coin.mk diff.coin ≠ c) →
    s'.orderBook.lookup c = s.orderBook.lookup c
  ignored : s.ignoreSpot = true → ∀ c, c.isSpot = true →
    s'.orderBook.lookup c = s.orderBook.lookup c
  dirty : ∀ c, s'.orderBook.lookup c ≠ s.orderBook.lookup c → c ∈ s'.dirtyCoins

/-- Each order that the block opens is of a coin that the block names. -/
def OpensNamed (s : OrderBookState) (statuses : List NodeDataOrderStatus)
    (diffs : List NodeDataOrderDiff) : Prop :=
  ∀ diff ∈ diffs, ¬ BlockState.Skipped s.ignoreSpot diff →
    ∀ sz anchor, InnerOrderDiff.tryFrom diff.rawBookDiff = .ok (.new sz anchor) →
      ∀ status, (openingStatuses statuses).lookup diff.oid = some status →
        BlockState.Names s.ignoreSpot diffs ⟨status.order.coin⟩

/-- The orders that the block opens for a coin. -/
def opened (s : OrderBookState) (statuses : List NodeDataOrderStatus)
    (diffs : List NodeDataOrderDiff) (c : Coin) : List (InnerL4Order × Option Oid) :=
  BlockState.ofCoin c (BlockState.openings s.ignoreSpot (openingStatuses statuses) diffs)

/-- For each coin that it does not name the block opens no order, or one that leaves no trace in
the book of the coin. -/
def Harmless (s : OrderBookState) (statuses : List NodeDataOrderStatus)
    (diffs : List NodeDataOrderDiff) : Prop :=
  ∀ c, ¬ BlockState.Names s.ignoreSpot diffs c → s.opened statuses diffs c = [] ∨
    ∃ order anchor book, s.opened statuses diffs c = [(order, anchor)] ∧
      s.orderBook.lookup c = some book ∧ book.Inert order

theorem OpensNamed.harmless {s : OrderBookState} {statuses : List NodeDataOrderStatus}
    {diffs : List NodeDataOrderDiff} (h : s.OpensNamed statuses diffs) :
    s.Harmless statuses diffs := by
  intro c hc
  left
  rw [opened, BlockState.ofCoin, List.filter_eq_nil_iff]
  intro e he hcoin
  obtain ⟨diff, hdiff, kept, sz, anchor, kind, status, hstatus, hsame⟩ := BlockState.mem_openings he
  rw [of_decide_eq_true hcoin] at hsame
  exact hc (hsame ▸ h diff hdiff kept sz anchor kind status hstatus)

/-- A block that is applied touches only what it names where it keeps the books of all other
coins. -/
theorem touchesNamed_iff_keeps {s s' : OrderBookState} {diffs : List NodeDataOrderDiff}
    {orderMap : HashMap Oid NodeDataOrderStatus} {block : BlockState}
    (hall : BlockState.AppliedAll s.ignoreSpot ⟨s.orderBook, s.dirtyCoins, orderMap⟩ diffs block)
    (hbook : s'.orderBook = block.orderBook) (hdirty : s'.dirtyCoins = block.dirtyCoins) :
    s.TouchesNamed s' diffs ↔ ∀ c, ¬ BlockState.Names s.ignoreSpot diffs c →
      block.orderBook.lookup c = s.orderBook.lookup c := by
  rw [← hbook]
  constructor
  · intro h c hc
    by_cases hnamed : ∃ diff ∈ diffs, Coin.mk diff.coin = c
    · -- All diffs that name the coin are skipped, so it is ignored.
      obtain ⟨diff, hd, rfl⟩ := hnamed
      have hskipped : BlockState.Skipped s.ignoreSpot diff :=
        not_not.mp fun hs => hc ⟨diff, hd, hs, rfl⟩
      rw [BlockState.Skipped, Bool.and_eq_true] at hskipped
      exact h.ignored hskipped.2 _ hskipped.1
    · exact h.named c fun diff hd heq => hnamed ⟨diff, hd, heq⟩
  · intro hkeep
    refine ⟨fun c hc => hkeep c ?_, fun hspot c hc => hkeep c ?_, fun c hc => ?_⟩
    · rintro ⟨diff, hd, -, heq⟩
      exact hc diff hd heq
    · rintro ⟨diff, -, hs, rfl⟩
      apply hs
      rw [BlockState.Skipped, hc, hspot]
      rfl
    · rw [hdirty, hall.mem_dirtyCoins]
      by_contra hclean
      exact hc (hkeep c fun hn => hclean (.inr hn))

/-- One order leaves the book of a coin that the block does not name as it was exactly where it is
inert in it. -/
theorem keeps_iff_inert {s : OrderBookState} (hs : s.Made) {statuses : List NodeDataOrderStatus}
    {diffs : List NodeDataOrderDiff} {block : BlockState}
    (hall : BlockState.AppliedAll s.ignoreSpot
      ⟨s.orderBook, s.dirtyCoins, openingStatuses statuses⟩ diffs block) {c : Coin}
    (hc : ¬ BlockState.Names s.ignoreSpot diffs c) {order : InnerL4Order} {anchor : Option Oid}
    (hone : s.opened statuses diffs c = [(order, anchor)]) :
    block.orderBook.lookup c = s.orderBook.lookup c ↔
      ∃ book, s.orderBook.lookup c = some book ∧ book.Inert order := by
  have hdone := hall.accepts_of_not_names hc hone
  have hbook := hall.lookup_of_not_names hc
  rw [opened] at hone
  rw [hbook, hone]
  change some ((s.orderBook.book c).addOrderBefore order anchor).2 = _ ↔ _
  have hsound := (hs.built c).sound
  cases hlookup : s.orderBook.lookup c with
  | none => simp
  | some book =>
    have hsame : s.orderBook.book c = book := by rw [OrderBooks.book, hlookup, Option.getD_some]
    change ((s.orderBook.book c).addOrderBefore order anchor).1 = true at hdone
    rw [hsame] at hdone hsound ⊢
    rw [Option.some.injEq, OrderBook.addOrderBefore_eq_self_iff hsound hdone]
    simp

/-- A block that succeeds touches only the books that its diffs name where it is old or harmless, as
it is where each order that it opens is of a coin that it names. Where it opens at most one
order for each other coin, it touches another book in every other case. -/
theorem touches_named {s s' : OrderBookState} (hs : s.Made) {statuses : Batch NodeDataOrderStatus}
    {diffs : Batch NodeDataOrderDiff} (ok : s.applyUpdates statuses diffs = (s', .ok ())) :
    (s.OpensNamed statuses.events diffs.events → s.Harmless statuses.events diffs.events) ∧
    (statuses.blockNumber ≤ s.height ∨ s.Harmless statuses.events diffs.events →
      s.TouchesNamed s' diffs.events) ∧
    ((∀ c, ¬ BlockState.Names s.ignoreSpot diffs.events c →
        (s.opened statuses.events diffs.events c).length ≤ 1) →
      (s.TouchesNamed s' diffs.events ↔
        statuses.blockNumber ≤ s.height ∨ s.Harmless statuses.events diffs.events)) := by
  refine ⟨OpensNamed.harmless, ?_⟩
  cases applyUpdates_eq_ok_iff.mp ok with
  | old htime hsame hnext hold =>
    have htouches : s.TouchesNamed s diffs.events :=
      ⟨fun _ _ => rfl, fun _ _ _ => rfl, fun c hc => absurd rfl hc⟩
    exact ⟨fun _ => htouches, fun _ => iff_of_true htouches (.inl hold)⟩
  | @next time block htime hsame hwrap hheight hall =>
    have hnew : ¬ statuses.blockNumber ≤ s.height := by omega
    rw [or_iff_right hnew, touchesNamed_iff_keeps hall rfl rfl]
    have hnone : ∀ c, ¬ BlockState.Names s.ignoreSpot diffs.events c →
        s.opened statuses.events diffs.events c = [] →
        block.orderBook.lookup c = s.orderBook.lookup c := by
      intro c hc hopened
      rw [opened] at hopened
      rw [hall.lookup_of_not_names hc, hopened]
      rfl
    have hkeeps : s.Harmless statuses.events diffs.events →
        ∀ c, ¬ BlockState.Names s.ignoreSpot diffs.events c →
          block.orderBook.lookup c = s.orderBook.lookup c := by
      intro h c hc
      obtain hopened | ⟨order, anchor, book, hone, hinert⟩ := h c hc
      · exact hnone c hc hopened
      · exact (keeps_iff_inert hs hall hc hone).mpr ⟨book, hinert⟩
    refine ⟨hkeeps, fun hatMost => ⟨fun h c hc => ?_, hkeeps⟩⟩
    cases hopened : s.opened statuses.events diffs.events c with
    | nil => exact .inl rfl
    | cons e more =>
      have hlen := hatMost c hc
      rw [hopened] at hlen
      obtain rfl : more = [] := by simpa using hlen
      obtain ⟨book, hinert⟩ := (keeps_iff_inert hs hall hc hopened).mp (h c hc)
      exact .inr ⟨e.1, e.2, book, rfl, hinert⟩

/-- The order 7 is of the coin that its diff names. -/
theorem touches_named_order_seven :
    (fromSnapshot ∅ 100 0 true false).TouchesNamed restingSeven
      (diffsSeven 101 (.new "2" none)).events := by
  obtain ⟨hharmless, htouches, -⟩ :=
    touches_named (.fromSnapshot ∅ 100 0 true false) applyUpdates_restingSeven
  refine htouches (.inr (hharmless ?_))
  intro diff hdiff kept sz anchor kind status hstatus
  obtain rfl := List.mem_singleton.mp hdiff
  obtain rfl := List.mem_singleton.mp (mem_of_openingStatuses hstatus).1
  exact ⟨diffSeven (.new "2" none), List.mem_singleton_self _, kept, rfl⟩

/-- A status of ETH for the order 7. -/
def ethStatuses : Batch NodeDataOrderStatus :=
  ⟨⟨0⟩, ⟨0⟩, 101, [{ statusSeven with order := { statusSeven.order with coin := "ETH" } }], 0⟩

/-- A diff of BTC opens an order of ETH. -/
theorem foreign_order_rests :
    let s := fromSnapshot ∅ 100 0 true false
    let s' := (s.applyUpdates ethStatuses (diffsSeven 101 (.new "2" none))).1
    s.Made ∧ s.applyUpdates ethStatuses (diffsSeven 101 (.new "2" none)) = (s', .ok ()) ∧
      ¬ s.TouchesNamed s' (diffsSeven 101 (.new "2" none)).events := by
  intro s s'
  have hok : (s.applyUpdates ethStatuses (diffsSeven 101 (.new "2" none))).2 = .ok () := by
    decide +kernel
  refine ⟨.fromSnapshot ∅ 100 0 true false, by rw [← hok], fun h => ?_⟩
  have hnamed : ∀ diff ∈ (diffsSeven 101 (.new "2" none)).events,
      Coin.mk diff.coin ≠ ⟨"ETH"⟩ := by decide
  have hkeep := h.named ⟨"ETH"⟩ hnamed
  have hrests : (s'.orderBook.lookup ⟨"ETH"⟩).isSome = true := by decide +kernel
  have hnone : (s.orderBook.lookup ⟨"ETH"⟩).isSome = false := by decide +kernel
  rw [hkeep, hnone] at hrests
  cases hrests

end OrderBookState
end OrderBookServer
