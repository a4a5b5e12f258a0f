import OrderBookServer.BookInvariant
import OrderBookServer.PriorityMatching

/-!
# Runs of a book

Books built by any calls whatever: orders may be added again while they rest, calls
may fail, and snapshots need not be consistent. Both sides of such a book are still
filed, in price-time priority, and never cross. An insert that is refused leaves the
book alone unless the order has traded before.
-/
namespace OrderBookServer
open InnerOrder PriceTime

variable {O : Type} [InnerOrder O]

namespace PriceTime

/-! ### Lists in priority order -/

/-- What a taker is left with, and what it leaves, in a list of makers. -/
theorem sz_fillMakers (t : O) (ms : List O) : sz (fillMakers t ms).1 =
    sz t - ((ms.takeWhile fun m => (side t).Matches (limitPx t) (limitPx m)).map sz).sum := by
  induction ms generalizing t with
  | nil => rfl
  | cons m ms ih =>
    have hmaker := sz_maker t m
    have htaker := sz_taker t m
    by_cases hc : (side t).Matches (limitPx t) (limitPx m)
    · simp only [fillMakers, List.takeWhile_cons, hc, if_true, decide_true, List.map_cons,
        List.sum_cons]
      split_ifs with hz ht
      · show sz (taker t m) = _
        omega
      · rw [ih, side_taker, limitPx_taker, htaker, Nat.sub_add_eq]
      · show sz (taker t m) = _
        omega
    · simp [fillMakers, hc]

/-- A taker with size left has filled every maker it crosses. -/
theorem fillMakers_of_pos {t : O} {ms : List O} (h : 0 < sz (fillMakers t ms).1) :
    (fillMakers t ms).2.2 = ms.dropWhile fun m => (side t).Matches (limitPx t) (limitPx m) := by
  induction ms generalizing t with
  | nil => rfl
  | cons m ms ih =>
    by_cases hc : (side t).Matches (limitPx t) (limitPx m)
    · simp only [fillMakers, if_pos hc] at h ⊢
      simp only [List.dropWhile_cons, hc, decide_true, if_true]
      by_cases hz : sz (maker t m) = 0
      · by_cases ht : sz (taker t m) = 0
        · rw [if_pos hz, if_pos ht] at h
          exact absurd ht h.ne'
        · rw [if_pos hz, if_neg ht] at h ⊢
          have hrest := ih h
          rwa [side_taker, limitPx_taker] at hrest
      · have ht : sz (taker t m) = 0 := (fill_exhausts t m).resolve_left hz
        rw [if_neg hz] at h
        exact absurd ht h.ne'
    · simp [fillMakers, hc]

/-- A taker that crosses no maker is left as it is. -/
theorem fillMakers_of_no_match {t : O} {ms : List O}
    (h : ∀ m ∈ ms, ¬ (side t).Matches (limitPx t) (limitPx m)) : fillMakers t ms = (t, [], ms) := by
  cases ms with
  | nil => rfl
  | cons m ms => simp [fillMakers, h m List.mem_cons_self]

theorem mem_rest {anchor : Option Oid} {t o : O} {os : List O} (h : o ∈ (rest anchor t os).2) :
    o = t ∨ o ∈ os := by
  cases anchor with
  | none =>
    simp only [rest] at h
    split_ifs at h
    · exact .inr h
    · simp only [restBack, List.mem_append, List.mem_cons] at h
      obtain h | h | h | h := h
      · exact .inr (List.mem_of_mem_filter h)
      · exact .inr (List.mem_of_mem_filter h)
      · exact .inl h
      · exact .inr (List.mem_of_mem_filter h)
  | some before =>
    simp only [rest] at h
    split_ifs at h
    · exact .inr h
    · simp only [restBefore, List.mem_append, List.mem_cons] at h
      obtain h | h | h | h | h := h
      · exact .inr (List.mem_of_mem_filter h)
      · exact .inr (List.mem_of_mem_filter ((List.takeWhile_sublist _).subset h))
      · exact .inl h
      · exact .inr (List.mem_of_mem_filter ((List.dropWhile_sublist _).subset h))
      · exact .inr (List.mem_of_mem_filter h)

theorem rest_fst_eq_false {anchor : Option Oid} {t : O} {os : List O} :
    (rest anchor t os).1 = false ↔ ∃ before, anchor = some before ∧
      (oid t ∈ (atPrice (limitPx t) os).map oid ∨ before ∉ (atPrice (limitPx t) os).map oid) := by
  cases anchor with
  | none => simp [rest]
  | some before =>
    simp only [rest, Option.some.injEq, exists_eq_left']
    split_ifs with h
    · exact iff_of_true rfl h
    · exact iff_of_false (by simp) h

theorem rest_of_refused {anchor : Option Oid} {t : O} {os : List O}
    (h : (rest anchor t os).1 = false) : (rest anchor t os).2 = os := by
  obtain ⟨before, rfl, hr⟩ := rest_fst_eq_false.mp h
  simp only [rest, if_pos hr]

theorem place_fst (anchor : Option Oid) (o : O) (s : Snapshot O) : (place anchor o s).1 =
    if 0 < sz (fillMakers o (s.orders (side o).opposite)).1 then
      (rest anchor (fillMakers o (s.orders (side o).opposite)).1 (s.orders (side o))).1
    else true := by
  unfold place
  simp only [Snapshot.orders_opposite_setOrders]
  split_ifs <;> rfl

/-- No bid is priced at or above an ask. -/
def Uncrossed (s : Snapshot O) : Prop :=
  ∀ bid ∈ s.bids, ∀ ask ∈ s.asks, limitPx bid < limitPx ask

theorem uncrossed_iff (x : Side) {s : Snapshot O} : Uncrossed s ↔
    ∀ o ∈ s.orders x, ∀ m ∈ s.orders x.opposite, ¬ x.Matches (limitPx o) (limitPx m) := by
  cases x with
  | bid => simp only [Uncrossed, Snapshot.orders, Side.opposite, Side.Matches, not_le]
  | ask =>
    simp only [Uncrossed, Snapshot.orders, Side.opposite, Side.Matches, not_le]
    exact ⟨fun h ask ha bid hb => h bid hb ask ha, fun h bid hb ask ha => h ask ha bid hb⟩

/-- Placing an order does not cross the book: what rests of it has no maker left that
it crosses. -/
theorem place_uncrossed {s : Snapshot O} (anchor : Option Oid) (o : O)
    (hs : Sorted (side o).opposite (s.orders (side o).opposite)) (h : Uncrossed s) :
    Uncrossed (place anchor o s).2 := by
  obtain ⟨hopp, hown⟩ := place_orders anchor o s
  rw [uncrossed_iff (side o)] at h ⊢
  rw [hopp, hown]
  have hkept : ∀ m ∈ (fillMakers o (s.orders (side o).opposite)).2.2,
      ∃ m' ∈ s.orders (side o).opposite, limitPx m' = limitPx m := by
    intro m hm
    have hident : ident m ∈ (s.orders (side o).opposite).map ident := by
      rw [← fillMakers_ident o, List.mem_append]
      exact .inr (List.mem_map_of_mem hm)
    obtain ⟨m', hm', he⟩ := List.mem_map.mp hident
    exact ⟨m', hm', congrArg (fun i => i.2.2) he⟩
  intro o' ho' m hm
  split_ifs at ho' with hz
  · obtain rfl | ho' := mem_rest ho'
    · rw [fillMakers_of_pos hz, (takeWhile_eq_filter limitPx (limitPx o) hs).2, List.mem_filter] at hm
      rw [fillMakers_taker_limitPx]
      simpa using hm.2
    · obtain ⟨m', hm', he⟩ := hkept m hm
      rw [← he]
      exact h o' ho' m' hm'
  · obtain ⟨m', hm', he⟩ := hkept m hm
    rw [← he]
    exact h o' ho' m' hm'

end PriceTime

/-- The orders of a side are in priority order. -/
theorem SideInv.sorted {x : Side} {map : Levels O} (h : SideInv x map) :
    Sorted x (sideOrders x map) := by
  rw [Sorted, sideOrders, flat, List.pairwise_flatMap]
  have hpx {e : ℕ × LinkedList Oid O} (he : e ∈ bestLevels x map) {o : O} (ho : o ∈ e.2.toVec) :
      limitPx o = e.1 := by
    obtain ⟨n, hn, rfl⟩ := List.mem_map.mp ho
    exact (h.filed e (mem_bestLevels.mp he) n hn).1
  constructor
  · intro e he
    refine List.pairwise_of_forall_mem_list fun a ha b hb => ?_
    rw [hpx he ha, hpx he hb]
    exact x.before_irrefl e.1
  · refine (bestLevels_pairwise x map).imp_of_mem fun {e f} he hf hbefore a ha b hb => ?_
    rw [hpx he ha, hpx hf hb]
    exact hbefore.asymm

namespace OrderBook

/-! ### Any run -/

/-- A book made by any calls, on the empty book or on one read from a snapshot. -/
inductive Built : OrderBook O → Prop
  | new : Built new
  | fromSnapshot (snapshot : Snapshot O) (ignoreTriggers : Bool) :
      Built (fromSnapshot snapshot ignoreTriggers)
  | addOrderBefore {b : OrderBook O} (h : Built b) (o : O) (anchor : Option Oid) :
      Built (b.addOrderBefore o anchor).2
  | cancelOrder {b : OrderBook O} (h : Built b) (k : Oid) : Built (b.cancelOrder k).2
  | modifySz {b : OrderBook O} (h : Built b) (k : Oid) (s : ℕ) : Built (b.modifySz k s).2

/-- What holds of every book. -/
structure Sound (b : OrderBook O) : Prop where
  filed : BookInv b
  uncrossed : Uncrossed b.toSnapshot

namespace Sound

theorem new : Sound (OrderBook.new : OrderBook O) :=
  ⟨BookInv.new, fun _ hb => by simp [toSnapshot, OrderBook.new, BTreeMap.empty] at hb⟩

theorem sorted {b : OrderBook O} (h : Sound b) (x : Side) : Sorted x (b.orders x) := by
  rw [orders_eq]
  exact (h.filed x).sorted

theorem addOrderBefore {b : OrderBook O} (h : Sound b) (o : O) (anchor : Option Oid) :
    Sound (b.addOrderBefore o anchor).2 := by
  obtain ⟨hspec, hfiled⟩ := addOrderBefore_spec h.filed o anchor
  refine ⟨hfiled, ?_⟩
  rw [show (b.addOrderBefore o anchor).2.toSnapshot = (place anchor o b.toSnapshot).2 from
    congrArg Prod.snd hspec]
  exact place_uncrossed anchor o (h.sorted _) h.uncrossed

/-- A book whose orders have the prices of an uncrossed one is uncrossed. -/
theorem uncrossed_of_prices {b b' : OrderBook O} (h : Uncrossed b.toSnapshot)
    (hp : ∀ x, ∀ o ∈ b'.orders x, ∃ o' ∈ b.orders x, limitPx o' = limitPx o) :
    Uncrossed b'.toSnapshot := by
  intro bid hbid ask hask
  obtain ⟨bid', hbid', heb⟩ := hp .bid bid hbid
  obtain ⟨ask', hask', hea⟩ := hp .ask ask hask
  rw [← heb, ← hea]
  exact h bid' hbid' ask' hask'

theorem cancelOrder {b : OrderBook O} (h : Sound b) (k : Oid) : Sound (b.cancelOrder k).2 := by
  cases hl : b.oidToSidePx.lookup k with
  | none => rwa [cancelOrder_of_lookup_none hl]
  | some v =>
    obtain ⟨-, hsnap, -, hfiled⟩ := cancelOrder_of_lookup h.filed hl
    refine ⟨hfiled, uncrossed_of_prices h.uncrossed fun x o ho => ⟨o, ?_, rfl⟩⟩
    rw [orders, hsnap] at ho
    by_cases hx : x = v.1
    · subst hx
      rw [Snapshot.orders_setOrders] at ho
      exact List.mem_of_mem_filter ho
    · obtain rfl := Side.ne_iff_eq_opposite.mp hx
      rwa [Snapshot.orders_setOrders_opposite] at ho

theorem modifySz {b : OrderBook O} (h : Sound b) (k : Oid) (s : ℕ) : Sound (b.modifySz k s).2 := by
  cases hl : b.oidToSidePx.lookup k with
  | none => rwa [modifySz_of_lookup_none s hl]
  | some v =>
    obtain ⟨-, hsnap, -, hfiled⟩ := modifySz_of_lookup h.filed s hl
    refine ⟨hfiled, uncrossed_of_prices h.uncrossed fun x o ho => ?_⟩
    rw [orders, hsnap] at ho
    by_cases hx : x = v.1
    · subst hx
      rw [Snapshot.orders_setOrders, resize, List.mem_map] at ho
      obtain ⟨o', ho', rfl⟩ := ho
      refine ⟨o', ho', ?_⟩
      split_ifs <;> simp
    · obtain rfl := Side.ne_iff_eq_opposite.mp hx
      rw [Snapshot.orders_setOrders_opposite] at ho
      exact ⟨o, ho, rfl⟩

theorem addOrders {b : OrderBook O} (h : Sound b) (os : List O) : Sound (os.foldl addOrder b) := by
  induction os generalizing b with
  | nil => exact h
  | cons o os ih => exact ih (h.addOrderBefore o none)

end Sound

theorem Built.sound {b : OrderBook O} (h : Built b) : Sound b := by
  induction h with
  | new => exact .new
  | fromSnapshot snapshot ignoreTriggers => exact (Sound.new.addOrders _).addOrders _
  | addOrderBefore _ o anchor ih => exact ih.addOrderBefore o anchor
  | cancelOrder _ k ih => exact ih.cancelOrder k
  | modifySz _ k s ih => exact ih.modifySz k s

/-! ### Refused inserts -/

/-- A book is determined by its two lists and its index. -/
theorem BookInv.ext {b b' : OrderBook O} (h : BookInv b) (h' : BookInv b')
    (hindex : b.oidToSidePx = b'.oidToSidePx) (horders : ∀ x, b.orders x = b'.orders x) : b = b' := by
  refine ext_levels hindex fun x => (h x).ext (h' x) ?_
  rw [← orders_eq, ← orders_eq, horders x]

/-- Books of one index with the same orders on a side and opposite it are one book. -/
theorem BookInv.ext_side {b b' : OrderBook O} (h : BookInv b) (h' : BookInv b')
    (hindex : b.oidToSidePx = b'.oidToSidePx) (x : Side) (hown : b.orders x = b'.orders x)
    (hopp : b.orders x.opposite = b'.orders x.opposite) : b = b' := by
  refine BookInv.ext h h' hindex fun y => ?_
  by_cases hy : y = x
  · rw [hy, hown]
  · rw [Side.ne_iff_eq_opposite.mp hy, hopp]

/-- The makers that an order crosses, best first. -/
def crossedBy (b : OrderBook O) (o : O) : List O :=
  (b.orders (side o).opposite).filter fun m => (side o).Matches (limitPx o) (limitPx m)

/-- What is left of an order may rest: it has no anchor, or the anchor is at its price
and the oid is not. -/
def Accepts (b : OrderBook O) (o : O) : Option Oid → Prop
  | none => True
  | some before => oid o ∉ (atPrice (limitPx o) (b.orders (side o))).map oid ∧
      before ∈ (atPrice (limitPx o) (b.orders (side o))).map oid

/-- An insert is refused exactly where something is left of the order and may not rest. -/
theorem addOrderBefore_refused {b : OrderBook O} (h : Sound b) (o : O) (anchor : Option Oid) :
    (b.addOrderBefore o anchor).1 = false ↔
      ((b.crossedBy o).map sz).sum < sz o ∧ ¬ Accepts b o anchor := by
  have hok : (b.addOrderBefore o anchor).1 = (place anchor o b.toSnapshot).1 :=
    congrArg Prod.fst (addOrderBefore_spec h.filed o anchor).1
  have hsize := sz_fillMakers o (b.orders (side o).opposite)
  rw [(takeWhile_eq_filter limitPx (limitPx o) (h.sorted (side o).opposite)).1] at hsize
  change _ = sz o - ((b.crossedBy o).map sz).sum at hsize
  rw [hok, place_fst]
  change (if 0 < sz (fillMakers o (b.orders (side o).opposite)).1 then
    (rest anchor (fillMakers o (b.orders (side o).opposite)).1 (b.orders (side o))).1 else true) = _ ↔ _
  split_ifs with hz
  · have hlt : ((b.crossedBy o).map sz).sum < sz o := by omega
    rw [rest_fst_eq_false, fillMakers_taker_oid, fillMakers_taker_limitPx]
    cases anchor with
    | none => simp [Accepts]
    | some before => simp [Accepts, hlt, imp_iff_not_or]
  · have hle : ¬ ((b.crossedBy o).map sz).sum < sz o := by omega
    simp [hle]

/-- A refused insert that crosses nothing leaves the book as it was. -/
theorem addOrderBefore_eq_self {b : OrderBook O} (h : Sound b) {o : O} {anchor : Option Oid}
    (hrefused : (b.addOrderBefore o anchor).1 = false) (hnone : b.crossedBy o = []) :
    (b.addOrderBefore o anchor).2 = b := by
  have hfill : fillMakers o (b.orders (side o).opposite) = (o, [], b.orders (side o).opposite) := by
    apply fillMakers_of_no_match
    simpa [crossedBy] using hnone
  obtain ⟨hopp, hown⟩ := orders_addOrderBefore h.filed o anchor
  have hindex := addOrderBefore_index h.filed o anchor
  rw [addOrderBefore_refused h] at hrefused
  obtain ⟨hlt, hnot⟩ := hrefused
  have hrest : (rest anchor o (b.orders (side o))).1 = false := by
    rw [rest_fst_eq_false]
    cases anchor with
    | none => exact absurd trivial hnot
    | some before => simpa [Accepts, imp_iff_not_or] using hnot
  simp only [hfill] at hopp hown hindex
  rw [rest_of_refused hrest, ite_self] at hown
  rw [if_neg (by simp [hrest]), List.map_nil, List.foldl_nil] at hindex
  refine BookInv.ext (addOrderBefore_spec h.filed o anchor).2 h.filed hindex fun x => ?_
  by_cases hx : x = side o
  · rw [hx, hown]
  · rw [Side.ne_iff_eq_opposite.mp hx, hopp]

/-- An insert that is refused leaves the book as it was, unless makers that it crosses
were filled before what is left of it was refused. -/
theorem refused_insert_changes_nothing_iff {b : OrderBook O} (hb : Built b) (o : O)
    (anchor : Option Oid) :
    ((b.addOrderBefore o anchor).1 = false → (b.addOrderBefore o anchor).2 = b) ↔
      b.crossedBy o = [] ∨ sz o ≤ ((b.crossedBy o).map sz).sum ∨ Accepts b o anchor := by
  have h := hb.sound
  constructor
  · intro hsame
    by_contra hnot
    rw [not_or, not_or, not_le] at hnot
    obtain ⟨hcross, hlt, hrefuse⟩ := hnot
    have heq := hsame ((addOrderBefore_refused h o anchor).mpr ⟨hlt, hrefuse⟩)
    -- All makers that cross are gone, so the other side has become shorter.
    have hpos : 0 < sz (fillMakers o (b.orders (side o).opposite)).1 := by
      rw [sz_fillMakers, (takeWhile_eq_filter limitPx (limitPx o) (h.sorted (side o).opposite)).1]
      exact Nat.sub_pos_of_lt hlt
    have hopp := (orders_addOrderBefore h.filed o anchor).1
    rw [heq, fillMakers_of_pos hpos,
      (takeWhile_eq_filter limitPx (limitPx o) (h.sorted (side o).opposite)).2] at hopp
    apply hcross
    rw [crossedBy, hopp, List.filter_filter, List.filter_eq_nil_iff]
    simp
  · intro hcond hrefused
    obtain ⟨hlt, hnot⟩ := (addOrderBefore_refused h o anchor).mp hrefused
    exact addOrderBefore_eq_self h hrefused ((hcond.resolve_right (by
      rw [not_or]
      exact ⟨not_le.mpr hlt, hnot⟩)))

/-- A bid for 50 at 5 fills an ask of 30 and is then refused: its anchor does not rest. -/
theorem refused_insert_fills_maker :
    let b := OrderBook.new.addOrder (MinimalOrder.new 1 30 5 .ask)
    let o := MinimalOrder.new 2 50 5 .bid
    Built b ∧ (b.addOrderBefore o (some 9)).1 = false ∧ (b.addOrderBefore o (some 9)).2 ≠ b := by
  intro b o
  refine ⟨.addOrderBefore .new _ none, by decide, fun h => ?_⟩
  have hasks : (b.addOrderBefore o (some 9)).2.asks = b.asks := congrArg OrderBook.asks h
  revert hasks
  decide

theorem refused_insert_changes_nothing_iff_bid :
    let b := OrderBook.new.addOrder (MinimalOrder.new 1 30 5 .ask)
    let o := MinimalOrder.new 2 50 4 .bid
    (b.addOrderBefore o (some 9)).1 = false ∧ (b.addOrderBefore o (some 9)).2 = b := by
  intro b o
  have hb : Built b := .addOrderBefore .new _ none
  have hfalse : (b.addOrderBefore o (some 9)).1 = false := by decide
  exact ⟨hfalse, (refused_insert_changes_nothing_iff hb o (some 9)).mpr (.inl (by decide)) hfalse⟩

end OrderBook
end OrderBookServer
