import OrderBookServer.RefusedDiffs

/-!
# New orders under an oid that rests

Only the list of one price level knows its oids, and only an insertion in front of an
anchor is refused because of them. So a New diff for an oid that rests passes in most
places. No diff before it in the block can have brought its oid to rest, so whether it is
detected is read off the books that the block finds, as far as its own diffs leave them.
-/
namespace OrderBookServer
open InnerOrder PriceTime

namespace BlockState
open OrderBook

variable {ignoreSpot : Bool} {start block : BlockState} {diff : NodeDataOrderDiff}
variable {before : List NodeDataOrderDiff}

/-- A New diff comes to an oid that rests in the book of its coin, and still does when the
order of the diff has been matched there. -/
structure Reopens (ignoreSpot : Bool) (block : BlockState) (diff : NodeDataOrderDiff) : Prop where
  kept : ¬ Skipped ignoreSpot diff
  opens : ∃ sz anchor, InnerOrderDiff.tryFrom diff.rawBookDiff = .ok (.new sz anchor) ∧
    (block.orderBook.book ⟨diff.coin⟩).Rests diff.oid ∧
    ∀ order ∈ block.incoming diff sz, order.coin = ⟨diff.coin⟩ →
      ((block.orderBook.book ⟨diff.coin⟩).matched order).Rests diff.oid

/-- Why a New diff for an oid that rests before the block is detected, or the oid no longer rests
where the loop comes to the diff: the block has removed the order; or has filled it, by the first
of its orders that bears on the book; or the order of the diff is anchored at the place where
the oid rests; or the books that the block finds refuse it. -/
inductive Detected (ignoreSpot : Bool) (start : BlockState) (before : List NodeDataOrderDiff)
    (diff : NodeDataOrderDiff) (sz : ℕ) (anchor : Option Oid) : Prop
  | removed {d : NodeDataOrderDiff} (hd : d ∈ before) (kept : ¬ Skipped ignoreSpot d)
      (kind : InnerOrderDiff.tryFrom d.rawBookDiff = .ok .remove) (coin : d.coin = diff.coin)
      (oid : d.oid = diff.oid) (one : (start.orderBook.book ⟨diff.coin⟩).OnePlace diff.oid)
  | filled {pre rest : List NodeDataOrderDiff} {d : NodeDataOrderDiff} {sz' : ℕ}
      {anchor' : Option Oid} {order : InnerL4Order} (split : before ++ [diff] = pre ++ d :: rest)
      (first : ∀ e ∈ pre, ¬ BearsOn ignoreSpot start.orderMap ⟨diff.coin⟩ e)
      (kept : ¬ Skipped ignoreSpot d)
      (kind : InnerOrderDiff.tryFrom d.rawBookDiff = .ok (.new sz' anchor'))
      (horder : order ∈ start.incoming d sz') (coin : order.coin = ⟨diff.coin⟩)
      (gone : ¬ ((start.orderBook.book ⟨diff.coin⟩).matched order).Rests diff.oid)
  | anchored {order : InnerL4Order} {a : Oid} (horder : order ∈ start.incoming diff sz)
      (hanchor : anchor = some a) (coin : order.coin = ⟨diff.coin⟩) (pos : 0 < order.sz)
      (place : ∀ v, (diff.oid, v) ∈ (start.orderBook.book ⟨diff.coin⟩).resting →
        v = (order.side, order.limitPx))
  | refused (hrefuses : Refuses ignoreSpot start diff)
      (hfirst : FirstToBear ignoreSpot start.orderMap before diff)

theorem Reopens.rests (h : Reopens ignoreSpot block diff) :
    ∃ v, (diff.oid, v) ∈ (block.orderBook.book ⟨diff.coin⟩).resting := by
  obtain ⟨sz, anchor, -, hrests, -⟩ := h.opens
  obtain ⟨⟨k, v⟩, hv, rfl⟩ := List.mem_map.mp hrests
  exact ⟨v, hv⟩

/-- Within the diffs of a block: the diffs before one, that one, and the diffs after it. -/
theorem AppliedAll.of_append_cons {pre rest : List NodeDataOrderDiff} {d : NodeDataOrderDiff}
    (h : AppliedAll ignoreSpot start (pre ++ d :: rest) block) (hbuilt : start.orderBook.Built)
    (hkeyed : start.Keyed) : ∃ mid next, AppliedAll ignoreSpot start pre mid ∧
      mid.orderBook.Built ∧ mid.Keyed ∧ Applied ignoreSpot mid d next ∧
      next.orderBook.Built ∧ next.Keyed ∧ AppliedAll ignoreSpot next rest block := by
  obtain ⟨mid, hpre, hrest⟩ := h.of_append
  obtain _ | ⟨first, hrest⟩ := hrest
  have hmid := hpre.built hbuilt
  have hmidKeyed := hpre.keyed hkeyed
  exact ⟨mid, _, hpre, hmid, hmidKeyed, first, (AppliedAll.cons first (.nil _)).built hmid,
    hmidKeyed.applied first, hrest⟩

variable {d : NodeDataOrderDiff} {status : NodeDataOrderStatus} {order : InnerL4Order} {sz : ℕ}
  {anchor : Option Oid}

/-- An oid with an opening status left, that a block has removed from its one place, does not
rest. -/
theorem AppliedAll.not_rests_of_removed (h : AppliedAll ignoreSpot start before block)
    (hbuilt : start.orderBook.Built) (hkeyed : start.Keyed) (hd : d ∈ before)
    (kept : ¬ Skipped ignoreSpot d) (kind : InnerOrderDiff.tryFrom d.rawBookDiff = .ok .remove)
    (one : (start.orderBook.book ⟨d.coin⟩).OnePlace d.oid)
    (hstatus : block.orderMap.lookup d.oid = some status) :
    ¬ (block.orderBook.book ⟨d.coin⟩).Rests d.oid := by
  obtain ⟨pre, rest, rfl⟩ := List.append_of_mem hd
  obtain ⟨mid, next, hpre, hmid, -, first, hnext, hnextKeyed, hrest⟩ :=
    h.of_append_cons hbuilt hkeyed
  have hopen := first.lookup_orderMap (hrest.lookup_orderMap hstatus)
  have hone : (mid.orderBook.book ⟨d.coin⟩).OnePlace d.oid := fun w w' hw hw' =>
    one w w' (hpre.rested hbuilt hkeyed hopen hw) (hpre.rested hbuilt hkeyed hopen hw')
  intro hrests
  obtain ⟨⟨k, v⟩, hv, rfl⟩ := List.mem_map.mp hrests
  have hleft := hrest.rested hnext hnextKeyed hstatus hv
  exact first.not_rests_of_removed hmid kept kind hone (rests_of_mem hleft)

/-- An oid with an opening status left does not rest where the first order of a block that bears
on its book has filled it. -/
theorem AppliedAll.not_rests_of_filled {pre rest : List NodeDataOrderDiff} {k : Oid}
    (h : AppliedAll ignoreSpot start (pre ++ d :: rest) block) (hbuilt : start.orderBook.Built)
    (hkeyed : start.Keyed) (first : ∀ e ∈ pre, ¬ BearsOn ignoreSpot start.orderMap order.coin e)
    (kept : ¬ Skipped ignoreSpot d)
    (kind : InnerOrderDiff.tryFrom d.rawBookDiff = .ok (.new sz anchor))
    (horder : order ∈ start.incoming d sz)
    (gone : ¬ ((start.orderBook.book order.coin).matched order).Rests k)
    (hstatus : block.orderMap.lookup k = some status) :
    ¬ (block.orderBook.book order.coin).Rests k := by
  obtain ⟨mid, next, hpre, hmid, hmidKeyed, hopened, hnext, hnextKeyed, hrest⟩ :=
    h.of_append_cons hbuilt hkeyed
  obtain ⟨opening, hopening, horder⟩ := mem_incoming.mp horder
  have hsame : ∀ status, mid.orderMap.lookup d.oid = some status →
      openedOrder status d sz = .ok order := by
    intro status hmidStatus
    cases (hpre.lookup_orderMap hmidStatus).symm.trans hopening
    exact horder
  intro hrests
  obtain ⟨⟨k, v⟩, hv, rfl⟩ := List.mem_map.mp hrests
  have hkept := hrest.rested hnext hnextKeyed hstatus hv
  obtain hnone | hstays := hopened.rests_of_opened hmid hmidKeyed kept kind hsame hkept
  · cases hnone.symm.trans (hrest.lookup_orderMap hstatus)
  · rw [hpre.book_eq first] at hstays
    exact gone hstays

/-- A diff does not reopen an oid that its own order fills, where no diff before it bears on the
book. -/
theorem AppliedAll.not_reopens_of_filled (h : AppliedAll ignoreSpot start before block)
    (first : ∀ e ∈ before, ¬ BearsOn ignoreSpot start.orderMap ⟨diff.coin⟩ e)
    (kind : InnerOrderDiff.tryFrom diff.rawBookDiff = .ok (.new sz anchor))
    (horder : order ∈ start.incoming diff sz) (coin : order.coin = ⟨diff.coin⟩)
    (gone : ¬ ((start.orderBook.book ⟨diff.coin⟩).matched order).Rests diff.oid)
    (hstatus : block.orderMap.lookup diff.oid = some status) :
    ¬ Reopens ignoreSpot block diff := by
  intro hreopens
  obtain ⟨_, _, kind', -, hstays⟩ := hreopens.opens
  cases kind.symm.trans kind'
  obtain ⟨opening, hopening, horder⟩ := mem_incoming.mp horder
  cases (h.lookup_orderMap hstatus).symm.trans hopening
  have hstill := hstays order (mem_incoming.mpr ⟨status, hstatus, horder⟩) coin
  rw [h.book_eq first] at hstill
  exact gone hstill

/-- An order that is anchored at the place where its oid rests is refused. -/
theorem AppliedAll.refuses_of_anchored (h : AppliedAll ignoreSpot start before block)
    (hbuilt : start.orderBook.Built) (hkeyed : start.Keyed) {a : Oid} {v : Side × ℕ}
    (kept : ¬ Skipped ignoreSpot diff)
    (kind : InnerOrderDiff.tryFrom diff.rawBookDiff = .ok (.new sz (some a)))
    (horder : order ∈ start.incoming diff sz) (coin : order.coin = ⟨diff.coin⟩)
    (pos : 0 < order.sz)
    (place : ∀ v, (diff.oid, v) ∈ (start.orderBook.book ⟨diff.coin⟩).resting →
      v = (order.side, order.limitPx))
    (hstatus : block.orderMap.lookup diff.oid = some status)
    (hv : (diff.oid, v) ∈ (block.orderBook.book ⟨diff.coin⟩).resting) :
    Refuses ignoreSpot block diff := by
  obtain ⟨opening, hopening, horder⟩ := mem_incoming.mp horder
  cases (h.lookup_orderMap hstatus).symm.trans hopening
  have hplace := place v (h.rested hbuilt hkeyed hstatus hv)
  have hoid : order.oid = diff.oid :=
    (openedOrder_eq_ok horder).2.1.trans (hkeyed _ _ hopening)
  have hrests : ident order ∈ (block.orderBook.book order.coin).resting := by
    rw [coin]
    rw [hplace, ← hoid] at hv
    exact hv
  refine ⟨kept, ?_⟩
  rw [kind]
  exact .order hstatus horder
    (refuses_of_rests (h.built hbuilt order.coin).sound a pos hrests)

theorem Detected.refuses (h : Detected ignoreSpot start before diff sz anchor)
    (hall : AppliedAll ignoreSpot start before block) (hbuilt : start.orderBook.Built)
    (hkeyed : start.Keyed) (kind : InnerOrderDiff.tryFrom diff.rawBookDiff = .ok (.new sz anchor))
    (hreopens : Reopens ignoreSpot block diff) : Refuses ignoreSpot block diff := by
  obtain ⟨v, hv⟩ := hreopens.rests
  have hrests := rests_of_mem hv
  cases hblock : block.orderMap.lookup diff.oid with
  | none =>
    refine ⟨hreopens.kept, ?_⟩
    rw [kind]
    exact .unopened hblock
  | some status =>
    cases h with
    | removed hd kept hremove coin oid one =>
      rw [← coin, ← oid] at one hrests
      exact absurd hrests
        (hall.not_rests_of_removed hbuilt hkeyed hd kept hremove one (oid ▸ hblock))
    | @filled pre rest d sz' anchor' order split first kept hnew horder coin gone =>
      obtain rfl | ⟨rest, last, rfl⟩ := List.eq_nil_or_concat rest
      · -- The order of the diff itself fills the one that rests.
        obtain ⟨rfl, heq⟩ := List.append_inj' split rfl
        cases heq
        exact absurd hreopens (hall.not_reopens_of_filled first hnew horder coin gone hblock)
      · rw [List.concat_eq_append, ← List.cons_append, ← List.append_assoc] at split
        obtain ⟨rfl, -⟩ := List.append_inj' split rfl
        rw [← coin] at first gone hrests
        exact absurd hrests
          (hall.not_rests_of_filled hbuilt hkeyed first kept hnew horder gone hblock)
    | anchored horder hanchor coin pos place =>
      exact hall.refuses_of_anchored hbuilt hkeyed hreopens.kept (hanchor ▸ kind) horder coin pos
        place hblock hv
    | refused hrefuses hfirst => exact (hall.refuses_iff hfirst).mpr hrefuses

end BlockState
namespace OrderBookState
open OrderBook

variable {s : OrderBookState} {statuses : Batch NodeDataOrderStatus}
variable {diffs : Batch NodeDataOrderDiff} {block : BlockState} {diff : NodeDataOrderDiff}

/-- The loop over the diffs of the next block is entered. -/
structure Enters (s : OrderBookState) (statuses : Batch NodeDataOrderStatus)
    (diffs : Batch NodeDataOrderDiff) : Prop where
  time : ∃ time, statuses.blockTimeMillis = some time
  same : statuses.blockNumber = diffs.blockNumber
  next : statuses.blockNumber = U64.wrappingAdd s.height 1
  new : s.height < statuses.blockNumber

/-- What the loop over the diffs of a block begins with. -/
def blockStart (s : OrderBookState) (statuses : Batch NodeDataOrderStatus) : BlockState :=
  ⟨s.orderBook, s.dirtyCoins, openingStatuses statuses.events⟩

/-- The loop over the diffs of the next block comes to `diff`, `block` being what the diffs before
it made. -/
structure Reaches (s : OrderBookState) (statuses : Batch NodeDataOrderStatus)
    (diffs : Batch NodeDataOrderDiff) (block : BlockState) (diff : NodeDataOrderDiff) : Prop where
  enters : s.Enters statuses diffs
  reached : ∃ before after, diffs.events = before ++ diff :: after ∧
    BlockState.AppliedAll s.ignoreSpot (s.blockStart statuses) before block

end OrderBookState
end OrderBookServer
