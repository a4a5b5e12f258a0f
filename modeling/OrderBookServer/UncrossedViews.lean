import OrderBookServer.LevelGroups

/-!
# Books and views are never crossed

A book made by any calls has each bid below each ask. A view rounds bids down and asks
up, so a view of such a book is not crossed either, and neither is a view built from a
view, however many times it is built again.
-/
namespace OrderBookServer
open InnerOrder Rollup Ranked OrderBook

section

variable {O : Type} [InnerOrder O]

/-- The views of a book: cut from the book, or from a view of it. -/
inductive ViewOf (b : OrderBook O) : Snapshot InnerLevel → Prop
  | direct (nLevels : Option ℕ) {nSigFigs mantissa : Option ℕ} (h : Precision nSigFigs mantissa) :
      ViewOf b (b.toL2Snapshot nLevels nSigFigs mantissa)
  | again {view : Snapshot InnerLevel} (hview : ViewOf b view) (nLevels : Option ℕ)
      {nSigFigs mantissa : Option ℕ} (h : Precision nSigFigs mantissa) :
      ViewOf b (view.toL2Snapshot nLevels nSigFigs mantissa)

/-- The seven views kept of a book are views of it. -/
theorem ViewOf.of_mem_viewEntries {b : OrderBook O} {entry : L2SnapshotParams × Snapshot InnerLevel}
    (h : entry ∈ viewEntries b) : ViewOf b entry.2 := by
  have v := ViewOf.direct (b := b) none .full
  have v5 := v.again none (.figures (n := 5) (by decide))
  have v55 := v5.again none .five
  have v4 := v55.again none (.figures (n := 4) (by decide))
  have v3 := v4.again none (.figures (n := 3) (by decide))
  rw [viewEntries_eq] at h
  simp only [List.mem_cons, List.not_mem_nil, or_false] at h
  obtain rfl | rfl | rfl | rfl | rfl | rfl | rfl := h
  · exact v
  · exact v5
  · exact v5.again none .two
  · exact v55
  · exact v4
  · exact v3
  · exact v3.again none (.figures (n := 2) (by decide))

/-- A bucket is not ahead of the prices it takes in, and stays in range. -/
theorem Precision.bucket_le {nSigFigs mantissa : Option ℕ} (h : Precision nSigFigs mantissa)
    (x : Side) {px : ℕ} (hpx : px ≤ 10 ^ 19) :
    ¬ x.Before (bucket px x nSigFigs mantissa) px ∧ bucket px x nSigFigs mantissa ≤ 10 ^ 19 := by
  obtain ⟨c, hc⟩ := h.closure x
  obtain ⟨hbucket, hle⟩ := hc (rank x px) (by simpa using hpx)
  rw [rankedBucket, px_rank] at hbucket
  rw [← hbucket, px_rank] at hle
  refine ⟨fun hbefore => ?_, hle⟩
  have hlt : c (rank x px) < rank x px := hbucket ▸ rank_lt_rank.mpr hbefore
  exact absurd (c.le_closure (rank x px)) (not_le.mpr hlt)

/-- The price of each level of a view is the bucket of a level that it was built from. -/
theorem px_of_mem_l2Levels {levels : List InnerLevel} {x : Side}
    {nLevels nSigFigs mantissa : Option ℕ} {l : InnerLevel}
    (hl : l ∈ l2LevelsToL2Levels levels x nLevels nSigFigs mantissa) :
    ∃ l' ∈ levels, l.px = bucket l'.px x nSigFigs mantissa := by
  have hwhole : l ∈ l2LevelsToL2Levels levels x none nSigFigs mantissa := by
    cases nLevels with
    | none => exact hl
    | some k =>
      rw [l2LevelsToL2Levels_take] at hl
      exact List.mem_of_mem_take hl
  have hentry : entryOf x l ∈ viewEntriesOf x (l2LevelsToL2Levels levels x none nSigFigs mantissa) :=
    List.mem_map_of_mem hwhole
  rw [l2LevelsToL2Levels_eq_roll] at hentry
  obtain ⟨_, hd, _⟩ | ⟨e, he, hpx⟩ := fst_of_mem_roll none _ hentry
  · cases hd
  · obtain ⟨l', hl', rfl⟩ := List.mem_map.mp he
    refine ⟨l', hl', rank_injective x ?_⟩
    simpa [rankedBucket, entryOf] using hpx

/-- Each level is at the price of an order of the side or behind it. -/
def BehindOrders (b : OrderBook O) (x : Side) (levels : List InnerLevel) : Prop :=
  ∀ l ∈ levels, l.px ≤ 10 ^ 19 ∧ ∃ o ∈ b.orders x, ¬ x.Before l.px (limitPx o)

/-- Bucketing moves levels back only. -/
theorem BehindOrders.l2Levels {b : OrderBook O} {x : Side} {levels : List InnerLevel}
    (h : BehindOrders b x levels) (nLevels : Option ℕ) {nSigFigs mantissa : Option ℕ}
    (hprecision : Precision nSigFigs mantissa) :
    BehindOrders b x (l2LevelsToL2Levels levels x nLevels nSigFigs mantissa) := by
  intro l hl
  obtain ⟨l', hl', hpx⟩ := px_of_mem_l2Levels hl
  obtain ⟨hle, o, ho, hbehind⟩ := h l' hl'
  obtain ⟨hback, hrange⟩ := hprecision.bucket_le x hle
  rw [hpx]
  refine ⟨hrange, o, ho, ?_⟩
  cases x <;> simp only [Side.Before] at hback hbehind ⊢ <;> omega

theorem ViewOf.behindOrders {b : OrderBook O} (h : BookInv b)
    (hpx : ∀ x, ∀ o ∈ b.orders x, limitPx o ≤ 10 ^ 19) {view : Snapshot InnerLevel}
    (hview : ViewOf b view) (x : Side) : BehindOrders b x (view.orders x) := by
  induction hview with
  | direct nLevels hprecision =>
    rw [toL2Snapshot_eq]
    refine BehindOrders.l2Levels (fun l hl => ?_) nLevels hprecision
    obtain ⟨e, he, rfl⟩ := List.mem_map.mp hl
    obtain ⟨o, ho, hpo⟩ := exists_order_of_mem_entries h (mem_bestLevels.mp he)
    have hlevel : (levelOf e).px = limitPx o := hpo.symm
    rw [hlevel]
    exact ⟨hpx x o ho, o, ho, x.before_irrefl _⟩
  | again _ nLevels hprecision ih =>
    have hagain (view : Snapshot InnerLevel) (nSigFigs mantissa : Option ℕ) :
        (view.toL2Snapshot nLevels nSigFigs mantissa).orders x =
          l2LevelsToL2Levels (view.orders x) x nLevels nSigFigs mantissa := by
      cases x <;> rfl
    rw [hagain]
    exact ih.l2Levels nLevels hprecision

/-- Each bid level of a book is below each ask level, and so it is in each view of it. -/
theorem book_and_views_uncrossed {b : OrderBook O} (hb : Built b) :
    (∀ bid ∈ b.bids.entries, ∀ ask ∈ b.asks.entries, bid.1 < ask.1) ∧
      ((∀ x, ∀ o ∈ b.orders x, limitPx o ≤ 10 ^ 19) →
        (∀ view, ViewOf b view → ∀ bid ∈ view.bids, ∀ ask ∈ view.asks, bid.px < ask.px) ∧
          ∀ params view, (coinViews b).lookup params = some view → ViewOf b view) := by
  obtain ⟨hfiled, huncrossed⟩ := hb.sound
  refine ⟨fun bid hbid ask hask => ?_, fun hpx => ⟨fun view hview bid hbid ask hask => ?_, ?_⟩⟩
  · obtain ⟨o, ho, hpo⟩ := exists_order_of_mem_entries (x := .bid) hfiled hbid
    obtain ⟨o', ho', hpo'⟩ := exists_order_of_mem_entries (x := .ask) hfiled hask
    rw [← hpo, ← hpo']
    exact huncrossed o ho o' ho'
  · obtain ⟨-, o, ho, hbehind⟩ := hview.behindOrders hfiled hpx .bid bid hbid
    obtain ⟨-, o', ho', hbehind'⟩ := hview.behindOrders hfiled hpx .ask ask hask
    have hlt := huncrossed o ho o' ho'
    simp only [Side.Before] at hbehind hbehind'
    omega
  · intro params view hlookup
    exact ViewOf.of_mem_viewEntries ((lookup_coinViews b params view).mp hlookup)

end

/-- The view of two figures that is built from the one of four. -/
theorem book_and_views_uncrossed_adjacent :
    let b := (OrderBook.new.addOrder (MinimalOrder.new 1 30 12344 .bid)).addOrder
      (MinimalOrder.new 2 50 12345 .ask)
    let view := (b.toL2Snapshot none (some 4) none).toL2Snapshot none (some 2) none
    view = ⟨[⟨12000, 30, 1⟩], [⟨13000, 50, 1⟩]⟩ ∧
      ∀ bid ∈ view.bids, ∀ ask ∈ view.asks, bid.px < ask.px := by
  intro b view
  have hb : Built b := .addOrderBefore (.addOrderBefore .new _ none) _ none
  have hview : ViewOf b view :=
    (ViewOf.direct none (.figures (n := 4) (by decide))).again none (.figures (n := 2) (by decide))
  have hpx : ∀ x, ∀ o ∈ b.orders x, limitPx o ≤ 10 ^ 19 := by
    intro x
    cases x <;> decide
  exact ⟨by decide +kernel, ((book_and_views_uncrossed hb).2 hpx).1 view hview⟩

end OrderBookServer
