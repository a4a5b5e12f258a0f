import OrderBookServer.BookState

/-!
# The books of some coins

The books of some coins, kept aside, go through the same blocks as the books of all
coins when each block is given with the events of the other coins left out. The one
thing relied on is that statuses and diffs of one oid name one coin: the statuses of
a block are looked up by oid whatever the coin.
-/
namespace OrderBookServer

/-- Statuses and diffs that share an oid name the same coin. -/
def SameCoins (statuses : NodeDataOrderStatus → Prop) (diffs : NodeDataOrderDiff → Prop) : Prop :=
  ∀ status diff, statuses status → diffs diff → status.order.oid = diff.oid →
    status.order.coin = diff.coin

/-! ### Books -/

section Books

variable {keep : Coin → Bool}

namespace OrderBooks

variable {O : Type} [InnerOrder O] (books : OrderBooks O)

/-- An order that is kept is added alike. -/
theorem addOrderBefore_restrict {order : O} (anchor : Option Oid)
    (h : keep (InnerOrder.coin order) = true) :
    OrderBooks.addOrderBefore (HashMap.restrict keep books) order anchor =
      ((books.addOrderBefore order anchor).1, HashMap.restrict keep (books.addOrderBefore order anchor).2) := by
  have hbook : OrderBooks.book (HashMap.restrict keep books) (InnerOrder.coin order) =
      books.book (InnerOrder.coin order) := by
    rw [OrderBooks.book, HashMap.lookup_restrict, if_pos h]
    rfl
  refine Prod.ext ?_ (Finmap.ext_lookup fun coin => ?_)
  · rw [OrderBooks.addOrderBefore, hbook]
    rfl
  · rw [OrderBooks.lookup_addOrderBefore, hbook, HashMap.lookup_restrict,
      HashMap.lookup_restrict, OrderBooks.lookup_addOrderBefore]
    by_cases hc : coin = InnerOrder.coin order
    · subst hc
      rw [if_pos rfl, if_pos h, if_pos rfl]
    · rw [if_neg hc, if_neg hc]

/-- An order that is not kept is not seen. -/
theorem restrict_addOrderBefore {order : O} (anchor : Option Oid)
    (h : ¬ keep (InnerOrder.coin order) = true) :
    HashMap.restrict keep (books.addOrderBefore order anchor).2 = HashMap.restrict keep books := by
  refine HashMap.restrict_congr fun coin hc => ?_
  rw [OrderBooks.lookup_addOrderBefore, if_neg]
  rintro rfl
  exact h hc

omit [InnerOrder O] in
theorem cancelOrder_restrict (oid : Oid) {coin : Coin} (h : keep coin = true) :
    OrderBooks.cancelOrder (HashMap.restrict keep books) oid coin =
      ((books.cancelOrder oid coin).1, HashMap.restrict keep (books.cancelOrder oid coin).2) := by
  refine Prod.ext ?_ (Finmap.ext_lookup fun c => ?_)
  · rw [OrderBooks.cancelOrder, OrderBooks.cancelOrder, HashMap.lookup_restrict, if_pos h]
    cases books.lookup coin <;> rfl
  · rw [OrderBooks.lookup_cancelOrder, HashMap.lookup_restrict, HashMap.lookup_restrict,
      HashMap.lookup_restrict, OrderBooks.lookup_cancelOrder]
    by_cases hc : c = coin
    · subst hc
      rw [if_pos rfl, if_pos h, if_pos h, if_pos rfl]
    · rw [if_neg hc, if_neg hc]

omit [InnerOrder O] in
theorem restrict_cancelOrder (oid : Oid) {coin : Coin} (h : ¬ keep coin = true) :
    HashMap.restrict keep (books.cancelOrder oid coin).2 = HashMap.restrict keep books := by
  refine HashMap.restrict_congr fun c hc => ?_
  rw [OrderBooks.lookup_cancelOrder, if_neg]
  rintro rfl
  exact h hc

theorem modifySz_restrict (oid : Oid) (sz : ℕ) {coin : Coin}
    (h : keep coin = true) :
    OrderBooks.modifySz (HashMap.restrict keep books) oid coin sz =
      ((books.modifySz oid coin sz).1, HashMap.restrict keep (books.modifySz oid coin sz).2) := by
  refine Prod.ext ?_ (Finmap.ext_lookup fun c => ?_)
  · rw [OrderBooks.modifySz, OrderBooks.modifySz, HashMap.lookup_restrict, if_pos h]
    cases books.lookup coin <;> rfl
  · rw [OrderBooks.lookup_modifySz, HashMap.lookup_restrict, HashMap.lookup_restrict,
      HashMap.lookup_restrict, OrderBooks.lookup_modifySz]
    by_cases hc : c = coin
    · subst hc
      rw [if_pos rfl, if_pos h, if_pos h, if_pos rfl]
    · rw [if_neg hc, if_neg hc]

theorem restrict_modifySz (oid : Oid) (sz : ℕ) {coin : Coin}
    (h : ¬ keep coin = true) :
    HashMap.restrict keep (books.modifySz oid coin sz).2 = HashMap.restrict keep books := by
  refine HashMap.restrict_congr fun c hc => ?_
  rw [OrderBooks.lookup_modifySz, if_neg]
  rintro rfl
  exact h hc

end OrderBooks
end Books

/-! ### One block -/

/-- The coins of `dirty` that are kept. -/
def Selects (keep : Coin → Bool) (dirty dirty' : Finset Coin) : Prop :=
  ∀ coin, coin ∈ dirty' ↔ coin ∈ dirty ∧ keep coin = true

theorem Selects.insert {keep : Coin → Bool} {dirty dirty' : Finset Coin}
    (h : Selects keep dirty dirty') {coin : Coin} (hc : keep coin = true) :
    Selects keep (Insert.insert coin dirty) (Insert.insert coin dirty') := by
  intro c
  rw [Finset.mem_insert, Finset.mem_insert, h c]
  constructor
  · rintro (rfl | ⟨hm, hin⟩)
    · exact ⟨.inl rfl, hc⟩
    · exact ⟨.inr hm, hin⟩
  · rintro ⟨rfl | hm, hin⟩
    · exact .inl rfl
    · exact .inr ⟨hm, hin⟩

theorem Selects.insert_out {keep : Coin → Bool} {dirty dirty' : Finset Coin}
    (h : Selects keep dirty dirty') {coin : Coin} (hc : ¬ keep coin = true) :
    Selects keep (Insert.insert coin dirty) dirty' := by
  intro c
  rw [Finset.mem_insert, h c]
  constructor
  · exact fun ⟨hm, hin⟩ => ⟨.inr hm, hin⟩
  · rintro ⟨rfl | hm, hin⟩
    · exact absurd hin hc
    · exact ⟨hm, hin⟩

/-- The two states in a block with these statuses and diffs. Only the statuses that a
diff of a kept coin can look up are the same. -/
structure BlockState.Selected (keep : Coin → Bool) (statuses : List NodeDataOrderStatus)
    (diffs : List NodeDataOrderDiff) (full part : BlockState) : Prop where
  orderBook : part.orderBook = HashMap.restrict keep full.orderBook
  dirtyCoins : Selects keep full.dirtyCoins part.dirtyCoins
  opening : ∀ oid status, full.orderMap.lookup oid = some status →
    status ∈ statuses ∧ status.order.oid = oid
  orderMap : ∀ diff ∈ diffs, keep ⟨diff.coin⟩ = true →
    part.orderMap.lookup diff.oid = full.orderMap.lookup diff.oid

namespace BlockState

variable {keep : Coin → Bool} {statuses : List NodeDataOrderStatus} {diffs : List NodeDataOrderDiff}
  {ignoreSpot : Bool} {full full' part : BlockState} {diff : NodeDataOrderDiff}

/-- A diff of a kept coin does the same to both. -/
theorem Selected.applied (h : Selected keep statuses diffs full part)
    (hcoins : SameCoins (· ∈ statuses) (· ∈ diffs)) (hdiff : diff ∈ diffs)
    (hin : keep ⟨diff.coin⟩ = true) (ha : Applied ignoreSpot full diff full') :
    ∃ part', Applied ignoreSpot part diff part' ∧ Selected keep statuses diffs full' part' := by
  cases ha with
  | skipped hs => exact ⟨part, .skipped hs, h⟩
  | @opened sz anchor status order kept kind hstatus horder done =>
    obtain ⟨hmem, hoid⟩ := h.opening _ _ hstatus
    obtain ⟨hcoin, -⟩ := openedOrder_eq_ok horder
    have hsame := hcoins status diff hmem hdiff hoid
    have horderIn : keep (InnerOrder.coin order) = true := by
      change keep order.coin = true
      rw [hcoin, hsame]
      exact hin
    have hadd := OrderBooks.addOrderBefore_restrict full.orderBook anchor horderIn
    rw [← h.orderBook] at hadd
    refine ⟨_, .opened kept kind ((h.orderMap diff hdiff hin).trans hstatus) horder
      (by rw [hadd]; exact done), ⟨by rw [hadd], h.dirtyCoins.insert hin, ?_, ?_⟩⟩
    · intro oid status' hlookup
      rw [HashMap.lookup_erase_ite] at hlookup
      split_ifs at hlookup
      exact h.opening oid status' hlookup
    · intro d hd hdin
      rw [HashMap.lookup_erase_ite, HashMap.lookup_erase_ite, h.orderMap d hd hdin]
  | @resized origSz newSz kept kind done =>
    have hmod := OrderBooks.modifySz_restrict full.orderBook diff.oid newSz
      (show keep ⟨diff.coin⟩ = true from hin)
    rw [← h.orderBook] at hmod
    exact ⟨_, .resized kept kind (by rw [hmod]; exact done),
      ⟨by rw [hmod], h.dirtyCoins.insert hin, h.opening, h.orderMap⟩⟩
  | removed kept kind done =>
    have hcancel := OrderBooks.cancelOrder_restrict full.orderBook diff.oid
      (show keep ⟨diff.coin⟩ = true from hin)
    rw [← h.orderBook] at hcancel
    exact ⟨_, .removed kept kind (by rw [hcancel]; exact done),
      ⟨by rw [hcancel], h.dirtyCoins.insert hin, h.opening, h.orderMap⟩⟩

/-- A diff of another coin does nothing that is seen. -/
theorem Selected.applied_out (h : Selected keep statuses diffs full part)
    (hcoins : SameCoins (· ∈ statuses) (· ∈ diffs)) (hdiff : diff ∈ diffs)
    (hout : ¬ keep ⟨diff.coin⟩ = true) (ha : Applied ignoreSpot full diff full') :
    Selected keep statuses diffs full' part := by
  cases ha with
  | skipped => exact h
  | @opened sz anchor status order kept kind hstatus horder done =>
    obtain ⟨hmem, hoid⟩ := h.opening _ _ hstatus
    obtain ⟨hcoin, -⟩ := openedOrder_eq_ok horder
    have hsame := hcoins status diff hmem hdiff hoid
    have horderOut : ¬ keep (InnerOrder.coin order) = true := by
      change ¬ keep order.coin = true
      rw [hcoin, hsame]
      exact hout
    refine ⟨?_, h.dirtyCoins.insert_out hout, ?_, ?_⟩
    · rw [OrderBooks.restrict_addOrderBefore full.orderBook anchor horderOut]
      exact h.orderBook
    · intro oid status' hlookup
      rw [HashMap.lookup_erase_ite] at hlookup
      split_ifs at hlookup
      exact h.opening oid status' hlookup
    · intro d hd hdin
      -- a diff of a kept coin and this oid would put the status at that coin
      have hne : d.oid ≠ diff.oid := by
        intro he
        have hd' := hcoins status d hmem hd (hoid.trans he.symm)
        rw [hsame] at hd'
        rw [← hd'] at hdin
        exact hout hdin
      rw [HashMap.lookup_erase_ite, if_neg hne]
      exact h.orderMap d hd hdin
  | @resized origSz newSz kept kind done =>
    refine ⟨?_, h.dirtyCoins.insert_out hout, h.opening, h.orderMap⟩
    rw [OrderBooks.restrict_modifySz full.orderBook diff.oid newSz
      (show ¬ keep ⟨diff.coin⟩ = true from hout)]
    exact h.orderBook
  | removed kept kind done =>
    refine ⟨?_, h.dirtyCoins.insert_out hout, h.opening, h.orderMap⟩
    rw [OrderBooks.restrict_cancelOrder full.orderBook diff.oid
      (show ¬ keep ⟨diff.coin⟩ = true from hout)]
    exact h.orderBook

theorem Selected.appliedAll {rest : List NodeDataOrderDiff}
    (h : Selected keep statuses diffs full part) (hcoins : SameCoins (· ∈ statuses) (· ∈ diffs))
    (hrest : rest ⊆ diffs) (ha : AppliedAll ignoreSpot full rest full') :
    ∃ part', AppliedAll ignoreSpot part (rest.filter fun d => keep ⟨d.coin⟩) part' ∧
      Selected keep statuses diffs full' part' := by
  induction ha generalizing part with
  | nil => exact ⟨part, .nil part, h⟩
  | @cons _ _ _ diff rest first _ ih =>
    obtain ⟨hdiff, hrest⟩ := List.cons_subset.mp hrest
    rw [List.filter_cons]
    split_ifs with hin
    · obtain ⟨next, hfirst, hnext⟩ := h.applied hcoins hdiff hin first
      obtain ⟨last, hlast, hend⟩ := ih hnext hrest
      exact ⟨last, .cons hfirst hlast, hend⟩
    · exact ih (h.applied_out hcoins hdiff hin first) hrest

end BlockState

/-- An opening status is one of the block, under its own oid. -/
theorem mem_of_openingStatuses {statuses : List NodeDataOrderStatus} {oid : Oid}
    {status : NodeDataOrderStatus} (h : (openingStatuses statuses).lookup oid = some status) :
    status ∈ statuses ∧ status.order.oid = oid := by
  rw [openingStatuses, HashMap.lookup_collect] at h
  obtain ⟨e, he, rfl⟩ := Option.map_eq_some_iff.mp h
  have hoid : e.1 = oid := by simpa using List.find?_some he
  obtain ⟨s, hs, heq⟩ := List.mem_filterMap.mp (List.mem_reverse.mp (List.mem_of_find?_eq_some he))
  split_ifs at heq
  cases heq
  exact ⟨hs, hoid⟩

/-- Statuses that are left out are not missed at an oid whose statuses all stay. -/
theorem lookup_openingStatuses_filter {statuses : List NodeDataOrderStatus}
    {p : NodeDataOrderStatus → Bool} {oid : Oid}
    (h : ∀ status ∈ statuses, status.order.oid = oid → p status = true) :
    (openingStatuses (statuses.filter p)).lookup oid = (openingStatuses statuses).lookup oid := by
  rw [openingStatuses, openingStatuses, HashMap.lookup_collect, HashMap.lookup_collect]
  congr 1
  induction statuses with
  | nil => rfl
  | cons status statuses ih =>
    have hrest := ih fun s hs => h s (List.mem_cons_of_mem _ hs)
    rw [List.filter_cons]
    by_cases hp : p status = true
    · rw [if_pos hp, List.filterMap_cons, List.filterMap_cons]
      split_ifs
      · rw [List.reverse_cons, List.reverse_cons, List.find?_append, List.find?_append, hrest]
      · exact hrest
    · rw [if_neg hp, hrest, List.filterMap_cons]
      split_ifs
      · have hne : status.order.oid ≠ oid := fun he => hp (h status List.mem_cons_self he)
        rw [List.reverse_cons, List.find?_append]
        simp [hne]
      · rfl

end OrderBookServer
