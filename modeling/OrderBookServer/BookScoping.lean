import OrderBookServer.CoinSelection
import OrderBookServer.ScopedParse
import OrderBookServer.SnapshotFile

/-!
# Books in scope

The books of the coins that a scope keeps go through the blocks of all coins with the
events out of scope left out, and the views built for them are those of these coins.
-/
namespace OrderBookServer

theorem CoinScope.lookup_restrict {V : Type} (scope : CoinScope) (m : HashMap Coin V) (coin : Coin) :
    (scope.restrict m).lookup coin =
      if scope.contains coin.value = true then m.lookup coin else none :=
  HashMap.lookup_restrict _ _ _

/-! ### One block -/

/-- The coins of `dirty` that are in scope. -/
def CoinScope.Restricts (scope : CoinScope) (dirty dirty' : Finset Coin) : Prop :=
  ∀ coin, coin ∈ dirty' ↔ coin ∈ dirty ∧ scope.contains coin.value = true

/-- The two states in a block with these statuses and diffs. Only the statuses that a
diff in scope can look up are the same. -/
structure BlockState.InScope (scope : CoinScope) (statuses : List NodeDataOrderStatus)
    (diffs : List NodeDataOrderDiff) (full part : BlockState) : Prop where
  orderBook : part.orderBook = scope.restrict full.orderBook
  dirtyCoins : scope.Restricts full.dirtyCoins part.dirtyCoins
  opening : ∀ oid status, full.orderMap.lookup oid = some status →
    status ∈ statuses ∧ status.order.oid = oid
  orderMap : ∀ diff ∈ diffs, scope.contains diff.coin = true →
    part.orderMap.lookup diff.oid = full.orderMap.lookup diff.oid

namespace BlockState

variable {scope : CoinScope} {statuses : List NodeDataOrderStatus} {diffs : List NodeDataOrderDiff}
  {ignoreSpot : Bool} {full full' part : BlockState}

theorem inScope_iff_selected : InScope scope statuses diffs full part ↔
    Selected (fun coin => scope.contains coin.value) statuses diffs full part :=
  ⟨fun h => ⟨h.orderBook, h.dirtyCoins, h.opening, h.orderMap⟩,
    fun h => ⟨h.orderBook, h.dirtyCoins, h.opening, h.orderMap⟩⟩

theorem InScope.appliedAll {rest : List NodeDataOrderDiff}
    (h : InScope scope statuses diffs full part) (hcoins : SameCoins (· ∈ statuses) (· ∈ diffs))
    (hrest : rest ⊆ diffs) (ha : AppliedAll ignoreSpot full rest full') :
    ∃ part', AppliedAll ignoreSpot part (rest.filter fun d => scope.contains d.coin) part' ∧
      InScope scope statuses diffs full' part' := by
  obtain ⟨part', hrun, hend⟩ := (inScope_iff_selected.mp h).appliedAll hcoins hrest ha
  exact ⟨part', hrun, inScope_iff_selected.mpr hend⟩

end BlockState

namespace OrderBookState

/-- The state in scope of a state of all coins. -/
structure InScope (scope : CoinScope) (full part : OrderBookState) : Prop where
  orderBook : part.orderBook = scope.restrict full.orderBook
  height : part.height = full.height
  time : part.time = full.time
  snapped : part.snapped = full.snapped
  ignoreSpot : part.ignoreSpot = full.ignoreSpot
  l2Cache : part.l2Cache = scope.restrict full.l2Cache
  dirtyCoins : scope.Restricts full.dirtyCoins part.dirtyCoins

variable {scope : CoinScope} {full full' part : OrderBookState}

/-- A block does to the books in scope what its events in scope do. -/
theorem InScope.applyUpdates {statuses : Batch NodeDataOrderStatus} {diffs : Batch NodeDataOrderDiff}
    (h : InScope scope full part) (hcoins : SameCoins (· ∈ statuses.events) (· ∈ diffs.events))
    (ha : full.applyUpdates statuses diffs = (full', .ok ())) :
    ∃ part', part.applyUpdates (statuses.inScope (fun s => s.order.coin) scope)
      (diffs.inScope (fun d => d.coin) scope) = (part', .ok ()) ∧ InScope scope full' part' := by
  cases applyUpdates_eq_ok_iff.mp ha with
  | old htime hsame hnext hold =>
    rw [← h.height] at hnext hold
    exact ⟨part, applyUpdates_eq_ok_iff.mpr (.old htime hsame hnext hold), h⟩
  | next htime hsame hwrap hheight happlied =>
    rw [← h.height] at hwrap hheight
    rw [← h.ignoreSpot] at happlied
    have hstart : BlockState.InScope scope statuses.events diffs.events
        ⟨full.orderBook, full.dirtyCoins, openingStatuses statuses.events⟩
        ⟨part.orderBook, part.dirtyCoins, openingStatuses
          (statuses.inScope (fun s => s.order.coin) scope).events⟩ := by
      refine ⟨h.orderBook, h.dirtyCoins, fun _ _ => mem_of_openingStatuses, ?_⟩
      intro diff hdiff hin
      refine lookup_openingStatuses_filter fun status hs hoid => ?_
      dsimp only
      rw [hcoins status diff hs hdiff hoid]
      exact hin
    obtain ⟨block, hblock, hend⟩ := hstart.appliedAll hcoins (List.Subset.refl _) happlied
    exact ⟨_, applyUpdates_eq_ok_iff.mpr (.next htime hsame hwrap hheight hblock),
      ⟨hend.orderBook, rfl, rfl, rfl, h.ignoreSpot, h.l2Cache, hend.dirtyCoins⟩⟩

/-- Views are brought up to date coin by coin. -/
theorem InScope.computeL2Snapshot (h : InScope scope full part) :
    InScope scope full.computeL2Snapshot.2 part.computeL2Snapshot.2 where
  orderBook := h.orderBook
  height := h.height
  time := h.time
  snapped := h.snapped
  ignoreSpot := h.ignoreSpot
  l2Cache := by
    refine Finmap.ext_lookup fun coin => ?_
    simp only [OrderBookState.computeL2Snapshot, lookup_refreshL2Snapshots,
      CoinScope.lookup_restrict, h.orderBook, h.l2Cache, h.dirtyCoins coin]
    by_cases hin : scope.contains coin.value = true
    · simp [hin]
    · simp [hin]
  dirtyCoins _ := by simp [OrderBookState.computeL2Snapshot]

theorem InScope.l2Snapshots (h : InScope scope full part) (prevent : Bool) :
    InScope scope (full.l2Snapshots prevent).2 (part.l2Snapshots prevent).2 := by
  unfold OrderBookState.l2Snapshots
  rw [h.snapped]
  split_ifs
  · exact h
  · have hmarked : InScope scope { full with snapped := prevent || full.snapped }
        { part with snapped := prevent || full.snapped } :=
      ⟨h.orderBook, h.height, h.time, rfl, h.ignoreSpot, h.l2Cache, h.dirtyCoins⟩
    exact hmarked.computeL2Snapshot

theorem inScope_fromSnapshot (scope : CoinScope) (snapshot : Snapshots InnerL4Order)
    (height time : ℕ) (ignoreTriggers ignoreSpot : Bool) :
    InScope scope (fromSnapshot snapshot height time ignoreTriggers ignoreSpot)
      (fromSnapshot (scope.restrict snapshot) height time ignoreTriggers ignoreSpot) where
  orderBook := by
    refine Finmap.ext_lookup fun coin => ?_
    simp only [fromSnapshot, OrderBooks.fromSnapshots, HashMap.lookup_mapValues,
      CoinScope.lookup_restrict]
    split_ifs <;> rfl
  height := rfl
  time := rfl
  snapped := rfl
  ignoreSpot := rfl
  l2Cache := by
    refine Finmap.ext_lookup fun coin => ?_
    simp [fromSnapshot, CoinScope.lookup_restrict]
  dirtyCoins coin := by
    simp only [fromSnapshot, OrderBooks.fromSnapshots, HashMap.keys_mapValues]
    exact HashMap.mem_keys_restrict _ _ _

end OrderBookState

end OrderBookServer
