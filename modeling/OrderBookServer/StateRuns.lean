import OrderBookServer.NodeBooks

/-!
# What every state is made of

A block changes the books by the calls of its diffs, whether it succeeds or stops
halfway. So every book of every state is one that calls have built.
-/
namespace OrderBookServer

namespace OrderBooks

/-- What one diff may do to the books. -/
inductive Change (books : OrderBooks InnerL4Order) : OrderBooks InnerL4Order → Prop
  | unchanged : Change books books
  | addOrderBefore (order : InnerL4Order) (anchor : Option Oid) :
    Change books (books.addOrderBefore order anchor).2
  | cancelOrder (oid : Oid) (coin : Coin) : Change books (books.cancelOrder oid coin).2
  | modifySz (oid : Oid) (coin : Coin) (sz : ℕ) : Change books (books.modifySz oid coin sz).2

/-- Every book is built. -/
def Built (books : OrderBooks InnerL4Order) : Prop := ∀ coin, (books.book coin).Built

theorem Built.change {books after : OrderBooks InnerL4Order} (h : Built books)
    (hc : Change books after) : Built after := by
  intro coin
  cases hc with
  | unchanged => exact h coin
  | addOrderBefore order anchor =>
    rw [book_addOrderBefore]
    split_ifs
    · exact (h coin).addOrderBefore order anchor
    · exact h coin
  | cancelOrder oid c =>
    rw [(cancelOrder_eq books oid c).2]
    split_ifs
    · exact (h coin).cancelOrder oid
    · exact h coin
  | modifySz oid c sz =>
    rw [(modifySz_eq books oid c sz).2]
    split_ifs
    · exact (h coin).modifySz oid sz
    · exact h coin

theorem built_fromSnapshots (snapshot : Snapshots InnerL4Order) (ignoreTriggers : Bool) :
    Built (fromSnapshots snapshot ignoreTriggers) := by
  intro coin
  rw [book_fromSnapshots]
  exact .fromSnapshot _ ignoreTriggers

end OrderBooks

namespace BlockState

variable {ignoreSpot : Bool} {self after : BlockState} {diffs : List NodeDataOrderDiff}

/-- A diff changes the books by one call at most, also where it fails. -/
theorem applyDiff_change (ignoreSpot : Bool) (self : BlockState) (diff : NodeDataOrderDiff) :
    OrderBooks.Change self.orderBook (self.applyDiff ignoreSpot diff).1.orderBook := by
  by_cases hs : Skipped ignoreSpot diff
  · rw [applyDiff_of_skipped hs]
    exact .unchanged
  rw [applyDiff_of_kept hs]
  cases InnerOrderDiff.tryFrom diff.rawBookDiff with
  | error message => exact .unchanged
  | ok kind =>
    cases kind with
    | new sz anchor =>
      dsimp only [applyNew]
      cases self.orderMap.lookup diff.oid with
      | none => exact .unchanged
      | some status =>
        dsimp only
        cases openedOrder status diff sz with
        | error fault => exact .unchanged
        | ok order => exact .addOrderBefore order anchor
    | update origSz newSz => exact .modifySz diff.oid ⟨diff.coin⟩ newSz
    | remove => exact .cancelOrder diff.oid ⟨diff.coin⟩

theorem built_applyDiffs (ignoreSpot : Bool) (diffs : List NodeDataOrderDiff)
    (h : self.orderBook.Built) : (self.applyDiffs ignoreSpot diffs).1.orderBook.Built := by
  induction diffs generalizing self with
  | nil => exact h
  | cons diff diffs ih =>
    have hfirst := h.change (applyDiff_change ignoreSpot self diff)
    rw [applyDiffs]
    generalize self.applyDiff ignoreSpot diff = out at hfirst ⊢
    obtain ⟨next, fault | ⟨⟩⟩ := out
    · exact hfirst
    · exact ih hfirst

theorem AppliedAll.built (h : AppliedAll ignoreSpot self diffs after)
    (hbuilt : self.orderBook.Built) : after.orderBook.Built := by
  have hall := built_applyDiffs ignoreSpot diffs hbuilt
  rwa [applyDiffs_eq_ok_iff.mpr h] at hall

/-- The loop over the diffs fails as the diff does that it comes to last. -/
theorem applyDiffs_error_iff_exists {fault : Fault} :
    (self.applyDiffs ignoreSpot diffs).2 = .error fault ↔
      ∃ before diff rest block, diffs = before ++ diff :: rest ∧
        AppliedAll ignoreSpot self before block ∧
        (block.applyDiff ignoreSpot diff).2 = .error fault := by
  induction diffs generalizing self with
  | nil =>
    apply iff_of_false
    · intro h
      cases h
    · rintro ⟨before, diff, rest, block, heq, -⟩
      simp at heq
  | cons first diffs ih =>
    rw [applyDiffs]
    constructor
    · intro herror
      rcases hout : self.applyDiff ignoreSpot first with ⟨next, other | ⟨⟩⟩
      · rw [hout] at herror
        exact ⟨[], first, diffs, self, rfl, .nil self, (congrArg Prod.snd hout).trans herror⟩
      · rw [hout] at herror
        obtain ⟨before, diff, rest, block, rfl, hall, hfails⟩ := ih.mp herror
        exact ⟨first :: before, diff, rest, block, rfl,
          .cons (applyDiff_eq_ok_iff.mp hout) hall, hfails⟩
    · rintro ⟨before, diff, rest, block, heq, hall, hfails⟩
      cases before with
      | nil =>
        obtain ⟨rfl, rfl⟩ := List.cons.inj heq
        cases hall
        generalize self.applyDiff ignoreSpot first = out at hfails ⊢
        obtain ⟨next, other | ⟨⟩⟩ := out
        · exact hfails
        · cases hfails
      | cons first' before =>
        obtain ⟨rfl, rfl⟩ := List.cons.inj heq
        obtain _ | ⟨happlied, hall⟩ := hall
        rw [applyDiff_eq_ok_iff.mpr happlied]
        exact ih.mpr ⟨before, diff, rest, block, rfl, hall, hfails⟩

end BlockState

namespace OrderBookState

/-- A state made from a snapshot by blocks, whether they succeed or not, and by reading the
views. -/
inductive Made : OrderBookState → Prop
  | fromSnapshot (snapshot : Snapshots InnerL4Order) (height time : ℕ)
      (ignoreTriggers ignoreSpot : Bool) :
      Made (fromSnapshot snapshot height time ignoreTriggers ignoreSpot)
  | applyUpdates {s : OrderBookState} (h : Made s) (statuses : Batch NodeDataOrderStatus)
      (diffs : Batch NodeDataOrderDiff) : Made (s.applyUpdates statuses diffs).1
  | computeL2Snapshot {s : OrderBookState} (h : Made s) : Made s.computeL2Snapshot.2
  | l2Snapshots {s : OrderBookState} (h : Made s) (prevent : Bool) : Made (s.l2Snapshots prevent).2

theorem l2Snapshots_orderBook (s : OrderBookState) (prevent : Bool) :
    (s.l2Snapshots prevent).2.orderBook = s.orderBook := by
  rw [OrderBookState.l2Snapshots]
  split_ifs
  · rfl
  · rfl

theorem Made.built {s : OrderBookState} (h : Made s) : s.orderBook.Built := by
  induction h with
  | fromSnapshot snapshot height time ignoreTriggers ignoreSpot =>
    exact OrderBooks.built_fromSnapshots snapshot ignoreTriggers
  | @applyUpdates s h statuses diffs ih =>
    rw [OrderBookState.applyUpdates]
    cases statuses.blockTimeMillis with
    | none => exact ih
    | some time =>
      dsimp only
      split_ifs
      · exact ih
      · exact ih
      · exact ih
      · let block : BlockState := ⟨s.orderBook, s.dirtyCoins, openingStatuses statuses.events⟩
        have hbuilt : block.orderBook.Built := ih
        have hblock := BlockState.built_applyDiffs s.ignoreSpot diffs.events hbuilt
        generalize block.applyDiffs s.ignoreSpot diffs.events = out at hblock ⊢
        obtain ⟨block, fault | ⟨⟩⟩ := out
        · exact hblock
        · exact hblock
  | computeL2Snapshot _ ih => exact ih
  | l2Snapshots _ prevent ih =>
    rw [l2Snapshots_orderBook]
    exact ih

/-! ### A state with one order -/

/-- A status that opens the order 7 of BTC, a bid for 2 at 100. -/
def statusSeven : NodeDataOrderStatus :=
  ⟨⟨0⟩, 0, "open", ⟨none, "BTC", .bid, "100", "2", 7, 0, "N/A", false, "0.0", false, false, "Limit",
    some "Gtc", none⟩⟩

/-- A diff of the order 7. -/
def diffSeven (raw : OrderDiff) : NodeDataOrderDiff := ⟨0, 7, "100", "BTC", raw⟩

def statusesSeven (height : ℕ) : Batch NodeDataOrderStatus := ⟨⟨0⟩, ⟨0⟩, height, [statusSeven], 0⟩

def diffsSeven (height : ℕ) (raw : OrderDiff) : Batch NodeDataOrderDiff :=
  ⟨⟨0⟩, ⟨0⟩, height, [diffSeven raw], 0⟩

/-- The state that a block with the order 7 makes of no books. -/
def restingSeven : OrderBookState :=
  ((fromSnapshot ∅ 100 0 true false).applyUpdates (statusesSeven 101)
    (diffsSeven 101 (.new "2" none))).1

theorem applyUpdates_restingSeven : (fromSnapshot ∅ 100 0 true false).applyUpdates
    (statusesSeven 101) (diffsSeven 101 (.new "2" none)) = (restingSeven, .ok ()) := by
  have hok : ((fromSnapshot ∅ 100 0 true false).applyUpdates (statusesSeven 101)
      (diffsSeven 101 (.new "2" none))).2 = .ok () := by decide +kernel
  rw [restingSeven, ← hok]

end OrderBookState
end OrderBookServer
