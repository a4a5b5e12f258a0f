import OrderBookServer.SlabRefinement
import OrderBookServer.StateRuns
import OrderBookServer.Subscription
import OrderBookServer.Universe
import OrderBookServer.SameOrders
import OrderBookServer.CoinSelection
import OrderBookServer.LevelCascade

/-!
# Where a record ends in a panic

A record is refused by an error, except that two conversions of times are unwrapped: of the
block of statuses that is applied, and of the opening status of an order. Both fail for a
time before 1970. The other partial steps never fail: the two blocks applied have one height,
the slab has every node that a level list asks for, and no increment of a view is zero.
-/
namespace OrderBookServer

/-- The time is before 1970. -/
def NaiveDateTime.Early (time : NaiveDateTime) : Prop := time.timestampMillis < 0

instance (time : NaiveDateTime) : Decidable time.Early :=
  inferInstanceAs (Decidable (_ < _))

theorem Batch.blockTimeMillis_eq_none_iff {E : Type} {batch : Batch E} :
    batch.blockTimeMillis = none ↔ batch.blockTime.Early := by
  unfold blockTimeMillis NaiveDateTime.Early
  split_ifs with h
  · exact iff_of_false (by simp) (by omega)
  · exact iff_of_true rfl (by omega)

/-! ### Blocks -/

namespace BlockState

variable {ignoreSpot : Bool} {self : BlockState} {diff : NodeDataOrderDiff}

/-- A New diff comes to an opening status from before 1970, of which and of the diff all else
can be read. -/
structure OpensEarly (ignoreSpot : Bool) (block : BlockState) (diff : NodeDataOrderDiff) : Prop where
  kept : ¬ Skipped ignoreSpot diff
  opens : ∃ sz anchor status, InnerOrderDiff.tryFrom diff.rawBookDiff = .ok (.new sz anchor) ∧
    block.orderMap.lookup diff.oid = some status ∧
    (InnerL4Order.tryFrom status.user status.order).isOk = true ∧ diff.price.isOk = true ∧
    status.time.Early

theorem openedOrder_panics_iff {status : NodeDataOrderStatus} {sz : ℕ} :
    openedOrder status diff sz = .error .panic ↔
      (InnerL4Order.tryFrom status.user status.order).isOk = true ∧ diff.price.isOk = true ∧
        status.time.Early := by
  unfold openedOrder NaiveDateTime.Early
  cases InnerL4Order.tryFrom status.user status.order with
  | error e => exact iff_of_false (fun h => by cases h) fun h => by cases h.1
  | ok order =>
    cases diff.price with
    | error e => exact iff_of_false (fun h => by cases h) fun h => by cases h.2.1
    | ok px =>
      by_cases ht : 0 ≤ status.time.timestampMillis
      · simp only [parsed, bind, Except.bind, if_pos ht]
        exact iff_of_false (fun h => by cases h) fun h => by have := h.2.2; omega
      · simp only [parsed, bind, Except.bind, if_neg ht]
        exact iff_of_true rfl ⟨rfl, rfl, by omega⟩

theorem applyNew_panics_iff {sz : ℕ} {anchor : Option Oid} :
    (self.applyNew diff sz anchor).2 = .error .panic ↔
      ∃ status, self.orderMap.lookup diff.oid = some status ∧
        openedOrder status diff sz = .error .panic := by
  rw [applyNew]
  cases self.orderMap.lookup diff.oid with
  | none => exact iff_of_false (by simp) (by simp)
  | some status =>
    simp only [Option.some.injEq, exists_eq_left']
    cases horder : openedOrder status diff sz with
    | error fault => simp
    | ok order =>
      dsimp only
      split_ifs <;> simp

theorem applyChange_no_panic (change : Bool × OrderBooks InnerL4Order) :
    (self.applyChange diff change).2 ≠ .error .panic := by
  rw [applyChange]
  dsimp only
  split_ifs <;> simp

theorem applyDiff_panics_iff :
    (self.applyDiff ignoreSpot diff).2 = .error .panic ↔ OpensEarly ignoreSpot self diff := by
  by_cases hs : Skipped ignoreSpot diff
  · rw [applyDiff_of_skipped hs]
    exact iff_of_false (fun h => by cases h) fun h => h.kept hs
  rw [applyDiff_of_kept hs]
  dsimp only
  cases hraw : InnerOrderDiff.tryFrom diff.rawBookDiff with
  | error message =>
    apply iff_of_false
    · intro h
      cases h
    · rintro ⟨-, sz, anchor, status, h, -⟩
      cases hraw.symm.trans h
  | ok kind =>
    cases kind with
    | new sz anchor =>
      dsimp only
      rw [applyNew_panics_iff]
      constructor
      · rintro ⟨status, hstatus, hpanic⟩
        exact ⟨hs, sz, anchor, status, hraw, hstatus, openedOrder_panics_iff.mp hpanic⟩
      · rintro ⟨-, sz', anchor', status, h, hstatus, hearly⟩
        cases hraw.symm.trans h
        exact ⟨status, hstatus, openedOrder_panics_iff.mpr hearly⟩
    | update origSz newSz =>
      apply iff_of_false (applyChange_no_panic _)
      rintro ⟨-, sz, anchor, status, h, -⟩
      cases hraw.symm.trans h
    | remove =>
      apply iff_of_false (applyChange_no_panic _)
      rintro ⟨-, sz, anchor, status, h, -⟩
      cases hraw.symm.trans h

end BlockState

namespace OrderBookState

variable {self : OrderBookState}

/-- A block is from before 1970, or is the next one and comes to an opening status from before
1970. -/
def AppliesEarly (book : OrderBookState) (pair : BlockPair) : Prop :=
  pair.1.blockTime.Early ∨
    (book.height < pair.1.blockNumber ∧ pair.1.blockNumber ≤ U64.wrappingAdd book.height 1 ∧
      ∃ before diff rest block, pair.2.events = before ++ diff :: rest ∧
        BlockState.AppliedAll book.ignoreSpot
          ⟨book.orderBook, book.dirtyCoins, openingStatuses pair.1.events⟩ before block ∧
        BlockState.OpensEarly book.ignoreSpot block diff)

theorem applyUpdates_panics_iff {pair : BlockPair}
    (hpaired : pair.1.blockNumber = pair.2.blockNumber) :
    (self.applyUpdates pair.1 pair.2).2 = .error .panic ↔ self.AppliesEarly pair := by
  unfold applyUpdates AppliesEarly
  rw [← Batch.blockTimeMillis_eq_none_iff]
  cases htime : pair.1.blockTimeMillis with
  | none => exact iff_of_true rfl (.inl rfl)
  | some time =>
    dsimp only
    rw [if_neg (not_not.mpr hpaired)]
    simp only [reduceCtorEq, false_or]
    split_ifs with hgap hold
    · exact iff_of_false (by simp) fun h => by have := h.2.1; omega
    · exact iff_of_false (by simp) fun h => by have := h.1; omega
    · have hnext : self.height < pair.1.blockNumber ∧
          pair.1.blockNumber ≤ U64.wrappingAdd self.height 1 := by omega
      rw [and_iff_right hnext.1, and_iff_right hnext.2]
      simp only [← BlockState.applyDiff_panics_iff, ← BlockState.applyDiffs_error_iff_exists]
      generalize BlockState.applyDiffs _ _ _ = out
      obtain ⟨block, fault | ⟨⟩⟩ := out
      · exact Iff.rfl
      · exact iff_of_false (fun h => by cases h) fun h => by cases h

end OrderBookState

/-- No time of the block or of one of its statuses is from before 1970. -/
def Batch.Modern (statuses : Batch NodeDataOrderStatus) : Prop :=
  ¬ statuses.blockTime.Early ∧ ∀ status ∈ statuses.events, ¬ status.time.Early

/-- The diffs before take opening statuses off, and add none. -/
theorem BlockState.AppliedAll.lookup_orderMap {ignoreSpot : Bool} {self block : BlockState}
    {diffs : List NodeDataOrderDiff} (h : BlockState.AppliedAll ignoreSpot self diffs block)
    {k : Oid} {status : NodeDataOrderStatus} (hstatus : block.orderMap.lookup k = some status) :
    self.orderMap.lookup k = some status := by
  induction h with
  | nil => exact hstatus
  | cons first _ ih => exact first.lookup_orderMap (ih hstatus)

theorem OrderBookState.AppliesEarly.not_modern {book : OrderBookState} {pair : BlockPair}
    (h : book.AppliesEarly pair) : ¬ pair.1.Modern := by
  rintro ⟨hblock, hstatuses⟩
  obtain hearly | ⟨-, -, before, diff, rest, block, -, hall, hopens⟩ := h
  · exact hblock hearly
  · obtain ⟨sz, anchor, status, -, hstatus, -, -, hearly⟩ := hopens.opens
    have hmem := (mem_of_openingStatuses (hall.lookup_orderMap hstatus)).1
    exact hstatuses status hmem hearly

/-! ### Increments -/

/-- The precisions that may be asked for, and so those of the views that are kept, have an
increment for every price: a 64-bit number has 20 digits at most. -/
theorem increment_ne_zero {nSigFigs digs : ℕ} {mantissa : Option ℕ}
    (hvalid : Subscription.validPrecision (some nSigFigs) mantissa = true) (hdigs : digs ≤ 20) :
    U64.wrappingMul (mantissa.getD 1) (U64.wrappingPow 10 (digs - nSigFigs)) ≠ 0 := by
  obtain ⟨htwo, -, hmantissa⟩ := Subscription.validPrecision_some hvalid
  have hten : mantissa.getD 1 ∣ 10 := by
    obtain rfl | ⟨-, rfl | rfl⟩ := hmantissa
    · exact one_dvd 10
    · exact Dvd.intro 5 rfl
    · exact Dvd.intro 2 rfl
  have hpos : 0 < mantissa.getD 1 := Nat.pos_of_dvd_of_pos hten (by omega)
  obtain ⟨hpow, hproduct⟩ := increment_lt htwo hten hdigs
  rw [U64.wrappingPow, Nat.mod_eq_of_lt hpow, U64.wrappingMul_of_lt hproduct]
  exact Nat.mul_ne_zero (by omega) (pow_ne_zero _ (by omega))

/-! ### Records -/

namespace OrderBookListener

variable {self mid : OrderBookListener} {serde : SerdeJson} {source : EventSource}
  {clock : ℕ → Instant} {records : List (List Char)}

/-- What is queued holds a pair that is past the live books, and applies early to them. -/
def AdvancesEarly (self : OrderBookListener) : Prop :=
  ∃ book pair, self.orderBookState = some book ∧ self.popCache.1 = some pair ∧
    book.height < pair.1.blockNumber ∧ book.AppliesEarly pair

theorem popCache_paired {pair : BlockPair} (h : self.popCache.1 = some pair) :
    pair.1.blockNumber = pair.2.blockNumber := by
  have hsync := popPair_synced self.orderStatusCache self.orderDiffCache
  obtain ⟨-, -, hpair⟩ := hsync.sublists
  exact (hpair pair h).2.2

theorem advance_panics_iff : self.advance.2 = .error .panic ↔ self.AdvancesEarly := by
  unfold advance AdvancesEarly
  cases hbook : self.orderBookState with
  | none => exact iff_of_false (fun h => by cases h) fun ⟨_, _, h, _⟩ => by cases h
  | some book =>
    simp only [Option.some.injEq, exists_and_left, exists_eq_left']
    have hpaired : ∀ pair, self.popCache.1 = some pair → _ := fun _ => popCache_paired
    generalize self.popCache = out at hpaired ⊢
    obtain ⟨pair, next⟩ := out
    cases pair with
    | none => exact iff_of_false (fun h => by cases h) fun ⟨_, h, _⟩ => by cases h
    | some pair =>
      simp only [Option.some.injEq, exists_eq_left']
      rw [← OrderBookState.applyUpdates_panics_iff (hpaired pair rfl)]
      by_cases hold : pair.1.blockNumber ≤ book.height
      · rw [if_pos hold]
        exact iff_of_false (fun h => by cases h) fun h => by have := h.1; omega
      · rw [if_neg hold, and_iff_right (Nat.not_le.mp hold)]
        rcases book.applyUpdates pair.1 pair.2 with ⟨applied, fault | ⟨⟩⟩
        · exact Iff.rfl
        · apply iff_of_false
          · rcases recordPair_cases { next with orderBookState := some applied } pair with
              ⟨after, hr, -⟩ | hr
            · dsimp only
              rw [hr]
              simp
            · dsimp only
              rw [hr]
              simp
          · intro h
            cases h

theorem receiveBatch_panics_iff (now : Instant) (batch : EventBatch) :
    (self.receiveBatch now batch).2 = .error .panic ↔
      ∃ mid, self.accept now batch = .ok mid ∧ mid.AdvancesEarly := by
  unfold receiveBatch
  cases self.accept now batch with
  | error e => exact iff_of_false (by simp) (by simp)
  | ok mid =>
    simp only [Except.ok.injEq, exists_eq_left']
    exact advance_panics_iff

/-- The loop over the records comes to a batch that is accepted. -/
inductive ReadsUpTo (serde : SerdeJson) (source : EventSource) (clock : ℕ → Instant) :
    OrderBookListener → List (List Char) → OrderBookListener → Prop
  | here {self mid : OrderBookListener} {record : List Char} {records : List (List Char)}
      {batch : EventBatch} (hend : record.getLast? = some '\n')
      (hline : (trimEnd record).isEmpty = false)
      (hparse : parseLine serde source (String.ofList (trimEnd record)) self.scope = .ok batch)
      (haccept : self.accept (clock records.length) batch = .ok mid) :
      ReadsUpTo serde source clock self (record :: records) mid
  | blank {self mid : OrderBookListener} {record : List Char} {records : List (List Char)}
      (hend : record.getLast? = some '\n') (hline : (trimEnd record).isEmpty = true)
      (rest : ReadsUpTo serde source clock self records mid) :
      ReadsUpTo serde source clock self (record :: records) mid
  | later {self next mid : OrderBookListener} {record : List Char} {records : List (List Char)}
      {batch : EventBatch} (hend : record.getLast? = some '\n')
      (hline : (trimEnd record).isEmpty = false)
      (hparse : parseLine serde source (String.ofList (trimEnd record)) self.scope = .ok batch)
      (hreceive : self.receiveBatch (clock records.length) batch = (next, .ok ()))
      (rest : ReadsUpTo serde source clock next records mid) :
      ReadsUpTo serde source clock self (record :: records) mid

theorem ReadsUpTo.panics (h : ReadsUpTo serde source clock self records mid)
    (hearly : mid.AdvancesEarly) :
    ∃ after, RecordsRun serde source clock self records after (.error .panic) := by
  induction h with
  | @here self mid record records batch hend hline hparse haccept =>
    have hreceive := (receiveBatch_panics_iff (clock records.length) batch).mpr
      ⟨mid, haccept, hearly⟩
    exact ⟨_, .failed hend hline hparse (Prod.ext rfl hreceive)⟩
  | blank hend hline rest ih =>
    obtain ⟨after, hrun⟩ := ih hearly
    exact ⟨after, .blank hend hline hrun⟩
  | later hend hline hparse hreceive rest ih =>
    obtain ⟨after, hrun⟩ := ih hearly
    exact ⟨after, .received hend hline hparse hreceive hrun⟩

theorem RecordsRun.readsUpTo {after : OrderBookListener}
    (h : RecordsRun serde source clock self records after (.error .panic)) :
    ∃ mid, ReadsUpTo serde source clock self records mid ∧ mid.AdvancesEarly := by
  generalize hpanic : (Except.error .panic : Except Fault Unit) = outcome at h
  induction h with
  | done => cases hpanic
  | incomplete => cases hpanic
  | blank hend hline rest ih =>
    obtain ⟨mid, hreads, hearly⟩ := ih hpanic
    exact ⟨mid, .blank hend hline hreads, hearly⟩
  | malformed => cases hpanic
  | failed hend hline hparse hreceive =>
    cases hpanic
    obtain ⟨mid, haccept, hearly⟩ :=
      (receiveBatch_panics_iff _ _).mp (congrArg Prod.snd hreceive)
    exact ⟨mid, .here hend hline hparse haccept, hearly⟩
  | received hend hline hparse hreceive rest ih =>
    obtain ⟨mid, hreads, hearly⟩ := ih hpanic
    exact ⟨mid, .later hend hline hparse hreceive hreads, hearly⟩

theorem processRecords_panics_iff :
    (processRecords serde source clock self records).2 = .error .panic ↔
      ∃ mid, ReadsUpTo serde source clock self records mid ∧ mid.AdvancesEarly := by
  constructor
  · intro h
    obtain ⟨after, outcome, hrun⟩ := processRecords_run serde source clock self records
    obtain rfl : outcome = .error .panic := by rw [← h, hrun.eq]
    exact hrun.readsUpTo
  · rintro ⟨mid, hreads, hearly⟩
    obtain ⟨after, hrun⟩ := hreads.panics hearly
    rw [hrun.eq]

theorem processData_panics_iff (serde : SerdeJson) (self : OrderBookListener) (data : String)
    (source : EventSource) (clock : ℕ → Instant) :
    (self.processData serde data source clock).2 = .error .panic ↔
      ∃ mid, ReadsUpTo serde source clock self (splitInclusive [] data.toList) mid ∧
        mid.AdvancesEarly := by
  rw [← processRecords_panics_iff]
  unfold processData
  generalize processRecords serde source clock self _ = out
  obtain ⟨after, fault | ⟨⟩⟩ := out
  · exact Iff.rfl
  · exact iff_of_false (fun h => by cases h) fun h => by cases h

/-- Whatever the loop comes to was accepted, before or in the loop. -/
theorem ReadsUpTo.sourced {given : List (Snapshots InnerL4Order × ℕ)} {accepted : List EventBatch}
    {ignoreSpot : Bool} (h : Sourced given accepted ignoreSpot self)
    (hreaches : ReadsUpTo serde source clock self records mid) :
    Sourced given (accepted ++ queuedRecords serde source clock self records) ignoreSpot mid := by
  induction hreaches generalizing accepted with
  | here hend hline hparse haccept =>
    apply (h.accept (accept_ok haccept)).mono
    intro queued hqueued
    simp only [List.mem_append] at hqueued ⊢
    exact hqueued.imp_right fun hnew => queues_subset_queuedRecords hend hline hparse hnew
  | blank hend hline rest ih =>
    rw [queuedRecords_blank hend hline]
    exact ih h
  | later hend hline hparse hreceive rest ih =>
    obtain ⟨middle, haccepted, hstepped⟩ := receiveBatch_ok hreceive
    rw [queuedRecords_received hend hline hparse hreceive, ← List.append_assoc]
    exact ih ((h.accept haccepted).stepped hstepped)

theorem Sourced.not_advancesEarly {given : List (Snapshots InnerL4Order × ℕ)}
    {accepted : List EventBatch} {ignoreSpot : Bool} (h : Sourced given accepted ignoreSpot self)
    (hmodern : ∀ statuses, .orders statuses ∈ accepted → statuses.Modern) :
    ¬ self.AdvancesEarly := by
  rintro ⟨book, pair, -, hpair, -, hearly⟩
  have hsync := popPair_synced self.orderStatusCache self.orderDiffCache
  exact hearly.not_modern (hmodern _ ((h.synced hsync).2 pair hpair).statuses)

namespace World

/-- In every run, a record ends in a panic if and only if the loop comes to a pair of blocks that
is past the live books and applies early to them. So none does in a run whose statuses are
all from 1970 on. No list that was made by calls fails at its slab, nor does a loop over it, and
no increment of a view is zero. -/
theorem process_data_panics_iff {serde : SerdeJson} {limits : ResourceLimits}
    {internalMessageTx : Option (List InternalMessage)} {ignoreSpot : Bool} {scope : CoinScope}
    {w : World}
    (hrun : Relation.ReflTransGen (Step serde) (start limits internalMessageTx ignoreSpot scope) w)
    (data : String) (source : EventSource) (clock : ℕ → Instant) :
    ((w.listener.processData serde data source clock).2 = .error .panic ↔
      ∃ mid, ReadsUpTo serde source clock w.listener (splitInclusive [] data.toList) mid ∧
        mid.AdvancesEarly) ∧
    ((∀ statuses, .orders statuses ∈ w.accepted ++ queuedData serde w.listener data source clock →
        statuses.Modern) →
      (w.listener.processData serde data source clock).2 ≠ .error .panic) ∧
    (∀ list : SlabList Oid InnerL4Order, list.Built →
      (∀ sid, sid ∉ list.slab → ∀ op, (list.run sid op).isSome = true) ∧
      ∃ turns, ∀ (A : Type) (init : A) (f : A → InnerL4Order → A),
        (list.fold turns init f).isSome = true) ∧
    (∀ digs nSigFigs mantissa, digs ≤ 20 →
      Subscription.validPrecision (some nSigFigs) mantissa = true →
      U64.wrappingMul (mantissa.getD 1) (U64.wrappingPow 10 (digs - nSigFigs)) ≠ 0) := by
  have hpanics := processData_panics_iff serde w.listener data source clock
  refine ⟨hpanics, fun hmodern hpanic => ?_, fun list hlist => ?_, fun digs n m hdigs hvalid =>
    increment_ne_zero hvalid hdigs⟩
  · obtain ⟨mid, hreaches, hearly⟩ := hpanics.mp hpanic
    exact (hreaches.sourced (run_sourced hrun)).not_advancesEarly hmodern hearly
  · obtain ⟨l, hl⟩ := hlist.represents
    refine ⟨fun sid hsid op => ?_, l.entries.length, fun A init f => ?_⟩
    · obtain ⟨next, hnext, -⟩ := hl.run hsid op
      rw [hnext]
      rfl
    · rw [hl.fold le_rfl init f]
      rfl

/-! ### A block from 1969 -/

def earlyBlockLine : String := "[\"1969-12-31T23:59:59\",\"1969-12-31T23:59:59\",6,[]]"

def earlyReader : SerdeJson :=
  { SerdeJson.ofLines [(earlyBlockLine,
      .arr [.str "1969-12-31T23:59:59", .str "1969-12-31T23:59:59", .num "6", .arr []])] with
    dateTime
      | .str "1969-12-31T23:59:59" => .ok ⟨-1000000000⟩
      | _ => .error "invalid type" }

/-- The statuses of the block are queued, and its diffs end in a panic. -/
theorem earlyBlock_panics : ∃ mid ∈ (readyAt 5).turn earlyReader (earlyBlockLine ++ "\n")
    .orderStatuses fun _ => 0, (mid.processData earlyReader (earlyBlockLine ++ "\n") .orderDiffs
      fun _ => 0).2 = .error .panic := by
  simp only [turn, processData_line earlyBlockLine (by decide) (by decide +kernel)]
  decide +kernel

/-- An empty block from each source, both read without an error, ends in a panic if its time is
before 1970. -/
theorem early_block_panics : ∃ (w : World) (data : String),
    Relation.ReflTransGen (Step earlyReader) (start .DEFAULT (some []) false .all) w ∧
      (w.listener.processData earlyReader data .orderDiffs fun _ => 0).2 = .error .panic := by
  obtain ⟨mid, hmid, hpanic⟩ := earlyBlock_panics
  obtain ⟨w, hrun, -, -, hw, -⟩ := run_first_snapshot earlyReader false ∅
  rw [readyAt, ← hw] at hmid
  exact ⟨_, earlyBlockLine ++ "\n", hrun.tail (.progress (.turn _ _ _ hmid)), hpanic⟩

/-- The statuses alone do not, whatever their time: no block is applied yet. -/
theorem process_data_panics_iff_statuses : ∃ w : World, w.listener = readyAt 5 ∧
    (w.listener.processData earlyReader (earlyBlockLine ++ "\n") .orderStatuses
      fun _ => 0).2 ≠ .error .panic ∧
    ¬ ∃ mid, ReadsUpTo earlyReader .orderStatuses (fun _ => 0) w.listener
      (splitInclusive [] (earlyBlockLine ++ "\n").toList) mid ∧ mid.AdvancesEarly := by
  obtain ⟨w, hrun, -, -, hw, -⟩ := run_first_snapshot earlyReader false ∅
  have hok : (w.listener.processData earlyReader (earlyBlockLine ++ "\n") .orderStatuses
      fun _ => 0).2 ≠ .error .panic := by
    rw [hw]
    decide +kernel
  exact ⟨w, hw, hok, fun hex => hok ((process_data_panics_iff hrun _ _ _).1.mpr hex)⟩

end World
end OrderBookListener
end OrderBookServer
