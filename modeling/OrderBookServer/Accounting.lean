import OrderBookServer.Provenance
import OrderBookServer.Results

/-!
# Queues and the cache count what they hold

The byte counters of the two queues and of the cache of a validation are the sums of
what is held, whatever the calls and their outcomes, and stay within the limits.
-/
namespace OrderBookServer

namespace BatchQueue

variable {E : Type} {limits : ResourceLimits} {queue : BatchQueue E}

/-- A queue holds blocks of increasing heights, within the limits, and counts their bytes. -/
structure Accounted (limits : ResourceLimits) (queue : BatchQueue E) : Prop where
  increasing : queue.batches.Pairwise fun a b => a.blockNumber < b.blockNumber
  le_last : ∀ b ∈ queue.batches, ∃ last, queue.lastTs = some last ∧ b.blockNumber ≤ last
  bytes_eq : queue.bytes = (queue.batches.map Batch.wireBytes).sum
  bytes_lt : queue.bytes < U64.modulus
  bytes_le : queue.bytes ≤ limits.queueBytes
  length_le : queue.batches.length ≤ limits.queueHeights
  span_le : ∀ a ∈ queue.batches, ∀ b ∈ queue.batches,
    b.blockNumber - a.blockNumber ≤ limits.queueHeights

theorem accounted_new (limits : ResourceLimits) : (new : BatchQueue E).Accounted limits where
  increasing := List.Pairwise.nil
  le_last := by simp [batches, new]
  bytes_eq := by simp [batches, new]
  bytes_lt := Nat.two_pow_pos 64
  bytes_le := Nat.zero_le _
  length_le := Nat.zero_le _
  span_le := by simp [batches, new]

/-- In a queue of increasing heights the front has the least height. -/
theorem Accounted.front_le (h : queue.Accounted limits) {e : Batch E × Instant}
    (he : queue.deque.head? = some e) {b : Batch E} (hb : b ∈ queue.batches) :
    e.1.blockNumber ≤ b.blockNumber := by
  obtain ⟨rest, hrest⟩ := List.head?_eq_some_iff.mp he
  have hincreasing := h.increasing
  rw [batches, hrest, List.map_cons] at hb hincreasing
  obtain rfl | hb := List.mem_cons.mp hb
  · omega
  · have := (List.pairwise_cons.mp hincreasing).1 b hb
    omega

theorem Accounted.push (h : queue.Accounted limits) {block : Batch E} {now : Instant} {added : Bool}
    {after : BatchQueue E} (hp : queue.push block limits now = .ok (added, after)) :
    after.Accounted limits := by
  unfold BatchQueue.push at hp
  by_cases hold : (queue.lastTs.any fun last => decide (last ≥ block.blockNumber)) = true
  · rw [if_pos hold] at hp
    cases hp
    exact h
  rw [if_neg hold] at hp
  -- the last block queued is below a block that is new
  have hlt (b : Batch E) (hb : b ∈ queue.batches) : b.blockNumber < block.blockNumber := by
    obtain ⟨last, hlast, hle⟩ := h.le_last b hb
    rw [hlast, Option.any_some, decide_eq_true_eq] at hold
    omega
  cases hbytes : U64.checkedAdd queue.bytes block.wireBytes with
  | none =>
    rw [hbytes] at hp
    cases hp
  | some nextBytes =>
    simp only [hbytes] at hp
    split_ifs at hp with hover
    cases hp
    unfold U64.checkedAdd at hbytes
    split_ifs at hbytes with hword
    obtain rfl := Option.some.inj hbytes
    simp only [overLimit, Bool.or_eq_true, decide_eq_true_eq, not_or] at hover
    obtain ⟨⟨hqueueBytes, hheights⟩, hfront⟩ := hover
    have hbatches : (⟨queue.deque ++ [(block, now)], some block.blockNumber,
        queue.bytes + block.wireBytes⟩ : BatchQueue E).batches = queue.batches ++ [block] := by
      simp [batches]
    constructor
    · rw [hbatches, List.pairwise_append]
      refine ⟨h.increasing, List.pairwise_singleton _ _, fun a ha b hb => ?_⟩
      obtain rfl := List.mem_singleton.mp hb
      exact hlt a ha
    · intro b hb
      refine ⟨block.blockNumber, rfl, ?_⟩
      rw [hbatches, List.mem_append, List.mem_singleton] at hb
      obtain hb | rfl := hb
      · have := hlt b hb
        omega
      · omega
    · rw [hbatches, List.map_append, List.sum_append, ← h.bytes_eq]
      simp
    · exact hword
    · show queue.bytes + block.wireBytes ≤ limits.queueBytes
      omega
    · rw [hbatches, List.length_append, List.length_singleton, ← length_deque]
      omega
    · intro a ha b hb
      rw [hbatches, List.mem_append, List.mem_singleton] at ha hb
      obtain hb | rfl := hb
      · obtain ha | rfl := ha
        · exact h.span_le a ha b hb
        · have := hlt b hb
          omega
      · obtain ha | rfl := ha
        · cases hd : queue.deque.head? with
          | none =>
            rw [List.head?_eq_none_iff] at hd
            simp [batches, hd] at ha
          | some e =>
            have hle := h.front_le hd ha
            simp only [hd, Bool.or_eq_true, decide_eq_true_eq, not_or] at hfront
            omega
        · omega

/-- What the front weighs is counted, so taking it off does not wrap. -/
theorem Accounted.popFront_bytes (h : queue.Accounted limits) {batch : Batch E}
    (hfront : queue.front = some batch) :
    batch.wireBytes ≤ queue.bytes ∧ queue.popFront.2.bytes = queue.bytes - batch.wireBytes := by
  obtain ⟨-, hbatches, -⟩ := front_eq_some hfront
  have hle : batch.wireBytes ≤ queue.bytes := by
    rw [h.bytes_eq, hbatches, List.map_cons, List.sum_cons]
    omega
  have hpop : queue.popFront.2.bytes = U64.wrappingSub queue.bytes batch.wireBytes := by
    unfold front at hfront
    unfold popFront
    cases hd : queue.deque with
    | nil => simp [hd] at hfront
    | cons e rest =>
      have he : e.1 = batch := by simpa [hd] using hfront
      simp [he]
  exact ⟨hle, hpop.trans (U64.wrappingSub_of_le h.bytes_lt hle)⟩

theorem Accounted.popFront (h : queue.Accounted limits) : queue.popFront.2.Accounted limits := by
  cases hfront : queue.front with
  | none =>
    have hnone : queue.popFront.2 = queue := by
      unfold front at hfront
      unfold BatchQueue.popFront
      cases hd : queue.deque with
      | nil => rfl
      | cons e rest => simp [hd] at hfront
    rw [hnone]
    exact h
  | some batch =>
    obtain ⟨-, hbatches, hlast⟩ := front_eq_some hfront
    obtain ⟨hle, hbytes⟩ := h.popFront_bytes hfront
    have hmem : ∀ b ∈ queue.popFront.2.batches, b ∈ queue.batches := by
      intro b hb
      rw [hbatches]
      exact List.mem_cons_of_mem _ hb
    have hsum := h.bytes_eq
    have hlength := h.length_le
    have hincreasing := h.increasing
    rw [hbatches, List.map_cons, List.sum_cons] at hsum
    rw [hbatches, List.length_cons] at hlength
    rw [hbatches] at hincreasing
    have hlt := h.bytes_lt
    have hlimit := h.bytes_le
    constructor
    · exact hincreasing.of_cons
    · rw [hlast]
      exact fun b hb => h.le_last b (hmem b hb)
    · omega
    · omega
    · omega
    · omega
    · exact fun a ha b hb => h.span_le a (hmem a ha) b (hmem b hb)

/-- What a queue does next leaves its counter exact: the front is counted, and a block that is
refused is not. -/
structure Exact (limits : ResourceLimits) (queue : BatchQueue E) : Prop
    extends queue.Accounted limits where
  pops : ∀ batch, queue.front = some batch →
    batch.wireBytes ≤ queue.bytes ∧ queue.popFront.2.bytes = queue.bytes - batch.wireBytes
  refuses : ∀ block now after, queue.push block limits now = .ok (false, after) → after = queue

theorem Accounted.exact (h : queue.Accounted limits) : queue.Exact limits := by
  refine ⟨h, fun _ hfront => h.popFront_bytes hfront, fun block now after hpush => ?_⟩
  have hpushed := push_ok hpush
  cases hpushed with
  | old => rfl

end BatchQueue

theorem Synced.accounted {S D : Type} {limits : ResourceLimits} {statuses statuses' : BatchQueue S}
    {diffs diffs' : BatchQueue D} {pair : Option (Batch S × Batch D)}
    (h : Synced statuses diffs pair statuses' diffs') (hs : statuses.Accounted limits)
    (hd : diffs.Accounted limits) : statuses'.Accounted limits ∧ diffs'.Accounted limits := by
  induction h with
  | starved => exact ⟨hs, hd⟩
  | matched => exact ⟨hs.popFront, hd.popFront⟩
  | dropDiff _ _ _ _ ih => exact ih hs hd.popFront
  | dropStatus _ _ _ _ ih => exact ih hs.popFront hd

namespace OrderBookListener

/-- The bytes that a pair takes in the cache of a validation. -/
def pairBytes (pair : BlockPair) : ℕ := pair.1.wireBytes + pair.2.wireBytes

/-- Both queues and the cache count what they hold, and the cache is within the limits. -/
structure Accounted (limits : ResourceLimits) (l : OrderBookListener) : Prop where
  limits_eq : l.limits = limits
  statuses : l.orderStatusCache.Accounted limits
  diffs : l.orderDiffCache.Accounted limits
  uncached : l.fetchedSnapshotCache = none → l.snapshotCacheBytes = 0
  cached : ∀ cache, l.fetchedSnapshotCache = some cache →
    l.snapshotCacheBytes = (cache.map pairBytes).sum ∧
    l.snapshotCacheBytes ≤ limits.queueBytes ∧ cache.length ≤ limits.queueHeights

section Accounted

variable {limits : ResourceLimits} {l l' : OrderBookListener}

/-- Nothing but the limits, the queues and the cache is looked at. -/
theorem Accounted.congr (h : Accounted limits l) (hlimits : l'.limits = l.limits)
    (hstatuses : l'.orderStatusCache = l.orderStatusCache)
    (hdiffs : l'.orderDiffCache = l.orderDiffCache)
    (hbytes : l'.snapshotCacheBytes = l.snapshotCacheBytes)
    (hcache : l'.fetchedSnapshotCache = l.fetchedSnapshotCache) : Accounted limits l' where
  limits_eq := hlimits.trans h.limits_eq
  statuses := by
    rw [hstatuses]
    exact h.statuses
  diffs := by
    rw [hdiffs]
    exact h.diffs
  uncached := by
    rw [hcache, hbytes]
    exact h.uncached
  cached := by
    rw [hcache, hbytes]
    exact h.cached

theorem Accounted.setQueues (h : Accounted limits l) {statuses : BatchQueue NodeDataOrderStatus}
    {diffs : BatchQueue NodeDataOrderDiff} (hs : statuses.Accounted limits)
    (hd : diffs.Accounted limits) :
    Accounted limits { l with orderStatusCache := statuses, orderDiffCache := diffs } :=
  ⟨h.limits_eq, hs, hd, h.uncached, h.cached⟩

theorem Accounted.send (h : Accounted limits l) (message : InternalMessage) :
    Accounted limits (l.send message) := h.congr rfl rfl rfl rfl rfl

theorem Accounted.setBook (h : Accounted limits l) (book : Option OrderBookState) :
    Accounted limits { l with orderBookState := book } := h.congr rfl rfl rfl rfl rfl

theorem Accounted.dropCache (h : Accounted limits l) : Accounted limits l.dropCache :=
  ⟨h.limits_eq, h.statuses, h.diffs, fun _ => rfl, fun _ hcache => nomatch hcache⟩

theorem Accounted.takeCache (h : Accounted limits l) : Accounted limits l.takeCache.2 :=
  ⟨h.limits_eq, h.statuses, h.diffs, fun _ => rfl, fun _ hcache => nomatch hcache⟩

theorem Accounted.beginCaching (h : Accounted limits l) (now : Instant) :
    Accounted limits (l.beginCaching now) := by
  refine ⟨h.limits_eq, h.statuses, h.diffs, fun hcache => (nomatch hcache), fun cache hcache => ?_⟩
  obtain rfl : [] = cache := Option.some.inj hcache
  exact ⟨rfl, Nat.zero_le _, Nat.zero_le _⟩

theorem Accounted.fence (h : Accounted limits l) : Accounted limits l.fence :=
  ⟨h.limits_eq, BatchQueue.accounted_new limits, BatchQueue.accounted_new limits, fun _ => rfl,
    fun _ hcache => nomatch hcache⟩

theorem Accounted.popCache (h : Accounted limits l) : Accounted limits l.popCache.2 := by
  obtain ⟨hs, hd⟩ := (popPair_synced l.orderStatusCache l.orderDiffCache).accounted h.statuses h.diffs
  exact h.setQueues hs hd

theorem Accounted.accept (h : Accounted limits l) {now : Instant} {batch : EventBatch}
    (ha : l.accept now batch = .ok l') : Accounted limits l' := by
  cases batch with
  | orders batch =>
    obtain ⟨⟨added, queue⟩, hpush, heq⟩ := bind_eq_ok.mp ha
    obtain rfl := Except.ok.inj heq
    rw [h.limits_eq] at hpush
    exact h.setQueues (h.statuses.push hpush) h.diffs
  | bookDiffs batch =>
    obtain ⟨⟨added, queue⟩, hpush, heq⟩ := bind_eq_ok.mp ha
    obtain rfl := Except.ok.inj heq
    rw [h.limits_eq] at hpush
    exact h.setQueues h.statuses (h.diffs.push hpush)
  | fills batch =>
    dsimp only [OrderBookListener.accept] at ha
    split_ifs at ha
    · obtain rfl := Except.ok.inj ha
      exact h.congr rfl rfl rfl rfl rfl
    · obtain rfl := Except.ok.inj ha
      exact h

/-- A pair is only cached where the counter does not wrap and stays within the limits. -/
theorem Accounted.recordPair (h : Accounted limits l) (pair : BlockPair) :
    Accounted limits (l.recordPair pair).1 := by
  unfold OrderBookListener.recordPair
  cases hpair : U64.checkedAdd pair.1.wireBytes pair.2.wireBytes with
  | none => exact h
  | some bytes =>
    obtain rfl : pairBytes pair = bytes := by
      unfold U64.checkedAdd at hpair
      split_ifs at hpair
      exact Option.some.inj hpair
    dsimp only
    by_cases hfull : l.cacheFull (U64.checkedAdd l.snapshotCacheBytes (pairBytes pair)) = true
    · rw [if_pos hfull]
      exact h.dropCache.send _
    rw [if_neg hfull]
    cases hcache : l.fetchedSnapshotCache with
    | none => exact h.send _
    | some cache =>
      simp only [cacheFull, hcache, Option.any_some, Bool.or_eq_true, decide_eq_true_eq, not_or] at hfull
      cases hnext : U64.checkedAdd l.snapshotCacheBytes (pairBytes pair) with
      | none => exact h
      | some next =>
        obtain ⟨hsum, -, -⟩ := h.cached cache hcache
        obtain rfl : l.snapshotCacheBytes + pairBytes pair = next := by
          unfold U64.checkedAdd at hnext
          split_ifs at hnext
          exact Option.some.inj hnext
        rw [hnext, Option.all_some, decide_eq_true_eq, h.limits_eq] at hfull
        refine ⟨h.limits_eq, h.statuses, h.diffs, fun hnone => (by cases hnone), fun after hafter => ?_⟩
        obtain rfl : cache ++ [pair] = after := Option.some.inj hafter
        refine ⟨?_, ?_, ?_⟩
        · show l.snapshotCacheBytes + pairBytes pair = _
          rw [List.map_append, List.sum_append, hsum]
          simp
        · show l.snapshotCacheBytes + pairBytes pair ≤ _
          omega
        · rw [List.length_append, List.length_singleton]
          omega

theorem Accounted.advance (h : Accounted limits l) : Accounted limits l.advance.1 := by
  unfold OrderBookListener.advance
  cases hbook : l.orderBookState with
  | none => exact h
  | some book =>
    have hpop := h.popCache
    dsimp only
    generalize l.popCache = out at hpop ⊢
    obtain ⟨pair, popped⟩ := out
    cases pair with
    | none => exact hpop
    | some pair =>
      dsimp only at hpop ⊢
      split_ifs with hle
      · exact hpop
      · rcases book.applyUpdates pair.1 pair.2 with ⟨next, fault | ⟨⟩⟩
        · exact hpop.setBook _
        · exact (hpop.setBook _).recordPair pair

theorem Accounted.receiveBatch (h : Accounted limits l) (now : Instant) (updates : EventBatch) :
    Accounted limits (l.receiveBatch now updates).1 := by
  unfold OrderBookListener.receiveBatch
  cases ha : l.accept now updates with
  | error e => exact h
  | ok mid => exact (h.accept ha).advance

theorem Accounted.publishViews (h : Accounted limits l) : Accounted limits l.publishViews := by
  unfold OrderBookListener.publishViews OrderBookListener.l2Snapshots
  cases l.orderBookState with
  | none => exact h
  | some book =>
    dsimp only
    rcases book.l2Snapshots true with ⟨views, next⟩
    cases views with
    | none => exact h.setBook _
    | some views => exact (h.setBook _).send _

theorem Accounted.processRecords (h : Accounted limits l) (serde : SerdeJson) (source : EventSource)
    (clock : ℕ → Instant) (records : List (List Char)) :
    Accounted limits (OrderBookListener.processRecords serde source clock l records).1 := by
  obtain ⟨after, outcome, hrun⟩ := processRecords_run serde source clock l records
  rw [hrun.eq]
  induction hrun with
  | done => exact h
  | incomplete => exact h
  | blank _ _ _ ih => exact ih h
  | malformed => exact h
  | @failed l next record records batch _ _ _ _ hreceive =>
    have hnext := h.receiveBatch (clock records.length) batch
    rw [hreceive] at hnext
    exact hnext.setBook none
  | @received l next after record records batch _ _ _ _ hreceive _ ih =>
    have hnext := h.receiveBatch (clock records.length) batch
    rw [hreceive] at hnext
    exact ih hnext

/-- Whatever the outcome of a turn, also where it ends in the middle. -/
theorem Accounted.processData (h : Accounted limits l) (serde : SerdeJson) (data : String)
    (source : EventSource) (clock : ℕ → Instant) :
    Accounted limits (l.processData serde data source clock).1 := by
  have hrecords := h.processRecords serde source clock (splitInclusive [] data.toList)
  unfold OrderBookListener.processData
  generalize OrderBookListener.processRecords serde source clock l (splitInclusive [] data.toList) =
    out at hrecords ⊢
  obtain ⟨next, fault | ⟨⟩⟩ := out
  · exact hrecords
  · exact hrecords.publishViews

theorem Accounted.turn (h : Accounted limits l) {serde : SerdeJson} {data : String}
    {source : EventSource} {clock : ℕ → Instant} (ht : l.turn serde data source clock = some l') :
    Accounted limits l' := by
  have hdata := h.processData serde data source clock
  unfold OrderBookListener.turn at ht
  split_ifs at ht with hempty
  · obtain rfl := Option.some.inj ht
    exact h
  rcases hout : l.processData serde data source clock with ⟨next, (e | -) | ⟨⟩⟩
  · rw [hout] at ht hdata
    obtain rfl := Option.some.inj ht
    exact hdata.fence
  · rw [hout] at ht
    cases ht
  · rw [hout] at ht hdata
    obtain rfl := Option.some.inj ht
    exact hdata

theorem Accounted.maintained (h : Accounted limits l) (hm : Maintained l l') :
    Accounted limits l' := by
  cases hm with
  | kept => exact h
  | aged => exact h.dropCache
  | fenced => exact h.fence
  | agedFenced => exact h.dropCache.fence

theorem Accounted.progress {serde : SerdeJson} {queued : List EventBatch} (h : Accounted limits l)
    (hp : Progress serde l queued l') : Accounted limits l' := by
  cases hp with
  | turn data source clock ht => exact h.turn ht
  | fence => exact h.fence
  | maintenance => exact h.maintained (maintenance_cases l _)
  | computeL2Snapshot =>
    unfold OrderBookListener.computeL2Snapshot
    cases l.orderBookState with
    | none => exact h
    | some book => exact h.setBook _

theorem Accounted.initLoop (h : Accounted limits l) (turns : ℕ) (s : OrderBookState) :
    Accounted limits (OrderBookListener.initLoop turns l s).1 := by
  induction turns generalizing l s with
  | zero => exact h
  | succ turns ih =>
    have hpop := h.popCache
    rw [OrderBookListener.initLoop]
    generalize l.popCache = out at hpop ⊢
    obtain ⟨pair, popped⟩ := out
    cases pair with
    | none => exact hpop
    | some pair =>
      dsimp only at hpop ⊢
      rcases s.applyUpdates pair.1 pair.2 with ⟨next, (e | -) | ⟨⟩⟩
      · exact hpop
      · exact hpop
      · exact ih hpop next

theorem Accounted.initFromSnapshot (h : Accounted limits l) (snapshot : Snapshots InnerL4Order)
    (height : ℕ) : Accounted limits (l.initFromSnapshot snapshot height).1 := by
  have hloop := h.initLoop (l.orderStatusCache.deque.length + 1)
    (.fromSnapshot snapshot height 0 true l.ignoreSpot)
  unfold OrderBookListener.initFromSnapshot
  dsimp only
  generalize OrderBookListener.initLoop (l.orderStatusCache.deque.length + 1) l
    (.fromSnapshot snapshot height 0 true l.ignoreSpot) = out at hloop ⊢
  obtain ⟨next, fault | (- | book)⟩ := out
  · exact hloop
  · exact hloop
  · exact hloop.setBook _

theorem Accounted.rebuild (h : Accounted limits l) (snapshot : Snapshots InnerL4Order)
    (height time : ℕ) (cache : List BlockPair) (emptyAdditions : Bool) :
    Accounted limits (l.rebuild snapshot height time cache emptyAdditions).1 := by
  unfold OrderBookListener.rebuild
  dsimp only
  cases replay (.fromSnapshot snapshot height time true l.ignoreSpot) cache with
  | error fault => exact h
  | ok recovered =>
    dsimp only
    split_ifs
    · exact (h.setBook _).publishViews
    · exact (h.setBook _).send _

theorem Accounted.reconcileSnapshot (h : Accounted limits l) (mapOrder : MapOrder)
    (state : Option OrderBookState) (snapshot : Snapshots InnerL4Order) (height : ℕ)
    (cache : List BlockPair) :
    Accounted limits (OrderBookListener.reconcileSnapshot mapOrder l state snapshot height cache).1 := by
  unfold OrderBookListener.reconcileSnapshot
  cases state with
  | none => exact h.initFromSnapshot snapshot height
  | some state =>
    dsimp only
    rcases replayTo height state cache with fault | (- | ⟨reached, rest⟩)
    · exact h
    · exact h
    · dsimp only
      split_ifs
      · exact h
      · rcases validateSnapshotConsistency mapOrder reached.computeSnapshot.snapshot snapshot
          l.ignoreSpot with e | (- | -)
        · exact h.rebuild snapshot height 0 rest false
        · exact h
        · exact h.rebuild snapshot height _ rest true

theorem Accounted.finishSnapshot (h : Accounted limits l) (mapOrder : MapOrder) (epoch : BitVec 64)
    (state : Option OrderBookState) (snapshot : Snapshots InnerL4Order) (height : ℕ) :
    Accounted limits (l.finishSnapshot mapOrder epoch state snapshot height).1 := by
  unfold OrderBookListener.finishSnapshot
  split_ifs
  · exact h
  · exact h.takeCache.reconcileSnapshot mapOrder state snapshot height _

end Accounted

namespace World

theorem run_accounted {serde : SerdeJson} {limits : ResourceLimits}
    {internalMessageTx : Option (List InternalMessage)} {ignoreSpot : Bool} {scope : CoinScope}
    {w : World}
    (h : Relation.ReflTransGen (Step serde) (start limits internalMessageTx ignoreSpot scope) w) :
    Accounted limits w.listener := by
  induction h with
  | refl =>
    exact ⟨rfl, BatchQueue.accounted_new limits, BatchQueue.accounted_new limits, fun _ => rfl,
      fun _ hcache => nomatch hcache⟩
  | tail _ hstep ih =>
    cases hstep with
    | progress hp => exact ih.progress hp
    | beginCaching now => exact ih.beginCaching now
    | cloneState => exact ih
    | takeCache => exact ih.takeCache
    | finishSnapshot mapOrder epoch snapshot height =>
      exact ih.finishSnapshot mapOrder epoch _ snapshot height

/-- In every run both queues and the cache of a validation count exactly what they hold, within
the limits; a block that is refused changes nothing. -/
theorem accounting_exact_and_bounded {serde : SerdeJson} {limits : ResourceLimits}
    {internalMessageTx : Option (List InternalMessage)} {ignoreSpot : Bool} {scope : CoinScope}
    {w : World}
    (hrun : Relation.ReflTransGen (Step serde) (start limits internalMessageTx ignoreSpot scope) w) :
    w.listener.limits = limits ∧
    w.listener.orderStatusCache.Exact limits ∧ w.listener.orderDiffCache.Exact limits ∧
    (∀ now updates e, w.listener.accept now updates = .error e →
      w.listener.receiveBatch now updates = (w.listener, .error (.error e))) ∧
    (w.listener.fetchedSnapshotCache = none → w.listener.snapshotCacheBytes = 0) ∧
    (∀ cache, w.listener.fetchedSnapshotCache = some cache →
      w.listener.snapshotCacheBytes =
        (cache.map fun pair => pair.1.wireBytes + pair.2.wireBytes).sum ∧
      w.listener.snapshotCacheBytes ≤ limits.queueBytes ∧ cache.length ≤ limits.queueHeights) ∧
    ∀ data source clock, Accounted limits (w.listener.processData serde data source clock).1 := by
  have h := run_accounted hrun
  refine ⟨h.limits_eq, h.statuses.exact, h.diffs.exact, fun now updates e he => ?_, h.uncached,
    h.cached, fun data source clock => h.processData serde data source clock⟩
  rw [receiveBatch, he]

/-- A snapshot without books at height 5, and an empty block from each source while a validation
is in progress: both are counted. -/
theorem accounting_exact_and_bounded_block_six : ∃ (w : World) (cache : List BlockPair),
    w.listener.fetchedSnapshotCache = some cache ∧ cache.length = 1 ∧
      w.listener.snapshotCacheBytes =
        (cache.map fun pair => pair.1.wireBytes + pair.2.wireBytes).sum := by
  obtain ⟨mid, last, s, hmid, hlast, -⟩ := cachingAtFive_turns
  have hone : (((cachingAtFive.turn .ofEmptyBlock (SerdeJson.emptyBlockLine ++ "\n")
      .orderStatuses fun _ => 0).bind fun mid =>
      mid.turn .ofEmptyBlock (SerdeJson.emptyBlockLine ++ "\n") .orderDiffs fun _ => 0).bind
        fun last => last.fetchedSnapshotCache.map List.length) = some 1 := by
    simp only [turn, processData_line SerdeJson.emptyBlockLine (by decide) (by decide +kernel)]
    decide +kernel
  rw [hmid, Option.bind_some, hlast, Option.bind_some] at hone
  obtain ⟨w, hready, -, -, hw, -⟩ := run_first_snapshot .ofEmptyBlock false ∅
  have hcaching := hready.tail (.beginCaching _ 0)
  rw [cachingAtFive, readyAt, ← hw] at hmid
  have hrun := (hcaching.tail (.progress (.turn _ _ _ hmid))).tail (.progress (.turn _ _ _ hlast))
  obtain ⟨cache, hcache, hlength⟩ := Option.map_eq_some_iff.mp hone
  obtain ⟨-, -, -, -, -, hcached, -⟩ := accounting_exact_and_bounded hrun
  exact ⟨_, cache, hcache, hlength, (hcached cache hcache).1⟩

end World
end OrderBookListener
end OrderBookServer
