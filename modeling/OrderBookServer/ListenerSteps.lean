import OrderBookServer.Replay

/-!
# What a call to the listener can do

One relation says what each call does when it succeeds: a batch is accepted, the
live books advance by at most one pair, and the pair is recorded. A turn is a
chain of batches received, and then the views are published or the stream is
fenced. Every result about runs is derived from these.
-/
namespace OrderBookServer
namespace OrderBookListener

/-! ### Batches -/

/-- The height of a batch is not new to its source. -/
def seen (self : OrderBookListener) : EventBatch → Bool
  | .orders batch =>
    self.orderStatusCache.lastTs.any fun last => decide (last ≥ batch.blockNumber)
  | .bookDiffs batch =>
    self.orderDiffCache.lastTs.any fun last => decide (last ≥ batch.blockNumber)
  | .fills batch => self.lastFill.any fun last => decide (last ≥ batch.blockNumber)

/-- A batch that is accepted: the batches it leaves queued, and the listener after. -/
inductive Accepted (self : OrderBookListener) :
    EventBatch → List EventBatch → OrderBookListener → Prop
  | old {batch : EventBatch} (h : self.seen batch = true) : Accepted self batch [] self
  | orders {batch : Batch NodeDataOrderStatus} {queue : BatchQueue NodeDataOrderStatus}
      (h : self.orderStatusCache.Pushed batch true queue) :
      Accepted self (.orders batch) [.orders batch] { self with orderStatusCache := queue }
  | bookDiffs {batch : Batch NodeDataOrderDiff} {queue : BatchQueue NodeDataOrderDiff}
      (h : self.orderDiffCache.Pushed batch true queue) :
      Accepted self (.bookDiffs batch) [.bookDiffs batch] { self with orderDiffCache := queue }
  | fills {batch : Batch NodeDataFill} (h : ∀ last, self.lastFill = some last → last < batch.blockNumber) :
      Accepted self (.fills batch) []
        ({ self with lastFill := some batch.blockNumber }.send (.fills batch))

/-- A batch given to the listener enters a queue. -/
def queues (self : OrderBookListener) (now : Instant) : EventBatch → List EventBatch
  | .orders batch =>
    match self.orderStatusCache.push batch self.limits now with
    | .ok (true, _) => [.orders batch]
    | _ => []
  | .bookDiffs batch =>
    match self.orderDiffCache.push batch self.limits now with
    | .ok (true, _) => [.bookDiffs batch]
    | _ => []
  | .fills _ => []

theorem eq_of_mem_queues {self : OrderBookListener} {now : Instant} {batch found : EventBatch}
    (h : batch ∈ self.queues now found) : found = batch := by
  cases found with
  | fills found => simp [queues] at h
  | orders found =>
    simp only [queues] at h
    split at h <;> simp_all
  | bookDiffs found =>
    simp only [queues] at h
    split at h <;> simp_all

theorem accept_ok {self after : OrderBookListener} {now : Instant} {batch : EventBatch}
    (h : self.accept now batch = .ok after) : Accepted self batch (self.queues now batch) after := by
  cases batch with
  | orders batch =>
    cases hp : self.orderStatusCache.push batch self.limits now with
    | error e => simp [accept, hp, bind, Except.bind] at h
    | ok out =>
      obtain ⟨added, queue⟩ := out
      have hpushed := BatchQueue.push_ok hp
      simp only [accept, hp, bind, Except.bind, pure, Except.pure, Except.ok.injEq] at h
      subst h
      simp only [queues, hp]
      cases hpushed with
      | old hlast hle => exact .old (by simp [seen, hlast, hle])
      | new hnew hbatches hlast => exact .orders (.new hnew hbatches hlast)
  | bookDiffs batch =>
    cases hp : self.orderDiffCache.push batch self.limits now with
    | error e => simp [accept, hp, bind, Except.bind] at h
    | ok out =>
      obtain ⟨added, queue⟩ := out
      have hpushed := BatchQueue.push_ok hp
      simp only [accept, hp, bind, Except.bind, pure, Except.pure, Except.ok.injEq] at h
      subst h
      simp only [queues, hp]
      cases hpushed with
      | old hlast hle => exact .old (by simp [seen, hlast, hle])
      | new hnew hbatches hlast => exact .bookDiffs (.new hnew hbatches hlast)
  | fills batch =>
    simp only [accept] at h
    split_ifs at h with hnew
    · cases h
      refine .fills fun last hlast => ?_
      simpa [hlast] using hnew
    · cases h
      refine .old ?_
      cases hlast : self.lastFill with
      | none => simp [hlast] at hnew
      | some last => simpa [seen, hlast] using hnew

theorem accept_error {self : OrderBookListener} {now : Instant} {batch : EventBatch} {e : Error}
    (h : self.accept now batch = .error e) : self.queues now batch = [] := by
  cases batch with
  | orders batch =>
    cases hp : self.orderStatusCache.push batch self.limits now with
    | error e => simp [queues, hp]
    | ok out => simp [accept, hp, bind, Except.bind, pure, Except.pure] at h
  | bookDiffs batch =>
    cases hp : self.orderDiffCache.push batch self.limits now with
    | error e => simp [queues, hp]
    | ok out => simp [accept, hp, bind, Except.bind, pure, Except.pure] at h
  | fills batch => rfl

/-! ### The live books -/

/-- How an applied pair is recorded and published. -/
inductive Recorded (self : OrderBookListener) (pair : BlockPair) : OrderBookListener → Prop
  | uncached (h : self.fetchedSnapshotCache = none) :
      Recorded self pair (self.send (.l4BookUpdates pair.2 pair.1))
  | dropped {cache : List BlockPair} (h : self.fetchedSnapshotCache = some cache) :
      Recorded self pair (self.dropCache.send (.l4BookUpdates pair.2 pair.1))
  | cached {cache : List BlockPair} {bytes : ℕ} (h : self.fetchedSnapshotCache = some cache) :
      Recorded self pair
        ({ self with
          snapshotCacheBytes := bytes
          fetchedSnapshotCache := some (cache ++ [pair]) }.send (.l4BookUpdates pair.2 pair.1))

/-- What a call that advances the live books does. -/
inductive Stepped (self : OrderBookListener) : OrderBookListener → Prop
  | notReady (h : self.orderBookState = none) : Stepped self self
  | idle {book : OrderBookState} {statuses : BatchQueue NodeDataOrderStatus}
      {diffs : BatchQueue NodeDataOrderDiff} (h : self.orderBookState = some book)
      (hsync : Synced self.orderStatusCache self.orderDiffCache none statuses diffs) :
      Stepped self { self with orderStatusCache := statuses, orderDiffCache := diffs }
  | stale {book : OrderBookState} {pair : BlockPair} {statuses : BatchQueue NodeDataOrderStatus}
      {diffs : BatchQueue NodeDataOrderDiff} (h : self.orderBookState = some book)
      (hsync : Synced self.orderStatusCache self.orderDiffCache (some pair) statuses diffs)
      (hle : pair.1.blockNumber ≤ book.height) :
      Stepped self { self with orderStatusCache := statuses, orderDiffCache := diffs }
  | applied {book next : OrderBookState} {pair : BlockPair}
      {statuses : BatchQueue NodeDataOrderStatus} {diffs : BatchQueue NodeDataOrderDiff}
      {after : OrderBookListener} (h : self.orderBookState = some book)
      (hsync : Synced self.orderStatusCache self.orderDiffCache (some pair) statuses diffs)
      (hgt : book.height < pair.1.blockNumber)
      (happlied : book.applyUpdates pair.1 pair.2 = (next, .ok ()))
      (hrecorded : Recorded { self with
        orderStatusCache := statuses
        orderDiffCache := diffs
        orderBookState := some next } pair after) : Stepped self after

/-- A cache that is not full has bytes left, so recording fails on the byte count
of the pair only, and before anything has changed. -/
theorem recordPair_cases (self : OrderBookListener) (pair : BlockPair) :
    (∃ after, self.recordPair pair = (after, .ok ()) ∧ Recorded self pair after) ∨
      self.recordPair pair = (self, .error (.error .pairedByteOverflow)) := by
  unfold recordPair
  cases hpair : U64.checkedAdd pair.1.wireBytes pair.2.wireBytes with
  | none => exact .inr rfl
  | some pairBytes =>
    refine .inl ?_
    dsimp only
    by_cases hfull : self.cacheFull (U64.checkedAdd self.snapshotCacheBytes pairBytes) = true
    · rw [if_pos hfull]
      cases hcache : self.fetchedSnapshotCache with
      | none => simp [cacheFull, hcache] at hfull
      | some cache => exact ⟨_, rfl, .dropped hcache⟩
    · rw [if_neg hfull]
      cases hcache : self.fetchedSnapshotCache with
      | none => exact ⟨_, rfl, .uncached hcache⟩
      | some cache =>
        cases hbytes : U64.checkedAdd self.snapshotCacheBytes pairBytes with
        | none => simp [cacheFull, hcache, hbytes] at hfull
        | some bytes => exact ⟨_, rfl, .cached hcache⟩

/-- A fence keeps six fields and resets the others. -/
theorem fence_congr {self other : OrderBookListener} (hlimits : self.limits = other.limits)
    (hepoch : self.recoveryEpoch = other.recoveryEpoch)
    (hspot : self.ignoreSpot = other.ignoreSpot) (hscope : self.scope = other.scope)
    (hfill : self.lastFill = other.lastFill)
    (hsent : self.internalMessageTx = other.internalMessageTx) : self.fence = other.fence := by
  simp only [fence, send, hlimits, hepoch, hspot, hscope, hfill, hsent]

/-- Advancing the live books either does one of the four, or fails in a way that
only a fence undoes. -/
theorem advance_cases (self : OrderBookListener) :
    (∃ after, self.advance = (after, .ok ()) ∧ Stepped self after) ∨
      ∃ after fault, self.advance = (after, .error fault) ∧
        after.fence = self.fence := by
  unfold advance
  cases hbook : self.orderBookState with
  | none => exact .inl ⟨_, rfl, .notReady hbook⟩
  | some book =>
    have hsync := popPair_synced self.orderStatusCache self.orderDiffCache
    simp only [popCache]
    rcases hout : popPair self.orderStatusCache self.orderDiffCache with ⟨pair, statuses, diffs⟩
    rw [hout] at hsync
    cases pair with
    | none => exact .inl ⟨_, rfl, .idle hbook hsync⟩
    | some pair =>
      dsimp only
      split_ifs with hle
      · exact .inl ⟨_, rfl, .stale hbook hsync hle⟩
      · rcases happly : book.applyUpdates pair.1 pair.2 with ⟨next, fault | ⟨⟩⟩
        · exact .inr ⟨_, fault, rfl, fence_congr rfl rfl rfl rfl rfl rfl⟩
        · dsimp only
          rcases recordPair_cases { self with
            orderStatusCache := statuses
            orderDiffCache := diffs
            orderBookState := some next } pair with ⟨after, hr, hrecorded⟩ | hr
          · exact .inl ⟨after, hr, .applied hbook hsync (by omega) happly hrecorded⟩
          · exact .inr ⟨_, _, hr, fence_congr rfl rfl rfl rfl rfl rfl⟩

/-! ### Turns -/

/-- Batches received one after the other without an error, and those of them that
were queued. -/
inductive Received : OrderBookListener → List EventBatch → OrderBookListener → Prop
  | nil (self : OrderBookListener) : Received self [] self
  | cons {self mid next last : OrderBookListener} {batch : EventBatch}
      {queued batches : List EventBatch} (haccepted : Accepted self batch queued mid)
      (hstepped : Stepped mid next) (rest : Received next batches last) :
      Received self (queued ++ batches) last

theorem receiveBatch_ok {self after : OrderBookListener} {now : Instant} {batch : EventBatch}
    (h : self.receiveBatch now batch = (after, .ok ())) :
    ∃ mid, Accepted self batch (self.queues now batch) mid ∧ Stepped mid after := by
  unfold receiveBatch at h
  cases ha : self.accept now batch with
  | error e => rw [ha] at h; cases h
  | ok mid =>
    simp only [ha] at h
    rcases mid.advance_cases with ⟨next, hn, hstepped⟩ | ⟨next, fault, hn, -⟩
    · rw [hn] at h
      cases h
      exact ⟨mid, accept_ok ha, hstepped⟩
    · rw [hn] at h
      cases h

theorem receiveBatch_error {self after : OrderBookListener} {now : Instant} {batch : EventBatch}
    {fault : Fault} (h : self.receiveBatch now batch = (after, .error fault)) :
    (self.queues now batch = [] ∧ after.fence = self.fence) ∨
      ∃ mid, Accepted self batch (self.queues now batch) mid ∧
        after.fence = mid.fence := by
  unfold receiveBatch at h
  cases ha : self.accept now batch with
  | error e =>
    rw [ha] at h
    cases h
    exact .inl ⟨accept_error ha, fence_congr rfl rfl rfl rfl rfl rfl⟩
  | ok mid =>
    simp only [ha] at h
    rcases mid.advance_cases with ⟨next, hn, -⟩ | ⟨next, f, hn, hfence⟩
    · rw [hn] at h
      cases h
    · rw [hn] at h
      cases h
      exact .inr ⟨mid, accept_ok ha, hfence⟩

/-- The batches of the records that enter a queue, up to the first error. -/
def queuedRecords (serde : SerdeJson) (source : EventSource) (clock : ℕ → Instant) :
    OrderBookListener → List (List Char) → List EventBatch
  | _, [] => []
  | self, record :: records =>
    if record.getLast? ≠ some '\n' then []
    else
      let line := trimEnd record
      if line.isEmpty then queuedRecords serde source clock self records
      else
        match parseLine serde source (String.ofList line) self.scope with
        | .error _ => []
        | .ok batch =>
          self.queues (clock records.length) batch ++
            match self.receiveBatch (clock records.length) batch with
            | (_, .error _) => []
            | (self, .ok ()) => queuedRecords serde source clock self records

def queuedData (serde : SerdeJson) (self : OrderBookListener) (data : String) (source : EventSource)
    (clock : ℕ → Instant) : List EventBatch :=
  queuedRecords serde source clock self (splitInclusive [] data.toList)

/-- What the loop over the records does: it goes on past a blank line and past a batch that
is received, and ends at anything else. -/
inductive RecordsRun (serde : SerdeJson) (source : EventSource) (clock : ℕ → Instant) :
    OrderBookListener → List (List Char) → OrderBookListener → Except Fault Unit → Prop
  | done (self : OrderBookListener) : RecordsRun serde source clock self [] self (.ok ())
  | incomplete {self : OrderBookListener} {record : List Char} {records : List (List Char)}
      (hend : record.getLast? ≠ some '\n') : RecordsRun serde source clock self (record :: records)
        self (.error (.error .incompleteRecord))
  | blank {self after : OrderBookListener} {record : List Char} {records : List (List Char)}
      {outcome : Except Fault Unit} (hend : record.getLast? = some '\n')
      (hline : (trimEnd record).isEmpty = true)
      (rest : RecordsRun serde source clock self records after outcome) :
      RecordsRun serde source clock self (record :: records) after outcome
  | malformed {self : OrderBookListener} {record : List Char} {records : List (List Char)}
      {message : String} (hend : record.getLast? = some '\n')
      (hline : (trimEnd record).isEmpty = false)
      (hparse : parseLine serde source (String.ofList (trimEnd record)) self.scope =
        .error message) :
      RecordsRun serde source clock self (record :: records) self
        (.error (.error (.malformedRecord source message)))
  | failed {self next : OrderBookListener} {record : List Char} {records : List (List Char)}
      {batch : EventBatch} {fault : Fault} (hend : record.getLast? = some '\n')
      (hline : (trimEnd record).isEmpty = false)
      (hparse : parseLine serde source (String.ofList (trimEnd record)) self.scope = .ok batch)
      (hreceive : self.receiveBatch (clock records.length) batch = (next, .error fault)) :
      RecordsRun serde source clock self (record :: records) { next with orderBookState := none }
        (.error fault)
  | received {self next after : OrderBookListener} {record : List Char}
      {records : List (List Char)} {batch : EventBatch} {outcome : Except Fault Unit}
      (hend : record.getLast? = some '\n') (hline : (trimEnd record).isEmpty = false)
      (hparse : parseLine serde source (String.ofList (trimEnd record)) self.scope = .ok batch)
      (hreceive : self.receiveBatch (clock records.length) batch = (next, .ok ()))
      (rest : RecordsRun serde source clock next records after outcome) :
      RecordsRun serde source clock self (record :: records) after outcome

section

variable {serde : SerdeJson} {source : EventSource} {clock : ℕ → Instant}
  {self after next : OrderBookListener} {record : List Char} {records : List (List Char)}
  {batch : EventBatch} {fault : Fault} {outcome : Except Fault Unit}

theorem RecordsRun.eq (h : RecordsRun serde source clock self records after outcome) :
    processRecords serde source clock self records = (after, outcome) := by
  induction h with
  | done => rfl
  | incomplete hend => simp [processRecords, hend]
  | blank hend hline rest ih => simp [processRecords, hend, hline, ih]
  | malformed hend hline hparse => simp [processRecords, hend, hline, hparse]
  | failed hend hline hparse hreceive => simp [processRecords, hend, hline, hparse, hreceive]
  | received hend hline hparse hreceive rest ih =>
    simp [processRecords, hend, hline, hparse, hreceive, ih]

theorem processRecords_run (serde : SerdeJson) (source : EventSource) (clock : ℕ → Instant)
    (self : OrderBookListener) (records : List (List Char)) :
    ∃ after outcome, RecordsRun serde source clock self records after outcome := by
  induction records generalizing self with
  | nil => exact ⟨_, _, .done self⟩
  | cons record records ih =>
    by_cases hend : record.getLast? = some '\n'
    · cases hline : (trimEnd record).isEmpty with
      | true =>
        obtain ⟨after, outcome, hrest⟩ := ih self
        exact ⟨after, outcome, .blank hend hline hrest⟩
      | false =>
        cases hparse : parseLine serde source (String.ofList (trimEnd record)) self.scope with
        | error message => exact ⟨_, _, .malformed hend hline hparse⟩
        | ok batch =>
          rcases hreceive : self.receiveBatch (clock records.length) batch with ⟨next, fault | ⟨⟩⟩
          · exact ⟨_, _, .failed hend hline hparse hreceive⟩
          · obtain ⟨after, outcome, hrest⟩ := ih next
            exact ⟨after, outcome, .received hend hline hparse hreceive hrest⟩
    · exact ⟨_, _, .incomplete hend⟩

theorem recordsRun_iff : RecordsRun serde source clock self records after outcome ↔
    processRecords serde source clock self records = (after, outcome) := by
  refine ⟨RecordsRun.eq, fun h => ?_⟩
  obtain ⟨after', outcome', hrun⟩ := processRecords_run serde source clock self records
  obtain ⟨rfl, rfl⟩ := Prod.mk.inj (hrun.eq.symm.trans h)
  exact hrun

/-! What a record adds to what is queued. -/

theorem queuedRecords_blank (hend : record.getLast? = some '\n')
    (hline : (trimEnd record).isEmpty = true) :
    queuedRecords serde source clock self (record :: records) =
      queuedRecords serde source clock self records := by
  simp [queuedRecords, hend, hline]

theorem queuedRecords_failed (hend : record.getLast? = some '\n')
    (hline : (trimEnd record).isEmpty = false)
    (hparse : parseLine serde source (String.ofList (trimEnd record)) self.scope = .ok batch)
    (hreceive : self.receiveBatch (clock records.length) batch = (next, .error fault)) :
    queuedRecords serde source clock self (record :: records) =
      self.queues (clock records.length) batch := by
  simp [queuedRecords, hend, hline, hparse, hreceive]

theorem queuedRecords_received (hend : record.getLast? = some '\n')
    (hline : (trimEnd record).isEmpty = false)
    (hparse : parseLine serde source (String.ofList (trimEnd record)) self.scope = .ok batch)
    (hreceive : self.receiveBatch (clock records.length) batch = (next, .ok ())) :
    queuedRecords serde source clock self (record :: records) =
      self.queues (clock records.length) batch ++ queuedRecords serde source clock next records := by
  simp [queuedRecords, hend, hline, hparse, hreceive]

theorem queues_subset_queuedRecords (hend : record.getLast? = some '\n')
    (hline : (trimEnd record).isEmpty = false)
    (hparse : parseLine serde source (String.ofList (trimEnd record)) self.scope = .ok batch) :
    self.queues (clock records.length) batch ⊆
      queuedRecords serde source clock self (record :: records) := by
  intro queued hqueued
  simp [queuedRecords, hend, hline, hparse, hqueued]

end

/-- A turn that fails in the middle: some batches are received, at most one more is
accepted, and the fence that follows keeps nothing else. -/
inductive Broken : OrderBookListener → List EventBatch → OrderBookListener → Prop
  | received {self last : OrderBookListener} {batches : List EventBatch}
      (h : Received self batches last) : Broken self batches last
  | accepted {self mid last : OrderBookListener} {batch : EventBatch}
      {queued batches : List EventBatch} (h : Received self batches mid)
      (haccepted : Accepted mid batch queued last) : Broken self (batches ++ queued) last

theorem Broken.cons {self mid next last : OrderBookListener} {batch : EventBatch}
    {queued batches : List EventBatch} (haccepted : Accepted self batch queued mid)
    (hstepped : Stepped mid next) (rest : Broken next batches last) :
    Broken self (queued ++ batches) last := by
  cases rest with
  | received h => exact .received (.cons haccepted hstepped h)
  | accepted h hlast =>
    rw [← List.append_assoc]
    exact .accepted (.cons haccepted hstepped h) hlast

theorem processRecords_ok {serde : SerdeJson} {source : EventSource} {clock : ℕ → Instant}
    {self after : OrderBookListener} {records : List (List Char)}
    (h : processRecords serde source clock self records = (after, .ok ())) :
    Received self (queuedRecords serde source clock self records) after := by
  have hrun := recordsRun_iff.mpr h
  clear h
  generalize hok : (Except.ok () : Except Fault Unit) = outcome at hrun
  induction hrun with
  | done => exact .nil _
  | incomplete => cases hok
  | blank hend hline rest ih =>
    rw [queuedRecords_blank hend hline]
    exact ih hok
  | malformed => cases hok
  | failed => cases hok
  | received hend hline hparse hreceive rest ih =>
    obtain ⟨mid, haccepted, hstepped⟩ := receiveBatch_ok hreceive
    rw [queuedRecords_received hend hline hparse hreceive]
    exact .cons haccepted hstepped (ih hok)

theorem processRecords_error {serde : SerdeJson} {source : EventSource} {clock : ℕ → Instant}
    {self after : OrderBookListener} {records : List (List Char)} {fault : Fault}
    (h : processRecords serde source clock self records = (after, .error fault)) :
    ∃ last, Broken self (queuedRecords serde source clock self records) last ∧
      after.fence = last.fence := by
  have hrun := recordsRun_iff.mpr h
  clear h
  generalize hfails : (Except.error fault : Except Fault Unit) = outcome at hrun
  induction hrun with
  | done => cases hfails
  | incomplete hend =>
    refine ⟨_, ?_, rfl⟩
    simpa [queuedRecords, hend] using Broken.received (.nil _)
  | blank hend hline rest ih =>
    rw [queuedRecords_blank hend hline]
    exact ih hfails
  | malformed hend hline hparse =>
    refine ⟨_, ?_, rfl⟩
    simpa [queuedRecords, hend, hline, hparse] using Broken.received (.nil _)
  | @failed self next record records batch fault' hend hline hparse hreceive =>
    rw [queuedRecords_failed hend hline hparse hreceive]
    rcases receiveBatch_error hreceive with ⟨hnone, hfence⟩ | ⟨mid, haccepted, hfence⟩
    · rw [hnone]
      exact ⟨self, .received (.nil _), hfence⟩
    · exact ⟨mid, .accepted (.nil _) haccepted, hfence⟩
  | received hend hline hparse hreceive rest ih =>
    obtain ⟨mid, haccepted, hstepped⟩ := receiveBatch_ok hreceive
    rw [queuedRecords_received hend hline hparse hreceive]
    obtain ⟨last, hbroken, hfence⟩ := ih hfails
    exact ⟨last, hbroken.cons haccepted hstepped, hfence⟩

/-- What a turn does. -/
inductive Turned : OrderBookListener → List EventBatch → OrderBookListener → Prop
  | empty (self : OrderBookListener) : Turned self [] self
  | processed {self last : OrderBookListener} {batches : List EventBatch}
      (h : Received self batches last) : Turned self batches last.publishViews
  | fenced {self last : OrderBookListener} {batches : List EventBatch}
      (h : Broken self batches last) : Turned self batches last.fence

theorem turn_eq_some {serde : SerdeJson} {self after : OrderBookListener} {data : String}
    {source : EventSource} {clock : ℕ → Instant}
    (h : turn serde self data source clock = some after) :
    Turned self (queuedData serde self data source clock) after := by
  unfold turn processData at h
  unfold queuedData
  by_cases hempty : data.isEmpty = true
  · rw [if_pos hempty] at h
    cases h
    rw [String.isEmpty_iff.mp hempty]
    exact .empty _
  · rw [if_neg hempty] at h
    rcases hp : processRecords serde source clock self (splitInclusive [] data.toList) with
      ⟨last, fault | ⟨⟩⟩
    · obtain ⟨mid, hbroken, hfence⟩ := processRecords_error hp
      rw [hp] at h
      cases fault with
      | panic => cases h
      | error e =>
        cases h
        rw [hfence]
        exact .fenced hbroken
    · rw [hp] at h
      cases h
      exact .processed (processRecords_ok hp)

/-- What a maintenance tick does: a validation past its age is discarded, and the
stream is fenced when a queue is past its own. -/
inductive Maintained (self : OrderBookListener) : OrderBookListener → Prop
  | kept : Maintained self self
  | aged (h : self.snapshotCacheStarted ≠ none) : Maintained self self.dropCache
  | fenced : Maintained self self.fence
  | agedFenced (h : self.snapshotCacheStarted ≠ none) : Maintained self self.dropCache.fence

theorem maintenance_cases (self : OrderBookListener) (now : Instant) :
    Maintained self (self.maintenance now) := by
  unfold maintenance
  by_cases hage : (self.snapshotCacheStarted.any fun at_ =>
      decide (now - at_ > self.limits.queueAge)) = true
  · have hstarted : self.snapshotCacheStarted ≠ none := by
      intro hnone
      simp [hnone] at hage
    simp only [if_pos hage]
    split_ifs
    · exact .agedFenced hstarted
    · exact .aged hstarted
  · simp only [if_neg hage]
    split_ifs
    · exact .fenced
    · exact .kept

/-- What happens to the listener outside the snapshot attempts: turns of the reader,
fences from any cause, maintenance ticks, and views computed for a subscriber. -/
inductive Progress (serde : SerdeJson) :
    OrderBookListener → List EventBatch → OrderBookListener → Prop
  | turn {self after : OrderBookListener} (data : String) (source : EventSource)
      (clock : ℕ → Instant) (h : turn serde self data source clock = some after) :
      Progress serde self (queuedData serde self data source clock) after
  | fence (self : OrderBookListener) : Progress serde self [] self.fence
  | maintenance (self : OrderBookListener) (now : Instant) :
      Progress serde self [] (self.maintenance now)
  | computeL2Snapshot (self : OrderBookListener) :
      Progress serde self [] self.computeL2Snapshot.2

/-- What has happened then. -/
inductive Progressed (self : OrderBookListener) : List EventBatch → OrderBookListener → Prop
  | kept : Progressed self [] self
  | published {last : OrderBookListener} {batches : List EventBatch}
      (h : Received self batches last) : Progressed self batches last.publishViews
  | broken {last : OrderBookListener} {batches : List EventBatch}
      (h : Broken self batches last) : Progressed self batches last.fence
  | fenced : Progressed self [] self.fence
  | aged (h : self.snapshotCacheStarted ≠ none) : Progressed self [] self.dropCache
  | agedFenced (h : self.snapshotCacheStarted ≠ none) : Progressed self [] self.dropCache.fence
  | computed {s : OrderBookState} (h : self.orderBookState = some s) :
      Progressed self [] { self with orderBookState := some s.computeL2Snapshot.2 }

theorem progress_cases {serde : SerdeJson} {self after : OrderBookListener}
    {queued : List EventBatch} (hp : Progress serde self queued after) :
    Progressed self queued after := by
  cases hp with
  | turn data source clock hturn =>
    have hturned := turn_eq_some hturn
    generalize queuedData serde self data source clock = queued at hturned ⊢
    cases hturned with
    | empty => exact .kept
    | processed h => exact .published h
    | fenced h => exact .broken h
  | fence => exact .fenced
  | maintenance now =>
    have hm := maintenance_cases self now
    generalize self.maintenance now = after at hm ⊢
    cases hm with
    | kept => exact .kept
    | aged hstarted => exact .aged hstarted
    | fenced => exact .fenced
    | agedFenced hstarted => exact .agedFenced hstarted
  | computeL2Snapshot =>
    unfold OrderBookListener.computeL2Snapshot
    cases hbook : self.orderBookState with
    | none => exact .kept
    | some book => exact .computed hbook

/-! ### One line -/

/-- A line with nothing after it is one record. -/
theorem splitInclusive_line {cur line : List Char} (hline : '\n' ∉ line) :
    splitInclusive cur (line ++ ['\n']) = [cur ++ line ++ ['\n']] := by
  induction line generalizing cur with
  | nil => simp [splitInclusive]
  | cons c line ih =>
    rw [List.mem_cons, not_or] at hline
    rw [List.cons_append, splitInclusive, if_neg (Ne.symm hline.1), ih hline.2]
    simp

theorem trimEnd_line {line : List Char} (hnone : ∀ c ∈ line, ¬ (c = '\r' ∨ c = '\n')) :
    trimEnd (line ++ ['\n']) = line := by
  rw [trimEnd, List.rdropWhile_concat_pos _ _ _ (by simp), List.rdropWhile_eq_self_iff]
  intro hne
  simpa using hnone _ (List.getLast_mem hne)

theorem splitInclusive_data {line : String}
    (hnone : ∀ c ∈ line.toList, ¬ (c = '\r' ∨ c = '\n')) :
    splitInclusive [] (line ++ "\n").toList = [line.toList ++ ['\n']] := by
  have hdata : (line ++ "\n").toList = line.toList ++ ['\n'] := by simp
  rw [hdata]
  exact splitInclusive_line fun hmem => hnone _ hmem (.inr rfl)

/-- What is queued in a turn of one line is the batch of the line. -/
theorem parseLine_of_mem_queuedData {serde : SerdeJson} {self : OrderBookListener}
    {source : EventSource} {clock : ℕ → Instant} {batch : EventBatch} (line : String)
    (hbreaks : (line.toList.any fun c => decide (c = '\r' ∨ c = '\n')) = false)
    (h : batch ∈ queuedData serde self (line ++ "\n") source clock) :
    parseLine serde source line self.scope = .ok batch := by
  have hnone : ∀ c ∈ line.toList, ¬ (c = '\r' ∨ c = '\n') := by simpa using hbreaks
  rw [queuedData, splitInclusive_data hnone, queuedRecords, trimEnd_line hnone, if_neg (by simp)] at h
  dsimp only at h
  rw [String.ofList_toList] at h
  split_ifs at h with hblank
  · simp [queuedRecords] at h
  · cases hparse : parseLine serde source line self.scope with
    | error message => simp [hparse] at h
    | ok found =>
      simp only [hparse, List.mem_append] at h
      obtain hnew | hrest := h
      · rw [eq_of_mem_queues hnew]
      · split at hrest <;> simp [queuedRecords] at hrest

/-- Data of one line is one batch. -/
theorem processData_line {serde : SerdeJson} {self : OrderBookListener} {source : EventSource}
    {clock : ℕ → Instant} (line : String) (hline : line ≠ "")
    (hbreaks : (line.toList.any fun c => decide (c = '\r' ∨ c = '\n')) = false) :
    processData serde self (line ++ "\n") source clock =
      match parseLine serde source line self.scope with
      | .error message => (self, .error (.error (.malformedRecord source message)))
      | .ok batch =>
        match self.receiveBatch (clock 0) batch with
        | (self, .error fault) => ({ self with orderBookState := none }, .error fault)
        | (self, .ok ()) => (self.publishViews, .ok ()) := by
  have hne : line.toList.isEmpty = false := by simpa using hline
  have hnone : ∀ c ∈ line.toList, ¬ (c = '\r' ∨ c = '\n') := by simpa using hbreaks
  rw [processData, splitInclusive_data hnone, processRecords, trimEnd_line hnone, if_neg (by simp)]
  dsimp only
  rw [hne, String.ofList_toList]
  cases parseLine serde source line self.scope with
  | error message => rfl
  | ok batch =>
    simp only [Bool.false_eq_true, ↓reduceIte, List.length_nil]
    rcases self.receiveBatch (clock 0) batch with ⟨next, fault | ⟨⟩⟩
    · rfl
    · rfl

/-! ### The end of a snapshot attempt -/

/-- How new books catch up with the queued pairs: the books reached, or nothing where
a pair does not apply. -/
inductive CaughtUp : OrderBookListener → OrderBookState → OrderBookListener →
    Option OrderBookState → Prop
  | synced {self : OrderBookListener} {s : OrderBookState}
      {statuses : BatchQueue NodeDataOrderStatus} {diffs : BatchQueue NodeDataOrderDiff}
      (hsync : Synced self.orderStatusCache self.orderDiffCache none statuses diffs) :
      CaughtUp self s { self with orderStatusCache := statuses, orderDiffCache := diffs } (some s)
  | failed {self : OrderBookListener} {s : OrderBookState} {pair : BlockPair}
      {statuses : BatchQueue NodeDataOrderStatus} {diffs : BatchQueue NodeDataOrderDiff}
      (hsync : Synced self.orderStatusCache self.orderDiffCache (some pair) statuses diffs) :
      CaughtUp self s { self with orderStatusCache := statuses, orderDiffCache := diffs } none
  | applied {self after : OrderBookListener} {s next : OrderBookState} {pair : BlockPair}
      {statuses : BatchQueue NodeDataOrderStatus} {diffs : BatchQueue NodeDataOrderDiff}
      {out : Option OrderBookState}
      (hsync : Synced self.orderStatusCache self.orderDiffCache (some pair) statuses diffs)
      (happlied : s.applyUpdates pair.1 pair.2 = (next, .ok ()))
      (rest : CaughtUp { self with orderStatusCache := statuses, orderDiffCache := diffs } next
        after out) :
      CaughtUp self s after out

/-- As many turns as there are queued blocks, and one more, are enough. -/
theorem initLoop_caughtUp {turns : ℕ} {self after : OrderBookListener} {s : OrderBookState}
    {out : Except Fault (Option OrderBookState)} (h : initLoop turns self s = (after, out))
    (hturns : self.orderStatusCache.batches.length < turns) :
    CaughtUp self s after (out.toOption.bind id) := by
  induction turns generalizing self s with
  | zero => omega
  | succ turns ih =>
    have hsync := popPair_synced self.orderStatusCache self.orderDiffCache
    simp only [initLoop, popCache] at h
    rcases hout : popPair self.orderStatusCache self.orderDiffCache with ⟨pair, statuses, diffs⟩
    rw [hout] at hsync
    simp only [hout] at h
    cases pair with
    | none =>
      cases h
      exact .synced hsync
    | some pair =>
      have hlt : statuses.batches.length < self.orderStatusCache.batches.length := hsync.length_lt
      rcases happly : s.applyUpdates pair.1 pair.2 with ⟨next, fault | ⟨⟩⟩
      · simp only [happly] at h
        cases fault <;> cases h <;> exact .failed hsync
      · simp only [happly] at h
        exact .applied hsync happly (ih h (hlt.trans_le (by omega)))

/-- What the end of a snapshot attempt does. -/
inductive Finished (mapOrder : MapOrder) (self : OrderBookListener) (epoch : BitVec 64)
    (snapshot : Snapshots InnerL4Order) (height : ℕ) :
    Option OrderBookState → OrderBookListener → Prop
  | passed {state : Option OrderBookState} (h : self.recoveryEpoch ≠ epoch) :
      Finished mapOrder self epoch snapshot height state self
  | begun {after : OrderBookListener} {new : OrderBookState} (h : self.recoveryEpoch = epoch)
      (hcaught : CaughtUp self.takeCache.2 (.fromSnapshot snapshot height 0 true self.ignoreSpot)
        after (some new)) :
      Finished mapOrder self epoch snapshot height none { after with orderBookState := some new }
  | retry {after : OrderBookListener} (h : self.recoveryEpoch = epoch)
      (hcaught : CaughtUp self.takeCache.2 (.fromSnapshot snapshot height 0 true self.ignoreSpot)
        after none) :
      Finished mapOrder self epoch snapshot height none after
  /-- The live books are kept: they agree, or cannot be compared, or cannot be rebuilt. -/
  | kept {state : OrderBookState} (h : self.recoveryEpoch = epoch) :
      Finished mapOrder self epoch snapshot height (some state) self.takeCache.2
  | refreshed {state reached recovered : OrderBookState} {rest : List BlockPair}
      (h : self.recoveryEpoch = epoch)
      (hreached : replayTo height state self.takeCache.1 = .ok (some (reached, rest)))
      (hle : reached.height ≤ height)
      (hvalid : validateSnapshotConsistency mapOrder reached.computeSnapshot.snapshot snapshot
        self.ignoreSpot = .ok .emptyBooksAdded)
      (hreplay : replay (.fromSnapshot snapshot height reached.time true self.ignoreSpot) rest =
        .ok recovered) :
      Finished mapOrder self epoch snapshot height (some state)
        { self.takeCache.2 with orderBookState := some recovered }.publishViews
  | reloaded {state reached recovered : OrderBookState} {rest : List BlockPair} {e : Divergence}
      (h : self.recoveryEpoch = epoch)
      (hreached : replayTo height state self.takeCache.1 = .ok (some (reached, rest)))
      (hle : reached.height ≤ height)
      (hvalid : validateSnapshotConsistency mapOrder reached.computeSnapshot.snapshot snapshot
        self.ignoreSpot = .error e)
      (hreplay : replay (.fromSnapshot snapshot height 0 true self.ignoreSpot) rest = .ok recovered) :
      Finished mapOrder self epoch snapshot height (some state)
        ({ self.takeCache.2 with orderBookState := some recovered }.send .gap)

theorem finishSnapshot_finished (mapOrder : MapOrder) (self : OrderBookListener)
    (epoch : BitVec 64) (state : Option OrderBookState) (snapshot : Snapshots InnerL4Order)
    (height : ℕ) : Finished mapOrder self epoch snapshot height state
      (self.finishSnapshot mapOrder epoch state snapshot height).1 := by
  unfold finishSnapshot
  split_ifs with hepoch
  · exact .passed hepoch
  rw [not_not] at hepoch
  unfold reconcileSnapshot
  cases state with
  | none =>
    unfold initFromSnapshot
    dsimp only
    rcases hl : initLoop (self.takeCache.2.orderStatusCache.deque.length + 1) self.takeCache.2
      (.fromSnapshot snapshot height 0 true self.takeCache.2.ignoreSpot) with ⟨mid, fault | new⟩
    all_goals have hcaught := initLoop_caughtUp hl (by rw [BatchQueue.length_deque]; omega)
    · exact .retry hepoch hcaught
    · cases new with
      | none => exact .retry hepoch hcaught
      | some new => exact .begun hepoch hcaught
  | some state =>
    dsimp only
    rcases hr : replayTo height state self.takeCache.1 with fault | _ | ⟨reached, rest⟩
    · exact .kept hepoch
    · exact .kept hepoch
    dsimp only
    split_ifs with hgt
    · exact .kept hepoch
    rcases hv : validateSnapshotConsistency mapOrder reached.computeSnapshot.snapshot snapshot
      self.takeCache.2.ignoreSpot with e | ⟨⟨⟩⟩
    · unfold rebuild
      dsimp only
      cases hreplay : replay (.fromSnapshot snapshot height 0 true self.takeCache.2.ignoreSpot) rest with
      | error fault => exact .kept hepoch
      | ok recovered => exact .reloaded hepoch hr (by omega) hv hreplay
    · exact .kept hepoch
    · unfold rebuild
      dsimp only
      cases hreplay : replay (.fromSnapshot snapshot height reached.computeSnapshot.time true
          self.takeCache.2.ignoreSpot) rest with
      | error fault => exact .kept hepoch
      | ok recovered => exact .refreshed hepoch hr (by omega) hv hreplay

/-- A snapshot without books at height 5. -/
def emptySnapshotText : String := "[5,[]]"

/-- The line of a block of height 6 whose one diff is an array. -/
def arrayDiffLine : String :=
  "[\"1970-01-01T00:00:00\",\"1970-01-01T00:00:00\",6," ++
    "[[\"0x0000000000000000000000000000000000000000\",5,\"1\",\"BTC\",\"remove\"]]]"

def blockSixReader : SerdeJson :=
  .ofLines [(SerdeJson.emptyBlockLine,
      .arr [.str "1970-01-01T00:00:00", .str "1970-01-01T00:00:00", .num "6", .arr []]),
    (emptySnapshotText, .arr [.num "5", .arr []]),
    (arrayDiffLine, .arr [.str "1970-01-01T00:00:00", .str "1970-01-01T00:00:00", .num "6",
      .arr [.arr [.str "0x0000000000000000000000000000000000000000", .num "5", .str "1", .str "BTC",
        .str "remove"]]])]

/-- The line of a block of height 6 in which a bid is opened, in its statuses and in its diffs. -/
def openStatusLine (coin : String) : String :=
  "[\"1970-01-01T00:00:00\",\"1970-01-01T00:00:00\",6,[[\"1970-01-01T00:00:00\"," ++
    "\"0x0000000000000000000000000000000000000000\",\"open\",[null,\"" ++ coin ++
    "\",\"B\",\"100\",\"2\",5,4,\"N/A\",false,\"0.0\",false,false,\"Limit\",\"Gtc\",null]]]]"

def btcDiffLine : String :=
  "[\"1970-01-01T00:00:00\",\"1970-01-01T00:00:00\",6," ++
    "[[\"0x0000000000000000000000000000000000000000\",5,\"100\",\"BTC\",\x7b\"new\":\x7b\"sz\":\"2\"\x7d\x7d]]]"

def openingReader (coin : String) : SerdeJson :=
  { SerdeJson.ofLines [
      (openStatusLine coin, .arr [.str "1970-01-01T00:00:00", .str "1970-01-01T00:00:00", .num "6",
        .arr [.arr [.str "1970-01-01T00:00:00", .str "0x0000000000000000000000000000000000000000",
          .str "open", .arr [.null, .str coin, .str "B", .str "100", .str "2", .num "5", .num "4",
            .str "N/A", .bool false, .str "0.0", .bool false, .bool false, .str "Limit", .str "Gtc",
            .null]]]]),
      (btcDiffLine, .arr [.str "1970-01-01T00:00:00", .str "1970-01-01T00:00:00", .num "6",
        .arr [.arr [.str "0x0000000000000000000000000000000000000000", .num "5", .str "100",
          .str "BTC", .obj [("new", .obj [("sz", .str "2")])]]]])] with
    rawBookDiff
      | .obj [("new", .obj [("sz", .str sz)])] => .ok (.new sz none)
      | _ => .error "invalid type" }

/-- A listener that is ready without any book, for runs on fixed inputs. -/
def readyAt (height : ℕ) : OrderBookListener :=
  ((OrderBookListener.new (some []) false .all).initFromSnapshot ∅ height).1

def cachingAtFive : OrderBookListener := (readyAt 5).beginCaching 0

/-- An empty block from each source brings it to height 6. -/
theorem cachingAtFive_turns : ∃ mid last s,
    cachingAtFive.turn .ofEmptyBlock (SerdeJson.emptyBlockLine ++ "\n") .orderStatuses
      (fun _ => 0) = some mid ∧
    mid.turn .ofEmptyBlock (SerdeJson.emptyBlockLine ++ "\n") .orderDiffs (fun _ => 0) = some last ∧
    last.orderBookState = some s ∧ s.height = 6 ∧ mid.recoveryEpoch = 0 ∧
    last.recoveryEpoch = 0 := by
  have hturns : ((cachingAtFive.turn .ofEmptyBlock (SerdeJson.emptyBlockLine ++ "\n")
      .orderStatuses fun _ => 0).bind fun mid =>
      (mid.turn .ofEmptyBlock (SerdeJson.emptyBlockLine ++ "\n") .orderDiffs fun _ => 0).bind
        fun last => last.orderBookState.map fun s =>
          (s.height, mid.recoveryEpoch, last.recoveryEpoch)) = some (6, 0, 0) := by
    simp only [turn, processData_line SerdeJson.emptyBlockLine (by decide) (by decide +kernel)]
    decide +kernel
  obtain ⟨mid, hmid, hturns⟩ := Option.bind_eq_some_iff.mp hturns
  obtain ⟨last, hlast, hturns⟩ := Option.bind_eq_some_iff.mp hturns
  obtain ⟨s, hs, hout⟩ := Option.map_eq_some_iff.mp hturns
  simp only [Prod.mk.injEq] at hout
  exact ⟨mid, last, s, hmid, hlast, hs, hout⟩

/-- A bid that rests. -/
def oneBid : Snapshots InnerL4Order := Finmap.singleton ⟨"BTC"⟩ ⟨[.unitBid "BTC" 7], []⟩

def cachingOneBid (ignoreSpot : Bool) : OrderBookListener :=
  ((OrderBookListener.new (some []) ignoreSpot .all).initFromSnapshot oneBid 5).1.beginCaching 0

/-- The block opens another bid, at a better price. -/
def openedBid : BlockPair :=
  (⟨⟨0⟩, ⟨0⟩, 6, [⟨⟨0⟩, 0, "open", {
      user := none, coin := "BTC", side := .bid, limitPx := "100", sz := "2", oid := 5
      timestamp := 4, triggerCondition := "N/A", isTrigger := false, triggerPx := "0.0"
      isPositionTpsl := false, reduceOnly := false, orderType := "Limit", tif := some "Gtc"
      cloid := none }⟩], (openStatusLine "BTC").utf8ByteSize⟩,
    ⟨⟨0⟩, ⟨0⟩, 6, [⟨0, 5, "100", "BTC", .new "2" none⟩], btcDiffLine.utf8ByteSize⟩)

set_option maxRecDepth 4000 in
theorem parseLine_openedBid :
    parseLine (openingReader "BTC") .orderStatuses (openStatusLine "BTC") .all =
      .ok (.orders openedBid.1) ∧
    parseLine (openingReader "BTC") .orderDiffs btcDiffLine .all = .ok (.bookDiffs openedBid.2) := by
  constructor <;> rfl

theorem cachingOneBid_turns (ignoreSpot : Bool) : ∃ mid last s,
    (cachingOneBid ignoreSpot).turn (openingReader "BTC") (openStatusLine "BTC" ++ "\n")
      .orderStatuses (fun _ => 0) = some mid ∧
    mid.turn (openingReader "BTC") (btcDiffLine ++ "\n") .orderDiffs (fun _ => 0) = some last ∧
    mid.scope = .all ∧ last.orderBookState = some s ∧ s.height = 6 ∧
    (s.orderBook.book ⟨"BTC"⟩).toSnapshot.bids.map InnerL4Order.oid = [5, 7] := by
  have hturns : (((cachingOneBid ignoreSpot).turn (openingReader "BTC")
      (openStatusLine "BTC" ++ "\n") .orderStatuses fun _ => 0).bind fun mid =>
      (mid.turn (openingReader "BTC") (btcDiffLine ++ "\n") .orderDiffs fun _ => 0).bind
        fun last => last.orderBookState.map fun s =>
          (mid.scope.isAll, mid.scope.extra, s.height,
            (s.orderBook.book ⟨"BTC"⟩).toSnapshot.bids.map InnerL4Order.oid)) =
              some (true, ∅, 6, [5, 7]) := by
    simp only [turn, processData_line (openStatusLine "BTC") (by decide) (by decide +kernel),
      processData_line btcDiffLine (by decide) (by decide +kernel)]
    cases ignoreSpot <;> decide +kernel
  obtain ⟨mid, hmid, hturns⟩ := Option.bind_eq_some_iff.mp hturns
  obtain ⟨last, hlast, hturns⟩ := Option.bind_eq_some_iff.mp hturns
  obtain ⟨s, hs, hout⟩ := Option.map_eq_some_iff.mp hturns
  simp only [Prod.mk.injEq] at hout
  obtain ⟨hall, hextra, hbooks⟩ := hout
  refine ⟨mid, last, s, hmid, hlast, ?_, hs, hbooks⟩
  cases hscope : mid.scope with
  | mk isAll extra =>
    rw [hscope] at hall hextra
    exact congrArg₂ CoinScope.mk hall hextra

end OrderBookListener
end OrderBookServer
