import OrderBookServer.ListenerSteps
import OrderBookServer.BookScoping

/-!
# Scoping is non-interfering

A listener of some coins, and a listener of all coins given the same input, go
through the same heights, and the first holds the books, the views and the coins
out of date of the second, restricted to the coins in scope.
-/
namespace OrderBookServer

/-! ### Queues -/

namespace BatchQueue

variable {E F : Type} {f : Batch E → Batch E} {g : Batch F → Batch F}

/-- The queue whose blocks are changed by `f`. -/
def map (f : Batch E → Batch E) (q : BatchQueue E) : BatchQueue E :=
  { q with deque := q.deque.map fun e => (f e.1, e.2) }

/-- A change of a block that keeps what a queue looks at. -/
def Keeps (f : Batch E → Batch E) : Prop :=
  ∀ b, (f b).blockNumber = b.blockNumber ∧ (f b).wireBytes = b.wireBytes

theorem push_map (hf : Keeps f) {q q' : BatchQueue E} {b : Batch E} {limits : ResourceLimits}
    {now : Instant} {added : Bool} (h : q.push b limits now = .ok (added, q')) :
    (q.map f).push (f b) limits now = .ok (added, q'.map f) := by
  have hover : ∀ bytes, (q.map f).overLimit (f b) limits now bytes = q.overLimit b limits now bytes := by
    intro bytes
    unfold overLimit
    simp only [map, List.length_map, (hf b).1, List.head?_map]
    cases q.deque.head? with
    | none => rfl
    | some e => simp [(hf e.1).1]
  have hlast : (q.map f).lastTs = q.lastTs := rfl
  have hbytes : (q.map f).bytes = q.bytes := rfl
  unfold push at h ⊢
  simp only [(hf b).1, (hf b).2, hover, hlast, hbytes]
  split_ifs at h ⊢
  · cases h
    rfl
  · cases hb : U64.checkedAdd q.bytes b.wireBytes with
    | none => simp [hb] at h
    | some nextBytes =>
      simp only [hb] at h ⊢
      split_ifs at h ⊢
      cases h
      simp [map]

theorem front_map (q : BatchQueue E) : (q.map f).front = q.front.map f := by
  simp only [front, map, List.head?_map, Option.map_map]
  rfl

theorem popFront_map (hf : Keeps f) (q : BatchQueue E) :
    (q.map f).popFront = (q.popFront.1.map f, q.popFront.2.map f) := by
  obtain ⟨deque, lastTs, bytes⟩ := q
  cases deque with
  | nil => rfl
  | cons e rest => simp [popFront, map, (hf e.1).2]

end BatchQueue

theorem popPairLoop_map {S D : Type} {f : Batch S → Batch S} {g : Batch D → Batch D}
    (hf : BatchQueue.Keeps f) (hg : BatchQueue.Keeps g) (turns : ℕ) (statuses : BatchQueue S)
    (diffs : BatchQueue D) : popPairLoop turns (statuses.map f) (diffs.map g) =
      ((popPairLoop turns statuses diffs).1.map (Prod.map f g),
        (popPairLoop turns statuses diffs).2.1.map f,
        (popPairLoop turns statuses diffs).2.2.map g) := by
  induction turns generalizing statuses diffs with
  | zero => rfl
  | succ turns ih =>
    rw [popPairLoop, popPairLoop, BatchQueue.front_map, BatchQueue.front_map]
    cases ht : diffs.front with
    | none => rfl
    | some t =>
      cases hs : statuses.front with
      | none => rfl
      | some s =>
        simp only [Option.map_some, (hf s).1, (hg t).1, BatchQueue.popFront_map hf,
          BatchQueue.popFront_map hg]
        split_ifs
        · exact ih _ _
        · cases statuses.popFront.1 <;> cases diffs.popFront.1 <;> rfl
        · exact ih _ _

theorem popPair_map {S D : Type} {f : Batch S → Batch S} {g : Batch D → Batch D}
    (hf : BatchQueue.Keeps f) (hg : BatchQueue.Keeps g) (statuses : BatchQueue S)
    (diffs : BatchQueue D) : popPair (statuses.map f) (diffs.map g) =
      ((popPair statuses diffs).1.map (Prod.map f g), (popPair statuses diffs).2.1.map f,
        (popPair statuses diffs).2.2.map g) := by
  unfold popPair
  rw [popPairLoop_map hf hg]
  simp [BatchQueue.map]

theorem Batch.keeps_inScope {E : Type} (coin : E → String) (scope : CoinScope) :
    BatchQueue.Keeps (Batch.inScope coin scope) := fun _ => ⟨rfl, rfl⟩

/-! ### Listeners -/

namespace OrderBookListener

/-- A status block in scope. -/
abbrev statusesIn (scope : CoinScope) : Batch NodeDataOrderStatus → Batch NodeDataOrderStatus :=
  Batch.inScope (fun s => s.order.coin) scope

abbrev diffsIn (scope : CoinScope) : Batch NodeDataOrderDiff → Batch NodeDataOrderDiff :=
  Batch.inScope (fun d => d.coin) scope

/-- A ready listener of the coins in scope beside one of all coins, no validation
being under way; `statuses` and `diffs` hold of all events queued. -/
structure InScope (scope : CoinScope) (statuses : NodeDataOrderStatus → Prop)
    (diffs : NodeDataOrderDiff → Prop) (full part : OrderBookListener) : Prop where
  limits : part.limits = full.limits
  lastFill : part.lastFill = full.lastFill
  fullCache : full.fetchedSnapshotCache = none
  partCache : part.fetchedSnapshotCache = none
  fullScope : full.scope = .all
  partScope : part.scope = scope
  statusQueue : part.orderStatusCache = full.orderStatusCache.map (statusesIn scope)
  diffQueue : part.orderDiffCache = full.orderDiffCache.map (diffsIn scope)
  live : ∃ f p, full.orderBookState = some f ∧ part.orderBookState = some p ∧
    OrderBookState.InScope scope f p
  knownStatuses : ∀ b ∈ full.orderStatusCache.batches, ∀ e ∈ b.events, statuses e
  knownDiffs : ∀ b ∈ full.orderDiffCache.batches, ∀ e ∈ b.events, diffs e

/-- What a batch given to the listener is known to hold. -/
def KnownEvents (statuses : NodeDataOrderStatus → Prop) (diffs : NodeDataOrderDiff → Prop) :
    EventBatch → Prop
  | .orders b => ∀ e ∈ b.events, statuses e
  | .bookDiffs b => ∀ e ∈ b.events, diffs e
  | .fills _ => True

section InScope

variable {scope : CoinScope} {statuses : NodeDataOrderStatus → Prop}
  {diffs : NodeDataOrderDiff → Prop} {full full' part : OrderBookListener} {now : Instant}

theorem mem_batches_of_push {E : Type} {q q' : BatchQueue E} {b : Batch E} {limits : ResourceLimits}
    {added : Bool} (h : q.push b limits now = .ok (added, q')) {b' : Batch E} (hb : b' ∈ q'.batches) :
    b' ∈ q.batches ∨ b' = b := by
  cases BatchQueue.push_ok h with
  | old => exact .inl hb
  | new _ hbatches _ =>
    rw [hbatches] at hb
    rcases List.mem_append.mp hb with hb | hb
    · exact .inl hb
    · exact .inr (List.mem_singleton.mp hb)

theorem InScope.accept (h : InScope scope statuses diffs full part) {batch : EventBatch}
    (hknown : KnownEvents statuses diffs batch) (ha : full.accept now batch = .ok full') :
    ∃ part', part.accept now (batch.inScope scope) = .ok part' ∧
      InScope scope statuses diffs full' part' := by
  cases batch with
  | orders b =>
    obtain ⟨⟨added, q⟩, hpush, ha⟩ := bind_eq_ok.mp ha
    cases ha
    have hpart := BatchQueue.push_map (Batch.keeps_inScope (fun s => s.order.coin) scope) hpush
    rw [← h.statusQueue, ← h.limits] at hpart
    refine ⟨_, bind_eq_ok.mpr ⟨_, hpart, rfl⟩, ?_⟩
    refine { h with statusQueue := rfl, knownStatuses := fun b' hb e he => ?_ }
    rcases mem_batches_of_push hpush hb with hb | rfl
    · exact h.knownStatuses b' hb e he
    · exact hknown e he
  | bookDiffs b =>
    obtain ⟨⟨added, q⟩, hpush, ha⟩ := bind_eq_ok.mp ha
    cases ha
    have hpart := BatchQueue.push_map (Batch.keeps_inScope (fun d => d.coin) scope) hpush
    rw [← h.diffQueue, ← h.limits] at hpart
    refine ⟨_, bind_eq_ok.mpr ⟨_, hpart, rfl⟩, ?_⟩
    refine { h with diffQueue := rfl, knownDiffs := fun b' hb e he => ?_ }
    rcases mem_batches_of_push hpush hb with hb | rfl
    · exact h.knownDiffs b' hb e he
    · exact hknown e he
  | fills b =>
    unfold OrderBookListener.accept at ha ⊢
    simp only [EventBatch.inScope, Batch.inScope, h.lastFill] at ha ⊢
    split_ifs at ha ⊢
    · cases ha
      exact ⟨_, rfl, { h with lastFill := rfl }⟩
    · cases ha
      exact ⟨_, rfl, h⟩

/-- Without a validation under way a pair is only published. -/
theorem recordPair_uncached {l : OrderBookListener} (h : l.fetchedSnapshotCache = none)
    (pair : BlockPair) : l.recordPair pair =
      match U64.checkedAdd pair.1.wireBytes pair.2.wireBytes with
      | none => (l, .error (.error .pairedByteOverflow))
      | some _ => (l.send (.l4BookUpdates pair.2 pair.1), .ok ()) := by
  unfold recordPair
  cases U64.checkedAdd pair.1.wireBytes pair.2.wireBytes with
  | none => rfl
  | some bytes => simp [cacheFull, h]

theorem InScope.advance (h : InScope scope statuses diffs full part)
    (hcoins : SameCoins statuses diffs) (ha : full.advance = (full', .ok ())) :
    ∃ part', part.advance = (part', .ok ()) ∧ InScope scope statuses diffs full' part' := by
  obtain ⟨f, p, hf, hp, hlive⟩ := h.live
  have hpop := popPair_map (Batch.keeps_inScope (fun s : NodeDataOrderStatus => s.order.coin) scope)
    (Batch.keeps_inScope (fun d : NodeDataOrderDiff => d.coin) scope) full.orderStatusCache
    full.orderDiffCache
  rw [← h.statusQueue, ← h.diffQueue] at hpop
  have hsync := popPair_synced full.orderStatusCache full.orderDiffCache
  unfold OrderBookListener.advance at ha ⊢
  simp only [hf, hp, popCache] at ha ⊢
  rw [hpop]
  rcases hout : popPair full.orderStatusCache full.orderDiffCache with ⟨pair, qs, qd⟩
  rw [hout] at hsync
  simp only [hout] at ha ⊢
  obtain ⟨hs, hd, hpair⟩ := hsync.sublists
  have hqueues : InScope scope statuses diffs
      { full with orderStatusCache := qs, orderDiffCache := qd, orderBookState := some f }
      { part with
        orderStatusCache := qs.map (statusesIn scope)
        orderDiffCache := qd.map (diffsIn scope)
        orderBookState := some p } :=
    { h with
      live := ⟨f, p, rfl, rfl, hlive⟩
      statusQueue := rfl
      diffQueue := rfl
      knownStatuses := fun b hb => h.knownStatuses b (hs.subset hb)
      knownDiffs := fun b hb => h.knownDiffs b (hd.subset hb) }
  cases pair with
  | none =>
    cases ha
    exact ⟨_, rfl, hqueues⟩
  | some pair =>
    obtain ⟨hmemS, hmemD, -⟩ := hpair pair rfl
    simp only [Option.map_some, Prod.map_fst, Prod.map_snd] at ha ⊢
    have hnumber : (statusesIn scope pair.1).blockNumber = pair.1.blockNumber := rfl
    rw [hnumber, hlive.height]
    split_ifs at ha ⊢ with hle
    · cases ha
      exact ⟨_, rfl, hqueues⟩
    · rcases happly : f.applyUpdates pair.1 pair.2 with ⟨f', fault | ⟨⟩⟩
      · simp [happly] at ha
      · have hsame : SameCoins (· ∈ pair.1.events) (· ∈ pair.2.events) :=
          fun status diff hst hdf => hcoins status diff (h.knownStatuses _ hmemS status hst)
            (h.knownDiffs _ hmemD diff hdf)
        obtain ⟨p', hp', hlive'⟩ := hlive.applyUpdates hsame happly
        simp only [happly] at ha
        rw [hp']
        have hupdated : InScope scope statuses diffs
            { full with orderStatusCache := qs, orderDiffCache := qd, orderBookState := some f' }
            { part with
              orderStatusCache := qs.map (statusesIn scope)
              orderDiffCache := qd.map (diffsIn scope)
              orderBookState := some p' } := { hqueues with live := ⟨f', p', rfl, rfl, hlive'⟩ }
        rw [recordPair_uncached hupdated.fullCache] at ha
        cases hadd : U64.checkedAdd pair.1.wireBytes pair.2.wireBytes with
        | none => simp [hadd] at ha
        | some bytes =>
          have haddIn : U64.checkedAdd (statusesIn scope pair.1).wireBytes
              (diffsIn scope pair.2).wireBytes = some bytes := hadd
          have hrecord := recordPair_uncached hupdated.partCache
            (statusesIn scope pair.1, diffsIn scope pair.2)
          simp only [haddIn] at hrecord
          simp only [hadd] at ha
          cases ha
          exact ⟨_, hrecord, { hupdated with }⟩

theorem InScope.receiveBatch (h : InScope scope statuses diffs full part)
    (hcoins : SameCoins statuses diffs) {batch : EventBatch}
    (hknown : KnownEvents statuses diffs batch)
    (ha : full.receiveBatch now batch = (full', .ok ())) :
    ∃ part', part.receiveBatch now (batch.inScope scope) = (part', .ok ()) ∧
      InScope scope statuses diffs full' part' := by
  unfold OrderBookListener.receiveBatch at ha ⊢
  cases haccept : full.accept now batch with
  | error e => simp [haccept] at ha
  | ok mid =>
    obtain ⟨mid', hmid, hin⟩ := h.accept hknown haccept
    simp only [haccept] at ha
    simp only [hmid]
    exact hin.advance hcoins ha

theorem parseLine_of_all {serde : SerdeJson} {source : EventSource} {line : String}
    (hplain : PlainLine serde source line) (scope : CoinScope) {batch : EventBatch}
    (h : parseLine serde source line .all = .ok batch) :
    parseLine serde source line scope = .ok (batch.inScope scope) := by
  cases source with
  | orderStatuses =>
    obtain ⟨b, hb, rfl⟩ := map_eq_ok.mp h
    exact map_eq_ok.mpr ⟨_, Batch.parseInScope_of_all (ScopedEvent.probes_statuses serde) hplain rfl
      scope hb, rfl⟩
  | orderDiffs =>
    obtain ⟨b, hb, rfl⟩ := map_eq_ok.mp h
    exact map_eq_ok.mpr ⟨_, Batch.parseInScope_of_all (ScopedEvent.probes_diffs serde) hplain rfl
      scope hb, rfl⟩
  | fills =>
    obtain ⟨b, hb, rfl⟩ := map_eq_ok.mp h
    exact map_eq_ok.mpr ⟨_, Batch.parseInScope_of_all (ScopedEvent.probes_fills serde) hplain rfl
      scope hb, rfl⟩

/-- What is known of a line: how its events are written, and what they are. -/
def KnownLine (serde : SerdeJson) (statuses : NodeDataOrderStatus → Prop)
    (diffs : NodeDataOrderDiff → Prop) (source : EventSource) (line : String) : Prop :=
  PlainLine serde source line ∧
    ∀ batch, parseLine serde source line .all = .ok batch → KnownEvents statuses diffs batch

theorem InScope.processRecords {serde : SerdeJson} {source : EventSource} {clock : ℕ → Instant}
    {records : List (List Char)} (h : InScope scope statuses diffs full part)
    (hcoins : SameCoins statuses diffs)
    (hknown : ∀ r ∈ records, KnownLine serde statuses diffs source (String.ofList (trimEnd r)))
    (ha : OrderBookListener.processRecords serde source clock full records = (full', .ok ())) :
    ∃ part', OrderBookListener.processRecords serde source clock part records = (part', .ok ()) ∧
      InScope scope statuses diffs full' part' := by
  have hrun := OrderBookListener.recordsRun_iff.mpr ha
  clear ha
  generalize hok : (Except.ok () : Except Fault Unit) = outcome at hrun ⊢
  induction hrun generalizing part with
  | done => exact ⟨part, hok ▸ rfl, h⟩
  | incomplete => cases hok
  | blank hend hline rest ih =>
    have hrest := fun r hr => hknown r (List.mem_cons_of_mem _ hr)
    obtain ⟨part', hpart, hin⟩ := ih h hrest hok
    have hblank := OrderBookListener.RecordsRun.blank hend hline
      (OrderBookListener.recordsRun_iff.mpr hpart)
    exact ⟨part', hblank.eq, hin⟩
  | malformed => cases hok
  | failed => cases hok
  | @received full next full' record records batch outcome hend hline hparse hreceive rest ih =>
    have hrest := fun r hr => hknown r (List.mem_cons_of_mem _ hr)
    obtain ⟨hplain, hevents⟩ := hknown record List.mem_cons_self
    rw [h.fullScope] at hparse
    obtain ⟨next', hnext, hin⟩ := h.receiveBatch hcoins (hevents batch hparse) hreceive
    obtain ⟨part', hpart, hin⟩ := ih hin hrest hok
    have hscoped : parseLine serde source (String.ofList (trimEnd record)) part.scope =
        .ok (batch.inScope scope) := by
      rw [h.partScope]
      exact parseLine_of_all hplain scope hparse
    have hreceived := OrderBookListener.RecordsRun.received hend hline hscoped hnext
      (OrderBookListener.recordsRun_iff.mpr hpart)
    exact ⟨part', hreceived.eq, hin⟩

theorem InScope.publishViews (h : InScope scope statuses diffs full part) :
    InScope scope statuses diffs full.publishViews part.publishViews := by
  obtain ⟨f, p, hf, hp, hlive⟩ := h.live
  have hviews : InScope scope statuses diffs
      { full with orderBookState := some (f.l2Snapshots true).2 }
      { part with orderBookState := some (p.l2Snapshots true).2 } :=
    { h with live := ⟨_, _, rfl, rfl, hlive.l2Snapshots true⟩ }
  unfold OrderBookListener.publishViews OrderBookListener.l2Snapshots
  rw [hf, hp]
  dsimp only
  cases (f.l2Snapshots true).1 <;> cases (p.l2Snapshots true).1 <;> exact { hviews with }

/-- A turn that goes through for all coins goes through in scope. -/
theorem InScope.processData {serde : SerdeJson} {data : String} {source : EventSource}
    {clock : ℕ → Instant} (h : InScope scope statuses diffs full part)
    (hcoins : SameCoins statuses diffs)
    (hknown : ∀ r ∈ splitInclusive [] data.toList,
      KnownLine serde statuses diffs source (String.ofList (trimEnd r)))
    (ha : full.processData serde data source clock = (full', .ok ())) :
    ∃ part', part.processData serde data source clock = (part', .ok ()) ∧
      InScope scope statuses diffs full' part' := by
  unfold OrderBookListener.processData at ha ⊢
  rcases hr : OrderBookListener.processRecords serde source clock full
    (splitInclusive [] data.toList) with ⟨last, fault | ⟨⟩⟩
  · simp [hr] at ha
  · obtain ⟨last', hlast, hin⟩ := h.processRecords hcoins hknown hr
    simp only [hr] at ha
    simp only [hlast]
    cases ha
    exact ⟨_, rfl, hin.publishViews⟩

end InScope

/-! ### Runs -/

/-- One call of the reader: what was read from a source, and the clock meanwhile. -/
structure Call where
  data : String
  source : EventSource
  clock : ℕ → Instant

/-- The lines a call holds. -/
def Call.lines (call : Call) : List String :=
  (splitInclusive [] call.data.toList).map fun record => String.ofList (trimEnd record)

/-- A listener that has just been given its first snapshot. -/
def loaded (mapOrder : MapOrder) (limits : ResourceLimits)
    (internalMessageTx : Option (List InternalMessage)) (ignoreSpot : Bool) (scope : CoinScope)
    (snapshot : Snapshots InnerL4Order) (height : ℕ) : OrderBookListener :=
  ({ OrderBookListener.new internalMessageTx ignoreSpot scope with limits := limits }.finishSnapshot
    mapOrder 0 none snapshot height).1

/-- Calls processed one after the other, each without an error. -/
inductive Processed (serde : SerdeJson) : OrderBookListener → List Call → OrderBookListener → Prop
  | nil (l : OrderBookListener) : Processed serde l [] l
  | cons {l mid last : OrderBookListener} {call : Call} {calls : List Call}
      (h : l.processData serde call.data call.source call.clock = (mid, .ok ()))
      (rest : Processed serde mid calls last) : Processed serde l (call :: calls) last

theorem Processed.step {serde : SerdeJson} {l last : OrderBookListener} {call : Call}
    {calls : List Call} (h : (l.processData serde call.data call.source call.clock).2 = .ok ())
    (rest : Processed serde (l.processData serde call.data call.source call.clock).1 calls last) :
    Processed serde l (call :: calls) last :=
  .cons (Prod.ext rfl h) rest

theorem Processed.split {serde : SerdeJson} {l last : OrderBookListener} {before after : List Call}
    (h : Processed serde l (before ++ after) last) :
    ∃ mid, Processed serde l before mid ∧ Processed serde mid after last := by
  induction before generalizing l with
  | nil => exact ⟨l, .nil l, h⟩
  | cons call before ih =>
    cases h with
    | cons hc rest =>
      obtain ⟨mid, hbefore, hafter⟩ := ih rest
      exact ⟨mid, .cons hc hbefore, hafter⟩

theorem Processed.unique {serde : SerdeJson} {l last last' : OrderBookListener} {calls : List Call}
    (h : Processed serde l calls last) (h' : Processed serde l calls last') : last = last' := by
  induction h with
  | nil => cases h' with | nil => rfl
  | cons hc _ ih =>
    cases h' with
    | cons hc' rest' =>
      obtain rfl := congrArg Prod.fst (hc.symm.trans hc')
      exact ih rest'

/-- A status that a line of the calls holds, read in full. -/
def StatusRead (serde : SerdeJson) (calls : List Call) (status : NodeDataOrderStatus) : Prop :=
  ∃ call ∈ calls, ∃ line ∈ call.lines, ∃ b,
    parseLine serde call.source line .all = .ok (.orders b) ∧ status ∈ b.events

def DiffRead (serde : SerdeJson) (calls : List Call) (diff : NodeDataOrderDiff) : Prop :=
  ∃ call ∈ calls, ∃ line ∈ call.lines, ∃ b,
    parseLine serde call.source line .all = .ok (.bookDiffs b) ∧ diff ∈ b.events

/-- What is relied on of the node: events are written as objects, and statuses and
diffs that share an oid name one coin. -/
structure NodeCalls (serde : SerdeJson) (calls : List Call) : Prop where
  plain : ∀ call ∈ calls, ∀ line ∈ call.lines, PlainLine serde call.source line
  sameCoins : SameCoins (StatusRead serde calls) (DiffRead serde calls)

theorem NodeCalls.knownLine {serde : SerdeJson} {calls : List Call} (h : NodeCalls serde calls)
    {call : Call} (hcall : call ∈ calls) {record : List Char}
    (hr : record ∈ splitInclusive [] call.data.toList) :
    KnownLine serde (StatusRead serde calls) (DiffRead serde calls) call.source
      (String.ofList (trimEnd record)) := by
  have hline : String.ofList (trimEnd record) ∈ call.lines := List.mem_map_of_mem hr
  refine ⟨h.plain call hcall _ hline, fun batch hbatch => ?_⟩
  cases batch with
  | orders b => exact fun e he => ⟨call, hcall, _, hline, b, hbatch, he⟩
  | bookDiffs b => exact fun e he => ⟨call, hcall, _, hline, b, hbatch, he⟩
  | fills b => trivial

theorem inScope_loaded {statuses : NodeDataOrderStatus → Prop} {diffs : NodeDataOrderDiff → Prop}
    (mapOrder : MapOrder) (limits : ResourceLimits)
    (internalMessageTx : Option (List InternalMessage)) (ignoreSpot : Bool) (scope : CoinScope)
    (snapshot : Snapshots InnerL4Order) (height : ℕ) : InScope scope statuses diffs
      (loaded mapOrder limits internalMessageTx ignoreSpot .all snapshot height)
      (loaded mapOrder limits internalMessageTx ignoreSpot scope (scope.restrict snapshot) height) where
  limits := rfl
  lastFill := rfl
  fullCache := rfl
  partCache := rfl
  fullScope := rfl
  partScope := rfl
  statusQueue := rfl
  diffQueue := rfl
  live := ⟨_, _, rfl, rfl, OrderBookState.inScope_fromSnapshot scope snapshot height 0 true ignoreSpot⟩
  knownStatuses _ hb := nomatch hb
  knownDiffs _ hb := nomatch hb

theorem InScope.processed {serde : SerdeJson} {scope : CoinScope} {all calls : List Call}
    {full full' part : OrderBookListener} (hnode : NodeCalls serde all) (hcalls : calls ⊆ all)
    (h : InScope scope (StatusRead serde all) (DiffRead serde all) full part)
    (hrun : Processed serde full calls full') : ∃ part', Processed serde part calls part' ∧
      InScope scope (StatusRead serde all) (DiffRead serde all) full' part' := by
  induction hrun generalizing part with
  | nil => exact ⟨part, .nil part, h⟩
  | cons hc _ ih =>
    obtain ⟨hcall, hrest⟩ := List.cons_subset.mp hcalls
    obtain ⟨next, hnext, hin⟩ := h.processData hnode.sameCoins
      (fun r hr => hnode.knownLine hcall hr) hc
    obtain ⟨last, hlast, hend⟩ := ih hrest hin
    exact ⟨last, .cons hnext hlast, hend⟩

/-- What is seen of two listeners is the same in scope. -/
structure SameInScope (scope : CoinScope) (f p : OrderBookState) : Prop where
  height : p.height = f.height
  time : p.time = f.time
  coins : ∀ coin, coin ∈ p.computeUniverse ↔
    coin ∈ f.computeUniverse ∧ scope.contains coin.value = true
  orders : ∀ coin, scope.contains coin.value = true →
    p.computeSnapshot.snapshot.lookup coin = f.computeSnapshot.snapshot.lookup coin
  views : ∀ coin, scope.contains coin.value = true →
    p.computeL2Snapshot.1.2.2.lookup coin = f.computeL2Snapshot.1.2.2.lookup coin

theorem sameInScope_of_inScope {scope : CoinScope} {f p : OrderBookState}
    (h : OrderBookState.InScope scope f p) : SameInScope scope f p where
  height := h.height
  time := h.time
  coins coin := by
    rw [OrderBookState.computeUniverse, OrderBookState.computeUniverse, h.orderBook]
    exact HashMap.mem_keys_restrict _ _ _
  orders coin hin := by
    simp only [OrderBookState.computeSnapshot, OrderBooks.toSnapshots, HashMap.lookup_mapValues,
      h.orderBook, CoinScope.lookup_restrict, if_pos hin]
  views coin hin := by
    have hviews := congrArg (fun m => m.lookup coin) h.computeL2Snapshot.l2Cache
    rw [CoinScope.lookup_restrict, if_pos hin] at hviews
    exact hviews

/-- A listener in scope goes through the same snapshot and calls as one of all coins,
and after each call holds the same of the coins in scope. -/
theorem scoping_non_interfering {serde : SerdeJson} {mapOrder : MapOrder} {limits : ResourceLimits}
    {internalMessageTx : Option (List InternalMessage)} {ignoreSpot : Bool} (scope : CoinScope)
    {text : String} {height : ℕ} {snapshot : Snapshots InnerL4Order} {calls : List Call}
    {full : OrderBookListener} (hnode : NodeCalls serde calls)
    (hload : loadSnapshotsFromStr serde text .all = .ok (height, snapshot))
    (hrun : Processed serde
      (loaded mapOrder limits internalMessageTx ignoreSpot .all snapshot height) calls full) :
    ∃ snapshotIn part, loadSnapshotsFromStr serde text scope = .ok (height, snapshotIn) ∧
      Processed serde (loaded mapOrder limits internalMessageTx ignoreSpot scope snapshotIn height)
        calls part ∧
      ∀ before after, calls = before ++ after → ∃ full' part' f p,
        Processed serde (loaded mapOrder limits internalMessageTx ignoreSpot .all snapshot height)
          before full' ∧
        Processed serde (loaded mapOrder limits internalMessageTx ignoreSpot scope snapshotIn height)
          before part' ∧
        full'.orderBookState = some f ∧ part'.orderBookState = some p ∧ SameInScope scope f p := by
  have hstart : InScope scope (StatusRead serde calls) (DiffRead serde calls)
      (loaded mapOrder limits internalMessageTx ignoreSpot .all snapshot height)
      (loaded mapOrder limits internalMessageTx ignoreSpot scope (scope.restrict snapshot) height) :=
    inScope_loaded mapOrder limits internalMessageTx ignoreSpot scope snapshot height
  obtain ⟨part, hpart, -⟩ := hstart.processed hnode (List.Subset.refl _) hrun
  refine ⟨_, part, loadSnapshotsFromStr_of_all scope rfl hload, hpart, ?_⟩
  rintro before after rfl
  obtain ⟨full', hfull', -⟩ := hrun.split
  obtain ⟨part', hpart', hend⟩ := hstart.processed hnode (List.subset_append_left _ _) hfull'
  obtain ⟨f, p, hf, hp, hin⟩ := hend.live
  exact ⟨full', part', f, p, hfull', hpart', hf, hp, sameInScope_of_inScope hin⟩

theorem loaded_eq (mapOrder : MapOrder) (limits : ResourceLimits)
    (internalMessageTx : Option (List InternalMessage)) (ignoreSpot : Bool) (scope : CoinScope)
    (snapshot : Snapshots InnerL4Order) (height : ℕ) :
    loaded mapOrder limits internalMessageTx ignoreSpot scope snapshot height =
      { OrderBookListener.new internalMessageTx ignoreSpot scope with
        limits := limits
        orderBookState := some (.fromSnapshot snapshot height 0 true ignoreSpot) } := rfl

def arrayDiffCall : Call := ⟨arrayDiffLine ++ "\n", .orderDiffs, fun _ => 0⟩

theorem blockSixReader_loads (scope : CoinScope) :
    loadSnapshotsFromStr blockSixReader emptySnapshotText scope = .ok (5, ∅) := by
  have htext : blockSixReader.tokenise emptySnapshotText = .ok (.arr [.num "5", .arr []]) := by
    have hother : (emptySnapshotText == SerdeJson.emptyBlockLine) = false := by
      decide +kernel
    simp [blockSixReader, SerdeJson.ofLines, List.lookup_cons, hother]
  have hheight : blockSixReader.word (.num "5") = .ok 5 := by
    decide +kernel
  simp [loadSnapshotsFromStr, SerdeJson.snapshotSeed, SerdeJson.pair, SerdeJson.array,
    SerdeJson.booksSeed, htext, hheight, bind, Except.bind, pure, Except.pure]
  rfl

theorem not_statusRead_of_diffs {serde : SerdeJson} {calls : List Call}
    (h : ∀ call ∈ calls, call.source = .orderDiffs) (status : NodeDataOrderStatus) :
    ¬ StatusRead serde calls status := by
  rintro ⟨call, hcall, line, -, b, hparse, -⟩
  rw [h call hcall] at hparse
  obtain ⟨_, -, hb⟩ := map_eq_ok.mp hparse
  cases hb

/-- A diff that is an array is read in full, and is refused in scope: the probe reads an
array of one coin only. -/
theorem array_diff_refused_in_scope : ∃ (mapOrder : MapOrder) (full : OrderBookListener),
    SameCoins (StatusRead blockSixReader [arrayDiffCall]) (DiffRead blockSixReader [arrayDiffCall]) ∧
    loadSnapshotsFromStr blockSixReader emptySnapshotText .all = .ok (5, ∅) ∧
    Processed blockSixReader (loaded mapOrder .DEFAULT none false .all ∅ 5) [arrayDiffCall] full ∧
    loadSnapshotsFromStr blockSixReader emptySnapshotText ⟨false, ∅⟩ = .ok (5, ∅) ∧
    ¬ ∃ part, Processed blockSixReader (loaded mapOrder .DEFAULT none false ⟨false, ∅⟩ ∅ 5)
      [arrayDiffCall] part := by
  obtain ⟨hvisit⟩ := MapOrder.nonempty
  have hfull : ((loaded hvisit .DEFAULT none false .all ∅ 5).processData blockSixReader
      arrayDiffCall.data arrayDiffCall.source arrayDiffCall.clock).2 = .ok () := by
    simp only [arrayDiffCall, loaded_eq,
      processData_line arrayDiffLine (by decide) (by decide +kernel)]
    decide +kernel
  have hpart : ((loaded hvisit .DEFAULT none false ⟨false, ∅⟩ ∅ 5).processData blockSixReader
      arrayDiffCall.data arrayDiffCall.source arrayDiffCall.clock).2 ≠ .ok () := by
    simp only [arrayDiffCall, loaded_eq,
      processData_line arrayDiffLine (by decide) (by decide +kernel)]
    decide +kernel
  refine ⟨hvisit, _, ?_, blockSixReader_loads _, .step hfull (.nil _),
    blockSixReader_loads _, ?_⟩
  · intro status diff hstatus
    exact absurd hstatus (not_statusRead_of_diffs (by simp [arrayDiffCall]) status)
  · rintro ⟨part, hrun⟩
    cases hrun with
    | cons h _ => exact hpart (congrArg Prod.snd h)

/-! ### A block of two coins -/

/-- No character ends the line. -/
def Unbroken (line : String) : Prop :=
  (line.toList.any fun c => decide (c = '\r' ∨ c = '\n')) = false

theorem unbroken_join {texts : List String} (h : ∀ text ∈ texts, Unbroken text) :
    Unbroken (String.join texts) := by
  have hchars : ∀ c ∈ texts.flatMap String.toList, decide (c = '\r' ∨ c = '\n') = false := by
    intro c hc
    obtain ⟨text, htext, hc⟩ := List.mem_flatMap.mp hc
    exact Bool.eq_false_iff.mpr fun hbreak =>
      (List.any_eq_false.mp (h text htext)) c hc hbreak
  rw [Unbroken, String.toList_join, List.any_eq_false]
  exact fun c hc => by simpa using hchars c hc

theorem unbroken_ofList {line : List Char}
    (h : (line.any fun c => decide (c = '\r' ∨ c = '\n')) = false) :
    Unbroken (String.ofList line) := by
  rwa [Unbroken, String.toList_ofList]

/-- The text of a status, in pieces. -/
def statusTexts (oid coin : String) : List String :=
  ["\x7b\"time\":\"1970-01-01T00:00:00\",\"user\":\"0x0000000000000000000000000000000000000000\",",
    "\"status\":\"open\",\"order\":\x7b\"coin\":\"", coin,
    "\",\"side\":\"B\",\"limitPx\":\"1.0\",\"sz\":\"1.0\",\"oid\":", oid,
    ",\"timestamp\":5,\"triggerCondition\":\"N/A\",\"isTrigger\":false,\"triggerPx\":\"0.0\",",
    "\"isPositionTpsl\":false,\"reduceOnly\":false,\"orderType\":\"Limit\"\x7d\x7d"]

def statusJson (oid coin : String) : Json :=
  .obj [("time", .str "1970-01-01T00:00:00"),
    ("user", .str "0x0000000000000000000000000000000000000000"), ("status", .str "open"),
    ("order", .obj [("coin", .str coin), ("side", .str "B"), ("limitPx", .str "1.0"),
      ("sz", .str "1.0"), ("oid", .num oid), ("timestamp", .num "5"),
      ("triggerCondition", .str "N/A"), ("isTrigger", .bool false), ("triggerPx", .str "0.0"),
      ("isPositionTpsl", .bool false), ("reduceOnly", .bool false), ("orderType", .str "Limit")])]

def openingTexts (oid coin : String) : List String :=
  ["\x7b\"user\":\"0x0000000000000000000000000000000000000000\",\"oid\":", oid,
    ",\"px\":\"1.0\",\"coin\":\"", coin,
    "\",\"raw_book_diff\":\x7b\"new\":\x7b\"sz\":\"1.0\"\x7d\x7d\x7d"]

def openingJson (oid coin : String) : Json :=
  .obj [("user", .str "0x0000000000000000000000000000000000000000"), ("oid", .num oid),
    ("px", .str "1.0"), ("coin", .str coin),
    ("raw_book_diff", .obj [("new", .obj [("sz", .str "1.0")])])]

/-- The line of a block of height 6 with an event of an outcome coin and one of BTC. -/
def twoEventsLine (texts : String → String → List String) : String :=
  String.join (["[\"1970-01-01T00:00:00\",\"1970-01-01T00:00:00\",6,["] ++ texts "5" "#10" ++
    [","] ++ texts "4" "BTC" ++ ["]]"])

theorem unbroken_twoEventsLine {texts : String → String → List String}
    (h : ∀ oid coin, Unbroken oid → Unbroken coin → ∀ text ∈ texts oid coin, Unbroken text) :
    Unbroken (twoEventsLine texts) := by
  have hletters : Unbroken "5" ∧ Unbroken "#10" ∧ Unbroken "4" ∧ Unbroken "BTC" :=
    ⟨unbroken_ofList (by decide), unbroken_ofList (by decide), unbroken_ofList (by decide),
      unbroken_ofList (by decide)⟩
  obtain ⟨hfive, hten, hfour, hbtc⟩ := hletters
  refine unbroken_join fun text htext => ?_
  simp only [List.mem_append, List.mem_singleton, or_assoc] at htext
  obtain rfl | htext | rfl | htext | rfl := htext
  · exact unbroken_ofList (by decide)
  · exact h _ _ hfive hten text htext
  · exact unbroken_ofList (by decide)
  · exact h _ _ hfour hbtc text htext
  · exact unbroken_ofList (by decide)

theorem unbroken_statusesLine : Unbroken (twoEventsLine statusTexts) := by
  refine unbroken_twoEventsLine fun oid coin ho hc => ?_
  rw [statusTexts]
  simp only [List.forall_mem_cons]
  exact ⟨unbroken_ofList (by decide), unbroken_ofList (by decide), hc, unbroken_ofList (by decide),
    ho, unbroken_ofList (by decide), unbroken_ofList (by decide), by simp⟩

theorem unbroken_openingsLine : Unbroken (twoEventsLine openingTexts) := by
  refine unbroken_twoEventsLine fun oid coin ho hc => ?_
  rw [openingTexts]
  simp only [List.forall_mem_cons]
  exact ⟨unbroken_ofList (by decide), ho, unbroken_ofList (by decide), hc,
    unbroken_ofList (by decide), by simp⟩

def twoEvents (json : String → String → Json) : Json :=
  .arr [.str "1970-01-01T00:00:00", .str "1970-01-01T00:00:00", .num "6",
    .arr [json "5" "#10", json "4" "BTC"]]

def twoBooksText : String := "[5,[[\"#10\",[[],[]]],[\"BTC\",[[],[]]]]]"

def twoCoinsReader : SerdeJson :=
  { SerdeJson.ofLines [(twoEventsLine statusTexts, twoEvents statusJson),
      (twoEventsLine openingTexts, twoEvents openingJson),
      (twoBooksText, .arr [.num "5", .arr [.arr [.str "#10", .arr [.arr [], .arr []]],
        .arr [.str "BTC", .arr [.arr [], .arr []]]]])] with
    rawBookDiff
      | .obj [("new", .obj [("sz", .str sz)])] => .ok (.new sz none)
      | _ => .error "invalid type" }

def twoBooks : Snapshots InnerL4Order :=
  HashMap.collect [(⟨"#10"⟩, ⟨[], []⟩), (⟨"BTC"⟩, ⟨[], []⟩)]

theorem twoCoinsReader_loads :
    loadSnapshotsFromStr twoCoinsReader twoBooksText .all = .ok (5, twoBooks) := by
  decide +kernel

/-- The block of height 6 opens an order in each book. -/
def twoStatusesCall : Call := ⟨twoEventsLine statusTexts ++ "\n", .orderStatuses, fun _ => 0⟩

def twoOpeningsCall : Call := ⟨twoEventsLine openingTexts ++ "\n", .orderDiffs, fun _ => 0⟩

def twoCoinsCalls : List Call := [twoStatusesCall, twoOpeningsCall]

def statusOf (oid : Oid) (coin : String) : NodeDataOrderStatus where
  time := ⟨0⟩
  user := 0
  status := "open"
  order := ⟨none, coin, .bid, "1.0", "1.0", oid, 5, "N/A", false, "0.0", false, false, "Limit",
    none, none⟩

def openingOf (oid : Oid) (coin : String) : NodeDataOrderDiff :=
  ⟨0, oid, "1.0", coin, .new "1.0" none⟩

theorem twoCoinsReader_tokenise :
    twoCoinsReader.tokenise (twoEventsLine statusTexts) = .ok (twoEvents statusJson) ∧
    twoCoinsReader.tokenise (twoEventsLine openingTexts) = .ok (twoEvents openingJson) := by
  have hother : (twoEventsLine openingTexts == twoEventsLine statusTexts) = false := by
    decide +kernel
  simp [twoCoinsReader, SerdeJson.ofLines, List.lookup_cons, hother]

theorem twoCoinsReader_decode :
    RawBatch.decode twoCoinsReader (twoEvents statusJson) =
      .ok ⟨⟨0⟩, ⟨0⟩, 6, [statusJson "5" "#10", statusJson "4" "BTC"]⟩ ∧
    RawBatch.decode twoCoinsReader (twoEvents openingJson) =
      .ok ⟨⟨0⟩, ⟨0⟩, 6, [openingJson "5" "#10", openingJson "4" "BTC"]⟩ :=
  ⟨rfl, rfl⟩

/-- A call with one line. -/
theorem lines_line (line : String)
    (hbreaks : Unbroken line) (source : EventSource) (clock : ℕ → Instant) :
    Call.lines ⟨line ++ "\n", source, clock⟩ = [line] := by
  have hnone : ∀ c ∈ line.toList, ¬ (c = '\r' ∨ c = '\n') := by simpa [Unbroken] using hbreaks
  rw [Call.lines, splitInclusive_data hnone, List.map_singleton, trimEnd_line hnone,
    String.ofList_toList]

theorem twoStatusesCall_lines : twoStatusesCall.lines = [twoEventsLine statusTexts] :=
  lines_line _ unbroken_statusesLine _ _

theorem twoOpeningsCall_lines : twoOpeningsCall.lines = [twoEventsLine openingTexts] :=
  lines_line _ unbroken_openingsLine _ _

theorem twoCoinsCalls_line {call : Call} {line : String} (hcall : call ∈ twoCoinsCalls)
    (hline : line ∈ call.lines) :
    call.source = .orderStatuses ∧ line = twoEventsLine statusTexts ∨
      call.source = .orderDiffs ∧ line = twoEventsLine openingTexts := by
  obtain rfl | rfl := List.mem_pair.mp hcall
  · rw [twoStatusesCall_lines, List.mem_singleton] at hline
    exact .inl ⟨rfl, hline⟩
  · rw [twoOpeningsCall_lines, List.mem_singleton] at hline
    exact .inr ⟨rfl, hline⟩

theorem statusRead_twoCoinsCalls {status : NodeDataOrderStatus}
    (h : StatusRead twoCoinsReader twoCoinsCalls status) :
    status = statusOf 5 "#10" ∨ status = statusOf 4 "BTC" := by
  obtain ⟨call, hcall, line, hline, b, hparse, hstatus⟩ := h
  obtain ⟨hsource, rfl⟩ | ⟨hsource, rfl⟩ := twoCoinsCalls_line hcall hline
  · rw [hsource] at hparse
    obtain ⟨batch, hbatch, hb⟩ := map_eq_ok.mp hparse
    cases hb
    obtain ⟨value, raw, hvalue, hraw, hevents, -⟩ := Batch.parseInScope_full rfl hbatch
    cases twoCoinsReader_tokenise.1.symm.trans hvalue
    cases twoCoinsReader_decode.1.symm.trans hraw
    have hdecoded : [statusJson "5" "#10", statusJson "4" "BTC"].mapM
        (ScopedEvent.statuses twoCoinsReader).decode =
        .ok [statusOf 5 "#10", statusOf 4 "BTC"] := rfl
    rw [← Except.ok.inj (hdecoded.symm.trans hevents)] at hstatus
    simpa using hstatus
  · rw [hsource] at hparse
    obtain ⟨_, -, hb⟩ := map_eq_ok.mp hparse
    cases hb

theorem diffRead_twoCoinsCalls {diff : NodeDataOrderDiff}
    (h : DiffRead twoCoinsReader twoCoinsCalls diff) :
    diff = openingOf 5 "#10" ∨ diff = openingOf 4 "BTC" := by
  obtain ⟨call, hcall, line, hline, b, hparse, hdiff⟩ := h
  obtain ⟨hsource, rfl⟩ | ⟨hsource, rfl⟩ := twoCoinsCalls_line hcall hline
  · rw [hsource] at hparse
    obtain ⟨_, -, hb⟩ := map_eq_ok.mp hparse
    cases hb
  · rw [hsource] at hparse
    obtain ⟨batch, hbatch, hb⟩ := map_eq_ok.mp hparse
    cases hb
    obtain ⟨value, raw, hvalue, hraw, hevents, -⟩ := Batch.parseInScope_full rfl hbatch
    cases twoCoinsReader_tokenise.2.symm.trans hvalue
    cases twoCoinsReader_decode.2.symm.trans hraw
    have hdecoded : [openingJson "5" "#10", openingJson "4" "BTC"].mapM
        (ScopedEvent.diffs twoCoinsReader).decode =
        .ok [openingOf 5 "#10", openingOf 4 "BTC"] := rfl
    rw [← Except.ok.inj (hdecoded.symm.trans hevents)] at hdiff
    simpa using hdiff

theorem nodeCalls_twoCoinsCalls : NodeCalls twoCoinsReader twoCoinsCalls where
  plain call hcall line hline value raw hvalue hraw event hevent := by
    obtain ⟨hsource, rfl⟩ | ⟨hsource, rfl⟩ := twoCoinsCalls_line hcall hline
    · rw [hsource]
      cases twoCoinsReader_tokenise.1.symm.trans hvalue
      cases twoCoinsReader_decode.1.symm.trans hraw
      have hplain : ∀ oid coin, SerdeJson.Plain .orderStatuses (statusJson oid coin) := by
        intro oid coin
        refine ⟨_, rfl, ?_⟩
        simp [Json.IsObject]
      obtain rfl | rfl := List.mem_pair.mp hevent <;> exact hplain _ _
    · rw [hsource]
      cases twoCoinsReader_tokenise.2.symm.trans hvalue
      cases twoCoinsReader_decode.2.symm.trans hraw
      obtain rfl | rfl := List.mem_pair.mp hevent <;> exact ⟨_, rfl⟩
  sameCoins := by
    intro status diff hstatus hdiff hoid
    obtain rfl | rfl := statusRead_twoCoinsCalls hstatus <;>
      obtain rfl | rfl := diffRead_twoCoinsCalls hdiff <;>
      first
      | rfl
      | cases hoid

/-- The oids of the bids of a coin. -/
def bidOids (s : OrderBookState) (coin : Coin) : Option (List Oid) :=
  (s.computeSnapshot.snapshot.lookup coin).map fun snapshot => snapshot.bids.map fun o => o.oid

/-- The block opens an order in scope and one out of scope. -/
theorem scoping_non_interfering_two_coins : ∃ (mapOrder : MapOrder)
    (snapshotIn : Snapshots InnerL4Order) (full part : OrderBookListener) (f p : OrderBookState),
    Processed twoCoinsReader (loaded mapOrder .DEFAULT none false .all twoBooks 5) twoCoinsCalls
      full ∧
    Processed twoCoinsReader (loaded mapOrder .DEFAULT none false ⟨false, ∅⟩ snapshotIn 5)
      twoCoinsCalls part ∧
    full.orderBookState = some f ∧ part.orderBookState = some p ∧ f.height = 6 ∧
    bidOids f ⟨"BTC"⟩ = some [4] ∧ bidOids p ⟨"#10"⟩ = some [5] ∧ SameInScope ⟨false, ∅⟩ f p := by
  obtain ⟨hvisit⟩ := MapOrder.nonempty
  obtain ⟨full, hfull, hsix⟩ : ∃ full, Processed twoCoinsReader
      (loaded hvisit .DEFAULT none false .all twoBooks 5) twoCoinsCalls full ∧
      full.orderBookState.map (fun s => (s.height, bidOids s ⟨"BTC"⟩, bidOids s ⟨"#10"⟩)) =
        some (6, some [4], some [5]) := by
    have hrun (first second : OrderBookListener × Except Fault Unit)
        (hfirst : first = (loaded hvisit .DEFAULT none false .all twoBooks 5).processData
          twoCoinsReader twoStatusesCall.data twoStatusesCall.source twoStatusesCall.clock)
        (hsecond : second = first.1.processData twoCoinsReader twoOpeningsCall.data
          twoOpeningsCall.source twoOpeningsCall.clock) : first.2 = .ok () ∧ second.2 = .ok () ∧
        second.1.orderBookState.map (fun s =>
          (s.height, bidOids s ⟨"BTC"⟩, bidOids s ⟨"#10"⟩)) = some (6, some [4], some [5]) := by
      rw [hsecond, hfirst]
      simp only [loaded_eq, twoStatusesCall, twoOpeningsCall,
        processData_line (twoEventsLine statusTexts) (by decide +kernel) unbroken_statusesLine,
        processData_line (twoEventsLine openingTexts) (by decide +kernel) unbroken_openingsLine]
      decide +kernel
    obtain ⟨hstatuses, hdiffs, hbooks⟩ := hrun _ _ rfl rfl
    exact ⟨_, .step hstatuses (.step hdiffs (.nil _)), hbooks⟩
  obtain ⟨snapshotIn, part, hload, hpart, hprefix⟩ := scoping_non_interfering ⟨false, ∅⟩
    nodeCalls_twoCoinsCalls twoCoinsReader_loads hfull
  obtain ⟨full', part', f, p, hfull', hpart', hf, hp, hsame⟩ := hprefix twoCoinsCalls [] rfl
  obtain rfl := hfull.unique hfull'
  obtain rfl := hpart.unique hpart'
  simp only [hf, Option.map_some, Option.some.injEq, Prod.mk.injEq] at hsix
  obtain ⟨hheight, hout, hin⟩ := hsix
  refine ⟨hvisit, snapshotIn, full, part, f, p, hfull, hpart, hf, hp, hheight, hout, ?_, hsame⟩
  rw [bidOids, hsame.orders ⟨"#10"⟩ (by decide)]
  exact hin

end OrderBookListener
end OrderBookServer
