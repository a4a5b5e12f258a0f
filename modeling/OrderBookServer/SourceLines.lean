import OrderBookServer.Intake
import OrderBookServer.Scoping

/-!
# Lines of the sources

What the listener queues and sends was in the records it was given, and the loop gives it
records of the files only. So the live books are a snapshot of the node with the blocks of
lines of the files applied in order, and every fill and every block that is sent is a line
of a file of its source.
-/
namespace OrderBookServer
namespace OrderBookListener

variable {serde : SerdeJson} {P Q : EventBatch → Prop} {self mid after : OrderBookListener}
  {source : EventSource} {clock : ℕ → Instant} {records : List (List Char)}
  {outcome : Except Fault Unit}

/-! ### What is sent was given -/

/-- The batches of a message. -/
def Says (P : EventBatch → Prop) : InternalMessage → Prop
  | .fills batch => P (.fills batch)
  | .l4BookUpdates diffs statuses => P (.bookDiffs diffs) ∧ P (.orders statuses)
  | _ => True

def Sends (Q : InternalMessage → Prop) (self : OrderBookListener) : Prop :=
  ∀ log, self.internalMessageTx = some log → ∀ m ∈ log, Q m

/-- What waits in the queues, and what was sent. -/
structure Relays (P : EventBatch → Prop) (l : OrderBookListener) : Prop where
  statuses : ∀ b ∈ l.orderStatusCache.batches, P (.orders b)
  diffs : ∀ b ∈ l.orderDiffCache.batches, P (.bookDiffs b)
  sent : Sends (Says P) l

section Sends

variable {R : InternalMessage → Prop}

theorem Sends.congr (h : Sends R self) (hsent : after.internalMessageTx = self.internalMessageTx) :
    Sends R after := fun log hlog => h log (hsent ▸ hlog)

theorem Sends.send (h : Sends R self) {m : InternalMessage} (hm : R m) :
    Sends R (self.send m) := by
  intro log hlog
  simp only [OrderBookListener.send, Option.map_eq_some_iff] at hlog
  obtain ⟨before, hbefore, rfl⟩ := hlog
  simp only [List.mem_append, List.mem_singleton]
  rintro m' (hm' | rfl)
  · exact h before hbefore m' hm'
  · exact hm

theorem Sends.fence (h : Sends R self) (hgap : R .gap) : Sends R self.fence := by
  have hbefore : Sends R { self.fence with internalMessageTx := self.internalMessageTx } :=
    h.congr rfl
  exact hbefore.send (m := .gap) hgap

/-- A call that only a fence undoes has sent nothing. -/
theorem Sends.of_fence (h : Sends R self) (hfence : after.fence = self.fence) : Sends R after := by
  have hsent := congrArg OrderBookListener.internalMessageTx hfence
  simp only [OrderBookListener.fence, OrderBookListener.send] at hsent
  refine h.congr ?_
  cases hafter : after.internalMessageTx with
  | none => cases hself : self.internalMessageTx <;> simp_all
  | some log => cases hself : self.internalMessageTx <;> simp_all

end Sends

theorem Relays.congr (h : Relays P self)
    (hstatuses : after.orderStatusCache = self.orderStatusCache)
    (hdiffs : after.orderDiffCache = self.orderDiffCache)
    (hsent : after.internalMessageTx = self.internalMessageTx) : Relays P after :=
  ⟨hstatuses ▸ h.statuses, hdiffs ▸ h.diffs, h.sent.congr hsent⟩

theorem Relays.send (h : Relays P self) {m : InternalMessage} (hm : Says P m) :
    Relays P (self.send m) := ⟨h.statuses, h.diffs, h.sent.send hm⟩

theorem Says.mono {m : InternalMessage} (h : Says P m) (hpq : ∀ b, P b → Q b) : Says Q m := by
  cases m with
  | gap => trivial
  | snapshot => trivial
  | fills batch => exact hpq _ h
  | l4BookUpdates diffs statuses => exact ⟨hpq _ h.1, hpq _ h.2⟩

theorem Relays.mono (h : Relays P self) (hpq : ∀ b, P b → Q b) : Relays Q self :=
  ⟨fun b hb => hpq _ (h.statuses b hb), fun b hb => hpq _ (h.diffs b hb),
    fun log hlog m hm => (h.sent log hlog m hm).mono hpq⟩

theorem Relays.fence (h : Sends (Says P) self) : Relays P self.fence :=
  ⟨by simp [OrderBookListener.fence, OrderBookListener.send, BatchQueue.new, BatchQueue.batches],
    by simp [OrderBookListener.fence, OrderBookListener.send, BatchQueue.new, BatchQueue.batches],
    h.fence trivial⟩

theorem Relays.synced (h : Relays P self) {statuses : BatchQueue NodeDataOrderStatus}
    {diffs : BatchQueue NodeDataOrderDiff} {pair : Option BlockPair}
    (hsync : Synced self.orderStatusCache self.orderDiffCache pair statuses diffs) :
    Relays P { self with orderStatusCache := statuses, orderDiffCache := diffs } ∧
      ∀ p, pair = some p → P (.bookDiffs p.2) ∧ P (.orders p.1) := by
  obtain ⟨hs, hd, hpair⟩ := hsync.sublists
  refine ⟨⟨fun b hb => h.statuses b (hs.subset hb), fun b hb => h.diffs b (hd.subset hb), h.sent⟩,
    fun p hp => ?_⟩
  obtain ⟨h1, h2, -⟩ := hpair p hp
  exact ⟨h.diffs _ h2, h.statuses _ h1⟩

theorem Relays.accepted {batch : EventBatch} {queued : List EventBatch} (h : Relays P self)
    (hbatch : P batch) (ha : Accepted self batch queued mid) : Relays P mid := by
  cases ha with
  | old => exact h
  | @fills batch =>
    have hsays : Says P (.fills batch) := hbatch
    have hmid : Relays P { self with lastFill := some batch.blockNumber } := h.congr rfl rfl rfl
    exact hmid.send hsays
  | orders hpushed =>
    cases hpushed with
    | new hnew hbatches hlast =>
      refine ⟨?_, h.diffs, h.sent⟩
      simp only [hbatches, List.mem_append, List.mem_singleton]
      rintro b (hb | rfl)
      · exact h.statuses b hb
      · exact hbatch
  | bookDiffs hpushed =>
    cases hpushed with
    | new hnew hbatches hlast =>
      refine ⟨h.statuses, ?_, h.sent⟩
      simp only [hbatches, List.mem_append, List.mem_singleton]
      rintro b (hb | rfl)
      · exact h.diffs b hb
      · exact hbatch

theorem Relays.recorded {state : Option OrderBookState} {pair : BlockPair} (h : Relays P self)
    (hpair : P (.bookDiffs pair.2) ∧ P (.orders pair.1))
    (hr : Recorded { self with orderBookState := state } pair after) : Relays P after := by
  have hstate : Relays P { self with orderBookState := state } := h.congr rfl rfl rfl
  have hsays : Says P (.l4BookUpdates pair.2 pair.1) := hpair
  cases hr with
  | uncached => exact hstate.send hsays
  | dropped =>
    have hdropped : Relays P { self with orderBookState := state }.dropCache :=
      hstate.congr rfl rfl rfl
    exact hdropped.send hsays
  | @cached cache bytes =>
    have hcached : Relays P { self with
        orderBookState := state
        snapshotCacheBytes := bytes
        fetchedSnapshotCache := some (cache ++ [pair]) } := h.congr rfl rfl rfl
    exact hcached.send hsays

theorem Relays.stepped (h : Relays P self) (hs : Stepped self after) : Relays P after := by
  cases hs with
  | notReady => exact h
  | idle hbook hsync => exact (h.synced hsync).1
  | stale hbook hsync hle => exact (h.synced hsync).1
  | applied hbook hsync hgt happlied hrecorded =>
    obtain ⟨hkept, hpair⟩ := h.synced hsync
    exact hkept.recorded (hpair _ rfl) hrecorded

/-- The records of a turn. -/
theorem Relays.processed (hrun : RecordsRun serde source clock self records after outcome)
    (h : Relays P self)
    (hP : ∀ record ∈ records, record.getLast? = some '\n' → ∀ batch,
      parseLine serde source (String.ofList (trimEnd record)) self.scope = .ok batch → P batch) :
    Sends (Says P) after ∧ (outcome = .ok () → Relays P after) := by
  induction hrun with
  | done => exact ⟨h.sent, fun _ => h⟩
  | incomplete => exact ⟨h.sent, fun hok => nomatch hok⟩
  | blank hend hline rest ih => exact ih h fun record hr => hP record (List.mem_cons_of_mem _ hr)
  | malformed => exact ⟨h.sent, fun hok => nomatch hok⟩
  | failed hend hline hparse hreceive =>
    refine ⟨?_, fun hok => nomatch hok⟩
    obtain ⟨-, hfence⟩ | ⟨mid, haccepted, hfence⟩ := receiveBatch_error hreceive
    · exact (h.sent.of_fence hfence).congr rfl
    · have hmid := h.accepted (hP _ List.mem_cons_self hend _ hparse) haccepted
      exact (hmid.sent.of_fence hfence).congr rfl
  | received hend hline hparse hreceive rest ih =>
    obtain ⟨mid, haccepted, hstepped⟩ := receiveBatch_ok hreceive
    have hmid := h.accepted (hP _ List.mem_cons_self hend _ hparse) haccepted
    have hscope := ((SameConfig.accepted haccepted).trans (.stepped hstepped)).scope
    refine ih (hmid.stepped hstepped) fun record hr => ?_
    rw [hscope]
    exact hP record (List.mem_cons_of_mem _ hr)

theorem Relays.publishViews (h : Relays P self) : Relays P self.publishViews := by
  unfold OrderBookListener.publishViews OrderBookListener.l2Snapshots
  cases hbook : self.orderBookState with
  | none => exact h
  | some book =>
    have hbook : Relays P { self with orderBookState := some (book.l2Snapshots true).2 } :=
      h.congr rfl rfl rfl
    dsimp only
    cases (book.l2Snapshots true).1 with
    | none => exact hbook
    | some out =>
      have hsays : Says P (.snapshot out.2.2 out.1 out.2.1) := trivial
      exact hbook.send hsays

/-- A turn sends what its records say. -/
theorem Relays.turn {data : String} (h : Relays P self)
    (hP : ∀ record ∈ splitInclusive [] data.toList, record.getLast? = some '\n' → ∀ batch,
      parseLine serde source (String.ofList (trimEnd record)) self.scope = .ok batch → P batch)
    (hturn : turn serde self data source clock = some after) : Relays P after := by
  unfold OrderBookListener.turn processData at hturn
  split_ifs at hturn with hempty
  · cases hturn
    exact h
  · rcases hp : processRecords serde source clock self (splitInclusive [] data.toList) with
      ⟨last, fault | ⟨⟩⟩
    · obtain ⟨hsent, -⟩ := Relays.processed (recordsRun_iff.mpr hp) h hP
      simp only [hp] at hturn
      cases fault with
      | panic => cases hturn
      | error e =>
        cases hturn
        exact .fence hsent
    · obtain ⟨-, hrelays⟩ := Relays.processed (recordsRun_iff.mpr hp) h hP
      simp only [hp] at hturn
      cases hturn
      exact (hrelays rfl).publishViews

/-! ### The other calls -/

theorem Relays.caughtUp {s : OrderBookState} {out : Option OrderBookState} (h : Relays P self)
    (hcaught : CaughtUp self s after out) : Relays P after := by
  induction hcaught with
  | synced hsync => exact (h.synced hsync).1
  | failed hsync => exact (h.synced hsync).1
  | applied hsync _ _ ih => exact ih (h.synced hsync).1

theorem Relays.finishSnapshot (h : Relays P self) (mapOrder : MapOrder) (epoch : BitVec 64)
    (state : Option OrderBookState) (snapshot : Snapshots InnerL4Order) (height : ℕ) :
    Relays P (self.finishSnapshot mapOrder epoch state snapshot height).1 := by
  have htaken : Relays P self.takeCache.2 := h.congr rfl rfl rfl
  have hgap : Says P .gap := trivial
  have hfinished := finishSnapshot_finished mapOrder self epoch state snapshot height
  generalize (self.finishSnapshot mapOrder epoch state snapshot height).1 = after at hfinished ⊢
  cases hfinished with
  | passed => exact h
  | begun _ hcaught => exact (htaken.caughtUp hcaught).congr rfl rfl rfl
  | retry _ hcaught => exact htaken.caughtUp hcaught
  | kept => exact htaken
  | @refreshed state reached recovered =>
    have hlive : Relays P { self.takeCache.2 with orderBookState := some recovered } :=
      htaken.congr rfl rfl rfl
    exact hlive.publishViews
  | @reloaded state reached recovered =>
    have hlive : Relays P { self.takeCache.2 with orderBookState := some recovered } :=
      htaken.congr rfl rfl rfl
    exact hlive.send hgap

theorem Relays.upkeep (h : Relays P self) (hupkeep : HlListen.Upkeep self after) :
    Relays P after := by
  cases hupkeep with
  | fence => exact .fence h.sent
  | views =>
    unfold OrderBookListener.computeL2Snapshot
    cases self.orderBookState with
    | none => exact h
    | some book => exact h.congr rfl rfl rfl
  | maintenance now =>
    unfold OrderBookListener.maintenance
    have hdropped : Relays P
        { self with recoveryEpoch := self.recoveryEpoch + 1 }.takeCache.2 := h.congr rfl rfl rfl
    dsimp only
    split_ifs
    · exact .fence hdropped.sent
    · exact hdropped
    · exact .fence h.sent
    · exact h

/-- What is queued in a turn was in its records. -/
theorem mem_queuedRecords {batch : EventBatch}
    (h : batch ∈ queuedRecords serde source clock self records) :
    ∃ record ∈ records, record.getLast? = some '\n' ∧
      parseLine serde source (String.ofList (trimEnd record)) self.scope = .ok batch := by
  induction records generalizing self with
  | nil => simp [queuedRecords] at h
  | cons record records ih =>
    have hlater {next : OrderBookListener} (hscope : next.scope = self.scope)
        (hmem : batch ∈ queuedRecords serde source clock next records) :
        ∃ record' ∈ record :: records, record'.getLast? = some '\n' ∧
          parseLine serde source (String.ofList (trimEnd record')) self.scope = .ok batch := by
      obtain ⟨record', hrecord', hend, hparse⟩ := ih hmem
      exact ⟨record', List.mem_cons_of_mem _ hrecord', hend, hscope ▸ hparse⟩
    simp only [queuedRecords, ne_eq, ite_not] at h
    split_ifs at h with hend hblank
    rotate_right
    · simp at h
    · exact hlater rfl h
    · cases hparse : parseLine serde source (String.ofList (trimEnd record)) self.scope with
      | error message => simp [hparse] at h
      | ok found =>
        simp only [hparse, List.mem_append] at h
        obtain hnew | hrest := h
        · refine ⟨record, List.mem_cons_self, hend, ?_⟩
          rw [hparse, eq_of_mem_queues hnew]
        · rcases hreceive : self.receiveBatch (clock records.length) found with ⟨next, fault | ⟨⟩⟩
          · simp [hreceive] at hrest
          · obtain ⟨mid, haccepted, hstepped⟩ := receiveBatch_ok hreceive
            have hconfig := (SameConfig.accepted haccepted).trans (.stepped hstepped)
            exact hlater hconfig.scope (by simpa [hreceive] using hrest)

end OrderBookListener

namespace HlListen

open Records FileCursor OrderBookListener

variable {serde : SerdeJson} {first s s' : HlListen} {out more : List Happening}
  {limits : SourceLimits} {roots : List (PathBuf × EventSource)} {ignoreSpot : Bool}
  {scope : CoinScope} {disk : Disk} {now : Instant} {batch : EventBatch}

/-! ### Lines of files -/

/-- The batch is what a line of a file of its source says. In the run the path below the
directory of the source led to the file, and a cursor of it was opened at the first byte, or at
the end of the file then and with a fence: the line is one of those from there on. -/
def LineOf (serde : SerdeJson) (first : HlListen) (out : List Happening) (s : HlListen)
    (batch : EventBatch) : Prop :=
  ∃ (path root : PathBuf) (source : EventSource) (inode : Inode) (start : ℕ)
    (since : List Happening) (line : List Char),
    first.roots.find? (fun e => path.startsWith e.1) = some (root, source) ∧
    Run.Since (Step serde Disk.Grows) first (Opens path inode start) (fun _ => True) out s since ∧
    Utf8.encode line ∈ records newline [] ((s.disk.contents inode).drop start) ∧
    parseLine serde source (String.ofList (trimEnd line)) first.listener.scope = .ok batch

theorem LineOf.step (h : LineOf serde first out s batch)
    (hstep : Step serde Disk.Grows s more s') : LineOf serde first (out ++ more) s' batch := by
  obtain ⟨path, root, source, inode, start, since, line, hroot, hsince, hline, hparse⟩ := h
  obtain ⟨later, hlater⟩ := ((step_reader hstep).grows inode).drop start
  refine ⟨path, root, source, inode, start, _, line, hroot, hsince.later hstep trivial, ?_, hparse⟩
  rw [← hlater, records_append]
  exact List.mem_append_left _ hline

theorem lineOf_of_wholeLines {text : SourceText} {record : List Char}
    (h : WholeLines s.disk first.roots (TextSince serde first out s) text)
    (hrecord : record ∈ splitInclusive [] text.data.toList)
    (hparse : parseLine serde text.source (String.ofList (trimEnd record)) first.listener.scope =
      .ok batch) : LineOf serde first out s batch := by
  obtain ⟨root, hroot⟩ := h.source
  obtain ⟨start, ⟨since, hsince, -⟩, hlines⟩ := h.lines
  have hwhole := h.whole
  have hcut := map_encode_splitInclusive [] text.data.toList
  rw [Utf8.bytes_eq_encode] at hwhole
  rw [Utf8.encode_nil, hwhole, if_pos rfl, List.append_nil, ← Utf8.bytes_eq_encode] at hcut
  refine ⟨text.path, root, text.source, text.inode, start, since, record, hroot, hsince,
    hlines ?_, hparse⟩
  rw [recordsOf, ← hcut]
  exact List.mem_map_of_mem hrecord

/-- What is queued and sent is lines of files. -/
structure LinesSound (serde : SerdeJson) (first : HlListen) (out : List Happening)
    (s : HlListen) : Prop where
  queued : ∀ batch ∈ queuedBy out, LineOf serde first out s batch
  relays : Relays (LineOf serde first out s) s.listener

theorem LinesSound.step (h : LinesSound serde first out s) (hreader : ReaderSound serde first out s)
    (hsingle : s.snapshots.length ≤ 1) (hscope : s.listener.scope = first.listener.scope)
    (hstep : Step serde Disk.Grows s more s') : LinesSound serde first (out ++ more) s' := by
  have hmono (b : EventBatch) (hb : LineOf serde first out s b) :
      LineOf serde first (out ++ more) s' b := hb.step hstep
  have hbefore := h.relays.mono hmono
  have hqueued (hnone : ∀ b ∈ queuedBy more, LineOf serde first (out ++ more) s' b) :
      ∀ b ∈ queuedBy (out ++ more), LineOf serde first (out ++ more) s' b := by
    intro b hb
    rw [queuedBy_append, List.mem_append] at hb
    exact hb.elim (fun hb => hmono b (h.queued b hb)) (hnone b)
  cases step_concerns hsingle hstep with
  | kept hlistener hattempt hnone => exact ⟨hqueued (by simp [hnone]), hlistener ▸ hbefore⟩
  | @turn text rest clock hcalls hturn hattempt hout =>
    have htext := hreader.lines text (hreader.pending text (by simp [hcalls, LoopCall.text?]))
    have hline : ∀ record ∈ splitInclusive [] text.data.toList, record.getLast? = some '\n' →
        ∀ b, parseLine serde text.source (String.ofList (trimEnd record)) s.listener.scope = .ok b →
          LineOf serde first (out ++ more) s' b := by
      intro record hrecord _ b hparse
      exact hmono b (lineOf_of_wholeLines htext hrecord (hscope ▸ hparse))
    refine ⟨hqueued ?_, hbefore.turn hline hturn⟩
    rw [hout]
    intro b hb
    obtain ⟨record, hrecord, hend, hparse⟩ := mem_queuedRecords hb
    exact hline record hrecord hend b hparse
  | upkeep hupkeep hattempt hnone => exact ⟨hqueued (by simp [hnone]), hbefore.upkeep hupkeep⟩
  | request now _ hlistener _ hnone =>
    exact ⟨hqueued (by simp [hnone]), hlistener ▸ hbefore.congr rfl rfl rfl⟩
  | passed hlistener _ hnone => exact ⟨hqueued (by simp [hnone]), hlistener ▸ hbefore⟩
  | failed hlistener _ hnone =>
    exact ⟨hqueued (by simp [hnone]), hlistener ▸ hbefore.congr rfl rfl rfl⟩
  | finish mapOrder file hcurrent hfile hlistener _ hout =>
    exact ⟨hqueued (by simp [hout, queuedBy]), hlistener ▸ hbefore.finishSnapshot mapOrder _ _ _ _⟩

theorem run_linesSound
    (h : Run (Step serde Disk.Grows) (starts limits roots ignoreSpot scope disk now) out s) :
    LinesSound serde (starts limits roots ignoreSpot scope disk now) out s := by
  refine h.invariant (LinesSound serde _) ?_ fun hrun hs hstep =>
    hs.step (run_readerSound hrun) (run_single hrun) (run_config hrun).2.2 hstep
  refine ⟨by simp [queuedBy], ⟨?_, ?_, ?_⟩⟩
  all_goals simp [starts, start, OrderBookListener.new, BatchQueue.new, BatchQueue.batches, Sends]

/-- The books are those of a snapshot that was given to the listener, as it stands in a file of
the node, with pairs of blocks of exactly the heights after it applied in order, and each of
these blocks is a line of a file of its source. -/
def BookOfLines (serde : SerdeJson) (first : HlListen) (out : List Happening) (s : HlListen)
    (book : OrderBookState) : Prop :=
  ∃ (file : String) (snapshot : Snapshots InnerL4Order) (height : ℕ) (pairs : List BlockPair),
    (snapshot, height) ∈ givenBy out ∧
    loadSnapshotsFromStr serde file first.listener.scope = .ok (height, snapshot) ∧
    History (queuedBy out) first.listener.ignoreSpot snapshot height pairs book ∧
    ∀ p ∈ pairs, LineOf serde first out s (.orders p.1) ∧ LineOf serde first out s (.bookDiffs p.2)

/-- What is derived in a run is made of lines. -/
theorem Sourcing.bookOfLines {w : World} {queueLimits : ResourceLimits} {book : OrderBookState}
    (hw : Sourcing serde queueLimits ignoreSpot scope out s w)
    (hlines : LinesSound serde (starts limits roots ignoreSpot scope disk now) out s)
    (h : Derived w.given w.accepted ignoreSpot book) :
    BookOfLines serde (starts limits roots ignoreSpot scope disk now) out s book := by
  obtain ⟨⟨snapshot, height⟩, hgiven, pairs, hhistory⟩ := h
  obtain ⟨hmem, file, hfile⟩ := hw.given _ hgiven
  rw [hw.accepted] at hhistory
  refine ⟨file, snapshot, height, pairs, hmem, hfile, hhistory, fun p hp => ?_⟩
  have hpaired := hhistory.paired p hp
  exact ⟨hlines.queued _ hpaired.statuses, hlines.queued _ hpaired.diffs⟩

/-- While the files only grow, the live books are those of a snapshot that was given to the
listener, as it stands in a file of the node, with pairs of blocks of exactly the heights after
it applied in order, and each of these blocks was a line of a file of its source. -/
theorem live_books_from_lines
    (h : Run (Step serde Disk.Grows) (starts limits roots ignoreSpot scope disk now) out s)
    {book : OrderBookState} (hbook : s.listener.orderBookState = some book) :
    BookOfLines serde (starts limits roots ignoreSpot scope disk now) out s book := by
  obtain ⟨w, hw⟩ := run_sourcing h
  have hderived := (World.run_sourced hw.run).live book (hw.listener ▸ hbook)
  exact hw.bookOfLines (run_linesSound h) hderived

/-- The block of height 6 is applied to the books of the snapshot. -/
theorem bidTurns_applied : ∃ p ∈ bidTurns id,
    p.2.orderBookState.map OrderBookState.height = some 6 := by
  simp only [bidTurns, OrderBookListener.turn, id,
    processData_line arrayDiffLine (by decide) (by decide +kernel),
    processData_line SerdeJson.emptyBlockLine (by decide) (by decide +kernel)]
  decide +kernel

theorem live_books_from_lines_block_six : ∃ (out : List Happening) (s : HlListen)
    (book : OrderBookState), givenBy out = [(bidSnapshot, 5)] ∧
    s.listener.orderBookState = some book ∧ book.height = 6 ∧
    BookOfLines restingReader (starts .DEFAULT blockSixRoots false .all blockSixFiles.disk 0)
      out s book := by
  obtain ⟨⟨before, after⟩, hturns, hsix⟩ := bidTurns_applied
  obtain ⟨hstatuses, hdiffs⟩ := bidTurns_iff.mp hturns
  obtain ⟨s, hrun, hawaits, -, rfl⟩ := run_statuses hstatuses
  obtain ⟨cursors, -, hblock⟩ := hawaits.run .diffs hdiffs
  obtain ⟨book, hbook, hheight⟩ := Option.map_eq_some_iff.mp hsix
  exact ⟨_, _, book, rfl, hbook, hheight, live_books_from_lines (hrun.trans hblock) hbook⟩

/-- While the files only grow, every fill and every block that was sent was a line of a file of
its source. -/
theorem published_lines
    (h : Run (Step serde Disk.Grows) (starts limits roots ignoreSpot scope disk now) out s)
    {log : List InternalMessage} (hlog : s.listener.internalMessageTx = some log)
    {message : InternalMessage} (hmessage : message ∈ log) :
    Says (LineOf serde (starts limits roots ignoreSpot scope disk now) out s) message :=
  (run_linesSound h).relays.sent log hlog message hmessage

/-- The fills of the block are sent. -/
theorem published_lines_block_six : ∃ (out : List Happening) (s : HlListen)
    (batch : Batch NodeDataFill) (log : List InternalMessage),
      s.listener.internalMessageTx = some log ∧ .fills batch ∈ log ∧
      Says (LineOf blockSixReader (starts oneFile [(["fills"], .fills)] true .all
        blockSixFile.disk 0) out s) (.fills batch) := by
  obtain ⟨out, s, next, log, batch, hrun, -, -, -, -, -, -, -, hlog, hbatch⟩ :=
    run_block_six_done
  exact ⟨out, s, batch, log, hlog, hbatch, published_lines hrun hlog hbatch⟩

end HlListen
end OrderBookServer
