import OrderBookServer.DirtyFiles
import OrderBookServer.SourceFiles
import OrderBookServer.SnapshotFile
import OrderBookServer.ListenerSteps

/-!
# The loop of the listener

`hl_listen` watches the directories of the sources, reads the files of which it is
notified, and has the books checked against snapshots of the node. Three parties share
what it holds: the watcher pushes paths at any time, the loop takes one branch after
another, and a snapshot task takes the listener between the calls of the loop, as the
connections do. A branch works on the cursors, which nobody else sees, and then makes its
other calls one by one: what it has still to call is part of the state, so that the other
parties come in between.
-/
namespace OrderBookServer

/-- The limits of the listener and those of its reader. -/
structure SourceLimits extends ResourceLimits where
  dirtyFiles : ℕ
  turnBytes : ℕ
  recordBytes : ℕ
  snapshotTimeout : ℕ
  snapshotInterval : ℕ
  deriving DecidableEq, Repr

/-- A second of the clock. -/
def second : ℕ := 1000000000

def SourceLimits.DEFAULT : SourceLimits where
  toResourceLimits := .DEFAULT
  dirtyFiles := 32
  turnBytes := 1024 * 1024
  recordBytes := 64 * 1024 * 1024
  snapshotTimeout := 120 * second
  snapshotInterval := 10 * second

/-- `event_source_dir` -/
def EventSource.eventSourceDir (self : EventSource) (dir : PathBuf) : PathBuf :=
  match self with
  | .fills => dir ++ ["hl", "data", "node_fills_by_block"]
  | .orderStatuses => dir ++ ["hl", "data", "node_order_statuses_by_block"]
  | .orderDiffs => dir ++ ["hl", "data", "node_raw_book_diffs_by_block"]

/-- The directories that are watched, with the source of each. -/
def sourceRoots (canonicalize : PathBuf → Except String PathBuf) (dir : PathBuf) :
    Except String (List (PathBuf × EventSource)) :=
  [EventSource.orderStatuses, .orderDiffs, .fills].mapM fun source => do
    return (← canonicalize (source.eventSourceDir dir), source)

/-- Where no link leads elsewhere, what is written below the directory of a source is read as
lines of this source. -/
theorem find_sourceRoots {dir : PathBuf} {roots : List (PathBuf × EventSource)}
    (h : sourceRoots .ok dir = .ok roots) (source : EventSource) (rest : PathBuf) :
    roots.find? (fun e => PathBuf.startsWith (source.eventSourceDir dir ++ rest) e.1) =
      some (source.eventSourceDir dir, source) := by
  simp only [sourceRoots, List.mapM_cons, List.mapM_nil, bind, Except.bind, pure, Except.pure,
    Except.ok.injEq] at h
  subst h
  cases source <;> simp [PathBuf.startsWith, EventSource.eventSourceDir, List.append_assoc]

/-! ### What is asked and called -/

/-- The calls of a branch to the file system, in their order. -/
inductive FileCall where
  | isFile
  | removed
  | stillFile
  | retain (path : PathBuf)
  | evict (path : PathBuf)
  | openPath
  | read
  | reopen
  | attention (path : PathBuf)

def FileCall.stage : FileCall → ℕ
  | .isFile => 0
  | .removed => 1
  | .stillFile => 2
  | .retain _ => 3
  | .evict _ => 4
  | .openPath => 5
  | .read => 6
  | .reopen => 7
  | .attention _ => 8

/-- The records that a turn read, and where. -/
structure SourceText where
  path : PathBuf
  inode : Inode
  source : EventSource
  data : String
  deriving DecidableEq

/-- The calls of a branch to what is shared. -/
inductive LoopCall where
  | fence
  | processData (text : SourceText)
  | requeue (path : PathBuf)
  | wakeIfDirty
  | maintain
  deriving DecidableEq

def LoopCall.text? : LoopCall → Option SourceText
  | .processData text => some text
  | _ => none

/-- The kinds of events that the watcher tells apart. -/
inductive EventKind where
  | create
  | modify
  | modifyMetadata
  | other
  deriving DecidableEq, Repr

inductive Notification where
  | event (kind : EventKind) (paths : List PathBuf)
  | failed
  deriving DecidableEq

/-- Why a snapshot task failed. -/
inductive TaskFailure where
  /-- snapshot recovery failed -/
  | recovery (error : Error)
  /-- snapshot task failed -/
  | task

/-- A run of `fetch_snapshot`. -/
inductive SnapshotTask where
  | spawned
  /-- The node was asked for its snapshot. -/
  | requested (epoch : BitVec 64) (state : Option OrderBookState)
  /-- It has answered while the epoch was current. -/
  | answered (epoch : BitVec 64) (state : Option OrderBookState)
  | finished (outcome : Except TaskFailure Unit)

/-! ### The branch of a path -/

def openCursor (limits : SourceLimits) (fs : FileSystem) (path : PathBuf) (fromEnd : Bool) :
    Except String OpenFile :=
  (OpenFile.openPath fs path fromEnd limits.recordBytes).map fun file =>
    { file with cursor := file.cursor.withMaxAge limits.queueAge }

namespace Cursors

variable (limits : SourceLimits) (ask : FileCall → FileSystem) (path : PathBuf)

/-- What is left of the table when the path may no longer be a file. -/
def removeMissing (self : Cursors) : Cursors × List LoopCall :=
  if (ask .isFile).isFile path then (self, [])
  else
    (self.erase path,
      if (self.lookup path).any fun file => !file.drained (ask .removed) then [.fence] else [])

/-- Make room for one more cursor, if need be by dropping all. -/
def makeRoom (order : PathOrder) (root : PathBuf) (self : Cursors) : Cursors × List LoopCall :=
  let kept := self.retainExisting fun known => ask (.retain known)
  let kept := if limits.dirtyFiles ≤ kept.keys.card then
      (kept.evictRetiredCursor order (fun known => ask (.evict known)) root path).2
    else kept
  if limits.dirtyFiles ≤ kept.keys.card then (∅, [.fence]) else (kept, [])

/-- Open a cursor for a path without one: at its start, unless the path is the first of its
source and was not created under the watch. -/
def attach (order : PathOrder) (root : PathBuf) (created : Bool) (self : Cursors) :
    Cursors × List LoopCall :=
  if path ∈ self then (self, [])
  else
    let trackingSource := decide (∃ known ∈ self.keys, known.startsWith root = true)
    let (kept, full) := self.makeRoom limits ask path order root
    let fromEnd := !created && !trackingSource
    let unknown := if fromEnd then [.fence] else []
    match openCursor limits (ask .openPath) path fromEnd with
    | .ok file => (kept.insert path file, full ++ unknown)
    | .error _ => (kept, full ++ unknown ++ [.fence])

/-- Read a turn of the path, if it has a cursor; after an error the file is read from its end. -/
def readPath (source : EventSource) (self : Cursors) : Cursors × List LoopCall :=
  match self.lookup path with
  | none => (self, [])
  | some file =>
    match file.readTurn (ask .read) path limits.turnBytes with
    | (next, .ok (data, more, _)) =>
      (self.insert path next,
        .processData ⟨path, file.inode, source, data⟩ :: if more then [.requeue path] else [])
    | (_, .error _) =>
      match openCursor limits (ask .reopen) path true with
      | .ok file => ((self.erase path).insert path file, [.fence])
      | .error _ => (self.erase path, [.fence])

/-- All that is done about a path that was notified. -/
def visitPath (order : PathOrder) (roots : List (PathBuf × EventSource)) (created : Bool)
    (self : Cursors) : Cursors × List LoopCall :=
  match roots.find? fun e => path.startsWith e.1 with
  | none => (self, [])
  | some (root, source) =>
    let (kept, removed) := self.removeMissing ask path
    if (ask .stillFile).isFile path then
      let (attached, opened) := kept.attach limits ask path order root created
      let (after, read) := attached.readPath limits ask path source
      (after, removed ++ opened ++ read)
    else (kept, removed)

end Cursors

/-! ### The loop -/

structure HlListen where
  limits : SourceLimits
  roots : List (PathBuf × EventSource)
  dirty : DirtyFiles PathBuf
  /-- The permit that `notify_one` leaves for the next wait. -/
  wake : Bool
  cursors : Cursors
  snapshots : List SnapshotTask
  /-- When the ticker is due. -/
  tickAt : Instant
  recoveryRetryAt : Instant
  /-- What the branch under way has still to call. -/
  calls : List LoopCall
  listener : OrderBookListener
  /-- The files, as they were last seen. -/
  disk : Disk
  clock : Instant

namespace HlListen

def start (listener : OrderBookListener) (limits : SourceLimits)
    (roots : List (PathBuf × EventSource)) (disk : Disk) (now : Instant) : HlListen where
  limits := limits
  roots := roots
  dirty := .new limits.dirtyFiles
  wake := false
  cursors := ∅
  snapshots := []
  tickAt := now + 5 * second
  recoveryRetryAt := now + 5 * second
  calls := []
  listener := { listener with limits := limits.toResourceLimits }
  disk := disk
  clock := now

/-- The callback of the watcher. -/
def watch (self : HlListen) : Notification → HlListen
  | .event kind paths =>
    if kind = .create ∨ kind = .modify then
      { self with
        dirty := paths.foldl (fun dirty path => dirty.push path (kind == .create)) self.dirty
        wake := true }
    else self
  | .failed => { self with dirty := self.dirty.markOverflow, wake := true }

/-- What the next wake takes from the queue. -/
def next (self : HlListen) : Option (PathBuf × Bool) := self.dirty.takeOverflow.2.pop.1

/-- The branch of a wake: at most one path is visited. -/
def wakeBranch (self : HlListen) (order : PathOrder) (ask : FileCall → FileSystem) : HlListen :=
  let (overflow, dirty) := self.dirty.takeOverflow
  let (next, dirty) := dirty.pop
  let (cursors, lost) := if overflow then (∅, [LoopCall.fence]) else (self.cursors, [])
  let (cursors, visited) :=
    match next with
    | none => (cursors, [])
    | some (path, created) => cursors.visitPath self.limits ask path order self.roots created
  { self with
    dirty := dirty
    wake := false
    cursors := cursors
    calls := lost ++ visited ++ [.wakeIfDirty] }

/-- The branch of the maintenance tick: every cursor that needs attention is queued again. -/
def maintenanceBranch (self : HlListen) (order : PathOrder) (ask : FileCall → FileSystem) :
    HlListen :=
  let cursors := self.cursors.retainExisting fun path => ask (.retain path)
  let dirty := (order.visit cursors.keys).foldl (fun dirty path =>
    if (cursors.lookup path).any fun file => file.needsAttention (ask (.attention path)) path then
      dirty.push path false
    else dirty) self.dirty
  { self with
    dirty := dirty
    wake := self.wake || decide (dirty.len > 0)
    cursors := cursors
    calls := [.maintain] }

def spawn (self : HlListen) : HlListen := { self with snapshots := self.snapshots ++ [.spawned] }

/-- The branch of a task that has ended; `now` when the ticker is reset, `later` after it. Only
the loop reads these times, so they are set before the fence. -/
def joinBranch (self : HlListen) (outcome : Except TaskFailure Unit) (rest : List SnapshotTask)
    (now later : Instant) : HlListen :=
  { self with
    snapshots := rest
    tickAt := now + self.limits.snapshotInterval
    recoveryRetryAt := later + 10 * second
    calls := if outcome.isOk then [] else [.fence]
    clock := later }

/-- The branch of the ticker, which is due a period after it was last. -/
def tickBranch (self : HlListen) (now : Instant) : HlListen :=
  { self with tickAt := self.tickAt + self.limits.snapshotInterval, clock := now }.spawn

/-- A call of the branch under way. Nothing is left of the loop when it panics. -/
def call (serde : SerdeJson) (clock : ℕ → Instant) (now : Instant) (self : HlListen) :
    LoopCall → Option HlListen
  | .fence => some { self with listener := self.listener.fence }
  | .processData text =>
    (self.listener.turn serde text.data text.source clock).map fun listener =>
      { self with listener := listener }
  | .requeue path => some { self with dirty := self.dirty.push path false }
  | .wakeIfDirty => some { self with wake := self.wake || !self.dirty.isEmpty }
  | .maintain =>
    let listener := self.listener.maintenance now
    let self := { self with listener := listener, clock := now }
    if !listener.isReady && self.snapshots.isEmpty && decide (self.recoveryRetryAt ≤ now) then
      some self.spawn
    else some self

/-- The outcome of a task whose last call is `finish_snapshot`. -/
def taskOutcome : Except Fault Unit → Except TaskFailure Unit
  | .ok () => .ok ()
  | .error (.error e) => .error (.recovery e)
  | .error .panic => .error .task

/-! ### Steps -/

/-- What is noted of a step. -/
inductive Happening where
  | woke (next : Option PathBuf)
  | read (text : SourceText)
  | fenced
  | queued (batches : List EventBatch)
  | spawned (now : Instant)
  | given (snapshot : Snapshots InnerL4Order) (height : ℕ)

/-- The calls see the files change from `before` to `after`. -/
structure Asked (changes : Disk → Disk → Prop) (before : Disk) (ask : FileCall → FileSystem)
    (after : Disk) : Prop where
  since : ∀ c, changes before (ask c).disk
  between : ∀ c c', c.stage < c'.stage → changes (ask c).disk (ask c').disk
  last : ∀ c, changes (ask c).disk after

def noted (serde : SerdeJson) (clock : ℕ → Instant) (now : Instant) (self after : HlListen) :
    LoopCall → List Happening
  | .fence => [.fenced]
  | .processData text =>
    [.queued (OrderBookListener.queuedData serde self.listener text.data text.source clock)]
  | .maintain => if self.snapshots.length < after.snapshots.length then [.spawned now] else []
  | _ => []

/-- One step of the loop, the watcher, the snapshot task or a connection, where the files
change by `changes`. -/
inductive Step (serde : SerdeJson) (changes : Disk → Disk → Prop) :
    HlListen → List Happening → HlListen → Prop
  | files {s : HlListen} (disk : Disk) (h : changes s.disk disk) :
    Step serde changes s [] { s with disk := disk }
  | watch (s : HlListen) (n : Notification) : Step serde changes s [] (s.watch n)
  | wake {s : HlListen} (order : PathOrder) (ask : FileCall → FileSystem) (disk : Disk)
    (hidle : s.calls = []) (hwake : s.wake = true) (hasked : Asked changes s.disk ask disk) :
    Step serde changes s
      (.woke (s.next.map Prod.fst) ::
        ((s.wakeBranch order ask).calls.filterMap LoopCall.text?).map .read)
      { s.wakeBranch order ask with disk := disk }
  | maintenance {s : HlListen} (order : PathOrder) (ask : FileCall → FileSystem) (disk : Disk)
    (hidle : s.calls = []) (hasked : Asked changes s.disk ask disk) :
    Step serde changes s [] { s.maintenanceBranch order ask with disk := disk }
  | join {s : HlListen} {before after : List SnapshotTask} {outcome : Except TaskFailure Unit}
    (now later : Instant) (hidle : s.calls = [])
    (htask : s.snapshots = before ++ .finished outcome :: after) (hnow : s.clock ≤ now)
    (hlater : now ≤ later) :
    Step serde changes s [] (s.joinBranch outcome (before ++ after) now later)
  | tick {s : HlListen} (now : Instant) (hidle : s.calls = []) (hnone : s.snapshots = [])
    (hnow : s.clock ≤ now) (hdue : s.tickAt ≤ now) :
    Step serde changes s [.spawned now] (s.tickBranch now)
  | call {s after : HlListen} {c : LoopCall} {rest : List LoopCall} (clock : ℕ → Instant)
    (now : Instant) (hcalls : s.calls = c :: rest) (hnow : s.clock ≤ now)
    (hcall : call serde clock now { s with calls := rest } c = some after) :
    Step serde changes s (s.noted serde clock now after c) after
  /-- The task begins: the epoch and the books are captured under one lock. -/
  | request {s : HlListen} {before after : List SnapshotTask} (now : Instant)
    (htask : s.snapshots = before ++ .spawned :: after) :
    Step serde changes s [] { s with
      listener := s.listener.beginCaching now
      snapshots := before ++ .requested s.listener.recoveryEpoch s.listener.cloneState :: after }
  /-- The node has answered, and the epoch is the same. -/
  | answer {s : HlListen} {before after : List SnapshotTask} {epoch : BitVec 64}
    {state : Option OrderBookState}
    (htask : s.snapshots = before ++ .requested epoch state :: after)
    (hepoch : s.listener.recoveryEpoch = epoch) :
    Step serde changes s [] { s with snapshots := before ++ .answered epoch state :: after }
  /-- It has answered too late. -/
  | passed {s : HlListen} {before after : List SnapshotTask} {epoch : BitVec 64}
    {state : Option OrderBookState}
    (htask : s.snapshots = before ++ .requested epoch state :: after)
    (hepoch : s.listener.recoveryEpoch ≠ epoch) :
    Step serde changes s [] { s with snapshots := before ++ .finished (.ok ()) :: after }
  /-- The request has failed. -/
  | requestFailed {s : HlListen} {before after : List SnapshotTask} {epoch : BitVec 64}
    {state : Option OrderBookState}
    (htask : s.snapshots = before ++ .requested epoch state :: after) :
    Step serde changes s [] { s with
      listener := s.listener.takeCache.2
      snapshots := before ++ .finished (.ok ()) :: after }
  /-- The file of the snapshot does not parse. -/
  | parseFailed {s : HlListen} {before after : List SnapshotTask} {epoch : BitVec 64}
    {state : Option OrderBookState}
    (htask : s.snapshots = before ++ .answered epoch state :: after) :
    Step serde changes s [] { s with
      listener := s.listener.takeCache.2
      snapshots := before ++ .finished (.ok ()) :: after }
  | finish {s : HlListen} {before after : List SnapshotTask} {epoch : BitVec 64}
    {state : Option OrderBookState} (mapOrder : MapOrder) (file : String)
    {snapshot : Snapshots InnerL4Order} {height : ℕ}
    (htask : s.snapshots = before ++ .answered epoch state :: after)
    (hfile : loadSnapshotsFromStr serde file s.listener.scope = .ok (height, snapshot)) :
    Step serde changes s [.given snapshot height] { s with
      listener := (s.listener.finishSnapshot mapOrder epoch state snapshot height).1
      snapshots := before ++
        .finished
          (taskOutcome (s.listener.finishSnapshot mapOrder epoch state snapshot height).2) ::
            after }
  /-- The task has panicked on the way. -/
  | abort {s : HlListen} {before after : List SnapshotTask} {task : SnapshotTask}
    (htask : s.snapshots = before ++ task :: after)
    (hrunning : ∀ outcome, task ≠ .finished outcome) :
    Step serde changes s [] { s with snapshots := before ++ .finished (.error .task) :: after }
  /-- A connection has the views computed. -/
  | views (s : HlListen) :
    Step serde changes s [] { s with listener := s.listener.computeL2Snapshot.2 }

end HlListen
end OrderBookServer
