import OrderBookServer.Listen
import OrderBookServer.Publication
import OrderBookServer.Provenance
import OrderBookServer.Runs

/-!
# Runs of the loop

What the listener goes through in the loop is what it goes through in the smaller systems
that have only the listener and the snapshot attempts: the watcher and the cursors do not
touch it, and the loop never has two tasks. Whatever holds of every run there holds of the
listener in every run of the loop.
-/
namespace OrderBookServer

open OrderBookListener

/-! ### What never changes -/

namespace OrderBookListener

/-- What a listener is told once. -/
structure SameConfig (l l' : OrderBookListener) : Prop where
  limits : l'.limits = l.limits
  ignoreSpot : l'.ignoreSpot = l.ignoreSpot
  scope : l'.scope = l.scope

namespace SameConfig

variable {l mid l' : OrderBookListener}

theorem refl (l : OrderBookListener) : SameConfig l l := ⟨rfl, rfl, rfl⟩

theorem trans (h : SameConfig l mid) (h' : SameConfig mid l') : SameConfig l l' :=
  ⟨h'.limits.trans h.limits, h'.ignoreSpot.trans h.ignoreSpot, h'.scope.trans h.scope⟩

theorem accepted {batch : EventBatch} {queued : List EventBatch} (h : Accepted l batch queued l') :
    SameConfig l l' := by
  cases h <;> exact ⟨rfl, rfl, rfl⟩

theorem stepped (h : Stepped l l') : SameConfig l l' := by
  cases h with
  | notReady => exact .refl l
  | idle => exact ⟨rfl, rfl, rfl⟩
  | stale => exact ⟨rfl, rfl, rfl⟩
  | applied _ _ _ _ hrecorded => cases hrecorded <;> exact ⟨rfl, rfl, rfl⟩

theorem received {batches : List EventBatch} (h : Received l batches l') : SameConfig l l' := by
  induction h with
  | nil self => exact .refl self
  | cons haccepted hstepped _ ih => exact ((accepted haccepted).trans (stepped hstepped)).trans ih

theorem broken {batches : List EventBatch} (h : Broken l batches l') : SameConfig l l' := by
  cases h with
  | received h => exact received h
  | accepted h haccepted => exact (received h).trans (accepted haccepted)

theorem publishViews (l : OrderBookListener) : SameConfig l l.publishViews := by
  unfold OrderBookListener.publishViews OrderBookListener.l2Snapshots
  cases l.orderBookState with
  | none => exact .refl l
  | some book =>
    dsimp only
    cases (book.l2Snapshots true).1 <;> exact ⟨rfl, rfl, rfl⟩

theorem progress {serde : SerdeJson} {queued : List EventBatch} (h : Progress serde l queued l') :
    SameConfig l l' := by
  cases progress_cases h with
  | kept => exact .refl l
  | published hr => exact (received hr).trans (publishViews _)
  | broken hb => exact (broken hb).trans ⟨rfl, rfl, rfl⟩
  | fenced => exact ⟨rfl, rfl, rfl⟩
  | aged => exact ⟨rfl, rfl, rfl⟩
  | agedFenced => exact ⟨rfl, rfl, rfl⟩
  | computed => exact ⟨rfl, rfl, rfl⟩

theorem caughtUp {s : OrderBookState} {out : Option OrderBookState} (h : CaughtUp l s l' out) :
    SameConfig l l' := by
  induction h with
  | synced => exact ⟨rfl, rfl, rfl⟩
  | failed => exact ⟨rfl, rfl, rfl⟩
  | applied _ _ _ ih => exact ⟨ih.limits, ih.ignoreSpot, ih.scope⟩

theorem finishSnapshot (mapOrder : MapOrder) (l : OrderBookListener) (epoch : BitVec 64)
    (state : Option OrderBookState) (snapshot : Snapshots InnerL4Order) (height : ℕ) :
    SameConfig l (l.finishSnapshot mapOrder epoch state snapshot height).1 := by
  have hf := finishSnapshot_finished mapOrder l epoch state snapshot height
  generalize (l.finishSnapshot mapOrder epoch state snapshot height).1 = l' at hf ⊢
  cases hf with
  | passed => exact .refl l
  | begun _ hcaught =>
    have h := caughtUp hcaught
    exact ⟨h.limits, h.ignoreSpot, h.scope⟩
  | retry _ hcaught =>
    have h := caughtUp hcaught
    exact ⟨h.limits, h.ignoreSpot, h.scope⟩
  | kept => exact ⟨rfl, rfl, rfl⟩
  | @refreshed state reached recovered =>
    have h := publishViews { l.takeCache.2 with orderBookState := some recovered }
    exact ⟨h.limits, h.ignoreSpot, h.scope⟩
  | reloaded => exact ⟨rfl, rfl, rfl⟩

end SameConfig
end OrderBookListener

/-- The attempt that a task is at. -/
def SnapshotTask.attempt? : SnapshotTask → Option SnapshotAttempt
  | .requested epoch state => some ⟨epoch, state⟩
  | .answered epoch state => some ⟨epoch, state⟩
  | _ => none

/-! ### A file that is created -/

theorem keys_subset_of_sub {cursors cursors' : Cursors}
    (h : ∀ path file, cursors'.lookup path = some file → cursors.lookup path = some file) :
    cursors'.keys ⊆ cursors.keys := by
  intro path hpath
  obtain ⟨file, hfile⟩ := Finmap.mem_iff.mp (Finmap.mem_keys.mp hpath)
  exact Finmap.mem_keys.mpr (Finmap.mem_of_lookup_eq_some (h path file hfile))

namespace Cursors

theorem makeRoom_of_lt {limits : SourceLimits} {ask : FileCall → FileSystem} {self : Cursors}
    (path : PathBuf) (order : PathOrder) (root : PathBuf)
    (h : (self.retainExisting fun known => ask (.retain known)).keys.card < limits.dirtyFiles) :
    self.makeRoom limits ask path order root =
      (self.retainExisting fun known => ask (.retain known), []) := by
  simp only [makeRoom, if_neg (Nat.not_le.mpr h)]

/-- A file that was created under the watch is read from its first byte. -/
theorem visitPath_created {limits : SourceLimits} {ask : FileCall → FileSystem}
    {path root : PathBuf} {roots : List (PathBuf × EventSource)} {source : EventSource}
    {self : Cursors} {file next : OpenFile} {data : String} {more : Bool} {n : ℕ}
    (order : PathOrder) (hnew : path ∉ self)
    (hroom : (self.retainExisting fun known => ask (.retain known)).keys.card < limits.dirtyFiles)
    (hroot : roots.find? (fun e => path.startsWith e.1) = some (root, source))
    (hfile : (ask .isFile).isFile path = true) (hstill : (ask .stillFile).isFile path = true)
    (hopen : openCursor limits (ask .openPath) path false = .ok file)
    (hread : file.readTurn (ask .read) path limits.turnBytes = (next, .ok (data, more, n))) :
    self.visitPath limits ask path order roots true =
      (((self.retainExisting fun known => ask (.retain known)).insert path file).insert path next,
        .processData ⟨path, file.inode, source, data⟩ :: if more then [.requeue path] else []) := by
  simp [visitPath, hroot, removeMissing, hfile, hstill, attach, hnew,
    makeRoom_of_lt path order root hroom, hopen, readPath, hread]

end Cursors

namespace HlListen

variable {serde : SerdeJson} {changes : Disk → Disk → Prop} {s s' : HlListen}
  {out : List Happening}

/-! ### One task at most -/

theorem eq_nil_of_append_cons {A : Type} {l before after : List A} {a : A} (hl : l.length ≤ 1)
    (h : l = before ++ a :: after) : before = [] ∧ after = [] := by
  have hlength := congrArg List.length h
  simp only [List.length_append, List.length_cons] at hlength
  rw [← List.length_eq_zero_iff, ← List.length_eq_zero_iff]
  omega

/-- What a call of the loop does to the listener and the tasks. -/
inductive Called (serde : SerdeJson) (clock : ℕ → Instant) (now : Instant) (s s' : HlListen) :
    LoopCall → Prop
  | fence (hlistener : s'.listener = s.listener.fence) (htasks : s'.snapshots = s.snapshots) :
    Called serde clock now s s' .fence
  | processData {text : SourceText}
    (hturn : s.listener.turn serde text.data text.source clock = some s'.listener)
    (htasks : s'.snapshots = s.snapshots) : Called serde clock now s s' (.processData text)
  | requeue {path : PathBuf} (hlistener : s'.listener = s.listener)
    (htasks : s'.snapshots = s.snapshots) : Called serde clock now s s' (.requeue path)
  | wakeIfDirty (hlistener : s'.listener = s.listener) (htasks : s'.snapshots = s.snapshots) :
    Called serde clock now s s' .wakeIfDirty
  | maintain (hlistener : s'.listener = s.listener.maintenance now)
    (htasks : s'.snapshots = s.snapshots ∨
      s.snapshots = [] ∧ s'.snapshots = [.spawned] ∧ s'.listener.isReady = false ∧
        s.recoveryRetryAt ≤ now) : Called serde clock now s s' .maintain

theorem call_cases {clock : ℕ → Instant} {now : Instant} {c : LoopCall} {rest : List LoopCall}
    (h : call serde clock now { s with calls := rest } c = some s') :
    Called serde clock now s s' c := by
  cases c with
  | fence =>
    cases h
    exact .fence rfl rfl
  | processData text =>
    simp only [call, Option.map_eq_some_iff] at h
    obtain ⟨listener, hturn, rfl⟩ := h
    exact .processData hturn rfl
  | requeue path =>
    cases h
    exact .requeue rfl rfl
  | wakeIfDirty =>
    cases h
    exact .wakeIfDirty rfl rfl
  | maintain =>
    simp only [call] at h
    split_ifs at h with hspawn
    · cases h
      simp only [Bool.and_eq_true, Bool.not_eq_true', decide_eq_true_eq, List.isEmpty_iff] at hspawn
      obtain ⟨⟨hready, hnone⟩, hretry⟩ := hspawn
      exact .maintain rfl (.inr ⟨hnone, by simp [spawn, hnone], hready, hretry⟩)
    · cases h
      exact .maintain rfl (.inl rfl)

/-- The watcher sees the queue and the permit only. -/
theorem watch_frame (s : HlListen) (n : Notification) :
    ∃ dirty wake, s.watch n = { s with dirty := dirty, wake := wake } := by
  cases n with
  | event kind paths =>
    simp only [watch]
    split_ifs
    · exact ⟨_, _, rfl⟩
    · exact ⟨s.dirty, s.wake, rfl⟩
  | failed => exact ⟨_, _, rfl⟩

theorem step_single (h : s.snapshots.length ≤ 1) (hstep : Step serde changes s out s') :
    s'.snapshots.length ≤ 1 := by
  cases hstep with
  | files => exact h
  | watch n =>
    obtain ⟨dirty, wake, hwatch⟩ := watch_frame s n
    rwa [hwatch]
  | wake => exact h
  | maintenance => exact h
  | join now later hidle htask =>
    rw [htask] at h
    simp only [joinBranch, List.length_append, List.length_cons] at h ⊢
    omega
  | tick now hidle hnone => simp [tickBranch, spawn, hnone]
  | call clock now hcalls hnow hcall =>
    cases call_cases hcall with
    | fence _ htasks => rwa [htasks]
    | processData _ htasks => rwa [htasks]
    | requeue _ htasks => rwa [htasks]
    | wakeIfDirty _ htasks => rwa [htasks]
    | maintain _ htasks =>
      obtain htasks | ⟨-, htasks, -⟩ := htasks
      · rwa [htasks]
      · simp [htasks]
  | request now htask => simpa [htask] using h
  | answer htask => simpa [htask] using h
  | passed htask => simpa [htask] using h
  | requestFailed htask => simpa [htask] using h
  | parseFailed htask => simpa [htask] using h
  | finish mapOrder file htask => simpa [htask] using h
  | abort htask => simpa [htask] using h
  | views => exact h

/-! ### The listener and the attempts -/

def attempt (s : HlListen) : Option SnapshotAttempt := s.snapshots.findSome? SnapshotTask.attempt?

theorem attempt_of_single {before after : List SnapshotTask} {task : SnapshotTask}
    (h : s.snapshots.length ≤ 1) (htask : s.snapshots = before ++ task :: after) :
    s.attempt = task.attempt? ∧ before = [] ∧ after = [] := by
  obtain ⟨rfl, rfl⟩ := eq_nil_of_append_cons h htask
  simp only [attempt, htask, List.nil_append, List.findSome?_cons, List.findSome?_nil]
  cases task.attempt? <;> simp

theorem attempt_congr (htasks : s'.snapshots = s.snapshots) : s'.attempt = s.attempt := by
  simp only [attempt, htasks]

/-- The batches that were queued. -/
def queuedBy (out : List Happening) : List EventBatch :=
  out.flatMap fun
    | .queued batches => batches
    | _ => []

/-- The snapshots that were given to the listener. -/
def givenBy (out : List Happening) : List (Snapshots InnerL4Order × ℕ) :=
  out.filterMap fun
    | .given snapshot height => some (snapshot, height)
    | _ => none

@[simp] theorem queuedBy_append (out more : List Happening) :
    queuedBy (out ++ more) = queuedBy out ++ queuedBy more := List.flatMap_append

@[simp] theorem givenBy_append (out more : List Happening) :
    givenBy (out ++ more) = givenBy out ++ givenBy more := List.filterMap_append

@[simp] theorem queuedBy_cons (h : Happening) (out : List Happening) :
    queuedBy (h :: out) = queuedBy [h] ++ queuedBy out := queuedBy_append [h] out

@[simp] theorem givenBy_cons (h : Happening) (out : List Happening) :
    givenBy (h :: out) = givenBy [h] ++ givenBy out := givenBy_append [h] out

@[simp] theorem queuedBy_reads (texts : List SourceText) : queuedBy (texts.map .read) = [] := by
  simp [queuedBy, List.flatMap_map]

/-- What the loop and the connections do to the listener besides giving it records. -/
inductive Upkeep (l : OrderBookListener) : OrderBookListener → Prop
  | fence : Upkeep l l.fence
  | maintenance (now : Instant) : Upkeep l (l.maintenance now)
  | views : Upkeep l l.computeL2Snapshot.2

theorem Upkeep.progress (serde : SerdeJson) {l l' : OrderBookListener} (h : Upkeep l l') :
    Progress serde l [] l' := by
  cases h with
  | fence => exact .fence l
  | maintenance now => exact .maintenance l now
  | views => exact .computeL2Snapshot l

/-- What a step is for the listener and the attempt in flight. -/
inductive Concerns (serde : SerdeJson) (s : HlListen) (out : List Happening) (s' : HlListen) : Prop
  | kept (hlistener : s'.listener = s.listener) (hattempt : s'.attempt = s.attempt)
    (hqueued : queuedBy out = [])
  | turn {text : SourceText} {rest : List LoopCall} (clock : ℕ → Instant)
    (hcalls : s.calls = .processData text :: rest)
    (hturn : s.listener.turn serde text.data text.source clock = some s'.listener)
    (hattempt : s'.attempt = s.attempt)
    (hqueued : queuedBy out = queuedData serde s.listener text.data text.source clock)
  | upkeep (hupkeep : Upkeep s.listener s'.listener) (hattempt : s'.attempt = s.attempt)
    (hqueued : queuedBy out = [])
  | request (now : Instant) (hnone : s.attempt = none)
    (hlistener : s'.listener = s.listener.beginCaching now)
    (hattempt : s'.attempt = some ⟨s.listener.recoveryEpoch, s.listener.cloneState⟩)
    (hqueued : queuedBy out = [])
  | passed (hlistener : s'.listener = s.listener) (hattempt : s'.attempt = none)
    (hqueued : queuedBy out = [])
  | failed (hlistener : s'.listener = s.listener.takeCache.2) (hattempt : s'.attempt = none)
    (hqueued : queuedBy out = [])
  | finish {attempt : SnapshotAttempt} (mapOrder : MapOrder) (file : String)
    {snapshot : Snapshots InnerL4Order} {height : ℕ} (hcurrent : s.attempt = some attempt)
    (hfile : loadSnapshotsFromStr serde file s.listener.scope = .ok (height, snapshot))
    (hlistener : s'.listener =
      (s.listener.finishSnapshot mapOrder attempt.epoch attempt.state snapshot height).1)
    (hattempt : s'.attempt = none) (hout : out = [.given snapshot height])

theorem step_concerns (h : s.snapshots.length ≤ 1) (hstep : Step serde changes s out s') :
    Concerns serde s out s' := by
  cases hstep with
  | files => exact .kept rfl rfl rfl
  | watch n =>
    obtain ⟨dirty, wake, hwatch⟩ := watch_frame s n
    exact hwatch ▸ .kept rfl rfl rfl
  | wake => exact .kept rfl rfl (by rw [queuedBy_cons, queuedBy_reads]; rfl)
  | maintenance => exact .kept rfl rfl rfl
  | join now later hidle htask =>
    obtain ⟨hattempt, rfl, rfl⟩ := attempt_of_single h htask
    exact .kept rfl hattempt.symm rfl
  | tick now hidle hnone =>
    exact .kept rfl (by simp [attempt, tickBranch, spawn, hnone, SnapshotTask.attempt?]) rfl
  | call clock now hcalls hnow hcall =>
    cases call_cases hcall with
    | fence hlistener htasks =>
      exact .upkeep (hlistener ▸ .fence) (attempt_congr htasks) rfl
    | processData hturn htasks =>
      exact .turn clock hcalls hturn (attempt_congr htasks) (by simp [noted, queuedBy])
    | requeue hlistener htasks => exact .kept hlistener (attempt_congr htasks) rfl
    | wakeIfDirty hlistener htasks => exact .kept hlistener (attempt_congr htasks) rfl
    | maintain hlistener htasks =>
      have hnone : queuedBy (s.noted serde clock now s' .maintain) = [] := by
        simp only [noted]
        split_ifs <;> rfl
      refine .upkeep (hlistener ▸ .maintenance now) ?_ hnone
      · obtain htasks | ⟨hempty, htasks, -⟩ := htasks
        · exact attempt_congr htasks
        · simp [attempt, htasks, hempty, SnapshotTask.attempt?]
  | request now htask =>
    obtain ⟨hattempt, rfl, rfl⟩ := attempt_of_single h htask
    exact .request now hattempt rfl rfl rfl
  | answer htask =>
    obtain ⟨hattempt, rfl, rfl⟩ := attempt_of_single h htask
    exact .kept rfl hattempt.symm rfl
  | passed htask =>
    obtain ⟨hattempt, rfl, rfl⟩ := attempt_of_single h htask
    exact .passed rfl rfl rfl
  | requestFailed htask =>
    obtain ⟨hattempt, rfl, rfl⟩ := attempt_of_single h htask
    exact .failed rfl rfl rfl
  | parseFailed htask =>
    obtain ⟨hattempt, rfl, rfl⟩ := attempt_of_single h htask
    exact .failed rfl rfl rfl
  | finish mapOrder file htask hfile =>
    obtain ⟨hattempt, rfl, rfl⟩ := attempt_of_single h htask
    exact .finish mapOrder file hattempt hfile rfl rfl rfl
  | abort htask =>
    obtain ⟨hattempt, rfl, rfl⟩ := attempt_of_single h htask
    exact .passed rfl rfl rfl
  | views => exact .upkeep .views rfl rfl

theorem Concerns.sameConfig (h : Concerns serde s out s') : SameConfig s.listener s'.listener := by
  cases h with
  | kept hlistener => rw [hlistener]; exact .refl _
  | turn clock hcalls hturn => exact .progress (.turn _ _ clock hturn)
  | upkeep hupkeep => exact .progress (hupkeep.progress serde)
  | request now hnone hlistener => rw [hlistener]; exact ⟨rfl, rfl, rfl⟩
  | passed hlistener => rw [hlistener]; exact .refl _
  | failed hlistener => rw [hlistener]; exact ⟨rfl, rfl, rfl⟩
  | finish mapOrder file hcurrent hfile hlistener =>
    rw [hlistener]
    exact .finishSnapshot mapOrder _ _ _ _ _

/-! ### Runs from the start -/

/-- The loop as it starts. -/
def starts (limits : SourceLimits) (roots : List (PathBuf × EventSource)) (ignoreSpot : Bool)
    (scope : CoinScope) (disk : Disk) (now : Instant) : HlListen :=
  start (.new (some []) ignoreSpot scope) limits roots disk now

variable {limits : SourceLimits} {roots : List (PathBuf × EventSource)} {ignoreSpot : Bool}
  {scope : CoinScope} {disk : Disk} {now : Instant}

/-- The loop has loaded its first books, and has read nothing. -/
structure Loaded (limits : SourceLimits) (roots : List (PathBuf × EventSource)) (ignoreSpot : Bool)
    (scope : CoinScope) (disk : Disk) (clock : Instant) (snapshot : Snapshots InnerL4Order)
    (height : ℕ) (s : HlListen) : Prop where
  limits_eq : s.limits = limits
  roots_eq : s.roots = roots
  dirty : s.dirty = .new limits.dirtyFiles
  cursors : s.cursors = ∅
  tasks : s.snapshots = [.finished (.ok ())]
  calls : s.calls = []
  listener : s.listener = (OrderBookListener.initFromSnapshot
    { OrderBookListener.new (some []) ignoreSpot scope with limits := limits.toResourceLimits }
    snapshot height).1
  disk_eq : s.disk = disk
  clock_eq : s.clock = clock

theorem run_loaded {snapshot : Snapshots InnerL4Order} {height : ℕ} {file : String}
    (hfile : loadSnapshotsFromStr serde file scope = .ok (height, snapshot)) :
    ∃ s, Run (Step serde changes) (starts limits roots ignoreSpot scope disk now)
        [.spawned (now + 5 * second), .given snapshot height] s ∧
      Loaded limits roots ignoreSpot scope disk (now + 5 * second) snapshot height s := by
  obtain ⟨mapOrder⟩ := MapOrder.nonempty
  have htick : Step serde changes (starts limits roots ignoreSpot scope disk now)
      [.spawned (now + 5 * second)] _ :=
    .tick (now + 5 * second) rfl rfl (by simp [starts, start]) (by simp [starts, start])
  have hrequest := (Run.single htick).tail (@Step.request _ _ _ [] [] 0 rfl)
  have hanswer := hrequest.tail (@Step.answer _ _ _ [] [] _ _ rfl rfl)
  exact ⟨_, hanswer.tail (@Step.finish _ _ _ [] [] _ _ mapOrder file _ _ rfl hfile),
    rfl, rfl, rfl, rfl, rfl, rfl, rfl, rfl, rfl⟩

/-- The first snapshot that is given makes the live books. -/
theorem run_first_snapshot {snapshot : Snapshots InnerL4Order} {height : ℕ} {file : String}
    (hfile : loadSnapshotsFromStr serde file scope = .ok (height, snapshot)) :
    ∃ s, Run (Step serde changes) (starts limits roots ignoreSpot scope disk now)
        [.spawned (now + 5 * second), .given snapshot height] s ∧
      s.listener.orderBookState = some (.fromSnapshot snapshot height 0 true ignoreSpot) := by
  obtain ⟨s, hrun, hloaded⟩ := run_loaded hfile
  exact ⟨s, hrun, by rw [hloaded.listener]; rfl⟩

/-- The visit of a wake, after what an overflow has left. -/
def visitNext (s : HlListen) (order : PathOrder) (ask : FileCall → FileSystem) (left : Cursors) :
    Cursors × List LoopCall :=
  match s.next with
  | none => (left, [])
  | some (path, created) => left.visitPath s.limits ask path order s.roots created

theorem wakeBranch_eq (s : HlListen) (order : PathOrder) (ask : FileCall → FileSystem)
    {left : Cursors} {lost : List LoopCall}
    (h : (left, lost) = if s.dirty.overflow then (∅, [.fence]) else (s.cursors, [])) :
    s.wakeBranch order ask = { s with
      dirty := s.dirty.takeOverflow.2.pop.2
      wake := false
      cursors := (s.visitNext order ask left).1
      calls := lost ++ (s.visitNext order ask left).2 ++ [.wakeIfDirty] } := by
  obtain ⟨rfl, rfl⟩ := Prod.mk.inj h
  rfl

/-- A wake for a file that was created under the watch. -/
theorem wake_created {path root : PathBuf} {source : EventSource}
    {fs : FileSystem} {file next : OpenFile} {data : String} {more : Bool} {n : ℕ}
    (hidle : s.calls = []) (hwake : s.wake = true) (hoverflow : s.dirty.overflow = false)
    (hnext : s.next = some (path, true)) (hasked : Asked changes s.disk (fun _ => fs) fs.disk)
    (hnew : path ∉ s.cursors) (hroom : s.cursors.keys.card < s.limits.dirtyFiles)
    (hroot : s.roots.find? (fun e => path.startsWith e.1) = some (root, source))
    (hfile : fs.isFile path = true) (hopen : openCursor s.limits fs path false = .ok file)
    (hread : file.readTurn fs path s.limits.turnBytes = (next, .ok (data, more, n))) :
    ∃ cursors : Cursors, cursors.lookup path = some next ∧
      cursors.keys ⊆ insert path s.cursors.keys ∧
      Step serde changes s [.woke (some path), .read ⟨path, file.inode, source, data⟩]
        { s with
          dirty := s.dirty.takeOverflow.2.pop.2
          wake := false
          cursors := cursors
          calls := .processData ⟨path, file.inode, source, data⟩ ::
            (if more then [.requeue path] else []) ++ [.wakeIfDirty]
          disk := fs.disk } := by
  obtain ⟨order⟩ := PathOrder.nonempty
  let kept := s.cursors.retainExisting fun _ => fs
  have hkept : kept.keys ⊆ s.cursors.keys :=
    keys_subset_of_sub fun _ _ hfile => (Cursors.lookup_retainExisting.mp hfile).1
  have hvisit := @Cursors.visitPath_created s.limits (fun _ => fs) path root s.roots source
    s.cursors file next data more n order hnew
    (lt_of_le_of_lt (Finset.card_le_card hkept) hroom) hroot hfile hfile hopen hread
  have hvisited : s.visitNext order (fun _ => fs) s.cursors =
      s.cursors.visitPath s.limits (fun _ => fs) path order s.roots true := by
    rw [visitNext, hnext]
  have hlost : (s.cursors, ([] : List LoopCall)) =
      if s.dirty.overflow then (∅, [.fence]) else (s.cursors, []) := by
    rw [hoverflow, if_neg Bool.false_ne_true]
  have hstep : Step serde changes s _ _ := .wake order (fun _ => fs) fs.disk hidle hwake hasked
  rw [wakeBranch_eq s order (fun _ => fs) hlost, hvisited, hvisit, hnext] at hstep
  refine ⟨(kept.insert path file).insert path next, by simp, ?_, ?_⟩
  · rw [HashMap.keys_insert, HashMap.keys_insert, Finset.insert_idem]
    exact Finset.insert_subset_insert _ hkept
  · cases more <;> exact hstep

/-- What is read then is handed over before the loop is idle again. -/
theorem run_created {path root : PathBuf} {source : EventSource}
    {fs : FileSystem} {file next : OpenFile} {data : String} {n : ℕ} {after : OrderBookListener}
    (hidle : s.calls = []) (hwake : s.wake = true) (hoverflow : s.dirty.overflow = false)
    (hnext : s.next = some (path, true)) (hasked : Asked changes s.disk (fun _ => fs) fs.disk)
    (hnew : path ∉ s.cursors) (hroom : s.cursors.keys.card < s.limits.dirtyFiles)
    (hroot : s.roots.find? (fun e => path.startsWith e.1) = some (root, source))
    (hfile : fs.isFile path = true) (hopen : openCursor s.limits fs path false = .ok file)
    (hread : file.readTurn fs path s.limits.turnBytes = (next, .ok (data, true, n)))
    (hturn : s.listener.turn serde data source (fun _ => 0) = some after) :
    ∃ cursors : Cursors, cursors.lookup path = some next ∧
      cursors.keys ⊆ insert path s.cursors.keys ∧
      Run (Step serde changes) s
        [.woke (some path), .read ⟨path, file.inode, source, data⟩,
          .queued (queuedData serde s.listener data source fun _ => 0)]
        { s with
          dirty := s.dirty.takeOverflow.2.pop.2.push path false
          wake := !(s.dirty.takeOverflow.2.pop.2.push path false).isEmpty
          cursors := cursors
          calls := []
          listener := after
          disk := fs.disk } := by
  obtain ⟨cursors, hlookup, hkeys, hstep⟩ := wake_created hidle hwake hoverflow hnext hasked hnew
    hroom hroot hfile hopen hread
  refine ⟨cursors, hlookup, hkeys, ?_⟩
  let text : SourceText := ⟨path, file.inode, source, data⟩
  let woken : HlListen := { s with
    dirty := s.dirty.takeOverflow.2.pop.2
    wake := false
    cursors := cursors
    disk := fs.disk }
  have hhanded : Step serde changes
      { woken with calls := [.processData text, .requeue path, .wakeIfDirty] }
      [.queued (queuedData serde s.listener data source fun _ => 0)]
      { woken with calls := [.requeue path, .wakeIfDirty], listener := after } :=
    @Step.call _ _ _ _ (.processData text) _ (fun _ => 0) s.clock rfl (le_refl s.clock)
      (congrArg (Option.map _) hturn)
  have hqueued : Step serde changes
      { woken with calls := [.requeue path, .wakeIfDirty], listener := after } []
      { woken with
        dirty := woken.dirty.push path false
        calls := [.wakeIfDirty]
        listener := after } :=
    @Step.call _ _ _ _ (.requeue path) _ (fun _ => 0) s.clock rfl (le_refl s.clock) rfl
  have hdone : Step serde changes
      { woken with
        dirty := woken.dirty.push path false
        calls := [.wakeIfDirty]
        listener := after } [] _ :=
    @Step.call _ _ _ _ .wakeIfDirty _ (fun _ => 0) s.clock rfl (le_refl s.clock) rfl
  exact (((Run.single hstep).tail hhanded).tail hqueued).tail hdone

/-! ### A run over a block

Both files of the block of height 6 are created under the watch, once the books of a snapshot at
height 5 are live. -/

/-- A snapshot at height 5 in which a bid rests. -/
def restingText : String :=
  "[5,[[\"BTC\",[[[\"0x0000000000000000000000000000000000000000\",[null,\"BTC\",\"B\",\"1.0\"," ++
    "\"1.0\",5,5,\"N/A\",false,\"0.0\",false,false,\"Limit\",\"Gtc\",null]]],[]]]]]"

/-- The block has no statuses, and its one diff removes the bid. -/
def restingReader : SerdeJson :=
  .ofLines [(SerdeJson.emptyBlockLine,
      .arr [.str "1970-01-01T00:00:00", .str "1970-01-01T00:00:00", .num "6", .arr []]),
    (arrayDiffLine, .arr [.str "1970-01-01T00:00:00", .str "1970-01-01T00:00:00", .num "6",
      .arr [.arr [.str "0x0000000000000000000000000000000000000000", .num "5", .str "1", .str "BTC",
        .str "remove"]]]),
    (restingText, .arr [.num "5", .arr [.arr [.str "BTC", .arr [.arr [.arr [
      .str "0x0000000000000000000000000000000000000000",
      .arr [.null, .str "BTC", .str "B", .str "1.0", .str "1.0", .num "5", .num "5", .str "N/A",
        .bool false, .str "0.0", .bool false, .bool false, .str "Limit", .str "Gtc", .null]]],
      .arr []]]]])]

def restingBid : InnerL4Order := { InnerL4Order.unitBid "BTC" 5 with timestamp := 5 }

def bidSnapshot : Snapshots InnerL4Order := Finmap.singleton ⟨"BTC"⟩ ⟨[restingBid], []⟩

theorem restingReader_loads : loadSnapshotsFromStr restingReader restingText .all =
    .ok (5, bidSnapshot) := by
  decide +kernel

def bidListener : OrderBookListener := (OrderBookListener.initFromSnapshot
  { OrderBookListener.new (some []) false .all with
    limits := SourceLimits.DEFAULT.toResourceLimits } bidSnapshot 5).1

def blockSixFiles : FileSystem where
  disk := ⟨fun path => if path = ["statuses", "6"] then some ⟨0, true⟩ else
      if path = ["diffs", "6"] then some ⟨1, true⟩ else none,
    fun inode =>
      Utf8.bytes ((if inode = 0 then SerdeJson.emptyBlockLine else arrayDiffLine) ++ "\n")⟩
  fileMetadata := fun _ => .ok ()
  pathMetadata := fun _ => .ok ()
  opens := fun _ => .ok ()
  read := .ok 1024
  now := 0
  later := 0

def blockSixRoots : List (PathBuf × EventSource) :=
  [(["statuses"], .orderStatuses), (["diffs"], .orderDiffs)]

def blockSixCursorAt (inode : Inode) : OpenFile :=
  ⟨inode, (FileCursor.openAt 0 SourceLimits.DEFAULT.recordBytes).withMaxAge
    SourceLimits.DEFAULT.queueAge⟩

/-- The two files of the block, each of its source and with a line. -/
inductive BlockSixSource : PathBuf → Inode → EventSource → String → Prop
  | statuses : BlockSixSource ["statuses", "6"] 0 .orderStatuses SerdeJson.emptyBlockLine
  | diffs : BlockSixSource ["diffs", "6"] 1 .orderDiffs arrayDiffLine

namespace BlockSixSource

variable {path : PathBuf} {inode : Inode} {source : EventSource} {line : String}

set_option maxRecDepth 2000 in
/-- A file is read in one turn. -/
theorem readTurn (h : BlockSixSource path inode source line) : ∃ next n,
    (blockSixCursorAt inode).readTurn blockSixFiles path SourceLimits.DEFAULT.turnBytes =
      (next, .ok (line ++ "\n", true, n)) := by
  refine ⟨_, (Utf8.bytes (line ++ "\n")).length, Prod.ext rfl ?_⟩
  cases h <;> decide +kernel

theorem opens (h : BlockSixSource path inode source line) : blockSixFiles.isFile path = true ∧
    openCursor .DEFAULT blockSixFiles path false = .ok (blockSixCursorAt inode) ∧
    ∃ root, blockSixRoots.find? (fun e => path.startsWith e.1) = some (root, source) := by
  cases h <;> exact ⟨rfl, rfl, _, rfl⟩

end BlockSixSource

/-- The loop is idle, and a file of the block is next. -/
structure Awaits (path : PathBuf) (s : HlListen) : Prop where
  idle : s.calls = []
  wake : s.wake = true
  overflow : s.dirty.overflow = false
  next : s.next = some (path, true)
  disk : s.disk = blockSixFiles.disk
  new : path ∉ s.cursors
  room : s.cursors.keys.card ≤ 1
  limits : s.limits = .DEFAULT
  roots : s.roots = blockSixRoots

theorem Awaits.run {path : PathBuf} {inode : Inode} {source : EventSource}
    {line : String} {after : OrderBookListener} (h : Awaits path s) (hfile : BlockSixSource path inode source line)
    (hturn : s.listener.turn restingReader (line ++ "\n") source (fun _ => 0) =
      some after) :
    ∃ cursors : Cursors, cursors.keys ⊆ insert path s.cursors.keys ∧
      Run (Step restingReader Disk.Grows) s
        [.woke (some path), .read ⟨path, inode, source, line ++ "\n"⟩,
          .queued (queuedData restingReader s.listener (line ++ "\n") source
            fun _ => 0)]
        { s with
          dirty := s.dirty.takeOverflow.2.pop.2.push path false
          wake := !(s.dirty.takeOverflow.2.pop.2.push path false).isEmpty
          cursors := cursors
          calls := []
          listener := after
          disk := blockSixFiles.disk } := by
  obtain ⟨hisFile, hopen, root, hroot⟩ := hfile.opens
  obtain ⟨next, n, hread⟩ := hfile.readTurn
  rw [← h.limits] at hopen hread
  have hasked : Asked Disk.Grows s.disk (fun _ => blockSixFiles) blockSixFiles.disk := by
    rw [h.disk]
    exact ⟨fun _ => .refl _, fun _ _ _ => .refl _, fun _ => .refl _⟩
  have hroom : s.cursors.keys.card < s.limits.dirtyFiles := by
    rw [h.limits]
    exact lt_of_le_of_lt h.room (by decide)
  obtain ⟨cursors, -, hkeys, hrun⟩ := run_created h.idle h.wake h.overflow h.next hasked h.new
    hroom (h.roots ▸ hroot) hisFile hopen hread hturn
  exact ⟨cursors, hkeys, hrun⟩

/-- The statuses have been read, and the diffs are next. The first task has not been joined. -/
theorem run_statuses {before : OrderBookListener}
    (hturn : bidListener.turn restingReader (SerdeJson.emptyBlockLine ++ "\n") .orderStatuses
      (fun _ => 0) = some before) :
    ∃ s, Run (Step restingReader Disk.Grows)
        (starts .DEFAULT blockSixRoots false .all blockSixFiles.disk 0)
        [.spawned (5 * second), .given bidSnapshot 5, .woke (some ["statuses", "6"]),
          .read ⟨["statuses", "6"], 0, .orderStatuses, SerdeJson.emptyBlockLine ++ "\n"⟩,
          .queued (queuedData restingReader bidListener (SerdeJson.emptyBlockLine ++ "\n")
            .orderStatuses fun _ => 0)] s ∧
      Awaits ["diffs", "6"] s ∧ s.snapshots = [.finished (.ok ())] ∧ s.listener = before := by
  obtain ⟨s, hrun, hloaded⟩ : ∃ s, Run (Step restingReader Disk.Grows)
      (starts .DEFAULT blockSixRoots false .all blockSixFiles.disk 0) _ s ∧ _ :=
    run_loaded restingReader_loads
  let paths : List PathBuf := [["statuses", "6"], ["diffs", "6"]]
  let told : HlListen := { s with
    dirty := paths.foldl (fun dirty path => dirty.push path true)
      (.new SourceLimits.DEFAULT.dirtyFiles)
    wake := true }
  have htold : s.watch (.event .create paths) = told := by
    rw [watch, hloaded.dirty]
    rfl
  have hwatch : Step restingReader Disk.Grows s [] told := htold ▸ .watch s _
  have hcursors : told.cursors = ∅ := hloaded.cursors
  have hlistener : told.listener = bidListener := hloaded.listener
  have hawaits : Awaits ["statuses", "6"] told :=
    { idle := hloaded.calls
      wake := rfl
      overflow := rfl
      next := rfl
      disk := hloaded.disk_eq
      new := by rw [hcursors]; exact Finmap.notMem_empty
      room := by rw [hcursors]; decide
      limits := hloaded.limits_eq
      roots := hloaded.roots_eq }
  obtain ⟨cursors, hkeys, hmore⟩ := hawaits.run .statuses (hlistener ▸ hturn)
  rw [hcursors] at hkeys
  rw [hlistener] at hmore
  refine ⟨_, (hrun.tail hwatch).trans hmore, ?_, hloaded.tasks, rfl⟩
  exact
    { idle := rfl
      wake := rfl
      overflow := rfl
      next := rfl
      disk := rfl
      new := fun hmem => by simpa using hkeys (Finmap.mem_keys.mpr hmem)
      room := Finset.card_le_card hkeys
      limits := hloaded.limits_eq
      roots := hloaded.roots_eq }

/-- The diffs as well, after what happens to the listener in between. -/
def bidTurns (between : OrderBookListener → OrderBookListener) :
    Option (OrderBookListener × OrderBookListener) :=
  (bidListener.turn restingReader (SerdeJson.emptyBlockLine ++ "\n") .orderStatuses
    fun _ => 0).bind fun before =>
      ((between before).turn restingReader (arrayDiffLine ++ "\n") .orderDiffs fun _ => 0).map
        fun after => (before, after)

theorem bidTurns_iff {between : OrderBookListener → OrderBookListener}
    {before after : OrderBookListener} : bidTurns between = some (before, after) ↔
      bidListener.turn restingReader (SerdeJson.emptyBlockLine ++ "\n") .orderStatuses
        (fun _ => 0) = some before ∧
      (between before).turn restingReader (arrayDiffLine ++ "\n") .orderDiffs (fun _ => 0) =
        some after := by
  simp [bidTurns, Option.bind_eq_some_iff]

/-! ### The published stream -/

/-- What there is of the loop for the snapshot attempts. -/
def fetchWorld (s : HlListen) : FetchWorld := ⟨s.listener, s.attempt⟩

theorem Concerns.fetchWorld (h : Concerns serde s out s') :
    Relation.ReflTransGen (FetchWorld.Step serde) s.fetchWorld s'.fetchWorld := by
  unfold HlListen.fetchWorld
  cases h with
  | kept hlistener hattempt => rw [hlistener, hattempt]
  | turn clock hcalls hturn hattempt =>
    rw [hattempt]
    exact .single (.progress (.turn _ _ clock hturn))
  | upkeep hupkeep hattempt =>
    rw [hattempt]
    exact .single (.progress (hupkeep.progress serde))
  | request now hnone hlistener hattempt =>
    rw [hlistener, hattempt]
    exact .single (.fetchSnapshot now hnone)
  | passed hlistener hattempt =>
    rw [hlistener, hattempt]
    exact .single (.passed ⟨s.listener, s.attempt⟩)
  | failed hlistener hattempt =>
    rw [hlistener, hattempt]
    exact .single (.failed ⟨s.listener, s.attempt⟩)
  | finish mapOrder file hcurrent hfile hlistener hattempt =>
    rw [hlistener, hattempt]
    exact .single (.finishSnapshot mapOrder _ _ hcurrent)

theorem run_single
    (h : Run (Step serde changes) (starts limits roots ignoreSpot scope disk now) out s) :
    s.snapshots.length ≤ 1 :=
  h.keeps (fun s => s.snapshots.length ≤ 1) (by simp [starts, start]) step_single

theorem run_config
    (h : Run (Step serde changes) (starts limits roots ignoreSpot scope disk now) out s) :
    s.listener.limits = limits.toResourceLimits ∧ s.listener.ignoreSpot = ignoreSpot ∧
      s.listener.scope = scope := by
  have hconfig := h.invariant
    (fun _ s => SameConfig (starts limits roots ignoreSpot scope disk now).listener s.listener)
    (.refl _) fun hrun hs hstep => hs.trans (step_concerns (run_single hrun) hstep).sameConfig
  exact ⟨hconfig.limits, hconfig.ignoreSpot, hconfig.scope⟩

/-- Every run of the loop is one of the listener with its attempts. -/
theorem run_fetchWorld
    (h : Run (Step serde changes) (starts limits roots ignoreSpot scope disk now) out s) :
    Relation.ReflTransGen (FetchWorld.Step serde)
      (FetchWorld.start limits.toResourceLimits ignoreSpot scope) s.fetchWorld := by
  have hsim := h.simulates (FetchWorld.Step serde)
    (fun s w => s.snapshots.length ≤ 1 ∧ w = s.fetchWorld)
    (t := FetchWorld.start limits.toResourceLimits ignoreSpot scope)
    ⟨by simp [starts, start], rfl⟩ ?_
  · obtain ⟨w, hrun, -, rfl⟩ := hsim
    exact hrun
  · intro more s s' w hs hstep
    obtain ⟨hsingle, rfl⟩ := hs
    exact ⟨s'.fetchWorld, (step_concerns hsingle hstep).fetchWorld, step_single hsingle hstep, rfl⟩

/-- Whatever the watcher, the files, the node and the connections do, the messages that the
loop has the listener send have no hidden gap, and while the epoch of a task in flight is
current, its cache leads from the books it captured to the live ones, if there are any. -/
theorem published_without_hidden_gap
    (h : Run (Step serde changes) (starts limits roots ignoreSpot scope disk now) out s) :
    (∃ log, s.listener.internalMessageTx = some log ∧ InternalMessage.Gapless log) ∧
      ∀ attempt, s.attempt = some attempt → s.listener.recoveryEpoch = attempt.epoch →
        Reaches attempt.state s.listener ∨ s.listener.orderBookState = none := by
  have hsound := FetchWorld.run_sound (run_fetchWorld h)
  obtain ⟨log, hlog⟩ := hsound.publishes
  refine ⟨⟨log, hlog.sender, hlog.gapless⟩, fun attempt hattempt hepoch => ?_⟩
  obtain ⟨bumps, htracked⟩ := hsound.tracked attempt hattempt
  exact htracked.reaches_or_none hepoch

/-- The block is applied, sent and cached while the second task is in flight. -/
theorem bidTurns_cached : ∃ p ∈ bidTurns (·.beginCaching 0),
    p.2.recoveryEpoch = 0 ∧ p.1.recoveryEpoch = 0 ∧
    p.1.cloneState.map OrderBookState.height = some 5 ∧
    p.2.orderBookState.map OrderBookState.height = some 6 ∧
    p.2.fetchedSnapshotCache.map List.length = some 1 ∧
    (p.2.internalMessageTx.getD []).any (fun m => m matches .l4BookUpdates _ _) = true := by
  simp only [bidTurns, OrderBookListener.turn,
    processData_line arrayDiffLine (by decide) (by decide +kernel),
    processData_line SerdeJson.emptyBlockLine (by decide) (by decide +kernel)]
  decide +kernel

/-- The block is read once the second task has asked the node. -/
theorem run_cached {before after : OrderBookListener}
    (hturns : bidTurns (·.beginCaching 0) = some (before, after)) :
    ∃ (out more : List Happening) (s : HlListen), Run (Step restingReader Disk.Grows)
        (starts .DEFAULT blockSixRoots false .all blockSixFiles.disk 0) (out ++ more) s ∧
      s.snapshots = [.requested before.recoveryEpoch before.cloneState] ∧ s.listener = after ∧
      before.scope = .all ∧ givenBy out = [(bidSnapshot, 5)] ∧ givenBy more = [] ∧
      queuedBy out = queuedData restingReader bidListener (SerdeJson.emptyBlockLine ++ "\n")
        .orderStatuses (fun _ => 0) ∧
      queuedBy more = queuedData restingReader (before.beginCaching 0) (arrayDiffLine ++ "\n")
        .orderDiffs (fun _ => 0) := by
  obtain ⟨hstatuses, hdiffs⟩ := bidTurns_iff.mp hturns
  obtain ⟨s, hrun, hawaits, htasks, rfl⟩ := run_statuses hstatuses
  have hjoin := hrun.tail (@Step.join _ _ _ [] [] _ s.clock s.clock hawaits.idle htasks le_rfl
    le_rfl)
  have htick := hjoin.tail (.tick (s.clock + s.limits.snapshotInterval) rfl rfl
    (Nat.le_add_right _ _) le_rfl)
  obtain ⟨asked, hasked, hnext, hlistener, hsnapshots⟩ : ∃ asked,
      Run (Step restingReader Disk.Grows)
        (starts .DEFAULT blockSixRoots false .all blockSixFiles.disk 0) _ asked ∧
      Awaits ["diffs", "6"] asked ∧ asked.listener = s.listener.beginCaching 0 ∧
      asked.snapshots = [.requested s.listener.recoveryEpoch s.listener.cloneState] :=
    ⟨_, htick.tail (@Step.request _ _ _ [] [] 0 rfl), ⟨rfl, hawaits.wake, hawaits.overflow,
      hawaits.next, hawaits.disk, hawaits.new, hawaits.room, hawaits.limits, hawaits.roots⟩,
      rfl, rfl⟩
  rw [← hlistener] at hdiffs ⊢
  obtain ⟨cursors, -, hblock⟩ := hnext.run .diffs hdiffs
  exact ⟨_, _, _, hasked.trans hblock, hsnapshots, rfl, (run_config hrun).2.2, rfl, rfl,
    by simp [queuedBy], by simp [queuedBy]⟩

theorem published_without_hidden_gap_block_six : ∃ (s : HlListen) (attempt : SnapshotAttempt)
    (book : OrderBookState) (pair : BlockPair), s.attempt = some attempt ∧
    s.listener.recoveryEpoch = attempt.epoch ∧
    attempt.state.map OrderBookState.height = some 5 ∧
    s.listener.orderBookState = some book ∧ book.height = 6 ∧
    s.listener.fetchedSnapshotCache = some [pair] ∧
    (∃ diffs statuses, .l4BookUpdates diffs statuses ∈ s.listener.internalMessageTx.getD []) ∧
    (∃ log, s.listener.internalMessageTx = some log ∧ InternalMessage.Gapless log) ∧
      ∀ attempt, s.attempt = some attempt → s.listener.recoveryEpoch = attempt.epoch →
        Reaches attempt.state s.listener ∨ s.listener.orderBookState = none := by
  obtain ⟨⟨before, after⟩, hturns, hepoch, hbefore, hfive, hsix, hcache, hsent⟩ := bidTurns_cached
  obtain ⟨out, more, s, hrun, htask, rfl, -⟩ := run_cached hturns
  have hattempt : s.attempt = some ⟨before.recoveryEpoch, before.cloneState⟩ := by
    simp [attempt, htask, SnapshotTask.attempt?]
  obtain ⟨book, hbook, hheight⟩ := Option.map_eq_some_iff.mp hsix
  obtain ⟨cache, hcached, hlength⟩ := Option.map_eq_some_iff.mp hcache
  obtain ⟨pair, rfl⟩ := List.length_eq_one_iff.mp hlength
  refine ⟨s, _, book, pair, hattempt, hepoch.trans hbefore.symm, hfive, hbook, hheight,
    hcached, ?_, published_without_hidden_gap hrun⟩
  obtain ⟨message, hmem, hblock⟩ := List.any_eq_true.mp hsent
  cases message with
  | l4BookUpdates diffs statuses => exact ⟨diffs, statuses, hmem⟩
  | _ => cases hblock

/-! ### Where the live books come from -/

/-- The loop so far, as a run of the listener with what was captured, given and accepted. -/
structure Sourcing (serde : SerdeJson) (limits : ResourceLimits) (ignoreSpot : Bool)
    (scope : CoinScope) (out : List Happening) (s : HlListen) (w : World) : Prop where
  run : Relation.ReflTransGen (World.Step serde) (World.start limits (some []) ignoreSpot scope) w
  listener : w.listener = s.listener
  captured : ∀ attempt, s.attempt = some attempt → attempt.state ∈ w.captured
  given : ∀ e ∈ w.given, e ∈ givenBy out ∧
    ∃ file, loadSnapshotsFromStr serde file scope = .ok (e.2, e.1)
  accepted : w.accepted = queuedBy out

theorem Sourcing.concerns {queueLimits : ResourceLimits} {w : World} {more : List Happening}
    (h : Sourcing serde queueLimits ignoreSpot scope out s w) (hscope : s.listener.scope = scope)
    (hc : Concerns serde s more s') :
    ∃ w', Sourcing serde queueLimits ignoreSpot scope (out ++ more) s' w' := by
  have hgiven (e : Snapshots InnerL4Order × ℕ) (he : e ∈ w.given) : e ∈ givenBy (out ++ more) ∧
      ∃ file, loadSnapshotsFromStr serde file scope = .ok (e.2, e.1) := by
    obtain ⟨hmem, hfile⟩ := h.given e he
    exact ⟨by simp [hmem], hfile⟩
  have hlistener := h.listener
  cases hc with
  | kept hsame hattempt hqueued =>
    exact ⟨w, h.run, hlistener.trans hsame.symm, fun a ha => h.captured a (hattempt ▸ ha), hgiven,
      by simp [h.accepted, hqueued]⟩
  | turn clock hcalls hturn hattempt hqueued =>
    rw [← hlistener] at hturn hqueued
    exact ⟨_, h.run.tail (.progress (.turn _ _ clock hturn)), rfl,
      fun a ha => h.captured a (hattempt ▸ ha), hgiven, by simp [h.accepted, hqueued]⟩
  | upkeep hupkeep hattempt hqueued =>
    rw [← hlistener] at hupkeep
    exact ⟨_, h.run.tail (.progress (hupkeep.progress serde)), rfl,
      fun a ha => h.captured a (hattempt ▸ ha), hgiven, by simp [h.accepted, hqueued]⟩
  | request now hnone hsame hattempt hqueued =>
    refine ⟨_, (h.run.tail (.cloneState w)).tail (.beginCaching _ now), ?_, ?_, hgiven,
      by simp [h.accepted, hqueued]⟩
    · rw [hsame, hlistener]
    · intro attempt ha
      rw [hattempt, Option.some.injEq] at ha
      simp [← ha, hlistener]
  | passed hsame hattempt hqueued =>
    exact ⟨w, h.run, hlistener.trans hsame.symm, fun a ha => by simp [hattempt] at ha, hgiven,
      by simp [h.accepted, hqueued]⟩
  | failed hsame hattempt hqueued =>
    refine ⟨_, h.run.tail (.takeCache w), ?_, fun a ha => by simp [hattempt] at ha, hgiven,
      by simp [h.accepted, hqueued]⟩
    rw [hsame, hlistener]
  | @finish attempt mapOrder file snapshot height hcurrent hfile hsame hattempt hout =>
    refine ⟨_, h.run.tail (.finishSnapshot mapOrder attempt.epoch snapshot height
      (h.captured _ hcurrent)), ?_, fun a ha => by simp [hattempt] at ha, ?_, ?_⟩
    · rw [hsame, hlistener]
    · intro e he
      rw [List.mem_cons] at he
      obtain rfl | he := he
      · exact ⟨by simp [hout, givenBy], file, hscope ▸ hfile⟩
      · exact hgiven e he
    · simp [h.accepted, hout, queuedBy]

theorem run_sourcing
    (h : Run (Step serde changes) (starts limits roots ignoreSpot scope disk now) out s) :
    ∃ w, Sourcing serde limits.toResourceLimits ignoreSpot scope out s w := by
  refine h.invariant (fun out s =>
    ∃ w, Sourcing serde limits.toResourceLimits ignoreSpot scope out s w) ?_ ?_
  · exact ⟨_, .refl, rfl, fun a ha => by simp [starts, start, attempt] at ha,
      fun e he => by simp [World.start] at he, rfl⟩
  · intro out more s s' hrun hw hstep
    obtain ⟨w, hw⟩ := hw
    exact hw.concerns (run_config hrun).2.2 (step_concerns (run_single hrun) hstep)

end HlListen
end OrderBookServer
