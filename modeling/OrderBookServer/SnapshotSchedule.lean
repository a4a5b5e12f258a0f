import OrderBookServer.Intake

/-!
# When the node is asked for a snapshot

A snapshot of all books is a heavy request for the node. The loop never has two of them in
flight and leaves ten seconds between one and the next, whether they are audits of live books
or attempts to recover fenced ones.
-/
namespace OrderBookServer
namespace HlListen

variable {serde : SerdeJson} {changes : Disk → Disk → Prop} {s s' : HlListen}
  {out more : List Happening} {limits : SourceLimits} {roots : List (PathBuf × EventSource)}
  {ignoreSpot : Bool} {scope : CoinScope} {disk : Disk} {now first : Instant}

/-- When the snapshot tasks were spawned. -/
def spawnedBy (out : List Happening) : List Instant :=
  out.filterMap fun
    | .spawned now => some now
    | _ => none

@[simp] theorem spawnedBy_append (out more : List Happening) :
    spawnedBy (out ++ more) = spawnedBy out ++ spawnedBy more := List.filterMap_append

@[simp] theorem spawnedBy_woke (next : Option PathBuf) (texts : List SourceText) :
    spawnedBy (.woke next :: texts.map .read) = [] := by
  simp [spawnedBy]

/-- A task that has ended is taken note of. -/
def Ends (ended : Instant) (s : HlListen) (_ : List Happening) (s' : HlListen) : Prop :=
  s'.clock = ended ∧ ∃ before outcome after,
    s.snapshots = before ++ .finished outcome :: after ∧ s'.snapshots = before ++ after

/-- What a step does to the timers. -/
inductive TimerStep (s : HlListen) (out : List Happening) (s' : HlListen) : Prop
  | kept (htick : s'.tickAt = s.tickAt) (hretry : s'.recoveryRetryAt = s.recoveryRetryAt)
    (hclock : s.clock ≤ s'.clock) (hnone : s'.snapshots = [] → s.snapshots = [])
    (hspawned : spawnedBy out = [])
  | joined (now : Instant) (hnow : s.clock ≤ now) (hlater : now ≤ s'.clock)
    (htick : s'.tickAt = now + s.limits.snapshotInterval)
    (hretry : s'.recoveryRetryAt = s'.clock + 10 * second) (hends : Ends s'.clock s out s')
    (hspawned : spawnedBy out = [])
  | spawned (hnone : s.snapshots = []) (hsome : s'.snapshots ≠ []) (hclock : s.clock ≤ s'.clock)
    (htick : s.tickAt ≤ s'.tickAt) (hretry : s'.recoveryRetryAt = s.recoveryRetryAt)
    (hdue : s.tickAt ≤ s'.clock ∨ s.recoveryRetryAt ≤ s'.clock)
    (hspawned : spawnedBy out = [s'.clock])

/-- A step of the watcher, of a connection or of the task itself. -/
theorem TimerStep.same (htick : s'.tickAt = s.tickAt)
    (hretry : s'.recoveryRetryAt = s.recoveryRetryAt) (hclock : s'.clock = s.clock)
    (hnone : s'.snapshots = [] → s.snapshots = []) (hspawned : spawnedBy out = []) :
    TimerStep s out s' := .kept htick hretry hclock.ge hnone hspawned

theorem call_timer {clock : ℕ → Instant} {c : LoopCall} {rest : List LoopCall}
    (hnow : s.clock ≤ now) (h : call serde clock now { s with calls := rest } c = some s') :
    TimerStep s (s.noted serde clock now s' c) s' := by
  cases c with
  | fence =>
    cases h
    exact .same rfl rfl rfl id (by simp [noted, spawnedBy])
  | processData text =>
    simp only [call, Option.map_eq_some_iff] at h
    obtain ⟨listener, -, rfl⟩ := h
    exact .same rfl rfl rfl id (by simp [noted, spawnedBy])
  | requeue path =>
    cases h
    exact .same rfl rfl rfl id (by simp [noted, spawnedBy])
  | wakeIfDirty =>
    cases h
    exact .same rfl rfl rfl id (by simp [noted, spawnedBy])
  | maintain =>
    simp only [call] at h
    split_ifs at h with hspawn
    · cases h
      simp only [Bool.and_eq_true, decide_eq_true_eq, List.isEmpty_iff] at hspawn
      obtain ⟨⟨-, hnone⟩, hretry⟩ := hspawn
      refine .spawned hnone ?_ hnow le_rfl rfl (.inr hretry) ?_
      · simp [spawn]
      · simp [noted, spawn, spawnedBy]
    · cases h
      exact .kept rfl rfl hnow id (by simp [noted, spawnedBy])

theorem step_timer (hstep : Step serde changes s out s') : TimerStep s out s' := by
  cases hstep with
  | files => exact .same rfl rfl rfl id rfl
  | watch n =>
    obtain ⟨dirty, wake, hwatch⟩ := watch_frame s n
    rw [hwatch]
    exact .same rfl rfl rfl id rfl
  | wake order ask disk => exact .same rfl rfl rfl id (by simp)
  | maintenance => exact .same rfl rfl rfl id rfl
  | join now later hidle htask hnow hlater =>
    exact .joined now hnow hlater rfl rfl ⟨rfl, _, _, _, htask, rfl⟩ rfl
  | tick now hidle hnone hnow hdue =>
    refine .spawned hnone ?_ hnow ?_ rfl (.inl hdue) rfl
    · simp [tickBranch, spawn]
    · simp [tickBranch, spawn]
  | call clock now hcalls hnow hcall => exact call_timer hnow hcall
  | request now htask => exact .same rfl rfl rfl (by simp) rfl
  | answer htask => exact .same rfl rfl rfl (by simp) rfl
  | passed htask => exact .same rfl rfl rfl (by simp) rfl
  | requestFailed htask => exact .same rfl rfl rfl (by simp) rfl
  | parseFailed htask => exact .same rfl rfl rfl (by simp) rfl
  | finish mapOrder file htask hfile => exact .same rfl rfl rfl (by simp) rfl
  | abort htask => exact .same rfl rfl rfl (by simp) rfl
  | views => exact .same rfl rfl rfl id rfl

/-- The snapshot tasks so far, and how long the next one has to wait. -/
structure Paced (first : Instant) (limits : SourceLimits) (out : List Happening) (s : HlListen) :
    Prop where
  limits_eq : s.limits = limits
  past : ∀ t ∈ spawnedBy out, first ≤ t ∧ t ≤ s.clock
  apart : (spawnedBy out).Pairwise fun t t' => t + 10 * second ≤ t'
  tick : first ≤ s.tickAt
  retry : first ≤ s.recoveryRetryAt
  /-- With no task in flight, the last one is ten seconds behind. -/
  rested : s.snapshots = [] → ∀ t ∈ spawnedBy out,
    t + 10 * second ≤ s.tickAt ∧ t + 10 * second ≤ s.recoveryRetryAt

theorem Paced.step (h : Paced first limits out s)
    (hinterval : 10 * second ≤ limits.snapshotInterval)
    (hfirst : first ≤ s.clock + 5 * second) (hlimits : s'.limits = s.limits)
    (hstep : TimerStep s more s') : Paced first limits (out ++ more) s' := by
  cases hstep with
  | kept htick hretry hclock hnone hspawned =>
    refine ⟨hlimits.trans h.limits_eq, ?_, ?_, htick ▸ h.tick, hretry ▸ h.retry, fun hempty => ?_⟩
    · simp only [spawnedBy_append, hspawned, List.append_nil]
      exact fun t ht => ⟨(h.past t ht).1, (h.past t ht).2.trans hclock⟩
    · simpa [hspawned] using h.apart
    · simpa [hspawned, htick, hretry] using h.rested (hnone hempty)
  | joined now hnow hlater htick hretry hends hspawned =>
    have hpast (t : Instant) (ht : t ∈ spawnedBy out) : t ≤ now := (h.past t ht).2.trans hnow
    rw [h.limits_eq] at htick
    refine ⟨hlimits.trans h.limits_eq, ?_, ?_, ?_, ?_, fun _ => ?_⟩
    · simp only [spawnedBy_append, hspawned, List.append_nil]
      exact fun t ht => ⟨(h.past t ht).1, (hpast t ht).trans hlater⟩
    · simpa [hspawned] using h.apart
    · rw [htick]
      exact hfirst.trans (Nat.add_le_add hnow ((by decide : 5 * second ≤ _).trans hinterval))
    · rw [hretry]
      exact hfirst.trans (Nat.add_le_add (hnow.trans hlater) (by decide))
    · simp only [spawnedBy_append, hspawned, List.append_nil, htick, hretry]
      exact fun t ht => ⟨Nat.add_le_add (hpast t ht) hinterval,
        Nat.add_le_add_right ((hpast t ht).trans hlater) _⟩
  | spawned hnone hsome hclock htick hretry hdue hspawned =>
    have hrested := h.rested hnone
    have hdone (t : Instant) (hticks : t ≤ s.tickAt) (hretries : t ≤ s.recoveryRetryAt) :
        t ≤ s'.clock := hdue.elim hticks.trans hretries.trans
    refine ⟨hlimits.trans h.limits_eq, ?_, ?_, h.tick.trans htick, hretry ▸ h.retry,
      fun hempty => absurd hempty hsome⟩
    · simp only [spawnedBy_append, hspawned, List.mem_append, List.mem_singleton]
      rintro t (ht | rfl)
      · exact ⟨(h.past t ht).1, (h.past t ht).2.trans hclock⟩
      · exact ⟨hdone first h.tick h.retry, le_rfl⟩
    · simp only [spawnedBy_append, hspawned, List.pairwise_append, List.mem_singleton, forall_eq,
        List.pairwise_singleton, true_and]
      exact ⟨h.apart, fun t ht => hdone _ (hrested t ht).1 (hrested t ht).2⟩

theorem TimerStep.clock_le (h : TimerStep s out s') : s.clock ≤ s'.clock := by
  cases h with
  | kept _ _ hclock => exact hclock
  | joined now hnow hlater => exact hnow.trans hlater
  | spawned _ _ hclock => exact hclock

theorem run_clock_le
    (h : Run (Step serde changes) (starts limits roots ignoreSpot scope disk now) out s) :
    now ≤ s.clock :=
  h.le fun hstep => (step_timer hstep).clock_le

theorem run_paced (hinterval : 10 * second ≤ limits.snapshotInterval)
    (h : Run (Step serde changes) (starts limits roots ignoreSpot scope disk now) out s) :
    Paced (now + 5 * second) limits out s := by
  refine h.invariant (Paced (now + 5 * second) limits) ?_ fun hrun hs hstep => ?_
  · exact ⟨rfl, by simp [spawnedBy], by simp [spawnedBy], le_rfl, le_rfl, by simp [spawnedBy]⟩
  · exact hs.step hinterval (Nat.add_le_add_right (run_clock_le hrun) _)
      (step_reader hstep).limits_eq (step_timer hstep)

/-- With the interval that the configuration guarantees, the loop never has two snapshot tasks, the
first is not spawned before five seconds, and each of the others not before ten seconds after the
one before it. -/
theorem snapshot_tasks_paced (hinterval : 10 * second ≤ limits.snapshotInterval)
    (h : Run (Step serde changes) (starts limits roots ignoreSpot scope disk now) out s) :
    s.snapshots.length ≤ 1 ∧ (∀ t ∈ spawnedBy out, now + 5 * second ≤ t) ∧
      (spawnedBy out).Pairwise fun t t' => t + 10 * second ≤ t' := by
  have hpaced := run_paced hinterval h
  exact ⟨run_single h, fun t ht => (hpaced.past t ht).1, hpaced.apart⟩

/-- A task panics, and the next one is spawned. -/
theorem snapshot_tasks_paced_twice : ∃ (out : List Happening) (s : HlListen),
    spawnedBy out = [5 * second, 15 * second] ∧ s.snapshots.length ≤ 1 ∧
      (∀ t ∈ spawnedBy out, 0 + 5 * second ≤ t) ∧
      (spawnedBy out).Pairwise fun t t' => t + 10 * second ≤ t' := by
  have hfirst : Step .ofEmptyBlock Disk.Grows (starts .DEFAULT [] true .all .empty 0)
      [.spawned (5 * second)] _ := .tick (5 * second) rfl rfl (by decide) (by decide)
  have habort := (Run.single hfirst).tail (@Step.abort _ _ _ [] [] .spawned rfl (by simp))
  have hjoin := habort.tail
    (@Step.join _ _ _ [] [] (.error .task) (5 * second) (5 * second) rfl rfl le_rfl le_rfl)
  have hfence := hjoin.tail (.call (fun _ => 0) (5 * second) rfl le_rfl rfl)
  have hsecond := hfence.tail (.tick (15 * second) rfl rfl (by decide) (by decide))
  exact ⟨_, _, rfl, snapshot_tasks_paced (by decide) hsecond⟩

/-- When the next attempt to recover may be spawned, with no task in flight. -/
inductive RetryDue (serde : SerdeJson) (changes : Disk → Disk → Prop) (first : HlListen)
    (out : List Happening) (s : HlListen) : Prop
  | started (hretry : s.recoveryRetryAt = first.recoveryRetryAt) (hnone : spawnedBy out = [])
  | ended (ended : Instant) (since : List Happening)
    (h : Run.Since (Step serde changes) first (Ends ended) (fun _ => True) out s since)
    (hretry : s.recoveryRetryAt = ended + 10 * second) (hnone : spawnedBy since = [])

theorem RetryDue.step {first : HlListen} (h : RetryDue serde changes first out s)
    (hstep : Step serde changes s more s') (hretry : s'.recoveryRetryAt = s.recoveryRetryAt)
    (hspawned : spawnedBy more = []) : RetryDue serde changes first (out ++ more) s' := by
  cases h with
  | started hdue hnone => exact .started (hretry.trans hdue) (by simp [hnone, hspawned])
  | ended ended since hsince hdue hnone =>
    exact .ended ended (since ++ more) (hsince.later hstep trivial) (hretry.trans hdue)
      (by simp [hnone, hspawned])

/-- The end of a task moves the next attempt, and nothing else does. -/
theorem run_retryDue {first : HlListen} (h : Run (Step serde changes) first out s)
    (hnone : s.snapshots = []) : RetryDue serde changes first out s := by
  refine h.invariant (fun out s => s.snapshots = [] → RetryDue serde changes first out s)
    (fun _ => .started rfl rfl) (fun {out more s s'} hrun hs hstep hnone => ?_) hnone
  cases step_timer hstep with
  | kept htick hretry hclock hidle hspawned => exact (hs (hidle hnone)).step hstep hretry hspawned
  | joined now hnow hlater htick hretry hends hspawned =>
    exact .ended s'.clock more (.now hrun hstep hends trivial) hretry hspawned
  | spawned _ hsome => exact absurd hnone hsome

/-- A maintenance tick leaves the books ready or a task in flight, and spawns one for that: where
it does neither, less than five seconds have passed since the start and there was no task yet, or
less than ten since the last task was found to have ended. -/
theorem unready_books_retried
    (h : Run (Step serde changes) (starts limits roots ignoreSpot scope disk now) out s)
    {clock : ℕ → Instant} {later : Instant} {rest : List LoopCall}
    (hcall : call serde clock later { s with calls := rest } .maintain = some s') :
    s'.listener.isReady = true ∨ s'.snapshots ≠ [] ∨
      (later < now + 5 * second ∧ spawnedBy out = []) ∨
      ∃ ended since, later < ended + 10 * second ∧ spawnedBy since = [] ∧
        Run.Since (Step serde changes) (starts limits roots ignoreSpot scope disk now) (Ends ended)
          (fun _ => True) out s since := by
  simp only [call] at hcall
  split_ifs at hcall with hspawn
  · cases hcall
    exact .inr (.inl (by simp [spawn]))
  cases hcall
  by_cases hready : (s.listener.maintenance later).isReady = true
  · exact .inl hready
  by_cases hnone : s.snapshots = []
  · have hearly : later < s.recoveryRetryAt :=
      Nat.lt_of_not_le fun hdue => hspawn (by simp [hready, hnone, hdue])
    cases run_retryDue h hnone with
    | started hdue hspawned => exact .inr (.inr (.inl ⟨hearly.trans_eq hdue, hspawned⟩))
    | ended ended since hsince hdue hspawned =>
      exact .inr (.inr (.inr ⟨ended, since, hearly.trans_eq hdue, hspawned, hsince⟩))
  · exact .inr (.inl hnone)

/-- The request of the first task fails, and ten seconds later the next one is spawned. -/
theorem unready_books_retried_request_failed : ∃ (out : List Happening) (s s' : HlListen),
    spawnedBy out = [5 * second] ∧ s.snapshots = [] ∧ s'.snapshots = [.spawned] ∧
    (s'.listener.isReady = true ∨ s'.snapshots ≠ [] ∨
      (15 * second < 0 + 5 * second ∧ spawnedBy out = []) ∨
      ∃ ended since, 15 * second < ended + 10 * second ∧ spawnedBy since = [] ∧
        Run.Since (Step .ofEmptyBlock Disk.Grows) (starts .DEFAULT [] true .all blockSixFile.disk 0)
          (Ends ended) (fun _ => True) out s since) := by
  have htick : Step .ofEmptyBlock Disk.Grows (starts .DEFAULT [] true .all blockSixFile.disk 0)
      [.spawned (5 * second)] _ := .tick (5 * second) rfl rfl (by decide) (by decide)
  have hrequest := (Run.single htick).tail (@Step.request _ _ _ [] [] 0 rfl)
  have hfailed := hrequest.tail (@Step.requestFailed _ _ _ [] [] _ _ rfl)
  have hjoin := hfailed.tail
    (@Step.join _ _ _ [] [] (.ok ()) (5 * second) (5 * second) rfl rfl le_rfl le_rfl)
  obtain ⟨order⟩ := PathOrder.nonempty
  have hasked : Asked Disk.Grows blockSixFile.disk (fun _ => blockSixFile) blockSixFile.disk :=
    ⟨fun _ => .refl _, fun _ _ _ => .refl _, fun _ => .refl _⟩
  have hmaintenance := hjoin.tail
    (.maintenance order (fun _ => blockSixFile) blockSixFile.disk rfl hasked)
  exact ⟨_, _, _, rfl, rfl, rfl, @unready_books_retried _ _ _ _ _ _ _ _ _ _ _ hmaintenance
    (fun _ => 0) (15 * second) [] rfl⟩

end HlListen
end OrderBookServer
