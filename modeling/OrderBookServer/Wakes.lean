import OrderBookServer.Intake

/-!
# Notifications are answered

The queue of dirty paths is bounded, each wake takes one path off its front, and a permit is
never missing while there is something in it. So a path that was notified is visited within
as many wakes as the queue has room for, or the queue was too small and the stream is fenced.
Neither the queue nor the table of cursors ever holds more than it has room for.
-/
namespace OrderBookServer

/-! ### The queue -/

namespace DirtyFiles

variable {P : Type} [DecidableEq P] {queue : DirtyFiles P} {path other : P} {created : Bool}
  {limit k : ℕ} {ops : List (DirtyOp P)}

/-- Calls that take nothing off. -/
def Adds (op : DirtyOp P) : Prop := op = .markOverflow ∨ ∃ path created, op = .push path created

theorem foldl_step_eq_after (limit : ℕ) (ops : List (DirtyOp P)) :
    ops.foldl step (new limit) = after limit (fun n => ops.getD n .pop) ops.length := by
  have hprefix (n : ℕ) (hn : n ≤ ops.length) :
      (ops.take n).foldl step (new limit) = after limit (fun n => ops.getD n .pop) n := by
    induction n with
    | zero => rfl
    | succ n ih =>
      have hget : ops[n]? = some ops[n] := List.getElem?_eq_getElem (by omega)
      rw [List.take_add_one, hget, List.foldl_append, ih (by omega), after]
      simp [hget]
  simpa using hprefix ops.length le_rfl

/-- A queue after some calls. -/
def Reached (limit : ℕ) (queue : DirtyFiles P) : Prop :=
  ∃ ops : List (DirtyOp P), queue = ops.foldl step (new limit)

namespace Reached

theorem foldl (h : Reached limit queue) (ops : List (DirtyOp P)) :
    Reached limit (ops.foldl step queue) := by
  obtain ⟨before, rfl⟩ := h
  exact ⟨before ++ ops, by rw [List.foldl_append]⟩

theorem limit_eq (h : Reached limit queue) : queue.limit = limit := by
  obtain ⟨ops, rfl⟩ := h
  rw [foldl_step_eq_after, after_limit]

theorem limited (h : Reached limit queue) : queue.paths.length ≤ limit := by
  obtain ⟨ops, rfl⟩ := h
  rw [foldl_step_eq_after]
  exact (owes_after limit _ _).limited

theorem keys (h : Reached limit queue) : path ∈ queue.paths ↔ path ∈ queue.created := by
  obtain ⟨ops, rfl⟩ := h
  rw [foldl_step_eq_after]
  exact (owes_after limit _ _).keys path

/-- A path that is pushed is queued, or there was no room. -/
theorem push (h : Reached limit queue) (path : P) (created : Bool) :
    path ∈ (queue.push path created).paths ∨ (queue.push path created).overflow = true := by
  obtain ⟨existing, hlookup, hpush⟩ | ⟨-, hpush⟩ | ⟨-, -, hpush⟩ := push_cases queue path created
  · left
    rw [hpush]
    exact h.keys.mpr (Finmap.mem_of_lookup_eq_some hlookup)
  · simp [hpush]
  · simp [hpush]

end Reached

theorem paths_step (queue : DirtyFiles P) (h : Adds op) :
    ∃ more, (queue.step op).paths = queue.paths ++ more := by
  obtain rfl | ⟨path, created, rfl⟩ := h
  · exact ⟨[], by simp [step, markOverflow]⟩
  · obtain ⟨existing, -, hpush⟩ | ⟨-, hpush⟩ | ⟨-, -, hpush⟩ := push_cases queue path created
    · exact ⟨[], by simp [step, hpush]⟩
    · exact ⟨[], by simp [step, hpush]⟩
    · exact ⟨[path], by simp [step, hpush]⟩

/-- What is added is added at the end. -/
theorem paths_foldl (h : ∀ op ∈ ops, Adds op) (queue : DirtyFiles P) :
    ∃ more, (ops.foldl step queue).paths = queue.paths ++ more := by
  induction ops generalizing queue with
  | nil => exact ⟨[], by simp⟩
  | cons op ops ih =>
    simp only [List.mem_cons, forall_eq_or_imp] at h
    obtain ⟨first, hfirst⟩ := paths_step queue h.1
    obtain ⟨rest, hrest⟩ := ih h.2 (queue.step op)
    exact ⟨first ++ rest, by simp [hrest, hfirst]⟩

theorem overflow_foldl (h : ∀ op ∈ ops, Adds op) (hup : queue.overflow = true) :
    (ops.foldl step queue).overflow = true := by
  induction ops generalizing queue with
  | nil => exact hup
  | cons op ops ih =>
    simp only [List.mem_cons, forall_eq_or_imp] at h
    refine ih h.2 ?_
    obtain hstill | rfl := step_overflow op hup
    · exact hstill
    · simp [Adds] at h

omit [DecidableEq P] in
theorem adds_map (paths : List P) (created : Bool) :
    ∀ op ∈ paths.map (.push · created), Adds op := by
  intro op hop
  obtain ⟨path, -, rfl⟩ := List.mem_map.mp hop
  exact .inr ⟨path, created, rfl⟩

/-- Only a full queue refuses a push. -/
theorem full_of_overflow_foldl {paths : List P}
    (hup : ((paths.map (.push · created)).foldl step queue).overflow = true) :
    queue.overflow = true ∨
      queue.limit ≤ ((paths.map (.push · created)).foldl step queue).paths.length := by
  induction paths generalizing queue with
  | nil => exact .inl hup
  | cons path paths ih =>
    simp only [List.map_cons, List.foldl_cons] at hup ⊢
    obtain hfirst | hfull := ih hup
    · obtain ⟨existing, -, hpush⟩ | ⟨hrefuses, hpush⟩ | ⟨-, -, hpush⟩ :=
        push_cases queue path created
      · simp_all [step]
      · obtain ⟨more, hmore⟩ :=
          paths_foldl (adds_map paths created) (queue.step (.push path created))
        have hfull := hrefuses.2
        right
        rw [hmore, step, hpush, List.length_append]
        exact hfull.trans (Nat.le_add_right _ _)
      · simp_all [step]
    · rw [step_limit] at hfull
      exact .inr hfull

theorem pop_overflow (queue : DirtyFiles P) : queue.pop.2.overflow = queue.overflow := by
  obtain ⟨-, hpop⟩ | ⟨path, rest, -, hpop⟩ := pop_cases queue <;> simp [hpop]

/-- Each path that was pushed is queued, or some path found no room. -/
theorem Reached.pushed (h : Reached limit queue) (hadds : ∀ op ∈ ops, Adds op)
    (hpush : .push path created ∈ ops) :
    path ∈ (ops.foldl step queue).paths ∨ (ops.foldl step queue).overflow = true := by
  obtain ⟨before, later, rfl⟩ := List.append_of_mem hpush
  simp only [List.mem_append, List.mem_cons] at hadds
  have hlater : ∀ op ∈ later, Adds op := fun op hop => hadds op (.inr (.inr hop))
  rw [List.foldl_append, List.foldl_cons]
  obtain hqueued | hup := (h.foldl before).push path created
  · obtain ⟨more, hmore⟩ := paths_foldl hlater ((before.foldl step queue).push path created)
    left
    simp [step, hmore, hqueued]
  · exact .inr (overflow_foldl hlater hup)

end DirtyFiles

/-! ### The table of cursors -/

section Table

variable {limits : SourceLimits} {ask : FileCall → FileSystem} {path : PathBuf}
  {roots : List (PathBuf × EventSource)} {source : EventSource} {cursors cursors' : Cursors}
  {calls : List LoopCall} {bound : ℕ}

theorem Pruned.card_le (h : Pruned ask calls cursors cursors') :
    cursors'.keys.card ≤ cursors.keys.card := Finset.card_le_card (keys_subset_of_sub h.sub)

theorem Cursors.Attached.card_le (h : Cursors.Attached limits ask path cursors cursors' calls)
    (hlimit : 0 < limits.dirtyFiles) (hcard : cursors.keys.card ≤ limits.dirtyFiles) :
    cursors'.keys.card ≤ limits.dirtyFiles := by
  cases h with
  | known => exact hcard
  | @opened kept calls file fromEnd hnew hkept hcalls hopen hend hroom =>
    have hone := Finset.card_insert_le path kept.keys
    rw [HashMap.keys_insert]
    obtain hroom | rfl := hroom
    · omega
    · simp at hone ⊢
      omega
  | refused _ hkept => exact hkept.card_le.trans hcard

theorem Cursors.Turned.card_le (h : Cursors.Turned limits ask path source cursors cursors' calls) :
    cursors'.keys.card ≤ cursors.keys.card := by
  have hsame (hmem : path ∈ cursors) (file : OpenFile) :
      (insert path cursors.keys).card = cursors.keys.card := by
    rw [Finset.insert_eq_of_mem (Finmap.mem_keys.mpr hmem)]
  have herase : (cursors.erase path).keys ⊆ cursors.keys := keys_subset_of_sub fun p f hf => by
    rw [HashMap.lookup_erase_ite] at hf
    split_ifs at hf
    exact hf
  cases h with
  | absent => exact le_rfl
  | @read file next data more n hfile =>
    rw [HashMap.keys_insert, hsame (Finmap.mem_of_lookup_eq_some hfile) file]
  | @reopened file hmem =>
    rw [HashMap.keys_insert, ← hsame hmem file]
    exact Finset.card_le_card (Finset.insert_subset_insert path herase)
  | failed => exact Finset.card_le_card herase

theorem Visited.card_le (h : Visited limits ask path roots cursors cursors' calls)
    (hlimit : 0 < limits.dirtyFiles) (hcard : cursors.keys.card ≤ limits.dirtyFiles) :
    cursors'.keys.card ≤ limits.dirtyFiles := by
  cases h with
  | foreign => exact hcard
  | gone hkept => exact hkept.card_le.trans hcard
  | turned _ hkept _ hattached hturned =>
    exact hturned.card_le.trans (hattached.card_le hlimit (hkept.card_le.trans hcard))

end Table

/-! ### The loop -/

namespace HlListen

open DirtyFiles OrderBookListener

variable {serde : SerdeJson} {changes : Disk → Disk → Prop} {s s' : HlListen}
  {out more : List Happening} {path : PathBuf}

/-- The wakes, with the path that each took off the queue. -/
def wokenBy (out : List Happening) : List (Option PathBuf) :=
  out.filterMap fun
    | .woke next => some next
    | _ => none

@[simp] theorem wokenBy_append (out more : List Happening) :
    wokenBy (out ++ more) = wokenBy out ++ wokenBy more := List.filterMap_append

@[simp] theorem wokenBy_woke (next : Option PathBuf) (texts : List SourceText) :
    wokenBy (.woke next :: texts.map .read) = [next] := by
  simp [wokenBy, List.filterMap_map]

/-- What a step does to the queue. -/
inductive QueueStep (s : HlListen) (out : List Happening) (s' : HlListen) : Prop
  | added {ops : List (DirtyOp PathBuf)} (hadds : ∀ op ∈ ops, Adds op)
    (hdirty : s'.dirty = ops.foldl DirtyFiles.step s.dirty) (hwoken : wokenBy out = [])
  | woke (hdirty : s'.dirty = s.dirty.takeOverflow.2.pop.2)
    (hwoken : wokenBy out = [s.next.map Prod.fst])
    (hfence : s.dirty.overflow = true → .fence ∈ s'.calls)

theorem QueueStep.same (hdirty : s'.dirty = s.dirty) (hwoken : wokenBy out = []) :
    QueueStep s out s' := by
  have hnone : ∀ op ∈ ([] : List (DirtyOp PathBuf)), Adds op := by simp
  exact .added hnone hdirty hwoken

/-- The pushes of the maintenance tick. -/
theorem maintenanceBranch_dirty (s : HlListen) (order : PathOrder) (ask : FileCall → FileSystem) :
    (s.maintenanceBranch order ask).dirty =
      ((((order.visit (s.maintenanceBranch order ask).cursors.keys).filter fun path =>
        ((s.maintenanceBranch order ask).cursors.lookup path).any fun file =>
          file.needsAttention (ask (.attention path)) path).map (.push · false)).foldl
            DirtyFiles.step s.dirty) := by
  simp only [maintenanceBranch, List.foldl_map, List.foldl_filter, DirtyFiles.step]

theorem watch_dirty (s : HlListen) (n : Notification) :
    ∃ ops : List (DirtyOp PathBuf), (∀ op ∈ ops, Adds op) ∧
    (s.watch n).dirty = ops.foldl DirtyFiles.step s.dirty := by
  cases n with
  | event kind paths =>
    simp only [watch]
    split_ifs
    · exact ⟨_, adds_map paths (kind == .create), by simp only [List.foldl_map, DirtyFiles.step]⟩
    · exact ⟨[], by simp⟩
  | failed => exact ⟨[.markOverflow], by simp [Adds], rfl⟩

/-- What a call does to the queue and the permit. -/
inductive CallQueue (s s' : HlListen) : LoopCall → Prop
  | requeue {path : PathBuf} (hdirty : s'.dirty = s.dirty.push path false)
    (hwake : s'.wake = s.wake) : CallQueue s s' (.requeue path)
  | wakeIfDirty (hdirty : s'.dirty = s.dirty) (hwake : s'.wake = (s.wake || !s.dirty.isEmpty)) :
    CallQueue s s' .wakeIfDirty
  | other {c : LoopCall} (hdirty : s'.dirty = s.dirty) (hwake : s'.wake = s.wake)
    (hwakes : c ≠ .wakeIfDirty) : CallQueue s s' c

theorem call_queue {clock : ℕ → Instant} {now : Instant} {c : LoopCall} {rest : List LoopCall}
    (h : call serde clock now { s with calls := rest } c = some s') : CallQueue s s' c := by
  cases c with
  | fence =>
    cases h
    exact .other rfl rfl (by simp)
  | processData text =>
    simp only [call, Option.map_eq_some_iff] at h
    obtain ⟨listener, -, rfl⟩ := h
    exact .other rfl rfl (by simp)
  | requeue path =>
    cases h
    exact .requeue rfl rfl
  | wakeIfDirty =>
    cases h
    exact .wakeIfDirty rfl rfl
  | maintain =>
    simp only [call] at h
    split_ifs at h <;> cases h <;> exact .other rfl rfl (by simp)

theorem wokenBy_noted (serde : SerdeJson) (clock : ℕ → Instant) (now : Instant) (s s' : HlListen)
    (c : LoopCall) : wokenBy (s.noted serde clock now s' c) = [] := by
  cases c with
  | fence => simp [noted, wokenBy]
  | processData text => simp [noted, wokenBy]
  | requeue path => simp [noted, wokenBy]
  | wakeIfDirty => simp [noted, wokenBy]
  | maintain =>
    simp only [noted]
    split_ifs <;> simp [wokenBy]

theorem step_queue (hstep : Step serde changes s out s') : QueueStep s out s' := by
  cases hstep with
  | files => exact .same rfl rfl
  | watch n =>
    obtain ⟨ops, hadds, hdirty⟩ := watch_dirty s n
    exact .added hadds hdirty rfl
  | wake order ask disk hidle hwake hasked =>
    refine .woke rfl (by simp) fun hup => ?_
    have hlost : ((∅ : Cursors), [LoopCall.fence]) =
        if s.dirty.overflow then (∅, [.fence]) else (s.cursors, []) := by simp [hup]
    simp [wakeBranch_eq s order ask hlost]
  | maintenance order ask disk hidle hasked =>
    exact .added (adds_map _ false) (s.maintenanceBranch_dirty order ask) rfl
  | join => exact .same rfl rfl
  | tick => exact .same rfl rfl
  | call clock now hcalls hnow hcall =>
    cases call_queue hcall with
    | @requeue path hdirty => exact .added (adds_map [path] false) hdirty (wokenBy_noted ..)
    | wakeIfDirty hdirty => exact .same hdirty (wokenBy_noted ..)
    | other hdirty => exact .same hdirty (wokenBy_noted ..)
  | request => exact .same rfl rfl
  | answer => exact .same rfl rfl
  | passed => exact .same rfl rfl
  | requestFailed => exact .same rfl rfl
  | parseFailed => exact .same rfl rfl
  | finish => exact .same rfl rfl
  | abort => exact .same rfl rfl
  | views => exact .same rfl rfl

/-! ### No path waits for a permit -/

/-- While something is queued, there is a permit for a wake, or the branch under way is about to
leave one. -/
structure Awake (s : HlListen) : Prop where
  overflow : s.dirty.overflow = true → s.wake = true ∨ s.dirty.paths ≠ []
  queued : s.dirty.paths ≠ [] → s.wake = true ∨ .wakeIfDirty ∈ s.calls
  /-- A branch that queues a path again ends with a look at the queue. -/
  last : ∀ path, .requeue path ∈ s.calls → s.calls.getLast? = some .wakeIfDirty

theorem Awake.congr (h : Awake s) (hdirty : s'.dirty = s.dirty) (hwake : s'.wake = s.wake)
    (hcalls : s'.calls = s.calls) : Awake s' :=
  ⟨by simpa [hdirty, hwake] using h.overflow, by simpa [hdirty, hwake, hcalls] using h.queued,
    by simpa [hcalls] using h.last⟩

/-- A branch that was idle before, and has queued nothing. -/
theorem Awake.branch (h : Awake s) (hidle : s.calls = []) (hdirty : s'.dirty = s.dirty)
    (hwake : s'.wake = s.wake) (hcalls : ∀ path, .requeue path ∉ s'.calls) : Awake s' := by
  refine ⟨by simpa [hdirty, hwake] using h.overflow, fun hqueued => ?_,
    fun path hpath => absurd hpath (hcalls path)⟩
  have hbefore := h.queued (hdirty ▸ hqueued)
  left
  simpa [hwake, hidle] using hbefore

theorem Awake.watch (h : Awake s) (n : Notification) : Awake (s.watch n) := by
  cases n with
  | event kind paths =>
    simp only [HlListen.watch]
    split_ifs
    · exact ⟨fun _ => .inl rfl, fun _ => .inl rfl, h.last⟩
    · exact h
  | failed => exact ⟨fun _ => .inl rfl, fun _ => .inl rfl, h.last⟩

theorem Awake.maintenanceBranch {limit : ℕ} (h : Awake s) (hreached : Reached limit s.dirty)
    (hlimit : 0 < limit) (hidle : s.calls = []) (order : PathOrder) (ask : FileCall → FileSystem) :
    Awake (s.maintenanceBranch order ask) := by
  have hdirty := s.maintenanceBranch_dirty order ask
  have hwake : (s.maintenanceBranch order ask).wake =
      (s.wake || decide ((s.maintenanceBranch order ask).dirty.len > 0)) := rfl
  have hpermit (hqueued : (s.maintenanceBranch order ask).dirty.paths ≠ []) :
      (s.maintenanceBranch order ask).wake = true := by
    simp [hwake, DirtyFiles.len, List.length_pos_iff, hqueued]
  refine ⟨fun hup => ?_, fun hqueued => .inl (hpermit hqueued), ?_⟩
  · rw [hdirty] at hup
    obtain hbefore | hfull := full_of_overflow_foldl hup
    · obtain hstill | hqueued := h.overflow hbefore
      · simp [hwake, hstill]
      · obtain hstill | hpending := h.queued hqueued
        · simp [hwake, hstill]
        · simp [hidle] at hpending
    · rw [← hdirty, hreached.limit_eq] at hfull
      exact .inr (List.length_pos_iff.mp (by omega))
  · simp [HlListen.maintenanceBranch]

theorem Awake.call {limit : ℕ} {clock : ℕ → Instant} {now : Instant} {c : LoopCall}
    {rest : List LoopCall} (h : Awake s) (hreached : Reached limit s.dirty) (hlimit : 0 < limit)
    (hcalls : s.calls = c :: rest)
    (hcall : HlListen.call serde clock now { s with calls := rest } c = some s') : Awake s' := by
  have hrest := (call_reader hcall).2
  have hlast := h.last
  simp only [hcalls, List.mem_cons] at hlast
  have hafter (path : PathBuf) (hpath : .requeue path ∈ s'.calls) :
      s'.calls.getLast? = some .wakeIfDirty := by
    rw [hrest] at hpath ⊢
    have hend := hlast path (.inr hpath)
    cases rest with
    | nil => simp at hpath
    | cons next rest => simpa using hend
  cases call_queue hcall with
  | @requeue path hdirty hwake =>
    have hpushed : s'.dirty = ([path].map (.push · false)).foldl DirtyFiles.step s.dirty := hdirty
    refine ⟨fun hup => ?_, fun _ => .inr ?_, hafter⟩
    · rw [hpushed] at hup
      obtain hbefore | hfull := full_of_overflow_foldl hup
      · obtain ⟨more, hmore⟩ := paths_foldl (adds_map [path] false) s.dirty
        have hqueued := h.overflow hbefore
        rw [hwake, hpushed, hmore]
        simp only [ne_eq, List.append_eq_nil_iff]
        tauto
      · rw [← hpushed, hreached.limit_eq] at hfull
        exact .inr (List.length_pos_iff.mp (by omega))
    · have hend := List.mem_of_getLast? (hlast path (.inl rfl))
      simpa [hrest] using hend
  | wakeIfDirty hdirty hwake =>
    refine ⟨?_, fun hqueued => .inl ?_, hafter⟩
    · have hbefore := h.overflow
      simp only [hdirty, hwake, Bool.or_eq_true]
      tauto
    · rw [hdirty] at hqueued
      simp [hwake, DirtyFiles.isEmpty, hqueued]
  | other hdirty hwake hne =>
    refine ⟨by simpa [hdirty, hwake] using h.overflow, fun hqueued => ?_, hafter⟩
    have hbefore := h.queued (hdirty ▸ hqueued)
    rw [hcalls, List.mem_cons] at hbefore
    rw [hwake, hrest]
    exact hbefore.imp id fun hmem => hmem.resolve_left (Ne.symm hne)

theorem Awake.step {limit : ℕ} (h : Awake s) (hreached : Reached limit s.dirty)
    (hlimit : 0 < limit) (hstep : Step serde changes s out s') : Awake s' := by
  cases hstep with
  | files => exact h.congr rfl rfl rfl
  | watch n => exact h.watch n
  | wake order ask disk hidle hwake hasked =>
    refine ⟨fun hup => ?_, fun _ => .inr ?_, fun path _ => ?_⟩
    · have hdown : (s.wakeBranch order ask).dirty.overflow = false := pop_overflow _
      simp [hdown] at hup
    · simp [wakeBranch]
    · simp [wakeBranch]
  | maintenance order ask disk hidle hasked =>
    exact (h.maintenanceBranch hreached hlimit hidle order ask).congr rfl rfl rfl
  | @join before after outcome now later hidle htask =>
    refine h.branch hidle rfl rfl fun path => ?_
    simp only [joinBranch]
    split_ifs <;> simp
  | tick now hidle => exact h.branch hidle rfl rfl (by simp [tickBranch, spawn, hidle])
  | call clock now hcalls hnow hcall => exact h.call hreached hlimit hcalls hcall
  | request => exact h.congr rfl rfl rfl
  | answer => exact h.congr rfl rfl rfl
  | passed => exact h.congr rfl rfl rfl
  | requestFailed => exact h.congr rfl rfl rfl
  | parseFailed => exact h.congr rfl rfl rfl
  | finish => exact h.congr rfl rfl rfl
  | abort => exact h.congr rfl rfl rfl
  | views => exact h.congr rfl rfl rfl

theorem reached_step {limit : ℕ} (h : Reached limit s.dirty) (hstep : Step serde changes s out s') :
    Reached limit s'.dirty := by
  cases step_queue hstep with
  | added hadds hdirty => exact hdirty ▸ h.foldl _
  | woke hdirty => exact hdirty ▸ h.foldl [.takeOverflow, .pop]

/-! ### A queued path is woken for in its turn -/

theorem step_place {k : ℕ} (h : s.dirty.paths[k]? = some path)
    (hstep : Step serde changes s out s') : some path ∈ wokenBy out ∨
      ∃ k', s'.dirty.paths[k']? = some path ∧ k' + (wokenBy out).length = k := by
  cases step_queue hstep with
  | added hadds hdirty hwoken =>
    obtain ⟨more, hmore⟩ := paths_foldl hadds s.dirty
    right
    refine ⟨k, ?_, by simp [hwoken]⟩
    rw [hdirty, hmore, List.getElem?_append_left (by grind), h]
  | woke hdirty hwoken =>
    obtain ⟨hnil, -⟩ | ⟨front, rest, hpaths, hpop⟩ := pop_cases s.dirty.takeOverflow.2
    · have hempty : s.dirty.paths = [] := hnil
      simp [hempty] at h
    · have hqueue : s.dirty.paths = front :: rest := hpaths
      rw [hqueue] at h
      cases k with
      | zero =>
        left
        obtain rfl : front = path := by simpa using h
        simp [hwoken, next, hpop]
      | succ k =>
        right
        refine ⟨k, ?_, by simp [hwoken]⟩
        simpa [hdirty, hpop] using h

/-- A path that is queued behind `k` others is the one that the wake after `k` wakes takes,
whatever else happens. -/
theorem run_place {k : ℕ} (h : s.dirty.paths[k]? = some path)
    (hrun : Run (Step serde changes) s out s') :
    some path ∈ wokenBy out ∨
      ∃ k', s'.dirty.paths[k']? = some path ∧ k' + (wokenBy out).length = k := by
  refine hrun.invariant (fun out s' => some path ∈ wokenBy out ∨
    ∃ k', s'.dirty.paths[k']? = some path ∧ k' + (wokenBy out).length = k) ?_ ?_
  · exact .inr ⟨k, h, by simp [wokenBy]⟩
  · intro out more s s' _ hplace hstep
    obtain hwoken | ⟨k', hk', hlength⟩ := hplace
    · exact .inl (by simp [hwoken])
    · obtain hwoken | ⟨k'', hk'', hless⟩ := step_place hk' hstep
      · exact .inl (by simp [hwoken])
      · refine .inr ⟨k'', hk'', ?_⟩
        rw [wokenBy_append, List.length_append]
        omega

/-- The next wake after the flag was raised fences the stream. -/
theorem run_overflow (h : s.dirty.overflow = true) (hrun : Run (Step serde changes) s out s')
    (hwakes : wokenBy out ≠ []) : Fenced out s' := by
  have hkept := hrun.invariant
    (fun out s' => (wokenBy out = [] ∧ s'.dirty.overflow = true) ∨ Fenced out s')
    (.inl ⟨by simp [wokenBy], h⟩) ?_
  · exact hkept.resolve_left fun hnone => hwakes hnone.1
  · intro out more s s' _ hs hstep
    obtain ⟨hnone, hup⟩ | hfenced := hs
    · cases step_queue hstep with
      | added hadds hdirty hwoken =>
        exact .inl ⟨by simp [hnone, hwoken], hdirty ▸ overflow_foldl hadds hup⟩
      | woke _ _ hfence => exact .inr (.inr (hfence hup))
    · exact .inr ((step_reader hstep).fenced hfenced)

/-- A path that is in the queue, or that found no room in it, is visited within as many wakes as
the queue has room for, or the stream is fenced. -/
theorem visited_or_fenced {limit : ℕ} (hreached : Reached limit s.dirty) (hlimit : 0 < limit)
    (h : path ∈ s.dirty.paths ∨ s.dirty.overflow = true) (hrun : Run (Step serde changes) s out s')
    (hwakes : limit ≤ (wokenBy out).length) : some path ∈ wokenBy out ∨ Fenced out s' := by
  obtain hqueued | hup := h
  · obtain ⟨k, hk, hpath⟩ := List.getElem_of_mem hqueued
    have hroom := hreached.limited
    left
    refine (run_place (List.getElem?_eq_some_iff.mpr ⟨hk, hpath⟩) hrun).resolve_right ?_
    rintro ⟨k', -, hlength⟩
    omega
  · right
    refine run_overflow hup hrun fun hnone => ?_
    simp [hnone] at hwakes
    omega

section Sound

variable {limits : SourceLimits} {roots : List (PathBuf × EventSource)} {ignoreSpot : Bool}
  {scope : CoinScope} {disk : Disk} {now : Instant}

theorem run_reached
    (h : Run (Step serde changes) (starts limits roots ignoreSpot scope disk now) out s) :
    Reached limits.dirtyFiles s.dirty :=
  h.keeps (fun s => Reached limits.dirtyFiles s.dirty) ⟨[], rfl⟩ fun hs hstep =>
    reached_step hs hstep

theorem run_awake (hlimit : 0 < limits.dirtyFiles)
    (h : Run (Step serde changes) (starts limits roots ignoreSpot scope disk now) out s) :
    Awake s := by
  refine h.invariant (fun _ s => Awake s) ?_ fun hrun hs hstep =>
    hs.step (run_reached hrun) hlimit hstep
  exact ⟨by simp [starts, start, DirtyFiles.new], by simp [starts, start, DirtyFiles.new],
    by simp [starts, start]⟩

/-- Neither the queue nor the table ever holds more than it has room for. -/
theorem queue_and_table_bounded (hlimit : 0 < limits.dirtyFiles)
    (h : Run (Step serde changes) (starts limits roots ignoreSpot scope disk now) out s) :
    s.dirty.paths.length ≤ limits.dirtyFiles ∧ s.cursors.keys.card ≤ limits.dirtyFiles := by
  have htable := h.keeps
    (fun s => s.limits = limits ∧ s.cursors.keys.card ≤ limits.dirtyFiles) ?_ ?_
  · exact ⟨(run_reached h).limited, htable.2⟩
  · simp [starts, start]
  · intro more s s' hs hstep
    obtain ⟨rfl, hcard⟩ := hs
    cases step_reader hstep with
    | kept hsame => exact ⟨hsame.limits, hsame.cursors ▸ hcard⟩
    | files hlimits _ hcursors => exact ⟨hlimits, hcursors ▸ hcard⟩
    | branch hsame => exact ⟨hsame.limits, hsame.cursors ▸ hcard⟩
    | call hsame => exact ⟨hsame.limits, hsame.cursors ▸ hcard⟩
    | wake hlimits _ _ hwoken =>
      have hleft := hwoken.kept.card_le.trans hcard
      obtain ⟨hcursors, -⟩ | ⟨path, -, hvisited⟩ := hwoken.visit
      · exact ⟨hlimits, hcursors ▸ hleft⟩
      · exact ⟨hlimits, hvisited.card_le hlimit hleft⟩
    | maintenance hlimits _ _ hkept => exact ⟨hlimits, hkept.card_le.trans hcard⟩

theorem queue_and_table_bounded_block_six : ∃ s : HlListen, ["fills", "6"] ∈ s.cursors ∧
    s.dirty.paths.length ≤ 1 ∧ s.cursors.keys.card ≤ 1 := by
  obtain ⟨out, s, next, -, -, hrun, hfile, -⟩ := run_block_six_done
  exact ⟨s, Finmap.mem_of_lookup_eq_some hfile, queue_and_table_bounded (by decide) hrun⟩

/-- Between branches, a permit for a wake is there whenever something is queued or was lost. -/
theorem permit_while_queued (hlimit : 0 < limits.dirtyFiles)
    (h : Run (Step serde changes) (starts limits roots ignoreSpot scope disk now) out s)
    (hidle : s.calls = []) (hqueued : s.dirty.paths ≠ [] ∨ s.dirty.overflow = true) :
    s.wake = true := by
  have hawake := run_awake hlimit h
  have hpaths (hpaths : s.dirty.paths ≠ []) : s.wake = true := by
    simpa [hidle] using hawake.queued hpaths
  exact hqueued.elim hpaths fun hup => (hawake.overflow hup).elim id hpaths

theorem permit_while_queued_block_six :
    toldOfBlockSix.dirty.paths = [["fills", "6"]] ∧ toldOfBlockSix.wake = true := by
  have hwatch : Step .ofEmptyBlock Disk.Grows
      (starts oneFile [(["fills"], .fills)] true .all blockSixFile.disk 0) [] toldOfBlockSix :=
    .watch _ _
  exact ⟨rfl, permit_while_queued (by decide) (Run.single hwatch) rfl (.inl (by decide))⟩

/-- A path of which the watcher tells is visited within as many wakes as the queue has room for,
or the stream is fenced. -/
theorem notified_path_visited (hlimit : 0 < limits.dirtyFiles)
    (h : Run (Step serde changes) (starts limits roots ignoreSpot scope disk now) out s)
    {kind : EventKind} (hkind : kind = .create ∨ kind = .modify) {paths : List PathBuf}
    (hpath : path ∈ paths)
    (hrun : Run (Step serde changes) (s.watch (.event kind paths)) more s')
    (hwakes : limits.dirtyFiles ≤ (wokenBy more).length) :
    some path ∈ wokenBy more ∨ Fenced more s' := by
  have hstep : Step serde changes s [] (s.watch (.event kind paths)) := .watch s _
  refine visited_or_fenced (reached_step (run_reached h) hstep) hlimit ?_ hrun hwakes
  have hpush : DirtyOp.push path (kind == .create) ∈ paths.map (.push · (kind == .create)) :=
    List.mem_map_of_mem hpath
  have hpushed := (run_reached h).pushed (adds_map paths (kind == .create)) hpush
  simpa [watch, hkind, List.foldl_map, DirtyFiles.step] using hpushed

theorem notified_path_visited_block_six : ∃ (more : List Happening) (s' : HlListen),
    (wokenBy more).length = 1 ∧ (some ["fills", "6"] ∈ wokenBy more ∨ Fenced more s') := by
  obtain ⟨order⟩ := PathOrder.nonempty
  have hasked : Asked Disk.Grows toldOfBlockSix.disk (fun _ => blockSixFile) blockSixFile.disk :=
    ⟨fun _ => .refl _, fun _ _ _ => .refl _, fun _ => .refl _⟩
  have hwake : Step .ofEmptyBlock Disk.Grows toldOfBlockSix _ _ :=
    .wake order _ blockSixFile.disk rfl rfl hasked
  have hone := wokenBy_woke (toldOfBlockSix.next.map Prod.fst)
    ((toldOfBlockSix.wakeBranch order fun _ => blockSixFile).calls.filterMap LoopCall.text?)
  exact ⟨_, _, congrArg List.length hone, notified_path_visited (by decide) Run.refl (.inl rfl)
    (List.mem_singleton_self _) (Run.single hwake) (congrArg List.length hone).ge⟩

/-- A cursor that a maintenance tick finds behind its file, or with a record that is too old, is
visited within as many wakes as the queue has room for, or the stream is fenced. -/
theorem neglected_path_visited (hlimit : 0 < limits.dirtyFiles)
    (h : Run (Step serde changes) (starts limits roots ignoreSpot scope disk now) out s)
    {order : PathOrder} {ask : FileCall → FileSystem} {seen : Disk} {file : OpenFile}
    (hidle : s.calls = []) (hasked : Asked changes s.disk ask seen)
    (hfile : (s.maintenanceBranch order ask).cursors.lookup path = some file)
    (hattention : file.needsAttention (ask (.attention path)) path = true)
    (hrun : Run (Step serde changes) { s.maintenanceBranch order ask with disk := seen } more s')
    (hwakes : limits.dirtyFiles ≤ (wokenBy more).length) :
    some path ∈ wokenBy more ∨ Fenced more s' := by
  have hstep : Step serde changes s [] { s.maintenanceBranch order ask with disk := seen } :=
    .maintenance order ask seen hidle hasked
  refine visited_or_fenced (reached_step (run_reached h) hstep) hlimit ?_ hrun hwakes
  have hpush : DirtyOp.push path false ∈
      (((order.visit (s.maintenanceBranch order ask).cursors.keys).filter fun path =>
        ((s.maintenanceBranch order ask).cursors.lookup path).any fun file =>
          file.needsAttention (ask (.attention path)) path).map (.push · false)) := by
    refine List.mem_map_of_mem (List.mem_filter.mpr ⟨?_, by simp [hfile, hattention]⟩)
    rw [order.mem_visit]
    exact Finmap.mem_keys.mpr (Finmap.mem_of_lookup_eq_some hfile)
  have hpushed := (run_reached h).pushed (adds_map _ false) hpush
  rwa [← maintenanceBranch_dirty] at hpushed

/-- The metadata of the file cannot be had any more. -/
def blockSixLost : FileSystem :=
  { blockSixFile with fileMetadata := fun _ => .error "Input/output error (os error 5)" }

theorem neglected_path_visited_block_six : ∃ (more : List Happening) (s' : HlListen),
    (wokenBy more).length = 1 ∧ (some ["fills", "6"] ∈ wokenBy more ∨ Fenced more s') := by
  obtain ⟨order⟩ := PathOrder.nonempty
  obtain ⟨out, s, next, -, -, hrun, hfile, -, -, hidle, hdisk, hclock, hwake, -⟩ :=
    run_block_six_done
  have hasked : Asked Disk.Grows s.disk (fun _ => blockSixLost) blockSixFile.disk := by
    rw [hdisk]
    exact ⟨fun _ => .refl _, fun _ _ _ => .refl _, fun _ => .refl _⟩
  have hkept : (s.maintenanceBranch order fun _ => blockSixLost).cursors.lookup ["fills", "6"] =
      some next := by
    refine Cursors.lookup_retainExisting.mpr ⟨hfile, ?_⟩
    simp [OpenFile.drained, blockSixLost, Except.isOk, Except.toBool]
  have hattention : next.needsAttention blockSixLost ["fills", "6"] = true := by
    simp [OpenFile.needsAttention, FileCursor.verifyFile, OpenFile.view, blockSixLost, bind,
      Except.bind]
  let told := { s.maintenanceBranch order (fun _ => blockSixLost) with disk := blockSixFile.disk }
  obtain ⟨s', hcall⟩ : ∃ s',
      call blockSixReader (fun _ => 0) 0 { told with calls := [] } .maintain = some s' := by
    simp only [call]
    split_ifs <;> exact ⟨_, rfl⟩
  have hmaintain : Step blockSixReader Disk.Grows told _ s' :=
    .call (fun _ => 0) 0 rfl hclock.le hcall
  obtain ⟨hsame, hdone⟩ := call_reader hcall
  have hpermit : s'.wake = true := by
    cases call_queue hcall with
    | other _ hkeeps =>
      rw [hkeeps]
      exact Bool.or_eq_true_iff.mpr (.inl hwake)
  have hasked' : Asked Disk.Grows s'.disk (fun _ => blockSixLost) blockSixFile.disk := by
    rw [hsame.disk]
    exact ⟨fun _ => .refl _, fun _ _ _ => .refl _, fun _ => .refl _⟩
  have hwake : Step blockSixReader Disk.Grows s' _ _ :=
    .wake order _ blockSixFile.disk hdone hpermit hasked'
  have hone (texts : List SourceText) :
      (wokenBy (told.noted blockSixReader (fun _ => 0) 0 s' .maintain ++
        .woke (s'.next.map Prod.fst) :: texts.map .read)).length = 1 := by
    rw [wokenBy_append, wokenBy_noted, wokenBy_woke]
    rfl
  exact ⟨_, _, hone _, neglected_path_visited (by decide) hrun hidle hasked hkept hattention
    ((Run.single hmaintain).tail hwake) (hone _).ge⟩

end Sound

end HlListen
end OrderBookServer
