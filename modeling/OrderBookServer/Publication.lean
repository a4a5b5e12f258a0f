import OrderBookServer.Attempt

/-!
# What is published

A connection relies on the messages to follow from those before them: blocks come
height after height, views are those of the block sent last, and only a gap breaks
the sequence. The invariant ties the log of the messages to the live books: without
live books nothing was sent since the last gap, and with them the last block sent
is the one they are at.
-/
namespace OrderBookServer

namespace InternalMessage

/-- The status batch of the latest block sent since the last gap. -/
def lastUpdate (log : List InternalMessage) : Option (Batch NodeDataOrderStatus) :=
  log.foldl (fun last message =>
    match message with
    | .gap => none
    | .l4BookUpdates _ statusBatch => some statusBatch
    | _ => last) none

/-- The height of the latest views sent since the last gap. -/
def lastSnapshot (log : List InternalMessage) : Option ℕ :=
  log.foldl (fun last message =>
    match message with
    | .gap => none
    | .snapshot _ _ height => some height
    | _ => last) none

/-- The heights of all fills sent. -/
def fillHeights (log : List InternalMessage) : List ℕ :=
  log.filterMap fun message =>
    match message with
    | .fills batch => some batch.blockNumber
    | _ => none

/-- A message follows from those before it. -/
def Follows (log : List InternalMessage) : InternalMessage → Prop
  | .gap => True
  | .l4BookUpdates diffBatch statusBatch =>
    diffBatch.blockNumber = statusBatch.blockNumber ∧
      ∀ last, lastUpdate log = some last → statusBatch.blockNumber = last.blockNumber + 1
  | .snapshot _ time height =>
    (∀ last, lastUpdate log = some last →
      height = last.blockNumber ∧ last.blockTimeMillis = some time) ∧
      ∀ last, lastSnapshot log = some last → last ≤ height
  | .fills batch => ∀ height ∈ fillHeights log, height < batch.blockNumber

/-- Every message follows from those before it. -/
def Gapless (log : List InternalMessage) : Prop :=
  ∀ before message after, log = before ++ message :: after → Follows before message

theorem gapless_nil : Gapless [] := fun _ _ _ h => by simp at h

theorem Gapless.snoc {log : List InternalMessage} {message : InternalMessage} (h : Gapless log)
    (hm : Follows log message) : Gapless (log ++ [message]) := by
  intro before m after he
  rcases List.eq_nil_or_concat after with rfl | ⟨after', last, rfl⟩
  · obtain ⟨rfl, hlast⟩ := List.append_inj' he rfl
    obtain rfl := List.singleton_inj.mp hlast
    exact hm
  · rw [List.concat_eq_append, ← List.cons_append, ← List.append_assoc] at he
    exact h before m after' (List.append_inj' he rfl).1

section Last

variable (log : List InternalMessage)

@[simp] theorem lastUpdate_gap : lastUpdate (log ++ [.gap]) = none := by simp [lastUpdate]

@[simp] theorem lastUpdate_l4BookUpdates (diffs : Batch NodeDataOrderDiff)
    (statuses : Batch NodeDataOrderStatus) :
    lastUpdate (log ++ [.l4BookUpdates diffs statuses]) = some statuses := by simp [lastUpdate]

@[simp] theorem lastUpdate_snapshot (views : L2Snapshots) (time height : ℕ) :
    lastUpdate (log ++ [.snapshot views time height]) = lastUpdate log := by simp [lastUpdate]

@[simp] theorem lastUpdate_fills (batch : Batch NodeDataFill) :
    lastUpdate (log ++ [.fills batch]) = lastUpdate log := by simp [lastUpdate]

@[simp] theorem lastSnapshot_gap : lastSnapshot (log ++ [.gap]) = none := by simp [lastSnapshot]

@[simp] theorem lastSnapshot_l4BookUpdates (diffs : Batch NodeDataOrderDiff)
    (statuses : Batch NodeDataOrderStatus) :
    lastSnapshot (log ++ [.l4BookUpdates diffs statuses]) = lastSnapshot log := by
  simp [lastSnapshot]

@[simp] theorem lastSnapshot_snapshot (views : L2Snapshots) (time height : ℕ) :
    lastSnapshot (log ++ [.snapshot views time height]) = some height := by simp [lastSnapshot]

@[simp] theorem lastSnapshot_fills (batch : Batch NodeDataFill) :
    lastSnapshot (log ++ [.fills batch]) = lastSnapshot log := by simp [lastSnapshot]

end Last
end InternalMessage

namespace OrderBookListener

open OrderBookState InternalMessage

/-- What ties the messages sent to the live books. -/
structure Publishing (l : OrderBookListener) (log : List InternalMessage) : Prop where
  sender : l.internalMessageTx = some log
  gapless : Gapless log
  fenced : l.orderBookState = none → lastUpdate log = none ∧ lastSnapshot log = none
  update : ∀ s last, l.orderBookState = some s → lastUpdate log = some last →
    last.blockNumber = s.height ∧ last.blockTimeMillis = some s.time
  snapshot : ∀ s last, l.orderBookState = some s → lastSnapshot log = some last → last ≤ s.height
  fills : ∀ height ∈ fillHeights log, ∃ last, l.lastFill = some last ∧ height ≤ last

/-- The listener publishes a log in which every message follows. -/
def Publishes (l : OrderBookListener) : Prop := ∃ log, Publishing l log

section Publishes

variable {l l' : OrderBookListener}

theorem Publishing.congr {log : List InternalMessage} (h : Publishing l log)
    (hsent : l'.internalMessageTx = l.internalMessageTx)
    (hlive : l'.orderBookState = l.orderBookState) (hfill : l'.lastFill = l.lastFill) :
    Publishing l' log where
  sender := hsent.trans h.sender
  gapless := h.gapless
  fenced hs := h.fenced (hlive.symm.trans hs)
  update s last hs := h.update s last (hlive.symm.trans hs)
  snapshot s last hs := h.snapshot s last (hlive.symm.trans hs)
  fills height hm := by
    rw [hfill]
    exact h.fills height hm

theorem Publishes.congr (h : Publishes l) (hsent : l'.internalMessageTx = l.internalMessageTx)
    (hlive : l'.orderBookState = l.orderBookState) (hfill : l'.lastFill = l.lastFill) :
    Publishes l' := by
  obtain ⟨log, h⟩ := h
  exact ⟨log, h.congr hsent hlive hfill⟩

/-- The live books may change as long as their height and time do not. -/
theorem Publishes.setLive (h : Publishes l) {s s' : OrderBookState}
    (hs : l.orderBookState = some s) (hheight : s'.height = s.height) (htime : s'.time = s.time) :
    Publishes { l with orderBookState := some s' } := by
  obtain ⟨log, h⟩ := h
  refine ⟨log, h.sender, h.gapless, fun hnone => (nomatch hnone), ?_, ?_, h.fills⟩
  · intro t last ht hlast
    obtain rfl := Option.some.inj ht
    rw [hheight, htime]
    exact h.update s last hs hlast
  · intro t last ht hlast
    obtain rfl := Option.some.inj ht
    rw [hheight]
    exact h.snapshot s last hs hlast

/-- A gap is always in order, and nothing is to follow from what came before it. -/
theorem Publishing.sendGap {log : List InternalMessage} (hsender : l.internalMessageTx = some log)
    (hgapless : Gapless log)
    (hfills : ∀ height ∈ fillHeights log, ∃ last, l.lastFill = some last ∧ height ≤ last) :
    Publishes (l.send .gap) := by
  have hfollows : Follows log .gap := trivial
  refine ⟨log ++ [.gap], ?_, hgapless.snoc hfollows, ?_, ?_, ?_, ?_⟩
  · simp [send, hsender]
  · simp
  · simp
  · simp
  · simpa [fillHeights, send] using hfills

theorem Publishes.fence (h : Publishes l) : Publishes l.fence := by
  obtain ⟨log, h⟩ := h
  exact Publishing.sendGap h.sender h.gapless h.fills

theorem Publishes.accept {batch : EventBatch} {queued : List EventBatch} (h : Publishes l)
    (ha : Accepted l batch queued l') : Publishes l' := by
  cases ha with
  | old => exact h
  | orders => exact h.congr rfl rfl rfl
  | bookDiffs => exact h.congr rfl rfl rfl
  | @fills batch hnew =>
    obtain ⟨log, h⟩ := h
    have hfollows : Follows log (.fills batch) := by
      intro height hm
      obtain ⟨last, hlast, hle⟩ := h.fills height hm
      have := hnew last hlast
      omega
    refine ⟨log ++ [.fills batch], ?_, h.gapless.snoc hfollows, ?_, ?_, ?_, ?_⟩
    · simp [send, h.sender]
    · simpa [send] using h.fenced
    · simpa [send] using h.update
    · simpa [send] using h.snapshot
    · intro height hm
      rw [fillHeights, List.filterMap_append] at hm
      rcases List.mem_append.mp hm with hm | hm
      · exact ⟨_, rfl, (hfollows height hm).le⟩
      · rw [List.filterMap_cons, List.filterMap_nil, List.mem_singleton] at hm
        exact ⟨_, rfl, hm.le⟩

/-- The block after the live books is sent as they reach it. -/
theorem Publishes.sendUpdate (h : Publishes l) {s next : OrderBookState} {pair : BlockPair}
    (hs : l.orderBookState = some s) (hgt : s.height < pair.1.blockNumber)
    (ha : s.applyUpdates pair.1 pair.2 = (next, .ok ())) (hlive : l'.orderBookState = some next)
    (hsent : l'.internalMessageTx = l.internalMessageTx) (hfill : l'.lastFill = l.lastFill) :
    Publishes (l'.send (.l4BookUpdates pair.2 pair.1)) := by
  obtain ⟨log, h⟩ := h
  cases applyUpdates_eq_ok_iff.mp ha with
  | old htime hsame hnext hold => omega
  | next htime hsame hwrap hheight happlied =>
    have hfollows : Follows log (.l4BookUpdates pair.2 pair.1) := by
      refine ⟨hsame.symm, fun last hlast => ?_⟩
      rw [hheight, (h.update s last hs hlast).1]
    refine ⟨log ++ [.l4BookUpdates pair.2 pair.1], ?_, h.gapless.snoc hfollows, ?_, ?_, ?_, ?_⟩
    · simp [send, hsent, h.sender]
    · intro hnone
      rw [send, hlive] at hnone
      cases hnone
    · intro t last ht hlast
      rw [send, hlive] at ht
      obtain rfl := Option.some.inj ht
      rw [lastUpdate_l4BookUpdates] at hlast
      obtain rfl := Option.some.inj hlast
      exact ⟨rfl, htime⟩
    · intro t last ht hlast
      rw [send, hlive] at ht
      obtain rfl := Option.some.inj ht
      rw [lastSnapshot_l4BookUpdates] at hlast
      have := h.snapshot s last hs hlast
      dsimp only
      omega
    · intro height hm
      rw [send, hfill]
      exact h.fills height (by simpa [fillHeights] using hm)

theorem Publishes.stepped (h : Publishes l) (hs : Stepped l l') : Publishes l' := by
  cases hs with
  | notReady => exact h
  | idle => exact h.congr rfl rfl rfl
  | stale => exact h.congr rfl rfl rfl
  | applied hbook hsync hgt happlied hrecorded =>
    cases hrecorded with
    | uncached => exact h.sendUpdate hbook hgt happlied rfl rfl rfl
    | dropped => exact h.sendUpdate hbook hgt happlied rfl rfl rfl
    | cached => exact h.sendUpdate hbook hgt happlied rfl rfl rfl

theorem Publishes.received {batches : List EventBatch} (h : Publishes l)
    (hr : Received l batches l') : Publishes l' := by
  induction hr with
  | nil => exact h
  | cons haccepted hstepped _ ih => exact ih ((h.accept haccepted).stepped hstepped)

theorem Publishes.broken {batches : List EventBatch} (h : Publishes l) (hb : Broken l batches l') :
    Publishes l' := by
  cases hb with
  | received hr => exact h.received hr
  | accepted hr ha => exact (h.received hr).accept ha

/-- Views are those of the live books, at their height and time. -/
theorem l2Snapshots_fst {s : OrderBookState} {prevent : Bool} {time height : ℕ} {views : L2Snapshots}
    (h : (s.l2Snapshots prevent).1 = some (time, height, views)) :
    time = s.time ∧ height = s.height := by
  unfold OrderBookState.l2Snapshots at h
  split_ifs at h
  cases h
  exact ⟨rfl, rfl⟩

theorem Publishes.publishViews (h : Publishes l) : Publishes l.publishViews := by
  unfold OrderBookListener.publishViews OrderBookListener.l2Snapshots
  cases hbook : l.orderBookState with
  | none => exact h
  | some book =>
    obtain ⟨hagree, htime⟩ := agree_l2Snapshots book true
    obtain ⟨log, hl⟩ := h.setLive hbook hagree.height htime
    dsimp only
    cases hviews : (book.l2Snapshots true).1 with
    | none => exact ⟨log, hl⟩
    | some out =>
      obtain ⟨time, height, views⟩ := out
      obtain ⟨rfl, rfl⟩ := l2Snapshots_fst hviews
      rw [← htime, ← hagree.height]
      generalize (book.l2Snapshots true).2 = book' at hl ⊢
      have hfollows : Follows log (.snapshot views book'.time book'.height) := by
        refine ⟨fun last hlast => ?_, fun last hlast => hl.snapshot _ last rfl hlast⟩
        obtain ⟨hheight, ht⟩ := hl.update _ last rfl hlast
        exact ⟨hheight.symm, ht⟩
      refine ⟨log ++ [.snapshot views book'.time book'.height], ?_, hl.gapless.snoc hfollows,
        fun hnone => (nomatch hnone), ?_, ?_, ?_⟩
      · exact congrArg (Option.map (· ++ [.snapshot views book'.time book'.height])) hl.sender
      · intro t last ht hlast
        exact hl.update t last ht (by simpa using hlast)
      · intro t last ht hlast
        obtain rfl := Option.some.inj ht
        rw [lastSnapshot_snapshot] at hlast
        exact (Option.some.inj hlast).symm.le
      · intro height hm
        exact hl.fills height (by simpa [fillHeights] using hm)

theorem Publishes.progress {serde : SerdeJson} {queued : List EventBatch} (h : Publishes l)
    (hp : Progress serde l queued l') : Publishes l' := by
  cases progress_cases hp with
  | kept => exact h
  | published hr => exact (h.received hr).publishViews
  | broken hb => exact (h.broken hb).fence
  | fenced => exact h.fence
  | aged => exact h.congr rfl rfl rfl
  | agedFenced => exact Publishes.fence (l := l.dropCache) (h.congr rfl rfl rfl)
  | computed hbook => exact h.setLive hbook rfl rfl

end Publishes

/-! ### The end of an attempt -/

/-- Height and time after a replay are those of the pairs, whatever the books. -/
theorem replay_height_time {s s' r r' : OrderBookState} {pairs : List BlockPair}
    (hheight : s.height = s'.height) (htime : s.time = s'.time) (h : replay s pairs = .ok r)
    (h' : replay s' pairs = .ok r') : r.height = r'.height ∧ r.time = r'.time := by
  induction pairs generalizing s s' with
  | nil =>
    cases h
    cases h'
    exact ⟨hheight, htime⟩
  | cons pair pairs ih =>
    obtain ⟨next, hnext, hrest⟩ := replay_cons_ok h
    obtain ⟨next', hnext', hrest'⟩ := replay_cons_ok h'
    cases applyUpdates_eq_ok_iff.mp hnext with
    | old ht hsame hn hold =>
      cases applyUpdates_eq_ok_iff.mp hnext' with
      | old => exact ih hheight htime hrest hrest'
      | next ht' hsame' hwrap hblock => omega
    | next ht hsame hwrap hblock =>
      cases applyUpdates_eq_ok_iff.mp hnext' with
      | old ht' hsame' hn' hold' => omega
      | next ht' =>
        refine ih ?_ ?_ hrest hrest'
        · rfl
        · exact Option.some.inj (ht.symm.trans ht')

/-- The books reached at a height, and the pairs left, which are the rest of the replay. -/
theorem replayTo_ok {height : ℕ} {s t r : OrderBookState} {cache rest : List BlockPair}
    (h : replayTo height s cache = .ok (some (t, rest))) (hr : replay s cache = .ok r) :
    height ≤ t.height ∧ replay t rest = .ok r := by
  induction cache generalizing s with
  | nil =>
    simp only [replayTo] at h
    split_ifs at h with hlt
    · cases h
    · cases h
      exact ⟨by omega, hr⟩
  | cons pair cache ih =>
    simp only [replayTo] at h
    split_ifs at h with hlt
    · obtain ⟨next, hnext, hrest⟩ := replay_cons_ok hr
      rw [hnext] at h
      exact ih h hrest
    · cases h
      exact ⟨by omega, hr⟩

section Finish

variable {l l' : OrderBookListener} {captured : Option OrderBookState} {epoch : BitVec 64} {bumps : ℕ}

/-- Popping queued pairs sends nothing. -/
theorem Publishes.caughtUp {s : OrderBookState} {out : Option OrderBookState} (h : Publishes l)
    (hc : CaughtUp l s l' out) : Publishes l' ∧ l'.orderBookState = l.orderBookState := by
  induction hc with
  | synced => exact ⟨h.congr rfl rfl rfl, rfl⟩
  | failed => exact ⟨h.congr rfl rfl rfl, rfl⟩
  | applied _ _ _ ih => exact ih (h.congr rfl rfl rfl)

/-- The first books after a gap: nothing sent since is to be followed. -/
theorem Publishes.begin (h : Publishes l) (hnone : l.orderBookState = none) (s : OrderBookState) :
    Publishes { l with orderBookState := some s } := by
  obtain ⟨log, h⟩ := h
  obtain ⟨hupdate, hsnapshot⟩ := h.fenced hnone
  refine ⟨log, h.sender, h.gapless, fun hs => (nomatch hs), ?_, ?_, h.fills⟩
  · intro t last _ hlast
    rw [hupdate] at hlast
    cases hlast
  · intro t last _ hlast
    rw [hsnapshot] at hlast
    cases hlast

/-- Books reloaded after a divergence come with a gap. -/
theorem Publishes.reload (h : Publishes l) (s : OrderBookState) :
    Publishes ({ l with orderBookState := some s }.send .gap) := by
  obtain ⟨log, h⟩ := h
  exact Publishing.sendGap (l := { l with orderBookState := some s }) h.sender h.gapless h.fills

/-- When an attempt ends in its epoch, the live books are those its cache reaches, unless the
epoch has come around after a fence that left no books. -/
theorem Tracked.reaches_or_none (ht : Tracked captured epoch bumps l)
    (hepoch : l.recoveryEpoch = epoch) : Reaches captured l ∨ l.orderBookState = none := by
  cases ht with
  | current he hreaches => exact .inl hreaches
  | dropped he =>
    rw [hepoch] at he
    simp at he
  | fenced hbumps he hlive => exact .inr hlive

/-- Books rebuilt from a snapshot and the rest of the cache are where the live books are. -/
theorem Reaches.rebuilt_height_time {state reached recovered : OrderBookState}
    {snapshot : Snapshots InnerL4Order} {height : ℕ} {rest : List BlockPair}
    (h : Reaches (some state) l)
    (hreached : replayTo height state l.takeCache.1 = .ok (some (reached, rest)))
    (hle : reached.height ≤ height)
    (hreplay : replay (.fromSnapshot snapshot height reached.time true l.ignoreSpot) rest =
      .ok recovered) :
    ∃ live, l.orderBookState = some live ∧ recovered.height = live.height ∧
      recovered.time = live.time := by
  cases h with
  | nothing hcaptured => cases hcaptured
  | @books _ live r cache hcaptured hlive hcache hheights _ hcacheReplay hagree htime =>
    obtain rfl := Option.some.inj hcaptured
    have hcached : l.takeCache.1 = cache := by rw [OrderBookListener.takeCache, hcache]; rfl
    rw [hcached] at hreached
    obtain ⟨hge, hrest⟩ := replayTo_ok hreached hcacheReplay
    have hat : (fromSnapshot snapshot height reached.time true l.ignoreSpot).height =
        reached.height := by
      change height = reached.height
      omega
    obtain ⟨hheight, ht⟩ := replay_height_time hat rfl hreplay hrest
    exact ⟨live, hlive, hheight.trans hagree.height, ht.trans htime⟩

theorem Tracked.none_of_captured (ht : Tracked none epoch bumps l)
    (hepoch : l.recoveryEpoch = epoch) : l.orderBookState = none := by
  obtain (⟨-, hlive⟩ | ⟨hsome⟩) | hlive := ht.reaches_or_none hepoch
  · exact hlive
  · cases hsome
  · exact hlive

theorem Publishes.finished {mapOrder : MapOrder} {snapshot : Snapshots InnerL4Order} {height : ℕ}
    (h : Publishes l) (ht : Tracked captured epoch bumps l)
    (hf : Finished mapOrder l epoch snapshot height captured l') : Publishes l' := by
  have htaken : Publishes l.takeCache.2 := h.congr rfl rfl rfl
  cases hf with
  | passed => exact h
  | begun hepoch hcaught =>
    obtain ⟨hafter, hlive⟩ := htaken.caughtUp hcaught
    exact hafter.begin (hlive.trans (ht.none_of_captured hepoch)) _
  | retry hepoch hcaught => exact (htaken.caughtUp hcaught).1
  | kept => exact htaken
  | reloaded => exact htaken.reload _
  | @refreshed state reached recovered rest hepoch hr hle hvalid hreplay =>
    -- empty books added: the sequence goes on where the live books were
    refine Publishes.publishViews ?_
    obtain hreaches | hlive := ht.reaches_or_none hepoch
    · obtain ⟨live, hlive, hheight, htime⟩ := hreaches.rebuilt_height_time hr hle hreplay
      exact htaken.setLive hlive hheight htime
    · exact htaken.begin hlive recovered

end Finish

/-! ### Runs -/

/-- An attempt in flight: the epoch and the state it captured. -/
structure SnapshotAttempt where
  epoch : BitVec 64
  state : Option OrderBookState

/-- The listener and the attempt in flight; a new one is only started when there is none. -/
structure FetchWorld where
  listener : OrderBookListener
  attempt : Option SnapshotAttempt

namespace FetchWorld

def start (limits : ResourceLimits) (ignoreSpot : Bool) (scope : CoinScope) : FetchWorld :=
  ⟨{ OrderBookListener.new (some []) ignoreSpot scope with limits := limits }, none⟩

inductive Step (serde : SerdeJson) : FetchWorld → FetchWorld → Prop
  | progress {w : FetchWorld} {queued : List EventBatch} {after : OrderBookListener}
      (h : Progress serde w.listener queued after) : Step serde w { w with listener := after }
  | fetchSnapshot {w : FetchWorld} (now : Instant) (h : w.attempt = none) :
      Step serde w
        ⟨w.listener.beginCaching now, some ⟨w.listener.recoveryEpoch, w.listener.cloneState⟩⟩
  | finishSnapshot {w : FetchWorld} {attempt : SnapshotAttempt} (mapOrder : MapOrder)
      (snapshot : Snapshots InnerL4Order) (height : ℕ) (h : w.attempt = some attempt) :
      Step serde w
        ⟨(w.listener.finishSnapshot mapOrder attempt.epoch attempt.state snapshot height).1, none⟩
  /-- The request or the reading of its answer failed. -/
  | failed (w : FetchWorld) : Step serde w ⟨w.listener.takeCache.2, none⟩
  /-- The epoch had passed when the answer came. -/
  | passed (w : FetchWorld) : Step serde w ⟨w.listener, none⟩

/-- What holds of every run. -/
structure Sound (w : FetchWorld) : Prop where
  publishes : Publishes w.listener
  tracked : ∀ attempt, w.attempt = some attempt →
    ∃ bumps, Tracked attempt.state attempt.epoch bumps w.listener

theorem step_sound {serde : SerdeJson} {w w' : FetchWorld} (h : Sound w)
    (hstep : Step serde w w') : Sound w' := by
  cases hstep with
  | progress hp =>
    refine ⟨h.publishes.progress hp, fun attempt ha => ?_⟩
    obtain ⟨bumps, hb⟩ := h.tracked attempt ha
    obtain ⟨more, -, hmore⟩ := hb.progress hp
    exact ⟨_, hmore⟩
  | fetchSnapshot now _ =>
    refine ⟨h.publishes.congr rfl rfl rfl, fun attempt ha => ?_⟩
    obtain rfl := Option.some.inj ha
    exact ⟨0, tracked_beginCaching _ now⟩
  | finishSnapshot mapOrder snapshot height ha =>
    obtain ⟨bumps, hb⟩ := h.tracked _ ha
    exact ⟨h.publishes.finished hb (finishSnapshot_finished mapOrder _ _ _ snapshot height),
      fun _ hnone => nomatch hnone⟩
  | failed => exact ⟨h.publishes.congr rfl rfl rfl, fun _ hnone => nomatch hnone⟩
  | passed => exact ⟨h.publishes, fun _ hnone => nomatch hnone⟩

theorem start_sound (limits : ResourceLimits) (ignoreSpot : Bool) (scope : CoinScope) :
    Sound (start limits ignoreSpot scope) := by
  refine ⟨⟨[], rfl, gapless_nil, fun _ => ⟨rfl, rfl⟩, ?_, ?_, ?_⟩, fun _ hnone => nomatch hnone⟩
  · exact fun _ _ hs => nomatch hs
  · exact fun _ _ hs => nomatch hs
  · exact fun _ hm => nomatch hm

theorem run_sound {serde : SerdeJson} {limits : ResourceLimits} {ignoreSpot : Bool}
    {scope : CoinScope} {w : FetchWorld}
    (h : Relation.ReflTransGen (Step serde) (start limits ignoreSpot scope) w) : Sound w := by
  induction h with
  | refl => exact start_sound limits ignoreSpot scope
  | tail _ hstep ih => exact step_sound ih hstep

/-- In every run the messages sent have no hidden gap. -/
theorem published_stream_gapless {serde : SerdeJson} {limits : ResourceLimits} {ignoreSpot : Bool}
    {scope : CoinScope} {w : FetchWorld}
    (h : Relation.ReflTransGen (Step serde) (start limits ignoreSpot scope) w) :
    ∃ log, w.listener.internalMessageTx = some log ∧ Gapless log := by
  obtain ⟨log, hlog⟩ := (run_sound h).publishes
  exact ⟨log, hlog.sender, hlog.gapless⟩

/-- The first snapshot fetched makes the live books. -/
theorem run_first_fetch (serde : SerdeJson) (ignoreSpot : Bool) (snapshot : Snapshots InnerL4Order) :
    Relation.ReflTransGen (Step serde) (start .DEFAULT ignoreSpot .all)
      ⟨((OrderBookListener.new (some []) ignoreSpot .all).initFromSnapshot snapshot 5).1, none⟩ := by
  obtain ⟨hvisit⟩ := MapOrder.nonempty
  have hfetching : Relation.ReflTransGen (Step serde) (start .DEFAULT ignoreSpot .all) _ :=
    .single (.fetchSnapshot 0 rfl)
  have hready := hfetching.tail (.finishSnapshot hvisit snapshot 5 rfl)
  exact hready

/-- A snapshot without books at height 5, and the block of height 6 during the next attempt. -/
theorem published_stream_gapless_block_six : ∃ (w : FetchWorld) (s : OrderBookState)
    (log : List InternalMessage), w.listener.orderBookState = some s ∧ s.height = 6 ∧
      w.listener.internalMessageTx = some log ∧ Gapless log := by
  obtain ⟨mid, last, s, hmid, hlast, hs, hheight, -⟩ := cachingAtFive_turns
  have hcaching := (run_first_fetch .ofEmptyBlock false ∅).tail (.fetchSnapshot 0 rfl)
  obtain ⟨log, hlog, hgapless⟩ := published_stream_gapless
    ((hcaching.tail (.progress (.turn _ _ _ hmid))).tail (.progress (.turn _ _ _ hlast)))
  exact ⟨_, s, log, hs, hheight, hlog, hgapless⟩

end FetchWorld
end OrderBookListener
end OrderBookServer
