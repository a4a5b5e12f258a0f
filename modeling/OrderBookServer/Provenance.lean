import OrderBookServer.ListenerSteps

/-!
# Where the live books come from

In every run the live books are those of a snapshot that was given, with the blocks
of the heights after it applied in order. The invariant keeps this of the live
books, and of every queued or cached block that it was accepted from its source;
a call either keeps it, extends the history by one block, starts a new history
from a snapshot, or discards the live books.
-/
namespace OrderBookServer
namespace OrderBookListener

open OrderBookState

/-- A run so far: the listener, the states captured, the snapshots given to it with
their heights, and the batches its queues took in. -/
structure World where
  listener : OrderBookListener
  captured : List (Option OrderBookState)
  given : List (Snapshots InnerL4Order × ℕ)
  accepted : List EventBatch

namespace World

/-- The listener as the server starts it, under any limits. -/
def start (limits : ResourceLimits) (internalMessageTx : Option (List InternalMessage))
    (ignoreSpot : Bool) (scope : CoinScope) : World :=
  ⟨{ OrderBookListener.new internalMessageTx ignoreSpot scope with limits := limits }, [], [], []⟩

/-- One step. A snapshot attempt ends with any epoch, any captured state and any
snapshot, and whatever its outcome the listener goes on. -/
inductive Step (serde : SerdeJson) : World → World → Prop
  | progress {w : World} {queued : List EventBatch} {after : OrderBookListener}
      (h : Progress serde w.listener queued after) :
      Step serde w { w with listener := after, accepted := w.accepted ++ queued }
  | beginCaching (w : World) (now : Instant) :
      Step serde w { w with listener := w.listener.beginCaching now }
  | cloneState (w : World) :
      Step serde w { w with captured := w.listener.cloneState :: w.captured }
  | takeCache (w : World) : Step serde w { w with listener := w.listener.takeCache.2 }
  | finishSnapshot {w : World} (mapOrder : MapOrder) (epoch : BitVec 64)
      {state : Option OrderBookState} (snapshot : Snapshots InnerL4Order) (height : ℕ)
      (h : state ∈ w.captured) :
      Step serde w { w with
        listener := (w.listener.finishSnapshot mapOrder epoch state snapshot height).1
        given := (snapshot, height) :: w.given }

end World

/-- A pair of blocks of one height, each taken in from its source. -/
structure Paired (accepted : List EventBatch) (pair : BlockPair) : Prop where
  statuses : .orders pair.1 ∈ accepted
  diffs : .bookDiffs pair.2 ∈ accepted
  height : pair.1.blockNumber = pair.2.blockNumber

theorem Paired.mono {accepted more : List EventBatch} {pair : BlockPair}
    (h : Paired accepted pair) (hsub : accepted ⊆ more) : Paired more pair :=
  ⟨hsub h.statuses, hsub h.diffs, h.height⟩

/-- A state is a snapshot at a height with accepted pairs of the heights after it. -/
structure History (accepted : List EventBatch) (ignoreSpot : Bool)
    (snapshot : Snapshots InnerL4Order) (height : ℕ) (pairs : List BlockPair)
    (s : OrderBookState) : Prop where
  paired : ∀ p ∈ pairs, Paired accepted p
  consecutive : Consecutive height pairs
  reached : s.height = height + pairs.length
  replayed : ∃ r, replay (fromSnapshot snapshot height 0 true ignoreSpot) pairs = .ok r ∧ Agree r s

/-- The state has a history from a snapshot that was given. -/
def Derived (given : List (Snapshots InnerL4Order × ℕ)) (accepted : List EventBatch)
    (ignoreSpot : Bool) (s : OrderBookState) : Prop :=
  ∃ e ∈ given, ∃ pairs, History accepted ignoreSpot e.1 e.2 pairs s

section Derived

variable {given : List (Snapshots InnerL4Order × ℕ)} {accepted more : List EventBatch}
  {ignoreSpot : Bool} {r s : OrderBookState}

theorem Derived.mono (h : Derived given accepted ignoreSpot s) {e : Snapshots InnerL4Order × ℕ}
    (hsub : accepted ⊆ more) : Derived (e :: given) more ignoreSpot s := by
  obtain ⟨e', he', pairs, hp⟩ := h
  exact ⟨e', List.mem_cons_of_mem _ he', pairs, fun p hm => (hp.paired p hm).mono hsub,
    hp.consecutive, hp.reached, hp.replayed⟩

theorem Derived.accept (h : Derived given accepted ignoreSpot s) (hsub : accepted ⊆ more) :
    Derived given more ignoreSpot s := by
  obtain ⟨e, he, pairs, hp⟩ := h
  exact ⟨e, he, pairs, fun p hm => (hp.paired p hm).mono hsub, hp.consecutive, hp.reached,
    hp.replayed⟩

theorem Derived.congr (h : Derived given accepted ignoreSpot s) (ha : Agree s r) :
    Derived given accepted ignoreSpot r := by
  obtain ⟨e, he, pairs, hp⟩ := h
  obtain ⟨t, ht, hagree⟩ := hp.replayed
  exact ⟨e, he, pairs, hp.paired, hp.consecutive, ha.height ▸ hp.reached, t, ht, hagree.trans ha⟩

/-- A snapshot and the pairs cached after it. -/
theorem derived_of_replay {snapshot : Snapshots InnerL4Order} {height time : ℕ}
    {pairs : List BlockPair} (hgiven : (snapshot, height) ∈ given)
    (hpaired : ∀ p ∈ pairs, Paired accepted p)
    (h : replay (fromSnapshot snapshot height time true ignoreSpot) pairs = .ok s) :
    Derived given accepted ignoreSpot s := by
  obtain ⟨qs, hsub, hc, hheight, hreplay, -⟩ := exists_consecutive_of_replay h
  have hstart : Agree (fromSnapshot snapshot height 0 true ignoreSpot)
      (fromSnapshot snapshot height time true ignoreSpot) := ⟨rfl, rfl, rfl⟩
  obtain ⟨r, hr, hagree, -⟩ := replay_agree hstart hreplay
  exact ⟨_, hgiven, qs, fun p hm => hpaired p (hsub.subset hm), hc, hheight, r, hr, hagree⟩

/-- One more block extends the history, or changes nothing. -/
theorem Derived.applyUpdates {pair : BlockPair} (h : Derived given accepted ignoreSpot s)
    (hpair : Paired accepted pair) (ha : s.applyUpdates pair.1 pair.2 = (r, .ok ())) :
    Derived given accepted ignoreSpot r := by
  obtain ⟨e, he, pairs, hp⟩ := h
  obtain ⟨t, ht, hagree⟩ := hp.replayed
  obtain ⟨rfl, -⟩ | ⟨hheight, hblock, -⟩ := height_le_of_applyUpdates ha
  · exact ⟨e, he, pairs, hp⟩
  · obtain ⟨t', ht', hagree', -⟩ := hagree.applyUpdates ha
    refine ⟨e, he, pairs ++ [pair], ?_, ?_, ?_, t', replay_snoc ht ht', hagree'⟩
    · intro p hm
      rcases List.mem_append.mp hm with hm | hm
      · exact hp.paired p hm
      · rw [List.mem_singleton.mp hm]
        exact hpair
    · exact hp.consecutive.snoc (by rw [hblock, hp.reached])
    · rw [hheight, hp.reached, List.length_append, List.length_singleton, Nat.add_assoc]

end Derived

/-- What holds of the listener in every run. -/
structure Sourced (given : List (Snapshots InnerL4Order × ℕ)) (accepted : List EventBatch)
    (ignoreSpot : Bool) (l : OrderBookListener) : Prop where
  spot : l.ignoreSpot = ignoreSpot
  statuses : ∀ b ∈ l.orderStatusCache.batches, .orders b ∈ accepted
  diffs : ∀ b ∈ l.orderDiffCache.batches, .bookDiffs b ∈ accepted
  cached : ∀ cache, l.fetchedSnapshotCache = some cache → ∀ p ∈ cache, Paired accepted p
  live : ∀ s, l.orderBookState = some s → Derived given accepted ignoreSpot s

section Steps

variable {given : List (Snapshots InnerL4Order × ℕ)} {accepted more : List EventBatch}
  {ignoreSpot : Bool} {self mid after : OrderBookListener}

theorem Sourced.mono (h : Sourced given accepted ignoreSpot self) (hsub : accepted ⊆ more) :
    Sourced given more ignoreSpot self where
  spot := h.spot
  statuses b hb := hsub (h.statuses b hb)
  diffs b hb := hsub (h.diffs b hb)
  cached cache hc p hp := (h.cached cache hc p hp).mono hsub
  live s hs := (h.live s hs).accept hsub

/-- The live books may be replaced by a state that agrees with them. -/
theorem Sourced.setLive (h : Sourced given accepted ignoreSpot self) {s : OrderBookState}
    (hs : Derived given accepted ignoreSpot s) :
    Sourced given accepted ignoreSpot { self with orderBookState := some s } :=
  ⟨h.spot, h.statuses, h.diffs, h.cached, fun _ he => Option.some.inj he ▸ hs⟩

/-- The pair found at the fronts was accepted, and so is what stays queued. -/
theorem Sourced.synced (h : Sourced given accepted ignoreSpot self)
    {statuses : BatchQueue NodeDataOrderStatus} {diffs : BatchQueue NodeDataOrderDiff}
    {pair : Option BlockPair}
    (hsync : Synced self.orderStatusCache self.orderDiffCache pair statuses diffs) :
    Sourced given accepted ignoreSpot
      { self with orderStatusCache := statuses, orderDiffCache := diffs } ∧
    ∀ p, pair = some p → Paired accepted p := by
  obtain ⟨hs, hd, hpair⟩ := hsync.sublists
  refine ⟨⟨h.spot, fun b hb => h.statuses b (hs.subset hb), fun b hb => h.diffs b (hd.subset hb),
    h.cached, h.live⟩, fun p hp => ?_⟩
  obtain ⟨h1, h2, hheight⟩ := hpair p hp
  exact ⟨h.statuses _ h1, h.diffs _ h2, hheight⟩

theorem Sourced.accept {batch : EventBatch} {queued : List EventBatch}
    (h : Sourced given accepted ignoreSpot self) (ha : Accepted self batch queued mid) :
    Sourced given (accepted ++ queued) ignoreSpot mid := by
  have hmono := h.mono (List.subset_append_left accepted queued)
  cases ha with
  | old => exact hmono
  | fills => exact ⟨hmono.spot, hmono.statuses, hmono.diffs, hmono.cached, hmono.live⟩
  | orders hpushed =>
    cases hpushed with
    | new hnew hbatches hlast =>
      refine ⟨hmono.spot, fun b hb => ?_, hmono.diffs, hmono.cached, hmono.live⟩
      rw [hbatches] at hb
      rcases List.mem_append.mp hb with hb | hb
      · exact hmono.statuses b hb
      · rw [List.mem_singleton.mp hb]
        exact List.mem_append_right _ (List.mem_singleton_self _)
  | bookDiffs hpushed =>
    cases hpushed with
    | new hnew hbatches hlast =>
      refine ⟨hmono.spot, hmono.statuses, fun b hb => ?_, hmono.cached, hmono.live⟩
      rw [hbatches] at hb
      rcases List.mem_append.mp hb with hb | hb
      · exact hmono.diffs b hb
      · rw [List.mem_singleton.mp hb]
        exact List.mem_append_right _ (List.mem_singleton_self _)

theorem Sourced.recorded {pair : BlockPair} (h : Sourced given accepted ignoreSpot self)
    (hpair : Paired accepted pair) (hr : Recorded self pair after) :
    Sourced given accepted ignoreSpot after := by
  cases hr with
  | uncached hcache => exact ⟨h.spot, h.statuses, h.diffs, h.cached, h.live⟩
  | dropped hcache => exact ⟨h.spot, h.statuses, h.diffs, fun _ hc => (nomatch hc), h.live⟩
  | cached hcache =>
    refine ⟨h.spot, h.statuses, h.diffs, fun cache hc p hp => ?_, h.live⟩
    obtain rfl := Option.some.inj hc
    rcases List.mem_append.mp hp with hp | hp
    · exact h.cached _ hcache p hp
    · rw [List.mem_singleton.mp hp]
      exact hpair

theorem Sourced.stepped (h : Sourced given accepted ignoreSpot self) (hs : Stepped self after) :
    Sourced given accepted ignoreSpot after := by
  cases hs with
  | notReady => exact h
  | idle hbook hsync => exact (h.synced hsync).1
  | stale hbook hsync hle => exact (h.synced hsync).1
  | applied hbook hsync hgt happlied hrecorded =>
    obtain ⟨hkept, hpair⟩ := h.synced hsync
    exact (hkept.setLive ((h.live _ hbook).applyUpdates (hpair _ rfl) happlied)).recorded
      (hpair _ rfl) hrecorded

theorem Sourced.received {batches : List EventBatch} (h : Sourced given accepted ignoreSpot self)
    (hr : Received self batches after) :
    Sourced given (accepted ++ batches) ignoreSpot after := by
  induction hr generalizing accepted with
  | nil => rwa [List.append_nil]
  | cons haccepted hstepped _ ih =>
    rw [← List.append_assoc]
    exact ih ((h.accept haccepted).stepped hstepped)

theorem Sourced.broken {batches : List EventBatch} (h : Sourced given accepted ignoreSpot self)
    (hb : Broken self batches after) : Sourced given (accepted ++ batches) ignoreSpot after := by
  cases hb with
  | received hr => exact h.received hr
  | accepted hr ha =>
    rw [← List.append_assoc]
    exact (h.received hr).accept ha

/-- Nothing is left to hold after a fence. -/
theorem Sourced.fence (h : Sourced given accepted ignoreSpot self) :
    Sourced given accepted ignoreSpot self.fence where
  spot := h.spot
  statuses _ hb := nomatch hb
  diffs _ hb := nomatch hb
  cached _ hc := nomatch hc
  live _ hs := nomatch hs

theorem Sourced.takeCache (h : Sourced given accepted ignoreSpot self) :
    Sourced given accepted ignoreSpot self.takeCache.2 :=
  ⟨h.spot, h.statuses, h.diffs, fun _ hc => (nomatch hc), h.live⟩

theorem Sourced.publishViews (h : Sourced given accepted ignoreSpot self) :
    Sourced given accepted ignoreSpot self.publishViews := by
  unfold OrderBookListener.publishViews OrderBookListener.l2Snapshots
  cases hbook : self.orderBookState with
  | none => exact h
  | some book =>
    have hlive := h.setLive ((h.live book hbook).congr (agree_l2Snapshots book true).1.symm)
    dsimp only
    cases (book.l2Snapshots true).1 with
    | none => exact hlive
    | some out => exact ⟨hlive.spot, hlive.statuses, hlive.diffs, hlive.cached, hlive.live⟩

theorem Sourced.dropCache (h : Sourced given accepted ignoreSpot self) :
    Sourced given accepted ignoreSpot self.dropCache :=
  ⟨h.spot, h.statuses, h.diffs, fun _ hc => (nomatch hc), h.live⟩

theorem Sourced.progress {serde : SerdeJson} {queued : List EventBatch}
    (h : Sourced given accepted ignoreSpot self) (hp : Progress serde self queued after) :
    Sourced given (accepted ++ queued) ignoreSpot after := by
  cases progress_cases hp with
  | kept => exact h.mono (List.subset_append_left _ _)
  | published hr => exact (h.received hr).publishViews
  | broken hb => exact (h.broken hb).fence
  | fenced =>
    rw [List.append_nil]
    exact h.fence
  | aged =>
    rw [List.append_nil]
    exact h.dropCache
  | agedFenced =>
    rw [List.append_nil]
    exact h.dropCache.fence
  | computed hbook =>
    rw [List.append_nil]
    exact h.setLive ((h.live _ hbook).congr (agree_computeL2Snapshot _).1.symm)

/-- Bringing new books up to the queued pairs keeps both. -/
theorem Sourced.caughtUp {s : OrderBookState} {out : Option OrderBookState}
    (h : Sourced given accepted ignoreSpot self) (hs : Derived given accepted ignoreSpot s)
    (hc : CaughtUp self s after out) :
    Sourced given accepted ignoreSpot after ∧
      ∀ t, out = some t → Derived given accepted ignoreSpot t := by
  induction hc with
  | synced hsync => exact ⟨(h.synced hsync).1, fun t ht => Option.some.inj ht ▸ hs⟩
  | failed hsync => exact ⟨(h.synced hsync).1, fun t ht => nomatch ht⟩
  | applied hsync happlied _ ih =>
    obtain ⟨hkept, hpair⟩ := h.synced hsync
    exact ih hkept (hs.applyUpdates (hpair _ rfl) happlied)

theorem Sourced.give (h : Sourced given accepted ignoreSpot self)
    (e : Snapshots InnerL4Order × ℕ) : Sourced (e :: given) accepted ignoreSpot self :=
  ⟨h.spot, h.statuses, h.diffs, h.cached, fun s hs => (h.live s hs).mono (List.Subset.refl _)⟩

/-- The pairs a replay leaves are a part of the cache. -/
theorem replayTo_subset {height : ℕ} {s t : OrderBookState} {cache rest : List BlockPair}
    (h : replayTo height s cache = .ok (some (t, rest))) : rest ⊆ cache := by
  induction cache generalizing s with
  | nil =>
    simp only [replayTo] at h
    split_ifs at h
    · cases h
    · cases h
      exact List.Subset.refl _
  | cons pair cache ih =>
    simp only [replayTo] at h
    split_ifs at h
    · rcases happly : s.applyUpdates pair.1 pair.2 with ⟨next, fault | ⟨⟩⟩
      · rw [happly] at h
        cases h
      · rw [happly] at h
        exact List.subset_cons_of_subset _ (ih h)
    · cases h
      exact List.Subset.refl _

/-- However a snapshot attempt ends, the live books are kept or start from the
snapshot given. -/
theorem Sourced.finished {mapOrder : MapOrder} {epoch : BitVec 64} {state : Option OrderBookState}
    {snapshot : Snapshots InnerL4Order} {height : ℕ} (h : Sourced given accepted ignoreSpot self)
    (hf : Finished mapOrder self epoch snapshot height state after) :
    Sourced ((snapshot, height) :: given) accepted ignoreSpot after := by
  have hgiven : (snapshot, height) ∈ (snapshot, height) :: given := List.mem_cons_self
  have htaken := (h.give (snapshot, height)).takeCache
  have hstart : Derived ((snapshot, height) :: given) accepted ignoreSpot
      (fromSnapshot snapshot height 0 true self.ignoreSpot) := by
    rw [h.spot]
    have hnone : replay (fromSnapshot snapshot height 0 true ignoreSpot) [] = .ok _ := rfl
    exact derived_of_replay hgiven (by simp) hnone
  have hcache : ∀ p ∈ self.takeCache.1, Paired accepted p := by
    intro p hp
    cases hc : self.fetchedSnapshotCache with
    | none => simp [OrderBookListener.takeCache, hc] at hp
    | some cache => exact h.cached cache hc p (by simpa [OrderBookListener.takeCache, hc] using hp)
  cases hf with
  | passed => exact h.give (snapshot, height)
  | begun hepoch hcaught =>
    obtain ⟨hafter, hnew⟩ := htaken.caughtUp hstart hcaught
    exact hafter.setLive (hnew _ rfl)
  | retry hepoch hcaught => exact (htaken.caughtUp hstart hcaught).1
  | kept => exact htaken
  | refreshed hepoch hreached hle hvalid hreplay =>
    rw [h.spot] at hreplay
    exact (htaken.setLive (derived_of_replay hgiven
      (fun p hp => hcache p (replayTo_subset hreached hp)) hreplay)).publishViews
  | reloaded hepoch hreached hle hvalid hreplay =>
    rw [h.spot] at hreplay
    have hlive := htaken.setLive (derived_of_replay hgiven
      (fun p hp => hcache p (replayTo_subset hreached hp)) hreplay)
    exact ⟨hlive.spot, hlive.statuses, hlive.diffs, hlive.cached, hlive.live⟩

end Steps

namespace World

theorem step_sourced {serde : SerdeJson} {ignoreSpot : Bool} {w w' : World}
    (h : Sourced w.given w.accepted ignoreSpot w.listener) (hstep : Step serde w w') :
    Sourced w'.given w'.accepted ignoreSpot w'.listener := by
  cases hstep with
  | progress hp => exact h.progress hp
  | beginCaching now =>
    refine ⟨h.spot, h.statuses, h.diffs, fun cache hc p hp => ?_, h.live⟩
    cases hc
    cases hp
  | cloneState => exact h
  | takeCache => exact h.takeCache
  | finishSnapshot mapOrder epoch snapshot height hs =>
    exact h.finished (finishSnapshot_finished mapOrder w.listener epoch _ snapshot height)

theorem run_sourced {serde : SerdeJson} {limits : ResourceLimits}
    {internalMessageTx : Option (List InternalMessage)} {ignoreSpot : Bool} {scope : CoinScope}
    {w : World}
    (h : Relation.ReflTransGen (Step serde) (start limits internalMessageTx ignoreSpot scope) w) :
    Sourced w.given w.accepted ignoreSpot w.listener := by
  induction h with
  | refl => exact ⟨rfl, fun _ hb => (nomatch hb), fun _ hb => (nomatch hb), fun _ hc => (nomatch hc),
      fun _ hs => (nomatch hs)⟩
  | tail _ hstep ih => exact step_sourced ih hstep

/-- In every run, the live books are those of a snapshot that was given with the
accepted pairs of exactly the heights after it applied in order. -/
theorem live_books_from_snapshot {serde : SerdeJson} {limits : ResourceLimits}
    {internalMessageTx : Option (List InternalMessage)} {ignoreSpot : Bool} {scope : CoinScope}
    {w : World} {s : OrderBookState}
    (hrun : Relation.ReflTransGen (Step serde) (start limits internalMessageTx ignoreSpot scope) w)
    (hs : w.listener.orderBookState = some s) :
    ∃ snapshot height pairs, (snapshot, height) ∈ w.given ∧
      (∀ p ∈ pairs, .orders p.1 ∈ w.accepted ∧ .bookDiffs p.2 ∈ w.accepted) ∧
      pairs.map (fun p => p.1.blockNumber) = List.range' (height + 1) (s.height - height) ∧
      pairs.map (fun p => p.2.blockNumber) = List.range' (height + 1) (s.height - height) ∧
      height ≤ s.height ∧
      ∃ r, replay (fromSnapshot snapshot height 0 true ignoreSpot) pairs = .ok r ∧
        r.height = s.height ∧ r.orderBook = s.orderBook := by
  obtain ⟨⟨snapshot, height⟩, hgiven, pairs, hp⟩ := (run_sourced hrun).live s hs
  obtain ⟨r, hr, hagree⟩ := hp.replayed
  have hlength : s.height - height = pairs.length := by
    have := hp.reached
    omega
  have hstatuses := hp.consecutive
  rw [Consecutive, ← hlength] at hstatuses
  have hdiffs : pairs.map (fun p => p.2.blockNumber) = pairs.map fun p => p.1.blockNumber :=
    List.map_congr_left fun p hm => (hp.paired p hm).height.symm
  refine ⟨snapshot, height, pairs, hgiven, fun p hm => ?_, hstatuses, hdiffs.trans hstatuses, ?_,
    r, hr, hagree.height, hagree.orderBook⟩
  · exact ⟨(hp.paired p hm).statuses, (hp.paired p hm).diffs⟩
  · have := hp.reached
    omega

/-- The first snapshot given makes the live books. -/
theorem run_first_snapshot (serde : SerdeJson) (ignoreSpot : Bool) (snapshot : Snapshots InnerL4Order) :
    ∃ w, Relation.ReflTransGen (Step serde) (start .DEFAULT (some []) ignoreSpot .all) w ∧
      w.given = [(snapshot, 5)] ∧ w.accepted = [] ∧
      w.listener = ((OrderBookListener.new (some []) ignoreSpot .all).initFromSnapshot snapshot 5).1 ∧
      w.listener.orderBookState = some (fromSnapshot snapshot 5 0 true ignoreSpot) := by
  obtain ⟨hvisit⟩ := MapOrder.nonempty
  have hcaptured : Relation.ReflTransGen (Step serde)
      (start .DEFAULT (some []) ignoreSpot .all) _ := .single (.cloneState _)
  exact ⟨_, hcaptured.tail (.finishSnapshot hvisit 0 snapshot 5 (List.mem_singleton_self _)),
    rfl, rfl, rfl, rfl⟩

/-- Over a bid that rests another one is opened. -/
theorem run_opened_bid (ignoreSpot : Bool) : ∃ (w : World) (s : OrderBookState),
    Relation.ReflTransGen (Step (openingReader "BTC")) (start .DEFAULT (some []) ignoreSpot .all) w ∧
      w.given = [(oneBid, 5)] ∧
      (∀ batch ∈ w.accepted, batch = .orders openedBid.1 ∨ batch = .bookDiffs openedBid.2) ∧
      w.listener.orderBookState = some s ∧ s.height = 6 ∧
      (s.orderBook.book ⟨"BTC"⟩).toSnapshot.bids.map InnerL4Order.oid = [5, 7] := by
  obtain ⟨mid, last, s, hmid, hlast, hscope, hs, hbooks⟩ := cachingOneBid_turns ignoreSpot
  obtain ⟨w, hready, hgiven, haccepted, hw, -⟩ :=
    run_first_snapshot (openingReader "BTC") ignoreSpot oneBid
  have hcaching := hready.tail (.beginCaching _ 0)
  rw [cachingOneBid, ← hw] at hmid
  refine ⟨_, s, (hcaching.tail (.progress (.turn _ _ _ hmid))).tail (.progress (.turn _ _ _ hlast)),
    hgiven, fun batch hbatch => ?_, hs, hbooks⟩
  simp only [haccepted, List.nil_append, List.mem_append] at hbatch
  obtain hbatch | hbatch := hbatch
  · have hparse := parseLine_of_mem_queuedData (openStatusLine "BTC") (by decide +kernel) hbatch
    have hall : (w.listener.beginCaching 0).scope = .all := by
      rw [hw]
      rfl
    rw [hall, parseLine_openedBid.1] at hparse
    exact .inl (Except.ok.inj hparse).symm
  · have hparse := parseLine_of_mem_queuedData btcDiffLine (by decide +kernel) hbatch
    rw [hscope, parseLine_openedBid.2] at hparse
    exact .inr (Except.ok.inj hparse).symm

/-- The books of a snapshot, and a block. -/
theorem live_books_from_snapshot_block_six : ∃ (w : World) (s : OrderBookState), s.height = 6 ∧
    (s.orderBook.book ⟨"BTC"⟩).toSnapshot.bids.map InnerL4Order.oid = [5, 7] ∧
    ∃ snapshot height pairs, (snapshot, height) ∈ w.given ∧
      (∀ p ∈ pairs, .orders p.1 ∈ w.accepted ∧ .bookDiffs p.2 ∈ w.accepted) ∧
      pairs.map (fun p => p.1.blockNumber) = List.range' (height + 1) (s.height - height) ∧
      pairs.map (fun p => p.2.blockNumber) = List.range' (height + 1) (s.height - height) ∧
      height ≤ s.height ∧
      ∃ r, replay (fromSnapshot snapshot height 0 true false) pairs = .ok r ∧
        r.height = s.height ∧ r.orderBook = s.orderBook := by
  obtain ⟨w, s, hrun, -, -, hs, hheight, hbids⟩ := run_opened_bid false
  exact ⟨w, s, hheight, hbids, live_books_from_snapshot hrun hs⟩

end World
end OrderBookListener
end OrderBookServer
