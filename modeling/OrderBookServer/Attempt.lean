import OrderBookServer.ListenerSteps

/-!
# A snapshot attempt

An attempt captures the live books and the epoch and starts the cache under one
lock, and ends when a snapshot of the node has arrived. Meanwhile the stream goes
on: blocks are applied and cached, the cache may be dropped, the stream fenced.
Counting the bumps of the epoch tells the three apart: none, and the cache leads
from the captured books to the live ones; one, and at least the cache is gone;
more, and so are the live books.
-/
namespace OrderBookServer
namespace OrderBookListener

open OrderBookState

/-- The cache leads from the captured books to the live ones. -/
inductive Reaches (captured : Option OrderBookState) (l : OrderBookListener) : Prop
  | nothing (hcaptured : captured = none) (hlive : l.orderBookState = none) : Reaches captured l
  | books {s live r : OrderBookState} {cache : List BlockPair} (hcaptured : captured = some s)
      (hlive : l.orderBookState = some live) (hcache : l.fetchedSnapshotCache = some cache)
      (hheights : Consecutive s.height cache) (hreached : live.height = s.height + cache.length)
      (hreplay : replay s cache = .ok r) (hagree : Agree r live) (htime : r.time = live.time) :
      Reaches captured l

/-- What `bumps` bumps after the start of an attempt say about it. -/
inductive Tracked (captured : Option OrderBookState) (epoch : BitVec 64) :
    ℕ → OrderBookListener → Prop
  | current {l : OrderBookListener} (hepoch : l.recoveryEpoch = epoch) (h : Reaches captured l) :
      Tracked captured epoch 0 l
  | dropped {l : OrderBookListener} (hepoch : l.recoveryEpoch = epoch + 1)
      (hcache : l.fetchedSnapshotCache = none) (hstarted : l.snapshotCacheStarted = none) :
      Tracked captured epoch 1 l
  | fenced {l : OrderBookListener} {bumps : ℕ} (hbumps : 1 ≤ bumps)
      (hepoch : l.recoveryEpoch = epoch + BitVec.ofNat 64 bumps) (hlive : l.orderBookState = none) :
      Tracked captured epoch bumps l

/-- The fields an attempt depends on are those of `l`. -/
structure SameAttempt (l l' : OrderBookListener) : Prop where
  epoch : l'.recoveryEpoch = l.recoveryEpoch
  live : l'.orderBookState = l.orderBookState
  cache : l'.fetchedSnapshotCache = l.fetchedSnapshotCache
  started : l'.snapshotCacheStarted = l.snapshotCacheStarted

theorem Accepted.sameAttempt {l l' : OrderBookListener} {batch : EventBatch}
    {queued : List EventBatch} (h : Accepted l batch queued l') : SameAttempt l l' := by
  cases h <;> exact ⟨rfl, rfl, rfl, rfl⟩

section Tracked

variable {captured : Option OrderBookState} {epoch : BitVec 64} {bumps : ℕ}
  {l l' : OrderBookListener}

theorem Tracked.congr (h : Tracked captured epoch bumps l) (he : SameAttempt l l') :
    Tracked captured epoch bumps l' := by
  cases h with
  | current hepoch h =>
    refine .current (he.epoch.trans hepoch) ?_
    cases h with
    | nothing hcaptured hlive => exact .nothing hcaptured (he.live.trans hlive)
    | books hcaptured hlive hcache hheights hreached hreplay hagree htime =>
      exact .books hcaptured (he.live.trans hlive) (he.cache.trans hcache) hheights hreached
        hreplay hagree htime
  | dropped hepoch hcache hstarted =>
    exact .dropped (he.epoch.trans hepoch) (he.cache.trans hcache) (he.started.trans hstarted)
  | fenced hbumps hepoch hlive =>
    exact .fenced hbumps (he.epoch.trans hepoch) (he.live.trans hlive)

theorem Tracked.recoveryEpoch (h : Tracked captured epoch bumps l) :
    l.recoveryEpoch = epoch + BitVec.ofNat 64 bumps := by
  cases h with
  | current hepoch h => simpa using hepoch
  | dropped hepoch hcache hstarted => simpa using hepoch
  | fenced hbumps hepoch hlive => exact hepoch

/-- Live books that only changed their views are as good. -/
theorem Tracked.setLive (h : Tracked captured epoch bumps l) {s s' : OrderBookState}
    (hs : l.orderBookState = some s) (ha : Agree s' s) (htime : s'.time = s.time) :
    Tracked captured epoch bumps { l with orderBookState := some s' } := by
  cases h with
  | current hepoch h =>
    refine .current hepoch ?_
    cases h with
    | nothing hcaptured hlive => rw [hs] at hlive; cases hlive
    | books hcaptured hlive hcache hheights hreached hreplay hagree ht =>
      obtain rfl := Option.some.inj (hs.symm.trans hlive)
      exact .books hcaptured rfl hcache hheights (ha.height.trans hreached) hreplay
        (hagree.trans ha.symm) (ht.trans htime.symm)
  | dropped hepoch hcache hstarted => exact .dropped hepoch hcache hstarted
  | fenced hbumps hepoch hlive => rw [hs] at hlive; cases hlive

theorem Tracked.fence (h : Tracked captured epoch bumps l) :
    Tracked captured epoch (bumps + 1) l.fence :=
  .fenced (by omega) (by
    rw [BitVec.ofNat_add, ← BitVec.add_assoc, ← h.recoveryEpoch]
    rfl) rfl

/-- Dropping the cache is the first bump, or comes after a fence. -/
theorem Tracked.dropCache (h : Tracked captured epoch bumps l)
    (hopen : l.fetchedSnapshotCache ≠ none ∨ l.snapshotCacheStarted ≠ none) :
    Tracked captured epoch (bumps + 1) l.dropCache := by
  have hepoch : l.dropCache.recoveryEpoch = epoch + BitVec.ofNat 64 (bumps + 1) := by
    rw [BitVec.ofNat_add, ← BitVec.add_assoc, ← h.recoveryEpoch]
    rfl
  cases h with
  | current he h => exact .dropped (by simpa using hepoch) rfl rfl
  | dropped he hcache hstarted =>
    rcases hopen with hopen | hopen
    · exact absurd hcache hopen
    · exact absurd hstarted hopen
  | fenced hbumps he hlive => exact .fenced (by omega) hepoch hlive

/-- Advancing the live books bumps the epoch at most once, and only the first time. -/
theorem Tracked.stepped (h : Tracked captured epoch bumps l) (hs : Stepped l l') :
    Tracked captured epoch bumps l' ∨ (bumps = 0 ∧ Tracked captured epoch 1 l') := by
  cases hs with
  | notReady => exact .inl h
  | idle => exact .inl (h.congr ⟨rfl, rfl, rfl, rfl⟩)
  | stale => exact .inl (h.congr ⟨rfl, rfl, rfl, rfl⟩)
  | applied hbook hsync hgt happlied hrecorded =>
    cases h with
    | current hepoch h =>
      cases h with
      | nothing hcaptured hlive => rw [hbook] at hlive; cases hlive
      | books hcaptured hlive hcache hheights hreached hreplay hagree htime =>
        obtain rfl := Option.some.inj (hbook.symm.trans hlive)
        cases hrecorded with
        | uncached hnone => rw [hcache] at hnone; cases hnone
        | dropped hopen =>
          exact .inr ⟨rfl, .dropped (by simp [OrderBookListener.dropCache, send, hepoch]) rfl rfl⟩
        | cached hopen =>
          obtain rfl := Option.some.inj (hcache.symm.trans hopen)
          obtain ⟨rfl, hle⟩ | ⟨hheight, hblock, -⟩ := height_le_of_applyUpdates happlied
          · omega
          obtain ⟨r', hr', hagree', htime'⟩ := hagree.applyUpdates happlied
          refine .inl (.current hepoch (.books hcaptured rfl rfl ?_ ?_ (replay_snoc hreplay hr')
            hagree' (htime' htime)))
          · exact hheights.snoc (by rw [hblock, hreached])
          · rw [hheight, hreached, List.length_append, List.length_singleton, Nat.add_assoc]
    | dropped hepoch hcache hstarted =>
      cases hrecorded with
      | uncached hnone => exact .inl (.dropped hepoch hcache hstarted)
      | dropped hopen => rw [hcache] at hopen; cases hopen
      | cached hopen => rw [hcache] at hopen; cases hopen
    | fenced hbumps hepoch hlive => rw [hbook] at hlive; cases hlive

theorem Tracked.received (h : Tracked captured epoch bumps l) {batches : List EventBatch}
    (hr : Received l batches l') :
    Tracked captured epoch bumps l' ∨ (bumps = 0 ∧ Tracked captured epoch 1 l') := by
  induction hr generalizing bumps with
  | nil => exact .inl h
  | cons haccepted hstepped _ ih =>
    obtain hnext | ⟨hzero, hnext⟩ := (h.congr haccepted.sameAttempt).stepped hstepped
    · exact ih hnext
    · obtain hlast | ⟨hone, -⟩ := ih hnext
      · exact .inr ⟨hzero, hlast⟩
      · omega

theorem Tracked.broken (h : Tracked captured epoch bumps l) {batches : List EventBatch}
    (hb : Broken l batches l') :
    Tracked captured epoch bumps l' ∨ (bumps = 0 ∧ Tracked captured epoch 1 l') := by
  cases hb with
  | received hr => exact h.received hr
  | accepted hr ha =>
    obtain hlast | ⟨hzero, hlast⟩ := h.received hr
    · exact .inl (hlast.congr ha.sameAttempt)
    · exact .inr ⟨hzero, hlast.congr ha.sameAttempt⟩

theorem Tracked.publishViews (h : Tracked captured epoch bumps l) :
    Tracked captured epoch bumps l.publishViews := by
  unfold OrderBookListener.publishViews OrderBookListener.l2Snapshots
  cases hbook : l.orderBookState with
  | none => exact h
  | some book =>
    obtain ⟨hagree, htime⟩ := agree_l2Snapshots book true
    have hlive := h.setLive hbook hagree htime
    dsimp only
    cases (book.l2Snapshots true).1 with
    | none => exact hlive
    | some out => exact hlive.congr ⟨rfl, rfl, rfl, rfl⟩

/-- Whatever happens outside the attempt, at most two bumps later it is tracked. -/
theorem Tracked.progress {serde : SerdeJson} {queued : List EventBatch}
    (h : Tracked captured epoch bumps l) (hp : Progress serde l queued l') :
    ∃ more ≤ 2, Tracked captured epoch (bumps + more) l' := by
  cases progress_cases hp with
  | kept => exact ⟨0, by omega, h⟩
  | published hr =>
    obtain hlast | ⟨rfl, hlast⟩ := h.received hr
    · exact ⟨0, by omega, hlast.publishViews⟩
    · exact ⟨1, by omega, hlast.publishViews⟩
  | broken hb =>
    obtain hlast | ⟨rfl, hlast⟩ := h.broken hb
    · exact ⟨1, by omega, hlast.fence⟩
    · exact ⟨2, by omega, hlast.fence⟩
  | fenced => exact ⟨1, by omega, h.fence⟩
  | aged hstarted => exact ⟨1, by omega, h.dropCache (.inr hstarted)⟩
  | agedFenced hstarted => exact ⟨2, by omega, (h.dropCache (.inr hstarted)).fence⟩
  | computed hbook => exact ⟨0, by omega, h.setLive hbook (agree_computeL2Snapshot _).1 rfl⟩

end Tracked

/-- The steps of the listener while an attempt waits for its snapshot, with the
number of times the epoch was bumped. -/
inductive Interleaved (serde : SerdeJson) : OrderBookListener → ℕ → OrderBookListener → Prop
  | start (l : OrderBookListener) : Interleaved serde l 0 l
  | step {l mid after : OrderBookListener} {bumps : ℕ} {queued : List EventBatch}
      (h : Interleaved serde l bumps mid) (hp : Progress serde mid queued after) :
      Interleaved serde l (bumps + (after.recoveryEpoch - mid.recoveryEpoch).toNat) after

/-- The count of a step is the number of its bumps: they are too few to wrap around. -/
theorem Tracked.bumps {captured : Option OrderBookState} {epoch : BitVec 64} {bumps more : ℕ}
    {l l' : OrderBookListener} (h : Tracked captured epoch bumps l)
    (h' : Tracked captured epoch (bumps + more) l') (hmore : more ≤ 2) :
    (l'.recoveryEpoch - l.recoveryEpoch).toNat = more := by
  rw [h.recoveryEpoch, h'.recoveryEpoch, BitVec.ofNat_add]
  have hdiff : epoch + (BitVec.ofNat 64 bumps + BitVec.ofNat 64 more) -
      (epoch + BitVec.ofNat 64 bumps) = BitVec.ofNat 64 more := by
    rw [← BitVec.add_assoc, BitVec.add_comm (epoch + _), BitVec.add_sub_cancel]
  rw [hdiff, BitVec.toNat_ofNat]
  omega

theorem tracked_beginCaching (l : OrderBookListener) (now : Instant) :
    Tracked l.cloneState l.recoveryEpoch 0 (l.beginCaching now) := by
  refine .current rfl ?_
  cases hlive : l.orderBookState with
  | none => exact .nothing hlive hlive
  | some s => exact .books hlive hlive rfl (.nil _) rfl rfl (.refl s) rfl

theorem Interleaved.tracked {serde : SerdeJson} {captured : Option OrderBookState}
    {epoch : BitVec 64} {bumps : ℕ} {l l' : OrderBookListener} (h : Interleaved serde l bumps l')
    (hstart : Tracked captured epoch 0 l) : Tracked captured epoch bumps l' := by
  induction h with
  | start => exact hstart
  | step _ hp ih =>
    obtain ⟨more, hmore, hnext⟩ := ih.progress hp
    rwa [ih.bumps hnext hmore]

/-- Within fewer than 2^64 bumps an epoch that is current was never bumped. -/
theorem Tracked.reaches {captured : Option OrderBookState} {epoch : BitVec 64} {bumps : ℕ}
    {l : OrderBookListener} (h : Tracked captured epoch bumps l) (hfew : bumps < 2 ^ 64)
    (hepoch : l.recoveryEpoch = epoch) : Reaches captured l := by
  have hzero : BitVec.ofNat 64 bumps = 0 := by
    have hadd := h.recoveryEpoch.symm.trans hepoch
    simpa using hadd
  have hbumps : bumps = 0 := by
    have := congrArg BitVec.toNat hzero
    rw [BitVec.toNat_ofNat, Nat.mod_eq_of_lt hfew] at this
    simpa using this
  cases h with
  | current he h => exact h
  | dropped => omega
  | fenced hpos => omega

/-- An attempt ends in one of two ways. With its epoch current, the cache replays the
captured books to the live ones, or there are neither; else ending it does nothing. -/
theorem attempt_replays_or_does_nothing {serde : SerdeJson} {before after : OrderBookListener}
    {started : Instant} {bumps : ℕ}
    (hrun : Interleaved serde (before.beginCaching started) bumps after) (hfew : bumps < 2 ^ 64) :
    (after.recoveryEpoch = before.recoveryEpoch →
      (before.cloneState = none → after.orderBookState = none) ∧
      ∀ s, before.cloneState = some s → ∃ live cache r,
        after.orderBookState = some live ∧ after.fetchedSnapshotCache = some cache ∧
        cache.map (fun p => p.1.blockNumber) = List.range' (s.height + 1) (live.height - s.height) ∧
        s.height ≤ live.height ∧ replay s cache = .ok r ∧
        r.orderBook = live.orderBook ∧ r.height = live.height ∧ r.time = live.time) ∧
    (after.recoveryEpoch ≠ before.recoveryEpoch → ∀ mapOrder snapshot height,
      after.finishSnapshot mapOrder before.recoveryEpoch before.cloneState snapshot height =
        (after, .ok ())) := by
  refine ⟨fun hepoch => ?_, fun hepoch _ _ _ => if_pos hepoch⟩
  cases (hrun.tracked (tracked_beginCaching before started)).reaches hfew hepoch with
  | nothing hcaptured hlive =>
    refine ⟨fun _ => hlive, fun s hs => ?_⟩
    rw [hcaptured] at hs
    cases hs
  | books hcaptured hlive hcache hheights hreached hreplay hagree htime =>
    refine ⟨fun hnone => ?_, fun s hs => ?_⟩
    · rw [hcaptured] at hnone
      cases hnone
    · obtain rfl := Option.some.inj (hcaptured.symm.trans hs)
      refine ⟨_, _, _, hlive, hcache, ?_, by omega, hreplay, hagree.orderBook, hagree.height, htime⟩
      rw [hheights, hreached, Nat.add_sub_cancel_left]

/-- An attempt during which the block of height 6 arrives. -/
theorem attempt_replays_or_does_nothing_block_six : ∃ (before after : OrderBookListener)
    (s live r : OrderBookState) (cache : List BlockPair), before.cloneState = some s ∧
      after.orderBookState = some live ∧ after.fetchedSnapshotCache = some cache ∧
      live.height = 6 ∧ cache.map (fun p => p.1.blockNumber) = [6] ∧ replay s cache = .ok r ∧
      r.orderBook = live.orderBook ∧ r.height = live.height ∧ r.time = live.time := by
  obtain ⟨mid, last, live, hmid, hlast, hlive, hheight, hepoch, hepoch'⟩ := cachingAtFive_turns
  have hrun := ((Interleaved.start cachingAtFive).step (.turn _ _ _ hmid)).step (.turn _ _ _ hlast)
  have hbumps : 0 + (mid.recoveryEpoch - cachingAtFive.recoveryEpoch).toNat +
      (last.recoveryEpoch - mid.recoveryEpoch).toNat < 2 ^ 64 := by
    rw [hepoch, hepoch']
    decide +kernel
  obtain ⟨-, hbooks⟩ := (attempt_replays_or_does_nothing hrun hbumps).1 hepoch'
  obtain ⟨live', cache, r, hlive', hcache, hheights, -, hreplay, hbook, hreached, htime⟩ :=
    hbooks _ rfl
  obtain rfl := Option.some.inj (hlive.symm.trans hlive')
  refine ⟨readyAt 5, last, _, live, r, cache, rfl, hlive, hcache, hheight, ?_, hreplay, hbook, hreached,
    htime⟩
  rw [hheights, hheight]
  decide +kernel

end OrderBookListener
end OrderBookServer
