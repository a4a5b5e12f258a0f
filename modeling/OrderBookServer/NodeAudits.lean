import OrderBookServer.Broadcasts
import OrderBookServer.NodeLedger

/-!
# Audits against the node

Books that are captured for an audit are those of the node at their height, and so are they
when they have been replayed to the height of the snapshot that arrives. So no snapshot of the
node is found to differ: an audit that ends while the books are live leaves them with the orders
they had, and sends no gap.
-/
namespace OrderBookServer

open OrderBookState

namespace OrderBookListener

/-- Books that were captured were made of what was given and accepted. -/
theorem World.run_captured {serde : SerdeJson} {limits : ResourceLimits}
    {internalMessageTx : Option (List InternalMessage)} {ignoreSpot : Bool} {scope : CoinScope}
    {w : World}
    (h : Relation.ReflTransGen (Step serde) (start limits internalMessageTx ignoreSpot scope) w) :
    ∀ s, some s ∈ w.captured → Derived w.given w.accepted ignoreSpot s := by
  induction h with
  | refl => simp [start]
  | tail hrun hstep ih =>
    cases hstep with
    | progress hp => exact fun s hs => (ih s hs).accept (List.subset_append_left _ _)
    | beginCaching now => exact ih
    | cloneState =>
      intro s hs
      obtain hs | hs := List.mem_cons.mp hs
      · exact (run_sourced hrun).live s hs.symm
      · exact ih s hs
    | takeCache => exact ih
    | finishSnapshot mapOrder epoch snapshot height hstate =>
      exact fun s hs => (ih s hs).mono (List.Subset.refl _)

variable {ignoreSpot : Bool} {node : NodeLedger ignoreSpot} {self : OrderBookListener}
  {s r live reached : OrderBookState} {cache : List BlockPair}
  {snapshot : Snapshots InnerL4Order} {height : ℕ}

/-- What an audit leaves of live books that are those of the node. -/
structure FindsNone (node : NodeLedger ignoreSpot) (listener : OrderBookListener)
    (live : OrderBookState) (out : OrderBookListener × Except Fault Unit) : Prop where
  ok : out.2 = .ok ()
  sent : ∃ more, out.1.internalMessageTx = listener.internalMessageTx.map (· ++ more) ∧
    more.any InternalMessage.isGap = false
  live : ∃ live', out.1.orderBookState = some live' ∧ live'.height = live.height ∧
    Same (node.books live.height) live'

theorem FindsNone.kept (hlive : self.orderBookState = some live)
    (hsame : Same (node.books live.height) live) : FindsNone node self live (self, .ok ()) where
  ok := rfl
  sent := ⟨[], by cases self.internalMessageTx <;> simp, rfl⟩
  live := ⟨live, hlive, rfl, hsame⟩

/-- A snapshot that shows the orders of the node is consistent with books that hold them. -/
theorem consistent_of_same (hplain : node.ShowsPlainly snapshot height)
    (hsame : Same (node.books height) reached) (mapOrder : MapOrder) :
    ∃ consistency, validateSnapshotConsistency mapOrder
      reached.computeSnapshot.snapshot snapshot ignoreSpot = .ok consistency := by
  have hspot : (node.books height).ignoreSpot = ignoreSpot :=
    (node.fed_books hplain.1).ignoreSpot_eq
  have hbooks : SameBooks ignoreSpot reached.computeSnapshot.snapshot snapshot := by
    intro coin hkept
    rw [snapshotBook_computeSnapshot, hplain.2 coin hkept]
    exact (hsame.orders coin (by rwa [hspot])).toSnapshot.symm
  by_cases hadded : ∀ coin, ¬ Added ignoreSpot reached.computeSnapshot.snapshot snapshot coin
  · exact ⟨.equal, validateSnapshotConsistency_eq_ok_iff.mpr ⟨hbooks, by simpa using hadded⟩⟩
  · exact ⟨.emptyBooksAdded,
      validateSnapshotConsistency_eq_ok_iff.mpr ⟨hbooks, by simpa using hadded⟩⟩

/-- Captured books of the node that its blocks take to a height are those of the node there, and
the pairs that are left are its blocks above. -/
theorem Reached.of_node (hr : Reached s r cache height reached)
    (hcaptured : Same (node.books s.height) s)
    (hcache : cache = node.blocksAfter s.height cache.length)
    (hconsecutive : Consecutive s.height cache) (htip : s.height + cache.length ≤ node.tip) :
    Same (node.books height) reached ∧
    pairsAbove height cache = node.blocksAfter height (pairsAbove height cache).length ∧
    height + (pairsAbove height cache).length = s.height + cache.length := by
  have hlength := congrArg List.length hr.split
  rw [List.length_append] at hlength
  have hupTo := height_of_replay (.of_append (hr.split ▸ hconsecutive)) hr.upTo
  rw [hr.atHeight] at hupTo
  have hparts : pairsUpTo height cache ++ pairsAbove height cache =
      node.blocksAfter s.height (pairsUpTo height cache).length ++
        node.blocksAfter height (pairsAbove height cache).length := by
    refine (hr.split.symm.trans hcache).trans ?_
    rw [hlength, node.blocksAfter_add, ← hupTo]
  obtain ⟨hbelow, habove⟩ := List.append_inj hparts (by simp)
  refine ⟨?_, habove, by omega⟩
  obtain ⟨t, ht, hsame⟩ := node.replay_same (n := (pairsUpTo height cache).length)
    (by omega) hcaptured
  rw [← hbelow, hr.upTo, Except.ok.injEq] at ht
  rw [ht, hupTo]
  exact hsame

/-- Captured books of the node, with its blocks up to the live ones: no snapshot of the node
differs from them. -/
theorem reconcileSnapshot_of_node (mapOrder : MapOrder) (hspot : self.ignoreSpot = ignoreSpot)
    (hlive : self.orderBookState = some live) (hsame : Same (node.books live.height) live)
    (htip : live.height ≤ node.tip) (hcaptured : Same (node.books s.height) s)
    (hcache : cache = node.blocksAfter s.height cache.length)
    (hheight : live.height = s.height + cache.length)
    (hreplay : replay s cache = .ok r)
    (hplain : node.ShowsPlainly snapshot height) :
    FindsNone node self live
      (reconcileSnapshot mapOrder self (some s) snapshot height cache) := by
  have hconsecutive : Consecutive s.height cache := by
    rw [hcache]
    exact node.consecutive_blocksAfter (by omega)
  by_cases hout : height < s.height ∨ r.height < height
  · rw [reconcileSnapshot_out_of_replay mapOrder hreplay hconsecutive hout]
    exact .kept hlive hsame
  obtain ⟨hge, hle⟩ := not_or.mp hout
  obtain ⟨reached, hr⟩ := exists_reached hconsecutive hreplay (Nat.not_lt.mp hge)
    (Nat.not_lt.mp hle)
  obtain ⟨hreached, hafter, habove⟩ := hr.of_node hcaptured hcache hconsecutive (by omega)
  obtain ⟨consistency, hvalid⟩ := consistent_of_same hplain hreached mapOrder
  rw [reconcileSnapshot_of_reached hr, hspot, hvalid]
  cases consistency with
  | equal => exact .kept hlive hsame
  | emptyBooksAdded =>
    obtain ⟨recovered, hrecovered, hlast⟩ := node.replay_same
      (n := (pairsAbove height cache).length) (by omega)
      (hplain.shows.same reached.time)
    rw [← hafter, ← hspot] at hrecovered
    rw [habove, ← hheight] at hlast
    obtain ⟨hok, live', hlive', hagree, -, views, hsent⟩ := rebuild_ok true hrecovered
    have hsame' := hlast.congr (.refl _) hagree
    exact ⟨hok, ⟨[_], hsent, rfl⟩, live', hlive',
      hsame'.height.trans (node.height_books htip), hsame'⟩

end OrderBookListener

namespace HlListen
open OrderBookListener

variable {serde : SerdeJson} {changes : Disk → Disk → Prop} {s s' : HlListen}
  {out : List Happening} {limits : SourceLimits} {roots : List (PathBuf × EventSource)}
  {ignoreSpot : Bool} {scope : CoinScope} {disk : Disk} {now : Instant}
  {node : NodeLedger ignoreSpot} {book : OrderBookState}
  {snapshot : Snapshots InnerL4Order} {height : ℕ}

/-- A snapshot is given by the end of the task that asked for it. -/
theorem finish_of_given (hstep : Step serde changes s [.given snapshot height] s') :
    ∃ before after epoch state mapOrder, s.snapshots = before ++ .answered epoch state :: after ∧
      s' = { s with
        listener := (s.listener.finishSnapshot mapOrder epoch state snapshot height).1
        snapshots := before ++ .finished
          (taskOutcome (s.listener.finishSnapshot mapOrder epoch state snapshot height).2) ::
            after } := by
  generalize hout : [Happening.given snapshot height] = out at hstep
  cases hstep with
  | @finish before after epoch state mapOrder file _ _ htask hfile =>
    cases hout
    exact ⟨before, after, epoch, state, mapOrder, htask, rfl⟩
  | @call _ c rest clock now hcalls hnow hcall =>
    cases c <;> simp only [noted] at hout
    case maintain => split at hout <;> cases hout
    all_goals cases hout
  | _ => cases hout

/-- Books captured in a run that is fed by a node are the node's. -/
theorem FedBy.captured {w : World} (hfed : FedBy node out)
    (hw : Sourcing serde limits.toResourceLimits ignoreSpot scope out s w)
    {captured : OrderBookState} (hcaptured : some captured ∈ w.captured) :
    captured.height ≤ node.tip ∧ Same (node.books captured.height) captured := by
  obtain ⟨e, he, pairs, hhistory⟩ := World.run_captured hw.run captured hcaptured
  rw [hw.accepted] at hhistory
  exact NodeLedger.same_of_history hhistory hfed.blocks (hfed.snapshots e (hw.given e he).1)

/-- An audit of live books, whenever it was begun and whatever has been taken in since. -/
theorem FedBy.finishSnapshot (mapOrder : MapOrder) {attempt : SnapshotAttempt}
    (hfed : FedBy node out)
    (h : Run (Step serde changes) (starts limits roots ignoreSpot scope disk now) out s)
    (hbook : s.listener.orderBookState = some book) (hattempt : s.attempt = some attempt)
    (hplain : node.ShowsPlainly snapshot height) :
    FindsNone node s.listener book
      (s.listener.finishSnapshot mapOrder attempt.epoch attempt.state snapshot height) := by
  obtain ⟨htip, hsame⟩ := hfed.live h hbook
  by_cases hepoch : s.listener.recoveryEpoch ≠ attempt.epoch
  · rw [OrderBookListener.finishSnapshot, if_pos hepoch]
    exact .kept hbook hsame
  rw [OrderBookListener.finishSnapshot, if_neg hepoch]
  obtain ⟨bumps, htracked⟩ := (FetchWorld.run_sound (run_fetchWorld h)).tracked attempt hattempt
  obtain hreaches | hnone := htracked.reaches_or_none (not_not.mp hepoch)
  · cases hreaches with
    | nothing _ hnone => cases hbook.symm.trans hnone
    | @books captured live r cache hcaptured hlive hcache hheights hreached hreplay =>
      obtain rfl : live = book := Option.some.inj (hlive.symm.trans hbook)
      obtain ⟨w, hw⟩ := run_sourcing h
      have hcapture := hw.captured attempt hattempt
      rw [hcaptured] at hcapture
      have hpaired := (World.run_sourced hw.run).cached cache (hw.listener ▸ hcache)
      have hreports : ∀ p ∈ cache, node.Reports (.orders p.1) ∧ node.Reports (.bookDiffs p.2) ∧
          p.1.blockNumber = p.2.blockNumber := by
        intro p hp
        have hpaired := hw.accepted ▸ hpaired p hp
        exact ⟨hfed.blocks _ hpaired.statuses, hfed.blocks _ hpaired.diffs, hpaired.height⟩
      have htaken : s.listener.takeCache.1 = cache :=
        congrArg (Option.getD · []) hcache
      rw [hcaptured, htaken]
      have hfinds : FindsNone node s.listener.takeCache.2 live _ :=
        reconcileSnapshot_of_node mapOrder (run_config h).2.1 hlive hsame htip
          (hfed.captured hw hcapture).2 (NodeLedger.eq_blocksAfter hheights hreports) hreached
          hreplay hplain
      exact ⟨hfinds.ok, hfinds.sent, hfinds.live⟩
  · cases hbook.symm.trans hnone

/-- While what the listener takes in is of the node, a snapshot of the node that arrives finds
the live books as they should be, whatever was written, read, fenced or begun before: the task
does not fail, no gap is sent, and live books are kept at their height with the orders that the
node had there. -/
theorem audits_find_none
    (h : Run (Step serde changes) (starts limits roots ignoreSpot scope disk now) out s)
    (hfed : FedBy node out) (hbook : s.listener.orderBookState = some book)
    (hplain : node.ShowsPlainly snapshot height)
    (hstep : Step serde changes s [.given snapshot height] s') :
    s'.snapshots = [.finished (.ok ())] ∧
      (∃ more, s'.listener.internalMessageTx = s.listener.internalMessageTx.map (· ++ more) ∧
        more.any InternalMessage.isGap = false) ∧
      ∃ book', s'.listener.orderBookState = some book' ∧ book'.height = book.height ∧
        Same (node.books book.height) book' := by
  obtain ⟨before, after, epoch, state, mapOrder, htask, rfl⟩ := finish_of_given hstep
  obtain ⟨hattempt, rfl, rfl⟩ := attempt_of_single (run_single h) htask
  have hfinds := hfed.finishSnapshot mapOrder h hbook hattempt hplain
  refine ⟨?_, hfinds.sent, hfinds.live⟩
  show [SnapshotTask.finished (taskOutcome _)] = _
  rw [hfinds.ok]
  rfl

/-- The second task is answered with the snapshot of height 5 once the block has been read. -/
theorem audits_find_none_block_six : ∃ (after : OrderBookListener) (s' : HlListen),
    after.orderBookState.map OrderBookState.height = some 6 ∧
    s'.snapshots = [.finished (.ok ())] ∧
      (∃ more, s'.listener.internalMessageTx = after.internalMessageTx.map (· ++ more) ∧
        more.any InternalMessage.isGap = false) ∧
      ∃ book', s'.listener.orderBookState = some book' ∧ book'.height = 6 ∧
        Same (bidNode.books 6) book' := by
  obtain ⟨mapOrder⟩ := MapOrder.nonempty
  obtain ⟨⟨before, after⟩, hturns, hepoch, hbefore, -, hsix, -⟩ := bidTurns_cached
  obtain ⟨out, more, s, hrun, htask, rfl, hscope, hgiven, hmore, hqueued, hqueued'⟩ :=
    run_cached hturns
  obtain ⟨book, hbook, hheight⟩ := Option.map_eq_some_iff.mp hsix
  have hfed : FedBy bidNode (out ++ more) :=
    fedBy_bidNode (show bidListener.scope = .all from rfl)
      (show (before.beginCaching 0).scope = .all from hscope) hgiven hqueued hmore hqueued'
  have hplain : bidNode.ShowsPlainly bidSnapshot 5 :=
    NodeLedger.showsPlainly_of_fromSnapshot (Nat.le_succ 5) rfl snapshotBook_bidSnapshot
  have hanswered := hrun.tail (@Step.answer _ _ _ [] [] _ _ htask (hepoch.trans hbefore.symm))
  rw [List.append_nil] at hanswered
  have hfile : loadSnapshotsFromStr restingReader restingText s.listener.scope =
      .ok (5, bidSnapshot) := by
    rw [(run_config hrun).2.2]
    exact restingReader_loads
  obtain ⟨hdone, hsent, book', hbook', hkept, hsame⟩ := audits_find_none hanswered hfed hbook hplain
    (@Step.finish _ _ _ [] [] _ _ mapOrder restingText _ _ rfl hfile)
  rw [hheight] at hkept hsame
  exact ⟨s.listener, _, hsix, hdone, hsent, book', hbook', hkept, hsame⟩

end HlListen
end OrderBookServer
