import OrderBookServer.LiveBooks
import OrderBookServer.SourceLines

/-!
# Views and blocks that are sent

Views are sent of the live books only, as they are at that moment, and blocks as they are
applied. So with every views that were ever sent there are books that were live in the run and
have them, and every block that was sent had been accepted from both its sources.
-/
namespace OrderBookServer
namespace OrderBookListener
open OrderBookState

variable {given : List (Snapshots InnerL4Order × ℕ)} {accepted later : List EventBatch}
  {ignoreSpot : Bool} {s : OrderBookState} {self mid after : OrderBookListener}

/-- The views of a message are those of books that are made from what was given, and its blocks
were accepted. -/
def Shows (given : List (Snapshots InnerL4Order × ℕ)) (accepted : List EventBatch)
    (ignoreSpot : Bool) : InternalMessage → Prop
  | .snapshot views time height =>
    ∃ s, Live given accepted ignoreSpot s ∧ s.computeL2Snapshot.1 = (time, height, views)
  | .l4BookUpdates diffs statuses => Paired accepted (statuses, diffs)
  | _ => True

theorem Shows.mono {more : List (Snapshots InnerL4Order × ℕ)} {m : InternalMessage}
    (h : Shows given accepted ignoreSpot m) (hgiven : given ⊆ more) (haccepted : accepted ⊆ later) :
    Shows more later ignoreSpot m := by
  cases m with
  | snapshot views time height =>
    obtain ⟨s, hs, hviews⟩ := h
    exact ⟨s, hs.mono hgiven haccepted, hviews⟩
  | l4BookUpdates diffs statuses =>
    have hpaired : Paired accepted (statuses, diffs) := h
    exact hpaired.mono haccepted
  | _ => trivial

abbrev ShowsLive (given : List (Snapshots InnerL4Order × ℕ)) (accepted : List EventBatch)
    (ignoreSpot : Bool) (self : OrderBookListener) : Prop :=
  Sends (Shows given accepted ignoreSpot) self

theorem ShowsLive.mono {more : List (Snapshots InnerL4Order × ℕ)}
    (h : ShowsLive given accepted ignoreSpot self) (hgiven : given ⊆ more)
    (haccepted : accepted ⊆ later) : ShowsLive more later ignoreSpot self :=
  fun log hlog m hm => (h log hlog m hm).mono hgiven haccepted

theorem ShowsLive.accept {batch : EventBatch} {queued : List EventBatch}
    (h : ShowsLive given accepted ignoreSpot self) (ha : Accepted self batch queued mid) :
    ShowsLive given accepted ignoreSpot mid := by
  cases ha with
  | old => exact h
  | orders => exact h.congr rfl
  | bookDiffs => exact h.congr rfl
  | @fills batch =>
    have hmid : ShowsLive given accepted ignoreSpot
        { self with lastFill := some batch.blockNumber } := h.congr rfl
    exact hmid.send (m := .fills batch) trivial

theorem ShowsLive.recorded {pair : BlockPair} (hself : ShowsLive given accepted ignoreSpot self)
    (hpair : Paired accepted pair) (hr : Recorded self pair after) :
    ShowsLive given accepted ignoreSpot after := by
  have hupdates : Shows given accepted ignoreSpot (.l4BookUpdates pair.2 pair.1) := hpair
  cases hr with
  | uncached => exact hself.send hupdates
  | dropped =>
    have hdropped : ShowsLive given accepted ignoreSpot self.dropCache := hself.congr rfl
    exact hdropped.send hupdates
  | @cached cache bytes =>
    have hcached : ShowsLive given accepted ignoreSpot { self with
        snapshotCacheBytes := bytes
        fetchedSnapshotCache := some (cache ++ [pair]) } := hself.congr rfl
    exact hcached.send hupdates

theorem ShowsLive.stepped (hsrc : Sourced given accepted ignoreSpot self)
    (h : ShowsLive given accepted ignoreSpot self) (hs : Stepped self after) :
    ShowsLive given accepted ignoreSpot after := by
  cases hs with
  | notReady => exact h
  | idle => exact h.congr rfl
  | stale => exact h.congr rfl
  | @applied book next pair statuses diffs _ hbook hsync hgt happlied hrecorded =>
    have hnext : ShowsLive given accepted ignoreSpot { self with
        orderStatusCache := statuses
        orderDiffCache := diffs
        orderBookState := some next } := h.congr rfl
    exact hnext.recorded ((hsrc.synced hsync).2 pair rfl) hrecorded

theorem ShowsLive.received {batches : List EventBatch}
    (hsrc : Sourced given accepted ignoreSpot self) (h : ShowsLive given accepted ignoreSpot self)
    (hr : Received self batches after) :
    ShowsLive given (accepted ++ batches) ignoreSpot after := by
  induction hr generalizing accepted with
  | nil => rwa [List.append_nil]
  | @cons _ mid next _ batch queued batches haccepted hstepped _ ih =>
    have hmid := hsrc.accept haccepted
    have hshown := (h.accept haccepted).mono (List.Subset.refl given)
      (List.subset_append_left accepted queued)
    rw [← List.append_assoc]
    exact ih (hmid.stepped hstepped) (hshown.stepped hmid hstepped)

theorem ShowsLive.broken {batches : List EventBatch}
    (hsrc : Sourced given accepted ignoreSpot self) (h : ShowsLive given accepted ignoreSpot self)
    (hb : Broken self batches after) :
    ShowsLive given (accepted ++ batches) ignoreSpot after := by
  cases hb with
  | received hr => exact h.received hsrc hr
  | @accepted mid _ batch queued batches hr ha =>
    rw [← List.append_assoc]
    exact ((h.received hsrc hr).accept ha).mono (List.Subset.refl given)
      (List.subset_append_left _ queued)

/-- Views that are published are those of the live books. -/
theorem ShowsLive.publishViews (h : ShowsLive given accepted ignoreSpot self)
    (hlive : HoldsLive given accepted ignoreSpot self) :
    ShowsLive given accepted ignoreSpot self.publishViews := by
  unfold OrderBookListener.publishViews OrderBookListener.l2Snapshots
  cases hbook : self.orderBookState with
  | none => exact h
  | some book =>
    have hquiet : ShowsLive given accepted ignoreSpot
        { self with orderBookState := some (book.l2Snapshots true).2 } := h.congr rfl
    dsimp only
    cases hviews : (book.l2Snapshots true).1 with
    | none => exact hquiet
    | some out =>
      refine hquiet.send ⟨book, hlive book hbook, ?_⟩
      unfold OrderBookState.l2Snapshots at hviews
      split_ifs at hviews
      simpa [OrderBookState.computeL2Snapshot] using hviews

theorem ShowsLive.progress {serde : SerdeJson} {queued : List EventBatch}
    (hsrc : Sourced given accepted ignoreSpot self)
    (hlive : HoldsLive given accepted ignoreSpot self)
    (h : ShowsLive given accepted ignoreSpot self) (hp : Progress serde self queued after) :
    ShowsLive given (accepted ++ queued) ignoreSpot after := by
  have hmono := h.mono (List.Subset.refl given) (List.subset_append_left accepted queued)
  cases progress_cases hp with
  | kept => exact hmono
  | published hr => exact (h.received hsrc hr).publishViews (.received hsrc hlive hr)
  | broken hb => exact (h.broken hsrc hb).fence trivial
  | fenced => exact hmono.fence trivial
  | aged => exact hmono.congr rfl
  | agedFenced =>
    have hdropped : ShowsLive given (accepted ++ []) ignoreSpot self.dropCache := hmono.congr rfl
    exact hdropped.fence trivial
  | computed => exact hmono.congr rfl

theorem CaughtUp.internalMessageTx_eq {out : Option OrderBookState}
    (hc : CaughtUp self s after out) :
    after.internalMessageTx = self.internalMessageTx := by
  induction hc with
  | synced => rfl
  | failed => rfl
  | applied _ _ _ ih => exact ih

theorem Sourced.paired_takeCache (hsrc : Sourced given accepted ignoreSpot self) :
    ∀ p ∈ self.takeCache.1, Paired accepted p := by
  intro p hp
  cases hc : self.fetchedSnapshotCache with
  | none => simp [OrderBookListener.takeCache, hc] at hp
  | some cache =>
    exact hsrc.cached cache hc p (by simpa [OrderBookListener.takeCache, hc] using hp)

theorem ShowsLive.finished {mapOrder : MapOrder} {epoch : BitVec 64} {state : Option OrderBookState}
    {snapshot : Snapshots InnerL4Order} {height : ℕ} (hsrc : Sourced given accepted ignoreSpot self)
    (h : ShowsLive given accepted ignoreSpot self)
    (hf : Finished mapOrder self epoch snapshot height state after) :
    ShowsLive ((snapshot, height) :: given) accepted ignoreSpot after := by
  have hmono := h.mono (List.subset_cons_self (snapshot, height) given) (List.Subset.refl accepted)
  cases hf with
  | passed => exact hmono
  | begun hepoch hcaught => exact hmono.congr hcaught.internalMessageTx_eq
  | retry hepoch hcaught => exact hmono.congr hcaught.internalMessageTx_eq
  | kept => exact hmono.congr rfl
  | @refreshed state reached recovered rest hepoch hreached hle hvalid hreplay =>
    have hquiet : ShowsLive ((snapshot, height) :: given) accepted ignoreSpot
        { self.takeCache.2 with orderBookState := some recovered } := hmono.congr rfl
    have hstart : Live ((snapshot, height) :: given) accepted ignoreSpot
        (.fromSnapshot snapshot height reached.time true self.ignoreSpot) := by
      rw [hsrc.spot]
      exact .fromSnapshot reached.time List.mem_cons_self
    have hrecovered := hstart.replay
      (fun p hp => hsrc.paired_takeCache p (replayTo_subset hreached hp)) hreplay
    exact hquiet.publishViews fun s hs => Option.some.inj hs ▸ hrecovered
  | @reloaded state reached recovered =>
    have hquiet : ShowsLive ((snapshot, height) :: given) accepted ignoreSpot
        { self.takeCache.2 with orderBookState := some recovered } := hmono.congr rfl
    exact hquiet.send (m := .gap) trivial

/-- In every run the views that were sent are those of books that were made from the snapshots
given and the pairs accepted. -/
theorem World.run_shows {serde : SerdeJson} {limits : ResourceLimits} {scope : CoinScope}
    {w : World}
    (h : Relation.ReflTransGen (Step serde) (start limits (some []) ignoreSpot scope) w) :
    ShowsLive w.given w.accepted ignoreSpot w.listener := by
  induction h with
  | refl =>
    intro log hlog m hm
    simp only [start, OrderBookListener.new, Option.some.injEq] at hlog
    simp [← hlog] at hm
  | tail hrun hstep ih =>
    have hsrc := run_sourced hrun
    cases hstep with
    | progress hp => exact .progress hsrc (run_live hrun) ih hp
    | beginCaching now => exact ih
    | cloneState => exact ih
    | takeCache => exact ih
    | finishSnapshot mapOrder epoch snapshot height hs =>
      exact .finished hsrc ih (finishSnapshot_finished mapOrder _ epoch _ snapshot height)

end OrderBookListener

namespace HlListen
open OrderBookListener

variable {serde : SerdeJson} {s : HlListen} {out : List Happening} {limits : SourceLimits}
  {roots : List (PathBuf × EventSource)} {ignoreSpot : Bool} {scope : CoinScope}
  {disk : Disk} {now : Instant}

/-- Every block that was sent had been queued by both its sources. -/
theorem run_blocks {changes : Disk → Disk → Prop}
    (h : Run (Step serde changes) (starts limits roots ignoreSpot scope disk now) out s)
    {log : List InternalMessage} (hlog : s.listener.internalMessageTx = some log)
    {diffs : Batch NodeDataOrderDiff} {statuses : Batch NodeDataOrderStatus}
    (hblock : .l4BookUpdates diffs statuses ∈ log) : Paired (queuedBy out) (statuses, diffs) := by
  obtain ⟨w, hw⟩ := run_sourcing h
  have hshown := World.run_shows hw.run log (hw.listener ▸ hlog) _ hblock
  rw [hw.accepted] at hshown
  exact hshown

end HlListen
end OrderBookServer
