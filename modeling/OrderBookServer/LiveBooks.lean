import OrderBookServer.Provenance

/-!
# How the live books are made

Whatever happens to the listener, its live books were made from a snapshot that was given
by applying accepted pairs and reading views. An invariant of states that these keep
therefore holds of the live books in every run.
-/
namespace OrderBookServer
namespace OrderBookListener
open OrderBookState

/-- What the live books of a run are made by. -/
inductive Live (given : List (Snapshots InnerL4Order × ℕ)) (accepted : List EventBatch)
    (ignoreSpot : Bool) : OrderBookState → Prop
  | fromSnapshot {snapshot : Snapshots InnerL4Order} {height : ℕ} (time : ℕ)
      (h : (snapshot, height) ∈ given) :
      Live given accepted ignoreSpot (fromSnapshot snapshot height time true ignoreSpot)
  | applyUpdates {s s' : OrderBookState} {pair : BlockPair} (h : Live given accepted ignoreSpot s)
      (hpair : Paired accepted pair) (ok : s.applyUpdates pair.1 pair.2 = (s', .ok ())) :
      Live given accepted ignoreSpot s'
  | computeL2Snapshot {s : OrderBookState} (h : Live given accepted ignoreSpot s) :
      Live given accepted ignoreSpot s.computeL2Snapshot.2
  | l2Snapshots {s : OrderBookState} (h : Live given accepted ignoreSpot s) (prevent : Bool) :
      Live given accepted ignoreSpot (s.l2Snapshots prevent).2

/-- The live books, if there are any, are made so. -/
def HoldsLive (given : List (Snapshots InnerL4Order × ℕ)) (accepted : List EventBatch)
    (ignoreSpot : Bool) (self : OrderBookListener) : Prop :=
  ∀ s, self.orderBookState = some s → Live given accepted ignoreSpot s

section

variable {given more : List (Snapshots InnerL4Order × ℕ)} {accepted later : List EventBatch}
  {ignoreSpot : Bool} {s t : OrderBookState}

theorem Live.mono (h : Live given accepted ignoreSpot s) (hgiven : given ⊆ more)
    (haccepted : accepted ⊆ later) : Live more later ignoreSpot s := by
  induction h with
  | fromSnapshot time h => exact .fromSnapshot time (hgiven h)
  | applyUpdates _ hpair ok ih => exact .applyUpdates ih (hpair.mono haccepted) ok
  | computeL2Snapshot _ ih => exact .computeL2Snapshot ih
  | l2Snapshots _ prevent ih => exact .l2Snapshots ih prevent

theorem Live.replay (h : Live given accepted ignoreSpot s) {pairs : List BlockPair}
    (hpairs : ∀ p ∈ pairs, Paired accepted p) (hr : replay s pairs = .ok t) :
    Live given accepted ignoreSpot t := by
  induction pairs generalizing s with
  | nil =>
    cases hr
    exact h
  | cons p pairs ih =>
    obtain ⟨s', ok, hrest⟩ := replay_cons_ok hr
    exact ih (.applyUpdates h (hpairs p List.mem_cons_self) ok)
      (fun q hq => hpairs q (List.mem_cons_of_mem p hq)) hrest

theorem Live.ignoreSpot_eq (h : Live given accepted ignoreSpot s) : s.ignoreSpot = ignoreSpot := by
  induction h with
  | fromSnapshot => rfl
  | applyUpdates _ _ ok ih =>
    cases applyUpdates_eq_ok_iff.mp ok with
    | old => exact ih
    | next => exact ih
  | computeL2Snapshot _ ih => exact ih
  | l2Snapshots _ prevent ih => exact (agree_l2Snapshots _ prevent).1.ignoreSpot.trans ih

variable {self mid after : OrderBookListener}

theorem HoldsLive.mono (h : HoldsLive given accepted ignoreSpot self) (hgiven : given ⊆ more)
    (haccepted : accepted ⊆ later) : HoldsLive more later ignoreSpot self :=
  fun s hs => (h s hs).mono hgiven haccepted

/-- What leaves the live books alone, or drops them, keeps how they were made. -/
theorem HoldsLive.congr (h : HoldsLive given accepted ignoreSpot self)
    (hbook : after.orderBookState = self.orderBookState) :
    HoldsLive given accepted ignoreSpot after := fun s hs => h s (hbook ▸ hs)

theorem HoldsLive.of_none (hbook : self.orderBookState = none) :
    HoldsLive given accepted ignoreSpot self := fun _ hs => nomatch hbook ▸ hs

theorem Accepted.orderBookState_eq {batch : EventBatch} {queued : List EventBatch}
    (h : Accepted self batch queued mid) : mid.orderBookState = self.orderBookState := by
  cases h <;> rfl

theorem HoldsLive.stepped (hsrc : Sourced given accepted ignoreSpot self)
    (h : HoldsLive given accepted ignoreSpot self) (hs : Stepped self after) :
    HoldsLive given accepted ignoreSpot after := by
  cases hs with
  | notReady => exact h
  | idle hbook hsync => exact h
  | stale hbook hsync hle => exact h
  | applied hbook hsync hgt happlied hrecorded =>
    have hnext := Live.applyUpdates (h _ hbook) ((hsrc.synced hsync).2 _ rfl) happlied
    cases hrecorded <;> exact fun s hs => Option.some.inj hs ▸ hnext

theorem HoldsLive.received {batches : List EventBatch}
    (hsrc : Sourced given accepted ignoreSpot self) (h : HoldsLive given accepted ignoreSpot self)
    (hr : Received self batches after) :
    HoldsLive given (accepted ++ batches) ignoreSpot after := by
  induction hr generalizing accepted with
  | nil => rwa [List.append_nil]
  | cons haccepted hstepped _ ih =>
    rw [← List.append_assoc]
    have hmid := hsrc.accept haccepted
    exact ih (hmid.stepped hstepped) (.stepped hmid
      ((h.mono (List.Subset.refl _) (List.subset_append_left _ _)).congr
        haccepted.orderBookState_eq) hstepped)

theorem HoldsLive.publishViews (h : HoldsLive given accepted ignoreSpot self) :
    HoldsLive given accepted ignoreSpot self.publishViews := by
  unfold OrderBookListener.publishViews OrderBookListener.l2Snapshots
  cases hbook : self.orderBookState with
  | none => exact .of_none hbook
  | some book =>
    have hlive := Live.l2Snapshots (h book hbook) true
    dsimp only
    cases (book.l2Snapshots true).1 <;> exact fun s hs => Option.some.inj hs ▸ hlive

theorem HoldsLive.progress {serde : SerdeJson} {queued : List EventBatch}
    (hsrc : Sourced given accepted ignoreSpot self) (h : HoldsLive given accepted ignoreSpot self)
    (hp : Progress serde self queued after) :
    HoldsLive given (accepted ++ queued) ignoreSpot after := by
  cases progress_cases hp with
  | kept => exact h.mono (List.Subset.refl _) (List.subset_append_left _ _)
  | published hr => exact (HoldsLive.received hsrc h hr).publishViews
  | broken hb => exact .of_none rfl
  | fenced => exact .of_none rfl
  | aged =>
    rw [List.append_nil]
    exact h
  | agedFenced => exact .of_none rfl
  | computed hbook =>
    rw [List.append_nil]
    exact fun s hs => Option.some.inj hs ▸ Live.computeL2Snapshot (h _ hbook)

theorem Live.caughtUp {out : Option OrderBookState} (hsrc : Sourced given accepted ignoreSpot self)
    (hs : Live given accepted ignoreSpot s) (hc : CaughtUp self s after out) :
    ∀ t, out = some t → Live given accepted ignoreSpot t := by
  induction hc with
  | synced hsync => exact fun t ht => Option.some.inj ht ▸ hs
  | failed hsync => exact fun t ht => nomatch ht
  | applied hsync happlied _ ih =>
    obtain ⟨hkept, hpair⟩ := hsrc.synced hsync
    exact ih hkept (.applyUpdates hs (hpair _ rfl) happlied)

theorem CaughtUp.orderBookState_eq {out : Option OrderBookState} (hc : CaughtUp self s after out) :
    after.orderBookState = self.orderBookState := by
  induction hc with
  | synced => rfl
  | failed => rfl
  | applied _ _ _ ih => exact ih

theorem HoldsLive.finished {mapOrder : MapOrder} {epoch : BitVec 64} {state : Option OrderBookState}
    {snapshot : Snapshots InnerL4Order} {height : ℕ} (hsrc : Sourced given accepted ignoreSpot self)
    (h : HoldsLive given accepted ignoreSpot self)
    (hf : Finished mapOrder self epoch snapshot height state after) :
    HoldsLive ((snapshot, height) :: given) accepted ignoreSpot after := by
  have hmono := h.mono (List.subset_cons_self (snapshot, height) given) (List.Subset.refl accepted)
  have htaken := (hsrc.give (snapshot, height)).takeCache
  have hstart (time : ℕ) : Live ((snapshot, height) :: given) accepted ignoreSpot
      (fromSnapshot snapshot height time true self.ignoreSpot) := by
    rw [hsrc.spot]
    exact .fromSnapshot time List.mem_cons_self
  have hcache : ∀ p ∈ self.takeCache.1, Paired accepted p := by
    intro p hp
    cases hc : self.fetchedSnapshotCache with
    | none => simp [OrderBookListener.takeCache, hc] at hp
    | some cache =>
      exact hsrc.cached cache hc p (by simpa [OrderBookListener.takeCache, hc] using hp)
  cases hf with
  | passed => exact hmono
  | begun hepoch hcaught =>
    exact fun s hs => Option.some.inj hs ▸ (hstart 0).caughtUp htaken hcaught _ rfl
  | retry hepoch hcaught => exact hmono.congr hcaught.orderBookState_eq
  | kept => exact hmono
  | refreshed hepoch hreached hle hvalid hreplay =>
    have hlive := (hstart _).replay (fun p hp => hcache p (replayTo_subset hreached hp)) hreplay
    exact HoldsLive.publishViews fun s hs => Option.some.inj hs ▸ hlive
  | reloaded hepoch hreached hle hvalid hreplay =>
    have hlive := (hstart 0).replay (fun p hp => hcache p (replayTo_subset hreached hp)) hreplay
    exact fun s hs => Option.some.inj hs ▸ hlive

end

namespace World

/-- In every run the live books are made from the snapshots given and the pairs
accepted. -/
theorem run_live {serde : SerdeJson} {limits : ResourceLimits}
    {internalMessageTx : Option (List InternalMessage)} {ignoreSpot : Bool} {scope : CoinScope}
    {w : World}
    (h : Relation.ReflTransGen (Step serde) (start limits internalMessageTx ignoreSpot scope) w) :
    HoldsLive w.given w.accepted ignoreSpot w.listener := by
  induction h with
  | refl => exact .of_none rfl
  | tail hrun hstep ih =>
    have hsrc := run_sourced hrun
    cases hstep with
    | progress hp => exact .progress hsrc ih hp
    | beginCaching now => exact ih
    | cloneState => exact ih
    | takeCache => exact ih
    | finishSnapshot mapOrder epoch snapshot height hs =>
      exact .finished hsrc ih (finishSnapshot_finished mapOrder _ epoch _ snapshot height)

end World
end OrderBookListener
end OrderBookServer
