import OrderBookServer.Publication

/-!
# Blocks are broadcast as they are applied

What a step of the listener sends beside what it does to the live books: the blocks sent
before any gap are those of the heights after the live books, one each, and without a gap
the live books end at the last of them.
-/
namespace OrderBookServer

open InternalMessage

namespace InternalMessage

def isGap : InternalMessage → Bool
  | .gap => true
  | _ => false

/-- The blocks among messages, up to the first gap. -/
def blocks : List InternalMessage → List BlockPair
  | [] => []
  | .gap :: _ => []
  | .l4BookUpdates diffBatch statusBatch :: rest => (statusBatch, diffBatch) :: blocks rest
  | .snapshot _ _ _ :: rest => blocks rest
  | .fills _ :: rest => blocks rest

theorem blocks_append (log more : List InternalMessage) :
    blocks (log ++ more) = blocks log ++ if log.any isGap then [] else blocks more := by
  induction log with
  | nil => rfl
  | cons message log ih =>
    cases message with
    | gap => rfl
    | l4BookUpdates diffBatch statusBatch => exact congrArg (_ :: ·) ih
    | snapshot views time height => exact ih
    | fills batch => exact ih

end InternalMessage

namespace OrderBookListener

open OrderBookState

theorem Consecutive.append {h : ℕ} {ps qs : List BlockPair} (hp : Consecutive h ps)
    (hq : Consecutive (h + ps.length) qs) : Consecutive h (ps ++ qs) := by
  unfold Consecutive at *
  rw [List.map_append, hp, hq, List.length_append, ← List.range'_append_1, Nat.add_right_comm]

/-- What a step sends, and where it leaves the live books. -/
structure Advances (l l' : OrderBookListener) (more : List InternalMessage) : Prop where
  sent : l'.internalMessageTx = l.internalMessageTx.map (· ++ more)
  consecutive : ∀ s, l.orderBookState = some s → Consecutive s.height (blocks more)
  live : ∀ s, l.orderBookState = some s → more.any isGap = false →
    ∃ s', l'.orderBookState = some s' ∧ s'.height = s.height + (blocks more).length

section Advances

variable {l mid l' : OrderBookListener} {more later : List InternalMessage}

/-- A step that sends nothing, and moves the live books only where they are. -/
theorem Advances.quiet (hsent : l'.internalMessageTx = l.internalMessageTx)
    (hlive : ∀ s, l.orderBookState = some s →
      ∃ s', l'.orderBookState = some s' ∧ s'.height = s.height) : Advances l l' [] where
  sent := by
    rw [hsent]
    cases l.internalMessageTx with
    | none => rfl
    | some log => simp
  consecutive s _ := .nil s.height
  live s hs _ := hlive s hs

theorem Advances.congr (hsent : l'.internalMessageTx = l.internalMessageTx)
    (hlive : l'.orderBookState = l.orderBookState) : Advances l l' [] :=
  .quiet hsent fun s hs => ⟨s, hlive.trans hs, rfl⟩

theorem Advances.trans (h : Advances l mid more) (h' : Advances mid l' later) :
    Advances l l' (more ++ later) where
  sent := by
    rw [h'.sent, h.sent, Option.map_map]
    exact congrArg (fun f => l.internalMessageTx.map f)
      (funext fun log => List.append_assoc log more later)
  consecutive s hs := by
    rw [blocks_append]
    split_ifs with hgap
    · rw [List.append_nil]
      exact h.consecutive s hs
    · obtain ⟨t, ht, hheight⟩ := h.live s hs (Bool.not_eq_true _ ▸ hgap)
      exact (h.consecutive s hs).append (hheight ▸ h'.consecutive t ht)
  live s hs hgap := by
    rw [List.any_append, Bool.or_eq_false_iff] at hgap
    obtain ⟨t, ht, hheight⟩ := h.live s hs hgap.1
    obtain ⟨t', ht', hheight'⟩ := h'.live t ht hgap.2
    refine ⟨t', ht', ?_⟩
    rw [blocks_append, hgap.1, if_neg Bool.false_ne_true, List.length_append, hheight', hheight,
      Nat.add_assoc]

/-- One message that is no block. -/
theorem Advances.send {message : InternalMessage} (hblock : blocks [message] = []) :
    Advances l (l.send message) [message] where
  sent := rfl
  consecutive s _ := hblock ▸ .nil s.height
  live s hs _ := ⟨s, hs, by rw [hblock]; rfl⟩

/-- After a gap nothing is promised. -/
theorem Advances.sendGap (hsent : mid.internalMessageTx = l.internalMessageTx) :
    Advances l (mid.send .gap) [.gap] where
  sent := congrArg (Option.map (· ++ [InternalMessage.gap])) hsent
  consecutive s _ := .nil s.height
  live _ _ hgap := by cases hgap

theorem Advances.accept {batch : EventBatch} {queued : List EventBatch}
    (ha : Accepted l batch queued l') : ∃ more, Advances l l' more := by
  cases ha with
  | old => exact ⟨_, .congr rfl rfl⟩
  | orders => exact ⟨_, .congr rfl rfl⟩
  | bookDiffs => exact ⟨_, .congr rfl rfl⟩
  | @fills batch hnew =>
    have hfill : Advances l { l with lastFill := some batch.blockNumber } [] := .congr rfl rfl
    exact ⟨_, hfill.trans (.send rfl)⟩

/-- The block after the live books is sent as they reach it. -/
theorem Advances.sendUpdate {s next : OrderBookState} {pair : BlockPair}
    (hs : l.orderBookState = some s) (hgt : s.height < pair.1.blockNumber)
    (ha : s.applyUpdates pair.1 pair.2 = (next, .ok ())) (hlive : l'.orderBookState = some next)
    (hsent : l'.internalMessageTx = l.internalMessageTx) :
    Advances l (l'.send (.l4BookUpdates pair.2 pair.1)) [.l4BookUpdates pair.2 pair.1] := by
  cases applyUpdates_eq_ok_iff.mp ha with
  | old htime hsame hnext hold => omega
  | next htime hsame hwrap hheight happlied =>
    refine ⟨congrArg (Option.map (· ++ [InternalMessage.l4BookUpdates pair.2 pair.1])) hsent,
      fun t ht => ?_, fun t ht _ => ⟨_, hlive, ?_⟩⟩
    · obtain rfl := Option.some.inj (hs.symm.trans ht)
      exact consecutive_cons.mpr ⟨hheight, .nil _⟩
    · obtain rfl := Option.some.inj (hs.symm.trans ht)
      exact hheight

theorem Advances.stepped (hs : Stepped l l') : ∃ more, Advances l l' more := by
  cases hs with
  | notReady => exact ⟨_, .congr rfl rfl⟩
  | idle => exact ⟨_, .congr rfl rfl⟩
  | stale => exact ⟨_, .congr rfl rfl⟩
  | applied hbook hsync hgt happlied hrecorded =>
    cases hrecorded with
    | uncached => exact ⟨_, .sendUpdate hbook hgt happlied rfl rfl⟩
    | dropped => exact ⟨_, .sendUpdate hbook hgt happlied rfl rfl⟩
    | cached => exact ⟨_, .sendUpdate hbook hgt happlied rfl rfl⟩

theorem Advances.received {batches : List EventBatch} (hr : Received l batches l') :
    ∃ more, Advances l l' more := by
  induction hr with
  | nil => exact ⟨_, .congr rfl rfl⟩
  | cons haccepted hstepped _ ih =>
    obtain ⟨_, ha⟩ := Advances.accept haccepted
    obtain ⟨_, hs⟩ := Advances.stepped hstepped
    obtain ⟨_, hrest⟩ := ih
    exact ⟨_, (ha.trans hs).trans hrest⟩

theorem Advances.publishViews (l : OrderBookListener) : ∃ more, Advances l l.publishViews more := by
  unfold OrderBookListener.publishViews OrderBookListener.l2Snapshots
  cases hbook : l.orderBookState with
  | none => exact ⟨_, .congr rfl rfl⟩
  | some book =>
    have hviews : Advances l { l with orderBookState := some (book.l2Snapshots true).2 } [] := by
      refine .quiet rfl fun s hs => ⟨_, rfl, ?_⟩
      obtain rfl := Option.some.inj (hbook.symm.trans hs)
      exact (agree_l2Snapshots book true).1.height
    dsimp only
    cases (book.l2Snapshots true).1 with
    | none => exact ⟨_, hviews⟩
    | some out => exact ⟨_, hviews.trans (.send rfl)⟩

theorem Advances.progress {serde : SerdeJson} {queued : List EventBatch}
    (hp : Progress serde l queued l') : ∃ more, Advances l l' more := by
  cases progress_cases hp with
  | kept => exact ⟨_, .congr rfl rfl⟩
  | published hr =>
    obtain ⟨_, hmid⟩ := Advances.received hr
    obtain ⟨_, hviews⟩ := Advances.publishViews _
    exact ⟨_, hmid.trans hviews⟩
  | broken hb =>
    cases hb with
    | received hr =>
      obtain ⟨_, hmid⟩ := Advances.received hr
      exact ⟨_, hmid.trans (.sendGap rfl)⟩
    | accepted hr ha =>
      obtain ⟨_, hmid⟩ := Advances.received hr
      obtain ⟨_, hlast⟩ := Advances.accept ha
      exact ⟨_, (hmid.trans hlast).trans (.sendGap rfl)⟩
  | fenced => exact ⟨_, .sendGap rfl⟩
  | aged => exact ⟨_, .congr rfl rfl⟩
  | agedFenced => exact ⟨_, .sendGap rfl⟩
  | computed hbook =>
    refine ⟨_, .quiet rfl fun s hs => ⟨_, rfl, ?_⟩⟩
    obtain rfl := Option.some.inj (hbook.symm.trans hs)
    rfl

/-- Popping queued pairs sends nothing. -/
theorem Advances.caughtUp {s : OrderBookState} {out : Option OrderBookState}
    (hc : CaughtUp l s l' out) : Advances l l' [] := by
  induction hc with
  | synced => exact .congr rfl rfl
  | failed => exact .congr rfl rfl
  | applied _ _ _ ih => exact ⟨ih.sent, ih.consecutive, ih.live⟩

theorem Advances.finished {captured : Option OrderBookState} {epoch : BitVec 64} {bumps : ℕ}
    {mapOrder : MapOrder} {snapshot : Snapshots InnerL4Order} {height : ℕ}
    (ht : Tracked captured epoch bumps l)
    (hf : Finished mapOrder l epoch snapshot height captured l') : ∃ more, Advances l l' more := by
  have htaken : Advances l l.takeCache.2 [] := .congr rfl rfl
  cases hf with
  | passed => exact ⟨_, .congr rfl rfl⟩
  | @begun after new hepoch hcaught =>
    have hnone := ht.none_of_captured hepoch
    have hafter := htaken.trans (.caughtUp hcaught)
    have hbegin : Advances l { after with orderBookState := some new } [] :=
      ⟨hafter.sent, hafter.consecutive, fun s hs => nomatch hnone.symm.trans hs⟩
    exact ⟨_, hbegin⟩
  | retry hepoch hcaught => exact ⟨_, htaken.trans (.caughtUp hcaught)⟩
  | kept => exact ⟨_, htaken⟩
  | reloaded => exact ⟨_, .sendGap rfl⟩
  | @refreshed state reached recovered rest hepoch hr hle hvalid hreplay =>
    have hlive : Advances l { l.takeCache.2 with orderBookState := some recovered } [] := by
      refine .quiet rfl fun s hs => ⟨_, rfl, ?_⟩
      obtain hreaches | hnone := ht.reaches_or_none hepoch
      · obtain ⟨live, hlive, hheight, -⟩ := hreaches.rebuilt_height_time hr hle hreplay
        obtain rfl := Option.some.inj (hlive.symm.trans hs)
        exact hheight
      · cases hnone.symm.trans hs
    obtain ⟨_, hviews⟩ := Advances.publishViews
      { l.takeCache.2 with orderBookState := some recovered }
    exact ⟨_, hlive.trans hviews⟩

end Advances

namespace FetchWorld

/-- Every step of a run advances so. -/
theorem step_advances {serde : SerdeJson} {w w' : FetchWorld} (h : Sound w)
    (hstep : Step serde w w') : ∃ more, Advances w.listener w'.listener more := by
  cases hstep with
  | progress hp => exact Advances.progress hp
  | fetchSnapshot now _ => exact ⟨_, .congr rfl rfl⟩
  | finishSnapshot mapOrder snapshot height ha =>
    obtain ⟨bumps, hb⟩ := h.tracked _ ha
    exact Advances.finished hb (finishSnapshot_finished mapOrder _ _ _ snapshot height)
  | failed => exact ⟨_, .congr rfl rfl⟩
  | passed => exact ⟨_, .congr rfl rfl⟩

end FetchWorld
end OrderBookListener
end OrderBookServer
