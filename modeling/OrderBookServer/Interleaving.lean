import OrderBookServer.ListenerSteps
import OrderBookServer.Streams

/-!
# The result does not depend on how the sources interleave

The statuses and the diffs arrive batch by batch in any order of arrival between
the two. The books and the messages only depend on the blocks of new heights each
source has given: they are those of the pairs both have given, in order.
-/
namespace OrderBookServer
namespace OrderBookListener

open OrderBookState

/-- Two sources given one batch at a time, each in its order. -/
inductive Interleaving : List (Batch NodeDataOrderStatus) → List (Batch NodeDataOrderDiff) →
    List EventBatch → Prop
  | nil : Interleaving [] [] []
  | orders {statuses : List (Batch NodeDataOrderStatus)} {diffs : List (Batch NodeDataOrderDiff)}
      {feed : List EventBatch} (b : Batch NodeDataOrderStatus)
      (rest : Interleaving statuses diffs feed) :
      Interleaving (b :: statuses) diffs (.orders b :: feed)
  | bookDiffs {statuses : List (Batch NodeDataOrderStatus)} {diffs : List (Batch NodeDataOrderDiff)}
      {feed : List EventBatch} (b : Batch NodeDataOrderDiff)
      (rest : Interleaving statuses diffs feed) :
      Interleaving statuses (b :: diffs) (.bookDiffs b :: feed)

/-- Batches received one after the other, each at its time and without an error. -/
inductive Fed : OrderBookListener → List EventBatch → OrderBookListener → Prop
  | nil (l : OrderBookListener) : Fed l [] l
  | cons {l mid last : OrderBookListener} {batch : EventBatch} {batches : List EventBatch}
      (now : Instant) (h : l.receiveBatch now batch = (mid, .ok ())) (rest : Fed mid batches last) :
      Fed l (batch :: batches) last

theorem Fed.of_ok {l last : OrderBookListener} {batch : EventBatch} {batches : List EventBatch}
    (now : Instant) (h : (l.receiveBatch now batch).2 = .ok ())
    (rest : Fed (l.receiveBatch now batch).1 batches last) : Fed l (batch :: batches) last :=
  .cons now (Prod.ext rfl h) rest

/-- What an applied pair is published as. -/
def published (pair : BlockPair) : InternalMessage := .l4BookUpdates pair.2 pair.1

theorem Interleaving.split {statuses : List (Batch NodeDataOrderStatus)}
    {diffs : List (Batch NodeDataOrderDiff)} {before after : List EventBatch}
    (h : Interleaving statuses diffs (before ++ after)) : ∃ s₁ s₂ d₁ d₂,
      statuses = s₁ ++ s₂ ∧ diffs = d₁ ++ d₂ ∧ Interleaving s₁ d₁ before ∧
      Interleaving s₂ d₂ after := by
  induction before generalizing statuses diffs with
  | nil => exact ⟨[], statuses, [], diffs, rfl, rfl, .nil, h⟩
  | cons batch before ih =>
    cases h with
    | orders b rest =>
      obtain ⟨s₁, s₂, d₁, d₂, rfl, rfl, h₁, h₂⟩ := ih rest
      exact ⟨b :: s₁, s₂, d₁, d₂, rfl, rfl, .orders b h₁, h₂⟩
    | bookDiffs b rest =>
      obtain ⟨s₁, s₂, d₁, d₂, rfl, rfl, h₁, h₂⟩ := ih rest
      exact ⟨s₁, s₂, b :: d₁, d₂, rfl, rfl, .bookDiffs b h₁, h₂⟩

/-- After the sources have given `newS` and `newD`, from a state and a log: the queues
hold what is unmatched, and what is matched is applied and published. -/
structure Converging (h0 : ℕ) (s : OrderBookState) (log : Option (List InternalMessage))
    (newS : List (Batch NodeDataOrderStatus)) (newD : List (Batch NodeDataOrderDiff))
    (l : OrderBookListener) : Prop where
  queues : Balanced h0 newS newD l.orderStatusCache l.orderDiffCache
  live : ∃ r, l.orderBookState = some r ∧ replay s (newS.zip newD) = .ok r ∧
    r.height = h0 + (newS.zip newD).length
  sent : l.internalMessageTx = log.map (· ++ (newS.zip newD).map published)

section Converging

variable {h0 : ℕ} {s : OrderBookState} {log : Option (List InternalMessage)}
  {newS newS' : List (Batch NodeDataOrderStatus)} {newD newD' : List (Batch NodeDataOrderDiff)}
  {l mid after : OrderBookListener}

/-- Nothing is applied when no pair is found, or one that the books are past. -/
theorem Converging.unmatched (h : Converging h0 s log newS newD l)
    (hstep : Stepped mid after) (hlive : mid.orderBookState = l.orderBookState)
    (hsent : mid.internalMessageTx = l.internalMessageTx)
    (hzip : newS'.zip newD' = newS.zip newD)
    (hsync : ∀ pair statuses diffs,
      Synced mid.orderStatusCache mid.orderDiffCache pair statuses diffs →
      Balanced h0 newS' newD' statuses diffs ∧ ∀ p, pair = some p → p.1.blockNumber ≤ h0) :
    Converging h0 s log newS' newD' after := by
  obtain ⟨r, hr, hreplay, hheight⟩ := h.live
  have hbook : mid.orderBookState = some r := hlive.trans hr
  have hlog := hsent.trans h.sent
  rw [← hzip] at hreplay hheight hlog
  cases hstep with
  | notReady hnone => rw [hbook] at hnone; cases hnone
  | idle hs hsy => exact ⟨(hsync _ _ _ hsy).1, ⟨r, hbook, hreplay, hheight⟩, hlog⟩
  | stale hs hsy hle => exact ⟨(hsync _ _ _ hsy).1, ⟨r, hbook, hreplay, hheight⟩, hlog⟩
  | applied hs hsy hgt =>
    obtain rfl := Option.some.inj (hs.symm.trans hbook)
    have := (hsync _ _ _ hsy).2 _ rfl
    omega

/-- A pair that is found is the next, and is applied and published. -/
theorem Converging.matched (h : Converging h0 s log newS newD l)
    (hstep : Stepped mid after) (hlive : mid.orderBookState = l.orderBookState)
    (hsent : mid.internalMessageTx = l.internalMessageTx)
    (hsync : ∀ pair statuses diffs,
      Synced mid.orderStatusCache mid.orderDiffCache pair statuses diffs →
      Balanced h0 newS' newD' statuses diffs ∧
        ((pair = none ∧ newS'.zip newD' = newS.zip newD) ∨
          ∃ p, pair = some p ∧ newS'.zip newD' = newS.zip newD ++ [p] ∧
            p.1.blockNumber = h0 + (newS.zip newD).length + 1)) :
    Converging h0 s log newS' newD' after := by
  obtain ⟨r, hr, hreplay, hheight⟩ := h.live
  have hbook : mid.orderBookState = some r := hlive.trans hr
  have hlog := hsent.trans h.sent
  cases hstep with
  | notReady hnone => rw [hbook] at hnone; cases hnone
  | idle hs hsy =>
    obtain ⟨hqueues, ⟨-, hzip⟩ | ⟨p, hp, -⟩⟩ := hsync _ _ _ hsy
    · rw [← hzip] at hreplay hheight hlog
      exact ⟨hqueues, ⟨r, hbook, hreplay, hheight⟩, hlog⟩
    · cases hp
  | stale hs hsy hle =>
    obtain rfl := Option.some.inj (hs.symm.trans hbook)
    obtain ⟨hqueues, ⟨hp, -⟩ | ⟨p, hp, hzip, hblock⟩⟩ := hsync _ _ _ hsy
    · cases hp
    · obtain rfl := Option.some.inj hp
      omega
  | @applied book next pair statuses diffs after hs hsy hgt happlied hrecorded =>
    obtain rfl := Option.some.inj (hs.symm.trans hbook)
    obtain ⟨hqueues, ⟨hp, -⟩ | ⟨p, hp, hzip, hblock⟩⟩ := hsync _ _ _ hsy
    · cases hp
    obtain rfl := Option.some.inj hp
    obtain ⟨rfl, hle⟩ | ⟨hnext, -, -⟩ := height_le_of_applyUpdates happlied
    · omega
    have hdone : ∀ last : OrderBookListener, last.orderStatusCache = statuses →
        last.orderDiffCache = diffs → last.orderBookState = some next →
        last.internalMessageTx = mid.internalMessageTx.map (· ++ [published pair]) →
        Converging h0 s log newS' newD' last := by
      rintro last rfl rfl hlast hmessages
      refine ⟨hqueues, ⟨next, hlast, ?_, ?_⟩, ?_⟩
      · rw [hzip]
        exact replay_snoc hreplay happlied
      · rw [hnext, hheight, hzip, List.length_append, List.length_singleton, Nat.add_assoc]
      · rw [hmessages, hlog, hzip, Option.map_map, List.map_append]
        congr 1
        funext before
        simp
    cases hrecorded with
    | uncached => exact hdone _ rfl rfl rfl rfl
    | dropped => exact hdone _ rfl rfl rfl rfl
    | cached => exact hdone _ rfl rfl rfl rfl

/-- A batch of statuses that is accepted is pushed on their queue. -/
theorem Accepted.of_orders {b : Batch NodeDataOrderStatus} {queued : List EventBatch}
    (h : Accepted l (.orders b) queued mid) : ∃ added queue,
      l.orderStatusCache.Pushed b added queue ∧ mid = { l with orderStatusCache := queue } := by
  cases h with
  | old hseen =>
    obtain ⟨last, hlast, hle⟩ := (Option.any_eq_true _ _).mp hseen
    exact ⟨false, _, .old hlast (of_decide_eq_true hle), rfl⟩
  | orders hpushed => exact ⟨true, _, hpushed, rfl⟩

theorem Accepted.of_bookDiffs {b : Batch NodeDataOrderDiff} {queued : List EventBatch}
    (h : Accepted l (.bookDiffs b) queued mid) : ∃ added queue,
      l.orderDiffCache.Pushed b added queue ∧ mid = { l with orderDiffCache := queue } := by
  cases h with
  | old hseen =>
    obtain ⟨last, hlast, hle⟩ := (Option.any_eq_true _ _).mp hseen
    exact ⟨false, _, .old hlast (of_decide_eq_true hle), rfl⟩
  | bookDiffs hpushed => exact ⟨true, _, hpushed, rfl⟩

variable {now : Instant}

theorem Converging.ordersAgain (h : Converging h0 s log newS newD l) {b : Batch NodeDataOrderStatus}
    (hb : b.blockNumber ≤ h0 + newS.length) (hr : l.receiveBatch now (.orders b) = (after, .ok ())) :
    Converging h0 s log newS newD after := by
  obtain ⟨mid, haccepted, hstep⟩ := receiveBatch_ok hr
  obtain ⟨added, queue, hpushed, rfl⟩ := haccepted.of_orders
  exact h.unmatched hstep rfl rfl rfl fun _ _ _ hsync => h.queues.again hb hpushed hsync

theorem Converging.ordersNext (h : Converging h0 s log newS newD l) {b : Batch NodeDataOrderStatus}
    (hb : b.blockNumber = h0 + newS.length + 1)
    (hr : l.receiveBatch now (.orders b) = (after, .ok ())) :
    Converging h0 s log (newS ++ [b]) newD after := by
  obtain ⟨mid, haccepted, hstep⟩ := receiveBatch_ok hr
  obtain ⟨added, queue, hpushed, rfl⟩ := haccepted.of_orders
  refine h.matched hstep rfl rfl fun pair statuses diffs hsync => ?_
  obtain ⟨hqueues, hwaits | ⟨t, hpair, hzip, hlt⟩⟩ := h.queues.next hb hpushed hsync
  · exact ⟨hqueues, .inl hwaits⟩
  · refine ⟨hqueues, .inr ⟨_, hpair, hzip, ?_⟩⟩
    rw [List.length_zip, min_eq_left hlt.le]
    exact hb

theorem Converging.diffsAgain (h : Converging h0 s log newS newD l) {b : Batch NodeDataOrderDiff}
    (hb : b.blockNumber ≤ h0 + newD.length)
    (hr : l.receiveBatch now (.bookDiffs b) = (after, .ok ())) :
    Converging h0 s log newS newD after := by
  obtain ⟨mid, haccepted, hstep⟩ := receiveBatch_ok hr
  obtain ⟨added, queue, hpushed, rfl⟩ := haccepted.of_bookDiffs
  refine h.unmatched hstep rfl rfl rfl fun pair statuses diffs hsync => ?_
  obtain ⟨hqueues, hold⟩ := h.queues.swap.again hb hpushed hsync.swap
  refine ⟨hqueues.swap, fun p hp => ?_⟩
  rw [(hsync.sublists.2.2 p hp).2.2]
  exact hold p.swap (by rw [hp]; rfl)

theorem Converging.diffsNext (h : Converging h0 s log newS newD l) {b : Batch NodeDataOrderDiff}
    (hb : b.blockNumber = h0 + newD.length + 1)
    (hr : l.receiveBatch now (.bookDiffs b) = (after, .ok ())) :
    Converging h0 s log newS (newD ++ [b]) after := by
  obtain ⟨mid, haccepted, hstep⟩ := receiveBatch_ok hr
  obtain ⟨added, queue, hpushed, rfl⟩ := haccepted.of_bookDiffs
  refine h.matched hstep rfl rfl fun pair statuses diffs hsync => ?_
  obtain ⟨hqueues, ⟨hpair, hzip⟩ | ⟨t, hpair, hzip, hlt⟩⟩ := h.queues.swap.next hb hpushed hsync.swap
  · refine ⟨hqueues.swap, .inl ⟨Option.map_eq_none_iff.mp hpair, ?_⟩⟩
    rw [← List.zip_swap, hzip, List.zip_swap]
  · obtain ⟨p, hp, hswap⟩ := Option.map_eq_some_iff.mp hpair
    obtain rfl : p = (t, b) := by rw [← Prod.swap_swap p, hswap]; rfl
    refine ⟨hqueues.swap, .inr ⟨_, hp, ?_, ?_⟩⟩
    · rw [← List.zip_swap, hzip, List.map_append, List.zip_swap]
      rfl
    · rw [(hsync.sublists.2.2 _ hp).2.2, List.length_zip, min_eq_right hlt.le]
      exact hb

/-- However two sources interleave, every call keeps what is matched applied. -/
theorem Converging.fed {S : List (Batch NodeDataOrderStatus)} {D : List (Batch NodeDataOrderDiff)}
    {feed : List EventBatch} {m n : ℕ} (h : Converging h0 s log newS newD l)
    (hfeed : Interleaving S D feed) (hS : Source (h0 + newS.length) m S newS')
    (hD : Source (h0 + newD.length) n D newD') (hrun : Fed l feed after) :
    Converging h0 s log (newS ++ newS') (newD ++ newD') after := by
  induction hfeed generalizing l newS newS' newD newD' with
  | nil =>
    cases hS
    cases hD
    cases hrun
    simpa using h
  | orders b _ ih =>
    cases hrun with
    | cons now hr hrest =>
      cases hS with
      | next hb hS =>
        rw [List.append_cons]
        refine ih (h.ordersNext hb hr) ?_ hD hrest
        rwa [List.length_append, List.length_singleton, ← Nat.add_assoc]
      | again hb hS => exact ih (h.ordersAgain hb hr) hS hD hrest
  | bookDiffs b _ ih =>
    cases hrun with
    | cons now hr hrest =>
      cases hD with
      | next hb hD =>
        rw [List.append_cons newD]
        refine ih (h.diffsNext hb hr) hS ?_ hrest
        rwa [List.length_append, List.length_singleton, ← Nat.add_assoc]
      | again hb hD => exact ih (h.diffsAgain hb hr) hS hD hrest

end Converging

/-- A listener at a height with nothing queued. -/
structure At (h0 : ℕ) (s : OrderBookState) (l : OrderBookListener) : Prop where
  live : l.orderBookState = some s
  height : s.height = h0
  statuses : l.orderStatusCache.batches = []
  diffs : l.orderDiffCache.batches = []
  lastStatuses : ∀ t, l.orderStatusCache.lastTs = some t → t ≤ h0
  lastDiffs : ∀ t, l.orderDiffCache.lastTs = some t → t ≤ h0

theorem At.converging {h0 : ℕ} {s : OrderBookState} {l : OrderBookListener} (h : At h0 s l) :
    Converging h0 s l.internalMessageTx [] [] l where
  queues :=
    ⟨⟨rfl, ⟨[], by simp, by simpa using h.statuses⟩, h.lastStatuses, fun hne => absurd rfl hne⟩,
      ⟨rfl, ⟨[], by simp, by simpa using h.diffs⟩, h.lastDiffs, fun hne => absurd rfl hne⟩,
      .inl h.statuses⟩
  live := ⟨s, h.live, rfl, h.height⟩
  sent := by simp

/-- What is queued above the start is what the other source has not matched. -/
theorem filter_queued {E : Type} {h0 k : ℕ} {new : List (Batch E)} {q : BatchQueue E}
    (h : Queued h0 new k q) :
    q.batches.filter (fun b => decide (h0 < b.blockNumber)) = new.drop k := by
  obtain ⟨olds, holds, hheld⟩ := h.held
  rw [hheld, List.filter_append]
  have hnone : olds.filter (fun b => decide (h0 < b.blockNumber)) = [] := by
    rw [List.filter_eq_nil_iff]
    intro b hb
    have := holds b hb
    simp only [decide_eq_true_eq]
    omega
  have hall : (new.drop k).filter (fun b => decide (h0 < b.blockNumber)) = new.drop k := by
    rw [List.filter_eq_self]
    intro b hb
    have := h.numbered.lt_of_mem_drop hb
    simp only [decide_eq_true_eq]
    omega
  rw [hnone, hall, List.nil_append]

/-- For every interleaving of two sources of the same heights, after every call no
height is in both queues, and each new block that has arrived is queued or was
applied with its counterpart; at the end the books are those after all the blocks
in order, and these were published, once each. -/
theorem interleaving_irrelevant {h0 hn : ℕ} {s : OrderBookState} {l l' : OrderBookListener}
    {S newS : List (Batch NodeDataOrderStatus)} {D newD : List (Batch NodeDataOrderDiff)}
    {before after : List EventBatch} (hl : At h0 s l) (hS : Source h0 hn S newS)
    (hD : Source h0 hn D newD) (hfeed : Interleaving S D (before ++ after))
    (hrun : Fed l before l') :
    (∀ b ∈ l'.orderStatusCache.batches, ∀ t ∈ l'.orderDiffCache.batches,
      b.blockNumber ≠ t.blockNumber) ∧
    (∃ s₁ d₁ newS₁ newD₁ m n, Interleaving s₁ d₁ before ∧
      Source h0 m s₁ newS₁ ∧ Source h0 n d₁ newD₁ ∧
      l'.orderStatusCache.batches.filter (fun b => decide (h0 < b.blockNumber)) =
        newS₁.drop newD₁.length ∧
      l'.orderDiffCache.batches.filter (fun b => decide (h0 < b.blockNumber)) =
        newD₁.drop newS₁.length ∧
      (∃ r, l'.orderBookState = some r ∧ replay s (newS₁.zip newD₁) = .ok r) ∧
      l'.internalMessageTx = l.internalMessageTx.map (· ++ (newS₁.zip newD₁).map published)) ∧
    (after = [] →
      (∃ r, l'.orderBookState = some r ∧ replay s (newS.zip newD) = .ok r ∧ r.height = hn) ∧
      l'.internalMessageTx = l.internalMessageTx.map (· ++ (newS.zip newD).map published) ∧
      (newS.zip newD).map (fun p => p.1.blockNumber) = List.range' (h0 + 1) (hn - h0) ∧
      (newS.zip newD).map (fun p => p.2.blockNumber) = List.range' (h0 + 1) (hn - h0)) := by
  obtain ⟨s₁, s₂, d₁, d₂, rfl, rfl, hbefore, hafter⟩ := hfeed.split
  obtain ⟨m, newS₁, newS₂, hS₁, hS₂, rfl⟩ := hS.split
  obtain ⟨n, newD₁, newD₂, hD₁, hD₂, rfl⟩ := hD.split
  have hend : Converging h0 s l.internalMessageTx newS₁ newD₁ l' := by
    simpa using hl.converging.fed hbefore hS₁ hD₁ hrun
  obtain ⟨r, hr, hreplay, hheight⟩ := hend.live
  refine ⟨fun b hb t ht => ?_, ⟨s₁, d₁, newS₁, newD₁, m, n, hbefore, hS₁, hD₁,
    filter_queued hend.queues.left, filter_queued hend.queues.right, ⟨r, hr, hreplay⟩, hend.sent⟩,
    ?_⟩
  · rcases hend.queues.one with hempty | hempty
    · rw [hempty] at hb
      cases hb
    · rw [hempty] at ht
      cases ht
  · rintro rfl
    cases hafter
    cases hS₂
    cases hD₂
    rw [List.append_nil, List.append_nil]
    obtain ⟨hnumS, hlenS⟩ := hS₁.numbered
    obtain ⟨hnumD, hlenD⟩ := hD₁.numbered
    have hlen : newS₁.length = newD₁.length := by omega
    refine ⟨⟨r, hr, hreplay, ?_⟩, hend.sent, ?_, ?_⟩
    · rw [hheight, List.length_zip]
      omega
    · have hfst := congrArg (List.map Batch.blockNumber) (List.map_fst_zip hlen.le)
      rw [hnumS, List.map_map] at hfst
      rw [hlenS, Nat.add_sub_cancel_left]
      exact hfst
    · have hsnd := congrArg (List.map Batch.blockNumber) (List.map_snd_zip hlen.ge)
      rw [hnumD, List.map_map] at hsnd
      rw [hlenD, Nat.add_sub_cancel_left]
      exact hsnd

/-- The block of height 6 from both sources, between an old block and a repeat of it. -/
theorem interleaving_irrelevant_block_six : ∃ (l l' : OrderBookListener) (s r : OrderBookState),
    At 5 s l ∧ Fed l [.orders (.emptyBlock 4), .bookDiffs (.emptyBlock 6), .orders (.emptyBlock 6),
      .bookDiffs (.emptyBlock 6)] l' ∧ l'.orderBookState = some r ∧ r.height = 6 ∧
      replay s [(.emptyBlock 6, .emptyBlock 6)] = .ok r ∧
      l'.internalMessageTx = some [published (.emptyBlock 6, .emptyBlock 6)] := by
  have hl : At 5 (.fromSnapshot ∅ 5 0 true false) (readyAt 5) :=
    ⟨rfl, rfl, rfl, rfl, fun _ ht => (nomatch ht), fun _ ht => nomatch ht⟩
  have hS : Source 5 6 [.emptyBlock 4, .emptyBlock 6] [Batch.emptyBlock (E := NodeDataOrderStatus) 6] :=
    .again (by decide) (.next rfl (.nil 6))
  have hD : Source 5 6 [.emptyBlock 6, .emptyBlock 6] [Batch.emptyBlock (E := NodeDataOrderDiff) 6] :=
    .next rfl (.again (by decide) (.nil 6))
  have hrun : Fed (readyAt 5) [.orders (.emptyBlock 4), .bookDiffs (.emptyBlock 6),
      .orders (.emptyBlock 6), .bookDiffs (.emptyBlock 6)] _ :=
    .of_ok 0 (by decide +kernel) (.of_ok 0 (by decide +kernel) (.of_ok 0 (by decide +kernel)
      (.of_ok 0 (by decide +kernel) (.nil _))))
  obtain ⟨-, -, hend⟩ := interleaving_irrelevant hl hS hD
    (.orders _ (.bookDiffs _ (.orders _ (.bookDiffs _ .nil)))) hrun
  obtain ⟨⟨r, hr, hreplay, hheight⟩, hsent, -⟩ := hend rfl
  exact ⟨_, _, _, r, hl, hrun, hr, hheight, hreplay, hsent⟩

/-- An old block of diffs is discarded at the fronts, the third batch being its
counterpart: that one is behind the last height of its source and is refused. -/
theorem old_block_discarded_before_counterpart :
    ∃ (l l₁ mid last : OrderBookListener) (s : OrderBookState), At 10 s l ∧
      Source 10 11 [Batch.emptyBlock (E := NodeDataOrderStatus) 5, .emptyBlock 3, .emptyBlock 11]
        [.emptyBlock 11] ∧
      Source 10 11 [Batch.emptyBlock (E := NodeDataOrderDiff) 3, .emptyBlock 11] [.emptyBlock 11] ∧
      Interleaving [.emptyBlock 5, .emptyBlock 3, .emptyBlock 11] [.emptyBlock 3, .emptyBlock 11]
        [.orders (.emptyBlock 5), .bookDiffs (.emptyBlock 3), .orders (.emptyBlock 3),
          .orders (.emptyBlock 11), .bookDiffs (.emptyBlock 11)] ∧
      Fed l [.orders (.emptyBlock 5), .bookDiffs (.emptyBlock 3), .orders (.emptyBlock 3),
        .orders (.emptyBlock 11), .bookDiffs (.emptyBlock 11)] last ∧
      l.receiveBatch 0 (.orders (.emptyBlock 5)) = (l₁, .ok ()) ∧
      l₁.accept 0 (.bookDiffs (.emptyBlock 3)) = .ok mid ∧
      mid.orderDiffCache.batches = [.emptyBlock 3] ∧ mid.popCache.1 = none ∧
      mid.popCache.2.orderDiffCache.batches = [] := by
  refine ⟨readyAt 10, _, _, _, .fromSnapshot ∅ 10 0 true false,
    ⟨rfl, rfl, rfl, rfl, fun _ ht => (nomatch ht), fun _ ht => nomatch ht⟩,
    .again (by decide) (.again (by decide) (.next rfl (.nil 11))),
    .again (by decide) (.next rfl (.nil 11)),
    .orders _ (.bookDiffs _ (.orders _ (.orders _ (.bookDiffs _ .nil)))),
    .of_ok 0 (by decide +kernel) (.of_ok 0 (by decide +kernel) (.of_ok 0 (by decide +kernel)
      (.of_ok 0 (by decide +kernel) (.of_ok 0 (by decide +kernel) (.nil _))))), rfl, rfl, rfl, rfl, rfl⟩

end OrderBookListener
end OrderBookServer
