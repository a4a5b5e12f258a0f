import OrderBookServer.Listener

/-!
# Replaying blocks

What a block does to the books of a state depends on its books, its height and
whether spot is ignored, and on nothing else: not on the cached views, on the
coins marked dirty or on the time. States that agree on these stay in agreement
under the same blocks. A replay of pairs is a chain of consecutive heights once
the pairs at or below the height they meet, which change nothing, are left out.
-/
namespace OrderBookServer

namespace BlockState

/-- Two states of a block that differ in the coins marked dirty at most. -/
structure Agree (r s : BlockState) : Prop where
  orderBook : r.orderBook = s.orderBook
  orderMap : r.orderMap = s.orderMap

theorem Applied.congr {ignoreSpot : Bool} {r s s' : BlockState} {diff : NodeDataOrderDiff}
    (ha : Agree r s) (h : Applied ignoreSpot s diff s') :
    ∃ r', Applied ignoreSpot r diff r' ∧ Agree r' s' := by
  obtain ⟨rbooks, rdirty, rmap⟩ := r
  obtain ⟨rfl, rfl⟩ : rbooks = s.orderBook ∧ rmap = s.orderMap := ⟨ha.orderBook, ha.orderMap⟩
  cases h with
  | skipped hs => exact ⟨_, .skipped hs, ⟨rfl, rfl⟩⟩
  | opened kept kind hstatus horder done =>
    exact ⟨_, .opened kept kind hstatus horder done, ⟨rfl, rfl⟩⟩
  | resized kept kind done => exact ⟨_, .resized kept kind done, ⟨rfl, rfl⟩⟩
  | removed kept kind done => exact ⟨_, .removed kept kind done, ⟨rfl, rfl⟩⟩

theorem AppliedAll.congr {ignoreSpot : Bool} {r s s' : BlockState} {diffs : List NodeDataOrderDiff}
    (ha : Agree r s) (h : AppliedAll ignoreSpot s diffs s') :
    ∃ r', AppliedAll ignoreSpot r diffs r' ∧ Agree r' s' := by
  induction h generalizing r with
  | nil => exact ⟨r, .nil r, ha⟩
  | cons first _ ih =>
    obtain ⟨next, hnext, hagree⟩ := first.congr ha
    obtain ⟨last, hlast, hagree'⟩ := ih hagree
    exact ⟨last, .cons hnext hlast, hagree'⟩

end BlockState

namespace OrderBookState

/-- Two states that the same blocks take to the same books. -/
structure Agree (r s : OrderBookState) : Prop where
  orderBook : r.orderBook = s.orderBook
  height : r.height = s.height
  ignoreSpot : r.ignoreSpot = s.ignoreSpot

theorem Agree.refl (s : OrderBookState) : Agree s s := ⟨rfl, rfl, rfl⟩

theorem Agree.symm {r s : OrderBookState} (h : Agree r s) : Agree s r :=
  ⟨h.orderBook.symm, h.height.symm, h.ignoreSpot.symm⟩

theorem Agree.trans {r s t : OrderBookState} (h : Agree r s) (h' : Agree s t) : Agree r t :=
  ⟨h.orderBook.trans h'.orderBook, h.height.trans h'.height, h.ignoreSpot.trans h'.ignoreSpot⟩

theorem agree_computeL2Snapshot (s : OrderBookState) :
    Agree s.computeL2Snapshot.2 s ∧ s.computeL2Snapshot.2.time = s.time := ⟨⟨rfl, rfl, rfl⟩, rfl⟩

theorem agree_l2Snapshots (s : OrderBookState) (prevent : Bool) :
    Agree (s.l2Snapshots prevent).2 s ∧ (s.l2Snapshots prevent).2.time = s.time := by
  unfold l2Snapshots
  split_ifs
  · exact ⟨.refl s, rfl⟩
  · exact ⟨⟨rfl, rfl, rfl⟩, rfl⟩

/-- The same block takes states in agreement to states in agreement. -/
theorem Agree.applyUpdates {r s s' : OrderBookState} {statuses : Batch NodeDataOrderStatus}
    {diffs : Batch NodeDataOrderDiff} (ha : Agree r s)
    (h : s.applyUpdates statuses diffs = (s', .ok ())) :
    ∃ r', r.applyUpdates statuses diffs = (r', .ok ()) ∧ Agree r' s' ∧
      (r.time = s.time → r'.time = s'.time) := by
  cases applyUpdates_eq_ok_iff.mp h with
  | old htime hsame hnext hold =>
    rw [← ha.height] at hnext hold
    exact ⟨r, applyUpdates_eq_ok_iff.mpr (.old htime hsame hnext hold), ha, id⟩
  | next htime hsame hwrap hheight happlied =>
    rw [← ha.height] at hwrap hheight
    rw [← ha.ignoreSpot] at happlied
    have hblocks : BlockState.Agree
        ⟨r.orderBook, r.dirtyCoins, openingStatuses statuses.events⟩
        ⟨s.orderBook, s.dirtyCoins, openingStatuses statuses.events⟩ := ⟨ha.orderBook, rfl⟩
    obtain ⟨block, hblock, hagree⟩ := happlied.congr hblocks
    refine ⟨_, applyUpdates_eq_ok_iff.mpr (.next htime hsame hwrap hheight hblock), ?_, fun _ => rfl⟩
    exact ⟨hagree.orderBook, rfl, ha.ignoreSpot⟩

end OrderBookState

namespace OrderBookListener

open OrderBookState

theorem replay_append (s : OrderBookState) (ps qs : List BlockPair) :
    replay s (ps ++ qs) = (replay s ps).bind fun r => replay r qs := by
  induction ps generalizing s with
  | nil => rfl
  | cons p ps ih =>
    simp only [List.cons_append, replay]
    split
    · rfl
    · exact ih _

theorem replay_singleton {s s' : OrderBookState} {p : BlockPair}
    (h : s.applyUpdates p.1 p.2 = (s', .ok ())) : replay s [p] = .ok s' := by
  simp only [replay, h]

theorem replay_cons_ok {s r : OrderBookState} {p : BlockPair} {ps : List BlockPair}
    (h : replay s (p :: ps) = .ok r) :
    ∃ s', s.applyUpdates p.1 p.2 = (s', .ok ()) ∧ replay s' ps = .ok r := by
  rw [replay] at h
  split at h
  · cases h
  · exact ⟨_, by assumption, h⟩

theorem replay_snoc {s r r' : OrderBookState} {p : BlockPair} {ps : List BlockPair}
    (h : replay s ps = .ok r) (hp : r.applyUpdates p.1 p.2 = (r', .ok ())) :
    replay s (ps ++ [p]) = .ok r' := by
  rw [replay_append, h]
  exact replay_singleton hp

/-- The pairs are those of the heights right after `h`, in order. -/
def Consecutive (h : ℕ) (ps : List BlockPair) : Prop :=
  ps.map (fun p => p.1.blockNumber) = List.range' (h + 1) ps.length

theorem Consecutive.nil (h : ℕ) : Consecutive h [] := rfl

theorem consecutive_cons {h : ℕ} {p : BlockPair} {ps : List BlockPair} :
    Consecutive h (p :: ps) ↔ p.1.blockNumber = h + 1 ∧ Consecutive (h + 1) ps := by
  simp only [Consecutive, List.map_cons, List.length_cons, List.range'_succ, List.cons.injEq]

theorem Consecutive.lt_of_mem {h : ℕ} {ps : List BlockPair} (hc : Consecutive h ps) {p : BlockPair}
    (hp : p ∈ ps) : h < p.1.blockNumber := by
  have hmem : p.1.blockNumber ∈ List.range' (h + 1) ps.length := hc ▸ List.mem_map_of_mem hp
  exact (List.mem_range'_1.mp hmem).1

theorem Consecutive.snoc {h : ℕ} {ps : List BlockPair} {p : BlockPair} (hc : Consecutive h ps)
    (hp : p.1.blockNumber = h + ps.length + 1) : Consecutive h (ps ++ [p]) := by
  rw [Consecutive, List.map_append, hc, List.length_append, List.length_singleton,
    List.range'_1_concat]
  simp [hp]; omega

/-- A replay never goes back. -/
theorem height_le_of_applyUpdates {s s' : OrderBookState} {p : BlockPair}
    (h : s.applyUpdates p.1 p.2 = (s', .ok ())) :
    (s' = s ∧ p.1.blockNumber ≤ s.height) ∨
      (s'.height = s.height + 1 ∧ p.1.blockNumber = s.height + 1 ∧ s'.ignoreSpot = s.ignoreSpot) := by
  cases applyUpdates_eq_ok_iff.mp h with
  | old htime hsame hnext hold => exact .inl ⟨rfl, hold⟩
  | next htime hsame hwrap hheight happlied => exact .inr ⟨hheight, hheight, rfl⟩

/-- Leaving out the pairs that change nothing, a replay is one of consecutive heights. -/
theorem exists_consecutive_of_replay {s r : OrderBookState} {ps : List BlockPair}
    (h : replay s ps = .ok r) : ∃ qs, qs.Sublist ps ∧ Consecutive s.height qs ∧
      r.height = s.height + qs.length ∧ replay s qs = .ok r ∧ r.ignoreSpot = s.ignoreSpot := by
  induction ps generalizing s with
  | nil =>
    cases h
    exact ⟨[], List.Sublist.refl _, .nil _, rfl, rfl, rfl⟩
  | cons p ps ih =>
    obtain ⟨s', hp, hrest⟩ := replay_cons_ok h
    obtain ⟨qs, hsub, hc, hheight, hreplay, hspot⟩ := ih hrest
    obtain ⟨rfl, -⟩ | ⟨hh, hb, hs⟩ := height_le_of_applyUpdates hp
    · exact ⟨qs, hsub.cons _, hc, hheight, hreplay, hspot⟩
    · refine ⟨p :: qs, hsub.cons_cons p, consecutive_cons.mpr ⟨hb, hh ▸ hc⟩, ?_, ?_, hspot.trans hs⟩
      · rw [hheight, hh, List.length_cons]; omega
      · simp only [replay, hp, hreplay]

/-- A replay takes states in agreement to states in agreement. -/
theorem replay_agree {r s t : OrderBookState} {ps : List BlockPair} (ha : Agree r s)
    (h : replay s ps = .ok t) :
    ∃ t', replay r ps = .ok t' ∧ Agree t' t ∧ (r.time = s.time → t'.time = t.time) := by
  induction ps generalizing r s with
  | nil =>
    cases h
    exact ⟨r, rfl, ha, id⟩
  | cons p ps ih =>
    obtain ⟨s', hp, hrest⟩ := replay_cons_ok h
    obtain ⟨r', hr', hagree, htime⟩ := ha.applyUpdates hp
    obtain ⟨t', ht', hagree', htime'⟩ := ih hagree hrest
    refine ⟨t', ?_, hagree', fun he => htime' (htime he)⟩
    simp only [replay, hr', ht']

end OrderBookListener
end OrderBookServer
