import OrderBookServer.BookRuns
import OrderBookServer.LevelCascade
import Mathlib.Data.ZMod.Basic

/-!
# A view groups orders by bucket

The direct view of a book has one level for each bucket its orders fall into, in the
order of the side, and a level adds up exactly the orders of its bucket. A view cut to
some number of levels is the front of the whole view.
-/
namespace OrderBookServer
open InnerOrder Rollup SigFigs Ranked

/-! ### Cutting a view -/

theorem prefix_buildL2Levels (x : Side) (nSigFigs mantissa : Option ℕ) (st : LevelState)
    (levels : List InnerLevel) : ∃ more,
      (buildL2Levels none nSigFigs mantissa x st levels).2 ++
        (buildL2Levels none nSigFigs mantissa x st levels).1.toList = st.2 ++ more :=
  ⟨_, buildL2Levels_eq_roll x nSigFigs mantissa st levels⟩

/-- The loop that stops after `k` levels returns the front of what the whole loop does. -/
theorem buildL2Levels_take (x : Side) (nSigFigs mantissa : Option ℕ) {k : ℕ} {st : LevelState}
    (hlen : (st.2 ++ st.1.toList).length ≤ k) (levels : List InnerLevel) :
    (buildL2Levels (some k) nSigFigs mantissa x st levels).2 ++
        (buildL2Levels (some k) nSigFigs mantissa x st levels).1.toList =
      ((buildL2Levels none nSigFigs mantissa x st levels).2 ++
        (buildL2Levels none nSigFigs mantissa x st levels).1.toList).take k := by
  induction levels generalizing st with
  | nil => rw [buildL2Levels, buildL2Levels, List.take_of_length_le hlen]
  | cons level rest ih =>
    obtain ⟨cur, done⟩ := st
    by_cases hnew : newBucket x cur level = true
    · have hwhole : buildL2Level none nSigFigs mantissa x (cur, done) level = (false,
          some ⟨bucket level.px x nSigFigs mantissa, level.sz, level.n⟩, done ++ cur.toList) := by
        simp [buildL2Level, hnew]
      simp only [buildL2Levels, hwhole, Bool.false_eq_true, if_false]
      by_cases hfull : (done ++ cur.toList).length = k
      · -- The view is full: the whole loop only adds behind it.
        have hcut : buildL2Level (some k) nSigFigs mantissa x (cur, done) level =
            (true, none, done ++ cur.toList) := by
          simp only [buildL2Level, hnew, if_true, hfull]
        obtain ⟨more, hmore⟩ := prefix_buildL2Levels x nSigFigs mantissa
          (some ⟨bucket level.px x nSigFigs mantissa, level.sz, level.n⟩, done ++ cur.toList) rest
        simp only [hcut, if_true]
        rw [hmore, ← hfull, List.take_left, Option.toList_none, List.append_nil]
      · have hstep : buildL2Level (some k) nSigFigs mantissa x (cur, done) level = (false,
            some ⟨bucket level.px x nSigFigs mantissa, level.sz, level.n⟩, done ++ cur.toList) := by
          have hne : ¬ (some k = some (done ++ cur.toList).length) := by
            simpa using Ne.symm hfull
          simp only [buildL2Level, hnew, if_true, if_neg hne]
        simp only [hstep, Bool.false_eq_true, if_false]
        apply ih
        simp only [List.length_append, Option.length_toList] at hlen hfull ⊢
        simp only [Option.isSome_some, if_true] at hlen ⊢
        omega
    · have hstep (nLevels : Option ℕ) : buildL2Level nLevels nSigFigs mantissa x (cur, done) level =
          (false, cur.map fun c => { c with sz := Sz.add level.sz c.sz, n := c.n + level.n }, done) := by
        simp [buildL2Level, hnew]
      simp only [buildL2Levels, hstep, Bool.false_eq_true, if_false]
      apply ih
      cases cur <;> simpa using hlen

theorem l2LevelsToL2Levels_take (levels : List InnerLevel) (x : Side) (nSigFigs mantissa : Option ℕ)
    (k : ℕ) : l2LevelsToL2Levels levels x (some k) nSigFigs mantissa =
      (l2LevelsToL2Levels levels x none nSigFigs mantissa).take k := by
  unfold l2LevelsToL2Levels
  by_cases hk : k = 0
  · simp [hk]
  · rw [if_neg (by simpa using hk), if_neg (by simp)]
    exact buildL2Levels_take x nSigFigs mantissa (by simp) levels

section

variable {O : Type} [InnerOrder O]

theorem mapToL2Levels_eq (map : Levels O) (x : Side) (nLevels nSigFigs mantissa : Option ℕ) :
    mapToL2Levels map x nLevels nSigFigs mantissa =
      l2LevelsToL2Levels ((bestLevels x map).map levelOf) x nLevels nSigFigs mantissa := by
  cases x <;> rfl

theorem toL2Snapshot_eq (b : OrderBook O) (x : Side) (nLevels nSigFigs mantissa : Option ℕ) :
    (b.toL2Snapshot nLevels nSigFigs mantissa).orders x =
      l2LevelsToL2Levels ((bestLevels x (b.levels x)).map levelOf) x nLevels nSigFigs mantissa := by
  cases x <;> exact mapToL2Levels_eq _ _ _ _ _

/-! ### Precisions -/

/-- The precisions of views: unrounded, or of two to five figures, with a mantissa only
at five. -/
inductive Precision : Option ℕ → Option ℕ → Prop
  | full : Precision none none
  | figures {n : ℕ} (h : 2 ≤ n ∧ n ≤ 5) : Precision (some n) none
  | two : Precision (some 5) (some 2)
  | five : Precision (some 5) (some 5)

/-- Up to 10^19 no price leaves the word when it is rounded. -/
theorem fitsWord_of_le {x : Side} {n m px : ℕ} (hn : 2 ≤ n) (hm : m ∣ 10) (hpx : px ≤ 10 ^ 19) :
    FitsWord x n m px ∧ roundUp n m px ≤ 10 ^ 19 := by
  have hgrid : OnGrid n m (10 ^ 19) := by
    have hdvd := width_dvd_pow_pred hn hm (x := 10 ^ 19) (by rw [digits_pow]; omega)
    rwa [digits_pow, Nat.add_sub_cancel] at hdvd
  have hup := roundUp_le_of_onGrid hn hm hpx hgrid
  have hword : 10 ^ 19 < U64.modulus := by decide
  exact ⟨⟨hpx.trans_lt hword, fun _ => hup.trans_lt hword⟩, hup⟩

theorem px_round_le_pow {x : Side} {n m : ℕ} (hn : 2 ≤ n) (hm : m ∣ 10) {r : Ranked x}
    (hr : r.px ≤ 10 ^ 19) : (round x n m hn hm r).px ≤ 10 ^ 19 := by
  cases x with
  | ask => exact (fitsWord_of_le (x := .ask) hn hm hr).2
  | bid => exact (roundDown_le n m r.px).trans hr

/-- At each precision buckets are closures, rounding towards worse prices. -/
theorem Precision.closure {nSigFigs mantissa : Option ℕ} (h : Precision nSigFigs mantissa)
    (x : Side) : ∃ c : ClosureOperator (Ranked x), ∀ r : Ranked x, r.px ≤ 10 ^ 19 →
      rankedBucket x nSigFigs mantissa r = c r ∧ (c r).px ≤ 10 ^ 19 := by
  have hround {n : ℕ} (hn : 2 ≤ n) (mantissa : Option ℕ) (hm : mantissa.getD 1 ∣ 10) :
      ∃ c : ClosureOperator (Ranked x), ∀ r : Ranked x, r.px ≤ 10 ^ 19 →
        rankedBucket x (some n) mantissa r = c r ∧ (c r).px ≤ 10 ^ 19 :=
    ⟨round x n _ hn hm, fun r hr =>
      ⟨rankedBucket_eq_round hn mantissa hm (fitsWord_of_le hn hm hr).1, px_round_le_pow hn hm hr⟩⟩
  cases h with
  | full => exact ⟨ClosureOperator.id _, fun r hr => ⟨rank_px r, hr⟩⟩
  | figures hn => exact hround hn.1 none (by decide)
  | two => exact hround (by decide) (some 2) (by decide)
  | five => exact hround (by decide) (some 5) (by decide)

/-! ### Sums of levels -/

/-- The sizes of orders added up in words agree with their sum up to whole words. -/
theorem cast_foldl_add (os : List O) (a : ℕ) :
    ((os.foldl (fun total order => Sz.add total (sz order)) a : ℕ) : ZMod U64.modulus) =
      a + (os.map fun o => (sz o : ZMod U64.modulus)).sum := by
  induction os generalizing a with
  | nil => simp
  | cons o os ih =>
    rw [List.foldl_cons, ih, List.map_cons, List.sum_cons, ← add_assoc]
    congr 1
    rw [Sz.add, U64.wrappingAdd, ZMod.natCast_mod, Nat.cast_add]

theorem foldl_add_lt (os : List O) {a : ℕ} (ha : a < U64.modulus) :
    os.foldl (fun total order => Sz.add total (sz order)) a < U64.modulus := by
  induction os generalizing a with
  | nil => exact ha
  | cons o os ih => exact ih (U64.wrappingAdd_lt _ _)

/-- What levels add to a bucket is what their orders of that bucket add up to. -/
theorem sum_share_levels {M : Type*} [AddCommMonoid M] {x : Side} {f : ℕ × ℕ → M} {g : O → M}
    (β : Ranked x → Ranked x) (p : Ranked x) {levels : List (ℕ × LinkedList Oid O)}
    (hf : ∀ e ∈ levels, f ((levelOf e).sz, (levelOf e).n) = (e.2.toVec.map g).sum)
    (hpx : ∀ e ∈ levels, ∀ o ∈ e.2.toVec, limitPx o = e.1) :
    ((viewEntriesOf x (levels.map levelOf)).map fun e => share f p (β e.1) e.2).sum =
      (((flat levels).filter fun o => β (rank x (limitPx o)) = p).map g).sum := by
  induction levels with
  | nil => rfl
  | cons e levels ih =>
    have ih := ih (fun e' he' => hf e' (List.mem_cons_of_mem e he'))
      (fun e' he' => hpx e' (List.mem_cons_of_mem e he'))
    have hprices := hpx e List.mem_cons_self
    have hown : (e.2.toVec.filter fun o => decide (β (rank x (limitPx o)) = p)) =
        if β (rank x e.1) = p then e.2.toVec else [] := by
      split_ifs with hp
      · rw [List.filter_eq_self]
        intro o ho
        simpa [hprices o ho] using hp
      · rw [List.filter_eq_nil_iff]
        intro o ho
        simpa [hprices o ho] using hp
    simp only [viewEntriesOf, List.map_cons, List.sum_cons, flat_cons, List.filter_append,
      List.map_append, List.sum_append, hown] at ih ⊢
    rw [ih]
    congr 1
    change (if β (rank x e.1) = p then f ((levelOf e).sz, (levelOf e).n) else 0) = _
    rw [hf e List.mem_cons_self]
    split_ifs <;> rfl

/-! ### Groups -/

/-- The orders of a side that a bucket takes in. -/
def inBucket (b : OrderBook O) (x : Side) (nSigFigs mantissa : Option ℕ) (p : ℕ) : List O :=
  (b.orders x).filter fun o => bucket (limitPx o) x nSigFigs mantissa = p

/-- A view lists the buckets of a side in its order, each with the sum and the number
of its orders. -/
structure GroupedByBucket (b : OrderBook O) (x : Side) (nSigFigs mantissa : Option ℕ)
    (view : List InnerLevel) : Prop where
  ordered : view.Pairwise fun l l' => x.Before l.px l'.px
  buckets : ∀ p, (∃ l ∈ view, l.px = p) ↔
    ∃ o ∈ b.orders x, bucket (limitPx o) x nSigFigs mantissa = p
  sz : ∀ l ∈ view, l.sz = ((inBucket b x nSigFigs mantissa l.px).map sz).sum
  n : ∀ l ∈ view, l.n = (inBucket b x nSigFigs mantissa l.px).length

section Grouped

variable {b : OrderBook O} {x : Side}

/-- The prices of a side's levels are those of its orders. -/
theorem exists_order_of_mem_entries (h : BookInv b) {e : ℕ × LinkedList Oid O}
    (he : e ∈ (b.levels x).entries) : ∃ o ∈ b.orders x, limitPx o = e.1 := by
  obtain ⟨node, hnode⟩ := List.exists_mem_of_ne_nil _ ((h x).nonempty e he)
  refine ⟨node.2, ?_, ((h x).filed e he node hnode).1⟩
  rw [OrderBook.orders_eq]
  exact mem_flat.mpr ⟨e, mem_bestLevels.mpr he, node, hnode, rfl⟩

theorem exists_entry_of_mem_orders (h : BookInv b) {o : O} (ho : o ∈ b.orders x) :
    ∃ e ∈ (b.levels x).entries, e.1 = limitPx o := by
  rw [OrderBook.orders_eq] at ho
  obtain ⟨e, he, node, hnode, rfl⟩ := mem_flat.mp ho
  exact ⟨e, mem_bestLevels.mp he, ((h x).filed e (mem_bestLevels.mp he) node hnode).1.symm⟩

theorem rank_injective (x : Side) : Function.Injective (rank x) :=
  Function.LeftInverse.injective (px_rank x)

variable {nSigFigs mantissa : Option ℕ} {c : ClosureOperator (Ranked x)}

theorem rawEntries_sz_lt (x : Side) (map : Levels O) :
    ∀ e ∈ rawEntries x map, e.2.1 < U64.modulus := by
  intro e he
  simp only [rawEntries, viewEntriesOf, List.mem_map] at he
  obtain ⟨l, ⟨f, -, rfl⟩, rfl⟩ := he
  exact foldl_add_lt f.2.toVec (by decide)

/-- A view is a roll-up along the closure that its buckets are. -/
theorem viewEntriesOf_eq_roll (h : BookInv b) (hpx : ∀ o ∈ b.orders x, limitPx o ≤ 10 ^ 19)
    (hc : ∀ r : Ranked x, r.px ≤ 10 ^ 19 → rankedBucket x nSigFigs mantissa r = c r) :
    viewEntriesOf x ((b.toL2Snapshot none nSigFigs mantissa).orders x) =
      roll mergeSums c none (rawEntries x (b.levels x)) := by
  rw [toL2Snapshot_orders]
  refine roll_congr none _ fun e he => hc e.1 ?_
  obtain ⟨list, hlist⟩ := mem_rawEntries he
  obtain ⟨o, ho, hpo⟩ := exists_order_of_mem_entries h hlist
  exact hpo.symm.trans_le (hpx o ho)

/-- The orders of a bucket are those whose price has its closure. -/
theorem inBucket_eq (hpx : ∀ o ∈ b.orders x, limitPx o ≤ 10 ^ 19)
    (hc : ∀ r : Ranked x, r.px ≤ 10 ^ 19 → rankedBucket x nSigFigs mantissa r = c r) (p : ℕ) :
    inBucket b x nSigFigs mantissa p =
      (b.orders x).filter fun o => c (rank x (limitPx o)) = rank x p := by
  refine List.filter_congr fun o ho => ?_
  have hbucket := hc (rank x (limitPx o)) (by simpa using hpx o ho)
  rw [rankedBucket, px_rank] at hbucket
  rw [← hbucket, decide_eq_decide, (rank_injective x).eq_iff]

/-- A level adds up what the orders of its bucket add up to. -/
theorem sum_inBucket {M : Type*} [AddCommMonoid M] {f : ℕ × ℕ → M} {g : O → M} (h : BookInv b)
    (hpx : ∀ o ∈ b.orders x, limitPx o ≤ 10 ^ 19)
    (hc : ∀ r : Ranked x, r.px ≤ 10 ^ 19 → rankedBucket x nSigFigs mantissa r = c r)
    (hmerge : ∀ a b, f (mergeSums a b) = f a + f b)
    (hlevel : ∀ e : ℕ × LinkedList Oid O, f ((levelOf e).sz, (levelOf e).n) = (e.2.toVec.map g).sum)
    {l : InnerLevel} (hl : l ∈ (b.toL2Snapshot none nSigFigs mantissa).orders x) :
    f (l.sz, l.n) = ((inBucket b x nSigFigs mantissa l.px).map g).sum := by
  have hmem : entryOf x l ∈ roll mergeSums c none (rawEntries x (b.levels x)) := by
    rw [← viewEntriesOf_eq_roll h hpx hc]
    exact List.mem_map_of_mem hl
  have hsum := sum_of_mem_roll mergeSums hmerge (Pending.none _)
    ((rawEntries_increasing x (b.levels x)).imp le_of_lt) hmem
  rw [Option.toList_none, List.map_nil, List.sum_nil, zero_add] at hsum
  have hpriced : ∀ e ∈ bestLevels x (b.levels x), ∀ o ∈ e.2.toVec, limitPx o = e.1 := by
    intro e he o ho
    obtain ⟨node, hnode, rfl⟩ := List.mem_map.mp ho
    exact ((h x).filed e (mem_bestLevels.mp he) node hnode).1
  have hshare := sum_share_levels (f := f) (g := g) c (rank x l.px) (fun e _ => hlevel e) hpriced
  rw [inBucket_eq hpx hc, OrderBook.orders_eq]
  exact hsum.trans hshare

theorem groupedByBucket (h : BookInv b) (hprecision : Precision nSigFigs mantissa)
    (hpx : ∀ o ∈ b.orders x, limitPx o ≤ 10 ^ 19)
    (hsz : ((b.orders x).map sz).sum < U64.modulus) :
    GroupedByBucket b x nSigFigs mantissa ((b.toL2Snapshot none nSigFigs mantissa).orders x) := by
  obtain ⟨c, hbucket⟩ := hprecision.closure x
  have hc (r : Ranked x) (hr : r.px ≤ 10 ^ 19) := (hbucket r hr).1
  have hview := viewEntriesOf_eq_roll h hpx hc
  have hincreasing := (rawEntries_increasing x (b.levels x)).imp le_of_lt
  refine ⟨?_, fun p => ?_, fun l hl => ?_, fun l hl => ?_⟩
  · have hordered := pairwise_roll mergeSums (Pending.none (c := c) _) hincreasing
    rw [← hview, viewEntriesOf, List.pairwise_map] at hordered
    exact hordered.imp rank_lt_rank.mp
  · have hpriced {px : ℕ} (hle : px ≤ 10 ^ 19) :
        c (rank x px) = rank x (bucket px x nSigFigs mantissa) := by
      rw [← hc (rank x px) (by simpa using hle), rankedBucket, px_rank]
    constructor
    · rintro ⟨l, hl, rfl⟩
      have hmem : entryOf x l ∈ roll mergeSums c none (rawEntries x (b.levels x)) := by
        rw [← hview]
        exact List.mem_map_of_mem hl
      obtain ⟨_, hd, _⟩ | ⟨e, he, hle⟩ := fst_of_mem_roll none _ hmem
      · cases hd
      · obtain ⟨list, hlist⟩ := mem_rawEntries he
        obtain ⟨o, ho, hpo⟩ := exists_order_of_mem_entries h hlist
        refine ⟨o, ho, rank_injective x ?_⟩
        rw [← hpriced (hpx o ho), hpo, rank_px, ← hle]
        rfl
    · rintro ⟨o, ho, rfl⟩
      obtain ⟨f, hf, hpo⟩ := exists_entry_of_mem_orders h ho
      obtain ⟨e, he, hpe⟩ := exists_mem_rawEntries (x := x) hf
      have hmem := closure_mem_roll (c := c) mergeSums none _ (by simp) hincreasing he
      rw [← hview, hpe, hpo, hpriced (hpx o ho), viewEntriesOf, List.map_map] at hmem
      obtain ⟨l, hl, hpl⟩ := List.mem_map.mp hmem
      exact ⟨l, hl, rank_injective x hpl⟩
  · have hcast := sum_inBucket (f := fun a => (a.1 : ZMod U64.modulus))
      (g := fun o => (sz o : ZMod U64.modulus)) h hpx hc
      (fun a b => by simp [mergeSums, Sz.add, U64.wrappingAdd, ZMod.natCast_mod])
      (fun e => by simp [levelOf, LinkedList.fold, cast_foldl_add]) hl
    have hsub : ((inBucket b x nSigFigs mantissa l.px).map sz).sum ≤ ((b.orders x).map sz).sum :=
      (List.filter_sublist.map sz).sum_le_sum (by simp)
    have hword : l.sz < U64.modulus := by
      have hlevels : ∀ q ∈ roll mergeSums c none (rawEntries x (b.levels x)),
          q.2.1 < U64.modulus :=
        forall_mem_roll (Q := fun a : ℕ × ℕ => a.1 < U64.modulus)
          (fun a b => U64.wrappingAdd_lt a.1 b.1) (by simp) (rawEntries_sz_lt x (b.levels x))
      rw [← hview] at hlevels
      exact hlevels _ (List.mem_map_of_mem hl)
    have hmod := (ZMod.natCast_eq_natCast_iff' l.sz _ U64.modulus).mp
      (hcast.trans (by rw [Nat.cast_list_sum, List.map_map]; rfl))
    rwa [Nat.mod_eq_of_lt hword, Nat.mod_eq_of_lt (hsub.trans_lt hsz)] at hmod
  · have hcount := sum_inBucket (f := fun a => a.2) (g := fun _ => 1) h hpx hc
      (fun a b => by simp [mergeSums, Nat.add_comm])
      (fun e => by simp [levelOf, LinkedList.fold]) hl
    simpa using hcount

/-- Each view of a book groups its orders by bucket, and a view of some number of levels
is the front of it. -/
theorem l2_view_groups_by_bucket (hb : OrderBook.Built b)
    (hprecision : Precision nSigFigs mantissa) (hpx : ∀ o ∈ b.orders x, limitPx o ≤ 10 ^ 19)
    (hsz : ((b.orders x).map sz).sum < U64.modulus) :
    GroupedByBucket b x nSigFigs mantissa ((b.toL2Snapshot none nSigFigs mantissa).orders x) ∧
      ∀ k, (b.toL2Snapshot (some k) nSigFigs mantissa).orders x =
        ((b.toL2Snapshot none nSigFigs mantissa).orders x).take k := by
  refine ⟨groupedByBucket hb.sound.filed hprecision hpx hsz, fun k => ?_⟩
  rw [toL2Snapshot_eq, toL2Snapshot_eq, l2LevelsToL2Levels_take]

end Grouped

end

theorem l2_view_groups_by_bucket_three_asks :
    let b := [MinimalOrder.new 1 30 12345 .ask, MinimalOrder.new 2 50 12301 .ask,
      MinimalOrder.new 3 20 12401 .ask].foldl OrderBook.addOrder OrderBook.new
    GroupedByBucket b .ask (some 3) none ((b.toL2Snapshot none (some 3) none).orders .ask) ∧
      (∀ k, (b.toL2Snapshot (some k) (some 3) none).orders .ask =
        ((b.toL2Snapshot none (some 3) none).orders .ask).take k) ∧
      (b.toL2Snapshot none (some 3) none).orders .ask = [⟨12400, 80, 2⟩, ⟨12500, 20, 1⟩] := by
  intro b
  have hb : OrderBook.Built b :=
    .addOrderBefore (.addOrderBefore (.addOrderBefore .new _ none) _ none) _ none
  obtain ⟨hgroups, hfront⟩ := l2_view_groups_by_bucket hb (x := .ask)
    (.figures (n := 3) (by decide)) (by decide) (by decide)
  exact ⟨hgroups, hfront, by decide +kernel⟩

end OrderBookServer
