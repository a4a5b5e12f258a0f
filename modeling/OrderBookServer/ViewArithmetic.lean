import OrderBookServer.CheckedViews
import OrderBookServer.GroupRollup
import OrderBookServer.LevelGroups
import OrderBookServer.Subscription

/-!
# When the views of a book overflow

Prices and sizes are any words. Views are computed without an overflow exactly when no ask
is priced so high that two figures round it out of the word, and the orders that a view puts
into one bucket have sizes that add up to a word. Then each level of a view has the sum of a
run of orders of the book, and its price is no better than theirs.
-/
namespace OrderBookServer
open InnerOrder Rollup SigFigs Ranked

/-! ### Roundings -/

/-- A precision that views are rounded to. -/
structure Rounding where
  nSigFigs : ℕ
  mantissa : Option ℕ
  two_le : 2 ≤ nSigFigs
  dvd_ten : mantissa.getD 1 ∣ 10

namespace Rounding

def params (v : Rounding) : L2SnapshotParams := ⟨some v.nSigFigs, v.mantissa⟩

/-- Asks are rounded up, bids down. -/
def roundPx (v : Rounding) (x : Side) (px : ℕ) : ℕ :=
  match x with
  | .ask => roundUp v.nSigFigs (v.mantissa.getD 1) px
  | .bid => roundDown v.nSigFigs (v.mantissa.getD 1) px

def closure (v : Rounding) (x : Side) : ClosureOperator (Ranked x) :=
  Ranked.round x v.nSigFigs (v.mantissa.getD 1) v.two_le v.dvd_ten

theorem px_closure (v : Rounding) {x : Side} (r : Ranked x) :
    (v.closure x r).px = v.roundPx x r.px := by cases x <;> rfl

/-- The increment of a bucket is a word and not zero, whatever the price. -/
theorem increment_fits (v : Rounding) {px : ℕ} (hpx : px < U64.modulus) :
    10 ^ (digits px - v.nSigFigs) < U64.modulus ∧
      width v.nSigFigs (v.mantissa.getD 1) px < U64.modulus :=
  increment_lt v.two_le v.dvd_ten (digits_le_twenty hpx)

/-- A bucket is the rounding of its price, unless that leaves the word. -/
theorem checkedBucket_eq (v : Rounding) (x : Side) {px : ℕ} (hpx : px < U64.modulus) :
    checkedBucket px x (some v.nSigFigs) v.mantissa =
      if v.roundPx x px < U64.modulus then some (v.roundPx x px) else none := by
  obtain ⟨hpow, hwidth⟩ := v.increment_fits hpx
  have hpos := width_pos v.dvd_ten v.nSigFigs px
  have hpower : U64.checkedPow 10 (Px.numDigits px - v.nSigFigs) =
      some (10 ^ (digits px - v.nSigFigs)) := by
    rw [numDigits_eq]
    exact if_pos hpow
  have hinc : U64.checkedMul (v.mantissa.getD 1) (10 ^ (digits px - v.nSigFigs)) =
      some (width v.nSigFigs (v.mantissa.getD 1) px) := if_pos hwidth
  simp only [checkedBucket, hpower, Option.bind_eq_bind, Option.bind_some, hinc]
  rw [if_neg (by omega)]
  cases x with
  | ask =>
    have hup : U64.divCeil px (width v.nSigFigs (v.mantissa.getD 1) px) *
        width v.nSigFigs (v.mantissa.getD 1) px = v.roundPx .ask px := by
      rw [U64.divCeil_eq hpos]
      rfl
    dsimp only
    rw [U64.checkedMul, hup]
  | bid => rfl

end Rounding

/-- A precision whose buckets are closures, as far as they stay in the word. -/
def Buckets (x : Side) (nSigFigs mantissa : Option ℕ) (c : ClosureOperator (Ranked x)) : Prop :=
  ∀ r : Ranked x, r.px < U64.modulus → checkedBucket r.px x nSigFigs mantissa =
    if (c r).px < U64.modulus then some (c r).px else none

theorem Rounding.buckets (v : Rounding) (x : Side) :
    Buckets x (some v.nSigFigs) v.mantissa (v.closure x) := by
  intro r hr
  rw [v.px_closure]
  exact v.checkedBucket_eq x hr

theorem buckets_unrounded (x : Side) : Buckets x none none (ClosureOperator.id (Ranked x)) :=
  fun _ hr => (if_pos hr).symm

/-! ### Levels of groups -/

section

variable {O : Type} [InnerOrder O] {x : Side}

/-- The level of a group of orders, its size added up without a bound. -/
def levelOfGroup (g : Ranked x × List O) : InnerLevel := ⟨g.1.px, (g.2.map sz).sum, g.2.length⟩

/-- The level of a group is made of words. -/
def Fits (g : Ranked x × List O) : Prop :=
  g.1.px < U64.modulus ∧ (g.2.map sz).sum < U64.modulus

instance (g : Ranked x × List O) : Decidable (Fits g) := inferInstanceAs (Decidable (_ ∧ _))

/-- What a build with overflow checks sums a group up to. -/
def checkedGroup (g : Ranked x × List O) : Option InnerLevel :=
  if (g.2.map sz).sum < U64.modulus then some (levelOfGroup g) else none

theorem foldl_checkedAdd (os : List O) {init : ℕ} (hinit : init < U64.modulus) :
    os.foldl (fun total order => total.bind fun t => U64.checkedAdd t (sz order)) (some init) =
      if init + (os.map sz).sum < U64.modulus then some (init + (os.map sz).sum) else none := by
  induction os generalizing init with
  | nil => exact (if_pos hinit).symm
  | cons o os ih =>
    rw [List.foldl_cons, Option.bind_some, List.map_cons, List.sum_cons, ← Nat.add_assoc]
    by_cases hadd : init + sz o < U64.modulus
    · rw [U64.checkedAdd, if_pos hadd]
      exact ih hadd
    · rw [U64.checkedAdd, if_neg hadd, fold_none, if_neg (by omega)]

theorem checkedLevelOf_eq (e : ℕ × LinkedList Oid O) :
    checkedLevelOf e = checkedGroup (rank x e.1, e.2.toVec) := by
  have hcount : (e.2.fold 0 fun n _ => n + 1) = e.2.toVec.length := by
    simp [LinkedList.fold]
  simp only [checkedLevelOf, LinkedList.fold, foldl_checkedAdd _ (show 0 < U64.modulus by decide),
    Nat.zero_add, checkedGroup, levelOfGroup, px_rank]
  split_ifs
  · rw [← hcount]
    rfl
  · rfl

variable {nSigFigs mantissa : Option ℕ} {c : ClosureOperator (Ranked x)}

theorem newBucket_group (cur : Option (Ranked x × List O)) (g : Ranked x × List O) :
    newBucket x (cur.map levelOfGroup) (levelOfGroup g) = true ↔ ∀ d ∈ cur, d.1 < g.1 := by
  cases cur with
  | none => simp [newBucket]
  | some d => simp [newBucket_some, entryOf, levelOfGroup]

/-- A group that is opened or merged into has at least what is added to it. -/
theorem sum_le_sum_push (cur : Option (Ranked x × List O)) (g : Ranked x × List O) :
    (g.2.map sz).sum ≤ ((push join c cur g).2.map sz).sum := by
  cases cur with
  | none => exact le_rfl
  | some d =>
    simp only [push]
    split_ifs
    · exact le_rfl
    · simp [join]

theorem checkedBuildL2Level_opens (hc : Buckets x nSigFigs mantissa c)
    {cur : Option (Ranked x × List O)} (done : List InnerLevel) {g : Ranked x × List O}
    (hg : g.1.px < U64.modulus) (hsum : (g.2.map sz).sum < U64.modulus)
    (hopen : ∀ d ∈ cur, d.1 < g.1) :
    checkedBuildL2Level none nSigFigs mantissa x (cur.map levelOfGroup, done) (levelOfGroup g) =
      if Fits (c g.1, g.2) then
        some (false, some (levelOfGroup (c g.1, g.2)), done ++ cur.toList.map levelOfGroup)
      else none := by
  have hdone : (cur.map levelOfGroup).toList = cur.toList.map levelOfGroup := by
    cases cur <;> rfl
  have hbucket : checkedBucket (levelOfGroup g).px x nSigFigs mantissa =
      if (c g.1).px < U64.modulus then some (c g.1).px else none := hc g.1 hg
  rw [checkedBuildL2Level, if_pos ((newBucket_group cur g).mpr hopen), hbucket]
  by_cases hpx : (c g.1).px < U64.modulus
  · rw [if_pos hpx, if_pos ⟨hpx, hsum⟩]
    simp [levelOfGroup, hdone]
  · rw [if_neg hpx, if_neg fun h => hpx h.1]
    rfl

theorem checkedBuildL2Level_merges {d g : Ranked x × List O} (done : List InnerLevel)
    (hd : Fits d) (hin : ¬ d.1 < g.1) :
    checkedBuildL2Level none nSigFigs mantissa x (some (levelOfGroup d), done) (levelOfGroup g) =
      if Fits (d.1, d.2 ++ g.2) then some (false, some (levelOfGroup (d.1, d.2 ++ g.2)), done)
      else none := by
  have htotal : ((d.2 ++ g.2).map sz).sum = (g.2.map sz).sum + (d.2.map sz).sum := by
    rw [List.map_append, List.sum_append, Nat.add_comm]
  have hnew : ¬ newBucket x (some (levelOfGroup d)) (levelOfGroup g) = true := fun h =>
    hin ((newBucket_group (some d) g).mp h d rfl)
  rw [checkedBuildL2Level, if_neg hnew]
  simp only [levelOfGroup, U64.checkedAdd, ← htotal]
  by_cases hfits : ((d.2 ++ g.2).map sz).sum < U64.modulus
  · rw [if_pos hfits, if_pos ⟨hd.1, hfits⟩]
    simp
  · rw [if_neg hfits, if_neg fun h => hfits h.2]
    rfl

/-- One level more: the run goes on exactly when the group that it opens, or is merged
into, fits. -/
theorem checkedBuildL2Level_group (hc : Buckets x nSigFigs mantissa c)
    (cur : Option (Ranked x × List O)) (done : List InnerLevel) {g : Ranked x × List O}
    (hcur : ∀ d ∈ cur, Fits d) (hg : g.1.px < U64.modulus) :
    ((checkedGroup g).bind fun level =>
        checkedBuildL2Level none nSigFigs mantissa x (cur.map levelOfGroup, done) level) =
      if Fits (push join c cur g) then
        some (false, some (levelOfGroup (push join c cur g)),
          done ++ (flush cur g).map levelOfGroup)
      else none := by
  by_cases hsum : (g.2.map sz).sum < U64.modulus
  · rw [checkedGroup, if_pos hsum, Option.bind_some]
    by_cases hopen : ∀ d ∈ cur, d.1 < g.1
    · obtain ⟨hpush, hflush⟩ := push_of_opens join c hopen
      rw [hpush, hflush]
      exact checkedBuildL2Level_opens hc done hg hsum hopen
    · push Not at hopen
      obtain ⟨d, hd, hle⟩ := hopen
      obtain rfl := Option.mem_def.mp hd
      obtain ⟨hpush, hflush⟩ := push_of_merges join c (not_lt.mpr hle)
      rw [hpush, hflush, List.map_nil, List.append_nil]
      exact checkedBuildL2Level_merges done (hcur d rfl) (not_lt.mpr hle)
  · have hle := sum_le_sum_push (c := c) cur g
    have hnot : ¬ Fits (push join c cur g) := fun h => hsum (hle.trans_lt h.2)
    rw [checkedGroup, if_neg hsum, if_neg hnot]
    rfl

theorem Fits.of_append {p : Ranked x} {os more : List O} (h : Fits (p, os ++ more)) :
    Fits (p, os) := by
  have hsum := h.2
  rw [List.map_append, List.sum_append] at hsum
  exact ⟨h.1, (Nat.le_add_right _ _).trans_lt hsum⟩

theorem fits_of_mem_flush {cur : Option (Ranked x × List O)} {g q : Ranked x × List O}
    (hcur : ∀ d ∈ cur, Fits d) (hq : q ∈ flush cur g) : Fits q := by
  cases cur with
  | none => cases hq
  | some d =>
    simp only [flush] at hq
    split_ifs at hq
    · obtain rfl := List.mem_singleton.mp hq
      exact hcur q rfl
    · cases hq

/-- The loop over groups. -/
theorem checkedBuildL2Levels_groups (hc : Buckets x nSigFigs mantissa c)
    (cur : Option (Ranked x × List O)) (done : List InnerLevel) {gs : List (Ranked x × List O)}
    (hcur : ∀ d ∈ cur, Fits d) (hgs : ∀ g ∈ gs, g.1.px < U64.modulus) :
    ((checkedBuildL2Levels none nSigFigs mantissa x (cur.map levelOfGroup, done)
        (gs.map checkedGroup)).map fun out => out.2 ++ out.1.toList) =
      if ∀ q ∈ roll join c cur gs, Fits q then
        some (done ++ (roll join c cur gs).map levelOfGroup)
      else none := by
  induction gs generalizing cur done with
  | nil =>
    have hfits : ∀ q ∈ roll join c cur [], Fits q := by simpa [roll] using hcur
    rw [if_pos hfits]
    cases cur <;> simp [checkedBuildL2Levels, roll]
  | cons g gs ih =>
    have hstep := checkedBuildL2Level_group hc cur done hcur (hgs g List.mem_cons_self)
    have hloop : checkedBuildL2Levels none nSigFigs mantissa x (cur.map levelOfGroup, done)
        ((g :: gs).map checkedGroup) =
        ((checkedGroup g).bind fun level => checkedBuildL2Level none nSigFigs mantissa x
          (cur.map levelOfGroup, done) level).bind fun out =>
            if out.1 then some out.2
            else checkedBuildL2Levels none nSigFigs mantissa x out.2 (gs.map checkedGroup) := by
      rw [List.map_cons, checkedBuildL2Levels, Option.bind_assoc]
      rfl
    rw [hloop, hstep]
    by_cases hpush : Fits (push join c cur g)
    · have hrest := ih (some (push join c cur g)) (done ++ (flush cur g).map levelOfGroup)
        (fun d hd => Option.some.inj hd ▸ hpush) fun g' hg' => hgs g' (List.mem_cons_of_mem g hg')
      rw [Option.map_some] at hrest
      rw [if_pos hpush, Option.bind_some, if_neg (by simp), hrest]
      simp only [roll, List.forall_mem_append, List.map_append, List.append_assoc]
      by_cases hall : ∀ q ∈ roll join c (some (push join c cur g)) gs, Fits q
      · rw [if_pos hall, if_pos ⟨fun q hq => fits_of_mem_flush hcur hq, hall⟩]
      · rw [if_neg hall, if_neg fun h => hall h.2]
    · -- The group only grows, so the level that it ends in does not fit either.
      have hnot : ¬ ∀ q ∈ roll join c cur (g :: gs), Fits q := by
        intro hall
        apply hpush
        apply of_forall_mem_roll (fun _ _ _ h => h.of_append)
        intro q hq
        exact hall q (List.mem_append_right _ hq)
      rw [if_neg hpush, if_neg hnot]
      rfl

theorem checkedLevels_groups (hc : Buckets x nSigFigs mantissa c)
    {gs : List (Ranked x × List O)} (hgs : ∀ g ∈ gs, g.1.px < U64.modulus) :
    checkedLevels (gs.map checkedGroup) x none nSigFigs mantissa =
      if ∀ q ∈ roll join c none gs, Fits q then some ((roll join c none gs).map levelOfGroup)
      else none := by
  have hloop := checkedBuildL2Levels_groups hc none [] (by simp) hgs
  rw [List.nil_append] at hloop
  rw [← hloop, checkedLevels, if_neg (by simp), Option.map_eq_bind]
  rfl

/-! ### Groups of a book -/

/-- The price that a view shows for a price of the book, by the roundings from which the
view is built. -/
def storedPx (x : Side) (path : List Rounding) (px : ℕ) : ℕ :=
  path.foldl (fun px v => v.roundPx x px) px

/-- The orders of a view, one group for each level. -/
def groupsAt (b : OrderBook O) (x : Side) (path : List Rounding) : List (Ranked x × List O) :=
  path.foldl (fun gs v => roll join (v.closure x) none gs)
    ((bestLevels x (b.levels x)).map fun e => (rank x e.1, e.2.toVec))

theorem grouped_levels {b : OrderBook O} (hb : BookInv b) (x : Side) :
    Grouped (fun o => rank x (limitPx o)) (b.orders x) (groupsAt b x []) := by
  refine ⟨?_, ?_, fun g hg o ho => ?_, fun g hg => ?_⟩
  · have hraw := rawEntries_increasing x (b.levels x)
    rw [rawEntries, viewEntriesOf, List.map_map, List.pairwise_map] at hraw
    rw [groupsAt, List.foldl_nil, List.pairwise_map]
    exact hraw
  · rw [OrderBook.orders_eq, sideOrders, flat, groupsAt, List.foldl_nil, List.flatMap_map]
  · obtain ⟨e, he, rfl⟩ := List.mem_map.mp hg
    obtain ⟨node, hnode, rfl⟩ := List.mem_map.mp ho
    rw [((hb x).filed e (mem_bestLevels.mp he) node hnode).1]
  · obtain ⟨e, he, rfl⟩ := List.mem_map.mp hg
    have hne := (hb x).nonempty e (mem_bestLevels.mp he)
    simpa [LinkedList.toVec] using hne

omit [InnerOrder O] in
theorem grouped_foldl {F : O → Ranked x} {os : List O} {gs : List (Ranked x × List O)}
    (h : Grouped F os gs) (path : List Rounding) :
    Grouped (fun o => path.foldl (fun r v => v.closure x r) (F o)) os
      (path.foldl (fun gs v => roll join (v.closure x) none gs) gs) := by
  induction path generalizing F gs with
  | nil => exact h
  | cons v path ih => exact ih (h.roll (v.closure x))

theorem foldl_closure (x : Side) (path : List Rounding) (px : ℕ) :
    path.foldl (fun r v => v.closure x r) (rank x px) = rank x (storedPx x path px) := by
  induction path generalizing px with
  | nil => rfl
  | cons v path ih =>
    have hfirst : v.closure x (rank x px) = rank x (v.roundPx x px) := by
      rw [← rank_px (v.closure x (rank x px)), v.px_closure, px_rank]
    rw [List.foldl_cons, hfirst, ih]
    rfl

/-- A level of a view holds the orders of the book that the view shows at its price. -/
theorem groupsAt_grouped {b : OrderBook O} (hb : BookInv b) (x : Side) (path : List Rounding) :
    Grouped (fun o => rank x (storedPx x path (limitPx o))) (b.orders x) (groupsAt b x path) := by
  have h := grouped_foldl (grouped_levels hb x) path
  simp only [foldl_closure] at h
  exact h

/-- Every group of the view fits. -/
def FitsAt (b : OrderBook O) (path : List Rounding) : Prop :=
  ∀ x, ∀ q ∈ groupsAt b x path, Fits q

/-- The view with every size and price taken without a bound. -/
def viewAt (b : OrderBook O) (path : List Rounding) : Snapshot InnerLevel where
  bids := (groupsAt b .bid path).map levelOfGroup
  asks := (groupsAt b .ask path).map levelOfGroup

omit [InnerOrder O] in
theorem groupsAt_append (b : OrderBook O) (x : Side) (path : List Rounding) (v : Rounding) :
    groupsAt b x (path ++ [v]) = roll join (v.closure x) none (groupsAt b x path) := by
  rw [groupsAt, List.foldl_append]
  rfl

theorem checkedMapToL2Levels_eq {b : OrderBook O} (hb : BookInv b) (x : Side)
    (hpx : ∀ o ∈ b.orders x, limitPx o < U64.modulus) :
    checkedMapToL2Levels (b.levels x) x none none none =
      if ∀ q ∈ groupsAt b x [], Fits q then some ((groupsAt b x []).map levelOfGroup)
      else none := by
  have hlevels : checkedMapToL2Levels (b.levels x) x none none none =
      checkedLevels ((bestLevels x (b.levels x)).map checkedLevelOf) x none none none := by
    cases x <;> rfl
  have hgroups : (bestLevels x (b.levels x)).map checkedLevelOf =
      (groupsAt b x []).map checkedGroup := by
    rw [groupsAt, List.foldl_nil, List.map_map]
    exact List.map_congr_left fun e _ => checkedLevelOf_eq e
  have hgrouped := groupsAt_grouped hb x []
  have hprices : ∀ g ∈ groupsAt b x [], g.1.px < U64.modulus := by
    refine (hgrouped.forall_iff (R := fun r _ => r.px < U64.modulus)).mpr fun o ho => ?_
    rw [px_rank]
    exact hpx o ho
  have hid : roll join (ClosureOperator.id (Ranked x)) none (groupsAt b x []) = groupsAt b x [] :=
    roll_id join hgrouped.increasing
  rw [hlevels, hgroups, checkedLevels_groups (buckets_unrounded x) hprices, hid]

theorem checkedL2LevelsToL2Levels_eq {b : OrderBook O} {path : List Rounding} (h : FitsAt b path)
    (v : Rounding) (x : Side) :
    checkedL2LevelsToL2Levels ((groupsAt b x path).map levelOfGroup) x none (some v.nSigFigs)
        v.mantissa =
      if ∀ q ∈ groupsAt b x (path ++ [v]), Fits q then
        some ((groupsAt b x (path ++ [v])).map levelOfGroup)
      else none := by
  have hsome : ((groupsAt b x path).map levelOfGroup).map some =
      (groupsAt b x path).map checkedGroup := by
    rw [List.map_map]
    exact List.map_congr_left fun g hg => (if_pos (h x g hg).2).symm
  rw [checkedL2LevelsToL2Levels, hsome,
    checkedLevels_groups (v.buckets x) fun g hg => (h x g hg).1, groupsAt_append]

theorem eq_viewAt_iff {b : OrderBook O} {path : List Rounding} {view : Snapshot InnerLevel} :
    (∃ bids, (if ∀ q ∈ groupsAt b .bid path, Fits q then
        some ((groupsAt b .bid path).map levelOfGroup) else none) = some bids ∧
      ∃ asks, (if ∀ q ∈ groupsAt b .ask path, Fits q then
        some ((groupsAt b .ask path).map levelOfGroup) else none) = some asks ∧
          some ⟨bids, asks⟩ = some view) ↔ FitsAt b path ∧ viewAt b path = view := by
  simp only [Option.ite_none_right_eq_some, Option.some.injEq]
  constructor
  · rintro ⟨_, ⟨hbids, rfl⟩, _, ⟨hasks, rfl⟩, rfl⟩
    refine ⟨fun x => ?_, rfl⟩
    cases x with
    | ask => exact hasks
    | bid => exact hbids
  · rintro ⟨hfits, rfl⟩
    exact ⟨_, ⟨hfits .bid, rfl⟩, _, ⟨hfits .ask, rfl⟩, rfl⟩

/-- The view of the book itself. -/
theorem book_checked_iff {b : OrderBook O} (hb : BookInv b)
    (hpx : ∀ x, ∀ o ∈ b.orders x, limitPx o < U64.modulus) {view : Snapshot InnerLevel} :
    b.checkedToL2Snapshot none none none = some view ↔ FitsAt b [] ∧ viewAt b [] = view := by
  have hbids := checkedMapToL2Levels_eq hb .bid (hpx .bid)
  have hasks := checkedMapToL2Levels_eq hb .ask (hpx .ask)
  rw [← eq_viewAt_iff, ← hbids, ← hasks]
  simp only [OrderBook.checkedToL2Snapshot, Option.bind_eq_bind, Option.bind_eq_some_iff]
  exact Iff.rfl

/-- A view built from one that fits. -/
theorem view_checked_iff {b : OrderBook O} {path : List Rounding} (h : FitsAt b path)
    (v : Rounding) {view : Snapshot InnerLevel} :
    (viewAt b path).checkedToL2Snapshot none (some v.nSigFigs) v.mantissa = some view ↔
      FitsAt b (path ++ [v]) ∧ viewAt b (path ++ [v]) = view := by
  rw [← eq_viewAt_iff, ← checkedL2LevelsToL2Levels_eq h v .bid,
    ← checkedL2LevelsToL2Levels_eq h v .ask]
  simp only [Snapshot.checkedToL2Snapshot, Option.bind_eq_bind, Option.bind_eq_some_iff]
  exact Iff.rfl

/-! ### The seven views -/

def five : Rounding := ⟨5, none, Nat.le_add_left 2 3, one_dvd 10⟩
def fiveByTwo : Rounding := ⟨5, some 2, Nat.le_add_left 2 3, Dvd.intro 5 rfl⟩
def fiveByFive : Rounding := ⟨5, some 5, Nat.le_add_left 2 3, Dvd.intro 2 rfl⟩
def four : Rounding := ⟨4, none, Nat.le_add_left 2 2, one_dvd 10⟩
def three : Rounding := ⟨3, none, Nat.le_add_left 2 1, one_dvd 10⟩
def two : Rounding := ⟨2, none, le_rfl, one_dvd 10⟩

/-- The views that are kept, each with the roundings from which it is built. -/
def viewPaths : List (L2SnapshotParams × List Rounding) :=
  [(⟨none, none⟩, []), (⟨some 5, none⟩, [five]), (⟨some 5, some 2⟩, [five, fiveByTwo]),
    (⟨some 5, some 5⟩, [five, fiveByFive]), (⟨some 4, none⟩, [five, fiveByFive, four]),
    (⟨some 3, none⟩, [five, fiveByFive, four, three]),
    (⟨some 2, none⟩, [five, fiveByFive, four, three, two])]

theorem checkedViewEntries_eq_some_iff {b : OrderBook O} (hb : BookInv b)
    (hpx : ∀ x, ∀ o ∈ b.orders x, limitPx o < U64.modulus)
    {entries : List (L2SnapshotParams × Snapshot InnerLevel)} :
    checkedViewEntries b = some entries ↔
      (∀ e ∈ viewPaths, FitsAt b e.2) ∧ entries = viewPaths.map fun e => (e.1, viewAt b e.2) := by
  rw [checkedViewEntries_eq]
  simp only [Option.bind_eq_bind, Option.bind_eq_some_iff, Option.some.injEq]
  constructor
  · rintro ⟨v, hv, v5, hv5, v52, hv52, v55, hv55, v4, hv4, v3, hv3, v2, hv2, rfl⟩
    obtain ⟨h0, rfl⟩ := (book_checked_iff hb hpx).mp hv
    obtain ⟨h5, rfl⟩ := (view_checked_iff h0 five).mp hv5
    obtain ⟨h52, rfl⟩ := (view_checked_iff h5 fiveByTwo).mp hv52
    obtain ⟨h55, rfl⟩ := (view_checked_iff h5 fiveByFive).mp hv55
    obtain ⟨h4, rfl⟩ := (view_checked_iff h55 four).mp hv4
    obtain ⟨h3, rfl⟩ := (view_checked_iff h4 three).mp hv3
    obtain ⟨h2, rfl⟩ := (view_checked_iff h3 two).mp hv2
    refine ⟨?_, rfl⟩
    simp only [viewPaths, List.forall_mem_cons]
    exact ⟨h0, h5, h52, h55, h4, h3, h2, by simp⟩
  · rintro ⟨hall, rfl⟩
    simp only [viewPaths, List.forall_mem_cons] at hall
    obtain ⟨h0, h5, h52, h55, h4, h3, h2, -⟩ := hall
    exact ⟨_, (book_checked_iff hb hpx).mpr ⟨h0, rfl⟩,
      _, (view_checked_iff h0 five).mpr ⟨h5, rfl⟩,
      _, (view_checked_iff h5 fiveByTwo).mpr ⟨h52, rfl⟩,
      _, (view_checked_iff h5 fiveByFive).mpr ⟨h55, rfl⟩,
      _, (view_checked_iff h55 four).mpr ⟨h4, rfl⟩,
      _, (view_checked_iff h4 three).mpr ⟨h3, rfl⟩,
      _, (view_checked_iff h3 two).mpr ⟨h2, rfl⟩, rfl⟩

/-! ### The condition on the book -/

/-- The orders of a side that a view shows at the price of the order `o`. -/
def sharing (b : OrderBook O) (x : Side) (path : List Rounding) (o : O) : List O :=
  (b.orders x).filter fun o' => storedPx x path (limitPx o') = storedPx x path (limitPx o)

/-- A view fits when the prices it shows do, and the orders it shows at one price. -/
theorem fitsAt_iff {b : OrderBook O} (hb : BookInv b) (path : List Rounding) :
    FitsAt b path ↔ ∀ x, ∀ o ∈ b.orders x, storedPx x path (limitPx o) < U64.modulus ∧
      ((sharing b x path o).map sz).sum < U64.modulus := by
  refine forall_congr' fun x => ?_
  have hgroups := (groupsAt_grouped hb x path).forall_iff
    (R := fun r os => r.px < U64.modulus ∧ (os.map sz).sum < U64.modulus)
  refine hgroups.trans (forall₂_congr fun o _ => ?_)
  rw [px_rank, sharing]
  simp only [(rank_injective x).eq_iff]

/-- A view shows no price better than it is. -/
theorem storedPx_worse (x : Side) (path : List Rounding) (px : ℕ) :
    rank x px ≤ rank x (storedPx x path px) := by
  induction path generalizing px with
  | nil => exact le_rfl
  | cons v path ih =>
    have hfirst : rank x px ≤ rank x (v.roundPx x px) := by
      have hle := (v.closure x).le_closure (rank x px)
      rwa [← rank_px (v.closure x (rank x px)), v.px_closure, px_rank] at hle
    exact hfirst.trans (ih (v.roundPx x px))

theorem le_storedPx_ask (path : List Rounding) (px : ℕ) : px ≤ storedPx .ask path px :=
  storedPx_worse .ask path px

theorem storedPx_bid_le (path : List Rounding) (px : ℕ) : storedPx .bid path px ≤ px :=
  storedPx_worse .bid path px

/-- The highest price that two figures round into the word. -/
def highestAsk : ℕ := 18 * 10 ^ 18

/-- Up to the highest price a rounding to a grid that has it stays there. -/
theorem storedPx_ask_le {path : List Rounding}
    (hpath : ∀ v ∈ path, OnGrid v.nSigFigs (v.mantissa.getD 1) highestAsk) {px : ℕ}
    (hpx : px ≤ highestAsk) : storedPx .ask path px ≤ highestAsk := by
  induction path generalizing px with
  | nil => exact hpx
  | cons v path ih =>
    apply ih fun w hw => hpath w (List.mem_cons_of_mem v hw)
    exact roundUp_le_of_onGrid v.two_le v.dvd_ten hpx (hpath v List.mem_cons_self)

theorem viewPaths_onGrid : ∀ e ∈ viewPaths, ∀ v ∈ e.2,
    OnGrid v.nSigFigs (v.mantissa.getD 1) highestAsk := by
  decide +kernel

/-- Two figures of a word above the highest price make the next grid point, 19 * 10 ^ 18,
which is no word. -/
theorem modulus_le_storedPx {px : ℕ} (hpx : highestAsk < px) :
    U64.modulus ≤ storedPx .ask [five, fiveByFive, four, three, two] px := by
  have hlarge : highestAsk < storedPx .ask [five, fiveByFive, four, three, two] px :=
    hpx.trans_le (le_storedPx_ask _ px)
  have hgrid : OnGrid 2 1 (storedPx .ask [five, fiveByFive, four, three, two] px) :=
    onGrid_roundUp two.two_le two.dvd_ten _
  generalize storedPx .ask [five, fiveByFive, four, three, two] px = r at hlarge hgrid
  by_contra hword
  have hword : r < U64.modulus := Nat.not_le.mp hword
  have hdigits : digits r = 20 := by
    apply le_antisymm ((digits_le_iff (by omega)).mpr (hword.trans (by decide)))
    calc 20 = digits (10 ^ 19) := (digits_pow 19).symm
      _ ≤ digits r := digits_mono ((show 10 ^ 19 ≤ highestAsk by decide).trans hlarge.le)
  rw [OnGrid, width, hdigits, Nat.one_mul] at hgrid
  obtain ⟨k, rfl⟩ := hgrid
  simp only [highestAsk, U64.modulus] at hlarge hword
  omega

/-- No ask is priced above 18 * 10 ^ 18, and the orders that a view shows at one price
have sizes that add up to a word. -/
def OrderBook.ViewsFit (b : OrderBook O) : Prop :=
  (∀ o ∈ b.orders .ask, limitPx o ≤ highestAsk) ∧
    ∀ x, ∀ e ∈ viewPaths, ∀ o ∈ b.orders x, ((sharing b x e.2 o).map sz).sum < U64.modulus

theorem fitsAt_all_iff {b : OrderBook O} (hb : BookInv b)
    (hpx : ∀ x, ∀ o ∈ b.orders x, limitPx o < U64.modulus) :
    (∀ e ∈ viewPaths, FitsAt b e.2) ↔ b.ViewsFit := by
  simp only [fitsAt_iff hb]
  constructor
  · intro h
    refine ⟨fun o ho => ?_, fun x e he o ho => (h e he x o ho).2⟩
    have hview := (h (⟨some 2, none⟩, [five, fiveByFive, four, three, two])
      (by simp [viewPaths]) .ask o ho).1
    by_contra hhigh
    exact absurd hview (not_lt.mpr (modulus_le_storedPx (not_le.mp hhigh)))
  · rintro ⟨hasks, hsums⟩ e he x o ho
    refine ⟨?_, hsums x e he o ho⟩
    cases x with
    | ask =>
      calc storedPx .ask e.2 (limitPx o) ≤ highestAsk :=
            storedPx_ask_le (viewPaths_onGrid e he) (hasks o ho)
        _ < U64.modulus := by decide
    | bid => exact (storedPx_bid_le e.2 (limitPx o)).trans_lt (hpx .bid o ho)

/-! ### Exact views -/

/-- The levels of a view cut the orders of a side into consecutive groups: a level has the
sum and the number of its orders, and a price no better than theirs. -/
def SumsUp (x : Side) (os : List O) (levels : List InnerLevel) : Prop :=
  ∃ groups : List (List O), groups.flatten = os ∧
    List.Forall₂ (fun l g => l.sz = (g.map sz).sum ∧ l.n = g.length ∧
      ∀ o ∈ g, (x = .ask → limitPx o ≤ l.px) ∧ (x = .bid → l.px ≤ limitPx o)) levels groups

/-- No operation on a price or a size leaves the word and no increment is zero while the
views are built; there is one for each precision that may be asked for, and each view that
is published sums up the book. -/
def OrderBook.ViewsExact (b : OrderBook O) : Prop :=
  ∃ entries, checkedViewEntries b = some entries ∧ viewEntries b = entries ∧
    (∀ nSigFigs mantissa, Subscription.validPrecision nSigFigs mantissa = true →
      ∃ e ∈ entries, e.1 = ⟨nSigFigs, mantissa⟩) ∧
    ∀ e ∈ entries, ∀ x, SumsUp x (b.orders x) (e.2.orders x)

theorem sumsUp_viewAt {b : OrderBook O} (hb : BookInv b) (path : List Rounding) (x : Side) :
    SumsUp x (b.orders x) ((viewAt b path).orders x) := by
  have hgrouped := groupsAt_grouped hb x path
  have hview : (viewAt b path).orders x = (groupsAt b x path).map levelOfGroup := by
    cases x <;> rfl
  refine ⟨(groupsAt b x path).map Prod.snd, ?_, ?_⟩
  · rw [← List.flatMap_def, hgrouped.flatten]
  · rw [hview, List.forall₂_map_left_iff, List.forall₂_map_right_iff]
    refine List.forall₂_same.mpr fun g hg => ⟨rfl, rfl, fun o ho => ?_⟩
    have hpx : storedPx x path (limitPx o) = g.1.px := by
      rw [← hgrouped.named g hg o ho, px_rank]
    simp only [levelOfGroup, ← hpx]
    constructor
    · rintro rfl
      exact le_storedPx_ask path (limitPx o)
    · rintro rfl
      exact storedPx_bid_le path (limitPx o)

omit [InnerOrder O] in
/-- The precisions that may be asked for are those of the views. -/
theorem exists_viewPath {nSigFigs mantissa : Option ℕ}
    (h : Subscription.validPrecision nSigFigs mantissa = true) :
    ∃ e ∈ viewPaths, e.1 = ⟨nSigFigs, mantissa⟩ := by
  cases nSigFigs with
  | none =>
    obtain rfl : mantissa = none := by simpa [Subscription.validPrecision] using h
    simp [viewPaths]
  | some n =>
    obtain ⟨htwo, hfive, rfl | ⟨rfl, rfl | rfl⟩⟩ := Subscription.validPrecision_some h
    · have hn : n = 5 ∨ n = 4 ∨ n = 3 ∨ n = 2 := by omega
      simpa [viewPaths, eq_comm] using hn
    · simp [viewPaths]
    · simp [viewPaths]

/-- For orders of any prices and sizes, the views of a book are computed without an overflow
and sum up its orders exactly when no ask is above the highest price and no view puts more
than a word of size into a bucket. -/
theorem views_exact_iff {b : OrderBook O} (hb : OrderBook.Built b)
    (hpx : ∀ x, ∀ o ∈ b.orders x, limitPx o < U64.modulus) : b.ViewsExact ↔ b.ViewsFit := by
  have hinv := hb.sound.filed
  rw [← fitsAt_all_iff hinv hpx]
  constructor
  · rintro ⟨entries, hchecked, -, -, -⟩
    exact ((checkedViewEntries_eq_some_iff hinv hpx).mp hchecked).1
  · intro hfits
    have hchecked := (checkedViewEntries_eq_some_iff hinv hpx).mpr ⟨hfits, rfl⟩
    refine ⟨_, hchecked, viewEntries_of_checked hchecked, fun n m hvalid => ?_, fun e he x => ?_⟩
    · obtain ⟨v, hv, hparams⟩ := exists_viewPath hvalid
      exact ⟨_, List.mem_map_of_mem hv, hparams⟩
    · obtain ⟨v, -, rfl⟩ := List.mem_map.mp he
      exact sumsUp_viewAt hinv v.2 x

end

/-- Three orders whose views are all exact. -/
theorem views_exact_iff_three_orders :
    let b := [MinimalOrder.new 1 30 12345 .ask, MinimalOrder.new 2 (2 ^ 63) 12301 .ask,
      MinimalOrder.new 3 20 1234 .bid].foldl OrderBook.addOrder OrderBook.new
    b.ViewsExact := by
  intro b
  have hb : OrderBook.Built b :=
    .addOrderBefore (.addOrderBefore (.addOrderBefore .new _ none) _ none) _ none
  refine (views_exact_iff hb fun x => ?_).mpr ⟨by decide +kernel, fun x => ?_⟩
  · cases x <;> decide +kernel
  · cases x <;> decide +kernel

/-- An ask at the highest price there is, which is published below it, and two bids at one
price, which are published with size zero. -/
theorem views_overflow :
    let ask := OrderBook.new.addOrder (MinimalOrder.new 1 30 U64.max .ask)
    let bids := [MinimalOrder.new 1 (2 ^ 63) 100 .bid, MinimalOrder.new 2 (2 ^ 63) 100 .bid].foldl
      OrderBook.addOrder OrderBook.new
    Px.parseFromStr "184467440737.09551615" = .ok U64.max ∧
    (¬ ask.ViewsExact ∧ ∃ view, (⟨some 5, none⟩, view) ∈ viewEntries ask ∧
      view.asks = [⟨255926290448384, 30, 1⟩]) ∧
    (¬ bids.ViewsExact ∧ ∃ view, (⟨none, none⟩, view) ∈ viewEntries bids ∧
      view.bids = [⟨100, 0, 2⟩]) := by
  intro ask bids
  refine ⟨by decide +kernel, ⟨?_, ?_⟩, ?_, ?_⟩
  · rintro ⟨entries, hchecked, -⟩
    have hnone : checkedViewEntries ask = none := by decide +kernel
    rw [hnone] at hchecked
    cases hchecked
  · refine ⟨(ask.toL2Snapshot none none none).toL2Snapshot none (some 5) none, ?_, ?_⟩
    · rw [viewEntries_eq]
      simp
    · decide +kernel
  · rintro ⟨entries, hchecked, -⟩
    have hnone : checkedViewEntries bids = none := by decide +kernel
    rw [hnone] at hchecked
    cases hchecked
  · refine ⟨bids.toL2Snapshot none none none, ?_, ?_⟩
    · rw [viewEntries_eq]
      simp
    · decide +kernel

end OrderBookServer
