import OrderBookServer.StateRuns
import OrderBookServer.ViewArithmetic

/-!
# Orders and levels have a size

Loading, opening and matching leave no order without size: an order without size does
not rest, and a maker that is filled is removed. Only an update sets the size that a
diff gives, whatever it is. A level of a view adds up orders, so it has a size as long
as the sums stay in a word.
-/
namespace OrderBookServer
open InnerOrder PriceTime Rollup Ranked SigFigs

section Books

variable {O : Type} [InnerOrder O]

namespace OrderBook

/-- Every order that rests has a size. -/
def Sized (b : OrderBook O) : Prop := ∀ x, ∀ o ∈ b.orders x, 0 < sz o

variable {b : OrderBook O}

theorem sized_new : Sized (new : OrderBook O) := by
  intro x o ho
  cases x <;> cases ho

theorem Sized.addOrderBefore (h : Sized b) (hb : BookInv b) (o : O) (anchor : Option Oid) :
    Sized (b.addOrderBefore o anchor).2 := by
  intro x m hm
  obtain hm | hm | hm := mem_orders_addOrderBefore hb hm
  · exact fillMakers_pos (h _) m hm
  · exact h _ m hm
  · exact hm.1

theorem Sized.cancelOrder (h : Sized b) (hb : BookInv b) (k : Oid) : Sized (b.cancelOrder k).2 := by
  cases hl : b.oidToSidePx.lookup k with
  | none => rwa [cancelOrder_of_lookup_none hl]
  | some v =>
    obtain ⟨-, hsnap, -, -⟩ := cancelOrder_of_lookup hb hl
    intro x o ho
    rw [orders, hsnap] at ho
    by_cases hx : x = v.1
    · subst hx
      rw [Snapshot.orders_setOrders] at ho
      exact h _ o (List.mem_of_mem_filter ho)
    · obtain rfl := Side.ne_iff_eq_opposite.mp hx
      rw [Snapshot.orders_setOrders_opposite] at ho
      exact h _ o ho

/-- A resize keeps all sizes positive, if it gives one. -/
theorem Sized.modifySz (h : Sized b) (hb : BookInv b) (k : Oid) {s : ℕ} (hs : 0 < s) :
    Sized (b.modifySz k s).2 := by
  cases hl : b.oidToSidePx.lookup k with
  | none => rwa [modifySz_of_lookup_none s hl]
  | some v =>
    obtain ⟨-, hsnap, -, -⟩ := modifySz_of_lookup hb s hl
    intro x o ho
    rw [orders, hsnap] at ho
    by_cases hx : x = v.1
    · subst hx
      rw [Snapshot.orders_setOrders, resize, List.mem_map] at ho
      obtain ⟨o', ho', rfl⟩ := ho
      split_ifs
      · rw [sz_modifySz]
        exact hs
      · exact h _ o' ho'
    · obtain rfl := Side.ne_iff_eq_opposite.mp hx
      rw [Snapshot.orders_setOrders_opposite] at ho
      exact h _ o ho

/-- A resize to 0 that is carried out leaves an order without size. -/
theorem not_sized_modifySz (hb : BookInv b) {k : Oid} (hok : (b.modifySz k 0).1 = true) :
    ¬ Sized (b.modifySz k 0).2 := by
  intro hsized
  cases hl : b.oidToSidePx.lookup k with
  | none =>
    rw [modifySz_of_lookup_none 0 hl] at hok
    cases hok
  | some v =>
    obtain ⟨hiff, hsnap, -, -⟩ := modifySz_of_lookup hb 0 hl
    obtain ⟨o, ho, hoid⟩ := List.mem_map.mp (hiff.mp hok)
    obtain ⟨ho, hpx⟩ := List.mem_filter.mp ho
    have hmem : InnerOrder.modifySz o 0 ∈ (b.modifySz k 0).2.orders v.1 := by
      rw [orders, hsnap, Snapshot.orders_setOrders, resize, List.mem_map]
      exact ⟨o, ho, if_pos ⟨of_decide_eq_true hpx, hoid⟩⟩
    have hpos := hsized v.1 _ hmem
    rw [sz_modifySz] at hpos
    omega

theorem Sized.addOrders (h : Sized b) (hb : Sound b) (os : List O) :
    Sized (os.foldl addOrder b) := by
  induction os generalizing b with
  | nil => exact h
  | cons o os ih => exact ih (h.addOrderBefore hb.filed o none) (hb.addOrderBefore o none)

theorem sized_fromSnapshot (s : Snapshot O) (ignoreTriggers : Bool) :
    Sized (fromSnapshot s ignoreTriggers) := by
  rw [fromSnapshot]
  exact (sized_new.addOrders .new _).addOrders (Sound.new.addOrders _) _

end OrderBook

/-! ### Levels -/

/-- Every level has a size. -/
def Filled (levels : List InnerLevel) : Prop := ∀ l ∈ levels, 0 < l.sz

def levelsSz (levels : List InnerLevel) : ℕ := (levels.map fun l => l.sz).sum

theorem filled_append {levels more : List InnerLevel} :
    Filled (levels ++ more) ↔ Filled levels ∧ Filled more := List.forall_mem_append

theorem levelsSz_append (levels more : List InnerLevel) :
    levelsSz (levels ++ more) = levelsSz levels + levelsSz more := by
  rw [levelsSz, List.map_append, List.sum_append]
  rfl

/-- The levels done and the one being summed up. -/
def levelsOf (st : LevelState) : List InnerLevel := st.2 ++ st.1.toList

/-- One level more: no size is lost while the total stays in a word. -/
theorem buildL2Level_filled (nLevels nSigFigs mantissa : Option ℕ) (x : Side) {st : LevelState}
    {level : InnerLevel} (hst : Filled (levelsOf st)) (hlevel : 0 < level.sz)
    (hfits : levelsSz (levelsOf st) + level.sz < U64.modulus) :
    Filled (levelsOf (buildL2Level nLevels nSigFigs mantissa x st level).2) ∧
      levelsSz (levelsOf (buildL2Level nLevels nSigFigs mantissa x st level).2) ≤
        levelsSz (levelsOf st) + level.sz := by
  have hone (l : InnerLevel) : levelsSz [l] = l.sz := by
    rw [levelsSz, List.map_singleton, List.sum_singleton]
  have hfilled (l : InnerLevel) : Filled [l] ↔ 0 < l.sz := List.forall_mem_singleton
  obtain ⟨cur, done⟩ := st
  rw [buildL2Level]
  dsimp only
  by_cases hnew : newBucket x cur level = true
  · rw [if_pos hnew]
    by_cases hlimit : nLevels = some (done ++ cur.toList).length
    · rw [if_pos hlimit]
      simp only [levelsOf, Option.toList_none, List.append_nil] at hst ⊢
      exact ⟨hst, Nat.le_add_right _ _⟩
    · rw [if_neg hlimit]
      simp only [levelsOf, Option.toList_some] at hst ⊢
      rw [filled_append, hfilled, levelsSz_append, hone]
      exact ⟨⟨hst, hlevel⟩, Nat.le_refl _⟩
  · rw [if_neg hnew]
    cases cur with
    | none => exact absurd rfl hnew
    | some c =>
      simp only [levelsOf, Option.map_some, Option.toList_some, filled_append, hfilled,
        levelsSz_append, hone] at hst hfits ⊢
      have hadd : Sz.add level.sz c.sz = level.sz + c.sz := Nat.mod_eq_of_lt (by omega)
      rw [hadd]
      exact ⟨⟨hst.1, by omega⟩, by omega⟩

theorem buildL2Levels_filled (nLevels nSigFigs mantissa : Option ℕ) (x : Side) {st : LevelState}
    {levels : List InnerLevel} (hst : Filled (levelsOf st)) (hlevels : Filled levels)
    (hfits : levelsSz (levelsOf st) + levelsSz levels < U64.modulus) :
    Filled (levelsOf (buildL2Levels nLevels nSigFigs mantissa x st levels)) ∧
      levelsSz (levelsOf (buildL2Levels nLevels nSigFigs mantissa x st levels)) ≤
        levelsSz (levelsOf st) + levelsSz levels := by
  induction levels generalizing st with
  | nil => exact ⟨hst, Nat.le_add_right _ _⟩
  | cons level levels ih =>
    obtain ⟨hlevel, hlevels⟩ := List.forall_mem_cons.mp hlevels
    have hcons : levelsSz (level :: levels) = level.sz + levelsSz levels := by
      rw [levelsSz, List.map_cons, List.sum_cons, levelsSz]
    rw [hcons] at hfits ⊢
    obtain ⟨hfilled, hsz⟩ :=
      buildL2Level_filled nLevels nSigFigs mantissa x hst hlevel (by omega)
    rw [buildL2Levels]
    split_ifs
    · exact ⟨hfilled, by omega⟩
    · obtain ⟨hall, htotal⟩ := ih hfilled hlevels (by omega)
      exact ⟨hall, by omega⟩

/-- Levels with a size make levels with a size. -/
theorem l2LevelsToL2Levels_filled {levels : List InnerLevel} (x : Side)
    (nLevels nSigFigs mantissa : Option ℕ) (h : Filled levels)
    (hfits : levelsSz levels < U64.modulus) :
    Filled (l2LevelsToL2Levels levels x nLevels nSigFigs mantissa) ∧
      levelsSz (l2LevelsToL2Levels levels x nLevels nSigFigs mantissa) ≤ levelsSz levels := by
  have hnone : Filled [] := fun l hl => absurd hl List.not_mem_nil
  rw [l2LevelsToL2Levels]
  split_ifs
  · exact ⟨hnone, Nat.zero_le _⟩
  · have hzero : levelsSz (levelsOf (none, [])) = 0 := rfl
    have hstart : Filled (levelsOf (none, [])) := hnone
    have hloop := buildL2Levels_filled nLevels nSigFigs mantissa x hstart h (by omega)
    rwa [hzero, Nat.zero_add] at hloop

/-- A view whose levels have sizes that add up to less than a word. -/
def FilledView (view : Snapshot InnerLevel) : Prop :=
  ∀ x, Filled (view.orders x) ∧ levelsSz (view.orders x) < U64.modulus

theorem FilledView.toL2Snapshot {view : Snapshot InnerLevel} (h : FilledView view)
    (nLevels nSigFigs mantissa : Option ℕ) :
    FilledView (view.toL2Snapshot nLevels nSigFigs mantissa) := by
  intro x
  have hside : (view.toL2Snapshot nLevels nSigFigs mantissa).orders x =
      l2LevelsToL2Levels (view.orders x) x nLevels nSigFigs mantissa := by
    cases x
    · rfl
    · rfl
  obtain ⟨hfilled, hsz⟩ := l2LevelsToL2Levels_filled x nLevels nSigFigs mantissa (h x).1 (h x).2
  rw [hside]
  exact ⟨hfilled, hsz.trans_lt (h x).2⟩

theorem foldl_add_eq (os : List O) (a : ℕ) (h : a + (os.map sz).sum < U64.modulus) :
    os.foldl (fun total order => Sz.add total (sz order)) a = a + (os.map sz).sum := by
  induction os generalizing a with
  | nil => rfl
  | cons o os ih =>
    rw [List.map_cons, List.sum_cons] at h ⊢
    have hadd : Sz.add a (sz o) = a + sz o := Nat.mod_eq_of_lt (by omega)
    rw [List.foldl_cons, hadd, ih _ (by omega), add_assoc]

/-- The levels of a side, summed up. -/
theorem levelsOf_filled {b : OrderBook O} (hb : BookInv b) (h : b.Sized) (x : Side)
    (hfits : ((b.orders x).map sz).sum < U64.modulus) :
    Filled ((bestLevels x (b.levels x)).map levelOf) ∧
      levelsSz ((bestLevels x (b.levels x)).map levelOf) = ((b.orders x).map sz).sum := by
  have hpos : ∀ e ∈ bestLevels x (b.levels x), ∀ o ∈ e.2.toVec, 0 < sz o := by
    intro e he o ho
    apply h x
    rw [OrderBook.orders_eq, sideOrders, flat, List.mem_flatMap]
    exact ⟨e, he, ho⟩
  have hne : ∀ e ∈ bestLevels x (b.levels x), e.2.toVec ≠ [] := by
    intro e he hnil
    exact (hb x).nonempty e (mem_bestLevels.mp he) (List.map_eq_nil_iff.mp hnil)
  rw [OrderBook.orders_eq, sideOrders] at hfits ⊢
  generalize bestLevels x (b.levels x) = levels at hpos hne hfits ⊢
  induction levels with
  | nil => exact ⟨fun l hl => absurd hl List.not_mem_nil, rfl⟩
  | cons e levels ih =>
    obtain ⟨hpos, hposs⟩ := List.forall_mem_cons.mp hpos
    obtain ⟨hne, hnes⟩ := List.forall_mem_cons.mp hne
    rw [flat_cons, List.map_append, List.sum_append] at hfits ⊢
    obtain ⟨hfilled, hsz⟩ := ih hposs hnes (by omega)
    have hlevel : (levelOf e).sz = (e.2.toVec.map sz).sum := by
      have hfold := foldl_add_eq e.2.toVec 0 (by omega)
      rwa [Nat.zero_add] at hfold
    have hsum : 0 < (e.2.toVec.map sz).sum := by
      obtain ⟨o, ho⟩ := List.exists_mem_of_ne_nil _ hne
      exact (hpos o ho).trans_le (List.single_le_sum (by simp) _ (List.mem_map_of_mem ho))
    rw [List.map_cons, levelsSz, List.map_cons, List.sum_cons, hlevel]
    refine ⟨List.forall_mem_cons.mpr ⟨hlevel ▸ hsum, hfilled⟩, ?_⟩
    rw [← hsz, levelsSz]

theorem filledView_toL2Snapshot {b : OrderBook O} (hb : BookInv b) (h : b.Sized)
    (hfits : ∀ x, ((b.orders x).map sz).sum < U64.modulus) (nLevels nSigFigs mantissa : Option ℕ) :
    FilledView (b.toL2Snapshot nLevels nSigFigs mantissa) := by
  intro x
  have hside : (b.toL2Snapshot nLevels nSigFigs mantissa).orders x =
      l2LevelsToL2Levels ((bestLevels x (b.levels x)).map levelOf) x nLevels nSigFigs mantissa := by
    cases x
    · rfl
    · rfl
  obtain ⟨hlevels, htotal⟩ := levelsOf_filled hb h x (hfits x)
  obtain ⟨hfilled, hsz⟩ := l2LevelsToL2Levels_filled x nLevels nSigFigs mantissa hlevels
    (htotal.trans_lt (hfits x))
  rw [hside]
  exact ⟨hfilled, (hsz.trans_eq htotal).trans_lt (hfits x)⟩

/-- Every view that is kept has sizes, as each is built from an earlier one. -/
theorem filledView_viewEntries {b : OrderBook O} (hb : BookInv b) (h : b.Sized)
    (hfits : ∀ x, ((b.orders x).map sz).sum < U64.modulus) :
    ∀ e ∈ viewEntries b, FilledView e.2 := by
  have hraw := filledView_toL2Snapshot hb h hfits none none none
  rw [viewEntries_eq]
  simp only [List.forall_mem_cons, List.not_mem_nil, false_imp_iff, implies_true, and_true]
  have h5 := hraw.toL2Snapshot none (some 5) none
  have h55 := h5.toL2Snapshot none (some 5) (some 5)
  have h4 := h55.toL2Snapshot none (some 4) none
  have h3 := h4.toL2Snapshot none (some 3) none
  exact ⟨hraw, h5, h5.toL2Snapshot none (some 5) (some 2), h55, h4, h3,
    h3.toL2Snapshot none (some 2) none⟩

/-! ### Sizes that wrap -/

section Wrapping

variable {b : OrderBook O} {x : Side} {path : List Rounding} {view : Snapshot InnerLevel}

/-- What a level shows of a group of orders, whose sizes are added up in a word. -/
def wrapped (os : List O) : ℕ × ℕ := ((os.map sz).sum % U64.modulus, os.length)

theorem wrapped_join (later earlier : List O) :
    wrapped (join later earlier) = mergeSums (wrapped later) (wrapped earlier) := by
  simp only [wrapped, join, mergeSums, Sz.add, U64.wrappingAdd, List.map_append, List.sum_append,
    List.length_append, Prod.mk.injEq, and_true]
  rw [Nat.add_comm, Nat.add_mod]

theorem foldl_add_mod (os : List O) (a : ℕ) :
    os.foldl (fun total order => Sz.add total (sz order)) (a % U64.modulus) =
      (a + (os.map sz).sum) % U64.modulus := by
  induction os generalizing a with
  | nil => simp
  | cons o os ih =>
    have hadd : Sz.add (a % U64.modulus) (sz o) = (a + sz o) % U64.modulus := by
      rw [Sz.add, U64.wrappingAdd, Nat.mod_add_mod]
    rw [List.foldl_cons, hadd, ih, List.map_cons, List.sum_cons, Nat.add_assoc]

theorem rawEntries_eq_groups (b : OrderBook O) (x : Side) :
    rawEntries x (b.levels x) = (groupsAt b x []).map (Prod.map id wrapped) := by
  rw [rawEntries, viewEntriesOf, List.map_map, groupsAt, List.foldl_nil, List.map_map]
  refine List.map_congr_left fun e _ => ?_
  have hsum := foldl_add_mod e.2.toVec 0
  rw [Nat.zero_mod, Nat.zero_add] at hsum
  have hcount : (e.2.fold 0 fun n _ => n + 1) = e.2.toVec.length := by
    simp [LinkedList.fold]
  simp only [Function.comp_apply, entryOf, levelOf, Prod.map_apply, id, wrapped, ← hsum, hcount]
  rfl

/-- The view of a path, with sizes that wrap. -/
def WrappedView (b : OrderBook O) (path : List Rounding) (view : Snapshot InnerLevel) : Prop :=
  ∀ x, viewEntriesOf x (view.orders x) = (groupsAt b x path).map (Prod.map id wrapped)

theorem wrappedView_nil (b : OrderBook O) : WrappedView b [] (b.toL2Snapshot none none none) := by
  intro x
  have hid : rankedBucket x none none = id := funext rank_px
  rw [toL2Snapshot_orders, hid, roll_id mergeSums (rawEntries_increasing x (b.levels x)),
    rawEntries_eq_groups]

/-- No price leaves the word as the views of a book are built. -/
def OrderBook.PricesFit (b : OrderBook O) : Prop :=
  (∀ x, ∀ o ∈ b.orders x, limitPx o < U64.modulus) ∧ ∀ o ∈ b.orders .ask, limitPx o ≤ highestAsk

theorem OrderBook.PricesFit.storedPx_lt (h : b.PricesFit)
    (hpath : ∀ v ∈ path, OnGrid v.nSigFigs (v.mantissa.getD 1) highestAsk) (x : Side) :
    ∀ o ∈ b.orders x, storedPx x path (limitPx o) < U64.modulus := by
  intro o ho
  cases x with
  | ask => exact (storedPx_ask_le hpath (h.2 o ho)).trans_lt (by decide)
  | bid => exact (storedPx_bid_le path (limitPx o)).trans_lt (h.1 .bid o ho)

/-- A view is built from one before it. -/
theorem WrappedView.append (h : WrappedView b path view) (hb : BookInv b)
    (hpx : b.PricesFit) (v : Rounding)
    (hpath : ∀ w ∈ path ++ [v], OnGrid w.nSigFigs (w.mantissa.getD 1) highestAsk) :
    WrappedView b (path ++ [v]) (view.toL2Snapshot none (some v.nSigFigs) v.mantissa) := by
  intro x
  have hgrouped := groupsAt_grouped hb x path
  have hfits : ∀ e ∈ viewEntriesOf x (view.orders x),
      FitsWord x v.nSigFigs (v.mantissa.getD 1) e.1.px := by
    rw [h x]
    simp only [List.forall_mem_map, Prod.map_fst, id]
    refine (hgrouped.forall_iff (R := fun r _ => FitsWord x v.nSigFigs (v.mantissa.getD 1) r.px)).mpr
      fun o ho => ?_
    have hbefore := hpx.storedPx_lt (fun w hw => hpath w (List.mem_append_left _ hw)) x o ho
    have hafter := hpx.storedPx_lt hpath x o ho
    rw [storedPx, List.foldl_append] at hafter
    refine ⟨by rwa [px_rank], ?_⟩
    rintro rfl
    rw [px_rank]
    exact hafter
  rw [snapshot_toL2Snapshot_orders, roll_rankedBucket v.two_le v.mantissa v.dvd_ten hfits, h x,
    groupsAt_append, roll_map wrapped wrapped_join]
  rfl

/-- The views that are kept, with the roundings from which each is built. -/
theorem viewEntries_wrapped (hb : BookInv b) (hpx : b.PricesFit) :
    List.Forall₂ (fun e p => WrappedView b p.2 e.2) (viewEntries b) viewPaths := by
  have hgrid (e : L2SnapshotParams × List Rounding) (he : e ∈ viewPaths) := viewPaths_onGrid e he
  have h0 := wrappedView_nil b
  have h5 := h0.append hb hpx five (hgrid (⟨some 5, none⟩, _) (by simp [viewPaths]))
  have h52 := h5.append hb hpx fiveByTwo (hgrid (⟨some 5, some 2⟩, _) (by simp [viewPaths]))
  have h55 := h5.append hb hpx fiveByFive (hgrid (⟨some 5, some 5⟩, _) (by simp [viewPaths]))
  have h4 := h55.append hb hpx four (hgrid (⟨some 4, none⟩, _) (by simp [viewPaths]))
  have h3 := h4.append hb hpx three (hgrid (⟨some 3, none⟩, _) (by simp [viewPaths]))
  have h2 := h3.append hb hpx two (hgrid (⟨some 2, none⟩, _) (by simp [viewPaths]))
  rw [viewEntries_eq]
  exact .cons h0 (.cons h5 (.cons h52 (.cons h55 (.cons h4 (.cons h3 (.cons h2 .nil))))))

/-- No view puts orders into one bucket whose sizes add up to a multiple of a word. -/
def OrderBook.NoneWraps (b : OrderBook O) : Prop :=
  ∀ x, ∀ e ∈ viewPaths, ∀ o ∈ b.orders x, ¬ U64.modulus ∣ ((sharing b x e.2 o).map sz).sum

theorem WrappedView.filled_iff (h : WrappedView b path view) (hb : BookInv b) (x : Side) :
    Filled (view.orders x) ↔
      ∀ o ∈ b.orders x, ¬ U64.modulus ∣ ((sharing b x path o).map sz).sum := by
  have hentries : Filled (view.orders x) ↔
      ∀ g ∈ groupsAt b x path, ¬ U64.modulus ∣ (g.2.map sz).sum := by
    have hlevels : Filled (view.orders x) ↔ ∀ e ∈ viewEntriesOf x (view.orders x), 0 < e.2.1 := by
      rw [viewEntriesOf, List.forall_mem_map]
      rfl
    rw [hlevels, h x, List.forall_mem_map]
    refine forall₂_congr fun g _ => ?_
    rw [Nat.dvd_iff_mod_eq_zero]
    exact Nat.pos_iff_ne_zero
  have hgroups := (groupsAt_grouped hb x path).forall_iff
    (R := fun _ os => ¬ U64.modulus ∣ (os.map sz).sum)
  rw [hentries, hgroups]
  refine forall₂_congr fun o _ => ?_
  rw [sharing]
  simp only [(rank_injective x).eq_iff]

/-- Where no price leaves the word, the views that are kept have a size in every level exactly
when in none of their buckets the sizes wrap to zero. -/
theorem filled_viewEntries_iff (hb : BookInv b) (hpx : b.PricesFit) :
    (∀ e ∈ viewEntries b, ∀ x, Filled (e.2.orders x)) ↔ b.NoneWraps := by
  have hfilled {entries : List (L2SnapshotParams × Snapshot InnerLevel)}
      {paths : List (L2SnapshotParams × List Rounding)}
      (hviews : List.Forall₂ (fun e p => WrappedView b p.2 e.2) entries paths) :
      (∀ e ∈ entries, ∀ x, Filled (e.2.orders x)) ↔ ∀ e ∈ paths, ∀ x, ∀ o ∈ b.orders x,
        ¬ U64.modulus ∣ ((sharing b x e.2 o).map sz).sum := by
    induction hviews with
    | nil => simp
    | cons hview _ ih =>
      rw [List.forall_mem_cons, List.forall_mem_cons, ih]
      exact and_congr_left fun _ => forall_congr' fun x => hview.filled_iff hb x
  rw [hfilled (viewEntries_wrapped hb hpx)]
  exact ⟨fun h x e he => h e he x, fun h e he x => h x e he⟩

end Wrapping

end Books

/-! ### Blocks -/

/-- All orders of all books have a size. -/
def OrderBooks.Sized (books : OrderBooks InnerL4Order) : Prop := ∀ coin, (books.book coin).Sized

namespace BlockState

variable {ignoreSpot : Bool} {block after : BlockState} {diff : NodeDataOrderDiff}
variable {diffs : List NodeDataOrderDiff}

/-- An update that is not skipped gives the size 0. -/
def Empties (ignoreSpot : Bool) (diff : NodeDataOrderDiff) : Prop :=
  ¬ Skipped ignoreSpot diff ∧
    ∃ origSz, InnerOrderDiff.tryFrom diff.rawBookDiff = .ok (.update origSz 0)

/-- An applied diff leaves an order without size exactly where it is an update to 0. -/
theorem Applied.sized_iff (h : Applied ignoreSpot block diff after) (hb : block.orderBook.Built)
    (hsized : block.orderBook.Sized) : after.orderBook.Sized ↔ ¬ Empties ignoreSpot diff := by
  cases h with
  | skipped hs => exact iff_of_true hsized fun he => he.1 hs
  | @opened sz anchor status order kept kind hstatus horder done =>
    apply iff_of_true
    · intro coin
      rw [OrderBooks.book_addOrderBefore]
      split_ifs
      · exact (hsized coin).addOrderBefore (hb coin).sound.filed order anchor
      · exact hsized coin
    · rintro ⟨-, origSz, hupdate⟩
      cases kind.symm.trans hupdate
  | @resized origSz newSz kept kind done =>
    obtain ⟨hcall, hbooks⟩ := OrderBooks.modifySz_eq block.orderBook diff.oid ⟨diff.coin⟩ newSz
    have hempties : Empties ignoreSpot diff ↔ newSz = 0 := by
      constructor
      · rintro ⟨-, origSz', hupdate⟩
        cases kind.symm.trans hupdate
        rfl
      · rintro rfl
        exact ⟨kept, origSz, kind⟩
    rw [hempties]
    constructor
    · rintro hafter rfl
      have hcoin := hafter ⟨diff.coin⟩
      rw [hbooks, if_pos rfl] at hcoin
      exact OrderBook.not_sized_modifySz (hb _).sound.filed (hcall.symm.trans done) hcoin
    · intro hne coin
      rw [hbooks]
      split_ifs
      · exact (hsized coin).modifySz (hb coin).sound.filed diff.oid (Nat.pos_of_ne_zero hne)
      · exact hsized coin
  | removed kept kind done =>
    apply iff_of_true
    · intro coin
      rw [(OrderBooks.cancelOrder_eq block.orderBook diff.oid ⟨diff.coin⟩).2]
      split_ifs
      · exact (hsized coin).cancelOrder (hb coin).sound.filed diff.oid
      · exact hsized coin
    · rintro ⟨-, origSz, hupdate⟩
      cases kind.symm.trans hupdate

theorem AppliedAll.sized (h : AppliedAll ignoreSpot block diffs after)
    (hdiffs : ∀ diff ∈ diffs, ¬ Empties ignoreSpot diff) (hb : block.orderBook.Built)
    (hsized : block.orderBook.Sized) : after.orderBook.Sized := by
  induction h with
  | nil => exact hsized
  | @cons block next last diff diffs first rest ih =>
    obtain ⟨hdiff, hdiffs⟩ := List.forall_mem_cons.mp hdiffs
    have hbuilt : next.orderBook.Built := by
      have hone : AppliedAll ignoreSpot block [diff] next := .cons first (.nil next)
      exact hone.built hb
    exact ih hdiffs hbuilt ((first.sized_iff hb hsized).mpr hdiff)

end BlockState

namespace OrderBookState

/-- A state made from any snapshot by blocks that succeed, none of which updates an order to the
size 0, and by reading the views. -/
inductive NeverEmptied : OrderBookState → Prop
  | fromSnapshot (snapshot : Snapshots InnerL4Order) (height time : ℕ)
      (ignoreTriggers ignoreSpot : Bool) :
      NeverEmptied (fromSnapshot snapshot height time ignoreTriggers ignoreSpot)
  | applyUpdates {s s' : OrderBookState} (h : NeverEmptied s)
      {statuses : Batch NodeDataOrderStatus} {diffs : Batch NodeDataOrderDiff}
      (hdiffs : ∀ diff ∈ diffs.events, ¬ BlockState.Empties s.ignoreSpot diff)
      (ok : s.applyUpdates statuses diffs = (s', .ok ())) : NeverEmptied s'
  | computeL2Snapshot {s : OrderBookState} (h : NeverEmptied s) : NeverEmptied s.computeL2Snapshot.2
  | l2Snapshots {s : OrderBookState} (h : NeverEmptied s) (prevent : Bool) :
      NeverEmptied (s.l2Snapshots prevent).2

variable {s : OrderBookState}

theorem NeverEmptied.made (h : NeverEmptied s) : s.Made := by
  induction h with
  | fromSnapshot snapshot height time ignoreTriggers ignoreSpot => exact .fromSnapshot ..
  | @applyUpdates s s' _ statuses diffs _ ok ih =>
    have hmade := ih.applyUpdates statuses diffs
    rwa [ok] at hmade
  | computeL2Snapshot _ ih => exact ih.computeL2Snapshot
  | l2Snapshots _ prevent ih => exact ih.l2Snapshots prevent

theorem NeverEmptied.sized (h : NeverEmptied s) : s.orderBook.Sized := by
  induction h with
  | fromSnapshot snapshot height time ignoreTriggers ignoreSpot =>
    intro coin
    show ((OrderBooks.fromSnapshots snapshot ignoreTriggers).book coin).Sized
    rw [OrderBooks.book_fromSnapshots]
    exact OrderBook.sized_fromSnapshot _ ignoreTriggers
  | applyUpdates h hdiffs ok ih =>
    cases applyUpdates_eq_ok_iff.mp ok with
    | old => exact ih
    | next _ _ _ _ hall => exact hall.sized hdiffs h.made.built ih
  | computeL2Snapshot _ ih => exact ih
  | l2Snapshots _ prevent ih =>
    rw [l2Snapshots_orderBook]
    exact ih

/-- While no update gives the size 0, every order that rests has a size, and so has every level of
every view of a book whose sizes add up to less than a word. Where no price leaves the word, the
views that are kept lack one exactly if the sizes in a bucket wrap to zero. Of the diffs only an
update to 0 leaves an order without size. -/
theorem resting_orders_have_size (h : NeverEmptied s) :
    s.orderBook.Sized ∧
    (∀ coin, (∀ x, (((s.orderBook.book coin).orders x).map InnerL4Order.sz).sum < U64.modulus) →
      (∀ nLevels nSigFigs mantissa x, Filled
        (((s.orderBook.book coin).toL2Snapshot nLevels nSigFigs mantissa).orders x)) ∧
      ∀ e ∈ viewEntries (s.orderBook.book coin), ∀ x, Filled (e.2.orders x)) ∧
    (∀ coin, (s.orderBook.book coin).PricesFit →
      ((∀ e ∈ viewEntries (s.orderBook.book coin), ∀ x, Filled (e.2.orders x)) ↔
        (s.orderBook.book coin).NoneWraps)) ∧
    ∀ statuses before diff block after,
      BlockState.AppliedAll s.ignoreSpot
        ⟨s.orderBook, s.dirtyCoins, openingStatuses statuses⟩ before block →
      (∀ diff ∈ before, ¬ BlockState.Empties s.ignoreSpot diff) →
      BlockState.Applied s.ignoreSpot block diff after →
      (after.orderBook.Sized ↔ ¬ BlockState.Empties s.ignoreSpot diff) := by
  have hbuilt := h.made.built
  have hsized := h.sized
  refine ⟨hsized, fun coin hfits => ?_,
    fun coin hpx => filled_viewEntries_iff (hbuilt coin).sound.filed hpx,
    fun statuses before diff block after hall hbefore happlied => ?_⟩
  · have hbook := (hbuilt coin).sound.filed
    exact ⟨fun nLevels nSigFigs mantissa x =>
      (filledView_toL2Snapshot hbook (hsized coin) hfits nLevels nSigFigs mantissa x).1,
      fun e he x => (filledView_viewEntries hbook (hsized coin) hfits e he x).1⟩
  · exact happlied.sized_iff (hall.built hbuilt) (hall.sized hbefore hbuilt hsized)

/-- An update to 0 succeeds, and the order 7 rests without size. -/
theorem update_to_zero_rests :
    (fromSnapshot ∅ 100 0 true false).applyUpdates (statusesSeven 101)
      (diffsSeven 101 (.new "2" none)) = (restingSeven, .ok ()) ∧
    (restingSeven.applyUpdates (statusesSeven 102) (diffsSeven 102 (.update "2" "0"))).2 = .ok () ∧
    (((restingSeven.applyUpdates (statusesSeven 102)
      (diffsSeven 102 (.update "2" "0"))).1.orderBook.book ⟨"BTC"⟩).orders .bid).map
        InnerL4Order.sz = [0] :=
  ⟨applyUpdates_restingSeven, by decide +kernel, by decide +kernel⟩

theorem neverEmptied_restingSeven : restingSeven.NeverEmptied := by
  refine .applyUpdates (.fromSnapshot ∅ 100 0 true false) ?_ applyUpdates_restingSeven
  intro diff hd
  obtain rfl := List.mem_singleton.mp hd
  rintro ⟨-, origSz, hupdate⟩
  have hnew : InnerOrderDiff.tryFrom (diffSeven (.new "2" none)).rawBookDiff =
      .ok (.new 200000000 none) := by decide +kernel
  rw [hnew] at hupdate
  cases hupdate

theorem pricesFit_restingSeven : (restingSeven.orderBook.book ⟨"BTC"⟩).PricesFit := by
  refine ⟨fun x => ?_, by decide +kernel⟩
  cases x <;> decide +kernel

theorem noneWraps_restingSeven : (restingSeven.orderBook.book ⟨"BTC"⟩).NoneWraps := by
  intro x
  cases x <;> decide +kernel

theorem resting_orders_have_size_one_bid : restingSeven.orderBook.Sized ∧
    ∀ e ∈ viewEntries (restingSeven.orderBook.book ⟨"BTC"⟩), ∀ x, Filled (e.2.orders x) := by
  obtain ⟨hsized, -, hviews, -⟩ := resting_orders_have_size neverEmptied_restingSeven
  exact ⟨hsized, (hviews ⟨"BTC"⟩ pricesFit_restingSeven).mpr noneWraps_restingSeven⟩

end OrderBookState
end OrderBookServer
