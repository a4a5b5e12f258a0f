import OrderBookServer.Draining

/-!
# Matching in price-time priority

What a taker does to a side and to its own side, level by level and node by node. It
needs no more of the makers than that no level is empty.
-/
namespace OrderBookServer
open InnerOrder PriceTime

variable {O : Type} [InnerOrder O]

/-! ### The makers that cross -/

theorem Side.matches_of_not_before {x : Side} {limit p q : ℕ} (h : ¬ x.opposite.Before q p)
    (hq : x.Matches limit q) : x.Matches limit p := by
  cases x <;> simp only [Side.Before, Side.Matches, Side.opposite] at * <;> omega

omit [InnerOrder O] in
theorem bestLevels_pairwise (x : Side) (map : Levels O) :
    (bestLevels x map).Pairwise fun e e' => x.Before e.1 e'.1 := by
  cases x with
  | ask => exact map.pairwise_entries
  | bid => exact List.pairwise_reverse.mpr map.pairwise_entries

/-- In a list in priority order those that cross come first. -/
theorem takeWhile_eq_filter {A : Type*} (price : A → ℕ) {x : Side} (limit : ℕ) {as : List A}
    (h : as.Pairwise fun a b => ¬ x.opposite.Before (price b) (price a)) :
    as.takeWhile (fun a => x.Matches limit (price a)) = as.filter (fun a => x.Matches limit (price a)) ∧
    as.dropWhile (fun a => x.Matches limit (price a)) =
      as.filter (fun a => ¬ x.Matches limit (price a)) := by
  induction as with
  | nil => exact ⟨rfl, rfl⟩
  | cons a as ih =>
    obtain ⟨hhead, htail⟩ := List.pairwise_cons.mp h
    by_cases hc : x.Matches limit (price a)
    · simpa [List.takeWhile_cons, List.dropWhile_cons, hc] using ih htail
    · have hnone : ∀ b ∈ as, ¬ x.Matches limit (price b) :=
        fun b hb hm => hc (Side.matches_of_not_before (hhead b hb) hm)
      have hkeep : as.filter (fun a => decide (x.Matches limit (price a))) = [] := by
        rw [List.filter_eq_nil_iff]
        intro b hb
        simpa using hnone b hb
      have hall : as.filter (fun a => decide (¬ x.Matches limit (price a))) = as := by
        rw [List.filter_eq_self]
        intro b hb
        simpa using hnone b hb
      simp only [List.takeWhile_cons, List.dropWhile_cons, List.filter_cons, hc, decide_false,
        decide_true, not_false_eq_true, if_true, Bool.false_eq_true, if_false, hkeep]
      exact ⟨trivial, congrArg (List.cons a) hall.symm⟩

/-- The makers a taker can trade with: best price first, then in the order of the list. -/
def crossingMakers (map : Levels O) (t : O) : List ((ℕ × Oid) × O) :=
  nodes ((bestLevels (side t).opposite map).filter fun e => (side t).Matches (limitPx t) e.1)

def otherMakers (map : Levels O) (t : O) : List ((ℕ × Oid) × O) :=
  nodes ((bestLevels (side t).opposite map).filter fun e => ¬ (side t).Matches (limitPx t) e.1)

theorem crossingNodes_eq (map : Levels O) (t : O) :
    crossingNodes map t = crossingMakers map t ∧ otherNodes map t = otherMakers map t := by
  obtain ⟨htake, hdrop⟩ := takeWhile_eq_filter (fun e : ℕ × LinkedList Oid O => e.1) (limitPx t)
    ((bestLevels_pairwise (side t).opposite map).imp fun h => h.asymm)
  exact ⟨congrArg nodes htake, congrArg nodes hdrop⟩

/-! ### The makers after a match -/

/-- The makers after a match: those removed are a prefix of those that cross, at most
the next one is reduced, and every other node is where it was. -/
structure MatchedByPriority (map : Levels O) (t : O) (gone rest : List ((ℕ × Oid) × O))
    (out : O × List Oid × Levels O) : Prop where
  crossing : crossingMakers map t = gone ++ rest
  taker : ident out.1 = ident t ∧ sz out.1 = sz t - totalSz (crossingMakers map t)
  removed : out.2.1 = gone.map fun n => oid n.2
  consumed : totalSz gone ≤ sz t
  remaining : ∃ kept, Reduced rest kept ∧
    nodes (bestLevels (side t).opposite out.2.2) = kept ++ otherMakers map t
  conserved : totalSz (nodes (bestLevels (side t).opposite map)) + sz out.1 =
    totalSz (nodes (bestLevels (side t).opposite out.2.2)) + sz t
  nonempty : ∀ e ∈ out.2.2.entries, e.2.entries ≠ []

theorem matchOrder_matched {map : Levels O} (t : O) (hne : ∀ e ∈ map.entries, e.2.entries ≠ []) :
    ∃ gone rest, MatchedByPriority map t gone rest (matchOrder map t) := by
  obtain ⟨htaker, hoids, hnodes, hkeep⟩ := matchOrder_drains t hne
  obtain ⟨hcross, hother⟩ := crossingNodes_eq map t
  obtain ⟨gone, rest, h⟩ := drain_drained t (crossingNodes map t)
  refine ⟨gone, rest, ?_, ?_, ?_, h.consumed, ?_, ?_, hkeep⟩
  · rw [← hcross]
    exact h.nodes
  · rw [htaker, ← hcross]
    exact ⟨drain_taker_ident t _, h.taker⟩
  · have hmap := congrArg (List.map fun n : (ℕ × Oid) × Oid × Side × ℕ => n.2.1) h.filled
    rw [List.map_map, List.map_map] at hmap
    rw [hoids]
    exact hmap
  · exact ⟨_, h.stays, by rw [hnodes, hother]⟩
  · have hconserved := h.conserved
    rw [nodes_bestLevels, hnodes, htaker, totalSz_append, totalSz_append]
    omega

/-! ### The order that rests -/

omit [InnerOrder O] in
theorem levelAt_insert (map : Levels O) (px : ℕ) (list : LinkedList Oid O) :
    levelAt (map.insert px list) px = list := by
  rw [levelAt, BTreeMap.get?_insert, if_pos rfl]
  rfl

theorem addOrderToBook_elsewhere (map : Levels O) (o : O) (anchor : Option Oid) {px : ℕ}
    (h : px ≠ limitPx o) : (addOrderToBook map o anchor).2.get? px = map.get? px := by
  cases anchor with
  | none => rw [addOrderToBook, BTreeMap.get?_insert, if_neg h]
  | some before =>
    simp only [addOrderToBook]
    split_ifs
    · rw [BTreeMap.get?_erase, if_neg h]
    · rw [BTreeMap.get?_insert, if_neg h]

/-- An order new to its level goes to the back of it. -/
theorem addOrderToBook_back {map : Levels O} {o : O}
    (h : oid o ∉ (levelAt map (limitPx o)).keys) : (addOrderToBook map o none).1 = true ∧
      (levelAt (addOrderToBook map o none).2 (limitPx o)).entries =
        (levelAt map (limitPx o)).entries ++ [(oid o, o)] := by
  refine ⟨rfl, ?_⟩
  rw [addOrderToBook, levelAt_insert]
  exact (LinkedList.pushBack_of_notMem o h).2

/-- Cutting a list of distinct keys at one of them. -/
theorem LinkedList.front_back_of_append {K T : Type*} [DecidableEq K] {es fs bs : List (K × T)}
    {k : K} {v : T} (hnodup : (es.map Prod.fst).Nodup) (h : es = fs ++ (k, v) :: bs) :
    LinkedList.front k es = fs ∧ LinkedList.back k es = (k, v) :: bs := by
  subst h
  rw [List.map_append, List.map_cons] at hnodup
  have hnot : ∀ e ∈ fs, decide (e.1 ≠ k) = true := by
    intro e he
    have hdisj := (List.nodup_append.mp hnodup).2.2 e.1 (List.mem_map_of_mem he) k List.mem_cons_self
    simpa using hdisj
  rw [LinkedList.front, LinkedList.back, List.takeWhile_append_of_pos hnot,
    List.dropWhile_append_of_pos hnot]
  simp

/-- An order new to its level goes directly in front of an anchor of the level. -/
theorem addOrderToBook_before {map : Levels O} {o a : O} {anchor : Oid} {fs bs : List (Oid × O)}
    (h : oid o ∉ (levelAt map (limitPx o)).keys)
    (hsplit : (levelAt map (limitPx o)).entries = fs ++ (anchor, a) :: bs) :
    (addOrderToBook map o (some anchor)).1 = true ∧
      (levelAt (addOrderToBook map o (some anchor)).2 (limitPx o)).entries =
        fs ++ (oid o, o) :: (anchor, a) :: bs := by
  have hmem : anchor ∈ (levelAt map (limitPx o)).keys := by
    rw [LinkedList.keys, hsplit]
    simp
  obtain ⟨hok, hins⟩ := LinkedList.insertBefore_of_mem o h hmem
  obtain ⟨hfront, hback⟩ := LinkedList.front_back_of_append (levelAt map (limitPx o)).nodup hsplit
  rw [hfront, hback] at hins
  have hne : ((levelAt map (limitPx o)).insertBefore anchor (oid o) o).2.isEmpty = false := by
    rw [LinkedList.isEmpty, hins]
    simp
  refine ⟨hok, ?_⟩
  change (levelAt (if ((levelAt map (limitPx o)).insertBefore anchor (oid o) o).2.isEmpty = true then
    _ else _) (limitPx o)).entries = _
  rw [hne, if_neg (by simp), levelAt_insert]
  exact hins

/-- What of an order comes to rest, and where. -/
structure RestsByPriority (b : OrderBook O) (t left : O) : Prop where
  filled : sz left = 0 → ∀ anchor, (b.addOrderBefore t anchor).1 = true ∧
    (b.addOrderBefore t anchor).2.levels (side t) = b.levels (side t)
  back : 0 < sz left → (b.addOrderBefore t none).1 = true ∧
    (levelAt ((b.addOrderBefore t none).2.levels (side t)) (limitPx t)).entries =
      (levelAt (b.levels (side t)) (limitPx t)).entries ++ [(oid t, left)]
  before : 0 < sz left → ∀ anchor a fs bs,
    (levelAt (b.levels (side t)) (limitPx t)).entries = fs ++ (anchor, a) :: bs →
    (b.addOrderBefore t (some anchor)).1 = true ∧
      (levelAt ((b.addOrderBefore t (some anchor)).2.levels (side t)) (limitPx t)).entries =
        fs ++ (oid t, left) :: (anchor, a) :: bs
  elsewhere : ∀ anchor px, px ≠ limitPx t →
    ((b.addOrderBefore t anchor).2.levels (side t)).get? px = (b.levels (side t)).get? px
  makers : ∀ anchor, (b.addOrderBefore t anchor).2.levels (side t).opposite =
    (matchOrder (b.levels (side t).opposite) t).2.2

/-- Adding an order is matching it and then resting what is left of it. -/
theorem addOrderBefore_levels (b : OrderBook O) (t : O) (anchor : Option Oid) :
    let left := (matchOrder (b.levels (side t).opposite) t).1
    let rested := if 0 < sz left then addOrderToBook (b.levels (side t)) left anchor
      else (true, b.levels (side t))
    (b.addOrderBefore t anchor).1 = rested.1 ∧
    (b.addOrderBefore t anchor).2.levels (side t) = rested.2 ∧
    (b.addOrderBefore t anchor).2.levels (side t).opposite =
      (matchOrder (b.levels (side t).opposite) t).2.2 := by
  unfold OrderBook.addOrderBefore
  simp only [OrderBook.levels_index, OrderBook.setLevels_index, OrderBook.levels_opposite_setLevels]
  split_ifs with hz hadd
  · exact ⟨hadd.symm, by simp, by simp⟩
  · exact ⟨by simpa using hadd, by simp, by simp⟩
  · exact ⟨rfl, by simp, by simp⟩

theorem addOrderBefore_rests {b : OrderBook O} (t : O)
    (hne : ∀ e ∈ (b.levels (side t).opposite).entries, e.2.entries ≠ [])
    (hfresh : oid t ∉ (levelAt (b.levels (side t)) (limitPx t)).keys) :
    RestsByPriority b t (matchOrder (b.levels (side t).opposite) t).1 := by
  have hident : ident (matchOrder (b.levels (side t).opposite) t).1 = ident t := by
    rw [(matchOrder_drains t hne).1, drain_taker_ident]
  have hlevels := addOrderBefore_levels b t
  simp only at hlevels
  generalize hleft : (matchOrder (b.levels (side t).opposite) t).1 = left at hident hlevels
  obtain ⟨hoid, -, hpx⟩ : oid left = oid t ∧ side left = side t ∧ limitPx left = limitPx t := by
    simpa [ident] using hident
  rw [← hoid, ← hpx] at hfresh
  constructor
  · intro hz anchor
    obtain ⟨hok, hown, -⟩ := hlevels anchor
    rw [if_neg (by omega)] at hok hown
    exact ⟨hok, hown⟩
  · intro hz
    obtain ⟨hok, hown, -⟩ := hlevels none
    rw [if_pos hz] at hok hown
    obtain ⟨hrest, hentries⟩ := addOrderToBook_back hfresh
    rw [hok, hown, ← hpx, ← hoid]
    exact ⟨hrest, hentries⟩
  · intro hz anchor a fs bs hsplit
    obtain ⟨hok, hown, -⟩ := hlevels (some anchor)
    rw [if_pos hz] at hok hown
    rw [← hpx] at hsplit
    obtain ⟨hrest, hentries⟩ := addOrderToBook_before hfresh hsplit
    rw [hok, hown, ← hpx, ← hoid]
    exact ⟨hrest, hentries⟩
  · intro anchor px hne
    obtain ⟨-, hown, -⟩ := hlevels anchor
    rw [hown]
    split_ifs with hz
    · exact addOrderToBook_elsewhere _ _ _ (hpx ▸ hne)
    · rfl
  · exact fun anchor => (hlevels anchor).2.2

/-- Matching follows price-time priority on any makers without empty levels, and what
is left of an order new to its level rests at the back of it, or in front of an anchor. -/
theorem price_time_priority (b : OrderBook O) (t : O)
    (hne : ∀ e ∈ (b.levels (side t).opposite).entries, e.2.entries ≠ []) :
    (∃ gone rest, MatchedByPriority (b.levels (side t).opposite) t gone rest
      (matchOrder (b.levels (side t).opposite) t)) ∧
    (oid t ∉ (levelAt (b.levels (side t)) (limitPx t)).keys →
      RestsByPriority b t (matchOrder (b.levels (side t).opposite) t).1) :=
  ⟨matchOrder_matched t hne, addOrderBefore_rests t hne⟩

/-- A bid for 50 against asks of 30 and 40 at 5, behind a bid at 6. -/
theorem price_time_priority_two_makers :
    let asks := [MinimalOrder.new 1 30 5 .ask, MinimalOrder.new 2 40 5 .ask]
    let b := asks.foldl OrderBook.addOrder OrderBook.new
    let t := MinimalOrder.new 3 50 6 .bid
    (∃ gone rest, MatchedByPriority (b.levels .ask) t gone rest (matchOrder (b.levels .ask) t)) ∧
    RestsByPriority b t (matchOrder (b.levels .ask) t).1 ∧ (matchOrder (b.levels .ask) t).2.1 = [1] := by
  intro asks b t
  obtain ⟨hmatched, hrests⟩ := price_time_priority b t (by decide)
  exact ⟨hmatched, hrests (by decide), by decide⟩

end OrderBookServer
