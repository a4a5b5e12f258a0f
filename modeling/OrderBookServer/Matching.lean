import OrderBookServer.Draining

/-!
# Matching and resting on the levels of a book

Each operation on levels is traced to the price-time lists: matching to
`fillMakers`, the insertion into a level to `rest`, and adding an order to a book
to `place`. The book invariant is the side
invariant of both sides; the operations keep it whatever they are given.
-/
namespace OrderBookServer
open InnerOrder PriceTime

variable {O : Type} [InnerOrder O]

/-! ### Matching -/

/-- On levels that are filed by price the nodes that cross are those whose orders do. -/
theorem takeWhile_nodes {x : Side} {levels : List (ℕ × LinkedList Oid O)} (p : ℕ → Bool)
    (hne : ∀ e ∈ levels, e.2.entries ≠ []) (hf : ∀ e ∈ levels, ∀ n ∈ e.2.entries, Filed x e.1 n) :
    (nodes levels).takeWhile (fun n => p (limitPx n.2)) = nodes (levels.takeWhile fun e => p e.1) ∧
    (nodes levels).dropWhile (fun n => p (limitPx n.2)) = nodes (levels.dropWhile fun e => p e.1) := by
  induction levels with
  | nil => exact ⟨rfl, rfl⟩
  | cons e levels ih =>
    obtain ⟨ihtake, ihdrop⟩ := ih (fun e' he' => hne e' (List.mem_cons_of_mem e he'))
      (fun e' he' => hf e' (List.mem_cons_of_mem e he'))
    have hprice : ∀ n ∈ e.2.entries, limitPx n.2 = e.1 := fun n hn => (hf e List.mem_cons_self n hn).1
    cases hp : p e.1 with
    | true =>
      have hall : ∀ n ∈ e.2.entries.map (Prod.map (Prod.mk e.1) id), p (limitPx n.2) = true := by
        intro n hn
        obtain ⟨n', hn', rfl⟩ := List.mem_map.mp hn
        rw [Prod.map_snd, id, hprice n' hn', hp]
      simp only [List.takeWhile_cons, List.dropWhile_cons, hp, if_true]
      rw [nodes_cons, List.takeWhile_append_of_pos hall, List.dropWhile_append_of_pos hall, nodes_cons,
        ihtake, ihdrop]
      exact ⟨rfl, rfl⟩
    | false =>
      simp only [List.takeWhile_cons, List.dropWhile_cons, hp, Bool.false_eq_true, if_false]
      cases hes : e.2.entries with
      | nil => exact absurd hes (hne e List.mem_cons_self)
      | cons n ns =>
        have hn : p (limitPx n.2) = false := by rw [hprice n (hes ▸ List.mem_cons_self), hp]
        simp [nodes_cons, hes, hn]

/-- Matching a side is `fillMakers` on its orders, and keeps the side invariant. -/
theorem matchOrder_spec {map : Levels O} (t : O) (h : SideInv (side t).opposite map) :
    (matchOrder map t).1 = (fillMakers t (sideOrders (side t).opposite map)).1 ∧
    (matchOrder map t).2.1 = (fillMakers t (sideOrders (side t).opposite map)).2.1.map oid ∧
    sideOrders (side t).opposite (matchOrder map t).2.2 =
      (fillMakers t (sideOrders (side t).opposite map)).2.2 ∧
    SideInv (side t).opposite (matchOrder map t).2.2 := by
  obtain ⟨htaker, hoids, hnodes, hne⟩ := matchOrder_drains t h.nonempty
  obtain ⟨htake, hdrop⟩ := takeWhile_nodes (fun px => (side t).Matches (limitPx t) px)
    (fun e he => h.nonempty e (mem_bestLevels.mp he)) (fun e he => h.filed e (mem_bestLevels.mp he))
  have hfill := fillMakers_eq_drain t (nodes (bestLevels (side t).opposite map))
  dsimp only at hfill
  rw [htake, hdrop, map_snd_nodes] at hfill
  change fillMakers t (sideOrders (side t).opposite map) = _ at hfill
  rw [hfill, htaker, hoids]
  refine ⟨rfl, ?_, ?_, hne, ?_⟩
  · rw [List.map_map]
    rfl
  · rw [sideOrders, ← map_snd_nodes, hnodes]
    rfl
  · -- Every node left has the place and the identity of a node of the side.
    have hkeep : ∀ n ∈ nodes (bestLevels (side t).opposite (matchOrder map t).2.2),
        ∃ m ∈ nodes (bestLevels (side t).opposite map), m.1 = n.1 ∧ ident m.2 = ident n.2 := by
      obtain ⟨gone, rest, hd⟩ := drain_drained t (crossingNodes map t)
      intro n hn
      rw [hnodes, List.mem_append] at hn
      rw [nodes_bestLevels, hd.nodes]
      obtain hn | hn := hn
      · have hm : (n.1, ident n.2) ∈ rest.map fun n => (n.1, ident n.2) :=
          hd.stays.idents ▸ List.mem_map_of_mem hn
        obtain ⟨m, hm, he⟩ := List.mem_map.mp hm
        rw [Prod.mk.injEq] at he
        exact ⟨m, List.mem_append_left _ (List.mem_append_right _ hm), he⟩
      · exact ⟨n, List.mem_append_right _ hn, rfl, rfl⟩
    rintro ⟨px, list⟩ he ⟨k, o⟩ hn
    obtain ⟨⟨⟨px', k'⟩, o'⟩, hm, htag, hident⟩ := hkeep ((px, k), o)
      (mem_nodes.mpr ⟨list, mem_bestLevels.mpr he, hn⟩)
    obtain ⟨rfl, rfl⟩ : px' = px ∧ k' = k := by simpa using htag
    obtain ⟨list', hlist', hn'⟩ := mem_nodes.mp hm
    have hfiled := h.filed (px', list') (mem_bestLevels.mp hlist') (k', o') hn'
    simp only [ident, Prod.mk.injEq] at hident
    obtain ⟨hoid, hside, hpx⟩ := hident
    exact ⟨hpx ▸ hfiled.1, hside ▸ hfiled.2.1, hfiled.2.2.trans hoid⟩

/-! ### Resting, cancelling and resizing -/

namespace SideInv

variable {x : Side} {map : Levels O}

/-- Storing a list back at a price replaces the orders of that price. -/
theorem sideOrders_store (h : SideInv x map) (px : ℕ) (list : LinkedList Oid O) :
    sideOrders x (OrderBookServer.storeLevel map px list) =
      better x px (sideOrders x map) ++ (list.toVec ++ worse x px (sideOrders x map)) := by
  obtain ⟨ha, -, hb⟩ := h.sideOrders_split px
  rw [sideOrders_storeLevel, ha, hb]

theorem mem_levelAt_keys (h : SideInv x map) (px : ℕ) (k : Oid) :
    k ∈ (levelAt map px).keys ↔ k ∈ (atPrice px (sideOrders x map)).map oid := by
  rw [keys_eq_map (h.filed_levelAt px), (h.sideOrders_split px).2.1]

end SideInv

/-- Cutting a level in front of a key cuts its orders in front of that oid. -/
theorem front_toVec {x : Side} {px : ℕ} {list : LinkedList Oid O}
    (h : ∀ n ∈ list.entries, Filed x px n) (before : Oid) :
    (LinkedList.front before list.entries).map Prod.snd =
      list.toVec.takeWhile (fun m => oid m ≠ before) ∧
    (LinkedList.back before list.entries).map Prod.snd =
      list.toVec.dropWhile (fun m => oid m ≠ before) := by
  have he := entries_eq_map h
  constructor
  · rw [LinkedList.front, he, List.takeWhile_map, List.map_map]
    exact List.map_id _
  · rw [LinkedList.back, he, List.dropWhile_map, List.map_map]
    exact List.map_id _

theorem filed_front_back {x : Side} {px : ℕ} {es : List (Oid × O)} (before : Oid)
    (h : ∀ n ∈ es, Filed x px n) :
    (∀ n ∈ LinkedList.front before es, Filed x px n) ∧
      ∀ n ∈ LinkedList.back before es, Filed x px n :=
  ⟨fun n hn => h n ((List.takeWhile_sublist _).subset hn),
    fun n hn => h n ((List.dropWhile_sublist _).subset hn)⟩

/-- Resting an order at its level is `rest` on the orders of the side. -/
theorem addOrderToBook_spec {x : Side} {map : Levels O} (o : O) (anchor : Option Oid)
    (hx : side o = x) (h : SideInv x map) :
    (addOrderToBook map o anchor).1 = (rest anchor o (sideOrders x map)).1 ∧
    sideOrders x (addOrderToBook map o anchor).2 = (rest anchor o (sideOrders x map)).2 ∧
    SideInv x (addOrderToBook map o anchor).2 := by
  subst hx
  have hfiled := h.filed_levelAt (limitPx o)
  have hnew : Filed (side o) (limitPx o) (oid o, o) := ⟨rfl, rfl, rfl⟩
  have hkeys {k : Oid} := h.mem_levelAt_keys (limitPx o) k
  have hvec := (h.sideOrders_split (limitPx o)).2.1
  -- Writing the level back unchanged changes nothing.
  have hsame : sideOrders (side o) (storeLevel map (limitPx o) (levelAt map (limitPx o))) =
      sideOrders (side o) map := by
    rw [h.sideOrders_store, hvec, ← h.split]
  cases anchor with
  | none =>
    have hstore : addOrderToBook map o none =
        (true, storeLevel map (limitPx o) ((levelAt map (limitPx o)).pushBack (oid o) o).2) := by
      have hne : ((levelAt map (limitPx o)).pushBack (oid o) o).2.isEmpty = false := by
        by_cases hk : oid o ∈ (levelAt map (limitPx o)).keys
        · obtain ⟨v, hv⟩ := LinkedList.mem_keys.mp hk
          rw [LinkedList.pushBack_of_mem o hk]
          simpa [LinkedList.isEmpty] using List.ne_nil_of_mem hv
        · simp [LinkedList.isEmpty, (LinkedList.pushBack_of_notMem o hk).2]
      rw [storeLevel, hne]
      rfl
    rw [hstore, rest]
    by_cases hk : oid o ∈ (levelAt map (limitPx o)).keys
    · rw [LinkedList.pushBack_of_mem o hk, if_pos (hkeys.mp hk)]
      exact ⟨rfl, hsame, h.storeLevel hfiled⟩
    · obtain ⟨-, hpush⟩ := LinkedList.pushBack_of_notMem o hk
      rw [if_neg (mt hkeys.mpr hk)]
      refine ⟨rfl, ?_, h.storeLevel ?_⟩
      · rw [h.sideOrders_store, LinkedList.toVec, hpush, List.map_append]
        change _ ++ (((levelAt map (limitPx o)).toVec ++ [o]) ++ _) = _
        rw [hvec, restBack, List.append_assoc]
        rfl
      · intro n hn
        rw [hpush, List.mem_append, List.mem_singleton] at hn
        obtain hn | rfl := hn
        · exact hfiled n hn
        · exact hnew
  | some before =>
    have hstore : addOrderToBook map o (some before) =
        (((levelAt map (limitPx o)).insertBefore before (oid o) o).1,
          storeLevel map (limitPx o) ((levelAt map (limitPx o)).insertBefore before (oid o) o).2) := rfl
    rw [hstore, rest]
    by_cases hr : oid o ∈ (levelAt map (limitPx o)).keys ∨ before ∉ (levelAt map (limitPx o)).keys
    · rw [LinkedList.insertBefore_refused o hr, if_pos (by rwa [← hkeys, ← hkeys])]
      exact ⟨rfl, hsame, h.storeLevel hfiled⟩
    · rw [not_or, not_not] at hr
      obtain ⟨hok, hins⟩ := LinkedList.insertBefore_of_mem o hr.1 hr.2
      rw [if_neg (by rw [← hkeys, ← hkeys, not_or, not_not]; exact hr)]
      refine ⟨hok, ?_, h.storeLevel ?_⟩
      · obtain ⟨hf, hb⟩ := front_toVec hfiled before
        rw [h.sideOrders_store, LinkedList.toVec, hins, List.map_append, List.map_cons, hf, hb, hvec,
          restBefore, List.append_assoc]
        rfl
      · intro n hn
        rw [hins, List.mem_append, List.mem_cons] at hn
        obtain hn | rfl | hn := hn
        · exact (filed_front_back before hfiled).1 n hn
        · exact hnew
        · exact (filed_front_back before hfiled).2 n hn

/-! ### The whole book -/

/-- Both sides of a book are filed by side, price and oid, with no empty level. -/
def BookInv (b : OrderBook O) : Prop := ∀ x, SideInv x (b.levels x)

namespace BookInv

theorem new : BookInv (OrderBook.new : OrderBook O) := by
  intro x
  cases x <;> exact SideInv.empty _

theorem setLevels {b : OrderBook O} (h : BookInv b) {x : Side} {map : Levels O}
    (hm : SideInv x map) : BookInv (b.setLevels x map) := by
  intro y
  by_cases hy : y = x
  · subst hy; rwa [OrderBook.levels_setLevels]
  · obtain rfl := Side.ne_iff_eq_opposite.mp hy
    rw [OrderBook.levels_setLevels_opposite]
    exact h _

theorem index {b : OrderBook O} (h : BookInv b) (index : HashMap Oid (Side × ℕ)) :
    BookInv { b with oidToSidePx := index } := by
  intro x
  rw [OrderBook.levels_index]
  exact h x

end BookInv

namespace OrderBook

/-- The orders resting on a side, in price-time priority. -/
def orders (b : OrderBook O) (x : Side) : List O := b.toSnapshot.orders x

omit [InnerOrder O] in
theorem orders_eq (b : OrderBook O) (x : Side) : b.orders x = sideOrders x (b.levels x) :=
  toSnapshot_orders b x

omit [InnerOrder O] in
theorem toSnapshot_setLevels (b : OrderBook O) (x : Side) (map : Levels O) :
    (b.setLevels x map).toSnapshot = b.toSnapshot.setOrders x (sideOrders x map) := by
  apply Snapshot.ext_orders
  intro y
  by_cases hy : y = x
  · subst hy; rw [Snapshot.orders_setOrders, toSnapshot_orders, levels_setLevels]
  · obtain rfl := Side.ne_iff_eq_opposite.mp hy
    rw [Snapshot.orders_setOrders_opposite, toSnapshot_orders, toSnapshot_orders,
      levels_setLevels_opposite]

/-- Adding an order to a book is `place` on its two lists. -/
theorem addOrderBefore_spec {b : OrderBook O} (h : BookInv b) (o : O) (anchor : Option Oid) :
    ((b.addOrderBefore o anchor).1, (b.addOrderBefore o anchor).2.toSnapshot) =
      place anchor o b.toSnapshot ∧
    BookInv (b.addOrderBefore o anchor).2 := by
  obtain ⟨htaker, -, horders, hinv⟩ := matchOrder_spec o (h (side o).opposite)
  rw [← toSnapshot_orders] at htaker horders
  generalize hout : matchOrder (b.levels (side o).opposite) o = out at htaker horders hinv
  have hside : side out.1 = side o := by rw [htaker, fillMakers_taker_side]
  have hinv' := h.setLevels hinv
  have hsnap := toSnapshot_setLevels b (side o).opposite out.2.2
  rw [horders] at hsnap
  unfold addOrderBefore place
  simp only [hout, ← htaker]
  by_cases hz : 0 < sz out.1
  · simp only [if_pos hz]
    obtain ⟨hok, hrest, hkeep⟩ := addOrderToBook_spec out.1 anchor hside (hinv' (side o))
    rw [← toSnapshot_orders, hsnap] at hok hrest
    have hsnap' := toSnapshot_setLevels (b.setLevels (side o).opposite out.2.2) (side o)
      (addOrderToBook ((b.setLevels (side o).opposite out.2.2).levels (side o)) out.1 anchor).2
    rw [hrest, hsnap] at hsnap'
    have hall := hinv'.setLevels hkeep
    simp only [levels_index, setLevels_index]
    rw [← hok]
    split_ifs with hadd
    · exact ⟨Prod.ext hadd.symm hsnap', hall.index _⟩
    · exact ⟨Prod.ext (by simpa using hadd) hsnap', hall.index _⟩
  · simp only [if_neg hz]
    exact ⟨Prod.ext rfl hsnap, hinv'.index _⟩

/-- What adding an order does to the oid index. -/
theorem addOrderBefore_index {b : OrderBook O} (h : BookInv b) (o : O) (anchor : Option Oid) :
    (b.addOrderBefore o anchor).2.oidToSidePx =
      let filled := fillMakers o (b.orders (side o).opposite)
      let index := (filled.2.1.map oid).foldl (fun index oid => index.erase oid) b.oidToSidePx
      if 0 < sz filled.1 ∧ (rest anchor filled.1 (b.orders (side o))).1 = true then
        index.insert (oid o) (side o, limitPx o)
      else index := by
  obtain ⟨htaker, hoids, -, hinv⟩ := matchOrder_spec o (h (side o).opposite)
  rw [← orders_eq] at htaker hoids
  have hown := addOrderToBook_spec (matchOrder (b.levels (side o).opposite) o).1 anchor
    (by rw [htaker, fillMakers_taker_side]) (h (side o))
  rw [← orders_eq, htaker] at hown
  unfold addOrderBefore
  simp only [levels_index, setLevels_index, levels_opposite_setLevels, htaker, hoids]
  by_cases hz : 0 < sz (fillMakers o (b.orders (side o).opposite)).1
  · rw [← hown.1]
    by_cases ha : (addOrderToBook (b.levels (side o))
        (fillMakers o (b.orders (side o).opposite)).1 anchor).1 = true
    · simp only [if_pos hz, if_pos ha, if_pos (And.intro hz ha), fillMakers_taker_oid,
        fillMakers_taker_side, fillMakers_taker_limitPx]
    · simp only [if_pos hz, if_neg ha, if_neg fun hc : _ ∧ _ => ha hc.2]
  · simp only [if_neg hz, if_neg fun hc : _ ∧ _ => hz hc.1]

theorem toVec_removeNode {x : Side} {px : ℕ} {list : LinkedList Oid O}
    (h : ∀ n ∈ list.entries, Filed x px n) (k : Oid) :
    ((list.removeNode k).1 = true ↔ k ∈ list.keys) ∧
    (list.removeNode k).2.toVec = list.toVec.filter (fun o => oid o ≠ k) ∧
    ∀ n ∈ (list.removeNode k).2.entries, Filed x px n := by
  by_cases hk : k ∈ list.keys
  · obtain ⟨hok, hes⟩ := LinkedList.removeNode_of_mem hk
    refine ⟨by simp [hok, hk], ?_, ?_⟩
    · rw [LinkedList.toVec, hes, LinkedList.toVec, List.filter_map]
      congr 1
      apply List.filter_congr
      intro n hn
      simp [(h n hn).2.2]
    · intro n hn
      rw [hes] at hn
      exact h n (List.mem_of_mem_filter hn)
  · rw [LinkedList.removeNode_of_notMem hk]
    refine ⟨by simp [hk], ?_, h⟩
    symm
    rw [List.filter_eq_self]
    rw [keys_eq_map h] at hk
    intro o ho
    have hne : oid o ≠ k := fun he => hk (List.mem_map.mpr ⟨o, ho, he⟩)
    simpa using hne

theorem toVec_updateNode {x : Side} {px : ℕ} {list : LinkedList Oid O}
    (h : ∀ n ∈ list.entries, Filed x px n) (k : Oid) (s : ℕ) :
    ((list.updateNode k fun o => InnerOrder.modifySz o s).1 = true ↔ k ∈ list.keys) ∧
    (list.updateNode k fun o => InnerOrder.modifySz o s).2.toVec =
      list.toVec.map (fun o => if oid o = k then InnerOrder.modifySz o s else o) ∧
    ∀ n ∈ (list.updateNode k fun o => InnerOrder.modifySz o s).2.entries, Filed x px n := by
  by_cases hk : k ∈ list.keys
  · obtain ⟨hok, hes⟩ := LinkedList.updateNode_of_mem (fun o : O => InnerOrder.modifySz o s) hk
    refine ⟨by simp [hok, hk], ?_, ?_⟩
    · rw [LinkedList.toVec, hes, LinkedList.toVec, List.map_map, List.map_map]
      apply List.map_congr_left
      intro n hn
      simp only [Function.comp, (h n hn).2.2]
      split <;> rfl
    · intro n hn
      rw [hes, List.mem_map] at hn
      obtain ⟨n', hn', rfl⟩ := hn
      have hf := h n' hn'
      split_ifs
      · simpa [Filed] using hf
      · exact hf
  · rw [LinkedList.updateNode_of_notMem _ hk]
    refine ⟨by simp [hk], ?_, h⟩
    rw [keys_eq_map h] at hk
    conv_lhs => rw [← List.map_id list.toVec]
    apply List.map_congr_left
    intro o ho
    have hne : oid o ≠ k := fun he => hk (List.mem_map.mpr ⟨o, ho, he⟩)
    rw [if_neg hne, id]

omit [InnerOrder O] in
theorem levelAt_of_get? {map : Levels O} {px : ℕ} {list : LinkedList Oid O}
    (h : map.get? px = some list) : levelAt map px = list := by rw [levelAt, h]; rfl

omit [InnerOrder O] in
theorem levelAt_of_get?_none {map : Levels O} {px : ℕ} (h : map.get? px = none) :
    levelAt map px = .new := by rw [levelAt, h]; rfl

omit [InnerOrder O] in
theorem cancelOrder_of_lookup_none {b : OrderBook O} {k : Oid}
    (hl : b.oidToSidePx.lookup k = none) : b.cancelOrder k = (false, b) := by
  simp only [cancelOrder, hl]

theorem modifySz_of_lookup_none {b : OrderBook O} {k : Oid} (s : ℕ)
    (hl : b.oidToSidePx.lookup k = none) : b.modifySz k s = (false, b) := by
  simp only [modifySz, hl]

/-- Cancelling an indexed oid is `remove` at the price the index names. -/
theorem cancelOrder_of_lookup {b : OrderBook O} (h : BookInv b) {k : Oid} {x : Side} {p : ℕ}
    (hl : b.oidToSidePx.lookup k = some (x, p)) :
    ((b.cancelOrder k).1 = true ↔ k ∈ (atPrice p (b.orders x)).map oid) ∧
    (b.cancelOrder k).2.toSnapshot = b.toSnapshot.setOrders x (remove p k (b.orders x)) ∧
    (b.cancelOrder k).2.oidToSidePx = b.oidToSidePx.erase k ∧ BookInv (b.cancelOrder k).2 := by
  have hx := h x
  have hkeys := hx.mem_levelAt_keys p k
  have hvec := (hx.sideOrders_split p).2.1
  have hremove := remove_split k (hx.split p)
  rw [← orders_eq] at hkeys hvec hremove
  simp only [cancelOrder, hl, levels_index, setLevels_index]
  cases hg : (b.levels x).get? p with
  | none =>
    rw [levelAt_of_get?_none hg] at hkeys hvec
    have hself : remove p k (b.orders x) = b.orders x := by
      rw [hremove, ← hvec, ← List.append_nil (better x p _)]
      conv_rhs => rw [orders_eq, hx.split p, ← orders_eq, ← hvec]
      simp [LinkedList.toVec]
    refine ⟨by simpa [LinkedList.keys] using hkeys, ?_, rfl, h.index _⟩
    rw [hself, orders, Snapshot.setOrders_orders]
    rfl
  | some list =>
    obtain ⟨hok, htoVec, hfiled⟩ := toVec_removeNode (levelAt_of_get? hg ▸ hx.filed_levelAt p) k
    rw [levelAt_of_get? hg] at hkeys hvec
    refine ⟨hok.trans hkeys, ?_, rfl, (h.setLevels (hx.storeLevel hfiled)).index _⟩
    change (b.setLevels x (storeLevel (b.levels x) p (list.removeNode k).2)).toSnapshot = _
    rw [toSnapshot_setLevels, hx.sideOrders_store, htoVec, hvec, ← orders_eq, hremove]

/-- Resizing an indexed oid is `resize` at the price the index names. -/
theorem modifySz_of_lookup {b : OrderBook O} (h : BookInv b) {k : Oid} {x : Side} {p : ℕ} (s : ℕ)
    (hl : b.oidToSidePx.lookup k = some (x, p)) :
    ((b.modifySz k s).1 = true ↔ k ∈ (atPrice p (b.orders x)).map oid) ∧
    (b.modifySz k s).2.toSnapshot = b.toSnapshot.setOrders x (resize p k s (b.orders x)) ∧
    (b.modifySz k s).2.oidToSidePx = b.oidToSidePx ∧ BookInv (b.modifySz k s).2 := by
  have hx := h x
  have hkeys := hx.mem_levelAt_keys p k
  have hvec := (hx.sideOrders_split p).2.1
  have hresize := resize_split k s (hx.split p)
  rw [← orders_eq] at hkeys hvec hresize
  simp only [modifySz, hl]
  cases hg : (b.levels x).get? p with
  | none =>
    rw [levelAt_of_get?_none hg] at hkeys hvec
    have hself : resize p k s (b.orders x) = b.orders x := by
      rw [hresize, ← hvec]
      conv_rhs => rw [orders_eq, hx.split p, ← orders_eq, ← hvec]
      simp [LinkedList.toVec]
    refine ⟨by simpa [LinkedList.keys] using hkeys, ?_, rfl, h⟩
    rw [hself, orders, Snapshot.setOrders_orders]
  | some list =>
    obtain ⟨hok, htoVec, hfiled⟩ := toVec_updateNode (levelAt_of_get? hg ▸ hx.filed_levelAt p) k s
    rw [levelAt_of_get? hg] at hkeys hvec
    -- An existing level stays nonempty, so writing it back is storing it.
    have hne : (list.updateNode k fun o => InnerOrder.modifySz o s).2.isEmpty = false := by
      have hlist := hx.nonempty (p, list) (BTreeMap.get?_eq_some.mp hg)
      have hlen := congrArg List.length htoVec
      rw [List.length_map, LinkedList.toVec, LinkedList.toVec, List.length_map, List.length_map] at hlen
      rw [LinkedList.isEmpty, List.isEmpty_eq_false_iff, ← List.length_pos_iff, hlen]
      exact List.length_pos_iff.mpr hlist
    have hstore : (b.levels x).insert p (list.updateNode k fun o => InnerOrder.modifySz o s).2 =
        storeLevel (b.levels x) p (list.updateNode k fun o => InnerOrder.modifySz o s).2 := by
      rw [storeLevel, hne]
      rfl
    simp only [hstore]
    refine ⟨hok.trans hkeys, ?_, oidToSidePx_setLevels _ _ _, h.setLevels (hx.storeLevel hfiled)⟩
    rw [toSnapshot_setLevels, hx.sideOrders_store, htoVec, hvec, ← orders_eq, hresize]

end OrderBook
end OrderBookServer
