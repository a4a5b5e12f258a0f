import OrderBookServer.Matching

/-!
# The representation invariant of a book

The three maps of a book stay in step: no level is empty, every order is filed
under its own side, price and oid, and the oid index names exactly the resting
orders, each once. The invariant holds of every book reachable from the empty
one by adding orders that do not rest yet, cancelling and resizing, whatever the
arguments and whether or not the call succeeds. Under it an oid can be cancelled
or resized exactly when it rests, and nothing but that order changes.
-/
namespace OrderBookServer
open InnerOrder PriceTime

variable {O : Type} [InnerOrder O]

namespace OrderBook

/-- The oid `k` is a key of the list at price `p` on side `x`. -/
def RestsAt (b : OrderBook O) (k : Oid) (x : Side) (p : ℕ) : Prop :=
  ∃ list, (b.levels x).get? p = some list ∧ k ∈ list.keys

/-- What rests in a book: each order's oid, side and price. -/
def resting (b : OrderBook O) : List (Oid × Side × ℕ) := (b.orders .bid ++ b.orders .ask).map ident

structure RepInv (b : OrderBook O) : Prop where
  nonempty : ∀ x, ∀ e ∈ (b.levels x).entries, e.2.entries ≠ []
  filed : ∀ x, ∀ e ∈ (b.levels x).entries, ∀ n ∈ e.2.entries,
    limitPx n.2 = e.1 ∧ side n.2 = x ∧ n.1 = oid n.2
  indexed : ∀ k x p, b.oidToSidePx.lookup k = some (x, p) ↔ b.RestsAt k x p
  once : ((b.orders .bid ++ b.orders .ask).map oid).Nodup

theorem resting_perm (b : OrderBook O) (x : Side) :
    b.resting.Perm ((b.orders x.opposite).map ident ++ (b.orders x).map ident) := by
  rw [resting, List.map_append]
  cases x with
  | ask => exact List.Perm.refl _
  | bid => exact List.perm_append_comm

theorem BookInv.side_eq {b : OrderBook O} (h : BookInv b) {x : Side} {o : O} (ho : o ∈ b.orders x) :
    side o = x := (h x).side_eq (orders_eq b x ▸ ho)

theorem mem_resting {b : OrderBook O} (h : BookInv b) {k : Oid} {x : Side} {p : ℕ} :
    (k, x, p) ∈ b.resting ↔ ∃ o ∈ b.orders x, oid o = k ∧ limitPx o = p := by
  rw [(b.resting_perm x).mem_iff, List.mem_append, List.mem_map, List.mem_map]
  constructor
  · rintro (⟨o, ho, he⟩ | ⟨o, ho, he⟩)
    · obtain ⟨rfl, hs, rfl⟩ : oid o = k ∧ side o = x ∧ limitPx o = p := by simpa [ident] using he
      exact absurd ((BookInv.side_eq h ho).symm.trans hs) (Side.opposite_ne x)
    · obtain ⟨rfl, -, rfl⟩ : oid o = k ∧ side o = x ∧ limitPx o = p := by simpa [ident] using he
      exact ⟨o, ho, rfl, rfl⟩
  · rintro ⟨o, ho, rfl, rfl⟩
    exact .inr ⟨o, ho, by rw [ident, BookInv.side_eq h ho]⟩

theorem mem_atPrice_iff {b : OrderBook O} (h : BookInv b) {k : Oid} {x : Side} {p : ℕ} :
    k ∈ (atPrice p (b.orders x)).map oid ↔ (k, x, p) ∈ b.resting := by
  rw [mem_resting h, List.mem_map]
  simp only [atPrice, List.mem_filter, decide_eq_true_eq]
  exact ⟨fun ⟨o, ⟨ho, hp⟩, hk⟩ => ⟨o, ho, hk, hp⟩, fun ⟨o, ho, hk, hp⟩ => ⟨o, ⟨ho, hp⟩, hk⟩⟩

theorem restsAt_iff {b : OrderBook O} (h : BookInv b) {k : Oid} {x : Side} {p : ℕ} :
    b.RestsAt k x p ↔ (k, x, p) ∈ b.resting := by
  rw [← mem_atPrice_iff h, orders_eq, ← (h x).mem_levelAt_keys, RestsAt, levelAt]
  cases (b.levels x).get? p with
  | none => simp [LinkedList.keys]
  | some list => simp

theorem fst_mem_resting {b : OrderBook O} {k : Oid} :
    k ∈ b.resting.map Prod.fst ↔ ∃ x, ∃ o ∈ b.orders x, oid o = k := by
  have hfst : b.resting.map Prod.fst = (b.orders .bid ++ b.orders .ask).map oid := by
    rw [resting, List.map_map]; rfl
  rw [hfst, List.map_append, List.mem_append, List.mem_map, List.mem_map]
  constructor
  · rintro (h | h)
    · exact ⟨.bid, h⟩
    · exact ⟨.ask, h⟩
  · rintro ⟨x, h⟩
    cases x with
    | ask => exact .inr h
    | bid => exact .inl h

/-- The invariant in terms of the two lists: a filed book whose index indexes
what rests. -/
theorem repInv_iff {b : OrderBook O} :
    RepInv b ↔ BookInv b ∧ HashMap.Indexes b.oidToSidePx b.resting := by
  have hfst : b.resting.map Prod.fst = (b.orders .bid ++ b.orders .ask).map oid := by
    rw [resting, List.map_map]; rfl
  constructor
  · intro h
    have hb : BookInv b := fun x => ⟨h.nonempty x, h.filed x⟩
    exact ⟨hb, hfst ▸ h.once, fun k v => (h.indexed k v.1 v.2).trans (restsAt_iff hb)⟩
  · rintro ⟨hb, hi⟩
    exact ⟨fun x => (hb x).nonempty, fun x => (hb x).filed,
      fun k x p => (hi.lookup_iff k (x, p)).trans (restsAt_iff hb).symm, hfst ▸ hi.nodup⟩

/-! ### One step -/

/-- An order that is not resting yet comes to rest beside the others, or is
refused and leaves them as they are. -/
theorem rest_fresh {os : List O} (anchor : Option Oid) (t : O)
    (hs : os = better (side t) (limitPx t) os ++
      (atPrice (limitPx t) os ++ worse (side t) (limitPx t) os))
    (hfresh : ∀ m ∈ os, oid m ≠ oid t) :
    ((rest anchor t os).1 = true → (rest anchor t os).2.Perm (t :: os)) ∧
      (¬ (rest anchor t os).1 = true → (rest anchor t os).2 = os) := by
  have hnot : oid t ∉ (atPrice (limitPx t) os).map oid := by
    rw [List.mem_map]
    rintro ⟨m, hm, he⟩
    exact hfresh m (List.mem_of_mem_filter hm) he
  cases anchor with
  | none =>
    simp only [rest, if_neg hnot]
    exact ⟨fun _ => restBack_perm_cons t rfl hs, fun h => absurd trivial h⟩
  | some before =>
    simp only [rest]
    split_ifs with hr
    · exact ⟨fun h => absurd h (by simp), fun _ => rfl⟩
    · exact ⟨fun _ => restBefore_perm_cons before t rfl hs, fun h => absurd rfl h⟩

theorem repInv_new : RepInv (new : OrderBook O) :=
  repInv_iff.mpr ⟨BookInv.new, HashMap.Indexes.empty⟩

theorem orders_addOrderBefore {b : OrderBook O} (h : BookInv b) (o : O) (anchor : Option Oid) :
    let filled := fillMakers o (b.orders (side o).opposite)
    (b.addOrderBefore o anchor).2.orders (side o).opposite = filled.2.2 ∧
    (b.addOrderBefore o anchor).2.orders (side o) =
      if 0 < sz filled.1 then (rest anchor filled.1 (b.orders (side o))).2
      else b.orders (side o) := by
  have hsnap : (b.addOrderBefore o anchor).2.toSnapshot = (place anchor o b.toSnapshot).2 :=
    congrArg Prod.snd (addOrderBefore_spec h o anchor).1
  simp only [orders, hsnap]
  exact place_orders anchor o b.toSnapshot

/-- Adding an order that does not rest yet keeps the invariant: the makers it
fills leave both the lists and the index, and it enters both or neither. -/
theorem RepInv.addOrderBefore {b : OrderBook O} (h : RepInv b) (o : O) (anchor : Option Oid)
    (hfresh : ∀ x, ∀ o' ∈ b.orders x, oid o' ≠ oid o) : RepInv (b.addOrderBefore o anchor).2 := by
  obtain ⟨hb, hi⟩ := repInv_iff.mp h
  refine repInv_iff.mpr ⟨(addOrderBefore_spec hb o anchor).2, ?_⟩
  obtain ⟨hopp, hown⟩ := orders_addOrderBefore hb o anchor
  rw [addOrderBefore_index hb]
  simp only at hopp hown ⊢
  have htaker := fillMakers_taker_ident o (b.orders (side o).opposite)
  have hidents := fillMakers_ident o (b.orders (side o).opposite)
  generalize fillMakers o (b.orders (side o).opposite) = filled at *
  have ht : oid filled.1 = oid o ∧ side filled.1 = side o ∧ limitPx filled.1 = limitPx o := by
    simpa [ident] using htaker
  -- The filled makers leave the index.
  have herase : HashMap.Indexes
      ((filled.2.1.map oid).foldl (fun index oid => index.erase oid) b.oidToSidePx)
      (filled.2.2.map ident ++ (b.orders (side o)).map ident) := by
    have hp := hi.perm (b.resting_perm (side o))
    rw [← hidents, List.append_assoc] at hp
    have := hp.eraseAll
    rwa [List.map_map] at this
  have hsplit := (hb (side o)).split (limitPx o)
  rw [← orders_eq] at hsplit
  obtain ⟨hin, hout⟩ := rest_fresh anchor filled.1 (by rw [ht.2.1, ht.2.2]; exact hsplit)
    (fun m hm => ht.1 ▸ hfresh (side o) m hm)
  have hperm := ((b.addOrderBefore o anchor).2.resting_perm (side o)).symm
  rw [hopp, hown] at hperm
  split_ifs with hadd
  · -- What is left of the taker rests.
    refine HashMap.Indexes.perm (herase.insert ?_ (side o, limitPx o)) (List.Perm.trans ?_ hperm)
    · rw [List.map_append, List.mem_append, not_or]
      have hfst (os : List O) : (os.map ident).map Prod.fst = os.map oid := by
        rw [List.map_map]; rfl
      constructor
      · intro hm
        have hleft : oid o ∈ ((b.orders (side o).opposite).map ident).map Prod.fst := by
          rw [← hidents, List.map_append, List.mem_append]
          exact .inr hm
        rw [hfst, List.mem_map] at hleft
        obtain ⟨m, hm, he⟩ := hleft
        exact hfresh _ m hm he
      · rw [hfst, List.mem_map]
        rintro ⟨m, hm, he⟩
        exact hfresh _ m hm he
    · rw [if_pos hadd.1]
      refine List.perm_middle.symm.trans (List.Perm.append_left _ ?_)
      have := ((hin hadd.2).map ident).symm
      rwa [List.map_cons, htaker] at this
  · -- The order is filled or refused.
    refine herase.perm (List.Perm.trans ?_ hperm)
    have hsame : (if 0 < sz filled.1 then (rest anchor filled.1 (b.orders (side o))).2
        else b.orders (side o)) = b.orders (side o) := by
      split_ifs with hz
      · exact hout fun ha => hadd ⟨hz, ha⟩
      · rfl
    rw [hsame]

/-- An order rests where the index says, as no two orders of a book share an oid. -/
theorem place_of_lookup {b : OrderBook O} (hb : BookInv b)
    (hi : HashMap.Indexes b.oidToSidePx b.resting) {k : Oid} {x y : Side} {p : ℕ} {o : O}
    (hl : b.oidToSidePx.lookup k = some (x, p)) (ho : o ∈ b.orders y) (he : oid o = k) :
    y = x ∧ limitPx o = p := by
  have hmem := (hi.lookup_iff k (x, p)).mp hl
  have hrests : (k, (y, limitPx o)) ∈ b.resting := (mem_resting hb).mpr ⟨o, ho, he, rfl⟩
  have hsame := HashMap.eq_of_mem_of_nodup hi.nodup hrests hmem
  simpa using hsame

/-- An oid is cancelled exactly when it rests, and then it alone is gone. -/
theorem RepInv.cancelOrder {b : OrderBook O} (h : RepInv b) (k : Oid) :
    RepInv (b.cancelOrder k).2 ∧
    ((b.cancelOrder k).1 = true ↔ ∃ x, ∃ o ∈ b.orders x, oid o = k) ∧
    ∀ x, (b.cancelOrder k).2.orders x = (b.orders x).filter fun o => oid o ≠ k := by
  obtain ⟨hb, hi⟩ := repInv_iff.mp h
  cases hl : b.oidToSidePx.lookup k with
  | none =>
    have hnot := hi.lookup_eq_none.mp hl
    rw [fst_mem_resting] at hnot
    rw [cancelOrder_of_lookup_none hl]
    refine ⟨h, by simpa using hnot, fun x => ?_⟩
    symm
    rw [List.filter_eq_self]
    intro o ho
    simpa using fun he => hnot ⟨x, o, ho, he⟩
  | some v =>
    obtain ⟨x, p⟩ := v
    have hmem := (hi.lookup_iff k (x, p)).mp hl
    obtain ⟨hok, hsnap, hindex, hinv⟩ := cancelOrder_of_lookup hb hl
    rw [mem_atPrice_iff hb] at hok
    have horders (y : Side) : (b.cancelOrder k).2.orders y = (b.orders y).filter fun o => oid o ≠ k := by
      by_cases hy : y = x
      · subst hy
        rw [orders, hsnap, Snapshot.orders_setOrders, remove]
        apply List.filter_congr
        intro o ho
        by_cases he : oid o = k
        · simp [he, (place_of_lookup hb hi hl ho he).2]
        · simp [he]
      · obtain rfl := Side.ne_iff_eq_opposite.mp hy
        rw [orders, hsnap, Snapshot.orders_setOrders_opposite, ← orders]
        symm
        rw [List.filter_eq_self]
        intro o ho
        simpa using fun he => hy (place_of_lookup hb hi hl ho he).1
    refine ⟨repInv_iff.mpr ⟨hinv, ?_⟩, ?_, horders⟩
    · rw [hindex]
      -- The order is the only fact under its oid, so the index of the rest remains.
      have hfilter : (b.cancelOrder k).2.resting = b.resting.filter fun e => e.1 ≠ k := by
        rw [resting, resting, List.filter_map, horders, horders, ← List.filter_append]
        rfl
      rw [hfilter]
      refine ⟨hi.nodup.sublist (List.filter_sublist.map _), fun k' w => ?_⟩
      rw [HashMap.lookup_erase_ite, List.mem_filter]
      by_cases hk : k' = k
      · simp [hk]
      · simp [hk, hi.lookup_iff]
    · exact iff_of_true (hok.mpr hmem) (fst_mem_resting.mp (List.mem_map_of_mem hmem))

/-- An oid is resized exactly when it rests, and then in place and alone. -/
theorem RepInv.modifySz {b : OrderBook O} (h : RepInv b) (k : Oid) (s : ℕ) :
    RepInv (b.modifySz k s).2 ∧
    ((b.modifySz k s).1 = true ↔ ∃ x, ∃ o ∈ b.orders x, oid o = k) ∧
    ∀ x, (b.modifySz k s).2.orders x =
      (b.orders x).map fun o => if oid o = k then InnerOrder.modifySz o s else o := by
  obtain ⟨hb, hi⟩ := repInv_iff.mp h
  cases hl : b.oidToSidePx.lookup k with
  | none =>
    have hnot := hi.lookup_eq_none.mp hl
    rw [fst_mem_resting] at hnot
    rw [modifySz_of_lookup_none s hl]
    refine ⟨h, by simpa using hnot, fun x => ?_⟩
    conv_lhs => rw [← List.map_id (b.orders x)]
    apply List.map_congr_left
    intro o ho
    rw [if_neg fun he => hnot ⟨x, o, ho, he⟩, id]
  | some v =>
    obtain ⟨x, p⟩ := v
    have hmem := (hi.lookup_iff k (x, p)).mp hl
    obtain ⟨hok, hsnap, hindex, hinv⟩ := modifySz_of_lookup hb s hl
    rw [mem_atPrice_iff hb] at hok
    have horders (y : Side) : (b.modifySz k s).2.orders y =
        (b.orders y).map fun o => if oid o = k then InnerOrder.modifySz o s else o := by
      by_cases hy : y = x
      · subst hy
        rw [orders, hsnap, Snapshot.orders_setOrders, resize]
        apply List.map_congr_left
        intro o ho
        by_cases he : oid o = k
        · simp [he, (place_of_lookup hb hi hl ho he).2]
        · simp [he]
      · obtain rfl := Side.ne_iff_eq_opposite.mp hy
        rw [orders, hsnap, Snapshot.orders_setOrders_opposite, ← orders]
        conv_lhs => rw [← List.map_id (b.orders x.opposite)]
        apply List.map_congr_left
        intro o ho
        rw [if_neg fun he => hy (place_of_lookup hb hi hl ho he).1, id]
    refine ⟨repInv_iff.mpr ⟨hinv, ?_⟩, ?_, horders⟩
    · -- Resizing keeps every identity, hence the index.
      have hsame : (b.modifySz k s).2.resting = b.resting := by
        rw [resting, resting, horders, horders, ← List.map_append, List.map_map]
        apply List.map_congr_left
        intro o _
        simp only [Function.comp]
        split_ifs <;> simp [ident]
      rw [hsame, hindex]
      exact hi
    · exact iff_of_true (hok.mpr hmem) (fst_mem_resting.mp (List.mem_map_of_mem hmem))

/-! ### Whole runs -/

/-- A book made from the empty one by any calls that change books; an order is
only added while its oid does not rest. -/
inductive Reachable : OrderBook O → Prop
  | new : Reachable new
  | addOrderBefore {b : OrderBook O} (h : Reachable b) (o : O) (anchor : Option Oid)
      (fresh : ∀ x, ∀ o' ∈ b.orders x, oid o' ≠ oid o) : Reachable (b.addOrderBefore o anchor).2
  | cancelOrder {b : OrderBook O} (h : Reachable b) (k : Oid) : Reachable (b.cancelOrder k).2
  | modifySz {b : OrderBook O} (h : Reachable b) (k : Oid) (s : ℕ) : Reachable (b.modifySz k s).2

theorem Reachable.repInv {b : OrderBook O} (h : Reachable b) : RepInv b := by
  induction h with
  | new => exact repInv_new
  | addOrderBefore _ o anchor fresh ih => exact ih.addOrderBefore o anchor fresh
  | cancelOrder _ k ih => exact (ih.cancelOrder k).1
  | modifySz _ k s ih => exact (ih.modifySz k s).1

/-- Every reachable book is represented soundly, and its calls to cancel and to
resize succeed exactly on resting oids and touch nothing else. -/
theorem reachable_book_representation {b : OrderBook O} (h : Reachable b) :
    RepInv b ∧
    (∀ k, ((b.cancelOrder k).1 = true ↔ ∃ x, ∃ o ∈ b.orders x, oid o = k) ∧
      ∀ x, (b.cancelOrder k).2.orders x = (b.orders x).filter fun o => oid o ≠ k) ∧
    ∀ k s, ((b.modifySz k s).1 = true ↔ ∃ x, ∃ o ∈ b.orders x, oid o = k) ∧
      ∀ x, (b.modifySz k s).2.orders x =
        (b.orders x).map fun o => if oid o = k then InnerOrder.modifySz o s else o :=
  ⟨h.repInv, fun k => (h.repInv.cancelOrder k).2, fun k s => (h.repInv.modifySz k s).2⟩

/-- A bid at 5 and an ask that consumes a part of it, then a cancel of the bid. -/
theorem reachable_book_representation_bid_and_ask :
    let b := ((OrderBook.new.addOrderBefore (MinimalOrder.new 0 100 5 .bid) none).2.addOrderBefore
      (MinimalOrder.new 1 30 5 .ask) none).2
    RepInv b ∧ (b.cancelOrder 0).1 = true ∧ (b.cancelOrder 1).1 = false := by
  intro b
  have hb : Reachable b := .addOrderBefore (.addOrderBefore .new _ none (by intro x; cases x <;> decide))
    _ none (by intro x; cases x <;> decide)
  exact ⟨(reachable_book_representation hb).1, by decide, by decide⟩

end OrderBook
end OrderBookServer
