import OrderBookServer.OrderBook

/-!
# Sides of a book refine price-time lists

A side of a book holds the orders of one price-time list, cut into levels. The
side invariant says that no level is empty and that every order is filed under
its own price, side and oid; it needs no assumption on the orders. Under it the
level map is determined by the list, matching is `fillMakers` on the list, and
resting an order is `restBack` or `restBefore`.
-/
namespace OrderBookServer
open InnerOrder PriceTime

variable {O : Type}

/-- The orders of a run of levels, in order. -/
def flat (levels : List (ℕ × LinkedList Oid O)) : List O :=
  levels.flatMap fun e => e.2.toVec

@[simp] theorem flat_nil : flat ([] : List (ℕ × LinkedList Oid O)) = [] := rfl

@[simp] theorem flat_cons (e : ℕ × LinkedList Oid O) (levels : List (ℕ × LinkedList Oid O)) :
    flat (e :: levels) = e.2.toVec ++ flat levels := List.flatMap_cons

@[simp] theorem flat_append (l l' : List (ℕ × LinkedList Oid O)) :
    flat (l ++ l') = flat l ++ flat l' := List.flatMap_append

theorem mem_flat {levels : List (ℕ × LinkedList Oid O)} {o : O} :
    o ∈ flat levels ↔ ∃ e ∈ levels, ∃ n ∈ e.2.entries, n.2 = o := by
  simp [flat, LinkedList.toVec]

/-- The levels of a side, best price first. -/
def bestLevels (x : Side) (map : Levels O) : List (ℕ × LinkedList Oid O) :=
  match x with
  | .ask => map.entries
  | .bid => map.entries.reverse

@[simp] theorem mem_bestLevels {x : Side} {map : Levels O} {e : ℕ × LinkedList Oid O} :
    e ∈ bestLevels x map ↔ e ∈ map.entries := by
  cases x <;> simp [bestLevels]

/-- The orders of a side in price-time priority. -/
def sideOrders (x : Side) (map : Levels O) : List O := flat (bestLevels x map)

theorem toSnapshot_orders (b : OrderBook O) (x : Side) :
    b.toSnapshot.orders x = sideOrders x (b.levels x) := by cases x <;> rfl

/-- The levels that rank before the price `px`, best first. -/
def ahead (x : Side) (map : Levels O) (px : ℕ) : List (ℕ × LinkedList Oid O) :=
  match x with
  | .ask => map.below px
  | .bid => (map.above px).reverse

/-- The levels that rank behind the price `px`, best first. -/
def behind (x : Side) (map : Levels O) (px : ℕ) : List (ℕ × LinkedList Oid O) :=
  match x with
  | .ask => map.above px
  | .bid => (map.below px).reverse

theorem mem_ahead {x : Side} {map : Levels O} {px : ℕ} {e : ℕ × LinkedList Oid O} :
    e ∈ ahead x map px ↔ e ∈ map.entries ∧ x.Before e.1 px := by
  cases x <;> simp [ahead, BTreeMap.mem_below, BTreeMap.mem_above, Side.Before]

theorem mem_behind {x : Side} {map : Levels O} {px : ℕ} {e : ℕ × LinkedList Oid O} :
    e ∈ behind x map px ↔ e ∈ map.entries ∧ x.Before px e.1 := by
  cases x <;> simp [behind, BTreeMap.mem_below, BTreeMap.mem_above, Side.Before]

/-- The list at a price, empty where the price has no level. -/
def levelAt (map : Levels O) (px : ℕ) : LinkedList Oid O := (map.get? px).getD .new

theorem bestLevels_split (x : Side) (map : Levels O) (px : ℕ) :
    bestLevels x map = ahead x map px ++ (map.at? px ++ behind x map px) := by
  have hr : (map.at? px).reverse = map.at? px := by
    rw [BTreeMap.at?_eq]
    split <;> rfl
  have hs := map.entries_split px
  cases x with
  | ask => exact hs
  | bid =>
    change map.entries.reverse = _
    conv_lhs => rw [hs]
    simp [ahead, behind, hr]

theorem flat_at? (map : Levels O) (px : ℕ) : flat (map.at? px) = (levelAt map px).toVec := by
  rw [BTreeMap.at?_eq, levelAt]
  cases map.get? px with
  | none => rfl
  | some list => simp

theorem bestLevels_insert (x : Side) (map : Levels O) (px : ℕ) (list : LinkedList Oid O) :
    bestLevels x (map.insert px list) = ahead x map px ++ (px, list) :: behind x map px := by
  cases x <;> simp [bestLevels, ahead, behind]

theorem bestLevels_erase (x : Side) (map : Levels O) (px : ℕ) :
    bestLevels x (map.erase px) = ahead x map px ++ behind x map px := by
  cases x <;> simp [bestLevels, ahead, behind, BTreeMap.entries_erase]

/-- Write a list back to a level, or drop the level when the list is empty. -/
def storeLevel (map : Levels O) (px : ℕ) (list : LinkedList Oid O) : Levels O :=
  if list.isEmpty then map.erase px else map.insert px list

theorem sideOrders_storeLevel (x : Side) (map : Levels O) (px : ℕ) (list : LinkedList Oid O) :
    sideOrders x (storeLevel map px list) =
      flat (ahead x map px) ++ (list.toVec ++ flat (behind x map px)) := by
  unfold storeLevel sideOrders
  split_ifs with h
  · have hv : list.toVec = [] := by simpa [LinkedList.isEmpty, LinkedList.toVec] using h
    rw [bestLevels_erase, flat_append, hv, List.nil_append]
  · rw [bestLevels_insert, flat_append, flat_cons]

theorem filter_flat_eq_self {p : O → Bool} {levels : List (ℕ × LinkedList Oid O)}
    (h : ∀ e ∈ levels, ∀ n ∈ e.2.entries, p n.2 = true) : (flat levels).filter p = flat levels := by
  rw [List.filter_eq_self]
  intro o ho
  obtain ⟨e, he, n, hn, rfl⟩ := mem_flat.mp ho
  exact h e he n hn

theorem filter_flat_eq_nil {p : O → Bool} {levels : List (ℕ × LinkedList Oid O)}
    (h : ∀ e ∈ levels, ∀ n ∈ e.2.entries, p n.2 = false) : (flat levels).filter p = [] := by
  rw [List.filter_eq_nil_iff]
  intro o ho
  obtain ⟨e, he, n, hn, rfl⟩ := mem_flat.mp ho
  simp [h e he n hn]

section Filed

variable [InnerOrder O]

/-- An order's node is filed under the side, price and oid of the order. -/
def Filed (x : Side) (px : ℕ) (n : Oid × O) : Prop :=
  limitPx n.2 = px ∧ side n.2 = x ∧ n.1 = oid n.2

structure SideInv (x : Side) (map : Levels O) : Prop where
  nonempty : ∀ e ∈ map.entries, e.2.entries ≠ []
  filed : ∀ e ∈ map.entries, ∀ n ∈ e.2.entries, Filed x e.1 n

theorem SideInv.empty (x : Side) : SideInv x (BTreeMap.empty : Levels O) :=
  ⟨by simp [BTreeMap.empty], by simp [BTreeMap.empty]⟩

theorem SideInv.side_eq {x : Side} {map : Levels O} (h : SideInv x map) {o : O}
    (ho : o ∈ sideOrders x map) : side o = x := by
  obtain ⟨e, he, n, hn, rfl⟩ := mem_flat.mp ho
  exact (h.filed e (mem_bestLevels.mp he) n hn).2.1

/-- The nodes of a level are its orders under their own oids. -/
theorem entries_eq_map {x : Side} {px : ℕ} {list : LinkedList Oid O}
    (h : ∀ n ∈ list.entries, Filed x px n) :
    list.entries = list.toVec.map fun o => (oid o, o) := by
  rw [LinkedList.toVec, List.map_map]
  conv_lhs => rw [← List.map_id list.entries]
  apply List.map_congr_left
  intro n hn
  exact Prod.ext (h n hn).2.2 rfl

theorem keys_eq_map {x : Side} {px : ℕ} {list : LinkedList Oid O}
    (h : ∀ n ∈ list.entries, Filed x px n) : list.keys = list.toVec.map oid := by
  rw [LinkedList.keys, entries_eq_map h, List.map_map]
  rfl

namespace SideInv

variable {x : Side} {map : Levels O}

theorem filed_levelAt (h : SideInv x map) (px : ℕ) :
    ∀ n ∈ (levelAt map px).entries, Filed x px n := by
  intro n hn
  unfold levelAt at hn
  cases hg : map.get? px with
  | none => rw [hg] at hn; simp at hn
  | some list =>
    rw [hg] at hn
    exact h.filed (px, list) (BTreeMap.get?_eq_some.mp hg) n hn

/-- Around any price the orders of a side are those ahead of it, those at it and
those behind it. -/
theorem sideOrders_split (h : SideInv x map) (px : ℕ) :
    flat (ahead x map px) = better x px (sideOrders x map) ∧
    (levelAt map px).toVec = atPrice px (sideOrders x map) ∧
    flat (behind x map px) = worse x px (sideOrders x map) := by
  have hs : sideOrders x map =
      flat (ahead x map px) ++ ((levelAt map px).toVec ++ flat (behind x map px)) := by
    rw [sideOrders, bestLevels_split x map px, flat_append, flat_append, flat_at?]
  have ha : ∀ e ∈ ahead x map px, ∀ n ∈ e.2.entries, x.Before (limitPx n.2) px := by
    intro e he n hn
    obtain ⟨hm, hb⟩ := mem_ahead.mp he
    rw [(h.filed e hm n hn).1]
    exact hb
  have hb : ∀ e ∈ behind x map px, ∀ n ∈ e.2.entries, x.Before px (limitPx n.2) := by
    intro e he n hn
    obtain ⟨hm, hb⟩ := mem_behind.mp he
    rw [(h.filed e hm n hn).1]
    exact hb
  have hl : ∀ o ∈ (levelAt map px).toVec, limitPx o = px := by
    intro o ho
    obtain ⟨n, hn, rfl⟩ := List.mem_map.mp ho
    exact (h.filed_levelAt px n hn).1
  have hne {p q : ℕ} (hpq : x.Before p q) : p ≠ q := fun he => x.before_irrefl q (he ▸ hpq)
  refine ⟨?_, ?_, ?_⟩
  · have hmid : (levelAt map px).toVec.filter (fun m => decide (x.Before (limitPx m) px)) = [] := by
      rw [List.filter_eq_nil_iff]
      intro o ho
      simpa [hl o ho] using x.before_irrefl px
    rw [better, hs, List.filter_append, List.filter_append, hmid,
      filter_flat_eq_self (fun e he n hn => by simpa using ha e he n hn),
      filter_flat_eq_nil (fun e he n hn => by simpa using (hb e he n hn).asymm), List.append_nil,
      List.append_nil]
  · have hmid : (levelAt map px).toVec.filter (fun m => decide (limitPx m = px)) =
        (levelAt map px).toVec := by
      rw [List.filter_eq_self]
      intro o ho
      simpa using hl o ho
    rw [atPrice, hs, List.filter_append, List.filter_append, hmid,
      filter_flat_eq_nil (fun e he n hn => by simpa using hne (ha e he n hn)),
      filter_flat_eq_nil (fun e he n hn => by simpa using (hne (hb e he n hn)).symm),
      List.append_nil, List.nil_append]
  · have hmid : (levelAt map px).toVec.filter (fun m => decide (x.Before px (limitPx m))) = [] := by
      rw [List.filter_eq_nil_iff]
      intro o ho
      simpa [hl o ho] using x.before_irrefl px
    rw [worse, hs, List.filter_append, List.filter_append, hmid,
      filter_flat_eq_nil (fun e he n hn => by simpa using (ha e he n hn).asymm),
      filter_flat_eq_self (fun e he n hn => by simpa using hb e he n hn), List.nil_append,
      List.nil_append]

theorem split (h : SideInv x map) (px : ℕ) :
    sideOrders x map = better x px (sideOrders x map) ++
      (atPrice px (sideOrders x map) ++ worse x px (sideOrders x map)) := by
  obtain ⟨ha, hl, hb⟩ := h.sideOrders_split px
  rw [← ha, ← hl, ← hb, sideOrders, bestLevels_split x map px, flat_append, flat_append, flat_at?]

theorem storeLevel (h : SideInv x map) {px : ℕ} {list : LinkedList Oid O}
    (hl : ∀ n ∈ list.entries, Filed x px n) : SideInv x (storeLevel map px list) := by
  unfold OrderBookServer.storeLevel
  split_ifs with he
  · constructor
    · intro e hm
      exact h.nonempty e (BTreeMap.mem_entries_erase.mp hm).1
    · intro e hm
      exact h.filed e (BTreeMap.mem_entries_erase.mp hm).1
  · have hne : list.entries ≠ [] := by simpa [LinkedList.isEmpty] using he
    constructor
    · intro e hm
      obtain rfl | ⟨hm, _⟩ := BTreeMap.mem_entries_insert.mp hm
      · exact hne
      · exact h.nonempty e hm
    · intro e hm
      obtain rfl | ⟨hm, _⟩ := BTreeMap.mem_entries_insert.mp hm
      · exact hl
      · exact h.filed e hm

/-- The level map of a side is determined by its orders. -/
theorem ext {map' : Levels O} (h : SideInv x map) (h' : SideInv x map')
    (heq : sideOrders x map = sideOrders x map') : map = map' := by
  have hat (px : ℕ) : levelAt map px = levelAt map' px := by
    apply LinkedList.ext
    rw [entries_eq_map (h.filed_levelAt px), entries_eq_map (h'.filed_levelAt px),
      (h.sideOrders_split px).2.1, (h'.sideOrders_split px).2.1, heq]
  have hget {m : Levels O} (hm : SideInv x m) (px : ℕ) :
      m.get? px = if (levelAt m px).isEmpty then none else some (levelAt m px) := by
    unfold levelAt
    cases hg : m.get? px with
    | none => rfl
    | some list =>
      have hne := hm.nonempty (px, list) (BTreeMap.get?_eq_some.mp hg)
      have hf : list.isEmpty = false := by simpa [LinkedList.isEmpty] using hne
      simp [hf]
  apply BTreeMap.ext_get?
  intro px
  rw [hget h px, hget h' px, hat px]

end SideInv
end Filed
end OrderBookServer
