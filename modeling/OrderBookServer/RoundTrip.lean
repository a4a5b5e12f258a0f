import OrderBookServer.BookRuns

/-!
# Snapshots of books read back

A book writes its two sides as lists and is read back by adding their orders one after
the other, which matches them. Orders of an uncrossed book that come in priority order
meet no maker and rest at the back, so the book that is read is the one that was
written. Trigger orders that trail on both sides are taken off first.
-/
namespace OrderBookServer
open InnerOrder PriceTime

variable {O : Type} [InnerOrder O]

/-! ### Trigger orders -/

namespace Snapshot

theorem popTriggers_append {bidOids askOids : Finset Oid} {os triggers : List O}
    (hkept : ∀ o ∈ os, ¬ (oid o ∈ bidOids ∧ oid o ∈ askOids))
    (htriggers : ∀ o ∈ triggers, oid o ∈ bidOids ∧ oid o ∈ askOids) :
    popTriggers bidOids askOids (os ++ triggers) = os := by
  induction triggers using List.reverseRecOn with
  | nil =>
    rw [List.append_nil, popTriggers, List.rdropWhile_eq_self_iff]
    intro hne
    simpa using hkept _ (List.getLast_mem hne)
  | append_singleton triggers o ih =>
    have hlast := htriggers o (by simp)
    rw [← List.append_assoc, popTriggers, List.rdropWhile_concat_pos _ _ _ (by simpa using hlast)]
    exact ih fun o' ho' => htriggers o' (List.mem_append_left _ ho')

/-- Orders behind both sides under the same oids are triggers, and all that is taken off. -/
theorem removeTriggers_append {s : Snapshot O} {triggers : Snapshot O}
    (hs : ((s.bids ++ s.asks).map oid).Nodup)
    (hsame : ∀ k, k ∈ triggers.bids.map oid ↔ k ∈ triggers.asks.map oid)
    (hfresh : ∀ k ∈ triggers.bids.map oid, k ∉ (s.bids ++ s.asks).map oid) :
    removeTriggers ⟨s.bids ++ triggers.bids, s.asks ++ triggers.asks⟩ = s := by
  rw [List.map_append, List.nodup_append] at hs
  simp only [List.map_append, List.mem_append, not_or] at hfresh
  have hbids : ∀ o ∈ s.bids, oid o ∉ (s.asks ++ triggers.asks).map oid := by
    intro o ho hmem
    have hmine : oid o ∈ s.bids.map oid := List.mem_map_of_mem ho
    rw [List.map_append, List.mem_append, ← hsame] at hmem
    obtain hmem | hmem := hmem
    · exact hs.2.2 _ hmine _ hmem rfl
    · exact (hfresh _ hmem).1 hmine
  have hasks : ∀ o ∈ s.asks, oid o ∉ (s.bids ++ triggers.bids).map oid := by
    intro o ho hmem
    have hmine : oid o ∈ s.asks.map oid := List.mem_map_of_mem ho
    rw [List.map_append, List.mem_append] at hmem
    obtain hmem | hmem := hmem
    · exact hs.2.2 _ hmem _ hmine rfl
    · exact (hfresh _ hmem).2 hmine
  have hboth : ∀ k, k ∈ triggers.bids.map oid ∨ k ∈ triggers.asks.map oid →
      k ∈ (s.bids ++ triggers.bids).map oid ∧ k ∈ (s.asks ++ triggers.asks).map oid := by
    intro k hk
    rw [← hsame, or_self] at hk
    rw [List.map_append, List.map_append, List.mem_append, List.mem_append]
    exact ⟨.inr hk, .inr ((hsame k).mp hk)⟩
  refine Snapshot.ext_orders fun x => ?_
  cases x with
  | bid =>
    refine popTriggers_append (fun o ho h => hbids o ho (List.mem_toFinset.mp h.2)) fun o ho => ?_
    obtain ⟨hb, ha⟩ := hboth (oid o) (.inl (List.mem_map_of_mem ho))
    exact ⟨List.mem_toFinset.mpr hb, List.mem_toFinset.mpr ha⟩
  | ask =>
    refine popTriggers_append (fun o ho h => hasks o ho (List.mem_toFinset.mp h.1)) fun o ho => ?_
    obtain ⟨hb, ha⟩ := hboth (oid o) (.inr (List.mem_map_of_mem ho))
    exact ⟨List.mem_toFinset.mpr hb, List.mem_toFinset.mpr ha⟩

end Snapshot

/-! ### Reading orders back -/

namespace OrderBook

/-- An order that meets no maker and is no better than the orders of its side rests
behind them all. -/
theorem addOrder_append {b : OrderBook O} (h : BookInv b) {o : O} (hpos : 0 < sz o)
    (hlast : ∀ m ∈ b.orders (side o), ¬ (side o).Before (limitPx o) (limitPx m))
    (hfresh : oid o ∉ (b.orders (side o)).map oid)
    (hmeets : ∀ m ∈ b.orders (side o).opposite, ¬ (side o).Matches (limitPx o) (limitPx m)) :
    BookInv (b.addOrder o) ∧ (b.addOrder o).orders (side o) = b.orders (side o) ++ [o] ∧
      (b.addOrder o).orders (side o).opposite = b.orders (side o).opposite := by
  obtain ⟨hopp, hown⟩ := orders_addOrderBefore h o none
  have hsplit := (h (side o)).split (limitPx o)
  rw [← orders_eq] at hsplit
  have hnot : oid o ∉ (atPrice (limitPx o) (b.orders (side o))).map oid :=
    fun hmem => hfresh (List.map_subset oid (List.filter_subset_self _) hmem)
  simp only [fillMakers_of_no_match hmeets, rest, if_pos hpos, if_neg hnot] at hopp hown
  exact ⟨(addOrderBefore_spec h o none).2, hown.trans (restBack_eq_append o _ hlast hsplit), hopp⟩

theorem addOrders_append {b : OrderBook O} (h : BookInv b) {x : Side} {os : List O}
    (hside : ∀ o ∈ os, side o = x) (hpos : ∀ o ∈ os, 0 < sz o)
    (hsorted : Sorted x (b.orders x ++ os)) (hoids : ((b.orders x ++ os).map oid).Nodup)
    (hmeets : ∀ o ∈ os, ∀ m ∈ b.orders x.opposite, ¬ x.Matches (limitPx o) (limitPx m)) :
    BookInv (os.foldl addOrder b) ∧ (os.foldl addOrder b).orders x = b.orders x ++ os ∧
      (os.foldl addOrder b).orders x.opposite = b.orders x.opposite := by
  induction os generalizing b with
  | nil => exact ⟨h, (List.append_nil _).symm, rfl⟩
  | cons o os ih =>
    obtain rfl := hside o List.mem_cons_self
    rw [List.foldl_cons]
    have hlast : ∀ m ∈ b.orders (side o), ¬ (side o).Before (limitPx o) (limitPx m) :=
      fun m hm => (List.pairwise_append.mp hsorted).2.2 m hm o List.mem_cons_self
    have hfresh : oid o ∉ (b.orders (side o)).map oid := by
      rw [List.map_append, List.nodup_append] at hoids
      exact fun hmem => hoids.2.2 _ hmem _ (List.mem_map_of_mem List.mem_cons_self) rfl
    obtain ⟨hinv, hown, hopp⟩ := addOrder_append h (hpos o List.mem_cons_self) hlast hfresh
      (hmeets o List.mem_cons_self)
    have hlist : (b.addOrder o).orders (side o) ++ os = b.orders (side o) ++ o :: os := by
      rw [hown, List.append_assoc, List.singleton_append]
    have hh := ih hinv (fun o' ho' => hside o' (List.mem_cons_of_mem o ho'))
      (fun o' ho' => hpos o' (List.mem_cons_of_mem o ho')) (hlist ▸ hsorted) (hlist ▸ hoids)
      (fun o' ho' m hm => hmeets o' (List.mem_cons_of_mem o ho') m (hopp ▸ hm))
    rwa [hlist, hopp] at hh

/-- The two sides of a book that is at rest: each order on its own side and in priority
order, none without size, none crossing, and no oid twice. -/
structure AtRest (s : Snapshot O) : Prop where
  side_eq : ∀ x, ∀ o ∈ s.orders x, side o = x
  sorted : ∀ x, Sorted x (s.orders x)
  uncrossed : Uncrossed s
  pos : ∀ x, ∀ o ∈ s.orders x, 0 < sz o
  oids : ((s.bids ++ s.asks).map oid).Nodup

theorem AtRest.oids_orders {s : Snapshot O} (h : AtRest s) (x : Side) :
    ((s.orders x).map oid).Nodup := by
  have hh := h.oids
  rw [List.map_append, List.nodup_append] at hh
  cases x with
  | bid => exact hh.1
  | ask => exact hh.2.1

/-- The sides of a book at rest are read back as they were written. -/
theorem fromSnapshot_of_atRest {s : Snapshot O} (h : AtRest s) :
    BookInv (fromSnapshot s false) ∧ (fromSnapshot s false).toSnapshot = s := by
  have hempty (x : Side) : (new : OrderBook O).orders x = [] := by cases x <;> rfl
  obtain ⟨hinv, hbids, hasks⟩ := addOrders_append (x := .bid) BookInv.new (h.side_eq .bid)
    (h.pos .bid) (by simpa [hempty] using h.sorted .bid)
    (by simpa [hempty] using h.oids_orders .bid) (by simp [hempty])
  rw [hempty, List.nil_append] at hbids
  have hnone : (s.bids.foldl addOrder new).orders .ask = [] := hasks.trans (hempty .ask)
  obtain ⟨hinv', hasks', hbids'⟩ := addOrders_append (x := .ask) hinv (h.side_eq .ask)
    (h.pos .ask) (by simpa [Snapshot.orders, hnone] using h.sorted .ask)
    (by simpa [Snapshot.orders, hnone] using h.oids_orders .ask) (fun o ho m hm =>
      (uncrossed_iff .ask).mp h.uncrossed o ho m (hbids ▸ hm))
  refine ⟨hinv', Snapshot.ext_orders fun x => ?_⟩
  cases x with
  | bid => exact hbids'.trans hbids
  | ask =>
    have hown := hasks'.trans (congrArg (· ++ s.asks) hnone)
    rwa [List.nil_append] at hown

theorem Sound.atRest {b : OrderBook O} (h : Sound b) (hpos : ∀ x, ∀ o ∈ b.orders x, 0 < sz o)
    (hoids : ((b.toSnapshot.bids ++ b.toSnapshot.asks).map oid).Nodup) : AtRest b.toSnapshot where
  side_eq x _ ho := (h.filed x).side_eq (orders_eq b x ▸ ho)
  sorted := h.sorted
  uncrossed := h.uncrossed
  pos := hpos
  oids := hoids

/-- A book of sized orders under distinct oids is read back from its snapshot as it was,
with or without triggers behind the orders of both sides. -/
theorem snapshot_round_trip {b : OrderBook O} (hb : Built b)
    (hpos : ∀ x, ∀ o ∈ b.orders x, 0 < sz o)
    (hoids : ((b.toSnapshot.bids ++ b.toSnapshot.asks).map oid).Nodup) :
    (∀ triggers : Snapshot O, (∀ k, k ∈ triggers.bids.map oid ↔ k ∈ triggers.asks.map oid) →
      (∀ k ∈ triggers.bids.map oid, k ∉ (b.toSnapshot.bids ++ b.toSnapshot.asks).map oid) →
      (fromSnapshot ⟨b.toSnapshot.bids ++ triggers.bids, b.toSnapshot.asks ++ triggers.asks⟩
        true).toSnapshot = b.toSnapshot) ∧
      (fromSnapshot b.toSnapshot false).toSnapshot = b.toSnapshot := by
  have hread := (fromSnapshot_of_atRest (hb.sound.atRest hpos hoids)).2
  refine ⟨fun triggers hsame hfresh => ?_, hread⟩
  have htake : ∀ s : Snapshot O, fromSnapshot s true = fromSnapshot s.removeTriggers false :=
    fun _ => rfl
  rw [htake, Snapshot.removeTriggers_append hoids hsame hfresh, hread]

theorem snapshot_round_trip_one_trigger :
    let b := [MinimalOrder.new 1 30 5 .bid, MinimalOrder.new 2 50 5 .bid,
      MinimalOrder.new 3 20 7 .ask].foldl addOrder new
    (fromSnapshot ⟨b.toSnapshot.bids ++ [MinimalOrder.new 9 1 8 .bid],
      b.toSnapshot.asks ++ [MinimalOrder.new 9 1 8 .bid]⟩ true).toSnapshot = b.toSnapshot ∧
      b.toSnapshot.bids = [MinimalOrder.new 1 30 5 .bid, MinimalOrder.new 2 50 5 .bid] := by
  intro b
  have hb : Built b := .addOrderBefore (.addOrderBefore (.addOrderBefore .new _ none) _ none) _ none
  have hpos : ∀ x, ∀ o ∈ b.orders x, 0 < sz o := by
    intro x
    cases x <;> decide
  refine ⟨(snapshot_round_trip hb hpos (by decide)).1
    ⟨[MinimalOrder.new 9 1 8 .bid], [MinimalOrder.new 9 1 8 .bid]⟩ (fun _ => Iff.rfl) (by decide),
    by decide⟩

end OrderBook
end OrderBookServer
