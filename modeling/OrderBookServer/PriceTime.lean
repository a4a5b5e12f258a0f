import OrderBookServer.Orders

/-!
# Price-time priority

The abstract side of a book is one list of orders, best price first and oldest
first within a price. A taker consumes such a list from the front while prices
cross. An order comes to rest behind every order at least as well priced, or in
front of a named order of its own price. Nothing here mentions levels, maps or
the oid index: `OrderBook` is shown to refine these list operations.
-/
namespace OrderBookServer
open InnerOrder

/-- Price `p` has strictly better priority than price `q` on this side. -/
def Side.Before (x : Side) (p q : ℕ) : Prop :=
  match x with
  | .bid => q < p
  | .ask => p < q

instance (x : Side) (p q : ℕ) : Decidable (x.Before p q) := by
  cases x <;> exact Nat.decLt _ _

/-- A taker on side `x` limited to `limit` trades against the price `px`. -/
def Side.Matches (x : Side) (limit px : ℕ) : Prop :=
  match x with
  | .ask => limit ≤ px
  | .bid => px ≤ limit

instance (x : Side) (limit px : ℕ) : Decidable (x.Matches limit px) := by
  cases x <;> exact Nat.decLe _ _

namespace Side

theorem before_irrefl (x : Side) (p : ℕ) : ¬ x.Before p p := by
  cases x <;> simp [Before]

theorem Before.trans {x : Side} {p q r : ℕ} (h : x.Before p q) (h' : x.Before q r) :
    x.Before p r := by
  cases x <;> simp only [Before] at * <;> omega

theorem Before.asymm {x : Side} {p q : ℕ} (h : x.Before p q) : ¬ x.Before q p := by
  cases x <;> simp only [Before] at * <;> omega

end Side

namespace PriceTime

variable {O : Type} [InnerOrder O]

/-- What an order keeps through any fill or resize. -/
def ident (o : O) : Oid × Side × ℕ := (oid o, side o, limitPx o)

@[simp] theorem ident_maker (t m : O) : ident (maker t m) = ident m := by simp [ident]

/-- The makers of a side in priority order, consumed by a taker: the taker left,
the makers filled, in order, and the list that stays. -/
def fillMakers (t : O) : List O → O × List O × List O
  | [] => (t, [], [])
  | m :: ms =>
    if (side t).Matches (limitPx t) (limitPx m) then
      if sz (maker t m) = 0 then
        if sz (taker t m) = 0 then (taker t m, [maker t m], ms)
        else
          let tail := fillMakers (taker t m) ms
          (tail.1, maker t m :: tail.2.1, tail.2.2)
      else (taker t m, [], maker t m :: ms)
    else (t, [], m :: ms)

/-- Consuming makers keeps every maker's identity and splits them in order into
the filled ones and those that stay. -/
theorem fillMakers_ident (t : O) (ms : List O) :
    (fillMakers t ms).2.1.map ident ++ (fillMakers t ms).2.2.map ident = ms.map ident := by
  induction ms generalizing t with
  | nil => rfl
  | cons m ms ih =>
    simp only [fillMakers]
    split_ifs with hc hm ht
    · simp
    · simp [ih]
    · simp
    · simp

@[simp] theorem fillMakers_taker_ident (t : O) (ms : List O) :
    ident (fillMakers t ms).1 = ident t := by
  induction ms generalizing t with
  | nil => rfl
  | cons m ms ih =>
    simp only [fillMakers]
    split_ifs
    · simp [ident]
    · rw [ih]; simp [ident]
    · simp [ident]
    · rfl

theorem fillMakers_taker_oid (t : O) (ms : List O) : oid (fillMakers t ms).1 = oid t :=
  congrArg (·.1) (fillMakers_taker_ident t ms)

theorem fillMakers_taker_side (t : O) (ms : List O) : side (fillMakers t ms).1 = side t :=
  congrArg (·.2.1) (fillMakers_taker_ident t ms)

theorem fillMakers_taker_limitPx (t : O) (ms : List O) :
    limitPx (fillMakers t ms).1 = limitPx t :=
  congrArg (·.2.2) (fillMakers_taker_ident t ms)

/-- A list in price-time priority on side `x`. -/
def Sorted (x : Side) (os : List O) : Prop :=
  os.Pairwise fun a b => ¬ x.Before (limitPx b) (limitPx a)

/-- The orders of a side that rank before the price `p`. -/
def better (x : Side) (p : ℕ) (os : List O) : List O := os.filter fun m => x.Before (limitPx m) p

/-- The orders resting at the price `p`. -/
def atPrice (p : ℕ) (os : List O) : List O := os.filter fun m => limitPx m = p

/-- The orders of a side that rank behind the price `p`. -/
def worse (x : Side) (p : ℕ) (os : List O) : List O := os.filter fun m => x.Before p (limitPx m)

/-- Rest `o` at the back of its price. -/
def restBack (o : O) (os : List O) : List O :=
  better (side o) (limitPx o) os ++ (atPrice (limitPx o) os ++ o :: worse (side o) (limitPx o) os)

/-- Rest `o` directly in front of the order `before` of its own price. -/
def restBefore (before : Oid) (o : O) (os : List O) : List O :=
  better (side o) (limitPx o) os ++
    ((atPrice (limitPx o) os).takeWhile (fun m => oid m ≠ before) ++
      o :: ((atPrice (limitPx o) os).dropWhile (fun m => oid m ≠ before) ++
        worse (side o) (limitPx o) os))

/-- Rest an order, or say that it cannot rest. Without an anchor an order whose
oid already rests at its price is dropped; with one, it is refused, and so is an
order whose anchor does not rest at its price. -/
def rest (anchor : Option Oid) (o : O) (os : List O) : Bool × List O :=
  match anchor with
  | none =>
    (true, if oid o ∈ (atPrice (limitPx o) os).map oid then os else restBack o os)
  | some before =>
    if oid o ∈ (atPrice (limitPx o) os).map oid ∨ before ∉ (atPrice (limitPx o) os).map oid then
      (false, os)
    else (true, restBefore before o os)

theorem restBack_perm_cons {x : Side} {os : List O} (o : O) (hx : side o = x)
    (hs : os = better x (limitPx o) os ++ (atPrice (limitPx o) os ++ worse x (limitPx o) os)) :
    (restBack o os).Perm (o :: os) := by
  subst hx
  conv_rhs => rw [hs]
  unfold restBack
  rw [← List.append_assoc, ← List.append_assoc]
  exact List.perm_middle

theorem restBefore_perm_cons {x : Side} {os : List O} (before : Oid) (o : O) (hx : side o = x)
    (hs : os = better x (limitPx o) os ++ (atPrice (limitPx o) os ++ worse x (limitPx o) os)) :
    (restBefore before o os).Perm (o :: os) := by
  subst hx
  conv_rhs => rw [hs, ← List.takeWhile_append_dropWhile
    (p := fun m => decide (oid m ≠ before)) (l := atPrice (limitPx o) os)]
  unfold restBefore
  rw [List.append_assoc, ← List.append_assoc, ← List.append_assoc]
  exact List.perm_middle

/-- An order no better than any order of the side rests at the very back. -/
theorem restBack_eq_append (o : O) (os : List O)
    (h : ∀ m ∈ os, ¬ (side o).Before (limitPx o) (limitPx m))
    (hs : os = better (side o) (limitPx o) os ++
      (atPrice (limitPx o) os ++ worse (side o) (limitPx o) os)) :
    restBack o os = os ++ [o] := by
  have hw : worse (side o) (limitPx o) os = [] := by
    rw [worse, List.filter_eq_nil_iff]
    intro m hm
    simpa using h m hm
  rw [hw, List.append_nil] at hs
  conv_rhs => rw [hs]
  rw [restBack, hw, List.append_assoc]

/-- Drop the order `k` resting at the price `p`. -/
def remove (p : ℕ) (k : Oid) (os : List O) : List O :=
  os.filter fun o => ¬ (limitPx o = p ∧ oid o = k)

/-- Resize the order `k` resting at the price `p`. -/
def resize (p : ℕ) (k : Oid) (s : ℕ) (os : List O) : List O :=
  os.map fun o => if limitPx o = p ∧ oid o = k then modifySz o s else o

theorem limitPx_ne_of_mem_better {x : Side} {p : ℕ} {os : List O} {o : O}
    (h : o ∈ better x p os) : limitPx o ≠ p := by
  intro he
  have hb : x.Before (limitPx o) p := by simpa using (List.mem_filter.mp h).2
  exact x.before_irrefl p (he ▸ hb)

theorem limitPx_ne_of_mem_worse {x : Side} {p : ℕ} {os : List O} {o : O}
    (h : o ∈ worse x p os) : limitPx o ≠ p := by
  intro he
  have hb : x.Before p (limitPx o) := by simpa using (List.mem_filter.mp h).2
  exact x.before_irrefl p (he ▸ hb)

theorem limitPx_eq_of_mem_atPrice {p : ℕ} {os : List O} {o : O} (h : o ∈ atPrice p os) :
    limitPx o = p := by simpa using (List.mem_filter.mp h).2

theorem remove_eq_self {p : ℕ} {k : Oid} {os : List O} (h : ∀ o ∈ os, ¬ (limitPx o = p ∧ oid o = k)) :
    remove p k os = os := by
  rw [remove, List.filter_eq_self]
  intro o ho
  simpa only [decide_eq_true_eq] using h o ho

theorem resize_eq_self {p : ℕ} {k : Oid} {s : ℕ} {os : List O}
    (h : ∀ o ∈ os, ¬ (limitPx o = p ∧ oid o = k)) : resize p k s os = os := by
  rw [resize]
  conv_rhs => rw [← List.map_id os]
  apply List.map_congr_left
  intro o ho
  rw [if_neg (h o ho), id]

/-- Removing at a price touches the orders of that price only. -/
theorem remove_split {x : Side} {p : ℕ} {os : List O} (k : Oid)
    (hs : os = better x p os ++ (atPrice p os ++ worse x p os)) :
    remove p k os =
      better x p os ++ ((atPrice p os).filter (fun o => oid o ≠ k) ++ worse x p os) := by
  have hmid : remove p k (atPrice p os) = (atPrice p os).filter (fun o => oid o ≠ k) := by
    apply List.filter_congr
    intro o ho
    simp [limitPx_eq_of_mem_atPrice ho]
  have hb : remove p k (better x p os) = better x p os :=
    remove_eq_self fun o ho hp => limitPx_ne_of_mem_better ho hp.1
  have hw : remove p k (worse x p os) = worse x p os :=
    remove_eq_self fun o ho hp => limitPx_ne_of_mem_worse ho hp.1
  conv_lhs => rw [hs]
  rw [← hmid]
  conv_rhs => rw [← hb, ← hw]
  simp only [remove, List.filter_append]

/-- Resizing at a price touches the orders of that price only. -/
theorem resize_split {x : Side} {p : ℕ} {os : List O} (k : Oid) (s : ℕ)
    (hs : os = better x p os ++ (atPrice p os ++ worse x p os)) :
    resize p k s os = better x p os ++
      ((atPrice p os).map (fun o => if oid o = k then modifySz o s else o) ++ worse x p os) := by
  have hmid : resize p k s (atPrice p os) =
      (atPrice p os).map (fun o => if oid o = k then modifySz o s else o) := by
    apply List.map_congr_left
    intro o ho
    simp [limitPx_eq_of_mem_atPrice ho]
  have hb : resize p k s (better x p os) = better x p os :=
    resize_eq_self fun o ho hp => limitPx_ne_of_mem_better ho hp.1
  have hw : resize p k s (worse x p os) = worse x p os :=
    resize_eq_self fun o ho hp => limitPx_ne_of_mem_worse ho hp.1
  conv_lhs => rw [hs]
  rw [← hmid]
  conv_rhs => rw [← hb, ← hw]
  simp only [resize, List.map_append]

/-- A book as its two price-time lists takes an order: the other side fills it,
and what is left of it rests on its own side. -/
def place (anchor : Option Oid) (o : O) (s : Snapshot O) : Bool × Snapshot O :=
  let filled := fillMakers o (s.orders (side o).opposite)
  let s := s.setOrders (side o).opposite filled.2.2
  if 0 < sz filled.1 then
    let rested := rest anchor filled.1 (s.orders (side o))
    (rested.1, s.setOrders (side o) rested.2)
  else (true, s)

theorem place_orders (anchor : Option Oid) (o : O) (s : Snapshot O) :
    let filled := fillMakers o (s.orders (side o).opposite)
    (place anchor o s).2.orders (side o).opposite = filled.2.2 ∧
    (place anchor o s).2.orders (side o) =
      if 0 < sz filled.1 then (rest anchor filled.1 (s.orders (side o))).2
      else s.orders (side o) := by
  by_cases hz : 0 < sz (fillMakers o (s.orders (side o).opposite)).1
  · simp [place, hz]
  · simp [place, hz]

end PriceTime
end OrderBookServer
