import OrderBookServer.HashMap
import OrderBookServer.BTreeMap
import OrderBookServer.LinkedList
import OrderBookServer.PriceTime
import Mathlib.Data.List.DropRight

/-!
# The order book

One coin's book: two ordered maps from prices to lists of orders, and an index
from oids to the side and price they rest at. An incoming order is first matched
against the other side, level by level from the best price, and what is left of
it then rests on its own side.
-/
namespace OrderBookServer
open InnerOrder

/-- The levels of one side of a book, by price. -/
abbrev Levels (O : Type) := BTreeMap ℕ (LinkedList Oid O)

structure OrderBook (O : Type) where
  oidToSidePx : HashMap Oid (Side × ℕ)
  bids : Levels O
  asks : Levels O

section Matching

variable {O : Type} [InnerOrder O]

/-- The loop over one level. Its body fills the head of the list, removes the
head once it has no size left, and ends the loop once the taker has none. Since
a fill exhausts one of the two orders, no head is filled twice. -/
def matchFront (t : O) : List (Oid × O) → O × List Oid × List (Oid × O)
  | [] => (t, [], [])
  | (k, m) :: rest =>
    if hm : sz (maker t m) = 0 then
      if sz (taker t m) = 0 then (taker t m, [oid (maker t m)], rest)
      else
        let tail := matchFront (taker t m) rest
        (tail.1, oid (maker t m) :: tail.2.1, tail.2.2)
    else if ht : sz (taker t m) = 0 then (taker t m, [], (k, maker t m) :: rest)
    else absurd (fill_exhausts t m) (not_or.mpr ⟨hm, ht⟩)

theorem matchFront_keys (t : O) (es : List (Oid × O)) :
    ((matchFront t es).2.2.map Prod.fst).Sublist (es.map Prod.fst) := by
  induction es generalizing t with
  | nil => exact List.Sublist.refl _
  | cons e rest ih =>
    simp only [matchFront]
    split_ifs with hm ht ht
    · exact List.sublist_cons_self _ _
    · exact (ih (taker t e.2)).cons _
    · exact List.Sublist.refl _
    · exact absurd (fill_exhausts t e.2) (not_or.mpr ⟨hm, ht⟩)

def matchLevel (t : O) (list : LinkedList Oid O) : O × List Oid × LinkedList Oid O :=
  let out := matchFront t list.entries
  (out.1, out.2.1, ⟨out.2.2, list.nodup.sublist (matchFront_keys t list.entries)⟩)

structure MatchState (O : Type) where
  taker : O
  filledOids : List Oid
  keysToRemove : List ℕ

/-- The loop over levels: a level that does not match ends it, an emptied level
is noted for removal, and so does a taker without size end it. -/
def matchBody (takerSide : Side) (limit : ℕ) (st : MatchState O) (px : ℕ)
    (list : LinkedList Oid O) : MatchState O × LinkedList Oid O × Bool :=
  if takerSide.Matches limit px then
    let out := matchLevel st.taker list
    let keys := if out.2.2.isEmpty then st.keysToRemove ++ [px] else st.keysToRemove
    (⟨out.1, st.filledOids ++ out.2.1, keys⟩, out.2.2, decide (sz out.1 ≠ 0))
  else (st, list, false)

/-- `match_order`: the taker left, the oids filled, and the maker side left. -/
def matchOrder (makerOrders : Levels O) (takerOrder : O) : O × List Oid × Levels O :=
  let body := matchBody (side takerOrder) (limitPx takerOrder)
  let out := match side takerOrder with
    | .ask => makerOrders.iterMutRev body ⟨takerOrder, [], []⟩
    | .bid => makerOrders.iterMut body ⟨takerOrder, [], []⟩
  (out.1.taker, out.1.filledOids, out.1.keysToRemove.foldl BTreeMap.erase out.2)

def addOrderToBook (map : Levels O) (order : O) (insertBefore : Option Oid) : Bool × Levels O :=
  let list := (map.get? (limitPx order)).getD .new
  match insertBefore with
  | none => (true, map.insert (limitPx order) (list.pushBack (oid order) order).2)
  | some before =>
    let out := list.insertBefore before (oid order) order
    (out.1, if out.2.isEmpty then map.erase (limitPx order) else map.insert (limitPx order) out.2)

end Matching

namespace OrderBook

variable {O : Type}

def new : OrderBook O := ⟨∅, .empty, .empty⟩

def levels (book : OrderBook O) : Side → Levels O
  | .ask => book.asks
  | .bid => book.bids

def setLevels (book : OrderBook O) (x : Side) (map : Levels O) : OrderBook O :=
  match x with
  | .ask => { book with asks := map }
  | .bid => { book with bids := map }

@[simp] theorem levels_setLevels (book : OrderBook O) (x : Side) (map : Levels O) :
    (book.setLevels x map).levels x = map := by cases x <;> rfl

@[simp] theorem levels_setLevels_opposite (book : OrderBook O) (x : Side) (map : Levels O) :
    (book.setLevels x map).levels x.opposite = book.levels x.opposite := by cases x <;> rfl

@[simp] theorem levels_opposite_setLevels (book : OrderBook O) (x : Side) (map : Levels O) :
    (book.setLevels x.opposite map).levels x = book.levels x := by cases x <;> rfl

@[simp] theorem oidToSidePx_setLevels (book : OrderBook O) (x : Side) (map : Levels O) :
    (book.setLevels x map).oidToSidePx = book.oidToSidePx := by cases x <;> rfl

@[simp] theorem levels_index (book : OrderBook O) (index : HashMap Oid (Side × ℕ)) (x : Side) :
    ({ book with oidToSidePx := index } : OrderBook O).levels x = book.levels x := by
  cases x <;> rfl

theorem setLevels_index (book : OrderBook O) (index : HashMap Oid (Side × ℕ)) (x : Side)
    (map : Levels O) : ({ book with oidToSidePx := index } : OrderBook O).setLevels x map =
      { book.setLevels x map with oidToSidePx := index } := by
  cases x <;> rfl

theorem ext_levels {b b' : OrderBook O} (hi : b.oidToSidePx = b'.oidToSidePx)
    (hl : ∀ x, b.levels x = b'.levels x) : b = b' := by
  cases b; cases b'
  have hb := hl .bid
  have ha := hl .ask
  simp only [levels] at hb ha
  simp_all

variable [InnerOrder O]

/-- Match the order, then rest what is left of it in front of `insertBefore`, or
at the back of its level. False when the anchor is not resting at that level. -/
def addOrderBefore (self : OrderBook O) (order : O) (insertBefore : Option Oid) :
    Bool × OrderBook O :=
  let out := matchOrder (self.levels (side order).opposite) order
  let book : OrderBook O := { self.setLevels (side order).opposite out.2.2 with
    oidToSidePx := out.2.1.foldl (fun index oid => index.erase oid) self.oidToSidePx }
  if 0 < sz out.1 then
    let added := addOrderToBook (book.levels (side order)) out.1 insertBefore
    let book := book.setLevels (side order) added.2
    if added.1 then
      (true, { book with
        oidToSidePx := book.oidToSidePx.insert (oid out.1) (side out.1, limitPx out.1) })
    else (false, book)
  else (true, book)

def addOrder (self : OrderBook O) (order : O) : OrderBook O := (self.addOrderBefore order none).2

def cancelOrder (self : OrderBook O) (oid : Oid) : Bool × OrderBook O :=
  match self.oidToSidePx.lookup oid with
  | some (side, px) =>
    let book : OrderBook O := { self with oidToSidePx := self.oidToSidePx.erase oid }
    match (book.levels side).get? px with
    | some list =>
      let out := list.removeNode oid
      let map := if out.2.isEmpty then (book.levels side).erase px
        else (book.levels side).insert px out.2
      (out.1, book.setLevels side map)
    | none => (false, book)
  | none => (false, self)

def modifySz (self : OrderBook O) (oid : Oid) (sz : ℕ) : Bool × OrderBook O :=
  match self.oidToSidePx.lookup oid with
  | some (side, px) =>
    match (self.levels side).get? px with
    | some list =>
      let out := list.updateNode oid fun o => InnerOrder.modifySz o sz
      (out.1, self.setLevels side ((self.levels side).insert px out.2))
    | none => (false, self)
  | none => (false, self)

/-- Both sides as lists, best price first, which is what aggregation expects. -/
def toSnapshot (self : OrderBook O) : Snapshot O where
  bids := self.bids.entries.reverse.flatMap fun e => e.2.toVec
  asks := self.asks.entries.flatMap fun e => e.2.toVec

end OrderBook

namespace Snapshot

variable {O : Type} [InnerOrder O]

/-- Pop orders off the back of a list while their oid is on both sides. -/
def popTriggers (bidOids askOids : Finset Oid) (orders : List O) : List O :=
  orders.rdropWhile fun o => oid o ∈ bidOids ∧ oid o ∈ askOids

def removeTriggers (s : Snapshot O) : Snapshot O :=
  let bidOids := (s.bids.map oid).toFinset
  let askOids := (s.asks.map oid).toFinset
  ⟨popTriggers bidOids askOids s.bids, popTriggers bidOids askOids s.asks⟩

end Snapshot

namespace OrderBook

variable {O : Type} [InnerOrder O]

def fromSnapshot (snapshot : Snapshot O) (ignoreTriggers : Bool) : OrderBook O :=
  let snapshot := if ignoreTriggers then snapshot.removeTriggers else snapshot
  snapshot.asks.foldl addOrder (snapshot.bids.foldl addOrder new)

end OrderBook
end OrderBookServer
