import OrderBookServer.BookState
import OrderBookServer.Results

/-!
# The snapshot of the node

The node writes its books as `[height, [[coin, [bids, asks]], ...]]`. A book that is
not in scope is skipped by the parser, and its orders are never read.
-/
namespace OrderBookServer

/-- The orders of one book as they are written, with their users. -/
structure RawBook where
  coin : String
  bids : List (Address × L4Order)
  asks : List (Address × L4Order)

namespace SerdeJson

variable (serde : SerdeJson) (scope : CoinScope)

def userOrder (value : Json) : Except String (Address × L4Order) := do
  let (user, order) ← pair value
  return (← serde.address user, ← serde.l4Order order)

def orders (value : Json) : Except String (List (Address × L4Order)) := do
  (← array value).mapM serde.userOrder

/-- `[coin, [bids, asks]]` -/
def bookSeed (value : Json) : Except String (Option RawBook) := do
  let (coin, sides) ← pair value
  let coin ← string coin
  if scope.contains coin then
    let (bids, asks) ← pair sides
    return some ⟨coin, ← serde.orders bids, ← serde.orders asks⟩
  else return none

/-- A list of books, those out of scope left out. -/
def booksSeed (value : Json) : Except String (List RawBook) := do
  let books ← (← array value).mapM (serde.bookSeed scope)
  return books.reduceOption

/-- `[height, books]` -/
def snapshotSeed (value : Json) : Except String (ℕ × List RawBook) := do
  let (height, books) ← pair value
  return (← serde.word height, ← serde.booksSeed scope books)

end SerdeJson

def innerOrders (orders : List (Address × L4Order)) : Except String (List InnerL4Order) :=
  orders.mapM fun e => InnerL4Order.tryFrom e.1 e.2

def RawBook.entry (self : RawBook) : Except String (Coin × Snapshot InnerL4Order) := do
  return (⟨self.coin⟩, ⟨← innerOrders self.bids, ← innerOrders self.asks⟩)

def loadSnapshotsFromStr (serde : SerdeJson) (str : String) (scope : CoinScope) :
    Except String (ℕ × Snapshots InnerL4Order) := do
  let (height, books) ← serde.snapshotSeed scope (← serde.tokenise str)
  return (height, HashMap.collect (← books.mapM RawBook.entry))

/-- The entries of the coins in scope. -/
def CoinScope.restrict {V : Type} (scope : CoinScope) (m : HashMap Coin V) : HashMap Coin V :=
  HashMap.restrict (fun coin => scope.contains coin.value) m

/-- A book that is read in full is read, or skipped, in scope. -/
theorem SerdeJson.bookSeed_of_all {serde : SerdeJson} {full : CoinScope} (scope : CoinScope)
    (hfull : full.isAll = true) {value : Json} {out : Option RawBook}
    (h : serde.bookSeed full value = .ok out) : ∃ book, out = some book ∧
      serde.bookSeed scope value = .ok (if scope.contains book.coin then some book else none) := by
  unfold bookSeed at h ⊢
  obtain ⟨⟨coin, sides⟩, hpair, h⟩ := bind_eq_ok.mp h
  obtain ⟨name, hname, h⟩ := bind_eq_ok.mp h
  rw [if_pos (CoinScope.contains_of_isAll hfull name)] at h
  obtain ⟨⟨bids, asks⟩, hsides, h⟩ := bind_eq_ok.mp h
  obtain ⟨bids', hbids, h⟩ := bind_eq_ok.mp h
  obtain ⟨asks', hasks, h⟩ := bind_eq_ok.mp h
  cases h
  refine ⟨_, rfl, ?_⟩
  by_cases hc : scope.contains name = true
  · simp [hpair, hname, hc, hsides, hbids, hasks, bind, Except.bind, pure, Except.pure]
  · simp [hpair, hname, hc, bind, Except.bind, pure, Except.pure]

/-- So it is for a list of books. -/
theorem SerdeJson.mapM_bookSeed_of_all {serde : SerdeJson} {full : CoinScope} (scope : CoinScope)
    (hfull : full.isAll = true) {elems : List Json} {outs : List (Option RawBook)}
    (h : elems.mapM (serde.bookSeed full) = .ok outs) :
    ∃ outs', elems.mapM (serde.bookSeed scope) = .ok outs' ∧
      outs'.reduceOption = outs.reduceOption.filter fun book => scope.contains book.coin := by
  rw [mapM_eq_ok] at h
  induction h with
  | nil => exact ⟨[], rfl, rfl⟩
  | @cons elem out elems outs hout _ ih =>
    obtain ⟨book, rfl, hbook⟩ := bookSeed_of_all scope hfull hout
    obtain ⟨outs', houts', hfilter⟩ := ih
    refine ⟨_ :: outs', mapM_eq_ok.mpr (.cons hbook (mapM_eq_ok.mp houts')), ?_⟩
    rw [List.reduceOption_cons_of_some, List.filter_cons]
    split
    · rw [List.reduceOption_cons_of_some, hfilter]
    · rw [List.reduceOption_cons_of_none, hfilter]

theorem SerdeJson.booksSeed_of_all {serde : SerdeJson} {full : CoinScope} (scope : CoinScope)
    (hfull : full.isAll = true) {value : Json} {books : List RawBook}
    (h : serde.booksSeed full value = .ok books) :
    serde.booksSeed scope value = .ok (books.filter fun book => scope.contains book.coin) := by
  unfold booksSeed at h ⊢
  obtain ⟨elems, helems, h⟩ := bind_eq_ok.mp h
  obtain ⟨outs, houts, h⟩ := bind_eq_ok.mp h
  cases h
  obtain ⟨outs', houts', hfilter⟩ := mapM_bookSeed_of_all scope hfull houts
  simp only [helems, bind, Except.bind, houts', pure, Except.pure, hfilter]

/-- Restricting to some keys commutes with collecting. -/
theorem HashMap.restrict_collect {K V : Type} [DecidableEq K] (p : K → Bool) (l : List (K × V)) :
    (HashMap.collect l).restrict p = HashMap.collect (l.filter fun e => p e.1) := by
  apply Finmap.ext_lookup
  intro k
  rw [HashMap.lookup_restrict, HashMap.lookup_collect, HashMap.lookup_collect, ← List.filter_reverse,
    List.find?_filter]
  split_ifs with hp
  · congr 1
    congr 1
    funext e
    by_cases he : e.1 = k
    · simp [he, hp]
    · simp [he]
  · rw [eq_comm, Option.map_eq_none_iff, List.find?_eq_none]
    intro e _ he
    simp only [decide_eq_true_eq] at he
    exact hp (he.2 ▸ he.1)

/-- The snapshot read in scope is that read in full, restricted to the coins in scope. -/
theorem loadSnapshotsFromStr_of_all {serde : SerdeJson} {full : CoinScope} (scope : CoinScope)
    (hfull : full.isAll = true) {str : String} {height : ℕ} {snapshot : Snapshots InnerL4Order}
    (h : loadSnapshotsFromStr serde str full = .ok (height, snapshot)) :
    loadSnapshotsFromStr serde str scope = .ok (height, scope.restrict snapshot) := by
  unfold loadSnapshotsFromStr at h ⊢
  obtain ⟨value, hvalue, h⟩ := bind_eq_ok.mp h
  obtain ⟨⟨height', books⟩, hseed, h⟩ := bind_eq_ok.mp h
  obtain ⟨entries, hentries, h⟩ := bind_eq_ok.mp h
  cases h
  unfold SerdeJson.snapshotSeed at hseed ⊢
  obtain ⟨⟨rawHeight, rawBooks⟩, hpair, hseed⟩ := bind_eq_ok.mp hseed
  obtain ⟨height'', hheight, hseed⟩ := bind_eq_ok.mp hseed
  obtain ⟨books', hbooks, hseed⟩ := bind_eq_ok.mp hseed
  cases hseed
  have hcoins : ∀ (book : RawBook) (e : Coin × Snapshot InnerL4Order), book.entry = .ok e →
      scope.contains book.coin = scope.contains e.1.value := by
    intro book e he
    unfold RawBook.entry at he
    obtain ⟨_, -, he⟩ := bind_eq_ok.mp he
    obtain ⟨_, -, he⟩ := bind_eq_ok.mp he
    cases he
    rfl
  simp only [hvalue, bind, Except.bind, hpair, hheight, SerdeJson.booksSeed_of_all scope hfull hbooks,
    mapM_filter hentries hcoins, pure, Except.pure, CoinScope.restrict, HashMap.restrict_collect]

end OrderBookServer
