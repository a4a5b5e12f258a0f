import OrderBookServer.BookSides

/-!
# Aggregated views

The L2 views of a book: its levels, with the orders of each level summed up, cut
into buckets of a number of significant figures. One pass over the levels builds
a view, either from the book itself or from a view built before. For each coin
seven views are kept, and each but the first is built from an earlier one.
-/
namespace OrderBookServer
open InnerOrder

/-- The price that names the bucket of `px`. -/
def bucket (px : ℕ) (side : Side) (nSigFigs mantissa : Option ℕ) : ℕ :=
  let m := mantissa.getD 1
  match nSigFigs with
  | none => px
  | some n =>
    let digs := Px.numDigits px
    let p := digs - n
    let inc := U64.wrappingMul m (U64.wrappingPow 10 p)
    match side with
    | .ask => U64.wrappingMul (U64.divCeil px inc) inc
    | .bid => px / inc * inc

/-- The level being summed up, and the levels done before it. -/
abbrev LevelState := Option InnerLevel × List InnerLevel

def newBucket (side : Side) (cur : Option InnerLevel) (level : InnerLevel) : Bool :=
  match cur with
  | none => true
  | some c => match side with
    | .ask => c.px < level.px
    | .bid => level.px < c.px

/-- One level more; true when the view already has `nLevels` levels. -/
def buildL2Level (nLevels nSigFigs mantissa : Option ℕ) (side : Side) (st : LevelState)
    (level : InnerLevel) : Bool × LevelState :=
  if newBucket side st.1 level then
    let levels := st.2 ++ st.1.toList
    if nLevels = some levels.length then (true, none, levels)
    else (false, some ⟨bucket level.px side nSigFigs mantissa, level.sz, level.n⟩, levels)
  else
    (false, st.1.map fun c => { c with sz := Sz.add level.sz c.sz, n := c.n + level.n }, st.2)

/-- The loop over levels, which ends when `buildL2Level` says so. -/
def buildL2Levels (nLevels nSigFigs mantissa : Option ℕ) (side : Side) :
    LevelState → List InnerLevel → LevelState
  | st, [] => st
  | st, level :: rest =>
    let out := buildL2Level nLevels nSigFigs mantissa side st level
    if out.1 then out.2 else buildL2Levels nLevels nSigFigs mantissa side out.2 rest

def l2LevelsToL2Levels (levels : List InnerLevel) (side : Side)
    (nLevels nSigFigs mantissa : Option ℕ) : List InnerLevel :=
  if nLevels = some 0 then []
  else
    let out := buildL2Levels nLevels nSigFigs mantissa side (none, []) levels
    out.2 ++ out.1.toList

section

variable {O : Type} [InnerOrder O]

/-- One price level of a book, with its orders summed up. -/
def levelOf (e : ℕ × LinkedList Oid O) : InnerLevel where
  px := e.1
  sz := e.2.fold 0 fun total order => Sz.add total (sz order)
  n := e.2.fold 0 fun n _ => n + 1

def mapToL2Levels (orders : Levels O) (side : Side) (nLevels nSigFigs mantissa : Option ℕ) :
    List InnerLevel :=
  if nLevels = some 0 then []
  else
    let orderIter := match side with
      | .ask => orders.entries
      | .bid => orders.entries.reverse
    let out := buildL2Levels nLevels nSigFigs mantissa side (none, []) (orderIter.map levelOf)
    out.2 ++ out.1.toList

def OrderBook.toL2Snapshot (self : OrderBook O) (nLevels nSigFigs mantissa : Option ℕ) :
    Snapshot InnerLevel where
  bids := mapToL2Levels self.bids .bid nLevels nSigFigs mantissa
  asks := mapToL2Levels self.asks .ask nLevels nSigFigs mantissa

end

def Snapshot.toL2Snapshot (self : Snapshot InnerLevel) (nLevels nSigFigs mantissa : Option ℕ) :
    Snapshot InnerLevel where
  bids := l2LevelsToL2Levels self.bids .bid nLevels nSigFigs mantissa
  asks := l2LevelsToL2Levels self.asks .ask nLevels nSigFigs mantissa

structure L2SnapshotParams where
  nSigFigs : Option ℕ
  mantissa : Option ℕ
  deriving DecidableEq, Repr

/-- The views of one coin. -/
abbrev L2Views := HashMap L2SnapshotParams (Snapshot InnerLevel)

/-- The views of every coin. -/
abbrev L2Snapshots := HashMap Coin L2Views

abbrev OrderBooks (O : Type) := HashMap Coin (OrderBook O)

/-- Build one more view from the one `idx` places before the end. -/
def addNewSnapshot (nSigFigs mantissa : Option ℕ) (idx : ℕ)
    (entries : List (L2SnapshotParams × Snapshot InnerLevel)) :
    List (L2SnapshotParams × Snapshot InnerLevel) :=
  match entries[entries.length - idx]? with
  | some (_, lastSnapshot) =>
    entries ++ [(⟨nSigFigs, mantissa⟩, lastSnapshot.toL2Snapshot none nSigFigs mantissa)]
  | none => entries

/-- The views of one book in the order they are built. -/
def viewEntries {O : Type} [InnerOrder O] (book : OrderBook O) :
    List (L2SnapshotParams × Snapshot InnerLevel) :=
  [5, 4, 3, 2].foldl
    (fun entries nSigFigs =>
      if nSigFigs = 5 then
        [none, some 2, some 5].foldl
          (fun entries mantissa =>
            -- The view with mantissa 2 does not contain the one with mantissa 5.
            if mantissa = some 5 then addNewSnapshot (some nSigFigs) mantissa 2 entries
            else addNewSnapshot (some nSigFigs) mantissa 1 entries)
          entries
      else addNewSnapshot (some nSigFigs) none 1 entries)
    [(⟨none, none⟩, book.toL2Snapshot none none none)]

def coinViews {O : Type} [InnerOrder O] (book : OrderBook O) : L2Views :=
  HashMap.collect (viewEntries book)

/-- The seven views, each built from an earlier one. -/
theorem viewEntries_eq {O : Type} [InnerOrder O] (book : OrderBook O) :
    viewEntries book =
      let v := book.toL2Snapshot none none none
      let v5 := v.toL2Snapshot none (some 5) none
      let v55 := v5.toL2Snapshot none (some 5) (some 5)
      let v4 := v55.toL2Snapshot none (some 4) none
      let v3 := v4.toL2Snapshot none (some 3) none
      [(⟨none, none⟩, v), (⟨some 5, none⟩, v5),
        (⟨some 5, some 2⟩, v5.toL2Snapshot none (some 5) (some 2)), (⟨some 5, some 5⟩, v55),
        (⟨some 4, none⟩, v4), (⟨some 3, none⟩, v3),
        (⟨some 2, none⟩, v3.toL2Snapshot none (some 2) none)] := by
  simp [viewEntries, addNewSnapshot]

theorem lookup_coinViews {O : Type} [InnerOrder O] (book : OrderBook O) (params : L2SnapshotParams)
    (view : Snapshot InnerLevel) :
    (coinViews book).lookup params = some view ↔ (params, view) ∈ viewEntries book := by
  refine (HashMap.Indexes.collect ?_).lookup_iff params view
  rw [viewEntries_eq]
  simp

/-- Rebuild the views of the coins in `dirty` that have a book; keep the others. -/
def refreshL2Snapshots {O : Type} [InnerOrder O] (orderBooks : OrderBooks O) (cached : L2Snapshots)
    (dirty : Finset Coin) : L2Snapshots :=
  if dirty = ∅ then cached
  else
    let refreshed := (orderBooks.restrict fun coin => decide (coin ∈ dirty)).mapValues
      fun _ book => coinViews book
    cached.extend refreshed

theorem lookup_refreshL2Snapshots {O : Type} [InnerOrder O] (orderBooks : OrderBooks O)
    (cached : L2Snapshots) (dirty : Finset Coin) (coin : Coin) :
    (refreshL2Snapshots orderBooks cached dirty).lookup coin =
      if coin ∈ dirty then ((orderBooks.lookup coin).map coinViews).or (cached.lookup coin)
      else cached.lookup coin := by
  unfold refreshL2Snapshots
  by_cases hd : dirty = ∅
  · simp [hd]
  · rw [if_neg hd, HashMap.lookup_extend, HashMap.lookup_mapValues, HashMap.lookup_restrict]
    by_cases hc : coin ∈ dirty
    · simp [hc]
    · simp [hc]

end OrderBookServer
