import OrderBookServer.Decimal

/-!
# Orders

Identifiers, prices and sizes of orders, the `InnerOrder` trait the book is
generic over, and the two order records: `L4Order` as the node writes it and
`InnerL4Order` as it rests in a book. The trait carries its contract: the size
operations change nothing but the size, and a fill takes the smaller of the two
sizes off both orders.
-/
namespace OrderBookServer

inductive Side where
  | ask
  | bid
  deriving DecidableEq, Repr

namespace Side

/-- The side whose orders a taker on this side is matched against. -/
def opposite : Side → Side
  | ask => bid
  | bid => ask

@[simp] theorem opposite_opposite (x : Side) : x.opposite.opposite = x := by cases x <;> rfl

theorem opposite_ne (x : Side) : x.opposite ≠ x := by cases x <;> decide

theorem ne_iff_eq_opposite {x y : Side} : x ≠ y ↔ x = y.opposite := by
  cases x <;> cases y <;> decide

end Side

abbrev Oid := ℕ
abbrev Address := BitVec 160

/-! Prices (`Px`) and sizes (`Sz`) wrap one word each and are plain numbers here. -/

/-- `Sz::add`: an unchecked addition of words. -/
def Sz.add (a b : ℕ) : ℕ := U64.wrappingAdd a b

/-- `num_digits`, taken as the exact number of decimal digits. -/
def Px.numDigits (px : ℕ) : ℕ := if px = 0 then 1 else Nat.log 10 px + 1

def Px.parseFromStr (text : String) : Except String ℕ := Decimal.parseFromStr text
def Sz.parseFromStr (text : String) : Except String ℕ := Decimal.parseFromStr text

def Px.toStr (px : ℕ) : String := Decimal.toStr px
def Sz.toStr (sz : ℕ) : String := Decimal.toStr sz

structure Coin where
  value : String
  deriving DecidableEq, Repr

def Coin.isSpot (coin : Coin) : Bool :=
  coin.value.toList.head? == some '@' || coin.value == "PURR/USDC"

/-- The diffs of a coin are skipped. -/
def Coin.Ignored (ignoreSpot : Bool) (coin : Coin) : Prop := (coin.isSpot && ignoreSpot) = true

instance (ignoreSpot : Bool) (coin : Coin) : Decidable (coin.Ignored ignoreSpot) :=
  inferInstanceAs (Decidable (_ = true))

/-- The order trait. The last fields are the contract of its implementations. -/
class InnerOrder (O : Type) where
  coin : O → Coin
  oid : O → Oid
  side : O → Side
  limitPx : O → ℕ
  sz : O → ℕ
  decrementSz : O → ℕ → O
  /-- The taker and the maker after the fill, and the size matched. -/
  fill : O → O → O × O × ℕ
  modifySz : O → ℕ → O
  convertTrigger : O → ℕ → O
  sz_decrementSz : ∀ o d, sz (decrementSz o d) = sz o - d
  sz_modifySz : ∀ o s, sz (modifySz o s) = s
  fill_eq : ∀ t m, fill t m =
    (decrementSz t (min (sz t) (sz m)), decrementSz m (min (sz t) (sz m)), min (sz t) (sz m))
  coin_decrementSz : ∀ o d, coin (decrementSz o d) = coin o
  oid_decrementSz : ∀ o d, oid (decrementSz o d) = oid o
  side_decrementSz : ∀ o d, side (decrementSz o d) = side o
  limitPx_decrementSz : ∀ o d, limitPx (decrementSz o d) = limitPx o
  coin_modifySz : ∀ o s, coin (modifySz o s) = coin o
  oid_modifySz : ∀ o s, oid (modifySz o s) = oid o
  side_modifySz : ∀ o s, side (modifySz o s) = side o
  limitPx_modifySz : ∀ o s, limitPx (modifySz o s) = limitPx o

namespace InnerOrder

attribute [simp] sz_decrementSz sz_modifySz coin_decrementSz oid_decrementSz side_decrementSz
  limitPx_decrementSz coin_modifySz oid_modifySz side_modifySz limitPx_modifySz

variable {O : Type} [InnerOrder O]

/-- The taker after a fill. -/
def taker (t m : O) : O := (fill t m).1

/-- The maker after a fill. -/
def maker (t m : O) : O := (fill t m).2.1

theorem taker_eq (t m : O) : taker t m = decrementSz t (min (sz t) (sz m)) := by
  rw [taker, fill_eq]

theorem maker_eq (t m : O) : maker t m = decrementSz m (min (sz t) (sz m)) := by
  rw [maker, fill_eq]

@[simp] theorem oid_taker (t m : O) : oid (taker t m) = oid t := by rw [taker_eq, oid_decrementSz]
@[simp] theorem side_taker (t m : O) : side (taker t m) = side t := by
  rw [taker_eq, side_decrementSz]
@[simp] theorem limitPx_taker (t m : O) : limitPx (taker t m) = limitPx t := by
  rw [taker_eq, limitPx_decrementSz]
@[simp] theorem coin_taker (t m : O) : coin (taker t m) = coin t := by
  rw [taker_eq, coin_decrementSz]
@[simp] theorem oid_maker (t m : O) : oid (maker t m) = oid m := by rw [maker_eq, oid_decrementSz]
@[simp] theorem side_maker (t m : O) : side (maker t m) = side m := by
  rw [maker_eq, side_decrementSz]
@[simp] theorem limitPx_maker (t m : O) : limitPx (maker t m) = limitPx m := by
  rw [maker_eq, limitPx_decrementSz]

@[simp] theorem sz_taker (t m : O) : sz (taker t m) = sz t - sz m := by
  rw [taker_eq, sz_decrementSz]; omega

@[simp] theorem sz_maker (t m : O) : sz (maker t m) = sz m - sz t := by
  rw [maker_eq, sz_decrementSz]; omega

/-- A fill leaves one of the two orders without size. -/
theorem fill_exhausts (t m : O) : sz (maker t m) = 0 ∨ sz (taker t m) = 0 := by
  rw [sz_maker, sz_taker]
  omega

end InnerOrder

/-- An order as the node writes it. -/
structure L4Order where
  user : Option Address
  coin : String
  side : Side
  limitPx : String
  sz : String
  oid : ℕ
  timestamp : ℕ
  triggerCondition : String
  isTrigger : Bool
  triggerPx : String
  isPositionTpsl : Bool
  reduceOnly : Bool
  orderType : String
  tif : Option String
  cloid : Option String
  deriving DecidableEq, Repr

/-- An order as it rests in a book. -/
structure InnerL4Order where
  user : Address
  coin : Coin
  side : Side
  limitPx : ℕ
  sz : ℕ
  oid : ℕ
  timestamp : ℕ
  triggerCondition : String
  isTrigger : Bool
  triggerPx : String
  isPositionTpsl : Bool
  reduceOnly : Bool
  orderType : String
  tif : Option String
  cloid : Option String
  deriving DecidableEq, Repr

namespace InnerL4Order

def decrementSz (self : InnerL4Order) (dec : ℕ) : InnerL4Order := { self with sz := self.sz - dec }

def modifySz (self : InnerL4Order) (sz : ℕ) : InnerL4Order := { self with sz := sz }

def fill (self maker : InnerL4Order) : InnerL4Order × InnerL4Order × ℕ :=
  let matchSz := min self.sz maker.sz
  (self.decrementSz matchSz, maker.decrementSz matchSz, matchSz)

/-- A triggered order rests as a plain limit order from time `ts` on. -/
def convertTrigger (self : InnerL4Order) (ts : ℕ) : InnerL4Order :=
  if self.isTrigger then
    { self with
      triggerPx := "0.0"
      triggerCondition := "Triggered"
      isTrigger := false
      timestamp := ts
      tif := some "Gtc" }
  else self

instance : InnerOrder InnerL4Order where
  coin := coin
  oid := oid
  side := side
  limitPx := limitPx
  sz := sz
  decrementSz := decrementSz
  fill := fill
  modifySz := modifySz
  convertTrigger := convertTrigger
  sz_decrementSz _ _ := rfl
  sz_modifySz _ _ := rfl
  fill_eq _ _ := rfl
  coin_decrementSz _ _ := rfl
  oid_decrementSz _ _ := rfl
  side_decrementSz _ _ := rfl
  limitPx_decrementSz _ _ := rfl
  coin_modifySz _ _ := rfl
  oid_modifySz _ _ := rfl
  side_modifySz _ _ := rfl
  limitPx_modifySz _ _ := rfl

/-- `try_from((user, order))`: the price is parsed before the size. -/
def tryFrom (user : Address) (order : L4Order) : Except String InnerL4Order := do
  let limitPx ← Px.parseFromStr order.limitPx
  let sz ← Sz.parseFromStr order.sz
  return {
    user := user
    coin := ⟨order.coin⟩
    side := order.side
    limitPx := limitPx
    sz := sz
    oid := order.oid
    timestamp := order.timestamp
    triggerCondition := order.triggerCondition
    isTrigger := order.isTrigger
    triggerPx := order.triggerPx
    isPositionTpsl := order.isPositionTpsl
    reduceOnly := order.reduceOnly
    orderType := order.orderType
    tif := order.tif
    cloid := order.cloid }

@[simp] theorem convertTrigger_sz (o : InnerL4Order) (ts : ℕ) : (o.convertTrigger ts).sz = o.sz := by
  unfold convertTrigger; split <;> rfl

@[simp] theorem convertTrigger_oid (o : InnerL4Order) (ts : ℕ) :
    (o.convertTrigger ts).oid = o.oid := by unfold convertTrigger; split <;> rfl

@[simp] theorem convertTrigger_coin (o : InnerL4Order) (ts : ℕ) :
    (o.convertTrigger ts).coin = o.coin := by unfold convertTrigger; split <;> rfl

@[simp] theorem convertTrigger_side (o : InnerL4Order) (ts : ℕ) :
    (o.convertTrigger ts).side = o.side := by unfold convertTrigger; split <;> rfl

@[simp] theorem convertTrigger_limitPx (o : InnerL4Order) (ts : ℕ) :
    (o.convertTrigger ts).limitPx = o.limitPx := by unfold convertTrigger; split <;> rfl

theorem tryFrom_eq_ok {user : Address} {order : L4Order} {o : InnerL4Order}
    (h : tryFrom user order = .ok o) :
    o.coin = ⟨order.coin⟩ ∧ o.oid = order.oid ∧ o.side = order.side := by
  unfold tryFrom at h
  cases hp : Px.parseFromStr order.limitPx with
  | error e => rw [hp] at h; cases h
  | ok px =>
    cases hs : Sz.parseFromStr order.sz with
    | error e => rw [hp, hs] at h; cases h
    | ok sz => rw [hp, hs] at h; cases h; exact ⟨rfl, rfl, rfl⟩

/-- A bid of size 1 at price 1, for runs on fixed inputs. -/
def unitBid (coin : String) (oid : ℕ) : InnerL4Order where
  user := 0
  coin := ⟨coin⟩
  side := .bid
  limitPx := 100000000
  sz := 100000000
  oid := oid
  timestamp := 0
  triggerCondition := "N/A"
  isTrigger := false
  triggerPx := "0.0"
  isPositionTpsl := false
  reduceOnly := false
  orderType := "Limit"
  tif := some "Gtc"
  cloid := none

end InnerL4Order

/-- The order of the book's own tests. -/
structure MinimalOrder where
  oid : ℕ
  side : Side
  sz : ℕ
  limitPx : ℕ
  deriving DecidableEq, Repr

namespace MinimalOrder

def new (oid sz limitPx : ℕ) (side : Side) : MinimalOrder := ⟨oid, side, sz, limitPx⟩

def decrementSz (self : MinimalOrder) (dec : ℕ) : MinimalOrder := { self with sz := self.sz - dec }

instance : InnerOrder MinimalOrder where
  coin _ := ⟨""⟩
  oid := oid
  side := side
  limitPx := limitPx
  sz := sz
  decrementSz := decrementSz
  fill self maker :=
    let matchSz := min self.sz maker.sz
    (self.decrementSz matchSz, maker.decrementSz matchSz, matchSz)
  modifySz self sz := { self with sz := sz }
  convertTrigger self _ := self
  sz_decrementSz _ _ := rfl
  sz_modifySz _ _ := rfl
  fill_eq _ _ := rfl
  coin_decrementSz _ _ := rfl
  oid_decrementSz _ _ := rfl
  side_decrementSz _ _ := rfl
  limitPx_decrementSz _ _ := rfl
  coin_modifySz _ _ := rfl
  oid_modifySz _ _ := rfl
  side_modifySz _ _ := rfl
  limitPx_modifySz _ _ := rfl

end MinimalOrder

/-- The change of one resting order, as the node writes it. -/
inductive OrderDiff where
  | new (sz : String) (insertBefore : Option ℕ)
  | update (origSz newSz : String)
  | remove
  deriving DecidableEq, Repr

inductive InnerOrderDiff where
  | new (sz : ℕ) (insertBefore : Option Oid)
  | update (origSz newSz : ℕ)
  | remove
  deriving DecidableEq, Repr

def InnerOrderDiff.tryFrom : OrderDiff → Except String InnerOrderDiff
  | .new sz insertBefore => do
    let sz ← Sz.parseFromStr sz
    return .new sz insertBefore
  | .update origSz newSz => do
    let origSz ← Sz.parseFromStr origSz
    let newSz ← Sz.parseFromStr newSz
    return .update origSz newSz
  | .remove => return .remove

/-- One price level of an aggregated view. -/
structure InnerLevel where
  px : ℕ
  sz : ℕ
  n : ℕ
  deriving DecidableEq, Repr

/-- The two sides of a book as lists, prioritized entries first. -/
structure Snapshot (O : Type*) where
  bids : List O
  asks : List O
  deriving DecidableEq, Repr

namespace Snapshot

def orders {O : Type*} (s : Snapshot O) : Side → List O
  | .bid => s.bids
  | .ask => s.asks

def setOrders {O : Type*} (s : Snapshot O) (x : Side) (os : List O) : Snapshot O :=
  match x with
  | .bid => { s with bids := os }
  | .ask => { s with asks := os }

@[simp] theorem orders_setOrders {O : Type*} (s : Snapshot O) (x : Side) (os : List O) :
    (s.setOrders x os).orders x = os := by cases x <;> rfl

@[simp] theorem orders_setOrders_opposite {O : Type*} (s : Snapshot O) (x : Side) (os : List O) :
    (s.setOrders x os).orders x.opposite = s.orders x.opposite := by cases x <;> rfl

@[simp] theorem orders_opposite_setOrders {O : Type*} (s : Snapshot O) (x : Side) (os : List O) :
    (s.setOrders x.opposite os).orders x = s.orders x := by cases x <;> rfl

@[simp] theorem setOrders_orders {O : Type*} (s : Snapshot O) (x : Side) :
    s.setOrders x (s.orders x) = s := by cases x <;> rfl

theorem ext_orders {O : Type*} {s s' : Snapshot O} (h : ∀ x, s.orders x = s'.orders x) : s = s' := by
  cases s; cases s'
  have hb := h .bid
  have ha := h .ask
  simp only [orders] at hb ha
  rw [hb, ha]

def truncate {O : Type*} (s : Snapshot O) (n : ℕ) : Snapshot O := ⟨s.bids.take n, s.asks.take n⟩

def isEmpty {O : Type*} (s : Snapshot O) : Bool := s.bids.isEmpty && s.asks.isEmpty

end Snapshot
end OrderBookServer
