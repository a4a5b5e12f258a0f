import OrderBookServer.Messages

/-!
# Which trades a batch of fills makes

Fills are paired two at a time from the back, whether they are of one trade or not.
So a trade is found exactly when an even number of fills come after it, and a
single fill hides every trade before it up to the next single fill.
-/
namespace OrderBookServer

/-- Both fills of one trade: of one coin and id, on opposite sides. -/
def OfOneTrade (f g : NodeDataFill) : Prop :=
  f.fill.coin = g.fill.coin ∧ f.fill.tid = g.fill.tid ∧ f.fill.side ≠ g.fill.side

instance (f g : NodeDataFill) : Decidable (OfOneTrade f g) :=
  inferInstanceAs (Decidable (_ ∧ _ ∧ _))

namespace Trade

/-- The trade of an ask fill and a bid fill. -/
def ofSides (ask bid : NodeDataFill) : Trade where
  coin := ask.fill.coin
  side := if ask.fill.crossed then .ask else .bid
  px := ask.fill.px
  sz := ask.fill.sz
  hash := ask.fill.hash
  time := ask.fill.time
  tid := ask.fill.tid
  users := (bid.user, ask.user)

def ofPair (pair : NodeDataFill × NodeDataFill) : Trade :=
  match pair.1.fill.side with
  | .ask => ofSides pair.1 pair.2
  | .bid => ofSides pair.2 pair.1

theorem fromFills_pair (f g : NodeDataFill) :
    fromFills ((Finmap.singleton f.fill.side f).insert g.fill.side g) =
      if OfOneTrade f g then some (ofPair (f, g)) else none := by
  have hbid : Side.bid ≠ Side.ask := by decide
  have hlookup (x y : Side) (v : NodeDataFill) :
      (Finmap.singleton x v : HashMap Side NodeDataFill).lookup y = if y = x then some v else none := by
    split_ifs with h
    · rw [h, Finmap.lookup_singleton_eq]
    · rw [Finmap.lookup_eq_none, Finmap.mem_singleton]
      exact h
  rw [fromFills, HashMap.lookup_insert_ite, HashMap.lookup_erase_ite, if_neg hbid,
    HashMap.lookup_insert_ite, hlookup, hlookup]
  cases hf : f.fill.side with
  | ask =>
    cases hg : g.fill.side with
    | ask => simp [OfOneTrade, hf, hg]
    | bid =>
      by_cases h : OfOneTrade f g
      · simp [ofPair, ofSides, hf, h.1, h.2.1, h]
      · have hdiffer : ¬ (f.fill.coin = g.fill.coin ∧ f.fill.tid = g.fill.tid) := fun hsame =>
          h ⟨hsame.1, hsame.2, by rw [hf, hg]; decide⟩
        rw [not_and_or] at hdiffer
        simp [hdiffer, h]
  | bid =>
    cases hg : g.fill.side with
    | bid => simp [OfOneTrade, hf, hg]
    | ask =>
      by_cases h : OfOneTrade f g
      · simp [ofPair, ofSides, hf, h.1, h.2.1, h]
      · have hdiffer : ¬ (g.fill.coin = f.fill.coin ∧ g.fill.tid = f.fill.tid) := fun hsame =>
          h ⟨hsame.1.symm, hsame.2.symm, by rw [hf, hg]; decide⟩
        rw [not_and_or] at hdiffer
        simp [hdiffer, h]

end Trade

/-! ### The pairs that are taken -/

/-- The pairs of neighbours with an even number of fills after them, in batch order. -/
def takenPairs : List NodeDataFill → List (NodeDataFill × NodeDataFill)
  | f :: g :: rest =>
    if Even rest.length then (f, g) :: takenPairs (g :: rest) else takenPairs (g :: rest)
  | _ => []

theorem takenPairs_append (fills : List NodeDataFill) (f g : NodeDataFill) :
    takenPairs (fills ++ [f, g]) = takenPairs fills ++ [(f, g)] := by
  induction fills with
  | nil => rfl
  | cons a fills ih =>
    cases fills with
    | nil => rfl
    | cons b fills =>
      have heven : Even (fills ++ [f, g]).length ↔ Even fills.length := by
        rw [List.length_append, List.length_cons, List.length_singleton, Nat.even_add]
        simp
      rw [List.cons_append, List.cons_append, takenPairs, takenPairs, ← List.cons_append, ih]
      simp only [heven]
      split_ifs
      · rw [List.cons_append]
      · rfl

/-- The trades found in a batch, in its order. -/
def foundTrades (fills : List NodeDataFill) : List Trade :=
  ((takenPairs fills).filter fun pair => OfOneTrade pair.1 pair.2).map Trade.ofPair

/-- The loop meets the trades from the last to the first. -/
theorem pairFills_eq (trades : HashMap String (List Trade)) (fills : List NodeDataFill) :
    pairFills trades fills = (foundTrades fills.reverse).reverse.foldl
      (fun trades trade => trades.upsert trade.coin [] (· ++ [trade])) trades := by
  fun_induction pairFills trades fills with
  | case1 trades f2 f1 rest fills trade htrade ih =>
    rw [Trade.fromFills_pair] at htrade
    split_ifs at htrade with h
    rw [ih, List.reverse_cons, List.reverse_cons, List.append_assoc, foundTrades, foundTrades,
      List.cons_append, List.nil_append, takenPairs_append, List.filter_append, List.map_append,
      List.reverse_append]
    simp [h, ← Option.some.inj htrade]
  | case2 trades f2 f1 rest fills htrade ih =>
    rw [Trade.fromFills_pair] at htrade
    split_ifs at htrade with h
    rw [ih, List.reverse_cons, List.reverse_cons, List.append_assoc, foundTrades, foundTrades,
      List.cons_append, List.nil_append, takenPairs_append, List.filter_append, List.map_append,
      List.reverse_append]
    simp [h]
  | case3 fills trades hshort =>
    match fills, hshort with
    | [], _ => rfl
    | [f], _ => rfl
    | f2 :: f1 :: rest, hshort => exact absurd rfl (hshort f2 f1 rest)

/-- What a map of lists holds under a key: no empty list. -/
def nonempty (trades : List Trade) : Option (List Trade) := if trades = [] then none else some trades

theorem lookup_coinToTrades (batch : Batch NodeDataFill) (coin : String) :
    (coinToTrades batch).lookup coin =
      nonempty ((foundTrades batch.events).filter fun trade => trade.coin = coin) := by
  have hpush (trades old : List Trade) :
      trades.foldl (fun list trade => list ++ [trade]) old = old ++ trades := by
    induction trades generalizing old with
    | nil => rw [List.append_nil, List.foldl_nil]
    | cons trade trades ih => rw [List.foldl_cons, ih, List.append_assoc, List.singleton_append]
  rw [coinToTrades, HashMap.lookup_mapValues, pairFills_eq, List.reverse_reverse,
    HashMap.lookup_foldl_upsert, List.filter_reverse, nonempty]
  simp only [List.reverse_eq_nil_iff, Finmap.lookup_empty, Option.getD_none, hpush, List.nil_append]
  split_ifs
  · rfl
  · rw [Option.map_some, List.reverse_reverse]

/-! ### The trades of a batch -/

/-- All pairs of fills of one trade, in the order of their first fills. -/
def tradePairs : List NodeDataFill → List (NodeDataFill × NodeDataFill)
  | [] => []
  | f :: fills => (fills.filter fun g => OfOneTrade f g).map (fun g => (f, g)) ++ tradePairs fills

/-- The two fills of a trade are neighbours, and no other fill has their coin and id. -/
def SideBySide (fills : List NodeDataFill) : Prop :=
  ∀ i j (hij : i < j) (hj : j < fills.length), OfOneTrade fills[i] fills[j] →
    j = i + 1 ∧ ∀ k (hk : k < fills.length), k ≠ i → k ≠ j →
      ¬ (fills[k].fill.coin = fills[i].fill.coin ∧ fills[k].fill.tid = fills[i].fill.tid)

/-- An even number of fills come after each trade. -/
def EvenAfter (fills : List NodeDataFill) : Prop :=
  ∀ i (hi : i + 1 < fills.length), OfOneTrade fills[i] fills[i + 1] → Even (fills.length - (i + 2))

variable {f g : NodeDataFill} {fills : List NodeDataFill}

theorem SideBySide.tail (h : SideBySide (f :: fills)) : SideBySide fills := by
  intro i j hij hj htrade
  have hlength : j + 1 < (f :: fills).length := Nat.succ_lt_succ hj
  obtain ⟨hnext, hother⟩ := h (i + 1) (j + 1) (by omega) hlength htrade
  refine ⟨by omega, fun k hk hi hj' => ?_⟩
  exact hother (k + 1) (Nat.succ_lt_succ hk) (by omega) (by omega)

/-- Only neighbours are of one trade. -/
theorem SideBySide.tradePairs_eq (h : SideBySide fills) :
    tradePairs fills = (fills.zip fills.tail).filter fun pair => OfOneTrade pair.1 pair.2 := by
  induction fills with
  | nil => rfl
  | cons f fills ih =>
    cases fills with
    | nil => rfl
    | cons g rest =>
      have hrest : rest.filter (fun g => OfOneTrade f g) = [] := by
        rw [List.filter_eq_nil_iff]
        intro later hlater htrade
        obtain ⟨j, hj, rfl⟩ := List.mem_iff_getElem.mp hlater
        have hlength : j + 2 < (f :: g :: rest).length := Nat.add_lt_add_right hj 2
        have hnext := (h 0 (j + 2) (by omega) hlength (of_decide_eq_true htrade)).1
        omega
      rw [tradePairs, ih h.tail, List.tail_cons, List.tail_cons, List.zip_cons_cons]
      by_cases htrade : OfOneTrade f g
      · rw [List.filter_cons_of_pos (by simpa), List.filter_cons_of_pos (by simpa), hrest]
        rfl
      · rw [List.filter_cons_of_neg (by simpa), List.filter_cons_of_neg (by simpa), hrest]
        rfl

theorem evenAfter_cons {rest : List NodeDataFill} : EvenAfter (f :: g :: rest) ↔
    (OfOneTrade f g → Even rest.length) ∧ EvenAfter (g :: rest) := by
  constructor
  · intro h
    refine ⟨fun htrade => h 0 (by simp) htrade, fun i hi htrade => ?_⟩
    have heven := h (i + 1) (Nat.succ_lt_succ hi) htrade
    simp only [List.length_cons] at heven hi ⊢
    rwa [show rest.length + 1 + 1 - (i + 1 + 2) = rest.length + 1 - (i + 2) by omega] at heven
  · rintro ⟨hfirst, hrest⟩ i hi htrade
    cases i with
    | zero => exact hfirst htrade
    | succ i =>
      have heven := hrest i (Nat.lt_of_succ_lt_succ hi) htrade
      simp only [List.length_cons] at heven hi ⊢
      rwa [show rest.length + 1 + 1 - (i + 1 + 2) = rest.length + 1 - (i + 2) by omega]

/-- How many pairs are of a trade of the coin. -/
def countTrades (coin : String) (pairs : List (NodeDataFill × NodeDataFill)) : ℕ :=
  pairs.countP fun pair => (Trade.ofPair pair).coin = coin ∧ OfOneTrade pair.1 pair.2

theorem countTrades_le (coin : String) (fills : List NodeDataFill) :
    countTrades coin (takenPairs fills) ≤ countTrades coin (fills.zip fills.tail) := by
  induction fills with
  | nil => exact Nat.le_refl _
  | cons f fills ih =>
    cases fills with
    | nil => exact Nat.le_refl _
    | cons g rest =>
      rw [takenPairs, List.tail_cons, List.zip_cons_cons]
      rw [List.tail_cons] at ih
      simp only [countTrades] at ih ⊢
      split_ifs
      · rw [List.countP_cons, List.countP_cons]
        omega
      · rw [List.countP_cons]
        omega

/-- A trade with an odd number of fills after it is missing from the trades of its coin. -/
theorem evenAfter_of_countTrades (h : ∀ coin,
    countTrades coin (takenPairs fills) = countTrades coin (fills.zip fills.tail)) :
    EvenAfter fills := by
  induction fills with
  | nil => intro i hi; cases hi
  | cons f fills ih =>
    cases fills with
    | nil =>
      intro i hi
      simp at hi
    | cons g rest =>
      rw [evenAfter_cons]
      rw [takenPairs, List.tail_cons, List.zip_cons_cons] at h
      rw [List.tail_cons] at ih
      by_cases heven : Even rest.length
      · refine ⟨fun _ => heven, ih fun coin => ?_⟩
        have hcoin := h coin
        rw [if_pos heven, countTrades, countTrades, List.countP_cons, List.countP_cons] at hcoin
        exact Nat.add_right_cancel hcoin
      · have hle (coin : String) := countTrades_le coin (g :: rest)
        simp only [List.tail_cons] at hle
        have hnot : ¬ OfOneTrade f g := by
          intro htrade
          have hcoin := h (Trade.ofPair (f, g)).coin
          have hless := hle (Trade.ofPair (f, g)).coin
          rw [if_neg heven, countTrades, countTrades, List.countP_cons_of_pos (by simp [htrade])]
            at hcoin
          simp only [countTrades] at hless
          omega
        refine ⟨fun htrade => absurd htrade hnot, ih fun coin => ?_⟩
        have hcoin := h coin
        rwa [if_neg heven, countTrades, countTrades, List.countP_cons_of_neg (by simp [hnot])]
          at hcoin

/-- Where an even number of fills come after each trade, all of them are taken. -/
theorem EvenAfter.filter_takenPairs (h : EvenAfter fills) :
    (takenPairs fills).filter (fun pair => OfOneTrade pair.1 pair.2) =
      (fills.zip fills.tail).filter fun pair => OfOneTrade pair.1 pair.2 := by
  induction fills with
  | nil => rfl
  | cons f fills ih =>
    cases fills with
    | nil => rfl
    | cons g rest =>
      obtain ⟨hfirst, hrest⟩ := evenAfter_cons.mp h
      rw [takenPairs, List.tail_cons, List.zip_cons_cons]
      rw [List.tail_cons] at ih
      by_cases htrade : OfOneTrade f g
      · rw [if_pos (hfirst htrade), List.filter_cons_of_pos (by simpa),
          List.filter_cons_of_pos (by simpa), ih hrest]
      · rw [List.filter_cons_of_neg (by simpa), ← ih hrest]
        split_ifs
        · rw [List.filter_cons_of_neg (by simpa)]
        · rfl

theorem nonempty_injective : Function.Injective nonempty := by
  intro trades others h
  unfold nonempty at h
  split_ifs at h with hnone hother hother
  · rw [hnone, hother]
  · exact Option.some.inj h

/-- Every coin has one trade for each pair of fills of one trade, in the order of the batch, exactly
where an even number of fills come after each pair. -/
theorem no_trade_is_lost_iff {batch : Batch NodeDataFill} (h : SideBySide batch.events) :
    (∀ coin, (coinToTrades batch).lookup coin =
      nonempty (((tradePairs batch.events).map Trade.ofPair).filter
        fun trade => trade.coin = coin)) ↔
      EvenAfter batch.events := by
  simp only [lookup_coinToTrades, nonempty_injective.eq_iff, foundTrades, h.tradePairs_eq]
  constructor
  · intro hall
    apply evenAfter_of_countTrades
    intro coin
    have hlength := congrArg List.length (hall coin)
    simp only [List.filter_map, List.length_map, List.filter_filter,
      ← List.countP_eq_length_filter] at hlength
    simpa [countTrades, Function.comp_def] using hlength
  · intro heven coin
    rw [heven.filter_takenPairs]

/-- A fill of one BTC. -/
def btcFill (user : Address) (side : Side) (tid : ℕ) (crossed : Bool) : NodeDataFill :=
  ⟨user, ⟨"BTC", "100", "1", side, 0, "0", "", "0", "0x0", 0, crossed, "0", tid, "USDC", none⟩⟩

/-- A single fill after a trade hides it. -/
theorem single_fill_hides_trade :
    let batch : Batch NodeDataFill :=
      ⟨⟨0⟩, ⟨0⟩, 1, [btcFill 1 .bid 7 false, btcFill 2 .ask 7 true, btcFill 3 .bid 8 true], 0⟩
    SideBySide batch.events ∧
      (tradePairs batch.events).map Trade.ofPair =
        [⟨"BTC", .ask, "100", "1", "0x0", 0, 7, (1, 2)⟩] ∧
      (coinToTrades batch).lookup "BTC" = none := by
  intro batch
  refine ⟨?_, by decide, by decide⟩
  intro i j hij hj htrade
  have hcases : i = 0 ∧ j = 1 ∨ i = 0 ∧ j = 2 ∨ i = 1 ∧ j = 2 := by
    have hlength : j < 3 := hj
    omega
  obtain ⟨rfl, rfl⟩ | ⟨rfl, rfl⟩ | ⟨rfl, rfl⟩ := hcases
  · refine ⟨rfl, fun k hk hi hj' => ?_⟩
    obtain rfl : k = 2 := by
      have hlength : k < 3 := hk
      omega
    have hnot : ¬ (8 = 7) := by decide
    exact fun hsame => hnot hsame.2
  · have hnot : ¬ OfOneTrade (btcFill 1 .bid 7 false) (btcFill 3 .bid 8 true) := by decide
    exact absurd htrade hnot
  · have hnot : ¬ OfOneTrade (btcFill 2 .ask 7 true) (btcFill 3 .bid 8 true) := by decide
    exact absurd htrade hnot

theorem no_trade_is_lost_two_fills :
    let batch : Batch NodeDataFill :=
      ⟨⟨0⟩, ⟨0⟩, 1, [btcFill 1 .bid 7 false, btcFill 2 .ask 7 true], 0⟩
    (coinToTrades batch).lookup "BTC" =
      some [⟨"BTC", .ask, "100", "1", "0x0", 0, 7, (1, 2)⟩] := by
  intro batch
  have hside : SideBySide batch.events := by
    intro i j hij hj htrade
    have hlength : j < 2 := hj
    refine ⟨by omega, fun k hk hi hj' => ?_⟩
    have hlength' : k < 2 := hk
    omega
  have heven : EvenAfter batch.events := by
    intro i hi _
    have hlength : i + 1 < 2 := hi
    obtain rfl : i = 0 := by omega
    decide
  exact (no_trade_is_lost_iff hside).mpr heven "BTC"

end OrderBookServer
