import OrderBookServer.Levels
import OrderBookServer.Rollup
import OrderBookServer.SigFigs

/-!
# The cascade of views

A view is a roll-up of the levels of a side, in the order of the side, along the
rounding of prices to significant figures. A view built from an earlier one is
therefore the direct view of the book as soon as the earlier rounding is the
finer one at every price of the book. Every step of the cascade refines in this
way but one: the view of four figures is built from the one of five figures with
mantissa five, and below four digits that rounding is the coarser of the two.
-/
namespace OrderBookServer
open InnerOrder Rollup SigFigs

/-! ### Views as roll-ups -/

/-- Prices in the order of a side, best first. -/
def Ranked : Side → Type
  | .ask => ℕ
  | .bid => ℕᵒᵈ

namespace Ranked

instance (x : Side) : LinearOrder (Ranked x) :=
  match x with
  | .ask => inferInstanceAs (LinearOrder ℕ)
  | .bid => inferInstanceAs (LinearOrder ℕᵒᵈ)

def rank : (x : Side) → ℕ → Ranked x
  | .ask, px => px
  | .bid, px => OrderDual.toDual px

def px : {x : Side} → Ranked x → ℕ
  | .ask, r => r
  | .bid, r => OrderDual.ofDual r

@[simp] theorem px_rank (x : Side) (p : ℕ) : (rank x p).px = p := by cases x <;> rfl

@[simp] theorem rank_px {x : Side} (r : Ranked x) : rank x r.px = r := by cases x <;> rfl

theorem rank_lt_rank {x : Side} {p q : ℕ} : rank x p < rank x q ↔ x.Before p q := by
  cases x <;> exact Iff.rfl

/-- Rounding towards worse prices: asks up, bids down. -/
def round (x : Side) (n m : ℕ) (hn : 2 ≤ n) (hm : m ∣ 10) : ClosureOperator (Ranked x) :=
  match x with
  | .ask => up n m hn hm
  | .bid => down n m hn hm

variable {x : Side} {n m : ℕ} {hn : 2 ≤ n} {hm : m ∣ 10}

theorem round_eq_iff {r : Ranked x} : round x n m hn hm r = r ↔ OnGrid n m r.px := by
  refine (round x n m hn hm).isClosed_iff.symm.trans ?_
  cases x <;> exact Iff.rfl

/-- A rounding of some number is on the grid. -/
theorem onGrid_round (hn : 2 ≤ n) (hm : m ∣ 10) (r : Ranked x) :
    OnGrid n m (round x n m hn hm r).px :=
  round_eq_iff.mp ((round x n m hn hm).idempotent r)

end Ranked

open Ranked

/-- The sums of two levels, the later one first. -/
def mergeSums (l c : ℕ × ℕ) : ℕ × ℕ := (Sz.add l.1 c.1, c.2 + l.2)

instance : Std.Associative mergeSums where
  assoc a b c := Prod.ext (U64.wrappingAdd_assoc a.1 b.1 c.1) (Nat.add_assoc c.2 b.2 a.2).symm

def entryOf (x : Side) (l : InnerLevel) : Ranked x × ℕ × ℕ := (rank x l.px, l.sz, l.n)

def levelFrom {x : Side} (e : Ranked x × ℕ × ℕ) : InnerLevel := ⟨e.1.px, e.2.1, e.2.2⟩

@[simp] theorem levelFrom_entryOf (x : Side) (l : InnerLevel) : levelFrom (entryOf x l) = l := by
  cases l; simp [levelFrom, entryOf]

@[simp] theorem entryOf_levelFrom {x : Side} (e : Ranked x × ℕ × ℕ) : entryOf x (levelFrom e) = e := by
  simp [levelFrom, entryOf]

def rankedBucket (x : Side) (nSigFigs mantissa : Option ℕ) (r : Ranked x) : Ranked x :=
  rank x (bucket r.px x nSigFigs mantissa)

theorem entryOf_comp_levelFrom (x : Side) : entryOf x ∘ levelFrom = id :=
  funext entryOf_levelFrom

theorem newBucket_some (x : Side) (c l : InnerLevel) :
    newBucket x (some c) l = decide ((entryOf x c).1 < (entryOf x l).1) := by
  cases x <;> rfl

/-- Without a bound on the number of levels the loop never ends early, and a step
pushes one entry. -/
theorem buildL2Level_eq_push (x : Side) (nSigFigs mantissa : Option ℕ) (st : LevelState)
    (level : InnerLevel) :
    ∃ cur, buildL2Level none nSigFigs mantissa x st level =
        (false, some cur, st.2 ++ (flush (st.1.map (entryOf x)) (entryOf x level)).map levelFrom) ∧
      entryOf x cur =
        push mergeSums (rankedBucket x nSigFigs mantissa) (st.1.map (entryOf x)) (entryOf x level) := by
  obtain ⟨cur, done⟩ := st
  cases cur with
  | none =>
    refine ⟨⟨bucket level.px x nSigFigs mantissa, level.sz, level.n⟩, ?_, ?_⟩
    · simp [buildL2Level, newBucket, flush]
    · simp [push, entryOf, rankedBucket]
  | some c =>
    by_cases hlt : (entryOf x c).1 < (entryOf x level).1
    · refine ⟨⟨bucket level.px x nSigFigs mantissa, level.sz, level.n⟩, ?_, ?_⟩
      · simp [buildL2Level, newBucket_some, flush, hlt]
      · simp only [Option.map_some, push, if_pos hlt]
        simp [entryOf, rankedBucket]
    · refine ⟨{ c with sz := Sz.add level.sz c.sz, n := c.n + level.n }, ?_, ?_⟩
      · simp [buildL2Level, newBucket_some, flush, hlt]
      · simp only [Option.map_some, push, if_neg hlt]
        rfl

theorem buildL2Levels_eq_roll (x : Side) (nSigFigs mantissa : Option ℕ) (st : LevelState)
    (levels : List InnerLevel) :
    (buildL2Levels none nSigFigs mantissa x st levels).2 ++
        (buildL2Levels none nSigFigs mantissa x st levels).1.toList =
      st.2 ++ (roll mergeSums (rankedBucket x nSigFigs mantissa) (st.1.map (entryOf x))
        (levels.map (entryOf x))).map levelFrom := by
  induction levels generalizing st with
  | nil => cases h : st.1 <;> simp [buildL2Levels, roll, h]
  | cons level rest ih =>
    obtain ⟨cur, hstep, hcur⟩ := buildL2Level_eq_push x nSigFigs mantissa st level
    simp only [buildL2Levels, hstep, Bool.false_eq_true, if_false]
    rw [ih, Option.map_some, hcur, List.map_cons, roll, List.map_append, List.append_assoc]

/-- The entries of a view in the order of the side. -/
def viewEntriesOf (x : Side) (levels : List InnerLevel) : List (Ranked x × ℕ × ℕ) :=
  levels.map (entryOf x)

theorem viewEntriesOf_injective (x : Side) : Function.Injective (viewEntriesOf x) := by
  apply List.map_injective_iff.mpr
  intro l l' h
  rw [← levelFrom_entryOf x l, h, levelFrom_entryOf]

theorem l2LevelsToL2Levels_eq_roll (levels : List InnerLevel) (x : Side)
    (nSigFigs mantissa : Option ℕ) :
    viewEntriesOf x (l2LevelsToL2Levels levels x none nSigFigs mantissa) =
      roll mergeSums (rankedBucket x nSigFigs mantissa) none (viewEntriesOf x levels) := by
  rw [l2LevelsToL2Levels, if_neg (by simp)]
  simp only [buildL2Levels_eq_roll]
  simp [viewEntriesOf, entryOf_comp_levelFrom]

section

variable {O : Type} [InnerOrder O]

/-- The levels of a side, summed up, in the order of the side. -/
def rawEntries (x : Side) (map : Levels O) : List (Ranked x × ℕ × ℕ) :=
  viewEntriesOf x ((bestLevels x map).map levelOf)

theorem mapToL2Levels_eq_roll (map : Levels O) (x : Side) (nSigFigs mantissa : Option ℕ) :
    viewEntriesOf x (mapToL2Levels map x none nSigFigs mantissa) =
      roll mergeSums (rankedBucket x nSigFigs mantissa) none (rawEntries x map) := by
  have h : mapToL2Levels map x none nSigFigs mantissa =
      l2LevelsToL2Levels ((bestLevels x map).map levelOf) x none nSigFigs mantissa := by
    cases x <;> rfl
  rw [h, l2LevelsToL2Levels_eq_roll, rawEntries]

theorem toL2Snapshot_orders (b : OrderBook O) (x : Side) (nSigFigs mantissa : Option ℕ) :
    viewEntriesOf x ((b.toL2Snapshot none nSigFigs mantissa).orders x) =
      roll mergeSums (rankedBucket x nSigFigs mantissa) none (rawEntries x (b.levels x)) := by
  cases x <;> exact mapToL2Levels_eq_roll _ _ _ _

theorem snapshot_toL2Snapshot_orders (s : Snapshot InnerLevel) (x : Side)
    (nSigFigs mantissa : Option ℕ) :
    viewEntriesOf x ((s.toL2Snapshot none nSigFigs mantissa).orders x) =
      roll mergeSums (rankedBucket x nSigFigs mantissa) none (viewEntriesOf x (s.orders x)) := by
  cases x <;> exact l2LevelsToL2Levels_eq_roll _ _ _ _

theorem rawEntries_increasing (x : Side) (map : Levels O) :
    (rawEntries x map).Pairwise fun a b => a.1 < b.1 := by
  rw [rawEntries, viewEntriesOf, List.map_map, List.pairwise_map]
  have hp := map.pairwise_entries
  cases x with
  | ask => exact hp
  | bid => exact List.pairwise_reverse.mpr hp

theorem mem_rawEntries {x : Side} {map : Levels O} {e : Ranked x × ℕ × ℕ}
    (h : e ∈ rawEntries x map) : ∃ list, (e.1.px, list) ∈ map.entries := by
  simp only [rawEntries, viewEntriesOf, List.mem_map] at h
  obtain ⟨l, ⟨f, hf, rfl⟩, rfl⟩ := h
  refine ⟨f.2, ?_⟩
  simpa [entryOf, levelOf] using mem_bestLevels.mp hf

theorem exists_mem_rawEntries {x : Side} {map : Levels O} {f : ℕ × LinkedList Oid O}
    (h : f ∈ map.entries) : ∃ e ∈ rawEntries x map, e.1 = rank x f.1 := by
  refine ⟨entryOf x (levelOf f), ?_, rfl⟩
  exact List.mem_map_of_mem (List.mem_map_of_mem (mem_bestLevels.mpr h))

end

/-! ### Buckets as roundings -/

theorem numDigits_eq (px : ℕ) : Px.numDigits px = digits px := by
  unfold Px.numDigits digits
  split_ifs with h
  · simp [h]
  · rfl

/-- The rounding of a price stays inside a word. -/
def FitsWord (x : Side) (n m px : ℕ) : Prop :=
  px < U64.modulus ∧ (x = .ask → roundUp n m px < U64.modulus)

instance (x : Side) (n m px : ℕ) : Decidable (FitsWord x n m px) := inferInstanceAs (Decidable (_ ∧ _))

section Bucket

variable {x : Side} {n m : ℕ}

theorem digits_le_twenty {px : ℕ} (h : px < U64.modulus) : digits px ≤ 20 := by
  have hmod : U64.modulus < 10 ^ 20 := by decide
  exact (digits_le_iff (by omega)).mpr (h.trans hmod)

/-- Up to twenty digits an increment and its power of ten are words. -/
theorem increment_lt (hn : 2 ≤ n) (hm : m ∣ 10) {d : ℕ} (hd : d ≤ 20) :
    10 ^ (d - n) < U64.modulus ∧ m * 10 ^ (d - n) < U64.modulus := by
  have hp : 10 ^ (d - n) ≤ 10 ^ 18 := Nat.pow_le_pow_right (by omega) (by omega)
  have hm10 : m ≤ 10 := Nat.le_of_dvd (by omega) hm
  refine ⟨hp.trans_lt (by decide), ?_⟩
  calc m * 10 ^ (d - n) ≤ 10 * 10 ^ 18 := Nat.mul_le_mul hm10 hp
    _ < U64.modulus := by decide

theorem increment_eq (hn : 2 ≤ n) (hm : m ∣ 10) {px : ℕ} (h : px < U64.modulus) :
    U64.wrappingMul m (U64.wrappingPow 10 (digits px - n)) = width n m px := by
  obtain ⟨hpow, hproduct⟩ := increment_lt hn hm (digits_le_twenty h)
  rw [U64.wrappingPow, Nat.mod_eq_of_lt hpow]
  exact U64.wrappingMul_of_lt hproduct

/-- Inside the word a bucket is a rounding. -/
theorem rankedBucket_eq_round (hn : 2 ≤ n) (mantissa : Option ℕ) (hm : mantissa.getD 1 ∣ 10)
    {r : Ranked x} (h : FitsWord x n (mantissa.getD 1) r.px) :
    rankedBucket x (some n) mantissa r = round x n (mantissa.getD 1) hn hm r := by
  have hinc := increment_eq hn hm h.1
  rw [← numDigits_eq] at hinc
  cases x with
  | bid =>
    simp only [rankedBucket, bucket, hinc]
    rfl
  | ask =>
    have hup : U64.divCeil r.px (width n (mantissa.getD 1) r.px) * width n (mantissa.getD 1) r.px =
        roundUp n (mantissa.getD 1) r.px := by
      rw [U64.divCeil_eq (width_pos hm n r.px), roundUp]
    simp only [rankedBucket, bucket, hinc]
    rw [U64.wrappingMul_of_lt (hup ▸ h.2 rfl), hup]
    rfl

theorem px_round_le (hn : 2 ≤ n) (hm : m ∣ 10) {r : Ranked x} (h : FitsWord x n m r.px) :
    (round x n m hn hm r).px < U64.modulus := by
  cases x with
  | ask => exact h.2 rfl
  | bid => exact (roundDown_le n m r.px).trans_lt h.1

theorem roll_rankedBucket (hn : 2 ≤ n) (mantissa : Option ℕ) (hm : mantissa.getD 1 ∣ 10)
    {es : List (Ranked x × ℕ × ℕ)} (h : ∀ e ∈ es, FitsWord x n (mantissa.getD 1) e.1.px) :
    roll mergeSums (rankedBucket x (some n) mantissa) none es =
      roll mergeSums (round x n (mantissa.getD 1) hn hm) none es :=
  roll_congr none es fun e he => rankedBucket_eq_round hn mantissa hm (h e he)

end Bucket

/-! ### One step of the cascade -/

/-- The rounding by `(n₁, m₁)` is the finer one at the price `r`. -/
def Refines {x : Side} (n₁ m₁ n₂ m₂ : ℕ) (hn₁ : 2 ≤ n₁) (hm₁ : m₁ ∣ 10) (hn₂ : 2 ≤ n₂)
    (hm₂ : m₂ ∣ 10) (r : Ranked x) : Prop :=
  round x n₁ m₁ hn₁ hm₁ (round x n₂ m₂ hn₂ hm₂ r) = round x n₂ m₂ hn₂ hm₂ r

/-- A view built from a view that is finer at every price is the direct view. -/
theorem roll_of_refines {x : Side} {n₁ n₂ : ℕ} {mant₁ mant₂ : Option ℕ} (hn₁ : 2 ≤ n₁)
    (hm₁ : mant₁.getD 1 ∣ 10) (hn₂ : 2 ≤ n₂) (hm₂ : mant₂.getD 1 ∣ 10)
    {es : List (Ranked x × ℕ × ℕ)}
    (hfit₁ : ∀ e ∈ es, FitsWord x n₁ (mant₁.getD 1) e.1.px)
    (hfit₂ : ∀ e ∈ es, FitsWord x n₂ (mant₂.getD 1) e.1.px)
    (href : ∀ e ∈ es, Refines n₁ (mant₁.getD 1) n₂ (mant₂.getD 1) hn₁ hm₁ hn₂ hm₂ e.1) :
    roll mergeSums (rankedBucket x (some n₂) mant₂) none
        (roll mergeSums (rankedBucket x (some n₁) mant₁) none es) =
      roll mergeSums (rankedBucket x (some n₂) mant₂) none es := by
  rw [roll_rankedBucket hn₁ mant₁ hm₁ hfit₁, roll_rankedBucket hn₂ mant₂ hm₂ hfit₂,
    roll_rankedBucket hn₂ mant₂ hm₂]
  · exact roll_roll es href
  · -- The prices of the finer view fit because their rounding is that of a price of the book.
    intro q hq
    obtain ⟨_, hd, _⟩ | ⟨e, he, hqe⟩ := fst_of_mem_roll none _ hq
    · cases hd
    · have hc := closure_closure (href e he)
      rw [hqe]
      refine ⟨px_round_le hn₁ hm₁ (hfit₁ e he), fun hx => ?_⟩
      subst hx
      change (round .ask n₂ _ hn₂ hm₂ (round .ask n₁ _ hn₁ hm₁ e.1)).px < _
      rw [hc]
      exact (hfit₂ e he).2 rfl

theorem refines_of_width_dvd {x : Side} {n₁ m₁ n₂ m₂ : ℕ} {hn₁ : 2 ≤ n₁} {hm₁ : m₁ ∣ 10}
    {hn₂ : 2 ≤ n₂} {hm₂ : m₂ ∣ 10} {r : Ranked x}
    (h : width n₁ m₁ (round x n₂ m₂ hn₂ hm₂ r).px ∣ width n₂ m₂ (round x n₂ m₂ hn₂ hm₂ r).px) :
    Refines n₁ m₁ n₂ m₂ hn₁ hm₁ hn₂ hm₂ r :=
  round_eq_iff.mpr (h.trans (onGrid_round hn₂ hm₂ r))

/-- Fewer figures and a multiple of the mantissa make a coarser grid. -/
theorem refines_of_le {x : Side} {n₁ m₁ n₂ m₂ : ℕ} {hn₁ : 2 ≤ n₁} {hm₁ : m₁ ∣ 10}
    {hn₂ : 2 ≤ n₂} {hm₂ : m₂ ∣ 10} (hn : n₂ ≤ n₁) (hm : m₁ ∣ m₂) (r : Ranked x) :
    Refines n₁ m₁ n₂ m₂ hn₁ hm₁ hn₂ hm₂ r :=
  refines_of_width_dvd (mul_dvd_mul hm (pow_dvd_pow 10 (by omega)))

theorem width_of_lt {n : ℕ} (hn : 4 ≤ n) (m : ℕ) {q : ℕ} (hq : q < 10 ^ 4) : width n m q = m := by
  have hd : digits q ≤ 4 := (digits_le_iff (by omega)).mpr hq
  rw [width, Nat.sub_eq_zero_of_le (by omega), pow_zero, Nat.mul_one]

/-- From five digits on, four figures are coarser than five with mantissa five. -/
theorem width_five_five_dvd {q : ℕ} (hq : 10 ^ 4 ≤ q) : width 5 5 q ∣ width 4 1 q := by
  have hd : 5 ≤ digits q := by
    by_contra hlt
    exact absurd ((digits_le_iff (by omega)).mp (by omega : digits q ≤ 4)) (not_lt.mpr hq)
  have hpow : digits q - 4 = digits q - 5 + 1 := by omega
  rw [width, width, hpow, pow_succ', Nat.one_mul]
  exact Nat.mul_dvd_mul_right (by decide) _

/-- Four figures do not touch a price below five digits. -/
theorem round_four_of_lt {x : Side} {r : Ranked x} (hr : r.px < 10 ^ 4) :
    round x 4 1 (by omega) (by decide) r = r := by
  rw [round_eq_iff, OnGrid, width_of_lt le_rfl 1 hr]
  exact one_dvd _

/-- Four figures keep a price of five digits or more above four. -/
theorem le_round_four {x : Side} {r : Ranked x} (hr : 10 ^ 4 ≤ r.px) :
    10 ^ 4 ≤ (round x 4 1 (by omega) (by decide) r).px := by
  cases x with
  | ask => exact hr.trans (le_roundUp (by decide) 4 r.px)
  | bid => exact le_roundDown_of_onGrid (n := 4) (m := 1) (by omega) (by decide) hr (by decide +kernel)

/-- Five figures with mantissa five refine four figures from five digits on, and
below five digits at the multiples of five. -/
theorem refines_five_five_iff {x : Side} {r : Ranked x} :
    Refines 5 5 4 1 (by omega) (by decide) (by omega) (by decide) r ↔
      (r.px < 10 ^ 4 → 5 ∣ r.px) := by
  by_cases hr : r.px < 10 ^ 4
  · rw [Refines, round_four_of_lt hr, round_eq_iff, OnGrid, width_of_lt (by omega) 5 hr]
    exact ⟨fun h _ => h, fun h => h hr⟩
  · exact ⟨fun _ h => absurd h hr,
      fun _ => refines_of_width_dvd (width_five_five_dvd (le_round_four (not_lt.mp hr)))⟩

/-! ### The cascade -/

section Cascade

variable {O : Type} [InnerOrder O]

/-- The figures and mantissas of the views that are bucketed. -/
def viewParams : List (ℕ × ℕ) := [(5, 1), (5, 2), (5, 5), (4, 1), (3, 1), (2, 1)]

/-- No rounding of a price of the book leaves the word. -/
def OrderBook.FitsWords (b : OrderBook O) : Prop :=
  ∀ x, ∀ e ∈ (b.levels x).entries, ∀ v ∈ viewParams, FitsWord x v.1 v.2 e.1

theorem OrderBook.FitsWords.rawEntries {b : OrderBook O} (h : b.FitsWords) {x : Side}
    {v : ℕ × ℕ} (hv : v ∈ viewParams) :
    ∀ e ∈ rawEntries x (b.levels x), FitsWord x v.1 v.2 e.1.px := by
  intro e he
  obtain ⟨list, hl⟩ := mem_rawEntries he
  exact h x _ hl v hv

theorem snapshot_eq_of_entries {s s' : Snapshot InnerLevel}
    (h : ∀ x, viewEntriesOf x (s.orders x) = viewEntriesOf x (s'.orders x)) : s = s' :=
  Snapshot.ext_orders fun x => viewEntriesOf_injective x (h x)

/-- Bucketing the unrounded view is bucketing the book. -/
theorem view_of_unrounded {b : OrderBook O} (n : ℕ) (mantissa : Option ℕ) (hn : 2 ≤ n)
    (hm : mantissa.getD 1 ∣ 10)
    (hfit : ∀ x, ∀ e ∈ rawEntries x (b.levels x), FitsWord x n (mantissa.getD 1) e.1.px) :
    (b.toL2Snapshot none none none).toL2Snapshot none (some n) mantissa =
      b.toL2Snapshot none (some n) mantissa := by
  apply snapshot_eq_of_entries
  intro x
  rw [snapshot_toL2Snapshot_orders, toL2Snapshot_orders, toL2Snapshot_orders]
  have hid : ∀ r, rankedBucket x none none r = ClosureOperator.id (Ranked x) r := by
    intro r; simp [rankedBucket, bucket]
  rw [roll_congr none (rawEntries x (b.levels x)) fun e _ => hid e.1, roll_rankedBucket hn mantissa hm (hfit x),
    roll_rankedBucket hn mantissa hm]
  · exact roll_roll _ fun _ _ => rfl
  · intro q hq
    obtain ⟨_, hd, _⟩ | ⟨e, he, hqe⟩ := fst_of_mem_roll none _ hq
    · cases hd
    · rw [hqe]
      exact hfit x e he

/-- Bucketing a direct view that is finer at every price of the book gives a
direct view. -/
theorem view_of_refines {b : OrderBook O} (hb : b.FitsWords) (n₁ n₂ : ℕ) (mant₁ mant₂ : Option ℕ)
    (hn₁ : 2 ≤ n₁) (hm₁ : mant₁.getD 1 ∣ 10) (hn₂ : 2 ≤ n₂) (hm₂ : mant₂.getD 1 ∣ 10)
    (hv₁ : (n₁, mant₁.getD 1) ∈ viewParams) (hv₂ : (n₂, mant₂.getD 1) ∈ viewParams)
    (href : ∀ x, ∀ e ∈ rawEntries x (b.levels x),
      Refines n₁ (mant₁.getD 1) n₂ (mant₂.getD 1) hn₁ hm₁ hn₂ hm₂ e.1) :
    (b.toL2Snapshot none (some n₁) mant₁).toL2Snapshot none (some n₂) mant₂ =
      b.toL2Snapshot none (some n₂) mant₂ := by
  apply snapshot_eq_of_entries
  intro x
  rw [snapshot_toL2Snapshot_orders, toL2Snapshot_orders, toL2Snapshot_orders]
  exact roll_of_refines hn₁ hm₁ hn₂ hm₂ (hb.rawEntries hv₁) (hb.rawEntries hv₂) (href x)

/-- The four-figure view as it is built. -/
def builtFour (b : OrderBook O) : Snapshot InnerLevel :=
  (b.toL2Snapshot none (some 5) (some 5)).toL2Snapshot none (some 4) none

/-- Up to the four-figure view every view is direct, and the later ones are direct
with it. -/
theorem viewEntries_of_fits {b : OrderBook O} (hb : b.FitsWords) :
    viewEntries b =
      [(⟨none, none⟩, b.toL2Snapshot none none none),
        (⟨some 5, none⟩, b.toL2Snapshot none (some 5) none),
        (⟨some 5, some 2⟩, b.toL2Snapshot none (some 5) (some 2)),
        (⟨some 5, some 5⟩, b.toL2Snapshot none (some 5) (some 5)),
        (⟨some 4, none⟩, builtFour b),
        (⟨some 3, none⟩, (builtFour b).toL2Snapshot none (some 3) none),
        (⟨some 2, none⟩,
          ((builtFour b).toL2Snapshot none (some 3) none).toL2Snapshot none (some 2) none)] := by
  have h5 := view_of_unrounded (b := b) 5 none (by omega) (by decide)
    fun x => hb.rawEntries (v := (5, 1)) (by decide)
  have h52 := view_of_refines hb 5 5 none (some 2) (by omega)
    (by decide) (by omega) (by decide) (by decide) (by decide)
    fun x e _ => refines_of_le le_rfl (by decide) e.1
  have h55 := view_of_refines hb 5 5 none (some 5) (by omega)
    (by decide) (by omega) (by decide) (by decide) (by decide)
    fun x e _ => refines_of_le le_rfl (by decide) e.1
  rw [viewEntries_eq]
  simp only [h5, h52, h55, builtFour]

/-- Where every price below five digits is a multiple of five, all views are direct. -/
theorem viewEntries_direct {b : OrderBook O} (hb : b.FitsWords)
    (hsmall : ∀ x, ∀ e ∈ (b.levels x).entries, e.1 < 10 ^ 4 → 5 ∣ e.1) {params : L2SnapshotParams}
    {view : Snapshot InnerLevel} (h : (params, view) ∈ viewEntries b) :
    view = b.toL2Snapshot none params.nSigFigs params.mantissa := by
  have h4 : builtFour b = b.toL2Snapshot none (some 4) none := by
    refine view_of_refines hb 5 4 (some 5) none (by omega)
      (by decide) (by omega) (by decide) (by decide) (by decide) ?_
    intro x e he
    obtain ⟨list, hl⟩ := mem_rawEntries he
    exact refines_five_five_iff.mpr (hsmall x _ hl)
  have h3 := view_of_refines hb 4 3 none none (by omega)
    (by decide) (by omega) (by decide) (by decide) (by decide)
    fun x e _ => refines_of_le (by omega) (by decide) e.1
  have h2 := view_of_refines hb 3 2 none none (by omega)
    (by decide) (by omega) (by decide) (by decide) (by decide)
    fun x e _ => refines_of_le (by omega) (by decide) e.1
  rw [viewEntries_of_fits hb, h4, h3, h2] at h
  simp only [List.mem_cons, List.not_mem_nil, or_false, Prod.mk.injEq] at h
  obtain ⟨rfl, rfl⟩ | ⟨rfl, rfl⟩ | ⟨rfl, rfl⟩ | ⟨rfl, rfl⟩ | ⟨rfl, rfl⟩ | ⟨rfl, rfl⟩ | ⟨rfl, rfl⟩ := h <;> rfl

/-- A bucket of the four-figure view as built that lies below five digits is a
multiple of five. -/
theorem five_dvd_of_mem_builtFour {b : OrderBook O} (hb : b.FitsWords) {x : Side}
    {q : Ranked x × ℕ × ℕ} (hq : q ∈ viewEntriesOf x ((builtFour b).orders x)) (hlt : q.1.px < 10 ^ 4) :
    5 ∣ q.1.px := by
  have hfit4 := hb.rawEntries (x := x) (v := (4, 1)) (by decide)
  have hfit55 := hb.rawEntries (x := x) (v := (5, 5)) (by decide)
  rw [builtFour, snapshot_toL2Snapshot_orders, toL2Snapshot_orders,
    roll_rankedBucket (n := 5) (by omega) (some 5) (by decide) hfit55] at hq
  obtain ⟨_, hd, _⟩ | ⟨f, hf, hqf⟩ := fst_of_mem_roll none _ hq
  · cases hd
  obtain ⟨_, hd, _⟩ | ⟨e, he, hfe⟩ := fst_of_mem_roll none _ hf
  · cases hd
  -- The price of the built bucket is a rounding of a rounding by five.
  have hgrid : OnGrid 5 5 f.1.px := hfe ▸ onGrid_round (by omega) (by decide) e.1
  have hfits : FitsWord x 4 1 f.1.px := by
    refine ⟨hfe ▸ px_round_le (by omega) (by decide) (hfit55 e he), ?_⟩
    rintro rfl
    by_cases hs : e.1.px < 10 ^ 4
    · have hup : f.1.px ≤ 10 ^ 4 := by
        rw [hfe]
        exact roundUp_le_of_onGrid (n := 5) (m := 5) (by omega) (by decide) hs.le (by decide +kernel)
      calc roundUp 4 1 f.1.px ≤ 10 ^ 4 :=
            roundUp_le_of_onGrid (by omega) (by decide) hup (by decide +kernel)
        _ < U64.modulus := by decide
    · have href := refines_five_five_iff (r := e.1)
      have hc := closure_closure (href.mpr fun h => absurd h hs)
      change (round .ask 4 1 (by omega) (by decide) f.1).px < _
      rw [hfe]
      change (round .ask 4 1 _ _ (round .ask 5 5 _ _ e.1)).px < _
      rw [hc]
      exact (hfit4 e he).2 rfl
  rw [rankedBucket_eq_round (n := 4) (by omega) none (by decide) hfits] at hqf
  have hsmall : f.1.px < 10 ^ 4 := by
    by_contra hge
    exact absurd (hqf ▸ hlt) (not_lt.mpr (le_round_four (not_lt.mp hge)))
  have hsame : q.1 = f.1 := hqf.trans (round_four_of_lt hsmall)
  rw [hsame]
  rwa [OnGrid, width_of_lt (by omega) 5 hsmall] at hgrid

/-- If the four-figure view is direct, every price below five digits is a multiple
of five. -/
theorem five_dvd_of_builtFour_direct {b : OrderBook O} (hb : b.FitsWords)
    (h : builtFour b = b.toL2Snapshot none (some 4) none) :
    ∀ x, ∀ e ∈ (b.levels x).entries, e.1 < 10 ^ 4 → 5 ∣ e.1 := by
  intro x f hf hlt
  obtain ⟨e, he, hef⟩ := exists_mem_rawEntries (x := x) hf
  have hpx : e.1.px = f.1 := by rw [hef, px_rank]
  have hmem := closure_mem_roll mergeSums (c := round x 4 1 (by omega) (by decide)) none
    (rawEntries x (b.levels x)) (by simp) ((rawEntries_increasing x (b.levels x)).imp le_of_lt) he
  rw [round_four_of_lt (hpx ▸ hlt)] at hmem
  obtain ⟨q, hq, hqe⟩ := List.mem_map.mp hmem
  have hfit4 := hb.rawEntries (x := x) (v := (4, 1)) (by decide)
  have hdirect : viewEntriesOf x ((builtFour b).orders x) =
      roll mergeSums (round x 4 1 (by omega) (by decide)) none (rawEntries x (b.levels x)) := by
    rw [h, toL2Snapshot_orders,
      roll_rankedBucket (n := 4) (by omega) none (by decide) hfit4]
    rfl
  rw [← hpx, ← hqe]
  exact five_dvd_of_mem_builtFour hb (hdirect ▸ hq) (by rw [hqe, hpx]; exact hlt)

/-- Every stored view of a refreshed coin is the direct aggregation of its book
exactly when each of its prices below five digits is a multiple of five. -/
theorem stored_views_direct_iff (orderBooks : OrderBooks O) (cached : L2Snapshots)
    (dirty : Finset Coin) {coin : Coin} {b : OrderBook O} (hdirty : coin ∈ dirty)
    (hbook : orderBooks.lookup coin = some b) (hfits : b.FitsWords) :
    (∀ views params view, (refreshL2Snapshots orderBooks cached dirty).lookup coin = some views →
        views.lookup params = some view →
        view = b.toL2Snapshot none params.nSigFigs params.mantissa) ↔
      ∀ x, ∀ e ∈ (b.levels x).entries, e.1 < 10 ^ 4 → 5 ∣ e.1 := by
  rw [lookup_refreshL2Snapshots, if_pos hdirty, hbook]
  simp only [Option.map_some, Option.some_or, Option.some.injEq]
  constructor
  · intro h
    apply five_dvd_of_builtFour_direct hfits
    refine h (coinViews b) ⟨some 4, none⟩ (builtFour b) rfl ?_
    rw [lookup_coinViews, viewEntries_of_fits hfits]
    simp
  · rintro hsmall _ params view rfl hview
    exact viewEntries_direct hfits hsmall ((lookup_coinViews b params view).mp hview)

end Cascade

/-- A bid at 1234 on its own is shown at 1230 with four significant figures. -/
theorem stored_view_of_1234_not_direct :
    let coin : Coin := ⟨"kTOKEN"⟩
    let b := OrderBook.new.addOrder (MinimalOrder.new 0 10 1234 .bid)
    b.FitsWords ∧
    ∃ views, (refreshL2Snapshots (Finmap.singleton coin b) ∅ {coin}).lookup coin = some views ∧
      views.lookup ⟨some 4, none⟩ = some ⟨[⟨1230, 10, 1⟩], []⟩ ∧
      b.toL2Snapshot none (some 4) none = ⟨[⟨1234, 10, 1⟩], []⟩ := by
  intro coin b
  refine ⟨?_, coinViews b, ?_, ?_, ?_⟩
  · intro x
    cases x <;> decide +kernel
  · rw [lookup_refreshL2Snapshots]
    simp
  · rw [lookup_coinViews, viewEntries_eq]
    simp
    decide +kernel
  · decide +kernel

/-- A bid at 123450 and an ask at 999995, whose views are all direct. -/
theorem stored_views_direct_iff_two_orders :
    let coin : Coin := ⟨"kTOKEN"⟩
    let b := (OrderBook.new.addOrder (MinimalOrder.new 0 10 123450 .bid)).addOrder
      (MinimalOrder.new 1 20 999995 .ask)
    ∀ views params view,
      (refreshL2Snapshots (Finmap.singleton coin b) ∅ {coin}).lookup coin = some views →
      views.lookup params = some view →
      view = b.toL2Snapshot none params.nSigFigs params.mantissa := by
  intro coin b
  refine (stored_views_direct_iff (Finmap.singleton coin b) ∅ {coin} (by simp)
    (Finmap.lookup_singleton_eq) ?_).mpr ?_
  · intro x
    cases x <;> decide +kernel
  · intro x
    cases x <;> decide +kernel

end OrderBookServer
