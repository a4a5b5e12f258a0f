import OrderBookServer.Listener
import OrderBookServer.Results

/-!
# What a validation compares

A snapshot that is found consistent with the one expected has the same orders, of every
coin that is not ignored: a book that one of them lacks is empty in the other.
-/
namespace OrderBookServer

/-- There is one order in which to visit one coin. -/
theorem MapOrder.visit_singleton (mapOrder : MapOrder) (coin : Coin) :
    mapOrder.visit {coin} = [coin] := by
  rw [← List.perm_singleton, List.perm_ext_iff_of_nodup (mapOrder.visit_nodup _)
    (List.nodup_singleton coin)]
  intro c
  rw [mapOrder.mem_visit, Finset.mem_singleton, List.mem_singleton]

variable {O : Type} [DecidableEq O]

/-- The book of a coin, empty where there is none. -/
def snapshotBook (snapshot : Snapshots O) (coin : Coin) : Snapshot O :=
  (snapshot.lookup coin).getD ⟨[], []⟩

theorem eq_of_zip {as bs : List O} (hlength : as.length = bs.length)
    (h : (as.zip bs).any (fun e => e.1 ≠ e.2) = false) : as = bs := by
  induction as generalizing bs with
  | nil => exact (List.length_eq_zero_iff.mp hlength.symm).symm
  | cons a as ih =>
    cases bs with
    | nil => cases hlength
    | cons b bs =>
      rw [List.zip_cons_cons, List.any_cons, Bool.or_eq_false_iff] at h
      have hhead : a = b := by simpa using h.1
      rw [hhead, ih (Nat.succ.inj hlength) h.2]

theorem zip_self_any (as : List O) : (as.zip as).any (fun e => e.1 ≠ e.2) = false := by
  induction as with
  | nil => rfl
  | cons a as ih =>
    rw [List.zip_cons_cons, List.any_cons, ih]
    simp

/-- Only equal books pass, and every book passes against itself. -/
theorem validateBook_eq_ok_iff (coin : Coin) {book1 book2 : Snapshot O} :
    validateBook coin book1 book2 = .ok () ↔ book1 = book2 := by
  constructor
  · intro h
    unfold validateBook at h
    split_ifs at h with hlength hdiffers
    rw [not_or, not_not, not_not] at hlength
    rw [not_or, Bool.not_eq_true, Bool.not_eq_true] at hdiffers
    obtain ⟨bids, asks⟩ := book1
    obtain ⟨bids', asks'⟩ := book2
    obtain rfl : bids = bids' := eq_of_zip hlength.1 hdiffers.1
    obtain rfl : asks = asks' := eq_of_zip hlength.2 hdiffers.2
    rfl
  · rintro rfl
    unfold validateBook
    rw [if_neg (by omega), zip_self_any, zip_self_any, if_neg (by simp)]

omit [DecidableEq O] in
theorem isEmpty_iff {book : Snapshot O} : book.isEmpty = true ↔ book = ⟨[], []⟩ := by
  obtain ⟨bids, asks⟩ := book
  rw [Snapshot.isEmpty, Bool.and_eq_true, List.isEmpty_iff, List.isEmpty_iff, Snapshot.mk.injEq]

/-- What the loop asks of a book it visits. -/
def Passes (snapshot snapshotMap : Snapshots O) (ignoreSpot : Bool) (coin : Coin) : Prop :=
  ¬ coin.Ignored ignoreSpot → ∀ book, snapshot.lookup coin = some book →
    book = snapshotBook snapshotMap coin

/-- A coin whose book the loop takes off the map. -/
def Found (snapshot : Snapshots O) (ignoreSpot : Bool) (coin : Coin) : Prop :=
  ¬ coin.Ignored ignoreSpot ∧ (snapshot.lookup coin).isSome = true

instance (snapshot : Snapshots O) (ignoreSpot : Bool) (coin : Coin) :
    Decidable (Found snapshot ignoreSpot coin) := inferInstanceAs (Decidable (_ ∧ _))

theorem validateBooks_cons {snapshot snapshotMap left : Snapshots O} {ignoreSpot : Bool} {c : Coin}
    {coins : List Coin} :
    validateBooks snapshot ignoreSpot (c :: coins) snapshotMap = .ok left ↔
      Passes snapshot snapshotMap ignoreSpot c ∧
      validateBooks snapshot ignoreSpot coins
        (if Found snapshot ignoreSpot c then snapshotMap.erase c else snapshotMap) = .ok left := by
  have hspot : c.Ignored ignoreSpot ↔ (ignoreSpot && c.isSpot) = true := by
    rw [Coin.Ignored, Bool.and_comm]
  rw [validateBooks]
  cases hbook : snapshot.lookup c with
  | none =>
    have hfound : ¬ Found snapshot ignoreSpot c := by simp [Found, hbook]
    have hpasses : Passes snapshot snapshotMap ignoreSpot c := by simp [Passes, hbook]
    rw [if_neg hfound, and_iff_right hpasses]
  | some book1 =>
    dsimp only
    by_cases hignored : c.Ignored ignoreSpot
    · have hpasses : Passes snapshot snapshotMap ignoreSpot c := absurd hignored
      rw [if_pos (hspot.mp hignored), if_neg (fun hfound => hfound.1 hignored),
        and_iff_right hpasses]
    · have hpasses : Passes snapshot snapshotMap ignoreSpot c ↔ book1 = snapshotBook snapshotMap c := by
        rw [Passes, hbook]
        exact ⟨fun h => h hignored book1 rfl, fun h _ book he => Option.some.inj he ▸ h⟩
      have hfound : Found snapshot ignoreSpot c := ⟨hignored, by rw [hbook, Option.isSome_some]⟩
      rw [if_neg (mt hspot.mpr hignored), if_pos hfound, hpasses, snapshotBook]
      cases hexpected : snapshotMap.lookup c with
      | none =>
        have herase : snapshotMap.erase c = snapshotMap := by
          apply Finmap.ext_lookup
          intro coin
          rw [HashMap.lookup_erase_ite]
          split_ifs with heq
          · rw [heq, hexpected]
          · rfl
        dsimp only
        rw [herase, Option.getD_none, ← isEmpty_iff]
        by_cases hempty : book1.isEmpty = true
        · rw [if_pos hempty, and_iff_right hempty]
        · rw [if_neg hempty]
          exact iff_of_false (fun h => by cases h) fun h => hempty h.1
      | some book2 =>
        dsimp only
        rw [bind_eq_ok, Option.getD_some, ← validateBook_eq_ok_iff c]
        exact ⟨fun ⟨_, hvalid, hrest⟩ => ⟨hvalid, hrest⟩, fun ⟨hvalid, hrest⟩ => ⟨(), hvalid, hrest⟩⟩

/-- The loop passes the books that are equal to those expected, and takes them off. -/
theorem validateBooks_eq_ok_iff {snapshot snapshotMap left : Snapshots O} {ignoreSpot : Bool}
    {coins : List Coin} (hnodup : coins.Nodup) :
    validateBooks snapshot ignoreSpot coins snapshotMap = .ok left ↔
      (∀ coin ∈ coins, Passes snapshot snapshotMap ignoreSpot coin) ∧
      left = snapshotMap.restrict fun coin => ¬ (coin ∈ coins ∧ Found snapshot ignoreSpot coin) := by
  induction coins generalizing snapshotMap with
  | nil =>
    have hall : snapshotMap.restrict (fun coin => ¬ (coin ∈ ([] : List Coin) ∧
        Found snapshot ignoreSpot coin)) = snapshotMap := by
      apply Finmap.ext_lookup
      simp
    rw [hall]
    simp [validateBooks, eq_comm]
  | cons c coins ih =>
    obtain ⟨hc, hnodup⟩ := List.nodup_cons.mp hnodup
    rw [validateBooks_cons, ih hnodup, List.forall_mem_cons, and_assoc]
    apply and_congr_right
    intro _
    have hlookup {coin : Coin} (hne : coin ≠ c) :
        (if Found snapshot ignoreSpot c then snapshotMap.erase c else snapshotMap).lookup coin =
          snapshotMap.lookup coin := by
      split_ifs
      · exact Finmap.lookup_erase_ne hne
      · rfl
    apply and_congr
    · apply forall₂_congr
      intro coin hmem
      have hne : coin ≠ c := fun heq => hc (heq ▸ hmem)
      rw [Passes, Passes, snapshotBook, snapshotBook, hlookup hne]
    · suffices hrest : HashMap.restrict (fun coin => ¬ (coin ∈ coins ∧ Found snapshot ignoreSpot coin))
          (if Found snapshot ignoreSpot c then snapshotMap.erase c else snapshotMap) =
          snapshotMap.restrict fun coin => ¬ (coin ∈ c :: coins ∧ Found snapshot ignoreSpot coin) by
        rw [hrest]
      apply Finmap.ext_lookup
      intro coin
      rw [HashMap.lookup_restrict, HashMap.lookup_restrict]
      by_cases heq : coin = c
      · subst heq
        by_cases hfound : Found snapshot ignoreSpot coin
        · simp [hc, hfound]
        · simp [hfound]
      · rw [hlookup heq]
        simp [heq]

/-- The books of every coin that is not ignored are equal; a book that is missing is empty. -/
def SameBooks (ignoreSpot : Bool) (snapshot expected : Snapshots O) : Prop :=
  ∀ coin : Coin, ¬ coin.Ignored ignoreSpot → snapshotBook snapshot coin = snapshotBook expected coin

/-- The coins that only the snapshot expected has a book of. -/
def Added (ignoreSpot : Bool) (snapshot expected : Snapshots O) (coin : Coin) : Prop :=
  ¬ coin.Ignored ignoreSpot ∧ coin ∈ expected ∧ coin ∉ snapshot

section Verdict

variable {mapOrder : MapOrder} {snapshot expected : Snapshots O} {ignoreSpot : Bool}

omit [DecidableEq O] in
/-- The books that the loop leaves are those that are added. -/
theorem lookup_left (mapOrder : MapOrder) (snapshot expected : Snapshots O) (ignoreSpot : Bool)
    (coin : Coin) : ((expected.restrict fun coin => !coin.isSpot || !ignoreSpot).restrict fun coin =>
        ¬ (coin ∈ mapOrder.visit snapshot.keys ∧ Found snapshot ignoreSpot coin)).lookup coin =
      if ¬ coin.Ignored ignoreSpot ∧ coin ∉ snapshot then expected.lookup coin else none := by
  have hkept : (!coin.isSpot || !ignoreSpot) = true ↔ ¬ coin.Ignored ignoreSpot := by
    rw [← Bool.not_and, Bool.not_eq_true', Coin.Ignored, Bool.not_eq_true]
  have hvisit : coin ∈ mapOrder.visit snapshot.keys ↔ coin ∈ snapshot := by
    rw [mapOrder.mem_visit, Finmap.mem_keys]
  have hfound : Found snapshot ignoreSpot coin ↔ ¬ coin.Ignored ignoreSpot ∧ coin ∈ snapshot := by
    rw [Found, Finmap.lookup_isSome]
  rw [HashMap.lookup_restrict, HashMap.lookup_restrict]
  simp only [decide_eq_true_eq, hvisit, hfound]
  by_cases hignored : coin.Ignored ignoreSpot
  · rw [if_neg (mt hkept.mp (not_not.mpr hignored)), ite_self, if_neg (fun h => h.1 hignored)]
  · rw [if_pos (hkept.mpr hignored)]
    simp [hignored]

omit [DecidableEq O] in
/-- The loop passes and leaves no order exactly when all books are the same. -/
theorem sameBooks_iff : SameBooks ignoreSpot snapshot expected ↔
    (∀ coin ∈ snapshot, Passes snapshot expected ignoreSpot coin) ∧
    ∀ coin, Added ignoreSpot snapshot expected coin → expected.lookup coin = some ⟨[], []⟩ := by
  constructor
  · intro h
    refine ⟨fun coin _ hkept book hbook => ?_, fun coin ⟨hkept, hmem, hnot⟩ => ?_⟩
    · have hsame := h coin hkept
      rwa [snapshotBook, hbook, Option.getD_some] at hsame
    · have hsame := h coin hkept
      obtain ⟨book, hbook⟩ := Finmap.mem_iff.mp hmem
      rw [snapshotBook, snapshotBook, Finmap.lookup_eq_none.mpr hnot, hbook, Option.getD_none,
        Option.getD_some] at hsame
      rw [hbook, ← hsame]
  · rintro ⟨hpasses, hadded⟩ coin hkept
    cases hbook : snapshot.lookup coin with
    | some book =>
      have hmem : coin ∈ snapshot := Finmap.mem_iff.mpr ⟨book, hbook⟩
      rw [snapshotBook, hbook, Option.getD_some]
      exact hpasses coin hmem hkept book hbook
    | none =>
      have hnot : coin ∉ snapshot := Finmap.lookup_eq_none.mp hbook
      rw [snapshotBook, hbook, Option.getD_none, snapshotBook]
      by_cases hmem : coin ∈ expected
      · rw [hadded coin ⟨hkept, hmem, hnot⟩, Option.getD_some]
      · rw [Finmap.lookup_eq_none.mpr hmem, Option.getD_none]

omit [DecidableEq O] in
/-- What is left is told to be empty, or to hold only empty books. -/
theorem verdict_eq_ok_iff {left : Snapshots O} (consistency : SnapshotConsistency)
    (hleft : ∀ coin, left.lookup coin =
      if ¬ coin.Ignored ignoreSpot ∧ coin ∉ snapshot then expected.lookup coin else none) :
    (if ∃ coin ∈ left.keys, (left.lookup coin).any (fun book => !book.isEmpty) then
        Except.error Divergence.extraBooks
      else if left.keys = ∅ then return .equal else return .emptyBooksAdded) = .ok consistency ↔
      (∀ coin, Added ignoreSpot snapshot expected coin → expected.lookup coin = some ⟨[], []⟩) ∧
      (consistency = .equal ↔ ∀ coin, ¬ Added ignoreSpot snapshot expected coin) := by
  have hadded (coin : Coin) : coin ∈ left.keys ↔ Added ignoreSpot snapshot expected coin := by
    rw [Finmap.mem_keys, ← Finmap.lookup_isSome, hleft, Added, ← Finmap.lookup_isSome (s := expected)]
    split_ifs with h
    · exact ⟨fun hmem => ⟨h.1, hmem, h.2⟩, fun h => h.2.1⟩
    · exact ⟨fun hmem => absurd hmem Bool.false_ne_true, fun hadded => absurd ⟨hadded.1, hadded.2.2⟩ h⟩
  have hbook {coin : Coin} (h : Added ignoreSpot snapshot expected coin) :
      left.lookup coin = expected.lookup coin := by
    rw [hleft, if_pos ⟨h.1, h.2.2⟩]
  have hextra : (∃ coin ∈ left.keys, (left.lookup coin).any (fun book => !book.isEmpty) = true) ↔
      ¬ ∀ coin, Added ignoreSpot snapshot expected coin → expected.lookup coin = some ⟨[], []⟩ := by
    push Not
    apply exists_congr
    intro coin
    rw [hadded]
    apply and_congr_right
    intro h
    obtain ⟨book, hsome⟩ := Finmap.mem_iff.mp h.2.1
    rw [hbook h, hsome, Option.any_some, Bool.not_eq_true', ← Bool.not_eq_true, isEmpty_iff, ne_eq,
      Option.some.injEq]
  have hnone : left.keys = ∅ ↔ ∀ coin, ¬ Added ignoreSpot snapshot expected coin := by
    rw [Finset.eq_empty_iff_forall_notMem]
    apply forall_congr'
    intro coin
    rw [hadded]
  by_cases hempty : ∀ coin, Added ignoreSpot snapshot expected coin → expected.lookup coin = some ⟨[], []⟩
  · rw [if_neg (fun h => hextra.mp h hempty), and_iff_right hempty, ← hnone]
    split_ifs with hkeys
    · cases consistency <;> simp [pure, Except.pure, hkeys]
    · cases consistency <;> simp [pure, Except.pure, hkeys]
  · rw [if_pos (hextra.mpr hempty)]
    exact iff_of_false (fun h => by cases h) fun h => hempty h.1

/-- The validation passes when the books are the same, and then says whether any is added. -/
theorem validateSnapshotConsistency_eq_ok_iff {consistency : SnapshotConsistency} :
    validateSnapshotConsistency mapOrder snapshot expected ignoreSpot = .ok consistency ↔
      SameBooks ignoreSpot snapshot expected ∧
      (consistency = .equal ↔ ∀ coin, ¬ Added ignoreSpot snapshot expected coin) := by
  have hpasses (coin : Coin) :
      Passes snapshot (expected.restrict fun coin => !coin.isSpot || !ignoreSpot) ignoreSpot coin ↔
        Passes snapshot expected ignoreSpot coin := by
    apply imp_congr_right
    intro hkept
    have hnot : (!coin.isSpot || !ignoreSpot) = true := by
      rw [← Bool.not_and, Bool.not_eq_true']
      exact Bool.not_eq_true _ ▸ hkept
    rw [snapshotBook, HashMap.lookup_restrict, if_pos hnot, snapshotBook]
  have hvisit (coin : Coin) : coin ∈ mapOrder.visit snapshot.keys ↔ coin ∈ snapshot := by
    rw [mapOrder.mem_visit, Finmap.mem_keys]
  have hverdict := verdict_eq_ok_iff consistency
    (lookup_left mapOrder snapshot expected ignoreSpot)
  unfold validateSnapshotConsistency
  dsimp only
  rw [bind_eq_ok, sameBooks_iff, and_assoc, ← hverdict]
  constructor
  · rintro ⟨left, hloop, h⟩
    obtain ⟨hall, rfl⟩ := (validateBooks_eq_ok_iff (mapOrder.visit_nodup _)).mp hloop
    exact ⟨fun coin hmem => (hpasses coin).mp (hall coin ((hvisit coin).mpr hmem)), h⟩
  · rintro ⟨hall, h⟩
    refine ⟨_, (validateBooks_eq_ok_iff (mapOrder.visit_nodup _)).mpr ⟨fun coin hmem => ?_, rfl⟩, h⟩
    exact (hpasses coin).mpr (hall coin ((hvisit coin).mp hmem))

/-- Consistent snapshots have equal books, of every coin that is not ignored. -/
theorem eq_of_validateSnapshotConsistency {consistency : SnapshotConsistency}
    (h : validateSnapshotConsistency mapOrder snapshot expected ignoreSpot = .ok consistency)
    {coin : Coin} (hkept : ¬ coin.Ignored ignoreSpot) :
    snapshotBook snapshot coin = snapshotBook expected coin :=
  (validateSnapshotConsistency_eq_ok_iff.mp h).1 coin hkept

omit [DecidableEq O] in
/-- Books of ignored coins have no part in the verdict. -/
theorem Added.congr {snapshot' expected' : Snapshots O}
    (hsnapshot : ∀ coin : Coin, ¬ coin.Ignored ignoreSpot → snapshot'.lookup coin = snapshot.lookup coin)
    (hexpected : ∀ coin : Coin, ¬ coin.Ignored ignoreSpot →
      expected'.lookup coin = expected.lookup coin) (coin : Coin) :
    Added ignoreSpot snapshot' expected' coin ↔ Added ignoreSpot snapshot expected coin := by
  apply and_congr_right
  intro hkept
  rw [← Finmap.lookup_isSome, hexpected coin hkept, Finmap.lookup_isSome, ← Finmap.lookup_eq_none,
    hsnapshot coin hkept, Finmap.lookup_eq_none]

end Verdict

/-- A validation decides exactly whether all books are equal, in whatever order the maps are
visited, and whatever the books of ignored coins are. -/
theorem validation_decides_equality (mapOrder : MapOrder) (snapshot expected : Snapshots O)
    (ignoreSpot : Bool) :
    ((∃ consistency,
        validateSnapshotConsistency mapOrder snapshot expected ignoreSpot = .ok consistency) ↔
      ∀ coin : Coin, ¬ coin.Ignored ignoreSpot →
        (snapshotBook snapshot coin).bids = (snapshotBook expected coin).bids ∧
        (snapshotBook snapshot coin).asks = (snapshotBook expected coin).asks) ∧
    (validateSnapshotConsistency mapOrder snapshot expected ignoreSpot = .ok .equal ↔
      SameBooks ignoreSpot snapshot expected ∧
      ∀ coin : Coin, ¬ coin.Ignored ignoreSpot → coin ∈ expected → coin ∈ snapshot) ∧
    (validateSnapshotConsistency mapOrder snapshot expected ignoreSpot = .ok .emptyBooksAdded ↔
      SameBooks ignoreSpot snapshot expected ∧
      (∃ coin, Added ignoreSpot snapshot expected coin) ∧
      ∀ coin, Added ignoreSpot snapshot expected coin → expected.lookup coin = some ⟨[], []⟩) ∧
    ∀ (mapOrder' : MapOrder) (snapshot' expected' : Snapshots O),
      (∀ coin : Coin, ¬ coin.Ignored ignoreSpot → snapshot'.lookup coin = snapshot.lookup coin ∧
        expected'.lookup coin = expected.lookup coin) →
      (validateSnapshotConsistency mapOrder' snapshot' expected' ignoreSpot).toOption =
        (validateSnapshotConsistency mapOrder snapshot expected ignoreSpot).toOption := by
  have hsides : SameBooks ignoreSpot snapshot expected ↔
      ∀ coin : Coin, ¬ coin.Ignored ignoreSpot →
        (snapshotBook snapshot coin).bids = (snapshotBook expected coin).bids ∧
        (snapshotBook snapshot coin).asks = (snapshotBook expected coin).asks := by
    apply forall₂_congr
    intro coin _
    rw [← Snapshot.mk.injEq]
  have hnone : (∀ coin, ¬ Added ignoreSpot snapshot expected coin) ↔
      ∀ coin : Coin, ¬ coin.Ignored ignoreSpot → coin ∈ expected → coin ∈ snapshot := by
    apply forall_congr'
    intro coin
    rw [Added, not_and, not_and_not_right]
  refine ⟨?_, ?_, ?_, ?_⟩
  · rw [← hsides]
    constructor
    · rintro ⟨consistency, h⟩
      exact (validateSnapshotConsistency_eq_ok_iff.mp h).1
    · intro hsame
      by_cases hadded : ∀ coin, ¬ Added ignoreSpot snapshot expected coin
      · exact ⟨.equal, validateSnapshotConsistency_eq_ok_iff.mpr ⟨hsame, by simp [hadded]⟩⟩
      · exact ⟨.emptyBooksAdded, validateSnapshotConsistency_eq_ok_iff.mpr ⟨hsame, by simp [hadded]⟩⟩
  · rw [validateSnapshotConsistency_eq_ok_iff, ← hnone, iff_true_left rfl]
  · rw [validateSnapshotConsistency_eq_ok_iff]
    apply and_congr_right
    intro hsame
    have hne : SnapshotConsistency.emptyBooksAdded ≠ .equal := by decide
    rw [and_iff_left (sameBooks_iff.mp hsame).2, iff_false_left hne, not_forall]
    simp only [not_not]
  · intro mapOrder' snapshot' expected' hkept
    have hsnapshot := fun coin hcoin => (hkept coin hcoin).1
    have hexpected := fun coin hcoin => (hkept coin hcoin).2
    have hsame : SameBooks ignoreSpot snapshot' expected' ↔ SameBooks ignoreSpot snapshot expected := by
      apply forall₂_congr
      intro coin hcoin
      rw [snapshotBook, snapshotBook, hsnapshot coin hcoin, hexpected coin hcoin]
      exact Iff.rfl
    apply Option.ext
    intro consistency
    rw [toOption_eq_some, toOption_eq_some, validateSnapshotConsistency_eq_ok_iff,
      validateSnapshotConsistency_eq_ok_iff, hsame]
    simp only [Added.congr hsnapshot hexpected]

end OrderBookServer
