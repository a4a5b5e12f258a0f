import OrderBookServer.Levels

/-!
# Views under checked arithmetic

The views as a build with overflow checks computes them: every operation on prices and
sizes that leaves the word, and a division by zero, ends the run. A run that reaches its
end returns what the release build does, whose arithmetic wraps.
-/
namespace OrderBookServer
open InnerOrder

def checkedBucket (px : ℕ) (side : Side) (nSigFigs mantissa : Option ℕ) : Option ℕ :=
  let m := mantissa.getD 1
  match nSigFigs with
  | none => some px
  | some n => do
    let digs := Px.numDigits px
    let p := digs - n
    let power ← U64.checkedPow 10 p
    let inc ← U64.checkedMul m power
    if inc = 0 then none
    else
      match side with
      | .ask => U64.checkedMul (U64.divCeil px inc) inc
      | .bid => U64.checkedMul (px / inc) inc

def checkedBuildL2Level (nLevels nSigFigs mantissa : Option ℕ) (side : Side) (st : LevelState)
    (level : InnerLevel) : Option (Bool × LevelState) :=
  if newBucket side st.1 level then do
    let px ← checkedBucket level.px side nSigFigs mantissa
    let levels := st.2 ++ st.1.toList
    if nLevels = some levels.length then some (true, none, levels)
    else some (false, some ⟨px, level.sz, level.n⟩, levels)
  else
    match st.1 with
    | none => some (false, none, st.2)
    | some c => do
      let sz ← U64.checkedAdd level.sz c.sz
      some (false, some { c with sz := sz, n := c.n + level.n }, st.2)

/-- The loop over levels, each of which is summed up when its turn comes. -/
def checkedBuildL2Levels (nLevels nSigFigs mantissa : Option ℕ) (side : Side) :
    LevelState → List (Option InnerLevel) → Option LevelState
  | st, [] => some st
  | st, next :: rest => do
    let level ← next
    let out ← checkedBuildL2Level nLevels nSigFigs mantissa side st level
    if out.1 then some out.2 else checkedBuildL2Levels nLevels nSigFigs mantissa side out.2 rest

/-- The levels of a side from those of the loop. -/
def checkedLevels (levels : List (Option InnerLevel)) (side : Side)
    (nLevels nSigFigs mantissa : Option ℕ) : Option (List InnerLevel) :=
  if nLevels = some 0 then some []
  else do
    let out ← checkedBuildL2Levels nLevels nSigFigs mantissa side (none, []) levels
    some (out.2 ++ out.1.toList)

def checkedL2LevelsToL2Levels (levels : List InnerLevel) (side : Side)
    (nLevels nSigFigs mantissa : Option ℕ) : Option (List InnerLevel) :=
  checkedLevels (levels.map some) side nLevels nSigFigs mantissa

section

variable {O : Type} [InnerOrder O]

/-- The size of one price level, added up in its order. -/
def checkedLevelOf (e : ℕ × LinkedList Oid O) : Option InnerLevel := do
  let total ← e.2.fold (some 0) fun total order => total.bind fun t => U64.checkedAdd t (sz order)
  some ⟨e.1, total, e.2.fold 0 fun n _ => n + 1⟩

def checkedMapToL2Levels (orders : Levels O) (side : Side) (nLevels nSigFigs mantissa : Option ℕ) :
    Option (List InnerLevel) :=
  let orderIter := match side with
    | .ask => orders.entries
    | .bid => orders.entries.reverse
  checkedLevels (orderIter.map checkedLevelOf) side nLevels nSigFigs mantissa

def OrderBook.checkedToL2Snapshot (book : OrderBook O) (nLevels nSigFigs mantissa : Option ℕ) :
    Option (Snapshot InnerLevel) := do
  let bids ← checkedMapToL2Levels book.bids .bid nLevels nSigFigs mantissa
  let asks ← checkedMapToL2Levels book.asks .ask nLevels nSigFigs mantissa
  some ⟨bids, asks⟩

end

def Snapshot.checkedToL2Snapshot (view : Snapshot InnerLevel) (nLevels nSigFigs mantissa : Option ℕ) :
    Option (Snapshot InnerLevel) := do
  let bids ← checkedL2LevelsToL2Levels view.bids .bid nLevels nSigFigs mantissa
  let asks ← checkedL2LevelsToL2Levels view.asks .ask nLevels nSigFigs mantissa
  some ⟨bids, asks⟩

def checkedAddNewSnapshot (nSigFigs mantissa : Option ℕ) (idx : ℕ)
    (entries : List (L2SnapshotParams × Snapshot InnerLevel)) :
    Option (List (L2SnapshotParams × Snapshot InnerLevel)) :=
  match entries[entries.length - idx]? with
  | some (_, lastSnapshot) => do
    let snapshot ← lastSnapshot.checkedToL2Snapshot none nSigFigs mantissa
    some (entries ++ [(⟨nSigFigs, mantissa⟩, snapshot)])
  | none => some entries

def checkedViewEntries {O : Type} [InnerOrder O] (book : OrderBook O) :
    Option (List (L2SnapshotParams × Snapshot InnerLevel)) := do
  let snapshot ← book.checkedToL2Snapshot none none none
  [5, 4, 3, 2].foldlM
    (fun entries nSigFigs =>
      if nSigFigs = 5 then
        [none, some 2, some 5].foldlM
          (fun entries mantissa =>
            if mantissa = some 5 then checkedAddNewSnapshot (some nSigFigs) mantissa 2 entries
            else checkedAddNewSnapshot (some nSigFigs) mantissa 1 entries)
          entries
      else checkedAddNewSnapshot (some nSigFigs) none 1 entries)
    [(⟨none, none⟩, snapshot)]

/-- The seven views, each built from an earlier one. -/
theorem checkedViewEntries_eq {O : Type} [InnerOrder O] (book : OrderBook O) :
    checkedViewEntries book = (do
      let v ← book.checkedToL2Snapshot none none none
      let v5 ← v.checkedToL2Snapshot none (some 5) none
      let v52 ← v5.checkedToL2Snapshot none (some 5) (some 2)
      let v55 ← v5.checkedToL2Snapshot none (some 5) (some 5)
      let v4 ← v55.checkedToL2Snapshot none (some 4) none
      let v3 ← v4.checkedToL2Snapshot none (some 3) none
      let v2 ← v3.checkedToL2Snapshot none (some 2) none
      some [(⟨none, none⟩, v), (⟨some 5, none⟩, v5), (⟨some 5, some 2⟩, v52),
        (⟨some 5, some 5⟩, v55), (⟨some 4, none⟩, v4), (⟨some 3, none⟩, v3),
        (⟨some 2, none⟩, v2)]) := by
  simp [checkedViewEntries, checkedAddNewSnapshot, Option.bind_assoc]

/-! ### A run that reaches its end -/

theorem bucket_of_checked {px p : ℕ} {side : Side} {nSigFigs mantissa : Option ℕ}
    (h : checkedBucket px side nSigFigs mantissa = some p) : bucket px side nSigFigs mantissa = p := by
  cases nSigFigs with
  | none => exact Option.some.inj h
  | some n =>
    simp only [checkedBucket, Option.bind_eq_bind, Option.bind_eq_some_iff] at h
    obtain ⟨power, hpower, inc, hinc, hbucket⟩ := h
    obtain ⟨-, hbucket⟩ := Option.ite_none_left_eq_some.mp hbucket
    have hwidth : U64.wrappingMul (mantissa.getD 1) (U64.wrappingPow 10 (Px.numDigits px - n)) =
        inc := by
      rw [U64.wrappingPow_of_checked hpower, U64.wrappingMul_of_checked hinc]
    simp only [bucket, hwidth]
    cases side with
    | ask => exact U64.wrappingMul_of_checked hbucket
    | bid =>
      obtain ⟨-, hp⟩ := Option.ite_none_right_eq_some.mp hbucket
      exact Option.some.inj hp

section

variable {side : Side} {nLevels nSigFigs mantissa : Option ℕ}

theorem buildL2Level_of_checked {st : LevelState} {level : InnerLevel} {out : Bool × LevelState}
    (h : checkedBuildL2Level nLevels nSigFigs mantissa side st level = some out) :
    buildL2Level nLevels nSigFigs mantissa side st level = out := by
  unfold checkedBuildL2Level at h
  unfold buildL2Level
  by_cases hnew : newBucket side st.1 level
  · rw [if_pos hnew] at h ⊢
    obtain ⟨px, hpx, hout⟩ := Option.bind_eq_some_iff.mp h
    rw [bucket_of_checked hpx]
    dsimp only at hout ⊢
    split_ifs at hout ⊢ with hlen
    · exact Option.some.inj hout
    · exact Option.some.inj hout
  · rw [if_neg hnew] at h ⊢
    obtain ⟨cur, done⟩ := st
    cases cur with
    | none => exact Option.some.inj h
    | some c =>
      obtain ⟨total, htotal, hout⟩ := Option.bind_eq_some_iff.mp h
      rw [← Option.some.inj hout, ← U64.wrappingAdd_of_checked htotal]
      rfl

/-- What a level is when it can be summed up. -/
def Yields (next : Option InnerLevel) (level : InnerLevel) : Prop := ∀ l ∈ next, l = level

theorem buildL2Levels_of_checked {st out : LevelState} {next : List (Option InnerLevel)}
    {levels : List InnerLevel} (hlevels : List.Forall₂ Yields next levels)
    (h : checkedBuildL2Levels nLevels nSigFigs mantissa side st next = some out) :
    buildL2Levels nLevels nSigFigs mantissa side st levels = out := by
  induction hlevels generalizing st with
  | nil => exact Option.some.inj h
  | cons hfirst _ ih =>
    simp only [checkedBuildL2Levels, Option.bind_eq_bind, Option.bind_eq_some_iff] at h
    obtain ⟨level, hlevel, mid, hmid, hrest⟩ := h
    obtain rfl := hfirst level hlevel
    simp only [buildL2Levels, buildL2Level_of_checked hmid]
    split_ifs at hrest ⊢ with hdone
    · exact Option.some.inj hrest
    · exact ih hrest

theorem levels_of_checked {next : List (Option InnerLevel)} {levels view : List InnerLevel}
    (hlevels : List.Forall₂ Yields next levels)
    (h : checkedLevels next side nLevels nSigFigs mantissa = some view) :
    l2LevelsToL2Levels levels side nLevels nSigFigs mantissa = view := by
  unfold checkedLevels at h
  unfold l2LevelsToL2Levels
  split_ifs at h ⊢ with hzero
  · exact Option.some.inj h
  · obtain ⟨out, hout, hview⟩ := Option.bind_eq_some_iff.mp h
    rw [buildL2Levels_of_checked hlevels hout]
    exact Option.some.inj hview

theorem l2LevelsToL2Levels_of_checked {levels view : List InnerLevel}
    (h : checkedL2LevelsToL2Levels levels side nLevels nSigFigs mantissa = some view) :
    l2LevelsToL2Levels levels side nLevels nSigFigs mantissa = view := by
  refine levels_of_checked ?_ h
  rw [List.forall₂_map_left_iff]
  exact List.forall₂_same.mpr fun level _ l hl => (Option.some.inj hl).symm

theorem snapshot_of_checked {v view : Snapshot InnerLevel}
    (h : v.checkedToL2Snapshot nLevels nSigFigs mantissa = some view) :
    v.toL2Snapshot nLevels nSigFigs mantissa = view := by
  simp only [Snapshot.checkedToL2Snapshot, Option.bind_eq_bind, Option.bind_eq_some_iff] at h
  obtain ⟨bids, hbids, asks, hasks, hview⟩ := h
  rw [Snapshot.toL2Snapshot, l2LevelsToL2Levels_of_checked hbids,
    l2LevelsToL2Levels_of_checked hasks]
  exact Option.some.inj hview

variable {O : Type} [InnerOrder O]

theorem fold_none (os : List O) :
    (os.foldl (fun total order => total.bind fun t => U64.checkedAdd t (sz order)) none) = none := by
  induction os with
  | nil => rfl
  | cons o os ih => exact ih

theorem fold_of_checked {os : List O} {init total : ℕ}
    (h : os.foldl (fun total order => total.bind fun t => U64.checkedAdd t (sz order)) (some init) =
      some total) :
    os.foldl (fun total order => Sz.add total (sz order)) init = total := by
  induction os generalizing init with
  | nil => exact Option.some.inj h
  | cons o os ih =>
    rw [List.foldl_cons, Option.bind_some] at h
    obtain hnone | ⟨sum, hsum⟩ := Option.eq_none_or_eq_some (U64.checkedAdd init (sz o))
    · rw [hnone, fold_none] at h
      cases h
    · rw [hsum] at h
      rw [List.foldl_cons, Sz.add, U64.wrappingAdd_of_checked hsum]
      exact ih h

theorem yields_levelOf (e : ℕ × LinkedList Oid O) : Yields (checkedLevelOf e) (levelOf e) := by
  intro level hlevel
  obtain ⟨total, htotal, hlevel⟩ := Option.bind_eq_some_iff.mp (Option.mem_def.mp hlevel)
  rw [← Option.some.inj hlevel, levelOf]
  congr 1
  exact (fold_of_checked htotal).symm

theorem mapToL2Levels_of_checked {orders : Levels O} {view : List InnerLevel}
    (h : checkedMapToL2Levels orders side nLevels nSigFigs mantissa = some view) :
    mapToL2Levels orders side nLevels nSigFigs mantissa = view := by
  refine levels_of_checked ?_ h
  rw [List.forall₂_map_left_iff, List.forall₂_map_right_iff]
  exact List.forall₂_same.mpr fun e _ => yields_levelOf e

theorem book_of_checked {book : OrderBook O} {view : Snapshot InnerLevel}
    (h : book.checkedToL2Snapshot nLevels nSigFigs mantissa = some view) :
    book.toL2Snapshot nLevels nSigFigs mantissa = view := by
  simp only [OrderBook.checkedToL2Snapshot, Option.bind_eq_bind, Option.bind_eq_some_iff] at h
  obtain ⟨bids, hbids, asks, hasks, hview⟩ := h
  rw [OrderBook.toL2Snapshot, mapToL2Levels_of_checked hbids, mapToL2Levels_of_checked hasks]
  exact Option.some.inj hview

/-- Views computed without an overflow are those that are published. -/
theorem viewEntries_of_checked {book : OrderBook O}
    {entries : List (L2SnapshotParams × Snapshot InnerLevel)}
    (h : checkedViewEntries book = some entries) : viewEntries book = entries := by
  rw [checkedViewEntries_eq] at h
  simp only [Option.bind_eq_bind, Option.bind_eq_some_iff] at h
  obtain ⟨v, hv, v5, hv5, v52, hv52, v55, hv55, v4, hv4, v3, hv3, v2, hv2, hentries⟩ := h
  rw [viewEntries_eq]
  simp only [book_of_checked hv, snapshot_of_checked hv5, snapshot_of_checked hv52,
    snapshot_of_checked hv55, snapshot_of_checked hv4, snapshot_of_checked hv3,
    snapshot_of_checked hv2]
  exact Option.some.inj hentries

end
end OrderBookServer
