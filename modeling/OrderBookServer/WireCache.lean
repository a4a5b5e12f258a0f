import OrderBookServer.Messages

/-!
# The wire cache

All connections share one cache of encoded frames. It holds the frames of one position:
the allocation a view lies in, with a time and a height. It keeps that view, so the
allocation stays the view's own, and whatever is asked for is answered as if it were
encoded on the spot, also when a connection lags behind the position.
-/
namespace OrderBookServer

def maxWireBytes : ℕ := 16 * 1024 * 1024

/-- Views behind a shared pointer: the allocation, and what it holds. -/
structure SharedSnapshots where
  address : ℕ
  value : L2Snapshots

structure BookWireCache where
  position : Option (ℕ × ℕ × ℕ) := none
  source : Option SharedSnapshots := none
  entries : HashMap Subscription String := ∅
  bytes : ℕ := 0

namespace BookWireCache

/-- The levels of a frame. An outcome coin without a book has two empty sides. -/
def levels (snapshots : L2Snapshots) (coin : String) (nSigFigs nLevels mantissa : Option ℕ) :
    Option (Snapshot Level) :=
  match (snapshots.lookup ⟨coin⟩).bind fun v => v.lookup ⟨nSigFigs, mantissa⟩ with
  | some snapshot => some (snapshot.truncate (nLevels.getD defaultLevels)).exportInnerSnapshot
  | none => if isHip4Coin coin then some ⟨[], []⟩ else none

variable (toString : ServerResponse → Except String String)

/-- The frame of a subscription, encoded from the views. -/
def encode (subscription : Subscription) (snapshots : L2Snapshots) (time height : ℕ) :
    Except String (Option String) :=
  match subscription with
  | .l2Book coin nSigFigs nLevels mantissa =>
    match levels snapshots coin nSigFigs nLevels mantissa with
    | none => .ok none
    | some levels => do
      let encoded ← toString (.l2Book (.fromL2Snapshot coin levels time height))
      if encoded.utf8ByteSize > maxWireBytes then .error "Book frame exceeds byte bound"
      else .ok (some encoded)
  | _ => .ok none

/-- Whether a position may be cached: it goes back in neither time nor height. -/
def cacheable (self : BookWireCache) (time height : ℕ) : Bool :=
  self.position.all fun p => decide (height ≥ p.2.2 ∧ time ≥ p.2.1)

/-- Move on to a later position, and forget the frames of the one before. -/
def advance (self : BookWireCache) (snapshots : SharedSnapshots) (time height : ℕ) :
    BookWireCache :=
  if self.cacheable time height ∧ self.position ≠ some (snapshots.address, time, height) then
    ⟨some (snapshots.address, time, height), some snapshots, ∅, 0⟩
  else self

/-- Keep a frame while there is room for it. -/
def store (self : BookWireCache) (subscription : Subscription) (encoded : String) :
    BookWireCache :=
  if self.bytes + encoded.utf8ByteSize ≤ 2 * 1024 * 1024 ∧ self.entries.keys.card < 1024 then
    { self with
      bytes := self.bytes + encoded.utf8ByteSize
      entries := self.entries.insert subscription encoded }
  else self

def get (self : BookWireCache) (subscription : Subscription) (snapshots : SharedSnapshots)
    (time height : ℕ) : Except String (Option String) × BookWireCache :=
  match subscription with
  | .l2Book .. =>
    let cacheable := self.cacheable time height
    let self := self.advance snapshots time height
    let held := if self.position = some (snapshots.address, time, height) then
      self.entries.lookup subscription else none
    match held with
    | some encoded => (.ok (some encoded), self)
    | none =>
      match encode toString subscription snapshots.value time height with
      | .ok (some encoded) =>
        (.ok (some encoded), if cacheable then self.store subscription encoded else self)
      | out => (out, self)
  | _ => (.ok none, self)

/-- The summed length of the frames that are held. -/
def totalBytes (entries : HashMap Subscription String) : ℕ :=
  (entries.entries.map fun e => e.2.utf8ByteSize).sum

/-- Every frame held is the frame of its subscription at the position, of the view that is
kept there, and the frames are as many and as long as the cache admits. -/
structure Valid (cache : BookWireCache) : Prop where
  bytes : cache.bytes = totalBytes cache.entries
  bytes_le : cache.bytes ≤ 2 * 1024 * 1024
  card_le : cache.entries.keys.card ≤ 1024
  kept : ∀ position, cache.position = some position →
    ∃ source, cache.source = some source ∧ source.address = position.1
  fresh : ∀ subscription encoded, cache.entries.lookup subscription = some encoded →
    ∃ source time height, cache.source = some source ∧
      cache.position = some (source.address, time, height) ∧
      encode toString subscription source.value time height = .ok (some encoded)

/-- The allocation of the view that is kept is not another view's. -/
def KeepsAddress (self : BookWireCache) (snapshots : SharedSnapshots) : Prop :=
  ∀ source, self.source = some source → source.address = snapshots.address →
    source.value = snapshots.value

variable {toString}

theorem valid_default : Valid toString {} where
  bytes := rfl
  bytes_le := Nat.zero_le _
  card_le := Nat.zero_le _
  kept position h := by cases h
  fresh subscription encoded h := by
    rw [show ({} : BookWireCache).entries = ∅ from rfl, Finmap.lookup_empty] at h
    cases h

variable {self : BookWireCache} {subscription : Subscription} {snapshots : SharedSnapshots}
  {time height : ℕ}

theorem Valid.advance (h : Valid toString self) (snapshots : SharedSnapshots)
    (time height : ℕ) : Valid toString (self.advance snapshots time height) := by
  unfold BookWireCache.advance
  split_ifs with hmove
  · refine ⟨rfl, Nat.zero_le _, Nat.zero_le _, fun position hp => ?_, fun sub encoded hl => ?_⟩
    · cases hp
      exact ⟨snapshots, rfl, rfl⟩
    · rw [Finmap.lookup_empty] at hl
      cases hl
  · exact h

/-- A cache that may hold the position is at it once advanced. -/
theorem position_advance (snapshots : SharedSnapshots) (h : self.cacheable time height = true) :
    (self.advance snapshots time height).position = some (snapshots.address, time, height) := by
  unfold BookWireCache.advance
  split_ifs with hmove
  · rfl
  · by_contra hne
    exact hmove ⟨h, hne⟩

/-- At the position of a view, the view that is kept is that view. -/
theorem source_advance (hkeeps : self.KeepsAddress snapshots) {source : SharedSnapshots}
    (hsource : (self.advance snapshots time height).source = some source)
    (haddress : source.address = snapshots.address) : source.value = snapshots.value := by
  unfold BookWireCache.advance at hsource
  split_ifs at hsource with hmove
  · cases hsource
    rfl
  · exact hkeeps source hsource haddress

theorem totalBytes_insert {entries : HashMap Subscription String} (encoded : String)
    (h : entries.lookup subscription = none) :
    totalBytes (entries.insert subscription encoded) =
      totalBytes entries + encoded.utf8ByteSize := by
  rw [totalBytes, Finmap.entries_insert_of_notMem (Finmap.lookup_eq_none.mp h),
    Multiset.map_cons, Multiset.sum_cons, Nat.add_comm]
  rfl

theorem card_keys_insert (entries : HashMap Subscription String) (subscription : Subscription)
    (encoded : String) :
    (entries.insert subscription encoded).keys.card ≤ entries.keys.card + 1 := by
  have hkeys : (entries.insert subscription encoded).keys ⊆ insert subscription entries.keys := by
    intro k hk
    rw [Finmap.mem_keys, Finmap.mem_insert] at hk
    rwa [Finset.mem_insert, Finmap.mem_keys]
  exact (Finset.card_le_card hkeys).trans (Finset.card_insert_le _ _)

theorem Valid.store (h : Valid toString self) {encoded : String} {source : SharedSnapshots}
    (hnew : self.entries.lookup subscription = none) (hsource : self.source = some source)
    (hposition : self.position = some (source.address, time, height))
    (hencoded : encode toString subscription source.value time height = .ok (some encoded)) :
    Valid toString (self.store subscription encoded) := by
  unfold BookWireCache.store
  split_ifs with hroom
  · refine ⟨?_, hroom.1, ?_, h.kept, fun k frame hl => ?_⟩
    · show self.bytes + encoded.utf8ByteSize = _
      rw [totalBytes_insert encoded hnew, h.bytes]
    · have hcard := card_keys_insert self.entries subscription encoded
      have hlt := hroom.2
      show (self.entries.insert subscription encoded).keys.card ≤ 1024
      omega
    · rw [HashMap.lookup_insert_ite] at hl
      split_ifs at hl with hk
      · cases hl
        rw [hk]
        exact ⟨source, time, height, hsource, hposition, hencoded⟩
      · exact h.fresh k frame hl
  · exact h

theorem source_advance_cases {source : SharedSnapshots}
    (h : (self.advance snapshots time height).source = some source) :
    source = snapshots ∨ self.source = some source := by
  unfold BookWireCache.advance at h
  split_ifs at h with hmove
  · cases h
    exact .inl rfl
  · exact .inr h

/-- The view that is kept is that of this call or of one before. -/
theorem source_get {source : SharedSnapshots}
    (h : (self.get toString subscription snapshots time height).2.source = some source) :
    source = snapshots ∨ self.source = some source := by
  cases subscription with
  | trades coin => exact .inr h
  | l4Book coin => exact .inr h
  | l2Book coin nSigFigs nLevels mantissa =>
    have hmoved : (self.advance snapshots time height).source = some source := by
      unfold get at h
      dsimp only at h
      split at h
      · exact h
      · split at h
        · split_ifs at h with hcan
          · unfold BookWireCache.store at h
            split_ifs at h <;> exact h
          · exact h
        · exact h
    exact source_advance_cases hmoved

/-- A call answers with what is encoded on the spot, and leaves the cache valid. -/
theorem get_eq_encode (h : Valid toString self) (hkeeps : self.KeepsAddress snapshots) :
    (self.get toString subscription snapshots time height).1 =
        encode toString subscription snapshots.value time height ∧
      Valid toString (self.get toString subscription snapshots time height).2 := by
  cases subscription with
  | trades coin => exact ⟨rfl, h⟩
  | l4Book coin => exact ⟨rfl, h⟩
  | l2Book coin nSigFigs nLevels mantissa =>
    have hmoved := h.advance snapshots time height
    unfold get
    dsimp only
    split
    · rename_i encoded hheld
      split_ifs at hheld with hat
      obtain ⟨source, t, n, hsource, hposition, hencoded⟩ := hmoved.fresh _ _ hheld
      rw [hat] at hposition
      obtain ⟨ha, rfl, rfl⟩ : snapshots.address = source.address ∧ time = t ∧ height = n := by
        simpa using hposition
      rw [source_advance hkeeps hsource ha.symm] at hencoded
      exact ⟨hencoded.symm, hmoved⟩
    · rename_i hmiss
      cases hout : encode toString (.l2Book coin nSigFigs nLevels mantissa) snapshots.value time
        height with
      | error e => exact ⟨rfl, hmoved⟩
      | ok frame =>
        cases frame with
        | none => exact ⟨rfl, hmoved⟩
        | some encoded =>
          refine ⟨rfl, ?_⟩
          dsimp only
          split_ifs with hcan
          · have hat := position_advance snapshots hcan
            rw [if_pos hat] at hmiss
            obtain ⟨source, hsource, ha⟩ := hmoved.kept _ hat
            rw [← source_advance hkeeps hsource ha] at hout
            exact hmoved.store hmiss hsource (ha ▸ hat) hout
          · exact hmoved

/-- What one connection asks for. -/
structure Call where
  subscription : Subscription
  snapshots : SharedSnapshots
  time : ℕ
  height : ℕ

/-- Calls in any order from the empty cache, each with its answer. No view is given that
lies where the view that is kept lies, unless it is that view. -/
inductive Calls (toString : ServerResponse → Except String String) :
    List (Call × Except String (Option String)) → BookWireCache → Prop
  | start : Calls toString [] {}
  | call {calls : List (Call × Except String (Option String))} {cache : BookWireCache} (c : Call)
      (before : Calls toString calls cache) (keeps : cache.KeepsAddress c.snapshots) :
      Calls toString
        (calls ++ [(c, (cache.get toString c.subscription c.snapshots c.time c.height).1)])
        (cache.get toString c.subscription c.snapshots c.time c.height).2

variable {calls : List (Call × Except String (Option String))} {cache : BookWireCache}

theorem Calls.valid (h : Calls toString calls cache) : Valid toString cache := by
  induction h with
  | start => exact valid_default
  | call c before keeps ih => exact (get_eq_encode ih keeps).2

/-- The cache cannot be seen: every call answers with what is encoded from its own view, in
whatever order the calls come, and the frames held stay within their bounds. -/
theorem shared_wire_cache_is_invisible (h : Calls toString calls cache) :
    (∀ p ∈ calls, p.2 = encode toString p.1.subscription p.1.snapshots.value p.1.time p.1.height) ∧
      cache.bytes = totalBytes cache.entries ∧ cache.bytes ≤ 2 * 1024 * 1024 ∧
      cache.entries.keys.card ≤ 1024 := by
  have hvalid := h.valid
  refine ⟨?_, hvalid.bytes, hvalid.bytes_le, hvalid.card_le⟩
  clear hvalid
  induction h with
  | start => exact fun p hp => absurd hp List.not_mem_nil
  | call c before keeps ih =>
    intro p hp
    rw [List.mem_append, List.mem_singleton] at hp
    obtain hp | rfl := hp
    · exact ih p hp
    · exact (get_eq_encode before.valid keeps).1

/-- A block, the next one, and a connection that is still at the first. -/
theorem shared_wire_cache_is_invisible_lagging :
    let toString : ServerResponse → Except String String
      | .l2Book book => .ok (ServerResponse.l2Frame book)
      | _ => .error "not an L2 frame"
    let subscription : Subscription := .l2Book "#10" none none none
    let views : SharedSnapshots := ⟨4096, ∅⟩
    ∃ calls cache, Calls toString calls cache ∧ calls.map (fun p => p.1.height) = [1, 2, 1] ∧
      calls.map Prod.snd = [encode toString subscription views.value 1000 1,
        encode toString subscription views.value 1001 2,
        encode toString subscription views.value 1000 1] ∧
      cache.bytes = totalBytes cache.entries := by
  intro toString subscription views
  have hkeeps {cache : BookWireCache} (h : ∀ source, cache.source = some source → source = views) :
      cache.KeepsAddress views := fun source hs _ => congrArg SharedSnapshots.value (h source hs)
  have hstart : Calls toString [] {} := .start
  have hfirst := hstart.call ⟨subscription, views, 1000, 1⟩ (hkeeps fun source hs => by cases hs)
  have hnext := hfirst.call ⟨subscription, views, 1001, 2⟩
    (hkeeps fun source hs => (source_get hs).elim id fun hs => by cases hs)
  have hback := hnext.call ⟨subscription, views, 1000, 1⟩
    (hkeeps fun source hs => (source_get hs).elim id fun hs =>
      (source_get hs).elim id fun hs => by cases hs)
  obtain ⟨hanswers, hbytes, -⟩ := shared_wire_cache_is_invisible hback
  exact ⟨_, _, hback, rfl, List.map_congr_left hanswers, hbytes⟩

end BookWireCache
end OrderBookServer
