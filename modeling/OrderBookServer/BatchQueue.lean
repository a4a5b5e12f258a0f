import OrderBookServer.NodeData

/-!
# Queues of unmatched blocks

The two sources of a book are read independently, so a block waits in the queue
of its source until the block of the same height arrives from the other one. A
queue takes increasing heights only, within limits on bytes, count and age.
`popPair` brings the fronts of two queues to one height: whichever front is
behind is dropped, until the fronts agree or one queue is empty.
-/
namespace OrderBookServer

/-- A reading of the monotonic clock. -/
abbrev Instant := ℕ

structure ResourceLimits where
  queueBytes : ℕ
  queueHeights : ℕ
  queueAge : ℕ
  deriving DecidableEq, Repr

def ResourceLimits.DEFAULT : ResourceLimits where
  queueBytes := 1024 * 1024 * 1024
  queueHeights := 4096
  queueAge := 120 * 1000000000

structure BatchQueue (E : Type) where
  deque : List (Batch E × Instant)
  lastTs : Option ℕ
  bytes : ℕ

namespace BatchQueue

variable {E : Type}

def new : BatchQueue E := ⟨[], none, 0⟩

/-- Some queue limit is exceeded by a block that would bring the queue to `nextBytes`. -/
def overLimit (self : BatchQueue E) (block : Batch E) (limits : ResourceLimits) (now : Instant)
    (nextBytes : ℕ) : Bool :=
  decide (nextBytes > limits.queueBytes) || decide (self.deque.length ≥ limits.queueHeights) ||
    match self.deque.head? with
    | some (first, at_) => decide (now - at_ > limits.queueAge) ||
        decide (block.blockNumber - first.blockNumber > limits.queueHeights)
    | none => false

/-- Queue a block: false for a height that is not new, an error past a limit. -/
def push (self : BatchQueue E) (block : Batch E) (limits : ResourceLimits) (now : Instant) :
    Except Error (Bool × BatchQueue E) :=
  if self.lastTs.any fun last => decide (last ≥ block.blockNumber) then .ok (false, self)
  else
    match U64.checkedAdd self.bytes block.wireBytes with
    | none => .error .queueByteOverflow
    | some nextBytes =>
      if self.overLimit block limits now nextBytes then
        .error (.queueLimit self.bytes self.deque.length)
      else
        .ok (true, ⟨self.deque ++ [(block, now)], some block.blockNumber, nextBytes⟩)

def expired (self : BatchQueue E) (limits : ResourceLimits) (now : Instant) : Bool :=
  self.deque.head?.any fun front => decide (now - front.2 > limits.queueAge)

def front (self : BatchQueue E) : Option (Batch E) := self.deque.head?.map Prod.fst

def popFront (self : BatchQueue E) : Option (Batch E) × BatchQueue E :=
  match self.deque with
  | [] => (none, self)
  | (batch, _) :: rest =>
    (some batch, { self with deque := rest, bytes := U64.wrappingSub self.bytes batch.wireBytes })

/-- The queued blocks, oldest first. -/
def batches (self : BatchQueue E) : List (Batch E) := self.deque.map Prod.fst

/-- What a push that succeeds does. -/
inductive Pushed (self : BatchQueue E) (block : Batch E) : Bool → BatchQueue E → Prop
  | old {last : ℕ} (h : self.lastTs = some last) (hle : block.blockNumber ≤ last) :
      Pushed self block false self
  | new {queue : BatchQueue E} (h : ∀ last, self.lastTs = some last → last < block.blockNumber)
      (hbatches : queue.batches = self.batches ++ [block])
      (hlast : queue.lastTs = some block.blockNumber) : Pushed self block true queue

theorem push_ok {self queue : BatchQueue E} {block : Batch E} {limits : ResourceLimits}
    {now : Instant} {added : Bool} (h : self.push block limits now = .ok (added, queue)) :
    Pushed self block added queue := by
  unfold push at h
  by_cases hold : (self.lastTs.any fun last => decide (last ≥ block.blockNumber)) = true
  · rw [if_pos hold] at h
    cases h
    cases hlast : self.lastTs with
    | none => simp [hlast] at hold
    | some last => exact .old hlast (by simpa [hlast] using hold)
  · rw [if_neg hold] at h
    cases hb : U64.checkedAdd self.bytes block.wireBytes with
    | none => rw [hb] at h; cases h
    | some nextBytes =>
      simp only [hb] at h
      split_ifs at h
      cases h
      refine .new ?_ (by simp [batches]) rfl
      intro last hlast
      by_contra hle
      exact hold (by simp [hlast]; omega)

theorem front_eq_some {self : BatchQueue E} {batch : Batch E} (h : self.front = some batch) :
    self.popFront.1 = some batch ∧ self.batches = batch :: self.popFront.2.batches ∧
      self.popFront.2.lastTs = self.lastTs := by
  unfold front at h
  unfold popFront batches
  cases hd : self.deque with
  | nil => simp [hd] at h
  | cons e rest =>
    obtain ⟨b, at_⟩ := e
    have hb : b = batch := by simpa [hd] using h
    simp [hb]

theorem front_eq_none {self : BatchQueue E} (h : self.front = none) : self.batches = [] := by
  unfold front at h
  unfold batches
  cases hd : self.deque with
  | nil => rfl
  | cons e rest => simp [hd] at h

theorem length_deque (self : BatchQueue E) : self.deque.length = self.batches.length := by
  simp [batches]

end BatchQueue

section Pair

variable {S D : Type}

/-- The loop that synchronises two queues to one block. Every turn takes a block
off one of them, so as many turns as there are blocks are enough. -/
def popPairLoop : ℕ → BatchQueue S → BatchQueue D →
    Option (Batch S × Batch D) × BatchQueue S × BatchQueue D
  | 0, statuses, diffs => (none, statuses, diffs)
  | turns + 1, statuses, diffs =>
    match diffs.front, statuses.front with
    | some t, some s =>
      if t.blockNumber < s.blockNumber then popPairLoop turns statuses diffs.popFront.2
      else if t.blockNumber = s.blockNumber then
        (statuses.popFront.1.bind fun s => diffs.popFront.1.map fun t => (s, t),
          statuses.popFront.2, diffs.popFront.2)
      else popPairLoop turns statuses.popFront.2 diffs
    | _, _ => (none, statuses, diffs)

def popPair (statuses : BatchQueue S) (diffs : BatchQueue D) :
    Option (Batch S × Batch D) × BatchQueue S × BatchQueue D :=
  popPairLoop (diffs.deque.length + statuses.deque.length) statuses diffs

/-- How the fronts of two queues are brought to one block: the pair found, and the
queues left. -/
inductive Synced : BatchQueue S → BatchQueue D → Option (Batch S × Batch D) → BatchQueue S →
    BatchQueue D → Prop
  | starved {statuses : BatchQueue S} {diffs : BatchQueue D}
      (h : statuses.batches = [] ∨ diffs.batches = []) : Synced statuses diffs none statuses diffs
  | matched {statuses : BatchQueue S} {diffs : BatchQueue D} {s : Batch S} {t : Batch D}
      (hs : statuses.front = some s) (ht : diffs.front = some t)
      (heq : s.blockNumber = t.blockNumber) :
      Synced statuses diffs (some (s, t)) statuses.popFront.2 diffs.popFront.2
  | dropDiff {statuses statuses' : BatchQueue S} {diffs diffs' : BatchQueue D} {s : Batch S}
      {t : Batch D} {pair : Option (Batch S × Batch D)} (hs : statuses.front = some s)
      (ht : diffs.front = some t) (hlt : t.blockNumber < s.blockNumber)
      (rest : Synced statuses diffs.popFront.2 pair statuses' diffs') :
      Synced statuses diffs pair statuses' diffs'
  | dropStatus {statuses statuses' : BatchQueue S} {diffs diffs' : BatchQueue D} {s : Batch S}
      {t : Batch D} {pair : Option (Batch S × Batch D)} (hs : statuses.front = some s)
      (ht : diffs.front = some t) (hlt : s.blockNumber < t.blockNumber)
      (rest : Synced statuses.popFront.2 diffs pair statuses' diffs') :
      Synced statuses diffs pair statuses' diffs'

theorem popPairLoop_synced (turns : ℕ) (statuses : BatchQueue S) (diffs : BatchQueue D)
    (h : diffs.batches.length + statuses.batches.length ≤ turns) :
    Synced statuses diffs (popPairLoop turns statuses diffs).1
      (popPairLoop turns statuses diffs).2.1 (popPairLoop turns statuses diffs).2.2 := by
  induction turns generalizing statuses diffs with
  | zero => exact .starved (.inr (List.length_eq_zero_iff.mp (by omega)))
  | succ turns ih =>
    rw [popPairLoop]
    cases ht : diffs.front with
    | none => exact .starved (.inr (BatchQueue.front_eq_none ht))
    | some t =>
      cases hs : statuses.front with
      | none => exact .starved (.inl (BatchQueue.front_eq_none hs))
      | some s =>
        obtain ⟨hpt, htb, -⟩ := BatchQueue.front_eq_some ht
        obtain ⟨hps, hsb, -⟩ := BatchQueue.front_eq_some hs
        have htl := congrArg List.length htb
        have hsl := congrArg List.length hsb
        rw [List.length_cons] at htl hsl
        dsimp only
        split_ifs with hlt heq
        · exact .dropDiff hs ht hlt (ih _ _ (by omega))
        · rw [hps, hpt]
          exact .matched hs ht heq.symm
        · exact .dropStatus hs ht (by omega) (ih _ _ (by omega))

/-- The loop ends on its own: it never runs out of turns. -/
theorem popPair_synced (statuses : BatchQueue S) (diffs : BatchQueue D) :
    Synced statuses diffs (popPair statuses diffs).1 (popPair statuses diffs).2.1
      (popPair statuses diffs).2.2 :=
  popPairLoop_synced _ _ _ (by rw [BatchQueue.length_deque, BatchQueue.length_deque])

/-- Blocks only leave the queues, and a pair found was queued, at one height. -/
theorem Synced.sublists {statuses statuses' : BatchQueue S} {diffs diffs' : BatchQueue D}
    {pair : Option (Batch S × Batch D)} (h : Synced statuses diffs pair statuses' diffs') :
    statuses'.batches.Sublist statuses.batches ∧ diffs'.batches.Sublist diffs.batches ∧
    ∀ p, pair = some p →
      p.1 ∈ statuses.batches ∧ p.2 ∈ diffs.batches ∧ p.1.blockNumber = p.2.blockNumber := by
  induction h with
  | starved => exact ⟨List.Sublist.refl _, List.Sublist.refl _, by simp⟩
  | matched hs ht heq =>
    obtain ⟨-, hsb, -⟩ := BatchQueue.front_eq_some hs
    obtain ⟨-, htb, -⟩ := BatchQueue.front_eq_some ht
    rw [hsb, htb]
    refine ⟨List.sublist_cons_self _ _, List.sublist_cons_self _ _, ?_⟩
    rintro p hp
    obtain rfl := Option.some.inj hp
    exact ⟨List.mem_cons_self, List.mem_cons_self, heq⟩
  | dropDiff hs ht hlt _ ih =>
    obtain ⟨-, htb, -⟩ := BatchQueue.front_eq_some ht
    obtain ⟨h1, h2, h3⟩ := ih
    rw [htb]
    refine ⟨h1, h2.cons _, fun p hp => ?_⟩
    obtain ⟨hp1, hp2, hp3⟩ := h3 p hp
    exact ⟨hp1, List.mem_cons_of_mem _ hp2, hp3⟩
  | dropStatus hs ht hlt _ ih =>
    obtain ⟨-, hsb, -⟩ := BatchQueue.front_eq_some hs
    obtain ⟨h1, h2, h3⟩ := ih
    rw [hsb]
    refine ⟨h1.cons _, h2, fun p hp => ?_⟩
    obtain ⟨hp1, hp2, hp3⟩ := h3 p hp
    exact ⟨List.mem_cons_of_mem _ hp1, hp2, hp3⟩

/-- A pair found leaves fewer blocks of statuses. -/
theorem Synced.length_lt {statuses statuses' : BatchQueue S} {diffs diffs' : BatchQueue D}
    {p : Batch S × Batch D} (h : Synced statuses diffs (some p) statuses' diffs') :
    statuses'.batches.length < statuses.batches.length := by
  generalize hp : some p = pair at h
  induction h with
  | starved => cases hp
  | matched hs ht heq =>
    obtain ⟨-, hsb, -⟩ := BatchQueue.front_eq_some hs
    rw [hsb, List.length_cons]
    omega
  | dropDiff hs ht hlt _ ih => exact ih hp
  | dropStatus hs ht hlt _ ih =>
    obtain ⟨-, hsb, -⟩ := BatchQueue.front_eq_some hs
    have := ih hp
    rw [hsb, List.length_cons]
    omega

end Pair
end OrderBookServer
