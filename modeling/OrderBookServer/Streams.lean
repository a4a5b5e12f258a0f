import OrderBookServer.BatchQueue
import Mathlib.Data.List.Basic

/-!
# Two sources, one queue each

A source gives the blocks of consecutive heights in order, and between them blocks
of heights already reached. When two sources are queued one block at a time, and
one pair at most is popped each time, one of the queues is always empty, and the
other holds exactly the blocks the first source has yet to match.
-/
namespace OrderBookServer

/-- A source from height `h` to height `hn`, with the blocks of new heights it gives. -/
inductive Source {E : Type} : ℕ → ℕ → List (Batch E) → List (Batch E) → Prop
  | nil (h : ℕ) : Source h h [] []
  | next {h hn : ℕ} {b : Batch E} {bs new : List (Batch E)} (hb : b.blockNumber = h + 1)
      (rest : Source (h + 1) hn bs new) : Source h hn (b :: bs) (b :: new)
  | again {h hn : ℕ} {b : Batch E} {bs new : List (Batch E)} (hb : b.blockNumber ≤ h)
      (rest : Source h hn bs new) : Source h hn (b :: bs) new

/-- The blocks are those of the heights after `h`, in order. -/
def Numbered {E : Type} (h : ℕ) (bs : List (Batch E)) : Prop :=
  bs.map Batch.blockNumber = List.range' (h + 1) bs.length

section Numbered

variable {E : Type} {h k : ℕ} {b : Batch E} {bs : List (Batch E)}

theorem Numbered.snoc (hn : Numbered h bs) (hb : b.blockNumber = h + bs.length + 1) :
    Numbered h (bs ++ [b]) := by
  rw [Numbered, List.map_append, hn, List.length_append, List.length_singleton,
    List.range'_1_concat]
  simp [hb]; omega

theorem Numbered.drop (hn : Numbered h bs) : Numbered (h + k) (bs.drop k) := by
  rw [Numbered, List.map_drop, hn, List.drop_range', List.length_drop]
  congr 1
  omega

theorem Numbered.lt_of_mem (hn : Numbered h bs) (hb : b ∈ bs) : h < b.blockNumber := by
  have hm := List.mem_map_of_mem (f := Batch.blockNumber) hb
  rw [hn, List.mem_range'_1] at hm
  omega

theorem Numbered.head (hn : Numbered h (b :: bs)) : b.blockNumber = h + 1 := by
  rw [Numbered, List.map_cons, List.length_cons, List.range'_succ, List.cons.injEq] at hn
  exact hn.1

theorem Numbered.lt_of_mem_drop (hn : Numbered h bs) (hb : b ∈ bs.drop k) :
    h + k < b.blockNumber := hn.drop.lt_of_mem hb

end Numbered

/-- A source, and what it gives up to some point, is a source from there on. -/
theorem Source.split {E : Type} {h hn : ℕ} {before after new : List (Batch E)}
    (hs : Source h hn (before ++ after) new) : ∃ m new₁ new₂, Source h m before new₁ ∧
      Source m hn after new₂ ∧ new = new₁ ++ new₂ := by
  induction before generalizing h new with
  | nil => exact ⟨h, [], new, .nil h, hs, rfl⟩
  | cons b before ih =>
    cases hs with
    | next hb rest =>
      obtain ⟨m, new₁, new₂, h1, h2, rfl⟩ := ih rest
      exact ⟨m, b :: new₁, new₂, .next hb h1, h2, rfl⟩
    | again hb rest =>
      obtain ⟨m, new₁, new₂, h1, h2, rfl⟩ := ih rest
      exact ⟨m, new₁, new₂, .again hb h1, h2, rfl⟩

theorem Source.numbered {E : Type} {h hn : ℕ} {bs new : List (Batch E)} (hs : Source h hn bs new) :
    Numbered h new ∧ hn = h + new.length := by
  induction hs with
  | nil => exact ⟨rfl, rfl⟩
  | @next h hn b bs new hb _ ih =>
    refine ⟨?_, by rw [ih.2, List.length_cons]; omega⟩
    rw [Numbered, List.map_cons, List.length_cons, List.range'_succ, ih.1, hb]
  | again _ _ ih => exact ih

section Synced

variable {S D : Type} {statuses statuses' : BatchQueue S} {diffs diffs' : BatchQueue D}
  {pair : Option (Batch S × Batch D)}

theorem Synced.swap (h : Synced statuses diffs pair statuses' diffs') :
    Synced diffs statuses (pair.map Prod.swap) diffs' statuses' := by
  induction h with
  | starved h => exact .starved h.symm
  | matched hs ht heq => exact .matched ht hs heq.symm
  | dropDiff hs ht hlt _ ih => exact .dropStatus ht hs hlt ih
  | dropStatus hs ht hlt _ ih => exact .dropDiff ht hs hlt ih

theorem Synced.lastTs (h : Synced statuses diffs pair statuses' diffs') :
    statuses'.lastTs = statuses.lastTs ∧ diffs'.lastTs = diffs.lastTs := by
  induction h with
  | starved => exact ⟨rfl, rfl⟩
  | matched hs ht heq =>
    exact ⟨(BatchQueue.front_eq_some hs).2.2, (BatchQueue.front_eq_some ht).2.2⟩
  | dropDiff hs ht hlt _ ih => exact ⟨ih.1, ih.2.trans (BatchQueue.front_eq_some ht).2.2⟩
  | dropStatus hs ht hlt _ ih => exact ⟨ih.1.trans (BatchQueue.front_eq_some hs).2.2, ih.2⟩

/-- With nothing on one side there is nothing to do. -/
theorem Synced.of_empty (h : Synced statuses diffs pair statuses' diffs')
    (he : statuses.batches = [] ∨ diffs.batches = []) :
    pair = none ∧ statuses' = statuses ∧ diffs' = diffs := by
  cases h with
  | starved => exact ⟨rfl, rfl, rfl⟩
  | matched hs ht | dropDiff hs ht | dropStatus hs ht =>
    rw [(BatchQueue.front_eq_some hs).2.1, (BatchQueue.front_eq_some ht).2.1] at he
    simp at he

/-- One block against a queue: all below it is dropped, and then the queue is at an
end, or ahead of the block, or at the block. -/
theorem Synced.single (h : Synced statuses diffs pair statuses' diffs') {b : Batch S}
    (hb : statuses.batches = [b]) : ∃ low, (∀ t ∈ low, t.blockNumber < b.blockNumber) ∧
      ((pair = none ∧ diffs.batches = low ∧ diffs'.batches = [] ∧ statuses'.batches = [b]) ∨
      (∃ t rest, pair = none ∧ diffs.batches = low ++ t :: rest ∧ diffs'.batches = t :: rest ∧
        b.blockNumber < t.blockNumber ∧ statuses'.batches = []) ∨
      ∃ t, pair = some (b, t) ∧ t.blockNumber = b.blockNumber ∧
        diffs.batches = low ++ t :: diffs'.batches ∧ statuses'.batches = []) := by
  induction h with
  | starved he =>
    have hd := he.resolve_left (by rw [hb]; simp)
    exact ⟨[], by simp, .inl ⟨rfl, hd, hd, hb⟩⟩
  | @matched statuses diffs s t hs ht heq =>
    obtain ⟨-, hsb, -⟩ := BatchQueue.front_eq_some hs
    obtain ⟨-, htb, -⟩ := BatchQueue.front_eq_some ht
    rw [hb, List.cons.injEq] at hsb
    obtain ⟨rfl, hrest⟩ := hsb
    exact ⟨[], by simp, .inr (.inr ⟨t, rfl, heq.symm, htb, hrest.symm⟩)⟩
  | @dropDiff statuses _ diffs _ s t pair hs ht hlt _ ih =>
    obtain ⟨-, hsb, -⟩ := BatchQueue.front_eq_some hs
    obtain ⟨-, htb, -⟩ := BatchQueue.front_eq_some ht
    have hsame : s = b := by
      rw [hb, List.cons.injEq] at hsb
      exact hsb.1.symm
    rw [hsame] at hlt
    obtain ⟨low, hlow, hcases⟩ := ih hb
    refine ⟨t :: low, ?_, ?_⟩
    · intro u hu
      rcases List.mem_cons.mp hu with rfl | hu
      · exact hlt
      · exact hlow u hu
    · rw [htb]
      rcases hcases with ⟨rfl, hl, hd', hs'⟩ | ⟨u, rest, rfl, hl, hd', hgt, hs'⟩ |
        ⟨u, rfl, hu, hl, hs'⟩
      · exact .inl ⟨rfl, by rw [hl], hd', hs'⟩
      · exact .inr (.inl ⟨u, rest, rfl, by rw [hl]; rfl, hd', hgt, hs'⟩)
      · exact .inr (.inr ⟨u, rfl, hu, by rw [hl]; rfl, hs'⟩)
  | @dropStatus statuses statuses' diffs diffs' s t pair hs ht hlt rest _ =>
    obtain ⟨-, hsb, -⟩ := BatchQueue.front_eq_some hs
    obtain ⟨-, htb, -⟩ := BatchQueue.front_eq_some ht
    rw [hb, List.cons.injEq] at hsb
    obtain ⟨rfl, hrest⟩ := hsb
    obtain ⟨rfl, rfl, rfl⟩ := rest.of_empty (.inl hrest.symm)
    exact ⟨[], by simp, .inr (.inl ⟨t, _, rfl, htb, htb, hlt, hrest.symm⟩)⟩

end Synced

/-- What is in the queue of a source that has given `new` after height `h0`, when `k`
of these were matched: blocks of old heights, and then all that is unmatched. -/
structure Queued {E : Type} (h0 : ℕ) (new : List (Batch E)) (k : ℕ) (q : BatchQueue E) : Prop where
  numbered : Numbered h0 new
  held : ∃ olds, (∀ b ∈ olds, b.blockNumber ≤ h0) ∧ q.batches = olds ++ new.drop k
  last : ∀ t, q.lastTs = some t → t ≤ h0 + new.length
  reached : new ≠ [] → q.lastTs = some (h0 + new.length)

namespace Queued

variable {E : Type} {h0 k k' : ℕ} {new : List (Batch E)} {q q' : BatchQueue E} {b : Batch E}

/-- The same source, with something else of it held. -/
theorem reheld (h : Queued h0 new k q) (hlast : q'.lastTs = q.lastTs)
    (hheld : ∃ olds, (∀ b ∈ olds, b.blockNumber ≤ h0) ∧ q'.batches = olds ++ new.drop k') :
    Queued h0 new k' q' :=
  ⟨h.numbered, hheld, fun t ht => h.last t (hlast ▸ ht), fun hne => hlast ▸ h.reached hne⟩

/-- A source that has given old blocks only. -/
theorem of_olds (hbatches : ∀ t ∈ q.batches, t.blockNumber ≤ h0)
    (hlast : ∀ t, q.lastTs = some t → t ≤ h0) : Queued h0 [] k q :=
  ⟨rfl, ⟨q.batches, hbatches, by simp⟩, hlast, fun hne => absurd rfl hne⟩

/-- The source gives its next block. -/
theorem snoc (h : Queued h0 new k q) (hb : b.blockNumber = h0 + new.length + 1)
    (hlast : q'.lastTs = some b.blockNumber)
    (hheld : ∃ olds, (∀ b ∈ olds, b.blockNumber ≤ h0) ∧
      q'.batches = olds ++ (new ++ [b]).drop k) : Queued h0 (new ++ [b]) k q' := by
  refine ⟨h.numbered.snoc hb, hheld, fun t ht => ?_, fun _ => ?_⟩
  · rw [hlast, Option.some.injEq] at ht
    rw [List.length_append, List.length_singleton]
    omega
  · rw [hlast, hb, List.length_append, List.length_singleton, Nat.add_assoc]

end Queued

/-- Two queues of sources that gave `newX` and `newY`: one of them is empty. -/
structure Balanced {X Y : Type} (h0 : ℕ) (newX : List (Batch X)) (newY : List (Batch Y))
    (qX : BatchQueue X) (qY : BatchQueue Y) : Prop where
  left : Queued h0 newX newY.length qX
  right : Queued h0 newY newX.length qY
  one : qX.batches = [] ∨ qY.batches = []

section Balanced

variable {X Y : Type} {h0 : ℕ} {newX : List (Batch X)} {newY : List (Batch Y)}
  {qX qX' mid : BatchQueue X} {qY qY' : BatchQueue Y} {pair : Option (Batch X × Batch Y)}
  {b : Batch X} {added : Bool}

theorem Balanced.swap (h : Balanced h0 newX newY qX qY) : Balanced h0 newY newX qY qX :=
  ⟨h.right, h.left, h.one.symm⟩

/-- The unmatched blocks survive when blocks below all of them are taken off. -/
theorem suffix_of_low {olds fresh low rest : List (Batch Y)} {m : ℕ}
    (h : olds ++ fresh = low ++ rest) (hlow : ∀ t ∈ low, t.blockNumber < m)
    (hfresh : ∀ t ∈ fresh, m ≤ t.blockNumber) :
    ∃ kept, (∀ t ∈ kept, t ∈ olds) ∧ rest = kept ++ fresh := by
  rcases List.append_eq_append_iff.mp h with ⟨more, rfl, hf⟩ | ⟨kept, rfl, rfl⟩
  · cases more with
    | nil => exact ⟨[], by simp, by simpa using hf.symm⟩
    | cons t more =>
      have h1 := hlow t (by simp)
      have h2 := hfresh t (by rw [hf]; simp)
      omega
  · exact ⟨kept, fun t ht => List.mem_append_right _ ht, rfl⟩

/-- If the next block is not an old one, then it is the first of the unmatched. -/
theorem suffix_of_new {olds fresh low rest : List (Batch Y)} {t : Batch Y} {m : ℕ}
    (h : olds ++ fresh = low ++ t :: rest) (hlow : ∀ t ∈ low, t.blockNumber < m)
    (hfresh : ∀ t ∈ fresh, m ≤ t.blockNumber) (holds : ∀ t ∈ olds, t.blockNumber ≤ h0)
    (ht : h0 < t.blockNumber) : t :: rest = fresh := by
  obtain ⟨kept, hkept, hrest⟩ := suffix_of_low h hlow hfresh
  cases kept with
  | nil => exact hrest
  | cons u kept =>
    rw [List.cons_append, List.cons.injEq] at hrest
    have hold := holds u (hkept u List.mem_cons_self)
    rw [← hrest.1] at hold
    omega

/-- A block of a height already reached is refused, or queued as an old one. -/
theorem Balanced.again (h : Balanced h0 newX newY qX qY) (hb : b.blockNumber ≤ h0 + newX.length)
    (hpush : qX.Pushed b added mid) (hsync : Synced mid qY pair qX' qY') :
    Balanced h0 newX newY qX' qY' ∧ ∀ p, pair = some p → p.1.blockNumber ≤ h0 := by
  cases hpush with
  | old hlast hle =>
    obtain ⟨rfl, rfl, rfl⟩ := hsync.of_empty h.one
    exact ⟨h, fun _ hp => nomatch hp⟩
  | new hnew hbatches hlast =>
    have hnil : newX = [] := by
      by_contra hne
      have := hnew _ (h.left.reached hne)
      omega
    subst hnil
    rw [List.length_nil, Nat.add_zero] at hb
    obtain ⟨oldsX, holdsX, hheldX⟩ := h.left.held
    obtain ⟨oldsY, holdsY, hheldY⟩ := h.right.held
    have hlow : ∀ t ∈ newY.drop 0, h0 + 1 ≤ t.blockNumber := fun t ht =>
      h.right.numbered.lt_of_mem_drop (k := 0) ht
    obtain ⟨htsX, htsY⟩ := hsync.lastTs
    have hold : ∀ t, mid.lastTs = some t → t ≤ h0 := by
      intro t ht
      rw [hlast, Option.some.injEq] at ht
      exact ht ▸ hb
    have hleft : (qX'.batches = [] ∨ qX'.batches = [b]) → Queued h0 [] newY.length qX' := by
      intro hcases
      refine .of_olds (fun t ht => ?_) (htsX ▸ hold)
      obtain he | he := hcases
      · simp [he] at ht
      · rw [he, List.mem_singleton] at ht
        exact ht ▸ hb
    have hright : ∀ {low rest : List (Batch Y)}, qY.batches = low ++ rest →
        (∀ t ∈ low, t.blockNumber < h0 + 1) → qY'.batches = rest →
        Queued h0 newY ([] : List (Batch X)).length qY' := by
      intro low rest hsplit hl hrest
      obtain ⟨kept, hkept, hk⟩ := suffix_of_low (hheldY.symm.trans hsplit) hl hlow
      exact h.right.reheld htsY ⟨kept, fun t ht => holdsY t (hkept t ht), hrest.trans hk⟩
    rcases h.one with hemptyX | hemptyY
    · rw [hemptyX, List.nil_append] at hbatches
      obtain ⟨low, hl, hcases⟩ := hsync.single hbatches
      have hl' : ∀ t ∈ low, t.blockNumber < h0 + 1 := fun t ht => (hl t ht).trans_le (by omega)
      rcases hcases with ⟨rfl, hd, hd', hs'⟩ | ⟨t, rest, rfl, hd, hd', hgt, hs'⟩ |
        ⟨t, rfl, ht, hd, hs'⟩
      · exact ⟨⟨hleft (.inr hs'), hright (by rw [hd, List.append_nil]) hl' hd', .inr hd'⟩,
          fun _ hp => nomatch hp⟩
      · exact ⟨⟨hleft (.inl hs'), hright hd hl' hd', .inl hs'⟩, fun _ hp => nomatch hp⟩
      · have hsplit : qY.batches = (low ++ [t]) ++ qY'.batches := by rw [hd]; simp
        refine ⟨⟨hleft (.inl hs'), hright hsplit ?_ rfl, .inl hs'⟩,
          fun p hp => by cases hp; exact hb⟩
        intro u hu
        rcases List.mem_append.mp hu with hu | hu
        · exact hl' u hu
        · rw [List.mem_singleton.mp hu]
          omega
    · obtain ⟨rfl, rfl, rfl⟩ := hsync.of_empty (.inr hemptyY)
      refine ⟨⟨.of_olds (fun t ht => ?_) hold, h.right, .inr hemptyY⟩, fun _ hp => nomatch hp⟩
      rw [hbatches, hheldX, List.drop_nil, List.append_nil] at ht
      rcases List.mem_append.mp ht with ht | ht
      · exact holdsX t ht
      · rw [List.mem_singleton.mp ht]
        exact hb

theorem zip_snoc_of_le {xs : List (Batch X)} {ys : List (Batch Y)} (h : ys.length ≤ xs.length) :
    (xs ++ [b]).zip ys = xs.zip ys := by
  induction xs generalizing ys with
  | nil => simp [List.length_eq_zero_iff.mp (Nat.le_zero.mp h)]
  | cons x xs ih =>
    cases ys with
    | nil => rfl
    | cons y ys => simp [ih (Nat.le_of_succ_le_succ h)]

theorem zip_snoc_of_drop {xs : List (Batch X)} {ys rest : List (Batch Y)} {t : Batch Y}
    (h : ys.drop xs.length = t :: rest) : (xs ++ [b]).zip ys = xs.zip ys ++ [(b, t)] := by
  induction xs generalizing ys with
  | nil => simp [show ys = t :: rest from h]
  | cons x xs ih =>
    cases ys with
    | nil => simp at h
    | cons y ys => simp [ih (by simpa using h)]

/-- The block of the next height waits for the other source, or meets its block. -/
theorem Balanced.next (h : Balanced h0 newX newY qX qY)
    (hb : b.blockNumber = h0 + newX.length + 1) (hpush : qX.Pushed b added mid)
    (hsync : Synced mid qY pair qX' qY') :
    Balanced h0 (newX ++ [b]) newY qX' qY' ∧
      ((pair = none ∧ (newX ++ [b]).zip newY = newX.zip newY) ∨
        ∃ t, pair = some (b, t) ∧ (newX ++ [b]).zip newY = newX.zip newY ++ [(b, t)] ∧
          newX.length < newY.length) := by
  cases hpush with
  | old hlast hle =>
    have := h.left.last _ hlast
    omega
  | new hnew hbatches hlast =>
    obtain ⟨oldsX, holdsX, hheldX⟩ := h.left.held
    obtain ⟨oldsY, holdsY, hheldY⟩ := h.right.held
    obtain ⟨htsX, htsY⟩ := hsync.lastTs
    have hleft := h.left.snoc hb (htsX.trans hlast)
    rcases h.one with hemptyX | hemptyY
    · rw [hemptyX, List.nil_append] at hbatches
      have hmatched : newX.length ≤ newY.length := by
        rw [hemptyX] at hheldX
        exact List.drop_eq_nil_iff.mp (List.append_eq_nil_iff.mp hheldX.symm).2
      have hfresh : ∀ t ∈ newY.drop newX.length, b.blockNumber ≤ t.blockNumber := by
        intro t ht
        have := h.right.numbered.lt_of_mem_drop ht
        omega
      obtain ⟨low, hlow, hcases⟩ := hsync.single hbatches
      rcases hcases with ⟨rfl, hd, hd', hs'⟩ | ⟨t, rest, rfl, hd, hd', hgt, hs'⟩ |
        ⟨t, rfl, ht, hd, hs'⟩
      · -- all that was queued is old: the block waits
        have hsplit : oldsY ++ newY.drop newX.length = low ++ [] := by
          rw [← hheldY, hd, List.append_nil]
        obtain ⟨kept, -, hk⟩ := suffix_of_low hsplit hlow hfresh
        have hdrop := (List.append_eq_nil_iff.mp hk.symm).2
        have hle := List.drop_eq_nil_iff.mp hdrop
        refine ⟨⟨hleft ⟨[], by simp, ?_⟩, h.right.reheld htsY ⟨[], by simp, ?_⟩, .inr hd'⟩,
          .inl ⟨rfl, zip_snoc_of_le hle⟩⟩
        · rw [hs', List.drop_append_of_le_length hle, List.drop_eq_nil_of_le hmatched]
          rfl
        · rw [hd', List.nil_append, List.drop_eq_nil_of_le]
          rw [List.length_append]
          omega
      · -- a queue past the block would have had its height first
        have hk := suffix_of_new (hheldY.symm.trans hd) hlow hfresh holdsY (by omega)
        have hnum := h.right.numbered.drop (k := newX.length)
        rw [← hk] at hnum
        have := hnum.head
        omega
      · have hk := suffix_of_new (hheldY.symm.trans hd) hlow hfresh holdsY (by omega)
        have hlt : newX.length < newY.length := by
          by_contra hge
          rw [List.drop_eq_nil_of_le (by omega)] at hk
          cases hk
        refine ⟨⟨hleft ⟨[], by simp, ?_⟩, h.right.reheld htsY ⟨[], by simp, ?_⟩, .inl hs'⟩,
          .inr ⟨t, rfl, zip_snoc_of_drop hk.symm, hlt⟩⟩
        · rw [hs', List.nil_append, List.drop_eq_nil_of_le]
          rw [List.length_append, List.length_singleton]
          omega
        · rw [List.nil_append, List.length_append, List.length_singleton, ← List.drop_drop, ← hk]
          rfl
    · obtain ⟨rfl, rfl, rfl⟩ := hsync.of_empty (.inr hemptyY)
      have hle : newY.length ≤ newX.length := by
        rw [hemptyY] at hheldY
        exact List.drop_eq_nil_iff.mp (List.append_eq_nil_iff.mp hheldY.symm).2
      refine ⟨⟨hleft ⟨oldsX, holdsX, ?_⟩, h.right.reheld rfl ⟨[], by simp, ?_⟩, .inr hemptyY⟩,
        .inl ⟨rfl, zip_snoc_of_le hle⟩⟩
      · rw [hbatches, hheldX, List.drop_append_of_le_length hle, List.append_assoc]
      · rw [hemptyY, List.nil_append, List.drop_eq_nil_of_le]
        rw [List.length_append]
        omega

end Balanced
end OrderBookServer
