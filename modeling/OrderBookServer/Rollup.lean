import Mathlib.Order.Closure
import Mathlib.Tactic

/-!
# Rolling up a sequence into buckets

One pass over priced entries merges each run that falls into one bucket. The
pass keeps a pending bucket, named by the bucket price of its first entry; an
entry priced beyond it opens the next bucket, any other is merged into it.

The bucket prices are the closures of a closure operator. The main fact is that
passes compose: rolling up along a first operator and then along a second one is
rolling up along the second one, as soon as the second closure of every entry's
price is closed under the first. It holds for entries in any order.
-/
namespace OrderBookServer.Rollup

variable {P A : Type*} [LinearOrder P]

/-- The bucket pending after one more entry. -/
def push (op : A → A → A) (β : P → P) : Option (P × A) → P × A → P × A
  | none, e => (β e.1, e.2)
  | some c, e => if c.1 < e.1 then (β e.1, e.2) else (c.1, op e.2 c.2)

/-- The bucket completed by one more entry, if it is beyond the pending one. -/
def flush : Option (P × A) → P × A → List (P × A)
  | none, _ => []
  | some c, e => if c.1 < e.1 then [c] else []

def roll (op : A → A → A) (β : P → P) : Option (P × A) → List (P × A) → List (P × A)
  | cur, [] => cur.toList
  | cur, e :: es => flush cur e ++ roll op β (some (push op β cur e)) es

theorem roll_congr {op : A → A → A} {β β' : P → P} (cur : Option (P × A)) (es : List (P × A))
    (h : ∀ e ∈ es, β e.1 = β' e.1) : roll op β cur es = roll op β' cur es := by
  induction es generalizing cur with
  | nil => rfl
  | cons e es ih =>
    have hpush : push op β cur e = push op β' cur e := by
      cases cur with
      | none => simp only [push, h e (by simp)]
      | some c => simp only [push, h e (by simp)]
    simp only [roll, hpush]
    rw [ih _ fun e' he' => h e' (List.mem_cons_of_mem e he')]

/-- A pass may be made over what is read off the entries, if merging is. -/
theorem roll_map {B : Type*} {op : A → A → A} {op' : B → B → B} (f : A → B)
    (hf : ∀ a b, f (op a b) = op' (f a) (f b)) (β : P → P) (cur : Option (P × A))
    (es : List (P × A)) : (roll op β cur es).map (Prod.map id f) =
      roll op' β (cur.map (Prod.map id f)) (es.map (Prod.map id f)) := by
  induction es generalizing cur with
  | nil => cases cur <;> simp [roll]
  | cons e es ih =>
    have hpush : Prod.map id f (push op β cur e) =
        push op' β (cur.map (Prod.map id f)) (Prod.map id f e) := by
      cases cur with
      | none => rfl
      | some c =>
        simp only [push, Option.map_some, Prod.map_fst, id]
        split_ifs
        · rfl
        · simp [Prod.map, hf]
    have hflush : (flush cur e).map (Prod.map id f) =
        flush (cur.map (Prod.map id f)) (Prod.map id f e) := by
      cases cur with
      | none => rfl
      | some c =>
        simp only [flush, Option.map_some, Prod.map_fst, id]
        split_ifs <;> rfl
    rw [roll, List.map_append, ih, List.map_cons, roll, hflush, ← hpush, Option.map_some]

/-- What holds of every entry and of every merge holds of every bucket. -/
theorem forall_mem_roll {op : A → A → A} {β : P → P} {Q : A → Prop} (hop : ∀ a b, Q (op a b))
    {cur : Option (P × A)} {es : List (P × A)} (hcur : ∀ d ∈ cur, Q d.2) (hes : ∀ e ∈ es, Q e.2) :
    ∀ q ∈ roll op β cur es, Q q.2 := by
  induction es generalizing cur with
  | nil => simpa [roll] using hcur
  | cons e es ih =>
    have hpush : ∀ d ∈ some (push op β cur e), Q d.2 := by
      intro d hd
      obtain rfl := Option.some.inj hd
      cases cur with
      | none => exact hes e List.mem_cons_self
      | some c =>
        simp only [push]
        split_ifs
        · exact hes e List.mem_cons_self
        · exact hop _ _
    intro q hq
    rw [roll, List.mem_append] at hq
    obtain hq | hq := hq
    · cases cur with
      | none => cases hq
      | some c =>
        simp only [flush] at hq
        split_ifs at hq
        · obtain rfl := List.mem_singleton.mp hq
          exact hcur q rfl
        · cases hq
    · exact ih hpush (fun e' he' => hes e' (List.mem_cons_of_mem e he')) q hq

section Closure

variable {op : A → A → A} {c₁ c₂ c : ClosureOperator P}

/-- A coarser closure does not see a finer one taken before it. -/
theorem closure_closure {p : P} (h : c₁ (c₂ p) = c₂ p) : c₂ (c₁ p) = c₂ p := by
  apply le_antisymm
  · calc c₂ (c₁ p) ≤ c₂ (c₁ (c₂ p)) := c₂.monotone (c₁.monotone (c₂.le_closure p))
      _ = c₂ p := by rw [h, c₂.idempotent]
  · exact c₂.monotone (c₁.le_closure p)

/-- A bucket pending in the first pass may be handed to the second at once: the
entries merged into it later would be merged by the second pass as well. -/
theorem roll_roll_pending (op : A → A → A) [hop : Std.Associative op] (es : List (P × A)) (cur : Option (P × A))
    (p : P × A) (hcur : ∀ d ∈ cur, c₁ d.1 = d.1) (hp : c₁ (c₂ p.1) = c₂ p.1)
    (hes : ∀ e ∈ es, c₁ (c₂ e.1) = c₂ e.1) :
    roll op c₂ cur (roll op c₁ (some p) es) =
      flush cur p ++ roll op c₂ (some (push op c₂ cur p)) es := by
  induction es generalizing cur p with
  | nil => simp [roll]
  | cons e es ih =>
    have hrest : ∀ e ∈ es, c₁ (c₂ e.1) = c₂ e.1 := fun e' he' => hes e' (List.mem_cons_of_mem e he')
    have hclosed : c₁ (push op c₂ cur p).1 = (push op c₂ cur p).1 := by
      cases cur with
      | none => exact hp
      | some d =>
        simp only [push]
        split_ifs
        · exact hp
        · exact hcur d rfl
    have hle : p.1 ≤ (push op c₂ cur p).1 := by
      cases cur with
      | none => exact c₂.le_closure p.1
      | some d =>
        simp only [push]
        split_ifs with hd
        · exact c₂.le_closure p.1
        · exact not_lt.mp hd
    by_cases hbeyond : p.1 < e.1
    · -- The entry opens a bucket in the first pass.
      have he := closure_closure (hes e (by simp))
      have hlt : (push op c₂ cur p).1 < c₁ e.1 ↔ (push op c₂ cur p).1 < e.1 := by
        constructor
        · intro h
          by_contra hn
          exact absurd (hclosed ▸ c₁.monotone (not_lt.mp hn)) (not_le.mpr h)
        · exact fun h => h.trans_le (c₁.le_closure e.1)
      have hflush : flush (some (push op c₂ cur p)) (c₁ e.1, e.2) =
          flush (some (push op c₂ cur p)) e := by
        simp only [flush, hlt]
      have hpush : push op c₂ (some (push op c₂ cur p)) (c₁ e.1, e.2) =
          push op c₂ (some (push op c₂ cur p)) e := by
        generalize push op c₂ cur p = q at hlt
        simp only [push, hlt, he]
      have hi := ih (some (push op c₂ cur p)) (c₁ e.1, e.2)
        (fun d hd => by cases hd; exact hclosed) (by rw [he]; exact hes e (by simp)) hrest
      have hroll : roll op c₁ (some p) (e :: es) = p :: roll op c₁ (some (c₁ e.1, e.2)) es := by
        simp [roll, flush, push, hbeyond]
      rw [hroll]
      simp only [roll]
      rw [hi, hflush, hpush]
    · -- The entry is merged in the first pass, and then in the second one as well.
      have hmerge : roll op c₁ (some p) (e :: es) = roll op c₁ (some (p.1, op e.2 p.2)) es := by
        simp [roll, flush, push, hbeyond]
      have hin : ¬ (push op c₂ cur p).1 < e.1 := fun h => hbeyond (hle.trans_lt h)
      have hflush : flush cur (p.1, op e.2 p.2) = flush cur p := by cases cur <;> rfl
      have hpush : push op c₂ cur (p.1, op e.2 p.2) = push op c₂ (some (push op c₂ cur p)) e := by
        have hstep : push op c₂ (some (push op c₂ cur p)) e =
            ((push op c₂ cur p).1, op e.2 (push op c₂ cur p).2) := by
          generalize push op c₂ cur p = q at hin
          simp only [push, if_neg hin]
        rw [hstep]
        cases cur with
        | none => rfl
        | some d =>
          simp only [push]
          split_ifs
          · rfl
          · rw [hop.assoc]
      rw [hmerge, ih cur (p.1, op e.2 p.2) hcur hp hrest, hflush, hpush]
      simp [roll, flush, hin]

/-- Passes compose. -/
theorem roll_roll [Std.Associative op] (es : List (P × A)) (h : ∀ e ∈ es, c₁ (c₂ e.1) = c₂ e.1) :
    roll op c₂ none (roll op c₁ none es) = roll op c₂ none es := by
  cases es with
  | nil => rfl
  | cons e es =>
    have he := h e (by simp)
    have hrest : ∀ e ∈ es, c₁ (c₂ e.1) = c₂ e.1 := fun e' he' => h e' (List.mem_cons_of_mem e he')
    have hpend := roll_roll_pending op es none (c₁ e.1, e.2) (by simp)
      (by rw [closure_closure he]; exact he) hrest
    simpa [roll, flush, push, closure_closure he] using hpend

/-- Every bucket is the pending one or that of some entry. -/
theorem fst_of_mem_roll {β : P → P} (cur : Option (P × A)) (es : List (P × A)) {q : P × A}
    (hq : q ∈ roll op β cur es) : (∃ d ∈ cur, q.1 = d.1) ∨ ∃ e ∈ es, q.1 = β e.1 := by
  induction es generalizing cur with
  | nil => exact .inl ⟨q, by simpa [roll] using hq, rfl⟩
  | cons e es ih =>
    rw [roll, List.mem_append] at hq
    obtain hq | hq := hq
    · cases cur with
      | none => simp [flush] at hq
      | some d =>
        simp only [flush] at hq
        split_ifs at hq
        · obtain rfl := List.mem_singleton.mp hq
          exact .inl ⟨q, rfl, rfl⟩
        · cases hq
    · obtain ⟨d, hd, hqd⟩ | ⟨e', he', hqe⟩ := ih _ hq
      · obtain rfl : push op β cur e = d := by simpa using hd
        cases cur with
        | none => exact .inr ⟨e, by simp, hqd⟩
        | some c =>
          simp only [push] at hqd
          split_ifs at hqd
          · exact .inr ⟨e, by simp, hqd⟩
          · exact .inl ⟨c, rfl, hqd⟩
      · exact .inr ⟨e', List.mem_cons_of_mem e he', hqe⟩

/-- The pending bucket is completed sooner or later. -/
theorem pending_mem_roll {β : P → P} (d : P × A) (es : List (P × A)) :
    d.1 ∈ (roll op β (some d) es).map Prod.fst := by
  induction es generalizing d with
  | nil => simp [roll]
  | cons e es ih =>
    rw [roll, List.map_append, List.mem_append]
    by_cases h : d.1 < e.1
    · exact .inl (by simp [flush, h])
    · right
      simp only [push, if_neg h]
      exact ih (d.1, op e.2 d.2)

/-- In increasing entries, the bucket of every entry appears. -/
theorem closure_mem_roll (op : A → A → A) (cur : Option (P × A)) (es : List (P × A))
    (hcur : ∀ d ∈ cur, c d.1 = d.1 ∧ ∀ e ∈ es, d.1 ≤ c e.1)
    (hs : es.Pairwise fun a b => a.1 ≤ b.1) {e : P × A} (he : e ∈ es) :
    c e.1 ∈ (roll op c cur es).map Prod.fst := by
  induction es generalizing cur with
  | nil => cases he
  | cons f es ih =>
    rw [List.pairwise_cons] at hs
    have hpush : c (push op c cur f).1 = (push op c cur f).1 ∧
        (push op c cur f).1 = c f.1 := by
      cases cur with
      | none => exact ⟨c.idempotent f.1, rfl⟩
      | some d =>
        obtain ⟨hd, hle⟩ := hcur d rfl
        simp only [push]
        split_ifs with h
        · exact ⟨c.idempotent f.1, rfl⟩
        · exact ⟨hd, le_antisymm (hle f (by simp)) (hd ▸ c.monotone (not_lt.mp h))⟩
    rw [roll, List.map_append, List.mem_append]
    right
    obtain rfl | he := List.mem_cons.mp he
    · rw [← hpush.2]
      exact pending_mem_roll _ es
    · apply ih _ _ hs.2 he
      intro d hd
      obtain rfl : push op c cur f = d := by simpa using hd
      exact ⟨hpush.1, fun e' he' => hpush.2 ▸ c.monotone (hs.1 e' he')⟩

/-- A bucket pending before increasing entries is at or before all of theirs. -/
def Pending (c : ClosureOperator P) (cur : Option (P × A)) (es : List (P × A)) : Prop :=
  ∀ d ∈ cur, c d.1 = d.1 ∧ ∀ e ∈ es, d.1 ≤ c e.1

theorem Pending.none (es : List (P × A)) : Pending c none es := fun _ hd => nomatch hd

/-- One more entry is pending before the entries that follow it. -/
theorem Pending.push (op : A → A → A) {cur : Option (P × A)} {e : P × A} {es : List (P × A)}
    (h : Pending c cur (e :: es)) (hs : (e :: es).Pairwise fun a b => a.1 ≤ b.1) :
    (Rollup.push op c cur e).1 = c e.1 ∧ Pending c (some (Rollup.push op c cur e)) es := by
  have hfirst : (Rollup.push op c cur e).1 = c e.1 := by
    cases cur with
    | none => rfl
    | some d =>
      obtain ⟨hd, hle⟩ := h d rfl
      simp only [Rollup.push]
      split_ifs with hlt
      · rfl
      · exact le_antisymm (hle e List.mem_cons_self) (hd ▸ c.monotone (not_lt.mp hlt))
  refine ⟨hfirst, fun d hd => ?_⟩
  obtain rfl := Option.some.inj hd
  rw [hfirst]
  exact ⟨c.idempotent e.1, fun e' he' => c.monotone ((List.pairwise_cons.mp hs).1 e' he')⟩

theorem le_of_mem_roll (op : A → A → A) {d : P × A} {es : List (P × A)}
    (h : Pending c (some d) es) (hs : es.Pairwise fun a b => a.1 ≤ b.1) {q : P × A}
    (hq : q ∈ roll op c (some d) es) : d.1 ≤ q.1 := by
  induction es generalizing d with
  | nil =>
    obtain rfl : q = d := by simpa [roll] using hq
    exact le_refl _
  | cons e es ih =>
    obtain ⟨hfirst, hpend⟩ := h.push op hs
    have hle : d.1 ≤ (Rollup.push op c (some d) e).1 := by
      rw [hfirst]
      exact (h d rfl).2 e List.mem_cons_self
    rw [roll, List.mem_append] at hq
    obtain hq | hq := hq
    · simp only [flush] at hq
      split_ifs at hq
      · obtain rfl := List.mem_singleton.mp hq
        exact le_refl _
      · cases hq
    · exact hle.trans (ih hpend (List.pairwise_cons.mp hs).2 hq)

/-- In increasing entries the buckets are strictly increasing. -/
theorem pairwise_roll (op : A → A → A) {cur : Option (P × A)} {es : List (P × A)}
    (h : Pending c cur es) (hs : es.Pairwise fun a b => a.1 ≤ b.1) :
    (roll op c cur es).Pairwise fun a b => a.1 < b.1 := by
  induction es generalizing cur with
  | nil => cases cur <;> simp [roll]
  | cons e es ih =>
    obtain ⟨hfirst, hpend⟩ := h.push op hs
    have htail := ih hpend (List.pairwise_cons.mp hs).2
    rw [roll]
    cases cur with
    | none => exact htail
    | some d =>
      simp only [flush]
      split_ifs with hlt
      · refine List.pairwise_cons.mpr ⟨fun q hq => ?_, htail⟩
        calc d.1 < e.1 := hlt
          _ ≤ c e.1 := c.le_closure e.1
          _ = _ := hfirst.symm
          _ ≤ q.1 := le_of_mem_roll op hpend (List.pairwise_cons.mp hs).2 hq
      · exact htail

/-- What an entry or a pending bucket adds to the bucket `p`. -/
def share {M : Type*} [AddCommMonoid M] (f : A → M) (p : P) (q : P) (a : A) : M :=
  if q = p then f a else 0

/-- Whatever the merging of entries adds up is added up bucket by bucket. -/
theorem sum_of_mem_roll {M : Type*} [AddCommMonoid M] {f : A → M} (op : A → A → A)
    (hf : ∀ a b, f (op a b) = f a + f b) {cur : Option (P × A)} {es : List (P × A)}
    (h : Pending c cur es) (hs : es.Pairwise fun a b => a.1 ≤ b.1) {q : P × A}
    (hq : q ∈ roll op c cur es) :
    f q.2 = (cur.toList.map fun d => share f q.1 d.1 d.2).sum +
      (es.map fun e => share f q.1 (c e.1) e.2).sum := by
  induction es generalizing cur with
  | nil =>
    cases cur with
    | none => simp [roll] at hq
    | some d =>
      obtain rfl : q = d := by simpa [roll] using hq
      simp [share]
  | cons e es ih =>
    obtain ⟨hfirst, hpend⟩ := h.push op hs
    have hrest := (List.pairwise_cons.mp hs).2
    have hlater : ∀ p, p < c e.1 → (es.map fun e' => share f p (c e'.1) e'.2).sum = 0 := by
      intro p hp
      apply List.sum_eq_zero
      intro m hm
      obtain ⟨e', he', rfl⟩ := List.mem_map.mp hm
      have hle : c e.1 ≤ c e'.1 := c.monotone ((List.pairwise_cons.mp hs).1 e' he')
      rw [share, if_neg (hp.trans_le hle).ne']
    rw [roll, List.mem_append] at hq
    rw [List.map_cons, List.sum_cons]
    obtain hq | hq := hq
    · -- The pending bucket is complete: no entry from here on is of it.
      cases cur with
      | none => cases hq
      | some d =>
        simp only [flush] at hq
        split_ifs at hq with hlt
        · obtain rfl := List.mem_singleton.mp hq
          have hbeyond : q.1 < c e.1 := hlt.trans_le (c.le_closure e.1)
          rw [hlater q.1 hbeyond]
          simp [share, hbeyond.ne']
        · cases hq
    · have hsum := ih hpend hrest hq
      rw [hsum, ← add_assoc]
      congr 1
      have hge := le_of_mem_roll op hpend hrest hq
      cases cur with
      | none => simp [Rollup.push]
      | some d =>
        by_cases hlt : d.1 < e.1
        · have hne : d.1 ≠ q.1 := by
            rw [hfirst] at hge
            exact ((hlt.trans_le (c.le_closure e.1)).trans_le hge).ne
          simp [Rollup.push, hlt, share, hne]
        · have hd : d.1 = c e.1 := by
            simpa [Rollup.push, hlt] using hfirst
          simp only [Rollup.push, if_neg hlt, Option.toList_some, List.map_cons, List.map_nil,
            List.sum_cons, List.sum_nil, add_zero, share, ← hd]
          split_ifs
          · rw [hf, add_comm]
          · rw [add_zero]

end Closure
end OrderBookServer.Rollup
