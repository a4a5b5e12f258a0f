import Mathlib.Data.List.Sort
import Mathlib.Tactic

/-!
# Ordered maps

A B-tree map as the list of its entries in strictly increasing key order. The
order is a field, so an ill-sorted map cannot be built. Beside lookup, insertion
and removal there is the in-place traversal `iterMut`, in either direction, of a
loop that may break: it rewrites the values it visits and never touches a key.

Every operation at a key is read off the split of the entries into those below
the key, the entry at it and those above it.
-/
namespace OrderBookServer

structure BTreeMap (K V : Type*) [LinearOrder K] where
  entries : List (K × V)
  sorted : (entries.map Prod.fst).Pairwise (· < ·)

namespace BTreeMap

/-- One pass of a loop over entries. The body returns the next loop state, the
value left in the entry, and whether the loop goes on. -/
def visit {K V σ : Type*} (body : σ → K → V → σ × V × Bool) : σ → List (K × V) → σ × List (K × V)
  | s, [] => (s, [])
  | s, (k, v) :: rest =>
    let out := body s k v
    if out.2.2 then
      let tail := visit body out.1 rest
      (tail.1, (k, out.2.1) :: tail.2)
    else (out.1, (k, out.2.1) :: rest)

@[simp] theorem visit_keys {K V σ : Type*} (body : σ → K → V → σ × V × Bool) (s : σ)
    (l : List (K × V)) : (visit body s l).2.map Prod.fst = l.map Prod.fst := by
  induction l generalizing s with
  | nil => rfl
  | cons e rest ih =>
    simp only [visit]
    split <;> simp [ih]

variable {K V : Type*} [LinearOrder K]

@[ext] theorem ext {m m' : BTreeMap K V} (h : m.entries = m'.entries) : m = m' := by
  cases m; cases m'; cases h; rfl

instance [DecidableEq V] : DecidableEq (BTreeMap K V) := fun m m' =>
  decidable_of_iff (m.entries = m'.entries) ⟨ext, fun h => h ▸ rfl⟩

def empty : BTreeMap K V := ⟨[], by simp⟩

def isEmpty (m : BTreeMap K V) : Bool := m.entries.isEmpty

def get? (m : BTreeMap K V) (k : K) : Option V :=
  (m.entries.find? fun e => e.1 = k).map Prod.snd

def below (m : BTreeMap K V) (k : K) : List (K × V) := m.entries.filter fun e => e.1 < k

def above (m : BTreeMap K V) (k : K) : List (K × V) := m.entries.filter fun e => k < e.1

/-- The entry at `k`, as a list of at most one element. -/
def at? (m : BTreeMap K V) (k : K) : List (K × V) := m.entries.filter fun e => e.1 = k

theorem pairwise_entries (m : BTreeMap K V) : m.entries.Pairwise fun a b => a.1 < b.1 :=
  List.pairwise_map.mp m.sorted

theorem sublist_sorted {l l' : List (K × V)} (h : l'.Sublist l)
    (hs : (l.map Prod.fst).Pairwise (· < ·)) : (l'.map Prod.fst).Pairwise (· < ·) :=
  hs.sublist (h.map _)

/-- Remove the entry at `k`, if there is one. -/
def erase (m : BTreeMap K V) (k : K) : BTreeMap K V where
  entries := m.entries.filter fun e => e.1 ≠ k
  sorted := sublist_sorted List.filter_sublist m.sorted

/-- Insert `v` at `k`, replacing the value already there. -/
def insert (m : BTreeMap K V) (k : K) (v : V) : BTreeMap K V where
  entries := m.below k ++ (k, v) :: m.above k
  sorted := by
    rw [List.map_append, List.map_cons, List.pairwise_append, List.pairwise_cons]
    refine ⟨sublist_sorted List.filter_sublist m.sorted,
      ⟨?_, sublist_sorted List.filter_sublist m.sorted⟩, ?_⟩
    · simp only [above, List.mem_map, List.mem_filter, decide_eq_true_eq]
      rintro _ ⟨e, ⟨_, he⟩, rfl⟩
      exact he
    · simp only [below, above, List.mem_map, List.mem_filter, decide_eq_true_eq, List.mem_cons]
      rintro _ ⟨e, ⟨_, he⟩, rfl⟩ b hb
      obtain rfl | ⟨e', ⟨_, he'⟩, rfl⟩ := hb
      · exact he
      · exact he.trans he'

/-- `iter_mut`: a loop over the entries in increasing key order. -/
def iterMut {σ : Type*} (m : BTreeMap K V) (body : σ → K → V → σ × V × Bool) (s : σ) :
    σ × BTreeMap K V :=
  ((visit body s m.entries).1, ⟨(visit body s m.entries).2, by rw [visit_keys]; exact m.sorted⟩)

/-- `iter_mut().rev()`: the same loop in decreasing key order. -/
def iterMutRev {σ : Type*} (m : BTreeMap K V) (body : σ → K → V → σ × V × Bool) (s : σ) :
    σ × BTreeMap K V :=
  ((visit body s m.entries.reverse).1,
    ⟨(visit body s m.entries.reverse).2.reverse, by
      rw [List.map_reverse, visit_keys, List.map_reverse, List.reverse_reverse]
      exact m.sorted⟩)

theorem sorted_split (k : K) (l : List (K × V)) (h : (l.map Prod.fst).Pairwise (· < ·)) :
    l = (l.filter fun e => e.1 < k) ++ ((l.filter fun e => e.1 = k) ++ l.filter fun e => k < e.1) := by
  induction l with
  | nil => rfl
  | cons e l ih =>
    rw [List.map_cons, List.pairwise_cons] at h
    have hl : ∀ e' ∈ l, e.1 < e'.1 := fun e' he' => h.1 _ (List.mem_map_of_mem he')
    have ih := ih h.2
    rcases lt_trichotomy e.1 k with hlt | heq | hgt
    · rw [List.filter_cons_of_pos (by simpa using hlt), List.filter_cons_of_neg (by simpa using hlt.ne),
        List.filter_cons_of_neg (by simpa using hlt.le), List.cons_append, ← ih]
    · have hnone : l.filter (fun e => decide (e.1 < k)) = [] := by
        simp only [List.filter_eq_nil_iff, decide_eq_true_eq, not_lt]
        exact fun e' he' => heq ▸ (hl e' he').le
      rw [hnone, List.nil_append] at ih
      rw [List.filter_cons_of_neg (by simp [heq]), List.filter_cons_of_pos (by simpa using heq),
        List.filter_cons_of_neg (by simp [heq]), hnone, List.nil_append, List.cons_append, ← ih]
    · have hall : ∀ e' ∈ l, k < e'.1 := fun e' he' => hgt.trans (hl e' he')
      have hlt : l.filter (fun e => decide (e.1 < k)) = [] := by
        simp only [List.filter_eq_nil_iff, decide_eq_true_eq, not_lt]
        exact fun e' he' => (hall e' he').le
      have heq : l.filter (fun e => decide (e.1 = k)) = [] := by
        simp only [List.filter_eq_nil_iff, decide_eq_true_eq]
        exact fun e' he' => (hall e' he').ne'
      rw [hlt, heq, List.nil_append, List.nil_append] at ih
      rw [List.filter_cons_of_neg (by simpa using hgt.le), List.filter_cons_of_neg (by simpa using hgt.ne'),
        List.filter_cons_of_pos (by simpa using hgt), hlt, heq, List.nil_append, List.nil_append, ← ih]

/-- The entries are those below a key, the one at it, and those above it. -/
theorem entries_split (m : BTreeMap K V) (k : K) :
    m.entries = m.below k ++ (m.at? k ++ m.above k) := sorted_split k m.entries m.sorted

theorem mem_below {m : BTreeMap K V} {k : K} {e : K × V} :
    e ∈ m.below k ↔ e ∈ m.entries ∧ e.1 < k := by simp [below]

theorem mem_above {m : BTreeMap K V} {k : K} {e : K × V} :
    e ∈ m.above k ↔ e ∈ m.entries ∧ k < e.1 := by simp [above]

theorem nodup_keys (m : BTreeMap K V) : (m.entries.map Prod.fst).Nodup :=
  m.sorted.imp fun h => h.ne

theorem key_unique {m : BTreeMap K V} {k : K} {v v' : V} (h : (k, v) ∈ m.entries)
    (h' : (k, v') ∈ m.entries) : v = v' :=
  congrArg Prod.snd (List.inj_on_of_nodup_map m.nodup_keys h h' rfl)

theorem get?_eq_some {m : BTreeMap K V} {k : K} {v : V} :
    m.get? k = some v ↔ (k, v) ∈ m.entries := by
  rw [get?, Option.map_eq_some_iff]
  constructor
  · rintro ⟨e, he, rfl⟩
    have hk : e.1 = k := by simpa using List.find?_some he
    rw [← hk]
    exact List.mem_of_find?_eq_some he
  · intro h
    cases hf : m.entries.find? (fun e => e.1 = k) with
    | none => exact absurd (List.find?_eq_none.mp hf _ h) (by simp)
    | some e =>
      have hk : e.1 = k := by simpa using List.find?_some hf
      have hm : (k, e.2) ∈ m.entries := by rw [← hk]; exact List.mem_of_find?_eq_some hf
      exact ⟨e, rfl, key_unique hm h⟩

theorem get?_eq_none {m : BTreeMap K V} {k : K} :
    m.get? k = none ↔ ∀ v, (k, v) ∉ m.entries := by
  constructor
  · intro h v hv
    rw [get?_eq_some.mpr hv] at h
    cases h
  · intro h
    cases hg : m.get? k with
    | none => rfl
    | some v => exact absurd (get?_eq_some.mp hg) (h v)

theorem at?_eq (m : BTreeMap K V) (k : K) :
    m.at? k = match m.get? k with
      | some v => [(k, v)]
      | none => [] := by
  cases hg : m.get? k with
  | none =>
    rw [at?, List.filter_eq_nil_iff]
    rintro ⟨k', v⟩ he hk
    obtain rfl : k' = k := by simpa using hk
    exact get?_eq_none.mp hg v he
  | some v =>
    have hmem := get?_eq_some.mp hg
    have hall : ∀ e ∈ m.at? k, e = (k, v) := by
      rintro ⟨k', v'⟩ he
      obtain ⟨hin, hk⟩ := List.mem_filter.mp he
      obtain rfl : k' = k := by simpa using hk
      rw [key_unique hin hmem]
    have hnodup : (m.at? k).Nodup := (m.pairwise_entries.imp fun h he => h.ne (congrArg Prod.fst he)).filter _
    have hin : (k, v) ∈ m.at? k := List.mem_filter.mpr ⟨hmem, by simp⟩
    cases h : m.at? k with
    | nil => rw [h] at hin; cases hin
    | cons a l =>
      rw [h] at hall hnodup
      have ha : a = (k, v) := hall a (by simp)
      cases l with
      | nil => rw [ha]
      | cons b l =>
        have hb : b = (k, v) := hall b (by simp)
        rw [List.nodup_cons] at hnodup
        exact absurd (by simp [ha, hb]) hnodup.1

/-- A map is determined by what its keys look up. -/
theorem ext_get? {m m' : BTreeMap K V} (h : ∀ k, m.get? k = m'.get? k) : m = m' := by
  apply ext
  have hmem : ∀ e, e ∈ m.entries ↔ e ∈ m'.entries := by
    rintro ⟨k, v⟩
    rw [← get?_eq_some, ← get?_eq_some, h k]
  have hperm : m.entries.Perm m'.entries :=
    (List.perm_ext_iff_of_nodup m.nodup_keys.of_map m'.nodup_keys.of_map).mpr hmem
  exact hperm.eq_of_pairwise (fun a b _ _ hab hba => absurd (hab.trans hba) (lt_irrefl _))
    m.pairwise_entries m'.pairwise_entries

@[simp] theorem entries_insert (m : BTreeMap K V) (k : K) (v : V) :
    (m.insert k v).entries = m.below k ++ (k, v) :: m.above k := rfl

theorem entries_erase (m : BTreeMap K V) (k : K) :
    (m.erase k).entries = m.below k ++ m.above k := by
  have hb : (m.below k).filter (fun e => decide (e.1 ≠ k)) = m.below k := by
    rw [List.filter_eq_self]
    intro e he
    simpa using (mem_below.mp he).2.ne
  have ha : (m.above k).filter (fun e => decide (e.1 ≠ k)) = m.above k := by
    rw [List.filter_eq_self]
    intro e he
    simpa using (mem_above.mp he).2.ne'
  have ht : (m.at? k).filter (fun e => decide (e.1 ≠ k)) = [] := by
    rw [List.filter_eq_nil_iff]
    intro e he
    simpa using (List.mem_filter.mp he).2
  change m.entries.filter (fun e => decide (e.1 ≠ k)) = _
  rw [m.entries_split k, List.filter_append, List.filter_append, hb, ht, ha, List.nil_append]

theorem mem_entries_insert {m : BTreeMap K V} {k : K} {v : V} {e : K × V} :
    e ∈ (m.insert k v).entries ↔ e = (k, v) ∨ (e ∈ m.entries ∧ e.1 ≠ k) := by
  rw [entries_insert, List.mem_append, List.mem_cons, mem_below, mem_above]
  constructor
  · rintro (⟨he, hlt⟩ | rfl | ⟨he, hlt⟩)
    · exact .inr ⟨he, hlt.ne⟩
    · exact .inl rfl
    · exact .inr ⟨he, hlt.ne'⟩
  · rintro (rfl | ⟨he, hne⟩)
    · exact .inr (.inl rfl)
    · rcases lt_or_gt_of_ne hne with h | h
      · exact .inl ⟨he, h⟩
      · exact .inr (.inr ⟨he, h⟩)

theorem mem_entries_erase {m : BTreeMap K V} {k : K} {e : K × V} :
    e ∈ (m.erase k).entries ↔ e ∈ m.entries ∧ e.1 ≠ k := by simp [erase]

theorem get?_insert (m : BTreeMap K V) (k k' : K) (v : V) :
    (m.insert k v).get? k' = if k' = k then some v else m.get? k' := by
  ext w
  rw [get?_eq_some, mem_entries_insert]
  by_cases h : k' = k
  · simp [h, eq_comm]
  · simp [h, get?_eq_some]

theorem get?_erase (m : BTreeMap K V) (k k' : K) :
    (m.erase k).get? k' = if k' = k then none else m.get? k' := by
  ext w
  rw [get?_eq_some, mem_entries_erase]
  by_cases h : k' = k
  · simp [h]
  · simp [h, get?_eq_some]

end BTreeMap
end OrderBookServer
