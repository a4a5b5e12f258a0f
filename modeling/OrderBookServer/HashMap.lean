import Mathlib.Data.Finmap
import Mathlib.Tactic

/-!
# Hash maps

A hash map is a finite map with no iteration order, so it is Mathlib's `Finmap`
at a constant family. Only what `Finmap` lacks is added: the update of the value
under one key, maps and restrictions of all entries, and the `collect` of a list
of pairs, in which a later pair replaces an earlier one with the same key.
-/
namespace OrderBookServer

abbrev HashMap (K V : Type*) := Finmap (fun _ : K => V)

namespace HashMap

variable {K V W : Type*} [DecidableEq K]

theorem lookup_insert_ite (m : HashMap K V) (k k' : K) (v : V) :
    (m.insert k v).lookup k' = if k' = k then some v else m.lookup k' := by
  by_cases h : k' = k
  · subst h; simp
  · rw [if_neg h, Finmap.lookup_insert_of_ne _ h]

theorem lookup_erase_ite (m : HashMap K V) (k k' : K) :
    (m.erase k).lookup k' = if k' = k then none else m.lookup k' := by
  by_cases h : k' = k
  · subst h; simp
  · rw [if_neg h, Finmap.lookup_erase_ne h]

theorem keys_insert (m : HashMap K V) (k : K) (v : V) :
    (m.insert k v).keys = insert k m.keys := by
  ext k'
  simp [Finmap.mem_keys, Finmap.mem_insert]

/-- Apply `f` to the value of every entry, keeping the keys. -/
def mapValues (f : K → V → W) (m : HashMap K V) : HashMap K W where
  entries := m.entries.map fun e => ⟨e.1, f e.1 e.2⟩
  nodupKeys := by
    have h := m.nodupKeys
    rw [← Multiset.nodup_keys] at h ⊢
    simpa [Multiset.keys] using h

theorem mem_mapValues_entries (f : K → V → W) (m : HashMap K V) (k : K) (w : W) :
    (⟨k, w⟩ : Sigma fun _ : K => W) ∈ (m.mapValues f).entries ↔
      ∃ v, m.lookup k = some v ∧ f k v = w := by
  simp only [mapValues, Multiset.mem_map, Sigma.exists, Finmap.lookup_eq_some_iff]
  constructor
  · rintro ⟨k', v, hmem, heq⟩
    cases heq
    exact ⟨v, hmem, rfl⟩
  · rintro ⟨v, hmem, rfl⟩
    exact ⟨k, v, hmem, rfl⟩

@[simp] theorem lookup_mapValues (f : K → V → W) (m : HashMap K V) (k : K) :
    (m.mapValues f).lookup k = (m.lookup k).map (f k) := by
  ext w
  rw [Finmap.lookup_eq_some_iff, mem_mapValues_entries]
  simp [Option.map_eq_some_iff]

@[simp] theorem keys_mapValues (f : K → V → W) (m : HashMap K V) :
    (m.mapValues f).keys = m.keys := by
  ext k
  simp only [Finmap.mem_keys, ← Finmap.lookup_isSome, lookup_mapValues, Option.isSome_map]

/-- Keep the entries whose key satisfies `p`. -/
def restrict (p : K → Bool) (m : HashMap K V) : HashMap K V where
  entries := m.entries.filter fun e => p e.1 = true
  nodupKeys := by
    have h := m.nodupKeys
    rw [← Multiset.nodup_keys] at h ⊢
    exact Multiset.nodup_of_le (Multiset.map_le_map (Multiset.filter_le _ _)) h

@[simp] theorem lookup_restrict (p : K → Bool) (m : HashMap K V) (k : K) :
    (m.restrict p).lookup k = if p k then m.lookup k else none := by
  ext v
  rw [Finmap.lookup_eq_some_iff]
  simp only [restrict, Multiset.mem_filter]
  by_cases h : p k = true
  · simp [h, Finmap.lookup_eq_some_iff]
  · simp [h]

theorem restrict_congr {p : K → Bool} {m m' : HashMap K V}
    (h : ∀ k, p k = true → m.lookup k = m'.lookup k) : m.restrict p = m'.restrict p := by
  apply Finmap.ext_lookup
  intro k
  rw [lookup_restrict, lookup_restrict]
  split_ifs with hk
  · exact h k hk
  · rfl

theorem mem_keys_restrict (p : K → Bool) (m : HashMap K V) (k : K) :
    k ∈ (m.restrict p).keys ↔ k ∈ m.keys ∧ p k = true := by
  simp only [Finmap.mem_keys, ← Finmap.lookup_isSome, lookup_restrict]
  by_cases h : p k = true <;> simp [h]

/-- `extend`: the entries of `new` are inserted over those of `m`. -/
def extend (m new : HashMap K V) : HashMap K V := new ∪ m

@[simp] theorem lookup_extend (m new : HashMap K V) (k : K) :
    (m.extend new).lookup k = (new.lookup k).or (m.lookup k) := by
  by_cases h : k ∈ new
  · obtain ⟨v, hv⟩ := Finmap.mem_iff.mp h
    rw [extend, Finmap.lookup_union_left h, hv, Option.some_or]
  · rw [extend, Finmap.lookup_union_right h, Finmap.lookup_eq_none.mpr h, Option.none_or]

@[simp] theorem keys_extend (m new : HashMap K V) :
    (m.extend new).keys = new.keys ∪ m.keys := Finmap.keys_union

/-- `entry(k).or_insert_with(init)`, and then a change of the value. -/
def upsert (m : HashMap K V) (k : K) (init : V) (f : V → V) : HashMap K V :=
  m.insert k (f ((m.lookup k).getD init))

theorem lookup_upsert (m : HashMap K V) (k k' : K) (init : V) (f : V → V) :
    (m.upsert k init f).lookup k' =
      if k' = k then some (f ((m.lookup k).getD init)) else m.lookup k' :=
  lookup_insert_ite m k k' _

/-- A list of changes, each under a key of its own, makes under each key the changes of
that key in their order. -/
theorem lookup_foldl_upsert {A : Type*} (key : A → K) (init : V) (f : A → V → V) (l : List A)
    (m : HashMap K V) (k : K) :
    (l.foldl (fun m a => m.upsert (key a) init (f a)) m).lookup k =
      if l.filter (fun a => key a = k) = [] then m.lookup k
      else some ((l.filter fun a => key a = k).foldl (fun v a => f a v) ((m.lookup k).getD init)) := by
  induction l generalizing m with
  | nil => simp
  | cons a l ih =>
    rw [List.foldl_cons, ih, lookup_upsert]
    by_cases ha : k = key a
    · subst ha
      simp only [List.filter_cons, decide_true, if_true, Option.getD_some, List.foldl_cons,
        List.cons_ne_nil, if_false]
      split_ifs with hnone
      · rw [hnone, List.foldl_nil]
      · rfl
    · have hskip : (a :: l).filter (fun a => key a = k) = l.filter fun a => key a = k :=
        List.filter_cons_of_neg (by simpa using Ne.symm ha)
      rw [if_neg ha, hskip]

/-- `collect` of a list of pairs, from the left: a later pair wins. -/
def collect (l : List (K × V)) : HashMap K V :=
  l.foldl (fun m e => m.insert e.1 e.2) ∅

theorem lookup_foldl_insert (l : List (K × V)) (m : HashMap K V) (k : K) :
    (l.foldl (fun m e => m.insert e.1 e.2) m).lookup k =
      ((l.reverse.find? fun e => e.1 = k).map Prod.snd).or (m.lookup k) := by
  induction l generalizing m with
  | nil => simp
  | cons e l ih =>
    rw [List.foldl_cons, ih, List.reverse_cons, List.find?_append, lookup_insert_ite]
    cases l.reverse.find? (fun e => decide (e.1 = k)) with
    | some e' => simp
    | none =>
      by_cases h : k = e.1
      · simp [h]
      · simp [h, Ne.symm h]

theorem lookup_collect (l : List (K × V)) (k : K) :
    (collect l).lookup k = (l.reverse.find? fun e => e.1 = k).map Prod.snd := by
  simp [collect, lookup_foldl_insert]

/-! ### Indexes

A map indexes a list of keyed facts when it looks up exactly these facts and no
key has two. -/

structure Indexes (m : HashMap K V) (facts : List (K × V)) : Prop where
  nodup : (facts.map Prod.fst).Nodup
  lookup_iff : ∀ k v, m.lookup k = some v ↔ (k, v) ∈ facts

omit [DecidableEq K] in
theorem eq_of_mem_of_nodup {facts : List (K × V)} (h : (facts.map Prod.fst).Nodup) {k : K} {v w : V}
    (hv : (k, v) ∈ facts) (hw : (k, w) ∈ facts) : v = w :=
  congrArg Prod.snd (List.inj_on_of_nodup_map h hv hw rfl)

namespace Indexes

variable {m m' : HashMap K V} {facts facts' : List (K × V)}

theorem empty : Indexes (∅ : HashMap K V) [] := ⟨by simp, by simp⟩

theorem lookup_eq_none (h : Indexes m facts) {k : K} :
    m.lookup k = none ↔ k ∉ facts.map Prod.fst := by
  rw [Option.eq_none_iff_forall_ne_some, List.mem_map]
  constructor
  · rintro hnone ⟨⟨k', v⟩, hm, rfl⟩
    exact hnone v ((h.lookup_iff k' v).mpr hm)
  · intro hnot v hv
    exact hnot ⟨(k, v), (h.lookup_iff k v).mp hv, rfl⟩

theorem perm (h : Indexes m facts) (hp : facts.Perm facts') : Indexes m facts' :=
  ⟨(hp.map Prod.fst).nodup_iff.mp h.nodup, fun k v => (h.lookup_iff k v).trans hp.mem_iff⟩

/-- Two maps that index the same facts are equal. -/
theorem unique (h : Indexes m facts) (h' : Indexes m' facts) : m = m' := by
  apply Finmap.ext_lookup
  intro k
  ext v
  rw [h.lookup_iff, h'.lookup_iff]

theorem insert (h : Indexes m facts) {k : K} (hk : k ∉ facts.map Prod.fst) (v : V) :
    Indexes (m.insert k v) ((k, v) :: facts) := by
  refine ⟨List.nodup_cons.mpr ⟨hk, h.nodup⟩, fun k' v' => ?_⟩
  rw [lookup_insert_ite, List.mem_cons, Prod.mk.injEq]
  by_cases he : k' = k
  · subst he
    have hnot : (k', v') ∉ facts := fun hm => hk (List.mem_map.mpr ⟨_, hm, rfl⟩)
    simp [hnot, eq_comm]
  · simp [he, h.lookup_iff]

theorem erase {k : K} {v : V} (h : Indexes m ((k, v) :: facts)) : Indexes (m.erase k) facts := by
  have hnd := List.nodup_cons.mp h.nodup
  refine ⟨hnd.2, fun k' v' => ?_⟩
  rw [lookup_erase_ite]
  by_cases he : k' = k
  · subst he
    have hnot : (k', v') ∉ facts := fun hm => hnd.1 (List.mem_map.mpr ⟨_, hm, rfl⟩)
    simp [hnot]
  · simp [he, h.lookup_iff]

/-- Erasing the keys of the first facts leaves an index of the others. -/
theorem eraseAll (gone : List (K × V)) (h : Indexes m (gone ++ facts)) :
    Indexes ((gone.map Prod.fst).foldl (fun m k => Finmap.erase k m) m) facts := by
  induction gone generalizing m with
  | nil => exact h
  | cons e gone ih => exact ih (h.erase (v := e.2))

/-- Collecting pairs of distinct keys indexes them. -/
theorem collect {l : List (K × V)} (h : (l.map Prod.fst).Nodup) : Indexes (collect l) l := by
  refine ⟨h, fun k v => ?_⟩
  rw [lookup_collect, Option.map_eq_some_iff]
  constructor
  · rintro ⟨e, he, rfl⟩
    have hk : e.1 = k := by simpa using List.find?_some he
    rw [← hk]
    exact List.mem_reverse.mp (List.mem_of_find?_eq_some he)
  · intro hm
    cases hf : l.reverse.find? (fun e => decide (e.1 = k)) with
    | none => exact absurd (List.find?_eq_none.mp hf _ (List.mem_reverse.mpr hm)) (by simp)
    | some e =>
      have hk : e.1 = k := by simpa using List.find?_some hf
      have he : (k, e.2) ∈ l := by
        rw [← hk]
        exact List.mem_reverse.mp (List.mem_of_find?_eq_some hf)
      exact ⟨e, rfl, eq_of_mem_of_nodup h he hm⟩

end Indexes

end HashMap
end OrderBookServer
