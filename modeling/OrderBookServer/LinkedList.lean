import Mathlib.Data.List.Nodup
import Mathlib.Tactic

/-!
# Keyed sequences

The list kept at one price level: a sequence of values under distinct keys. It
is the sequence the slab-backed list of the source encodes, with the operations
that list offers. Each operation that can refuse returns whether it was carried
out, and a refused operation returns the list it was given.
-/
namespace OrderBookServer

structure LinkedList (K T : Type*) where
  entries : List (K × T)
  nodup : (entries.map Prod.fst).Nodup

namespace LinkedList

variable {K T : Type*}

@[ext] theorem ext {l l' : LinkedList K T} (h : l.entries = l'.entries) : l = l' := by
  cases l; cases l'; cases h; rfl

instance [DecidableEq K] [DecidableEq T] : DecidableEq (LinkedList K T) := fun l l' =>
  decidable_of_iff (l.entries = l'.entries) ⟨ext, fun h => h ▸ rfl⟩

def keys (l : LinkedList K T) : List K := l.entries.map Prod.fst

def new : LinkedList K T := ⟨[], by simp⟩

def isEmpty (l : LinkedList K T) : Bool := l.entries.isEmpty

def toVec (l : LinkedList K T) : List T := l.entries.map Prod.snd

def fold {A : Type*} (l : LinkedList K T) (init : A) (f : A → T → A) : A := l.toVec.foldl f init

@[simp] theorem entries_new : (new : LinkedList K T).entries = [] := rfl

theorem mem_keys {l : LinkedList K T} {k : K} : k ∈ l.keys ↔ ∃ v, (k, v) ∈ l.entries := by
  simp [keys]

variable [DecidableEq K]

def pushBack (l : LinkedList K T) (key : K) (value : T) : Bool × LinkedList K T :=
  if h : key ∈ l.keys then (false, l)
  else (true, ⟨l.entries ++ [(key, value)], by
    rw [List.map_append, List.map_singleton, List.nodup_append]
    refine ⟨l.nodup, by simp, ?_⟩
    rintro a ha b hb rfl
    obtain rfl : a = key := by simpa using hb
    exact h ha⟩)

/-- The entries in front of the first one with key `before`. -/
def front (before : K) (es : List (K × T)) : List (K × T) := es.takeWhile fun e => e.1 ≠ before

/-- The first entry with key `before` and all entries after it. -/
def back (before : K) (es : List (K × T)) : List (K × T) := es.dropWhile fun e => e.1 ≠ before

theorem front_append_back (before : K) (es : List (K × T)) : front before es ++ back before es = es :=
  List.takeWhile_append_dropWhile

/-- Insert `key` directly in front of `before`, which must be present. -/
def insertBefore (l : LinkedList K T) (before key : K) (value : T) : Bool × LinkedList K T :=
  if h : key ∈ l.keys then (false, l)
  else if before ∈ l.keys then
    (true, ⟨front before l.entries ++ (key, value) :: back before l.entries, by
      have hl := l.nodup
      rw [← front_append_back before l.entries, List.map_append] at hl
      rw [keys, ← front_append_back before l.entries, List.map_append, List.mem_append, not_or] at h
      rw [List.map_append, List.map_cons, List.nodup_middle, List.nodup_cons, List.mem_append]
      exact ⟨not_or.mpr h, hl⟩⟩)
  else (false, l)

def removeNode (l : LinkedList K T) (key : K) : Bool × LinkedList K T :=
  if key ∈ l.keys then
    (true, ⟨l.entries.filter fun e => e.1 ≠ key, l.nodup.sublist (List.filter_sublist.map _)⟩)
  else (false, l)

/-- Rewrite the value stored under `key` through the reference to it. -/
def updateNode (l : LinkedList K T) (key : K) (f : T → T) : Bool × LinkedList K T :=
  if key ∈ l.keys then
    (true, ⟨l.entries.map fun e => if e.1 = key then (e.1, f e.2) else e, by
      have hk : (Prod.fst ∘ fun e : K × T => if e.1 = key then (e.1, f e.2) else e) = Prod.fst := by
        funext e; simp only [Function.comp]; split <;> rfl
      rw [List.map_map, hk]
      exact l.nodup⟩)
  else (false, l)

theorem pushBack_of_notMem {l : LinkedList K T} {key : K} (value : T) (h : key ∉ l.keys) :
    (l.pushBack key value).1 = true ∧
      (l.pushBack key value).2.entries = l.entries ++ [(key, value)] := by
  simp [pushBack, h]

theorem pushBack_of_mem {l : LinkedList K T} {key : K} (value : T) (h : key ∈ l.keys) :
    l.pushBack key value = (false, l) := by simp [pushBack, h]

theorem insertBefore_of_mem {l : LinkedList K T} {before key : K} (value : T) (h : key ∉ l.keys)
    (hb : before ∈ l.keys) : (l.insertBefore before key value).1 = true ∧
      (l.insertBefore before key value).2.entries =
        front before l.entries ++ (key, value) :: back before l.entries := by
  simp [insertBefore, h, hb]

theorem insertBefore_refused {l : LinkedList K T} {before key : K} (value : T)
    (h : key ∈ l.keys ∨ before ∉ l.keys) : l.insertBefore before key value = (false, l) := by
  unfold insertBefore
  split_ifs with h1 h2
  · rfl
  · cases h with
    | inl hk => exact absurd hk h1
    | inr hb => exact absurd h2 hb
  · rfl

theorem removeNode_of_mem {l : LinkedList K T} {key : K} (h : key ∈ l.keys) :
    (l.removeNode key).1 = true ∧
      (l.removeNode key).2.entries = l.entries.filter fun e => e.1 ≠ key := by
  simp [removeNode, h]

theorem removeNode_of_notMem {l : LinkedList K T} {key : K} (h : key ∉ l.keys) :
    l.removeNode key = (false, l) := by simp [removeNode, h]

theorem updateNode_of_mem {l : LinkedList K T} {key : K} (f : T → T) (h : key ∈ l.keys) :
    (l.updateNode key f).1 = true ∧
      (l.updateNode key f).2.entries =
        l.entries.map fun e => if e.1 = key then (e.1, f e.2) else e := by
  simp [updateNode, h]

theorem updateNode_of_notMem {l : LinkedList K T} {key : K} (f : T → T) (h : key ∉ l.keys) :
    l.updateNode key f = (false, l) := by simp [updateNode, h]

end LinkedList
end OrderBookServer
