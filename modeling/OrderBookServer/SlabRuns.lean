import OrderBookServer.SlabRefinement

/-!
# Every history of a list

The list that calls have made of an empty one is the sequence that the same calls make: its
links lead through exactly the occupied slots, in both directions, its index has exactly
their keys, and the next call does to it what it does to the sequence.
-/
namespace OrderBookServer

variable {K T : Type}

open Cells

/-! ### The slots on the way -/

namespace Segment

variable {slab : Slab (Node K T)} {prev next : Option ℕ} {cells : Cells K T} {turns : ℕ}

/-- Along `next` the slots of a row are met in order. -/
theorem visits_next (h : Segment slab prev cells none) (hturns : cells.length ≤ turns) :
    SlabList.visits slab Node.next turns (first cells none) = some cells.sids := by
  induction cells generalizing prev turns with
  | nil => cases turns <;> rfl
  | cons c cells ih =>
    obtain ⟨i, k, v⟩ := c
    obtain ⟨turns, rfl⟩ : ∃ n, turns = n + 1 := ⟨turns - 1, by
      rw [List.length_cons] at hturns
      omega⟩
    have hrest := ih h.2 (Nat.le_of_succ_le_succ hturns)
    rw [first_cons, SlabList.visits, h.1]
    simp [hrest]

/-- Along `prev` they are met in the opposite order. -/
theorem visits_prev (h : Segment slab none cells next) (hturns : cells.length ≤ turns) :
    SlabList.visits slab Node.prev turns (last none cells) = some cells.sids.reverse := by
  induction cells using List.reverseRecOn generalizing next turns with
  | nil => cases turns <;> rfl
  | append_singleton cells c ih =>
    obtain ⟨i, k, v⟩ := c
    rw [List.length_append, List.length_singleton] at hturns
    obtain ⟨turns, rfl⟩ : ∃ n, turns = n + 1 := ⟨turns - 1, by omega⟩
    obtain ⟨hcells, hi, -⟩ := middle_iff.mp h
    have hrest := ih hcells (Nat.le_of_succ_le_succ hturns)
    rw [last_append_singleton, SlabList.visits, hi]
    simp [hrest]

/-- What the slots of a row hold, in order. -/
theorem nodes (h : Segment slab prev cells next) :
    (cells.sids.filterMap fun i => slab.lookup i).map (fun node => (node.key, node.value)) =
      cells.map Prod.snd := by
  induction cells generalizing prev with
  | nil => rfl
  | cons c cells ih =>
    obtain ⟨i, k, v⟩ := c
    simp [h.1, ih h.2]

/-- The node of a cell is in the slot of the cell. -/
theorem lookup_of_mem {i : ℕ} {k : K} {v : T} (h : Segment slab prev cells next)
    (hmem : (i, k, v) ∈ cells) : ∃ node, slab.lookup i = some node ∧ node.key = k := by
  obtain ⟨a, b, rfl⟩ := List.append_of_mem hmem
  obtain ⟨-, hi, -⟩ := middle_iff.mp h
  exact ⟨_, hi, rfl⟩

end Segment

namespace LinkedList

variable [DecidableEq K] {l : LinkedList K T} {A B : List (K × T)} {key : K} {v : T}

theorem nodeValue_split (h : l.entries = A ++ (key, v) :: B) : l.nodeValue key = some v := by
  have hA : A.find? (fun e => e.1 = key) = none :=
    List.find?_eq_none.mpr fun e he => by simpa using (notMem_around h).1 e he
  rw [nodeValue, h, List.find?_append, hA]
  simp

theorem nodeValue_of_notMem (h : key ∉ l.keys) : l.nodeValue key = none := by
  rw [nodeValue, Option.map_eq_none_iff, List.find?_eq_none]
  intro e he
  simp only [decide_eq_true_eq]
  rintro rfl
  exact h (mem_keys.mpr ⟨e.2, he⟩)

theorem runAll_snoc (l : LinkedList K T) (ops : List (ListOp K T)) (op : ListOp K T) :
    l.runAll (ops ++ [op]) =
      ((l.runAll ops).1 ++ [((l.runAll ops).2.run op).1], ((l.runAll ops).2.run op).2) := by
  induction ops generalizing l with
  | nil => rfl
  | cons first ops ih =>
    rw [List.cons_append, runAll, ih]
    rfl

end LinkedList

namespace SlabList

variable [DecidableEq K] {self next : SlabList K T} {l : LinkedList K T} {sid : ℕ}
  {op : ListOp K T} {ops : List (ListOp K T)} {results : List Bool}

/-- A call that is refused leaves the list as it is. -/
theorem run_refused (h : self.run sid op = some (false, next)) : next = self := by
  cases op with
  | pushBack key value =>
    simp only [run, pushBack] at h
    split at h
    · simpa using h.symm
    · split at h <;> simp [Option.bind_eq_some_iff] at h
  | insertBefore before key value =>
    simp only [run, insertBefore] at h
    split at h
    · simpa using h.symm
    · split at h
      · simpa using h.symm
      · simp only [Option.bind_eq_bind, Option.bind_eq_some_iff] at h
        obtain ⟨node, -, slab, -, h⟩ := h
        split at h <;> simp [Option.bind_eq_some_iff] at h
  | updateHead f =>
    simp only [run, updateHead] at h
    split at h
    · simpa using h.symm
    · simp [Option.bind_eq_some_iff] at h
  | removeFront =>
    simp only [run, removeFront] at h
    split at h
    · simpa using h.symm
    · simp only [Option.bind_eq_bind, Option.bind_eq_some_iff] at h
      obtain ⟨removed, -, h⟩ := h
      split at h <;> simp [Option.bind_eq_some_iff] at h
  | removeNode key =>
    simp only [run, removeNode] at h
    split at h
    · simpa using h.symm
    · simp only [Option.bind_eq_bind, Option.bind_eq_some_iff] at h
      obtain ⟨removed, -, h⟩ := h
      split at h <;> split at h <;> simp [Option.bind_eq_some_iff] at h
  | updateNode key f =>
    simp only [run, updateNode] at h
    split at h
    · simpa using h.symm
    · simp [Option.bind_eq_some_iff] at h

/-- The references lead to the values of the sequence. -/
theorem Represents.headValue (h : Represents self l) : self.headValue = some l.headValue := by
  obtain ⟨cells, hencodes, hcells⟩ := h
  unfold SlabList.headValue LinkedList.headValue
  rw [hencodes.head, ← hcells]
  cases cells with
  | nil => rfl
  | cons c b =>
    obtain ⟨i, k, v⟩ := c
    rw [first_cons]
    simp [hencodes.segment.1]

theorem Represents.nodeValue (h : Represents self l) (key : K) :
    self.nodeValue key = some (l.nodeValue key) := by
  obtain ⟨cells, hencodes, hcells⟩ := h
  unfold SlabList.nodeValue
  cases hlookup : self.keyToSid.lookup key with
  | none =>
    have hkey : key ∉ l.keys := fun hmem =>
      Finmap.lookup_eq_none.mp hlookup ((hencodes.mem_keys_iff hcells).mpr hmem)
    rw [LinkedList.nodeValue_of_notMem hkey]
  | some i =>
    obtain ⟨a, v, b, rfl⟩ := hencodes.keyed.split hlookup
    rw [List.map_append] at hcells
    obtain ⟨-, hi, -⟩ := Segment.middle_iff.mp hencodes.segment
    rw [LinkedList.nodeValue_split hcells.symm]
    simp [hi]

/-- A list and the sequence it stands for. Both ways through its links meet exactly the occupied
slots, the index has exactly their keys, and what they hold, in order, is the sequence. -/
structure Refines (list : SlabList K T) (l : LinkedList K T) (slots : List ℕ) : Prop where
  forward : ∀ turns, slots.length ≤ turns →
    visits list.slab Node.next turns list.head = some slots
  backward : ∀ turns, slots.length ≤ turns →
    visits list.slab Node.prev turns list.tail = some slots.reverse
  once : slots.Nodup
  occupied : ∀ i, i ∈ list.slab ↔ i ∈ slots
  index : ∀ key i, list.keyToSid.lookup key = some i ↔
    ∃ node, list.slab.lookup i = some node ∧ node.key = key
  holds : (slots.filterMap fun i => list.slab.lookup i).map (fun node => (node.key, node.value)) =
    l.entries
  isEmpty : list.isEmpty = true ↔ slots = []
  headValue : list.headValue = some l.headValue
  nodeValue : ∀ key, list.nodeValue key = some (l.nodeValue key)
  toVec : ∀ turns, slots.length ≤ turns → list.toVec turns = some l.toVec
  fold : ∀ {A : Type} turns, slots.length ≤ turns → ∀ (init : A) (f : A → T → A),
    list.fold turns init f = some (l.fold init f)

theorem Encodes.index_iff {cells : Cells K T} (h : Encodes self cells) (key : K) (i : ℕ) :
    self.keyToSid.lookup key = some i ↔
      ∃ node, self.slab.lookup i = some node ∧ node.key = key := by
  rw [h.keyed.index]
  constructor
  · rintro ⟨v, hv⟩
    exact h.segment.lookup_of_mem hv
  · rintro ⟨node, hnode, hkey⟩
    have hi : i ∈ cells.sids := h.mem_slab_iff.mp (Finmap.mem_of_lookup_eq_some hnode)
    obtain ⟨⟨j, k, v⟩, hmem, hj⟩ := List.mem_map.mp hi
    obtain rfl : j = i := hj
    obtain ⟨node', hnode', hkey'⟩ := h.segment.lookup_of_mem hmem
    have hsame : node = node' := by
      rw [hnode'] at hnode
      exact (Option.some.inj hnode).symm
    have hk : k = key := by rw [← hkey', ← hsame, hkey]
    exact ⟨v, hk ▸ hmem⟩

/-- The slots are those of the nodes. -/
theorem Represents.refines (h : Represents self l) : ∃ slots, Refines self l slots := by
  have hsequence := h
  obtain ⟨cells, hencodes, hcells⟩ := h
  have hlength : cells.sids.length = cells.length := List.length_map _
  have hentries : l.entries.length = cells.sids.length := by
    rw [← hcells, List.length_map, hlength]
  have hempty : cells = [] ↔ cells.sids = [] := List.map_eq_nil_iff.symm
  exact ⟨cells.sids, {
    forward := fun turns hturns => by
      rw [hencodes.head]
      exact hencodes.segment.visits_next (hlength ▸ hturns)
    backward := fun turns hturns => by
      rw [hencodes.tail]
      exact hencodes.segment.visits_prev (hlength ▸ hturns)
    once := hencodes.keyed.nodup
    occupied := fun i => hencodes.mem_slab_iff
    index := hencodes.index_iff
    holds := by rw [hencodes.segment.nodes, hcells]
    isEmpty := by rw [hencodes.isEmpty_iff, hempty]
    headValue := hsequence.headValue
    nodeValue := hsequence.nodeValue
    toVec := fun turns hturns => hsequence.toVec (hentries ▸ hturns)
    fold := fun turns hturns => hsequence.fold (hentries ▸ hturns) }⟩

/-- Calls return what they return on the sequence, and the list holds the sequence after them. -/
theorem Calls.represents (h : Calls ops results self) :
    results = (LinkedList.new.runAll ops).1 ∧ Represents self (LinkedList.new.runAll ops).2 := by
  induction h with
  | new => exact ⟨rfl, represents_new⟩
  | call before sid op vacant hrun ih =>
    obtain ⟨hresults, hbefore⟩ := ih
    obtain ⟨next, hnext, hafter⟩ := hbefore.run vacant op
    rw [hrun] at hnext
    cases hnext
    rw [LinkedList.runAll_snoc]
    exact ⟨by rw [hresults], hafter⟩

/-- The list in its slab is the keyed sequence: after any calls it holds what they make of the
empty sequence, and another call on it cannot fail at the slab, returns what it returns on the
sequence and leaves a list of the sequence after it. A call that is refused changes nothing. -/
theorem list_refines_sequence (h : Calls ops results self) :
    results = (LinkedList.new.runAll ops).1 ∧
      (∃ slots, Refines self (LinkedList.new.runAll ops).2 slots) ∧
      ∀ sid op, sid ∉ self.slab → ∃ next slots,
        self.run sid op = some (((LinkedList.new.runAll ops).2.run op).1, next) ∧
          Refines next ((LinkedList.new.runAll ops).2.run op).2 slots ∧
          (((LinkedList.new.runAll ops).2.run op).1 = false → next = self) := by
  obtain ⟨hresults, hsequence⟩ := h.represents
  refine ⟨hresults, hsequence.refines, fun sid op hsid => ?_⟩
  obtain ⟨next, hrun, hnext⟩ := hsequence.run hsid op
  obtain ⟨slots, hslots⟩ := hnext.refines
  refine ⟨next, slots, hrun, hslots, fun hfalse => ?_⟩
  rw [hfalse] at hrun
  exact run_refused hrun

/-- Two keys, the first of which is removed and put back into its old slot. -/
theorem list_refines_sequence_two_keys :
    ∃ (self : SlabList ℕ ℕ) (l : LinkedList ℕ ℕ) (slots : List ℕ),
      Refines self l slots ∧ l.entries = [(2, 20), (1, 30)] := by
  have first : Calls _ _ _ := .call .new 0 (.pushBack 1 10) (by decide) rfl
  have second : Calls _ _ _ := .call first 1 (.insertBefore 1 2 20) (by decide) rfl
  have third : Calls _ _ _ := .call second 5 (.removeNode 1) (by decide) rfl
  have fourth : Calls _ _ _ := .call third 0 (.pushBack 1 30) (by decide) rfl
  obtain ⟨-, ⟨slots, hslots⟩, -⟩ := list_refines_sequence fourth
  exact ⟨_, _, slots, hslots, rfl⟩

end SlabList

end OrderBookServer
