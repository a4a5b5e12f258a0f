import OrderBookServer.SlabList

/-!
# The slab holds the sequence

The nodes of a list are those met from its head along `next`, and in the opposite order
those met from its tail along `prev`; no other slot is occupied, and the index has exactly
their keys. Every call keeps this, so none of its accesses to the slab can fail, and does to
the sequence what the keyed sequence does.
-/
namespace OrderBookServer

variable {K T : Type}

/-! ### Segments of linked nodes -/

/-- The slots, keys and values of nodes in a row. -/
abbrev Cells (K T : Type) := List (ℕ × K × T)

namespace Cells

def sids (cells : Cells K T) : List ℕ := cells.map Prod.fst

/-- Where a link to the nodes leads, if there are none to `next`. -/
def first (cells : Cells K T) (next : Option ℕ) : Option ℕ := (cells.sids.head?).or next

def last (prev : Option ℕ) (cells : Cells K T) : Option ℕ := (cells.sids.getLast?).or prev

variable {a b cells : Cells K T} {prev next : Option ℕ} {i : ℕ}

@[simp] theorem sids_nil : sids ([] : Cells K T) = [] := rfl

@[simp] theorem sids_cons (c : ℕ × K × T) (b : Cells K T) : sids (c :: b) = c.1 :: b.sids := rfl

@[simp] theorem sids_append (a b : Cells K T) : sids (a ++ b) = a.sids ++ b.sids :=
  List.map_append

@[simp] theorem first_nil (next : Option ℕ) : first ([] : Cells K T) next = next := rfl

@[simp] theorem first_cons (c : ℕ × K × T) (b : Cells K T) (next : Option ℕ) :
    first (c :: b) next = some c.1 := rfl

theorem first_append (a b : Cells K T) (next : Option ℕ) :
    first (a ++ b) next = first a (first b next) := by
  cases a with
  | nil => rfl
  | cons c a => rfl

theorem first_of_snoc (a b : Cells K T) (c : ℕ × K × T) (next : Option ℕ) :
    first (a ++ [c] ++ b) next = first (a ++ [c]) none := by
  cases a with
  | nil => rfl
  | cons d a => rfl

@[simp] theorem last_nil (prev : Option ℕ) : last prev ([] : Cells K T) = prev := rfl

@[simp] theorem last_append_singleton (prev : Option ℕ) (a : Cells K T) (c : ℕ × K × T) :
    last prev (a ++ [c]) = some c.1 := by simp [last, sids]

theorem last_append (prev : Option ℕ) (a b : Cells K T) :
    last prev (a ++ b) = last (last prev a) b := by
  obtain rfl | ⟨b, c, rfl⟩ := b.eq_nil_or_concat
  · rw [List.append_nil, last_nil]
  · rw [List.concat_eq_append, ← List.append_assoc, last_append_singleton, last_append_singleton]

@[simp] theorem last_cons (prev : Option ℕ) (c : ℕ × K × T) (b : Cells K T) :
    last prev (c :: b) = last (some c.1) b := by
  rw [← List.singleton_append, last_append]
  rfl

end Cells

open Cells

/-- The nodes are in the slab, and linked both ways to each other and to what is around. -/
def Segment (slab : Slab (Node K T)) : Option ℕ → Cells K T → Option ℕ → Prop
  | _, [], _ => True
  | prev, (i, k, v) :: rest, next =>
    slab.lookup i = some ⟨k, v, first rest next, prev⟩ ∧ Segment slab (some i) rest next

namespace Segment

variable {slab slab' : Slab (Node K T)} {prev next : Option ℕ} {a b cells : Cells K T} {i : ℕ}
  {k : K} {v : T}

/-- Two rows of nodes, each linked to the other. -/
theorem append_iff : Segment slab prev (a ++ b) next ↔
    Segment slab prev a (first b next) ∧ Segment slab (last prev a) b next := by
  induction a generalizing prev with
  | nil => simp [Segment]
  | cons c a ih =>
    obtain ⟨i, k, v⟩ := c
    rw [List.cons_append, Segment, Segment, first_append, ih, last_cons, and_assoc]

/-- A row with a node in it. -/
theorem middle_iff : Segment slab prev (a ++ (i, k, v) :: b) next ↔
    Segment slab prev a (some i) ∧
      slab.lookup i = some ⟨k, v, first b next, last prev a⟩ ∧ Segment slab (some i) b next := by
  rw [append_iff, first_cons, Segment]

theorem congr (h : Segment slab prev cells next)
    (hsame : ∀ i ∈ cells.sids, slab'.lookup i = slab.lookup i) : Segment slab' prev cells next := by
  induction cells generalizing prev with
  | nil => trivial
  | cons c cells ih =>
    obtain ⟨i, k, v⟩ := c
    rw [sids_cons] at hsame
    refine ⟨?_, ih h.2 fun j hj => hsame j (List.mem_cons_of_mem _ hj)⟩
    rw [hsame i List.mem_cons_self]
    exact h.1

/-- A write to a slot that is none of the row's. -/
theorem insert (h : Segment slab prev cells next) (hout : i ∉ cells.sids) (node : Node K T) :
    Segment (slab.insert i node) prev cells next :=
  h.congr fun _ hj => Finmap.lookup_insert_of_ne slab fun hji => hout (hji ▸ hj)

theorem erase (h : Segment slab prev cells next) (hout : i ∉ cells.sids) :
    Segment (slab.erase i) prev cells next :=
  h.congr fun _ hj => Finmap.lookup_erase_ne fun hji => hout (hji ▸ hj)

theorem mem (h : Segment slab prev cells next) (hi : i ∈ cells.sids) : i ∈ slab := by
  induction cells generalizing prev with
  | nil => exact absurd hi List.not_mem_nil
  | cons c cells ih =>
    obtain ⟨j, k, v⟩ := c
    obtain rfl | hi := List.mem_cons.mp hi
    · rw [← Finmap.lookup_isSome, h.1, Option.isSome_some]
    · exact ih h.2 hi

/-- The last node of a row is linked to another one. -/
theorem relinkNext (h : Segment slab prev (a ++ [(i, k, v)]) next)
    (hnodup : (sids (a ++ [(i, k, v)])).Nodup) (next' : Option ℕ) :
    ∃ slab', Slab.modify slab i (fun node => { node with next := next' }) = some slab' ∧
      Segment slab' prev (a ++ [(i, k, v)]) next' ∧
      ∀ j, j ≠ i → slab'.lookup j = slab.lookup j := by
  obtain ⟨ha, hi, -⟩ := middle_iff.mp h
  have hout : i ∉ a.sids := by
    rw [sids_append] at hnodup
    exact fun hmem => List.disjoint_of_nodup_append hnodup hmem List.mem_cons_self
  refine ⟨_, Slab.modify_eq hi _, middle_iff.mpr ⟨ha.insert hout _, ?_, trivial⟩, fun j hj => ?_⟩
  · rw [Finmap.lookup_insert]
    rfl
  · exact Finmap.lookup_insert_of_ne slab hj

/-- The first node of a row is linked back to another one. -/
theorem relinkPrev (h : Segment slab prev ((i, k, v) :: b) next)
    (hnodup : (sids ((i, k, v) :: b)).Nodup) (prev' : Option ℕ) :
    ∃ slab', Slab.modify slab i (fun node => { node with prev := prev' }) = some slab' ∧
      Segment slab' prev' ((i, k, v) :: b) next ∧
      ∀ j, j ≠ i → slab'.lookup j = slab.lookup j := by
  obtain ⟨hi, hb⟩ := h
  have hout : i ∉ b.sids := (List.nodup_cons.mp hnodup).1
  refine ⟨_, Slab.modify_eq hi _, ⟨?_, hb.insert hout _⟩, fun j hj => ?_⟩
  · rw [Finmap.lookup_insert]
  · exact Finmap.lookup_insert_of_ne slab hj

/-- The value of a node is written. -/
theorem setValue (h : Segment slab prev (a ++ (i, k, v) :: b) next)
    (hnodup : (sids (a ++ (i, k, v) :: b)).Nodup) (f : T → T) :
    ∃ slab', Slab.modify slab i (fun node => { node with value := f node.value }) = some slab' ∧
      Segment slab' prev (a ++ (i, k, f v) :: b) next ∧
      ∀ j, j ≠ i → slab'.lookup j = slab.lookup j := by
  obtain ⟨ha, hi, hb⟩ := middle_iff.mp h
  rw [sids_append, sids_cons, List.nodup_middle, List.nodup_cons, List.mem_append, not_or] at hnodup
  obtain ⟨⟨houta, houtb⟩, -⟩ := hnodup
  refine ⟨_, Slab.modify_eq hi _, middle_iff.mpr ⟨ha.insert houta _, ?_, hb.insert houtb _⟩,
    fun j hj => ?_⟩
  · rw [Finmap.lookup_insert]
  · exact Finmap.lookup_insert_of_ne slab hj

/-- A loop along `next` meets the nodes of a row in order. -/
theorem walk_next {A : Type} (h : Segment slab prev cells none) (body : A → Node K T → A)
    (f : A → T → A) (hbody : ∀ acc node, body acc node = f acc node.value) {turns : ℕ}
    (hturns : cells.length ≤ turns) (acc : A) :
    SlabList.walk slab Node.next body turns acc (first cells none) =
      some ((cells.map fun c => c.2.2).foldl f acc) := by
  induction cells generalizing prev turns acc with
  | nil => cases turns <;> rfl
  | cons c cells ih =>
    obtain ⟨i, k, v⟩ := c
    obtain ⟨turns, rfl⟩ : ∃ n, turns = n + 1 := ⟨turns - 1, by
      rw [List.length_cons] at hturns
      omega⟩
    rw [first_cons, SlabList.walk, h.1]
    dsimp only [bind, Option.bind]
    rw [hbody, ih h.2 (Nat.le_of_succ_le_succ hturns)]
    rfl

/-- A loop along `prev` meets the nodes of a row in the opposite order. -/
theorem walk_prev {A : Type} (h : Segment slab none cells next) (body : A → Node K T → A)
    (f : A → T → A) (hbody : ∀ acc node, body acc node = f acc node.value) {turns : ℕ}
    (hturns : cells.length ≤ turns) (acc : A) :
    SlabList.walk slab Node.prev body turns acc (last none cells) =
      some ((cells.reverse.map fun c => c.2.2).foldl f acc) := by
  induction cells using List.reverseRecOn generalizing next turns acc with
  | nil => cases turns <;> rfl
  | append_singleton cells c ih =>
    obtain ⟨i, k, v⟩ := c
    rw [List.length_append, List.length_singleton] at hturns
    obtain ⟨turns, rfl⟩ : ∃ n, turns = n + 1 := ⟨turns - 1, by omega⟩
    obtain ⟨hcells, hi, -⟩ := middle_iff.mp h
    rw [last_append_singleton, SlabList.walk, hi]
    dsimp only [bind, Option.bind]
    rw [hbody, ih hcells (Nat.le_of_succ_le_succ hturns), List.reverse_append]
    rfl

end Segment

/-! ### The list and its index -/

variable [DecidableEq K]

/-- The index has the keys of the nodes, and no slot twice. -/
structure Keyed (keyToSid : HashMap K ℕ) (cells : Cells K T) : Prop where
  nodup : cells.sids.Nodup
  index : ∀ k i, keyToSid.lookup k = some i ↔ ∃ v, (i, k, v) ∈ cells

namespace Keyed

variable {keyToSid : HashMap K ℕ} {a b cells cells' : Cells K T} {i sid : ℕ} {k key : K} {v : T}

theorem insert (h : Keyed keyToSid cells) (hkey : key ∉ keyToSid) (hsid : sid ∉ cells.sids)
    (value : T) (hperm : cells'.Perm ((sid, key, value) :: cells)) :
    Keyed (keyToSid.insert key sid) cells' where
  nodup := by
    have hsids : cells'.sids.Perm (sid :: cells.sids) := hperm.map Prod.fst
    exact hsids.nodup_iff.mpr (List.nodup_cons.mpr ⟨hsid, h.nodup⟩)
  index k i := by
    rw [HashMap.lookup_insert_ite]
    simp only [hperm.mem_iff, List.mem_cons]
    split_ifs with hk
    · subst hk
      constructor
      · intro hi
        obtain rfl := Option.some.inj hi
        exact ⟨value, .inl rfl⟩
      · rintro ⟨v, hv | hv⟩
        · cases hv
          rfl
        · have hlookup := (h.index k i).mpr ⟨v, hv⟩
          rw [Finmap.lookup_eq_none.mpr hkey] at hlookup
          cases hlookup
    · rw [h.index k i]
      constructor
      · rintro ⟨v, hv⟩
        exact ⟨v, .inr hv⟩
      · rintro ⟨v, hv | hv⟩
        · cases hv
          exact absurd rfl hk
        · exact ⟨v, hv⟩

theorem notMem_sids (h : Keyed keyToSid (a ++ (i, k, v) :: b)) : i ∉ (a ++ b).sids := by
  have hnodup := h.nodup
  rw [sids_append, sids_cons, List.nodup_middle, List.nodup_cons, ← sids_append] at hnodup
  exact hnodup.1

theorem erase (h : Keyed keyToSid (a ++ (sid, key, v) :: b)) :
    Keyed (keyToSid.erase key) (a ++ b) where
  nodup := by
    have hnodup := h.nodup
    rw [sids_append, sids_cons, List.nodup_middle, List.nodup_cons, ← sids_append] at hnodup
    exact hnodup.2
  index k i := by
    have hindex := h.index k i
    simp only [List.perm_middle.mem_iff, List.mem_cons] at hindex
    rw [HashMap.lookup_erase_ite]
    split_ifs with hk
    · subst hk
      refine ⟨fun hnone => (by cases hnone), ?_⟩
      rintro ⟨w, hw⟩
      have hfound := hindex.mpr ⟨w, .inr hw⟩
      rw [(h.index k sid).mpr ⟨v, List.mem_append_right a List.mem_cons_self⟩] at hfound
      obtain rfl := Option.some.inj hfound
      exact absurd (List.mem_map_of_mem (f := Prod.fst) hw) h.notMem_sids
    · rw [hindex]
      constructor
      · rintro ⟨w, hw | hw⟩
        · cases hw
          exact absurd rfl hk
        · exact ⟨w, hw⟩
      · rintro ⟨w, hw⟩
        exact ⟨w, .inr hw⟩

theorem setValue (h : Keyed keyToSid (a ++ (sid, key, v) :: b)) (w : T) :
    Keyed keyToSid (a ++ (sid, key, w) :: b) where
  nodup := by
    have hnodup := h.nodup
    rw [sids_append, sids_cons] at hnodup ⊢
    exact hnodup
  index k i := by
    rw [h.index k i]
    simp only [List.mem_append, List.mem_cons, Prod.mk.injEq]
    constructor
    · rintro ⟨x, hx | ⟨rfl, rfl, -⟩ | hx⟩
      · exact ⟨x, .inl hx⟩
      · exact ⟨w, .inr (.inl ⟨rfl, rfl, rfl⟩)⟩
      · exact ⟨x, .inr (.inr hx)⟩
    · rintro ⟨x, hx | ⟨rfl, rfl, -⟩ | hx⟩
      · exact ⟨x, .inl hx⟩
      · exact ⟨v, .inr (.inl ⟨rfl, rfl, rfl⟩)⟩
      · exact ⟨x, .inr (.inr hx)⟩

/-- The node of a key that the index has. -/
theorem split (h : Keyed keyToSid cells) (hlookup : keyToSid.lookup key = some i) :
    ∃ a v b, cells = a ++ (i, key, v) :: b := by
  obtain ⟨v, hv⟩ := (h.index key i).mp hlookup
  obtain ⟨a, b, hsplit⟩ := List.append_of_mem hv
  exact ⟨a, v, b, hsplit⟩

end Keyed

namespace SlabList

variable {self : SlabList K T} {a b cells : Cells K T} {i sid : ℕ} {k key before : K} {v : T}

/-- The nodes of a list, in order: no other slot is occupied, and no other key has one. -/
structure Encodes (list : SlabList K T) (cells : Cells K T) : Prop where
  segment : Segment list.slab none cells none
  vacant : ∀ j, j ∉ cells.sids → list.slab.lookup j = none
  keyed : Keyed list.keyToSid cells
  head : list.head = first cells none
  tail : list.tail = last none cells

theorem encodes_new : Encodes (new : SlabList K T) [] where
  segment := trivial
  vacant j _ := Finmap.lookup_empty j
  keyed := ⟨List.nodup_nil, fun k i => by simp [new]⟩
  head := rfl
  tail := rfl

theorem Encodes.mem_slab_iff (h : Encodes self cells) : i ∈ self.slab ↔ i ∈ cells.sids := by
  refine ⟨fun hi => ?_, h.segment.mem⟩
  by_contra hout
  rw [← Finmap.lookup_isSome, h.vacant i hout] at hi
  cases hi

theorem Encodes.isEmpty_iff (h : Encodes self cells) : self.isEmpty = true ↔ cells = [] := by
  rw [isEmpty, h.head]
  cases cells with
  | nil => exact iff_of_true rfl rfl
  | cons c b => exact iff_of_false Bool.false_ne_true (List.cons_ne_nil c b)

theorem Encodes.pushBack (h : Encodes self cells) (hkey : key ∉ self.keyToSid)
    (hsid : sid ∉ self.slab) (value : T) :
    ∃ next, self.pushBack sid key value = some (true, next) ∧
      Encodes next (cells ++ [(sid, key, value)]) := by
  have hout : sid ∉ cells.sids := fun hmem => hsid (h.segment.mem hmem)
  have hfresh : (self.slab.insert sid ⟨key, value, none, none⟩).lookup sid =
      some ⟨key, value, none, none⟩ := Finmap.lookup_insert _
  have hkeyed := h.keyed.insert hkey hout value (List.perm_append_singleton _ _)
  obtain rfl | ⟨a, ⟨t, k, v⟩, rfl⟩ := cells.eq_nil_or_concat
  · unfold SlabList.pushBack
    rw [if_neg hkey, h.tail]
    refine ⟨_, rfl, ⟨hfresh, trivial⟩, fun j hj => ?_, hkeyed, rfl, rfl⟩
    have hne : j ≠ sid := List.ne_of_not_mem_cons hj
    exact (Finmap.lookup_insert_of_ne _ hne).trans (h.vacant j List.not_mem_nil)
  · rw [List.concat_eq_append] at *
    have hne : sid ≠ t := fun heq => hout (by simp [heq])
    -- the last node is linked to the new one, and then the new one back to it
    obtain ⟨linked, hlinked, hsegment, hsame⟩ :=
      (h.segment.insert hout ⟨key, value, none, none⟩).relinkNext h.keyed.nodup (some sid)
    have hnew : Segment linked none [(sid, key, value)] none :=
      ⟨(hsame sid hne).trans hfresh, trivial⟩
    obtain ⟨slab, hslab, hlast, hrest⟩ := hnew.relinkPrev (List.nodup_singleton _) (some t)
    have hkept := hsegment.congr fun j hj => hrest j fun heq => hout (heq ▸ hj)
    unfold SlabList.pushBack
    rw [if_neg hkey, h.tail, last_append_singleton]
    dsimp only [bind, Option.bind]
    rw [hlinked]
    dsimp only
    rw [hslab]
    refine ⟨_, rfl, Segment.append_iff.mpr ⟨hkept, ?_⟩, fun j hj => ?_, hkeyed, ?_, ?_⟩
    · rw [last_append_singleton]
      exact hlast
    · rw [sids_append, List.mem_append, not_or] at hj
      have hnot : j ≠ sid := List.ne_of_not_mem_cons hj.2
      have hlastNot : j ≠ t := fun heq => hj.1 (by simp [heq])
      rw [hrest j hnot, hsame j hlastNot, Finmap.lookup_insert_of_ne _ hnot]
      exact h.vacant j hj.1
    · exact h.head.trans (first_of_snoc a _ _ none).symm
    · rw [last_append_singleton]

theorem Encodes.insertBefore (h : Encodes self (a ++ (i, before, v) :: b))
    (hkey : key ∉ self.keyToSid) (hsid : sid ∉ self.slab) (value : T) :
    ∃ next, self.insertBefore sid before key value = some (true, next) ∧
      Encodes next (a ++ (sid, key, value) :: (i, before, v) :: b) := by
  have hout : sid ∉ sids (a ++ (i, before, v) :: b) := fun hmem => hsid (h.segment.mem hmem)
  have hkeyed := h.keyed.insert hkey hout value List.perm_middle
  have hlookup := (h.keyed.index before i).mpr ⟨v, List.mem_append_right a List.mem_cons_self⟩
  obtain ⟨-, hi, -⟩ := Segment.middle_iff.mp h.segment
  have hnodup := h.keyed.nodup
  rw [sids_append] at hnodup hout
  rw [List.mem_append, not_or] at hout
  have hne : sid ≠ i := List.ne_of_not_mem_cons hout.2
  -- the node behind is linked back to the new one, and then the node in front to it
  have hinserted := h.segment.insert (by rw [sids_append, List.mem_append]; tauto)
    ⟨key, value, some i, last none a⟩
  obtain ⟨hfront, hback⟩ := Segment.append_iff.mp hinserted
  obtain ⟨linked, hlinked, hsegment, hsame⟩ :=
    hback.relinkPrev hnodup.of_append_right (some sid)
  have hfresh : linked.lookup sid = some ⟨key, value, some i, last none a⟩ :=
    (hsame sid hne).trans (Finmap.lookup_insert _)
  have hkept : Segment linked none a (some i) := hfront.congr fun j hj =>
    hsame j fun heq => List.disjoint_of_nodup_append hnodup hj (heq ▸ List.mem_cons_self)
  have hvacant (j : ℕ) (hj : j ∉ sids (a ++ (sid, key, value) :: (i, before, v) :: b)) :
      linked.lookup j = none := by
    simp only [sids_append, sids_cons, List.mem_append, List.mem_cons, not_or] at hj
    rw [hsame j hj.2.2.1, Finmap.lookup_insert_of_ne _ hj.2.1]
    exact h.vacant j (by simp only [sids_append, sids_cons, List.mem_append, List.mem_cons]; tauto)
  unfold SlabList.insertBefore
  rw [if_neg hkey, hlookup]
  dsimp only [bind, Option.bind]
  rw [hi]
  dsimp only
  rw [hlinked]
  obtain rfl | ⟨a, ⟨p, k, w⟩, rfl⟩ := a.eq_nil_or_concat
  · exact ⟨_, rfl, ⟨hfresh, hsegment⟩, hvacant, hkeyed, rfl, h.tail⟩
  · rw [List.concat_eq_append] at *
    obtain ⟨slab, hslab, hlast, hrest⟩ := hkept.relinkNext hnodup.of_append_left (some sid)
    have hp : p ∈ sids (a ++ [(p, k, w)]) := by simp
    have hother : ∀ j ∈ sids ((i, before, v) :: b), slab.lookup j = linked.lookup j := fun j hj =>
      hrest j fun heq => List.disjoint_of_nodup_append hnodup hp (heq ▸ hj)
    have hnew : slab.lookup sid = some ⟨key, value, some i, some p⟩ := by
      rw [hrest sid fun heq => hout.1 (heq ▸ hp), hfresh, last_append_singleton]
    rw [last_append_singleton]
    dsimp only
    rw [hslab]
    refine ⟨_, rfl, Segment.middle_iff.mpr ⟨hlast, ?_, hsegment.congr hother⟩, fun j hj => ?_,
      hkeyed, ?_, ?_⟩
    · rw [last_append_singleton]
      exact hnew
    · refine (hrest j fun heq => hj ?_).trans (hvacant j hj)
      rw [sids_append, heq]
      exact List.mem_append_left _ hp
    · rw [first_of_snoc]
      exact h.head.trans (first_of_snoc a _ _ none)
    · refine h.tail.trans ?_
      simp only [last_append, last_cons]

/-- The list without one of its nodes, once those around it are linked to each other. -/
theorem Encodes.unlinked (h : Encodes self (a ++ (sid, key, v) :: b)) (slab : Slab (Node K T))
    (hsegment : Segment slab none (a ++ b) none)
    (hsame : ∀ j, j ∉ (a ++ b).sids → slab.lookup j = (self.slab.erase sid).lookup j) :
    Encodes ⟨self.keyToSid.erase key, slab, first (a ++ b) none, last none (a ++ b)⟩ (a ++ b) where
  segment := hsegment
  vacant j hj := by
    rw [hsame j hj, HashMap.lookup_erase_ite]
    split_ifs with heq
    · rfl
    · refine h.vacant j ?_
      simp only [sids_append, sids_cons, List.mem_append, List.mem_cons] at hj ⊢
      tauto
  keyed := h.keyed.erase
  head := rfl
  tail := rfl

/-- What is left of the links once a slot is vacant. -/
theorem Encodes.erased (h : Encodes self (a ++ (sid, key, v) :: b)) :
    self.slab.lookup sid = some ⟨key, v, first b none, last none a⟩ ∧
      Segment (self.slab.erase sid) none a (some sid) ∧
      Segment (self.slab.erase sid) (some sid) b none ∧
      a.sids.Nodup ∧ b.sids.Nodup ∧ a.sids.Disjoint b.sids := by
  obtain ⟨hfront, hi, hback⟩ := Segment.middle_iff.mp h.segment
  have hout := h.keyed.notMem_sids
  have hnodup := h.keyed.erase.nodup
  rw [sids_append, List.mem_append, not_or] at hout
  rw [sids_append, List.nodup_append'] at hnodup
  exact ⟨hi, hfront.erase hout.1, hback.erase hout.2, hnodup⟩

theorem Encodes.removeFront (h : Encodes self ((sid, key, v) :: b)) :
    ∃ next, self.removeFront = some (true, next) ∧ Encodes next b := by
  obtain ⟨hi, -, hback, -, hnodup, -⟩ := Encodes.erased (a := []) h
  unfold SlabList.removeFront
  rw [h.head, first_cons]
  dsimp only [bind, Option.bind]
  rw [Slab.remove_eq hi]
  cases b with
  | nil => exact ⟨_, rfl, Encodes.unlinked (a := []) h _ trivial fun j _ => rfl⟩
  | cons c b =>
    obtain ⟨n, k, w⟩ := c
    obtain ⟨slab, hslab, hsegment, hsame⟩ := hback.relinkPrev hnodup none
    dsimp only [first_cons]
    rw [hslab]
    have hunlinked := Encodes.unlinked (a := []) h _ hsegment fun j hj =>
      hsame j (List.ne_of_not_mem_cons hj)
    refine ⟨_, rfl, ?_⟩
    rw [h.tail, last_cons]
    exact hunlinked

theorem Encodes.removeNode (h : Encodes self (a ++ (sid, key, v) :: b)) :
    ∃ next, self.removeNode key = some (true, next) ∧ Encodes next (a ++ b) := by
  have hlookup := (h.keyed.index key sid).mpr ⟨v, List.mem_append_right a List.mem_cons_self⟩
  obtain ⟨hi, hfront, hback, hnodupA, hnodupB, hdisjoint⟩ := h.erased
  unfold SlabList.removeNode
  rw [hlookup]
  dsimp only [bind, Option.bind, pure]
  rw [Slab.remove_eq hi]
  dsimp only
  obtain rfl | ⟨a, ⟨p, kp, vp⟩, rfl⟩ := a.eq_nil_or_concat
  · cases b with
    | nil => exact ⟨_, rfl, Encodes.unlinked (a := []) h _ trivial fun j _ => rfl⟩
    | cons c b =>
      obtain ⟨n, kn, vn⟩ := c
      obtain ⟨slab, hslab, hsegment, hsame⟩ := hback.relinkPrev hnodupB none
      dsimp only [first_cons, last_nil]
      rw [hslab]
      have hunlinked := Encodes.unlinked (a := []) h _ hsegment fun j hj =>
        hsame j (List.ne_of_not_mem_cons hj)
      refine ⟨_, rfl, ?_⟩
      rw [h.tail, List.nil_append, last_cons]
      exact hunlinked
  · rw [List.concat_eq_append] at *
    have hp : p ∈ sids (a ++ [(p, kp, vp)]) := by simp
    obtain ⟨linked, hlinked, hsegment, hsame⟩ := hfront.relinkNext hnodupA (first b none)
    rw [last_append_singleton]
    dsimp only
    rw [hlinked]
    dsimp only
    have hhead : self.head = first (a ++ [(p, kp, vp)] ++ b) none := by
      rw [h.head, first_of_snoc, first_of_snoc]
    cases b with
    | nil =>
      have hunlinked := h.unlinked linked (by rw [List.append_nil]; exact hsegment)
        fun j hj => hsame j fun heq => hj (by rw [List.append_nil, heq]; exact hp)
      refine ⟨_, rfl, ?_⟩
      rw [hhead, show some p = last none (a ++ [(p, kp, vp)] ++ []) by simp]
      exact hunlinked
    | cons c b =>
      obtain ⟨n, kn, vn⟩ := c
      have hkept : Segment linked (some sid) ((n, kn, vn) :: b) none := hback.congr fun j hj =>
        hsame j fun heq => hdisjoint hp (heq ▸ hj)
      obtain ⟨slab, hslab, hlast, hrest⟩ := hkept.relinkPrev hnodupB (some p)
      have hn : n ∈ sids ((n, kn, vn) :: b) := List.mem_cons_self
      have hfirst := hsegment.congr fun j hj => hrest j fun heq => hdisjoint (heq ▸ hj) hn
      dsimp only [first_cons]
      rw [hslab]
      have hunlinked := h.unlinked slab
        (Segment.append_iff.mpr ⟨hfirst, by rw [last_append_singleton]; exact hlast⟩) fun j hj => by
          rw [sids_append, List.mem_append, not_or] at hj
          rw [hrest j fun heq => hj.2 (heq ▸ hn), hsame j fun heq => hj.1 (heq ▸ hp)]
      refine ⟨_, rfl, ?_⟩
      rw [hhead, h.tail, last_append _ _ ((sid, key, v) :: _), last_cons, last_cons]
      rw [last_append _ _ ((n, kn, vn) :: b), last_cons] at hunlinked
      exact hunlinked

/-- A write of a value leaves the links as they are. -/
theorem Encodes.written (h : Encodes self (a ++ (sid, key, v) :: b)) (f : T → T) :
    ∃ slab, Slab.modify self.slab sid (fun node => { node with value := f node.value }) =
        some slab ∧
      Encodes { self with slab := slab } (a ++ (sid, key, f v) :: b) := by
  obtain ⟨slab, hslab, hsegment, hsame⟩ := h.segment.setValue h.keyed.nodup f
  refine ⟨slab, hslab, hsegment, fun j hj => ?_, h.keyed.setValue (f v), ?_, ?_⟩
  · simp only [sids_append, sids_cons, List.mem_append, List.mem_cons, not_or] at hj
    rw [hsame j hj.2.1]
    refine h.vacant j ?_
    simp only [sids_append, sids_cons, List.mem_append, List.mem_cons]
    tauto
  · rw [first_append]
    exact h.head.trans (first_append _ _ _)
  · rw [last_append]
    exact h.tail.trans (last_append _ _ _)

theorem Encodes.updateHead (h : Encodes self ((sid, key, v) :: b)) (f : T → T) :
    ∃ next, self.updateHead f = some (true, next) ∧ Encodes next ((sid, key, f v) :: b) := by
  obtain ⟨slab, hslab, hwritten⟩ := Encodes.written (a := []) h f
  have hhead : self.head = some sid := h.head
  unfold SlabList.updateHead
  rw [hhead]
  dsimp only [bind, Option.bind]
  rw [hslab]
  refine ⟨_, rfl, ?_⟩
  rw [← hhead]
  exact hwritten

theorem Encodes.updateNode (h : Encodes self (a ++ (sid, key, v) :: b)) (f : T → T) :
    ∃ next, self.updateNode key f = some (true, next) ∧
      Encodes next (a ++ (sid, key, f v) :: b) := by
  have hlookup := (h.keyed.index key sid).mpr ⟨v, List.mem_append_right a List.mem_cons_self⟩
  obtain ⟨slab, hslab, hwritten⟩ := h.written f
  unfold SlabList.updateNode
  rw [hlookup]
  dsimp only [bind, Option.bind]
  rw [hslab]
  exact ⟨_, rfl, hwritten⟩

end SlabList

/-! ### The keyed sequence around one of its keys -/

namespace LinkedList

variable {l : LinkedList K T} {A B : List (K × T)} {key : K} {v : T}

omit [DecidableEq K] in
theorem notMem_around (h : l.entries = A ++ (key, v) :: B) :
    (∀ e ∈ A, e.1 ≠ key) ∧ ∀ e ∈ B, e.1 ≠ key := by
  have hnodup := l.nodup
  rw [h, List.map_append, List.map_cons, List.nodup_middle, List.nodup_cons, List.mem_append,
    not_or] at hnodup
  exact ⟨fun e he heq => hnodup.1.1 (List.mem_map.mpr ⟨e, he, heq⟩),
    fun e he heq => hnodup.1.2 (List.mem_map.mpr ⟨e, he, heq⟩)⟩

omit [DecidableEq K] in
theorem mem_keys_of_split (h : l.entries = A ++ (key, v) :: B) : key ∈ l.keys :=
  mem_keys.mpr ⟨v, h ▸ List.mem_append_right A List.mem_cons_self⟩

theorem insertBefore_split (h : l.entries = A ++ (key, v) :: B) {k : K} (hk : k ∉ l.keys)
    (value : T) : (l.insertBefore key k value).1 = true ∧
      (l.insertBefore key k value).2.entries = A ++ (k, value) :: (key, v) :: B := by
  obtain ⟨hsuccess, hentries⟩ := insertBefore_of_mem value hk (mem_keys_of_split h)
  have hA : ∀ e ∈ A, decide (e.1 ≠ key) = true := fun e he =>
    decide_eq_true ((notMem_around h).1 e he)
  refine ⟨hsuccess, ?_⟩
  rw [hentries, h, front, back, List.takeWhile_append_of_pos hA, List.dropWhile_append_of_pos hA]
  simp

theorem removeNode_split (h : l.entries = A ++ (key, v) :: B) :
    (l.removeNode key).1 = true ∧ (l.removeNode key).2.entries = A ++ B := by
  obtain ⟨hsuccess, hentries⟩ := removeNode_of_mem (mem_keys_of_split h)
  obtain ⟨hA, hB⟩ := notMem_around h
  refine ⟨hsuccess, ?_⟩
  rw [hentries, h, List.filter_append, List.filter_cons_of_neg (by simp),
    List.filter_eq_self.mpr fun e he => decide_eq_true (hA e he),
    List.filter_eq_self.mpr fun e he => decide_eq_true (hB e he)]

theorem updateNode_split (h : l.entries = A ++ (key, v) :: B) (f : T → T) :
    (l.updateNode key f).1 = true ∧ (l.updateNode key f).2.entries = A ++ (key, f v) :: B := by
  obtain ⟨hsuccess, hentries⟩ := updateNode_of_mem f (mem_keys_of_split h)
  obtain ⟨hA, hB⟩ := notMem_around h
  have hsame {C : List (K × T)} (hC : ∀ e ∈ C, e.1 ≠ key) :
      C.map (fun e => if e.1 = key then (e.1, f e.2) else e) = C := by
    have hid : C.map (fun e => if e.1 = key then (e.1, f e.2) else e) = C.map id :=
      List.map_congr_left fun e he => if_neg (hC e he)
    rw [hid, List.map_id]
  refine ⟨hsuccess, ?_⟩
  rw [hentries, h, List.map_append, List.map_cons, hsame hA, hsame hB, if_pos rfl]

omit [DecidableEq K] in
theorem updateHead_cons (h : l.entries = (key, v) :: B) (f : T → T) :
    (l.updateHead f).1 = true ∧ (l.updateHead f).2.entries = (key, f v) :: B := by
  unfold updateHead
  split
  · rename_i hnil
    rw [hnil] at h
    cases h
  · rename_i k w rest hcons
    rw [hcons] at h
    cases h
    exact ⟨rfl, rfl⟩

omit [DecidableEq K] in
theorem updateHead_nil (h : l.entries = []) (f : T → T) : l.updateHead f = (false, l) := by
  unfold updateHead
  split
  · rfl
  · rename_i hcons
    rw [h] at hcons
    cases hcons

omit [DecidableEq K] in
theorem removeFront_cons (h : l.entries = (key, v) :: B) :
    (l.removeFront).1 = true ∧ (l.removeFront).2.entries = B := by
  unfold removeFront
  split
  · rename_i hnil
    rw [hnil] at h
    cases h
  · rename_i hcons
    rw [hcons] at h
    cases h
    exact ⟨rfl, rfl⟩

omit [DecidableEq K] in
theorem removeFront_nil (h : l.entries = []) : l.removeFront = (false, l) := by
  unfold removeFront
  split
  · rfl
  · rename_i hcons
    rw [h] at hcons
    cases hcons

end LinkedList

/-! ### Every call -/

namespace SlabList

variable {self : SlabList K T} {l : LinkedList K T} {sid : ℕ} {key before : K}

/-- The slab holds the sequence. -/
def Represents (self : SlabList K T) (l : LinkedList K T) : Prop :=
  ∃ cells, Encodes self cells ∧ cells.map Prod.snd = l.entries

theorem represents_new : Represents (new : SlabList K T) .new := ⟨[], encodes_new, rfl⟩

theorem Encodes.mem_keys_iff {cells : Cells K T} (h : Encodes self cells)
    (hcells : cells.map Prod.snd = l.entries) : key ∈ self.keyToSid ↔ key ∈ l.keys := by
  rw [LinkedList.mem_keys, ← hcells]
  constructor
  · intro hkey
    obtain ⟨i, hi⟩ := Finmap.mem_iff.mp hkey
    obtain ⟨v, hv⟩ := (h.keyed.index key i).mp hi
    exact ⟨v, List.mem_map_of_mem hv⟩
  · rintro ⟨v, hv⟩
    obtain ⟨⟨i, k, w⟩, hmem, heq⟩ := List.mem_map.mp hv
    cases heq
    exact Finmap.mem_iff.mpr ⟨i, (h.keyed.index key i).mpr ⟨v, hmem⟩⟩

/-- A call that is refused, by the list and by the sequence alike. -/
theorem refused {op : Option (Bool × SlabList K T)} {out : Bool × LinkedList K T}
    (h : Represents self l) (hop : op = some (false, self)) (hout : out = (false, l)) :
    ∃ next, op = some (out.1, next) ∧ Represents next out.2 := by
  subst hout
  exact ⟨self, hop, h⟩

/-- A call that is carried out, by the list and on the sequence alike. -/
theorem carried {op : Option (Bool × SlabList K T)} {out : Bool × LinkedList K T}
    {cells : Cells K T} (hop : ∃ next, op = some (true, next) ∧ Encodes next cells)
    (hout : out.1 = true ∧ out.2.entries = cells.map Prod.snd) :
    ∃ next, op = some (out.1, next) ∧ Represents next out.2 := by
  obtain ⟨next, hnext, hencodes⟩ := hop
  exact ⟨next, by rw [hnext, hout.1], cells, hencodes, hout.2.symm⟩

theorem Represents.pushBack (h : Represents self l) (hsid : sid ∉ self.slab) (key : K) (value : T) :
    ∃ next, self.pushBack sid key value = some ((l.pushBack key value).1, next) ∧
      Represents next (l.pushBack key value).2 := by
  obtain ⟨cells, hencodes, hcells⟩ := id h
  by_cases hkey : key ∈ l.keys
  · refine refused h ?_ (LinkedList.pushBack_of_mem value hkey)
    unfold SlabList.pushBack
    exact if_pos ((hencodes.mem_keys_iff hcells).mpr hkey)
  · have hnew := mt (hencodes.mem_keys_iff hcells).mp hkey
    refine carried (hencodes.pushBack hnew hsid value) ?_
    rw [List.map_append, hcells]
    exact LinkedList.pushBack_of_notMem value hkey

theorem Represents.insertBefore (h : Represents self l) (hsid : sid ∉ self.slab)
    (before key : K) (value : T) :
    ∃ next, self.insertBefore sid before key value =
        some ((l.insertBefore before key value).1, next) ∧
      Represents next (l.insertBefore before key value).2 := by
  obtain ⟨cells, hencodes, hcells⟩ := id h
  by_cases hkey : key ∈ l.keys
  · refine refused h ?_ (LinkedList.insertBefore_refused value (.inl hkey))
    unfold SlabList.insertBefore
    exact if_pos ((hencodes.mem_keys_iff hcells).mpr hkey)
  · have hnew := mt (hencodes.mem_keys_iff hcells).mp hkey
    cases hlookup : self.keyToSid.lookup before with
    | none =>
      have hbefore : before ∉ l.keys := fun hmem =>
        Finmap.lookup_eq_none.mp hlookup ((hencodes.mem_keys_iff hcells).mpr hmem)
      refine refused h ?_ (LinkedList.insertBefore_refused value (.inr hbefore))
      unfold SlabList.insertBefore
      rw [if_neg hnew, hlookup]
    | some i =>
      obtain ⟨a, v, b, rfl⟩ := hencodes.keyed.split hlookup
      refine carried (hencodes.insertBefore hnew hsid value) ?_
      rw [List.map_append] at hcells ⊢
      exact LinkedList.insertBefore_split hcells.symm hkey value

theorem Represents.removeNode (h : Represents self l) (key : K) :
    ∃ next, self.removeNode key = some ((l.removeNode key).1, next) ∧
      Represents next (l.removeNode key).2 := by
  obtain ⟨cells, hencodes, hcells⟩ := id h
  cases hlookup : self.keyToSid.lookup key with
  | none =>
    have hkey : key ∉ l.keys := fun hmem =>
      Finmap.lookup_eq_none.mp hlookup ((hencodes.mem_keys_iff hcells).mpr hmem)
    refine refused h ?_ (LinkedList.removeNode_of_notMem hkey)
    unfold SlabList.removeNode
    rw [hlookup]
  | some i =>
    obtain ⟨a, v, b, rfl⟩ := hencodes.keyed.split hlookup
    refine carried hencodes.removeNode ?_
    rw [List.map_append] at hcells ⊢
    exact LinkedList.removeNode_split hcells.symm

theorem Represents.updateNode (h : Represents self l) (key : K) (f : T → T) :
    ∃ next, self.updateNode key f = some ((l.updateNode key f).1, next) ∧
      Represents next (l.updateNode key f).2 := by
  obtain ⟨cells, hencodes, hcells⟩ := id h
  cases hlookup : self.keyToSid.lookup key with
  | none =>
    have hkey : key ∉ l.keys := fun hmem =>
      Finmap.lookup_eq_none.mp hlookup ((hencodes.mem_keys_iff hcells).mpr hmem)
    refine refused h ?_ (LinkedList.updateNode_of_notMem f hkey)
    unfold SlabList.updateNode
    rw [hlookup]
  | some i =>
    obtain ⟨a, v, b, rfl⟩ := hencodes.keyed.split hlookup
    refine carried (hencodes.updateNode f) ?_
    rw [List.map_append] at hcells ⊢
    exact LinkedList.updateNode_split hcells.symm f

theorem Represents.updateHead (h : Represents self l) (f : T → T) :
    ∃ next, self.updateHead f = some ((l.updateHead f).1, next) ∧
      Represents next (l.updateHead f).2 := by
  obtain ⟨cells, hencodes, hcells⟩ := id h
  cases cells with
  | nil =>
    refine refused h ?_ (LinkedList.updateHead_nil hcells.symm f)
    unfold SlabList.updateHead
    rw [hencodes.head, first_nil]
  | cons c b =>
    obtain ⟨i, k, v⟩ := c
    exact carried (hencodes.updateHead f) (LinkedList.updateHead_cons hcells.symm f)

theorem Represents.removeFront (h : Represents self l) :
    ∃ next, self.removeFront = some (l.removeFront.1, next) ∧
      Represents next l.removeFront.2 := by
  obtain ⟨cells, hencodes, hcells⟩ := id h
  cases cells with
  | nil =>
    refine refused h ?_ (LinkedList.removeFront_nil hcells.symm)
    unfold SlabList.removeFront
    rw [hencodes.head, first_nil]
  | cons c b =>
    obtain ⟨i, k, v⟩ := c
    exact carried hencodes.removeFront (LinkedList.removeFront_cons hcells.symm)

/-- No call fails at the slab, and each does what it does to the sequence. -/
theorem Represents.run (h : Represents self l) (hsid : sid ∉ self.slab) (op : ListOp K T) :
    ∃ next, self.run sid op = some ((l.run op).1, next) ∧ Represents next (l.run op).2 := by
  cases op with
  | pushBack key value => exact h.pushBack hsid key value
  | insertBefore before key value => exact h.insertBefore hsid before key value
  | updateHead f => exact h.updateHead f
  | removeFront => exact h.removeFront
  | removeNode key => exact h.removeNode key
  | updateNode key f => exact h.updateNode key f

/-- Whatever calls have made of a list, it holds some sequence. -/
theorem Built.represents (h : Built self) : ∃ l, Represents self l := by
  induction h with
  | new => exact ⟨_, represents_new⟩
  | run before op vacant hrun ih =>
    obtain ⟨l, hl⟩ := ih
    obtain ⟨next, hnext, hrepresents⟩ := hl.run vacant op
    rw [hnext] at hrun
    cases hrun
    exact ⟨_, hrepresents⟩

/-- The loops along the links end, and read the sequence in order. -/
theorem Represents.fold {A : Type} (h : Represents self l) {turns : ℕ}
    (hturns : l.entries.length ≤ turns) (init : A) (f : A → T → A) :
    self.fold turns init f = some (l.fold init f) := by
  obtain ⟨cells, hencodes, hcells⟩ := h
  have hlength : cells.length ≤ turns := by
    rw [← hcells, List.length_map] at hturns
    exact hturns
  unfold SlabList.fold LinkedList.fold LinkedList.toVec
  rw [hencodes.head, hencodes.segment.walk_next _ f (fun _ _ => rfl) hlength, ← hcells,
    List.map_map]
  rfl

theorem foldl_snoc (vs : List T) : vs.foldl (fun res v => res ++ [v]) [] = vs := by
  rw [List.foldl_append_eq_append, List.nil_append, ← List.flatMap_def]
  exact List.flatMap_singleton' vs

theorem Represents.toVec (h : Represents self l) {turns : ℕ}
    (hturns : l.entries.length ≤ turns) : self.toVec turns = some l.toVec := by
  have hfold := h.fold hturns [] fun res v => res ++ [v]
  rw [LinkedList.fold, foldl_snoc] at hfold
  exact hfold

/-- The links back give the opposite order. -/
theorem Represents.toRevVec (h : Represents self l) {turns : ℕ}
    (hturns : l.entries.length ≤ turns) : self.toRevVec turns = some l.toVec.reverse := by
  obtain ⟨cells, hencodes, hcells⟩ := h
  have hlength : cells.length ≤ turns := by
    rw [← hcells, List.length_map] at hturns
    exact hturns
  unfold SlabList.toRevVec LinkedList.toVec
  rw [hencodes.tail, hencodes.segment.walk_prev _ (fun res v => res ++ [v]) (fun _ _ => rfl) hlength,
    foldl_snoc, ← hcells, List.map_map, List.map_reverse]
  rfl

end SlabList
end OrderBookServer
