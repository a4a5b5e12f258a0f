import OrderBookServer.BookSides

/-!
# Draining levels

What the two loops of matching do, whatever the levels hold: the nodes of the levels
that cross are drained from the front. The filled nodes are a prefix of them, at most
the next one is reduced, and all others stay where they are. The price of a node is
that of its level; neither the price nor the side of an order is looked at.
-/
namespace OrderBookServer
open InnerOrder PriceTime

variable {O : Type} [InnerOrder O]

/-! ### Lists of nodes -/

section Drain

variable {A B : Type}

/-- A taker drains nodes from the front: the taker left, the nodes filled, in order,
and those that stay. -/
def drain (t : O) : List (A × O) → O × List (A × O) × List (A × O)
  | [] => (t, [], [])
  | n :: ns =>
    if sz (maker t n.2) = 0 then
      if sz (taker t n.2) = 0 then (taker t n.2, [(n.1, maker t n.2)], ns)
      else
        let tail := drain (taker t n.2) ns
        (tail.1, (n.1, maker t n.2) :: tail.2.1, tail.2.2)
    else (taker t n.2, [], (n.1, maker t n.2) :: ns)

/-- What is told of a node by its tag is not changed by draining. -/
theorem drain_map (f : A → B) (t : O) (ns : List (A × O)) :
    drain t (ns.map (Prod.map f id)) =
      ((drain t ns).1, (drain t ns).2.1.map (Prod.map f id), (drain t ns).2.2.map (Prod.map f id)) := by
  induction ns generalizing t with
  | nil => rfl
  | cons n ns ih =>
    simp only [List.map_cons, drain, Prod.map_snd, Prod.map_fst, id, ih]
    split_ifs <;> rfl

/-- A taker that exhausts a first run of nodes and keeps some size goes on behind it;
otherwise it stops there. -/
theorem drain_append (t : O) (as bs : List (A × O)) (hne : as ≠ []) :
    drain t (as ++ bs) =
      if sz (drain t as).1 = 0 then ((drain t as).1, (drain t as).2.1, (drain t as).2.2 ++ bs)
      else
        let tail := drain (drain t as).1 bs
        (tail.1, (drain t as).2.1 ++ tail.2.1, tail.2.2) := by
  induction as generalizing t with
  | nil => exact absurd rfl hne
  | cons n ns ih =>
    simp only [List.cons_append, drain]
    by_cases hz : sz (maker t n.2) = 0
    · by_cases ht : sz (taker t n.2) = 0
      · simp [hz, ht]
      · simp only [if_pos hz, if_neg ht]
        cases ns with
        | nil =>
          split_ifs with h
          · exact absurd h ht
          · rfl
        | cons n' ns =>
          rw [ih (taker t n.2) (by simp)]
          split_ifs <;> simp
    · have ht : sz (taker t n.2) = 0 := (fill_exhausts t n.2).resolve_left hz
      simp only [if_neg hz, if_pos ht, List.cons_append]

/-- A taker with size left has drained everything. -/
theorem drain_eq_nil {t : O} {ns : List (A × O)} (h : sz (drain t ns).1 ≠ 0) :
    (drain t ns).2.2 = [] := by
  induction ns generalizing t with
  | nil => rfl
  | cons n ns ih =>
    by_cases hz : sz (maker t n.2) = 0
    · by_cases ht : sz (taker t n.2) = 0
      · simp [drain, hz, ht] at h
      · simp only [drain, if_pos hz, if_neg ht] at h ⊢
        exact ih h
    · have ht : sz (taker t n.2) = 0 := (fill_exhausts t n.2).resolve_left hz
      simp only [drain, if_neg hz] at h
      exact absurd ht h

theorem drain_taker_ident (t : O) (ns : List (A × O)) : ident (drain t ns).1 = ident t := by
  induction ns generalizing t with
  | nil => rfl
  | cons n ns ih =>
    simp only [drain]
    split_ifs
    · simp [ident]
    · rw [ih]
      simp [ident]
    · simp [ident]

/-- The sizes of nodes, added up. -/
def totalSz (ns : List (A × O)) : ℕ := (ns.map fun n => sz n.2).sum

@[simp] theorem totalSz_nil : totalSz ([] : List (A × O)) = 0 := rfl

@[simp] theorem totalSz_cons (n : A × O) (ns : List (A × O)) :
    totalSz (n :: ns) = sz n.2 + totalSz ns := by
  rw [totalSz, List.map_cons, List.sum_cons, totalSz]

@[simp] theorem totalSz_append (ns ns' : List (A × O)) :
    totalSz (ns ++ ns') = totalSz ns + totalSz ns' := by
  rw [totalSz, List.map_append, List.sum_append, totalSz, totalSz]

/-- What stays of `rest` behind the filled nodes: all of it, or its first node is
reduced, to a positive size. -/
inductive Reduced : List (A × O) → List (A × O) → Prop
  | none (rest : List (A × O)) : Reduced rest rest
  | head {n : A × O} {m : O} {ns : List (A × O)} (hident : ident m = ident n.2)
      (hpos : 0 < sz m) (hle : sz m ≤ sz n.2) : Reduced (n :: ns) ((n.1, m) :: ns)

/-- The nodes filled are a prefix, and the sizes lost and taken agree. -/
structure Drained (t : O) (ns gone rest : List (A × O)) (out : O × List (A × O) × List (A × O)) :
    Prop where
  nodes : ns = gone ++ rest
  taker : sz out.1 = sz t - totalSz ns
  filled : out.2.1.map (fun n => (n.1, ident n.2)) = gone.map fun n => (n.1, ident n.2)
  consumed : totalSz gone ≤ sz t
  stays : Reduced rest out.2.2
  conserved : totalSz ns + sz out.1 = totalSz out.2.2 + sz t

theorem Reduced.idents {rest kept : List (A × O)} (h : Reduced rest kept) :
    kept.map (fun n => (n.1, ident n.2)) = rest.map fun n => (n.1, ident n.2) := by
  cases h with
  | none => rfl
  | head hident _ _ => rw [List.map_cons, List.map_cons, hident]

theorem drain_drained (t : O) (ns : List (A × O)) :
    ∃ gone rest, Drained t ns gone rest (drain t ns) := by
  induction ns generalizing t with
  | nil => exact ⟨[], [], rfl, rfl, rfl, Nat.zero_le _, .none [], rfl⟩
  | cons n ns ih =>
    have hmaker : sz (maker t n.2) = sz n.2 - sz t := sz_maker t n.2
    have htaker : sz (taker t n.2) = sz t - sz n.2 := sz_taker t n.2
    by_cases hz : sz (maker t n.2) = 0
    · by_cases ht : sz (taker t n.2) = 0
      · refine ⟨[n], ns, rfl, ?_, ?_, ?_, ?_, ?_⟩
        · simp only [drain, if_pos hz, if_pos ht, totalSz_cons]
          omega
        · simp [drain, hz, ht]
        · simp only [totalSz_cons, totalSz_nil]
          omega
        · simp only [drain, if_pos hz, if_pos ht]
          exact .none ns
        · simp only [drain, if_pos hz, if_pos ht, totalSz_cons]
          omega
      · obtain ⟨gone, rest, h⟩ := ih (taker t n.2)
        have hconserved := h.conserved
        have htake := h.taker
        have hconsumed := h.consumed
        refine ⟨n :: gone, rest, by rw [h.nodes]; rfl, ?_, ?_, ?_, ?_, ?_⟩
        · simp only [drain, if_pos hz, if_neg ht, totalSz_cons]
          omega
        · simp only [drain, if_pos hz, if_neg ht, List.map_cons, h.filled, ident_maker]
        · simp only [totalSz_cons]
          omega
        · simp only [drain, if_pos hz, if_neg ht]
          exact h.stays
        · simp only [drain, if_pos hz, if_neg ht, totalSz_cons]
          omega
    · have ht : sz (taker t n.2) = 0 := (fill_exhausts t n.2).resolve_left hz
      refine ⟨[], n :: ns, rfl, ?_, ?_, Nat.zero_le _, ?_, ?_⟩
      · simp only [drain, if_neg hz, totalSz_cons]
        omega
      · simp only [drain, if_neg hz, List.map_nil]
      · simp only [drain, if_neg hz]
        exact .head (ident_maker t n.2) (Nat.pos_of_ne_zero hz) (by omega)
      · simp only [drain, if_neg hz, totalSz_cons]
        omega

/-- Consuming makers while their prices cross drains those in front of the first one
that does not. -/
theorem fillMakers_eq_drain (t : O) (ns : List (A × O)) :
    let crosses : A × O → Bool := fun n => (side t).Matches (limitPx t) (limitPx n.2)
    let out := drain t (ns.takeWhile crosses)
    fillMakers t (ns.map Prod.snd) =
      (out.1, out.2.1.map Prod.snd, (out.2.2 ++ ns.dropWhile crosses).map Prod.snd) := by
  induction ns generalizing t with
  | nil => rfl
  | cons n ns ih =>
    simp only [List.map_cons, fillMakers, List.takeWhile_cons, List.dropWhile_cons, decide_eq_true_eq]
    by_cases hc : (side t).Matches (limitPx t) (limitPx n.2)
    · simp only [if_pos hc, drain]
      by_cases hz : sz (maker t n.2) = 0
      · by_cases ht : sz (taker t n.2) = 0
        · simp only [if_pos hz, if_pos ht, List.map_cons, List.map_nil,
            List.takeWhile_append_dropWhile]
        · have hrest := ih (taker t n.2)
          simp only [side_taker, limitPx_taker] at hrest
          simp only [if_pos hz, if_neg ht, hrest, List.map_cons]
      · simp only [if_neg hz, List.map_nil, List.map_cons, List.cons_append,
          List.takeWhile_append_dropWhile]
    · simp only [if_neg hc, drain, List.map_nil, List.nil_append, List.map_cons]

end Drain

/-! ### Levels -/

/-- The nodes of a run of levels, each with the price of its level and its key. -/
def nodes (levels : List (ℕ × LinkedList Oid O)) : List ((ℕ × Oid) × O) :=
  levels.flatMap fun e => e.2.entries.map (Prod.map (Prod.mk e.1) id)

omit [InnerOrder O] in
@[simp] theorem nodes_nil : nodes ([] : List (ℕ × LinkedList Oid O)) = [] := rfl

omit [InnerOrder O] in
@[simp] theorem nodes_cons (e : ℕ × LinkedList Oid O) (levels : List (ℕ × LinkedList Oid O)) :
    nodes (e :: levels) = e.2.entries.map (Prod.map (Prod.mk e.1) id) ++ nodes levels :=
  List.flatMap_cons

omit [InnerOrder O] in
@[simp] theorem nodes_append (l l' : List (ℕ × LinkedList Oid O)) :
    nodes (l ++ l') = nodes l ++ nodes l' := List.flatMap_append

omit [InnerOrder O] in
theorem map_snd_nodes (levels : List (ℕ × LinkedList Oid O)) :
    (nodes levels).map Prod.snd = flat levels := by
  induction levels with
  | nil => rfl
  | cons e levels ih =>
    rw [nodes_cons, List.map_append, ih, flat_cons, List.map_map]
    rfl

/-- The loop over one level drains its nodes. -/
theorem matchFront_eq_drain (t : O) (es : List (Oid × O)) :
    matchFront t es =
      ((drain t es).1, (drain t es).2.1.map (fun n => oid n.2), (drain t es).2.2) := by
  induction es generalizing t with
  | nil => rfl
  | cons e es ih =>
    simp only [matchFront, drain, ih]
    by_cases hz : sz (maker t e.2) = 0
    · by_cases ht : sz (taker t e.2) = 0
      · simp only [dif_pos hz, if_pos hz, if_pos ht, List.map_cons, List.map_nil]
      · simp only [dif_pos hz, if_pos hz, if_neg ht, List.map_cons]
    · have ht : sz (taker t e.2) = 0 := (fill_exhausts t e.2).resolve_left hz
      simp only [dif_neg hz, if_neg hz, dif_pos ht, List.map_nil]

/-- What the loop over levels leaves behind: the nodes of the levels that cross are
drained, the other levels stay, and the emptied levels are those noted for removal. -/
structure DrainedLevels (takerSide : Side) (limit : ℕ) (st : MatchState O)
    (levels : List (ℕ × LinkedList Oid O)) (out : MatchState O × List (ℕ × LinkedList Oid O)) :
    Prop where
  taker : out.1.taker =
    (drain st.taker (nodes (levels.takeWhile fun e => takerSide.Matches limit e.1))).1
  filledOids : out.1.filledOids = st.filledOids ++
    (drain st.taker (nodes (levels.takeWhile fun e => takerSide.Matches limit e.1))).2.1.map
      fun n => oid n.2
  nodes : nodes out.2 =
    (drain st.taker (nodes (levels.takeWhile fun e => takerSide.Matches limit e.1))).2.2 ++
      nodes (levels.dropWhile fun e => takerSide.Matches limit e.1)
  emptied : ∃ new : List ℕ, out.1.keysToRemove = st.keysToRemove ++ new ∧
    (∀ k ∈ new, k ∈ levels.map Prod.fst) ∧ ∀ e ∈ out.2, e.2.entries = [] ↔ e.1 ∈ new

section Visit

variable {takerSide : Side} {limit px : ℕ} {st : MatchState O} {list : LinkedList Oid O}
  {levels : List (ℕ × LinkedList Oid O)}

theorem matchLevel_eq_drain (t : O) (list : LinkedList Oid O) :
    (matchLevel t list).1 = (drain t list.entries).1 ∧
      (matchLevel t list).2.1 = (drain t list.entries).2.1.map (fun n => oid n.2) ∧
      (matchLevel t list).2.2.entries = (drain t list.entries).2.2 := by
  simp only [matchLevel, matchFront_eq_drain, and_self]

/-- The state after a level that crosses. -/
def afterLevel (st : MatchState O) (px : ℕ) (list : LinkedList Oid O) : MatchState O where
  taker := (drain st.taker list.entries).1
  filledOids := st.filledOids ++ (drain st.taker list.entries).2.1.map fun n => oid n.2
  keysToRemove :=
    if (matchLevel st.taker list).2.2.isEmpty then st.keysToRemove ++ [px] else st.keysToRemove

theorem matchBody_crossing (hc : takerSide.Matches limit px) :
    matchBody takerSide limit st px list = (afterLevel st px list, (matchLevel st.taker list).2.2,
      decide (sz (drain st.taker list.entries).1 ≠ 0)) := by
  obtain ⟨htaker, hfilled, -⟩ := matchLevel_eq_drain st.taker list
  simp only [matchBody, if_pos hc, afterLevel, htaker, hfilled]

/-- The nodes of the levels that cross, when the first one does. -/
theorem drain_crossing (hc : takerSide.Matches limit px) (hne : list.entries ≠ []) (t : O)
    (levels : List (ℕ × LinkedList Oid O)) :
    drain t (nodes (((px, list) :: levels).takeWhile fun e => takerSide.Matches limit e.1)) =
      if sz (drain t list.entries).1 = 0 then
        ((drain t list.entries).1, (drain t list.entries).2.1.map (Prod.map (Prod.mk px) id),
          (drain t list.entries).2.2.map (Prod.map (Prod.mk px) id) ++
            nodes (levels.takeWhile fun e => takerSide.Matches limit e.1))
      else
        let tail := drain (drain t list.entries).1
          (nodes (levels.takeWhile fun e => takerSide.Matches limit e.1))
        (tail.1, (drain t list.entries).2.1.map (Prod.map (Prod.mk px) id) ++ tail.2.1,
          tail.2.2) := by
  have happ := drain_append t (list.entries.map (Prod.map (Prod.mk px) id))
    (nodes (levels.takeWhile fun e => takerSide.Matches limit e.1)) (by simpa using hne)
  rw [drain_map (Prod.mk px)] at happ
  rw [List.takeWhile_cons, if_pos (by simpa using hc), nodes_cons, happ]

/-- A taker that is filled at the first level ends the loop. -/
theorem drainedLevels_filled (hc : takerSide.Matches limit px) (hfresh : px ∉ levels.map Prod.fst)
    (hne : ∀ e ∈ (px, list) :: levels, e.2.entries ≠ [])
    (hz : sz (drain st.taker list.entries).1 = 0) :
    DrainedLevels takerSide limit st ((px, list) :: levels)
      (afterLevel st px list, (px, (matchLevel st.taker list).2.2) :: levels) := by
  have hdrain := drain_crossing hc (hne _ List.mem_cons_self) st.taker levels
  rw [if_pos hz] at hdrain
  obtain ⟨-, -, hentries⟩ := matchLevel_eq_drain st.taker list
  have hsplit : nodes (levels.takeWhile fun e => takerSide.Matches limit e.1) ++
      nodes (levels.dropWhile fun e => takerSide.Matches limit e.1) = nodes levels := by
    rw [← nodes_append, List.takeWhile_append_dropWhile]
  refine ⟨?_, ?_, ?_, ?_⟩
  · rw [hdrain, afterLevel]
  · rw [hdrain]
    simp [afterLevel]
  · rw [hdrain]
    simp [hc, hentries, hsplit]
  · by_cases hempty : (matchLevel st.taker list).2.2.entries = []
    · refine ⟨[px], by simp [afterLevel, LinkedList.isEmpty, hempty], by simp, fun e he => ?_⟩
      obtain rfl | he := List.mem_cons.mp he
      · simp [hempty]
      · have hkey : e.1 ∈ levels.map Prod.fst := List.mem_map_of_mem he
        have hother : e.1 ≠ px := fun h => hfresh (h ▸ hkey)
        simp [hne e (List.mem_cons_of_mem _ he), hother]
    · refine ⟨[], by simp [afterLevel, LinkedList.isEmpty, hempty], by simp, fun e he => ?_⟩
      obtain rfl | he := List.mem_cons.mp he
      · simp [hempty]
      · simp [hne e (List.mem_cons_of_mem _ he)]

/-- A taker with size left has emptied the first level, and goes on to the others. -/
theorem drainedLevels_cons (hc : takerSide.Matches limit px) (hfresh : px ∉ levels.map Prod.fst)
    (hne : list.entries ≠ []) (hz : sz (drain st.taker list.entries).1 ≠ 0)
    {out : MatchState O × List (ℕ × LinkedList Oid O)} (hkeys : out.2.map Prod.fst = levels.map Prod.fst)
    (h : DrainedLevels takerSide limit (afterLevel st px list) levels out) :
    DrainedLevels takerSide limit st ((px, list) :: levels)
      (out.1, (px, (matchLevel st.taker list).2.2) :: out.2) := by
  have hdrain := drain_crossing hc hne st.taker levels
  rw [if_neg hz] at hdrain
  obtain ⟨-, -, hentries⟩ := matchLevel_eq_drain st.taker list
  have hnil : (matchLevel st.taker list).2.2.entries = [] := hentries.trans (drain_eq_nil hz)
  refine ⟨?_, ?_, ?_, ?_⟩
  · rw [hdrain, h.taker, afterLevel]
  · rw [hdrain]
    simp [h.filledOids, afterLevel]
  · rw [hdrain]
    simp [hc, hnil, h.nodes, afterLevel]
  · obtain ⟨new, hremove, hsub, hempty⟩ := h.emptied
    refine ⟨px :: new, ?_, fun k hk => ?_, fun e he => ?_⟩
    · simp [hremove, afterLevel, LinkedList.isEmpty, hnil]
    · obtain rfl | hk := List.mem_cons.mp hk
      · simp
      · exact List.mem_cons_of_mem _ (hsub k hk)
    · obtain rfl | he := List.mem_cons.mp he
      · simp [hnil]
      · have hkey : e.1 ∈ levels.map Prod.fst := hkeys ▸ List.mem_map_of_mem he
        have hother : e.1 ≠ px := fun heq => hfresh (heq ▸ hkey)
        rw [hempty e he, List.mem_cons, or_iff_right hother]

theorem visit_drained (takerSide : Side) (limit : ℕ) (levels : List (ℕ × LinkedList Oid O))
    (st : MatchState O) (hnodup : (levels.map Prod.fst).Nodup)
    (hne : ∀ e ∈ levels, e.2.entries ≠ []) :
    DrainedLevels takerSide limit st levels
      (BTreeMap.visit (matchBody takerSide limit) st levels) := by
  induction levels generalizing st with
  | nil => exact ⟨rfl, by simp [BTreeMap.visit, drain], rfl, [], by simp [BTreeMap.visit]⟩
  | cons e levels ih =>
    obtain ⟨px, list⟩ := e
    rw [List.map_cons, List.nodup_cons] at hnodup
    have hrest : ∀ e ∈ levels, e.2.entries ≠ [] := fun e he => hne e (List.mem_cons_of_mem _ he)
    by_cases hc : takerSide.Matches limit px
    · simp only [BTreeMap.visit, matchBody_crossing hc]
      by_cases hz : sz (drain st.taker list.entries).1 = 0
      · rw [if_neg (by simp [hz])]
        exact drainedLevels_filled hc hnodup.1 hne hz
      · rw [if_pos (by simp [hz])]
        exact drainedLevels_cons hc hnodup.1 (hne _ List.mem_cons_self) hz
          (BTreeMap.visit_keys _ _ _) (ih (afterLevel st px list) hnodup.2 hrest)
    · -- The level does not cross, and the loop ends.
      have hvisit : BTreeMap.visit (matchBody takerSide limit) st ((px, list) :: levels) =
          (st, (px, list) :: levels) := by
        simp [BTreeMap.visit, matchBody, hc]
      rw [hvisit]
      refine ⟨?_, ?_, ?_, [], by simp, by simp, fun e he => by simp [hne e he]⟩
      all_goals simp [hc, drain]

end Visit

/-! ### A side -/

omit [InnerOrder O] in
theorem mem_nodes {levels : List (ℕ × LinkedList Oid O)} {px : ℕ} {k : Oid} {o : O} :
    ((px, k), o) ∈ nodes levels ↔ ∃ list, (px, list) ∈ levels ∧ (k, o) ∈ list.entries := by
  simp only [nodes, List.mem_flatMap, List.mem_map, Prod.exists, Prod.map_apply, id, Prod.mk.injEq]
  constructor
  · rintro ⟨_, list, hlist, _, _, hn, ⟨rfl, rfl⟩, rfl⟩
    exact ⟨list, hlist, hn⟩
  · rintro ⟨list, hlist, hn⟩
    exact ⟨px, list, hlist, k, o, hn, ⟨rfl, rfl⟩, rfl⟩

omit [InnerOrder O] in
theorem foldl_erase_entries (ks : List ℕ) (map : Levels O) :
    (ks.foldl BTreeMap.erase map).entries = map.entries.filter fun e => e.1 ∉ ks := by
  induction ks generalizing map with
  | nil => simp
  | cons k ks ih =>
    rw [List.foldl_cons, ih]
    change (map.entries.filter _).filter _ = _
    rw [List.filter_filter]
    apply List.filter_congr
    intro e _
    simp [not_or, Bool.and_comm]

omit [InnerOrder O] in
theorem nodes_filter_nonempty (levels : List (ℕ × LinkedList Oid O)) (p : ℕ → Bool)
    (h : ∀ e ∈ levels, e.2.entries = [] ↔ p e.1 = false) :
    nodes (levels.filter fun e => p e.1) = nodes levels := by
  induction levels with
  | nil => rfl
  | cons e levels ih =>
    have ih := ih fun e' he' => h e' (List.mem_cons_of_mem e he')
    have he := h e (by simp)
    cases hp : p e.1 with
    | true => rw [List.filter_cons_of_pos (by simpa using hp), nodes_cons, nodes_cons, ih]
    | false =>
      rw [List.filter_cons_of_neg (by simp [hp]), nodes_cons, he.mpr hp, List.map_nil,
        List.nil_append, ih]

/-- The nodes that a taker can trade with: those of the levels that cross, best first. -/
def crossingNodes (map : Levels O) (t : O) : List ((ℕ × Oid) × O) :=
  nodes ((bestLevels (side t).opposite map).takeWhile fun e => (side t).Matches (limitPx t) e.1)

/-- The nodes of the levels behind them. -/
def otherNodes (map : Levels O) (t : O) : List ((ℕ × Oid) × O) :=
  nodes ((bestLevels (side t).opposite map).dropWhile fun e => (side t).Matches (limitPx t) e.1)

theorem nodes_bestLevels (map : Levels O) (t : O) :
    nodes (bestLevels (side t).opposite map) = crossingNodes map t ++ otherNodes map t := by
  rw [crossingNodes, otherNodes, ← nodes_append, List.takeWhile_append_dropWhile]

/-- Matching drains the nodes that cross, and leaves no level empty. -/
theorem matchOrder_drains {map : Levels O} (t : O) (hne : ∀ e ∈ map.entries, e.2.entries ≠ []) :
    (matchOrder map t).1 = (drain t (crossingNodes map t)).1 ∧
    (matchOrder map t).2.1 = (drain t (crossingNodes map t)).2.1.map (fun n => oid n.2) ∧
    nodes (bestLevels (side t).opposite (matchOrder map t).2.2) =
      (drain t (crossingNodes map t)).2.2 ++ otherNodes map t ∧
    ∀ e ∈ (matchOrder map t).2.2.entries, e.2.entries ≠ [] := by
  -- Both directions of the loop visit the best levels first.
  obtain ⟨out, hout, hbest, hst⟩ : ∃ out : MatchState O × Levels O,
      matchOrder map t = (out.1.taker, out.1.filledOids, out.1.keysToRemove.foldl BTreeMap.erase out.2) ∧
      bestLevels (side t).opposite out.2 = (BTreeMap.visit (matchBody (side t) (limitPx t))
        ⟨t, [], []⟩ (bestLevels (side t).opposite map)).2 ∧
      out.1 = (BTreeMap.visit (matchBody (side t) (limitPx t)) ⟨t, [], []⟩
        (bestLevels (side t).opposite map)).1 := by
    unfold matchOrder
    cases hs : side t with
    | ask => exact ⟨_, rfl, by simp [bestLevels, Side.opposite, BTreeMap.iterMutRev], rfl⟩
    | bid => exact ⟨_, rfl, rfl, rfl⟩
  have hnodup : ((bestLevels (side t).opposite map).map Prod.fst).Nodup := by
    cases (side t).opposite with
    | ask => exact map.nodup_keys
    | bid => simpa [bestLevels, List.map_reverse] using map.nodup_keys
  have hm := visit_drained (side t) (limitPx t) (bestLevels (side t).opposite map) ⟨t, [], []⟩ hnodup
    (fun e he => hne e (mem_bestLevels.mp he))
  obtain ⟨new, hkeys, -, hemp⟩ := hm.emptied
  rw [← hst, List.nil_append] at hkeys
  have hemp' : ∀ e ∈ out.2.entries, e.2.entries = [] ↔ e.1 ∈ new :=
    fun e he => hemp e (hbest ▸ mem_bestLevels.mpr he)
  have hentries := foldl_erase_entries out.1.keysToRemove out.2
  rw [hkeys] at hentries
  have hnodes : nodes (bestLevels (side t).opposite (new.foldl BTreeMap.erase out.2)) =
      nodes (bestLevels (side t).opposite out.2) := by
    have hb : bestLevels (side t).opposite (new.foldl BTreeMap.erase out.2) =
        (bestLevels (side t).opposite out.2).filter fun e => decide (e.1 ∉ new) := by
      cases (side t).opposite with
      | ask => exact hentries
      | bid =>
        change (new.foldl BTreeMap.erase out.2).entries.reverse = _
        rw [hentries, ← List.filter_reverse]
        rfl
    rw [hb]
    exact nodes_filter_nonempty _ (fun k => decide (k ∉ new))
      (fun e he => by rw [hemp' e (mem_bestLevels.mp he)]; simp)
  rw [hout, hkeys]
  refine ⟨?_, ?_, ?_, ?_⟩
  · rw [hst]
    exact hm.taker
  · rw [hst, hm.filledOids, List.nil_append, crossingNodes]
  · rw [hnodes, hbest]
    exact hm.nodes
  · intro e he
    rw [hentries, List.mem_filter] at he
    intro hnil
    exact (by simpa using he.2 : e.1 ∉ new) ((hemp' e he.1).mp hnil)

end OrderBookServer
