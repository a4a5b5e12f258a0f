import OrderBookServer.Rollup

/-!
# Roll-ups of groups

A roll-up that joins the lists of what it merges cuts the sequence of all that was merged
into consecutive groups. Along a closure, and from groups in increasing order, each group
of the result holds what has one closure: passes over groups therefore compose for any
closures, coarser or not. What a pass over sums does is read off the pass over groups.
-/
namespace OrderBookServer.Rollup

variable {P B : Type*} [LinearOrder P]

/-- Merging of groups, the later one first. -/
def join (later earlier : List B) : List B := earlier ++ later

/-- The groups of `bs` along `F`: consecutive runs of one value of `F` each, in
increasing order of the values. -/
structure Grouped (F : B → P) (bs : List B) (gs : List (P × List B)) : Prop where
  increasing : gs.Pairwise fun a b => a.1 < b.1
  flatten : gs.flatMap Prod.snd = bs
  named : ∀ g ∈ gs, ∀ b ∈ g.2, F b = g.1
  nonempty : ∀ g ∈ gs, g.2 ≠ []

/-! ### One step -/

/-- An entry beyond the pending bucket opens one. -/
theorem push_of_opens {A : Type*} (op : A → A → A) (β : P → P) {cur : Option (P × A)} {e : P × A}
    (h : ∀ d ∈ cur, d.1 < e.1) : push op β cur e = (β e.1, e.2) ∧ flush cur e = cur.toList := by
  cases cur with
  | none => exact ⟨rfl, rfl⟩
  | some d =>
    have hlt := h d rfl
    simp [push, flush, hlt]

/-- Any other entry is merged into it. -/
theorem push_of_merges {A : Type*} (op : A → A → A) (β : P → P) {d e : P × A}
    (h : ¬ d.1 < e.1) : push op β (some d) e = (d.1, op e.2 d.2) ∧ flush (some d) e = [] := by
  simp [push, flush, h]

/-! ### Passes over groups -/

theorem flatMap_roll (β : P → P) (cur : Option (P × List B)) (gs : List (P × List B)) :
    (roll join β cur gs).flatMap Prod.snd = (cur.toList ++ gs).flatMap Prod.snd := by
  induction gs generalizing cur with
  | nil => simp [roll]
  | cons g gs ih =>
    rw [roll, List.flatMap_append, ih]
    cases cur with
    | none => simp [flush, push]
    | some d =>
      by_cases hlt : d.1 < g.1
      · simp [flush, push, hlt]
      · simp [flush, push, hlt, join]

/-- A pass that rounds nothing keeps increasing entries as they are. -/
theorem roll_id {A : Type*} (op : A → A → A) {es : List (P × A)}
    (hs : es.Pairwise fun a b => a.1 < b.1) : roll op id none es = es := by
  have hpending (d : P × A) (es : List (P × A)) (hs : (d :: es).Pairwise fun a b => a.1 < b.1) :
      roll op id (some d) es = d :: es := by
    induction es generalizing d with
    | nil => rfl
    | cons e es ih =>
      obtain ⟨hd, hrest⟩ := List.pairwise_cons.mp hs
      have hlt : d.1 < e.1 := hd e List.mem_cons_self
      simp only [roll, flush, push, if_pos hlt, id]
      rw [ih e hrest, List.singleton_append]
  cases es with
  | nil => rfl
  | cons e es => exact hpending e es hs

/-- A pass only ever adds to a group: what holds of the groups of the result, and of the
fronts of each, holds of the pending one. -/
theorem of_forall_mem_roll {β : P → P} {R : P × List B → Prop}
    (hR : ∀ p bs bs', R (p, bs ++ bs') → R (p, bs)) {d : P × List B} {gs : List (P × List B)}
    (h : ∀ q ∈ roll join β (some d) gs, R q) : R d := by
  induction gs generalizing d with
  | nil => exact h d (by simp [roll])
  | cons g gs ih =>
    by_cases hlt : d.1 < g.1
    · exact h d (by simp [roll, flush, hlt])
    · have hmore : R (d.1, d.2 ++ g.2) := by
        apply ih
        intro q hq
        apply h
        rw [roll, List.mem_append]
        right
        simpa [push, hlt, join] using hq
      exact hR d.1 d.2 g.2 hmore

/-- The groups of a pass hold what has one closure. -/
theorem named_of_mem_roll {c : ClosureOperator P} {F : B → P} {cur : Option (P × List B)}
    {gs : List (P × List B)} (hpend : Pending c cur gs) (hs : gs.Pairwise fun a b => a.1 ≤ b.1)
    (hcur : ∀ d ∈ cur, d.2 ≠ [] ∧ ∀ b ∈ d.2, c (F b) = d.1)
    (hgs : ∀ g ∈ gs, g.2 ≠ [] ∧ ∀ b ∈ g.2, F b = g.1) :
    ∀ q ∈ roll join c cur gs, q.2 ≠ [] ∧ ∀ b ∈ q.2, c (F b) = q.1 := by
  induction gs generalizing cur with
  | nil => simpa [roll] using hcur
  | cons g gs ih =>
    obtain ⟨hfirst, hnext⟩ := hpend.push join hs
    obtain ⟨hne, hname⟩ := hgs g List.mem_cons_self
    have hpush : (push join c cur g).2 ≠ [] ∧ ∀ b ∈ (push join c cur g).2, c (F b) = c g.1 := by
      have hown : ∀ b ∈ g.2, c (F b) = c g.1 := fun b hb => by rw [hname b hb]
      cases cur with
      | none => exact ⟨hne, hown⟩
      | some d =>
        by_cases hlt : d.1 < g.1
        · simpa [push, hlt] using ⟨hne, hown⟩
        · have hd : d.1 = c g.1 := by simpa [push, hlt] using hfirst
          obtain ⟨hdne, hdname⟩ := hcur d rfl
          simp only [push, if_neg hlt, join]
          refine ⟨by simp [hdne], fun b hb => ?_⟩
          obtain hb | hb := List.mem_append.mp hb
          · rw [hdname b hb, hd]
          · exact hown b hb
    intro q hq
    rw [roll, List.mem_append] at hq
    obtain hq | hq := hq
    · cases cur with
      | none => cases hq
      | some d =>
        simp only [flush] at hq
        split_ifs at hq
        · obtain rfl := List.mem_singleton.mp hq
          exact hcur q rfl
        · cases hq
    · refine ih hnext (List.pairwise_cons.mp hs).2 (fun d hd => ?_)
        (fun g' hg' => hgs g' (List.mem_cons_of_mem g hg')) q hq
      obtain rfl := Option.some.inj hd
      rw [hfirst]
      exact hpush

namespace Grouped

variable {F : B → P} {bs : List B} {gs : List (P × List B)}

/-- Passes compose. -/
theorem roll (h : Grouped F bs gs) (c : ClosureOperator P) :
    Grouped (fun b => c (F b)) bs (Rollup.roll join c none gs) := by
  have hs : gs.Pairwise fun a b => a.1 ≤ b.1 := h.increasing.imp le_of_lt
  have hmem := named_of_mem_roll (Pending.none (c := c) gs) hs (by simp)
    fun g hg => ⟨h.nonempty g hg, h.named g hg⟩
  refine ⟨pairwise_roll join (Pending.none gs) hs, ?_, fun q hq => (hmem q hq).2,
    fun q hq => (hmem q hq).1⟩
  rw [flatMap_roll, Option.toList_none, List.nil_append, h.flatten]

theorem tail {g : P × List B} (h : Grouped F bs (g :: gs)) :
    Grouped F (gs.flatMap Prod.snd) gs :=
  ⟨(List.pairwise_cons.mp h.increasing).2, rfl,
    fun g' hg' => h.named g' (List.mem_cons_of_mem g hg'),
    fun g' hg' => h.nonempty g' (List.mem_cons_of_mem g hg')⟩

/-- A group is all that has its value. -/
theorem filter_eq (h : Grouped F bs gs) {g : P × List B} (hg : g ∈ gs) :
    (bs.filter fun b => decide (F b = g.1)) = g.2 := by
  induction gs generalizing bs with
  | nil => cases hg
  | cons first gs ih =>
    have hbefore := (List.pairwise_cons.mp h.increasing).1
    rw [← h.flatten, List.flatMap_cons, List.filter_append]
    obtain rfl | hlater := List.mem_cons.mp hg
    · have hown : (g.2.filter fun b => decide (F b = g.1)) = g.2 := by
        apply List.filter_eq_self.mpr
        intro b hb
        simpa using h.named g List.mem_cons_self b hb
      have hrest : ((gs.flatMap Prod.snd).filter fun b => decide (F b = g.1)) = [] := by
        apply List.filter_eq_nil_iff.mpr
        intro b hb
        obtain ⟨g', hg', hb⟩ := List.mem_flatMap.mp hb
        have hname := h.named g' (List.mem_cons_of_mem g hg') b hb
        simpa [hname] using (hbefore g' hg').ne'
      rw [hown, hrest, List.append_nil]
    · have hnone : (first.2.filter fun b => decide (F b = g.1)) = [] := by
        apply List.filter_eq_nil_iff.mpr
        intro b hb
        have hname := h.named first List.mem_cons_self b hb
        simpa [hname] using (hbefore g hlater).ne
      rw [hnone, List.nil_append]
      exact ih h.tail hlater

/-- To say something of every group is to say it of the group of every element. -/
theorem forall_iff (h : Grouped F bs gs) {R : P → List B → Prop} :
    (∀ g ∈ gs, R g.1 g.2) ↔ ∀ b ∈ bs, R (F b) (bs.filter fun b' => decide (F b' = F b)) := by
  constructor
  · intro hgs b hb
    rw [← h.flatten] at hb
    obtain ⟨g, hg, hbg⟩ := List.mem_flatMap.mp hb
    rw [h.named g hg b hbg, h.filter_eq hg]
    exact hgs g hg
  · intro hbs g hg
    obtain ⟨b, hb⟩ := List.exists_mem_of_ne_nil _ (h.nonempty g hg)
    have hmem : b ∈ bs := by
      rw [← h.flatten]
      exact List.mem_flatMap.mpr ⟨g, hg, hb⟩
    have hb' := hbs b hmem
    rwa [h.named g hg b hb, h.filter_eq hg] at hb'

end Grouped
end OrderBookServer.Rollup
