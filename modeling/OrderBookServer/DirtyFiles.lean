import OrderBookServer.HashMap
import Mathlib.Order.Bounds.Basic

/-!
# The queue of dirty paths

A notification is a hint that a path has unread bytes. Those of a path that is queued already
are merged into one entry, and those that find no room are recorded by one flag. What the
queue holds is said by the calls made so far: a path is queued as long as some push of it,
not refused, was made since it was last popped.
-/
namespace OrderBookServer

/-! ### Marks since the last reset -/

/-- The marks before `n` with no reset between them and `n`. -/
def marksSince (reset mark : ℕ → Prop) (n : ℕ) : Set ℕ :=
  {i | i < n ∧ mark i ∧ ∀ k, i < k → k < n → ¬ reset k}

theorem mem_marksSince_succ {reset mark : ℕ → Prop} {n i : ℕ} :
    i ∈ marksSince reset mark (n + 1) ↔
      (i ∈ marksSince reset mark n ∧ ¬ reset n) ∨ (i = n ∧ mark n) := by
  constructor
  · rintro ⟨hi, hmark, hkept⟩
    obtain rfl | hlt := Nat.eq_or_lt_of_le (Nat.le_of_lt_succ hi)
    · exact .inr ⟨rfl, hmark⟩
    · exact .inl ⟨⟨hlt, hmark, fun k hk hkn => hkept k hk (by omega)⟩, hkept n hlt (by omega)⟩
  · rintro (⟨⟨hi, hmark, hkept⟩, hreset⟩ | ⟨rfl, hmark⟩)
    · refine ⟨by omega, hmark, fun k hk hkn => ?_⟩
      obtain rfl | hlt := Nat.eq_or_lt_of_le (Nat.le_of_lt_succ hkn)
      · exact hreset
      · exact hkept k hk hlt
    · exact ⟨by omega, hmark, fun k hk hkn => by omega⟩

theorem marksSince_zero (reset mark : ℕ → Prop) : marksSince reset mark 0 = ∅ := by
  ext i
  simp [marksSince]

/-! ### The queue -/

structure DirtyFiles (P : Type) where
  paths : List P
  created : HashMap P Bool
  limit : ℕ
  overflow : Bool

/-- The calls that change a queue. -/
inductive DirtyOp (P : Type) where
  | push (path : P) (created : Bool)
  | pop
  | markOverflow
  | takeOverflow
  deriving DecidableEq

namespace DirtyFiles

variable {P : Type}

def new (limit : ℕ) : DirtyFiles P := ⟨[], ∅, limit, false⟩

def len (self : DirtyFiles P) : ℕ := self.paths.length

def isEmpty (self : DirtyFiles P) : Bool := self.paths.isEmpty

def markOverflow (self : DirtyFiles P) : DirtyFiles P := { self with overflow := true }

def takeOverflow (self : DirtyFiles P) : Bool × DirtyFiles P :=
  (self.overflow, { self with overflow := false })

variable [DecidableEq P]

def push (self : DirtyFiles P) (path : P) (created : Bool) : DirtyFiles P :=
  match self.created.lookup path with
  | some existing => { self with created := self.created.insert path (existing || created) }
  | none =>
    if self.limit ≤ self.paths.length then { self with overflow := true }
    else
      { self with
        created := self.created.insert path created
        paths := self.paths ++ [path] }

def pop (self : DirtyFiles P) : Option (P × Bool) × DirtyFiles P :=
  match self.paths with
  | [] => (none, self)
  | path :: rest =>
    (some (path, (self.created.lookup path).getD false),
      { self with
        paths := rest
        created := self.created.erase path })

/-- A push of the path would find no room. -/
def Refuses (self : DirtyFiles P) (path : P) : Prop :=
  path ∉ self.created ∧ self.limit ≤ self.paths.length

def step (self : DirtyFiles P) : DirtyOp P → DirtyFiles P
  | .push path created => self.push path created
  | .pop => self.pop.2
  | .markOverflow => self.markOverflow
  | .takeOverflow => self.takeOverflow.2

/-- The queue after so many of the calls. -/
def after (limit : ℕ) (calls : ℕ → DirtyOp P) : ℕ → DirtyFiles P
  | 0 => new limit
  | n + 1 => (after limit calls n).step (calls n)

/-- The call returns the path. -/
def Pops (limit : ℕ) (calls : ℕ → DirtyOp P) (path : P) (n : ℕ) : Prop :=
  calls n = .pop ∧ ∃ created, (after limit calls n).pop.1 = some (path, created)

def Pushes (calls : ℕ → DirtyOp P) (path : P) (n : ℕ) : Prop :=
  ∃ created, calls n = .push path created

def Accepts (limit : ℕ) (calls : ℕ → DirtyOp P) (path : P) (n : ℕ) : Prop :=
  Pushes calls path n ∧ ¬ (after limit calls n).Refuses path

/-- The pushes of a path since it was last popped. -/
def pushesSince (limit : ℕ) (calls : ℕ → DirtyOp P) (path : P) (n : ℕ) : Set ℕ :=
  marksSince (Pops limit calls path) (Pushes calls path) n

/-- Those of them that were not refused. -/
def acceptedSince (limit : ℕ) (calls : ℕ → DirtyOp P) (path : P) (n : ℕ) : Set ℕ :=
  marksSince (Pops limit calls path) (Accepts limit calls path) n

/-! ### What a call does -/

section Calls

variable {self : DirtyFiles P} {path : P} {created : Bool}

theorem push_cases (self : DirtyFiles P) (path : P) (created : Bool) :
    (∃ existing, self.created.lookup path = some existing ∧
      self.push path created =
        { self with created := self.created.insert path (existing || created) }) ∨
    (self.Refuses path ∧ self.push path created = { self with overflow := true }) ∨
    (path ∉ self.created ∧ self.paths.length < self.limit ∧
      self.push path created =
        { self with
          created := self.created.insert path created
          paths := self.paths ++ [path] }) := by
  unfold push Refuses
  cases hlookup : self.created.lookup path with
  | some existing => exact .inl ⟨existing, rfl, rfl⟩
  | none =>
    have hnew : path ∉ self.created := Finmap.lookup_eq_none.mp hlookup
    by_cases hfull : self.limit ≤ self.paths.length
    · exact .inr (.inl ⟨⟨hnew, hfull⟩, if_pos hfull⟩)
    · exact .inr (.inr ⟨hnew, by omega, if_neg hfull⟩)

theorem pop_cases (self : DirtyFiles P) :
    (self.paths = [] ∧ self.pop = (none, self)) ∨
    ∃ path rest, self.paths = path :: rest ∧
      self.pop = (some (path, (self.created.lookup path).getD false),
        { self with
          paths := rest
          created := self.created.erase path }) := by
  unfold pop
  split
  · rename_i hnil
    exact .inl ⟨hnil, rfl⟩
  · rename_i path rest hcons
    exact .inr ⟨path, rest, hcons, rfl⟩

theorem step_limit (self : DirtyFiles P) (op : DirtyOp P) : (self.step op).limit = self.limit := by
  cases op with
  | push path created =>
    obtain ⟨existing, -, h⟩ | ⟨-, h⟩ | ⟨-, -, h⟩ := push_cases self path created <;>
      simp [step, h]
  | pop => obtain ⟨-, h⟩ | ⟨path, rest, -, h⟩ := pop_cases self <;> simp [step, h]
  | markOverflow => rfl
  | takeOverflow => rfl

/-- The flag stays up until it is taken. -/
theorem step_overflow (op : DirtyOp P) (hup : self.overflow = true) :
    (self.step op).overflow = true ∨ op = .takeOverflow := by
  cases op with
  | push path created =>
    obtain ⟨existing, -, h⟩ | ⟨-, h⟩ | ⟨-, -, h⟩ := push_cases self path created <;>
      simp [step, h, hup]
  | pop => obtain ⟨-, h⟩ | ⟨path, rest, -, h⟩ := pop_cases self <;> simp [step, h, hup]
  | markOverflow => exact .inl rfl
  | takeOverflow => exact .inr rfl

/-- A push that is refused raises it. -/
theorem push_refused (h : self.Refuses path) (created : Bool) :
    self.push path created = { self with overflow := true } := by
  obtain ⟨existing, hlookup, -⟩ | ⟨-, hpush⟩ | ⟨-, hroom, -⟩ := push_cases self path created
  · exact absurd (Finmap.mem_of_lookup_eq_some hlookup) h.1
  · exact hpush
  · have hfull := h.2
    omega

end Calls

/-! ### What the queue holds -/

section Runs

variable {limit n i : ℕ} {calls : ℕ → DirtyOp P} {path other : P} {created : Bool}

theorem after_limit (limit : ℕ) (calls : ℕ → DirtyOp P) (n : ℕ) :
    (after limit calls n).limit = limit := by
  induction n with
  | zero => rfl
  | succ n ih => rw [after, step_limit, ih]

theorem mem_acceptedSince_succ : i ∈ acceptedSince limit calls path (n + 1) ↔
    (i ∈ acceptedSince limit calls path n ∧ ¬ Pops limit calls path n) ∨
      (i = n ∧ Accepts limit calls path n) := mem_marksSince_succ

theorem not_pops_of_call (h : calls n ≠ .pop) : ¬ Pops limit calls path n := fun hpops => h hpops.1

theorem not_accepts_of_call (h : ∀ created, calls n ≠ .push path created) :
    ¬ Accepts limit calls path n := by
  rintro ⟨⟨created, hpush⟩, -⟩
  exact h created hpush

/-- A call that neither queues a path nor pops it. -/
theorem acceptedSince_succ_of_not (hpop : ¬ Pops limit calls path n)
    (hpush : ¬ Accepts limit calls path n) :
    acceptedSince limit calls path (n + 1) = acceptedSince limit calls path n := by
  ext i
  rw [mem_acceptedSince_succ]
  tauto

theorem acceptedSince_succ_of_pops (h : Pops limit calls path n) :
    acceptedSince limit calls path (n + 1) = ∅ := by
  have hpush : ¬ Accepts limit calls path n := not_accepts_of_call (by simp [h.1])
  ext i
  rw [mem_acceptedSince_succ]
  simp [h, hpush]

theorem acceptedSince_succ_of_accepts (h : Accepts limit calls path n) :
    acceptedSince limit calls path (n + 1) = insert n (acceptedSince limit calls path n) := by
  have hpop : ¬ Pops limit calls path n := by
    obtain ⟨⟨created, hpush⟩, -⟩ := h
    exact not_pops_of_call (by simp [hpush])
  ext i
  rw [mem_acceptedSince_succ, Set.mem_insert_iff]
  tauto

theorem lt_of_mem_acceptedSince (h : i ∈ acceptedSince limit calls path n) : i < n := h.1

/-- The queue, and the pushes that it still owes to whoever pops. -/
structure Owes (limit : ℕ) (calls : ℕ → DirtyOp P) (n : ℕ) (queue : DirtyFiles P) : Prop where
  limited : queue.paths.length ≤ limit
  nodup : queue.paths.Nodup
  keys : ∀ path, path ∈ queue.paths ↔ path ∈ queue.created
  queued : ∀ path, path ∈ queue.paths ↔ (acceptedSince limit calls path n).Nonempty
  /-- Some push of the path in front is before all those of the path behind. -/
  order : queue.paths.Pairwise fun path other =>
    ∃ i ∈ acceptedSince limit calls path n, ∀ j ∈ acceptedSince limit calls other n, i < j
  flags : ∀ path created, queue.created.lookup path = some created →
    (created = true ↔ ∃ i ∈ acceptedSince limit calls path n, calls i = .push path true)

theorem owes_new : Owes limit calls 0 (new limit : DirtyFiles P) where
  limited := Nat.zero_le _
  nodup := List.nodup_nil
  keys path := by simp [new, Finmap.notMem_empty]
  queued path := by simp [new, acceptedSince, marksSince_zero]
  order := List.Pairwise.nil
  flags path created h := by simp [new] at h

variable {queue next : DirtyFiles P}

/-- A call that changes neither the paths nor what is owed. -/
theorem Owes.same (h : Owes limit calls n queue) (hpaths : next.paths = queue.paths)
    (hcreated : next.created = queue.created)
    (hsame : ∀ path, acceptedSince limit calls path (n + 1) = acceptedSince limit calls path n) :
    Owes limit calls (n + 1) next := by
  refine ⟨hpaths ▸ h.limited, hpaths ▸ h.nodup, ?_, ?_, ?_, ?_⟩
  · rw [hpaths, hcreated]
    exact h.keys
  · intro path
    rw [hpaths, hsame]
    exact h.queued path
  · simp only [hpaths, hsame]
    exact h.order
  · simp only [hcreated, hsame]
    exact h.flags

/-- What is owed after a push that is not refused. -/
theorem acceptedSince_succ_of_push (hcall : calls n = .push path created)
    (haccepts : ¬ (after limit calls n).Refuses path) (other : P) :
    acceptedSince limit calls other (n + 1) =
      if other = path then insert n (acceptedSince limit calls path n)
      else acceptedSince limit calls other n := by
  split_ifs with heq
  · rw [heq]
    exact acceptedSince_succ_of_accepts ⟨⟨created, hcall⟩, haccepts⟩
  · refine acceptedSince_succ_of_not (not_pops_of_call (by simp [hcall])) (not_accepts_of_call ?_)
    intro flag hpush
    rw [hcall] at hpush
    simp only [DirtyOp.push.injEq] at hpush
    exact heq hpush.1.symm

/-- Who is owed before whom does not change by a push. -/
theorem Owes.order_push (h : Owes limit calls n queue) (hcall : calls n = .push path created)
    (haccepts : ¬ (after limit calls n).Refuses path) :
    queue.paths.Pairwise fun p q => ∃ i ∈ acceptedSince limit calls p (n + 1),
      ∀ j ∈ acceptedSince limit calls q (n + 1), i < j := by
  refine h.order.imp fun {p q} horder => ?_
  obtain ⟨i, hi, hbefore⟩ := horder
  refine ⟨i, ?_, fun j hj => ?_⟩
  · rw [acceptedSince_succ_of_push hcall haccepts]
    split_ifs with heq
    · exact Set.mem_insert_of_mem n (heq ▸ hi)
    · exact hi
  · rw [acceptedSince_succ_of_push hcall haccepts] at hj
    split_ifs at hj with heq
    · obtain rfl | hj := hj
      · exact lt_of_mem_acceptedSince hi
      · exact hbefore j (heq ▸ hj)
    · exact hbefore j hj

theorem Owes.merged {existing : Bool} (h : Owes limit calls n (after limit calls n))
    (hcall : calls n = .push path created)
    (hlookup : (after limit calls n).created.lookup path = some existing) :
    Owes limit calls (n + 1)
      { after limit calls n with
        created := (after limit calls n).created.insert path (existing || created) } := by
  have hmem : path ∈ (after limit calls n).created := Finmap.mem_of_lookup_eq_some hlookup
  have haccepts : ¬ (after limit calls n).Refuses path := fun hrefuses => hrefuses.1 hmem
  have hsince := acceptedSince_succ_of_push hcall haccepts
  refine ⟨h.limited, h.nodup, fun other => ?_, fun other => ?_, h.order_push hcall haccepts,
    fun other flag hflag => ?_⟩
  · rw [h.keys, Finmap.mem_insert]
    exact ⟨.inr, fun hother => hother.elim (fun heq => heq ▸ hmem) id⟩
  · rw [h.queued, hsince]
    split_ifs with heq
    · subst heq
      exact iff_of_true ((h.queued other).mp ((h.keys other).mpr hmem)) (Set.insert_nonempty _ _)
    · exact Iff.rfl
  · simp only [HashMap.lookup_insert_ite] at hflag
    rw [hsince]
    split_ifs at hflag ⊢ with heq
    · subst heq
      have hbefore := h.flags other existing hlookup
      simp only [Option.some.injEq] at hflag
      simp only [← hflag, Bool.or_eq_true, hbefore, Set.mem_insert_iff]
      constructor
      · rintro (⟨i, hi, hcreated⟩ | hcreated)
        · exact ⟨i, .inr hi, hcreated⟩
        · exact ⟨n, .inl rfl, by rw [hcall, hcreated]⟩
      · rintro ⟨i, rfl | hi, hcreated⟩
        · rw [hcall] at hcreated
          simp only [DirtyOp.push.injEq, true_and] at hcreated
          exact .inr hcreated
        · exact .inl ⟨i, hi, hcreated⟩
    · exact h.flags other flag hflag

theorem Owes.accepted (h : Owes limit calls n (after limit calls n))
    (hcall : calls n = .push path created) (hnew : path ∉ (after limit calls n).created)
    (hroom : (after limit calls n).paths.length < (after limit calls n).limit) :
    Owes limit calls (n + 1)
      { after limit calls n with
        created := (after limit calls n).created.insert path created
        paths := (after limit calls n).paths ++ [path] } := by
  have hlimit := after_limit limit calls n
  have haccepts : ¬ (after limit calls n).Refuses path := fun hrefuses => by
    have hfull := hrefuses.2
    omega
  have hout : path ∉ (after limit calls n).paths := fun hmem => hnew ((h.keys path).mp hmem)
  have hnone : acceptedSince limit calls path n = ∅ :=
    Set.not_nonempty_iff_eq_empty.mp fun hsome => hout ((h.queued path).mpr hsome)
  have hsince := acceptedSince_succ_of_push hcall haccepts
  refine ⟨?_, ?_, fun other => ?_, fun other => ?_, ?_, fun other flag hflag => ?_⟩
  · simp only [List.length_append, List.length_singleton]
    omega
  · exact h.nodup.append (List.nodup_singleton path) (by simpa using hout)
  · simp only [List.mem_append, List.mem_singleton, Finmap.mem_insert, h.keys]
    tauto
  · simp only [List.mem_append, List.mem_singleton, hsince]
    split_ifs with heq
    · exact iff_of_true (.inr heq) (Set.insert_nonempty _ _)
    · simp only [heq, or_false]
      exact h.queued other
  · rw [List.pairwise_append]
    refine ⟨h.order_push hcall haccepts, List.pairwise_singleton _ _, fun p hp q hq => ?_⟩
    obtain rfl : q = path := by simpa using hq
    obtain ⟨i, hi⟩ := (h.queued p).mp hp
    have hne : p ≠ q := fun heq => hout (heq ▸ hp)
    refine ⟨i, ?_, fun j hj => ?_⟩
    · rw [hsince, if_neg hne]
      exact hi
    · rw [hsince, if_pos rfl, hnone] at hj
      obtain rfl : j = n := by simpa using hj
      exact lt_of_mem_acceptedSince hi
  · simp only [HashMap.lookup_insert_ite] at hflag
    rw [hsince]
    split_ifs at hflag ⊢ with heq
    · subst heq
      simp only [Option.some.injEq] at hflag
      simp [hnone, hcall, hflag]
    · exact h.flags other flag hflag

theorem Owes.popped {rest : List P} (h : Owes limit calls n (after limit calls n))
    (hcall : calls n = .pop) (hpaths : (after limit calls n).paths = path :: rest)
    (hpop : (after limit calls n).pop.1 = some (path, created)) :
    Owes limit calls (n + 1)
      { after limit calls n with
        paths := rest
        created := (after limit calls n).created.erase path } := by
  have hnodup := h.nodup
  rw [hpaths, List.nodup_cons] at hnodup
  have hlimited := h.limited
  rw [hpaths, List.length_cons] at hlimited
  have hgone : acceptedSince limit calls path (n + 1) = ∅ :=
    acceptedSince_succ_of_pops ⟨hcall, created, hpop⟩
  have hsame {other : P} (hother : other ≠ path) :
      acceptedSince limit calls other (n + 1) = acceptedSince limit calls other n := by
    refine acceptedSince_succ_of_not ?_ (not_accepts_of_call (by simp [hcall]))
    rintro ⟨-, flag, hflag⟩
    rw [hpop] at hflag
    simp only [Option.some.injEq, Prod.mk.injEq] at hflag
    exact hother hflag.1.symm
  have hbefore (other : P) : other ∈ path :: rest ↔ other ∈ (after limit calls n).paths := by
    rw [hpaths]
  refine ⟨by simp only; omega, hnodup.2, fun other => ?_, fun other => ?_, ?_,
    fun other flag hflag => ?_⟩
  · rw [Finmap.mem_erase, ← h.keys, ← hbefore, List.mem_cons]
    refine ⟨fun hmem => ⟨fun heq => hnodup.1 (heq ▸ hmem), .inr hmem⟩, ?_⟩
    rintro ⟨hne, hmem⟩
    exact hmem.resolve_left hne
  · by_cases heq : other = path
    · rw [heq, hgone]
      exact iff_of_false hnodup.1 Set.not_nonempty_empty
    · rw [hsame heq, ← h.queued, ← hbefore, List.mem_cons]
      exact ⟨.inr, fun hmem => hmem.resolve_left heq⟩
  · have horder := h.order
    rw [hpaths, List.pairwise_cons] at horder
    refine horder.2.imp_of_mem fun {p q} hp hq hpq => ?_
    rw [hsame fun heq => hnodup.1 (heq ▸ hp), hsame fun heq => hnodup.1 (heq ▸ hq)]
    exact hpq
  · simp only [HashMap.lookup_erase_ite] at hflag
    split_ifs at hflag with heq
    rw [hsame heq]
    exact h.flags other flag hflag

/-- Every call keeps it. -/
theorem owes_after (limit : ℕ) (calls : ℕ → DirtyOp P) (n : ℕ) :
    Owes limit calls n (after limit calls n) := by
  induction n with
  | zero => exact owes_new
  | succ n ih =>
    rw [after]
    cases hcall : calls n with
    | push path created =>
      rw [step]
      obtain ⟨existing, hlookup, hpush⟩ | ⟨hrefuses, hpush⟩ | ⟨hnew, hroom, hpush⟩ :=
        push_cases (after limit calls n) path created
      · rw [hpush]
        exact ih.merged hcall hlookup
      · rw [hpush]
        refine ih.same rfl rfl fun other =>
          acceptedSince_succ_of_not (not_pops_of_call (by simp [hcall])) ?_
        rintro ⟨⟨flag, hother⟩, haccepts⟩
        rw [hcall] at hother
        simp only [DirtyOp.push.injEq] at hother
        exact haccepts (hother.1 ▸ hrefuses)
      · rw [hpush]
        exact ih.accepted hcall hnew hroom
    | pop =>
      rw [step]
      obtain ⟨hnil, hpop⟩ | ⟨path, rest, hpaths, hpop⟩ := pop_cases (after limit calls n)
      · rw [hpop]
        refine ih.same rfl rfl fun other =>
          acceptedSince_succ_of_not ?_ (not_accepts_of_call (by simp [hcall]))
        rintro ⟨-, flag, hflag⟩
        simp [hpop] at hflag
      · rw [hpop]
        exact ih.popped hcall hpaths (by rw [hpop])
    | markOverflow =>
      exact ih.same rfl rfl fun other => acceptedSince_succ_of_not
        (not_pops_of_call (by simp [hcall])) (not_accepts_of_call (by simp [hcall]))
    | takeOverflow =>
      exact ih.same rfl rfl fun other => acceptedSince_succ_of_not
        (not_pops_of_call (by simp [hcall])) (not_accepts_of_call (by simp [hcall]))

/-! ### No notification is lost silently -/

/-- A path that was pushed and not popped is queued, unless no push of it was accepted. -/
theorem queued_or_refused (h : i ∈ pushesSince limit calls path n) :
    path ∈ (after limit calls n).paths ∨ (after limit calls i).Refuses path := by
  by_cases hrefuses : (after limit calls i).Refuses path
  · exact .inr hrefuses
  · obtain ⟨hi, hpush, hkept⟩ := h
    exact .inl (((owes_after limit calls n).queued path).mpr ⟨i, hi, ⟨hpush, hrefuses⟩, hkept⟩)

theorem overflow_raised (hpush : Pushes calls path i) (hrefuses : (after limit calls i).Refuses path) :
    (after limit calls (i + 1)).overflow = true := by
  obtain ⟨created, hcall⟩ := hpush
  rw [after, hcall, step, push_refused hrefuses]

/-- Once up, the flag is up until somebody takes it. -/
theorem overflow_kept (hup : (after limit calls i).overflow = true) {m : ℕ} (him : i ≤ m) :
    (after limit calls m).overflow = true ∨
      ∃ k, i ≤ k ∧ k < m ∧ calls k = .takeOverflow ∧ (after limit calls k).takeOverflow.1 = true := by
  induction m, him using Nat.le_induction with
  | base => exact .inl hup
  | succ m him ih =>
    obtain hstill | ⟨k, hik, hkm, htaken⟩ := ih
    · obtain hnext | htake := step_overflow (calls m) hstill
      · exact .inl hnext
      · exact .inr ⟨m, him, by omega, htake, hstill⟩
    · exact .inr ⟨k, hik, by omega, htaken⟩

/-- Once a path is queued, no push of it is refused until it is popped. -/
theorem mem_acceptedSince_of_le (hi : i ∈ acceptedSince limit calls path n) {j : ℕ} (hij : i ≤ j)
    (hjn : j < n) (hpush : Pushes calls path j) : j ∈ acceptedSince limit calls path n := by
  obtain ⟨-, haccepts, hkept⟩ := hi
  refine ⟨hjn, ⟨hpush, fun hrefuses => ?_⟩, fun k hjk hkn => hkept k (by omega) hkn⟩
  obtain rfl | hlt := Nat.eq_or_lt_of_le hij
  · exact haccepts.2 hrefuses
  · have hsome : (acceptedSince limit calls path j).Nonempty :=
      ⟨i, hlt, haccepts, fun k hik hkj => hkept k hik (by omega)⟩
    have howes := owes_after limit calls j
    exact hrefuses.1 ((howes.keys path).mp ((howes.queued path).mpr hsome))

/-- The call that queued a path: its first push since it was last popped, but for refused ones. -/
theorem exists_queuedAt (h : path ∈ (after limit calls n).paths) :
    ∃ i, IsLeast (acceptedSince limit calls path n) i := by
  classical
  have hsome := ((owes_after limit calls n).queued path).mp h
  exact ⟨Nat.find hsome, Nat.find_spec hsome, fun j hj => Nat.find_min' hsome hj⟩

/-- What the queue is after any calls. -/
structure Coalesces (limit : ℕ) (calls : ℕ → DirtyOp P) (n : ℕ) : Prop where
  nodup : (after limit calls n).paths.Nodup
  keys : ∀ path, path ∈ (after limit calls n).paths ↔ path ∈ (after limit calls n).created
  limited : (after limit calls n).len ≤ limit
  kept : ∀ path, ∀ i ∈ pushesSince limit calls path n,
    path ∈ (after limit calls n).paths ∨ (after limit calls i).Refuses path
  raised : ∀ path i, Pushes calls path i → (after limit calls i).Refuses path →
    (after limit calls (i + 1)).overflow = true ∧
      (i < n → (after limit calls n).overflow = true ∨ ∃ k, i < k ∧ k < n ∧
        calls k = .takeOverflow ∧ (after limit calls k).takeOverflow.1 = true)
  empty : (after limit calls n).pop.1 = none ↔ (after limit calls n).isEmpty = true
  popped : ∀ path created, (after limit calls n).pop.1 = some (path, created) →
    path ∈ (after limit calls n).paths ∧ ∃ i, IsLeast (acceptedSince limit calls path n) i ∧
      (created = true ↔ ∃ j, i ≤ j ∧ j < n ∧ calls j = .push path true) ∧
      ∀ other ∈ (after limit calls n).paths, other ≠ path →
        ∃ j, IsLeast (acceptedSince limit calls other n) j ∧ i < j

/-- A path in front was queued before those behind it, and its flag is that of any push since. -/
theorem popped_first (h : (after limit calls n).pop.1 = some (path, created)) :
    path ∈ (after limit calls n).paths ∧ ∃ i, IsLeast (acceptedSince limit calls path n) i ∧
      (created = true ↔ ∃ j, i ≤ j ∧ j < n ∧ calls j = .push path true) ∧
      ∀ other ∈ (after limit calls n).paths, other ≠ path →
        ∃ j, IsLeast (acceptedSince limit calls other n) j ∧ i < j := by
  have howes := owes_after limit calls n
  obtain ⟨-, hpop⟩ | ⟨front, rest, hpaths, hpop⟩ := pop_cases (after limit calls n)
  · simp [hpop] at h
  rw [hpop] at h
  simp only [Option.some.injEq, Prod.mk.injEq] at h
  obtain ⟨rfl, hcreated⟩ := h
  have hfront : front ∈ (after limit calls n).paths := by simp [hpaths]
  obtain ⟨i, hi⟩ := exists_queuedAt hfront
  refine ⟨hfront, i, hi, ?_, fun other hother hne => ?_⟩
  · obtain ⟨flag, hflag⟩ := Finmap.mem_iff.mp ((howes.keys front).mp hfront)
    rw [hflag, Option.getD_some] at hcreated
    rw [← hcreated, howes.flags front flag hflag]
    constructor
    · rintro ⟨j, hj, hcall⟩
      exact ⟨j, hi.2 hj, lt_of_mem_acceptedSince hj, hcall⟩
    · rintro ⟨j, hij, hjn, hcall⟩
      exact ⟨j, mem_acceptedSince_of_le hi.1 hij hjn ⟨true, hcall⟩, hcall⟩
  · obtain ⟨j, hj⟩ := exists_queuedAt hother
    have horder := howes.order
    rw [hpaths, List.pairwise_cons] at horder
    rw [hpaths, List.mem_cons] at hother
    obtain ⟨k, hk, hbefore⟩ := horder.1 other (hother.resolve_left hne)
    exact ⟨j, hj, (hi.2 hk).trans_lt (hbefore j hj.1)⟩

theorem pop_none_iff (self : DirtyFiles P) : self.pop.1 = none ↔ self.isEmpty = true := by
  obtain ⟨hnil, hpop⟩ | ⟨path, rest, hpaths, hpop⟩ := pop_cases self
  · simp [hpop, isEmpty, hnil]
  · simp [hpop, isEmpty, hpaths]

/-- Whatever is called on it, the queue loses no notification without raising its flag, and gives
the paths back in the order in which they were queued, each with what its pushes said. -/
theorem dirty_paths_coalesce (limit : ℕ) (calls : ℕ → DirtyOp P) (n : ℕ) :
    Coalesces limit calls n where
  nodup := (owes_after limit calls n).nodup
  keys := (owes_after limit calls n).keys
  limited := (owes_after limit calls n).limited
  kept path i h := queued_or_refused h
  raised path i hpush hrefuses := by
    have hup := overflow_raised hpush hrefuses
    refine ⟨hup, fun hin => ?_⟩
    obtain hstill | ⟨k, hik, hkn, htaken⟩ := overflow_kept hup hin
    · exact .inl hstill
    · exact .inr ⟨k, by omega, hkn, htaken⟩
  empty := pop_none_iff _
  popped path created h := popped_first h

theorem pops_iff_head : Pops limit calls path n ↔
    calls n = .pop ∧ (after limit calls n).paths.head? = some path := by
  unfold Pops
  obtain ⟨hnil, hpop⟩ | ⟨front, rest, hpaths, hpop⟩ := pop_cases (after limit calls n)
  · simp [hpop, hnil]
  · simp [hpop, hpaths]

/-- The first push of a path, if the path was not popped after it. -/
theorem isLeast_pushesSince (hin : i < n) (hpush : Pushes calls path i)
    (hkept : ∀ k, i < k → k < n → ¬ Pops limit calls path k)
    (hfirst : ∀ k, k < i → ¬ Pushes calls path k) :
    IsLeast (pushesSince limit calls path n) i := by
  refine ⟨⟨hin, hpush, hkept⟩, ?_⟩
  rintro k ⟨-, hk, -⟩
  by_contra hlt
  exact hfirst k (by omega) hk

end Runs

/-- Room for two: the push of `2` is refused, and it is queued again only after `3`. -/
def refusedThenQueued (n : ℕ) : DirtyOp ℕ :=
  [DirtyOp.push 0 false, .push 1 false, .push 2 false, .pop, .push 3 false, .pop,
    .push 2 false].getD n .pop

/-- A push that was refused does not count for the order. -/
theorem refused_push_keeps_no_place :
    ¬ ∀ (limit : ℕ) (calls : ℕ → DirtyOp ℕ) (n path : ℕ) (created : Bool),
      (after limit calls n).pop.1 = some (path, created) →
        ∀ other ∈ (after limit calls n).paths, other ≠ path →
          ∀ i j, IsLeast (pushesSince limit calls path n) i →
            IsLeast (pushesSince limit calls other n) j → i < j := by
  intro horder
  have hthree : IsLeast (pushesSince 2 refusedThenQueued 3 7) 4 := by
    refine isLeast_pushesSince (by decide) ⟨false, rfl⟩ (fun k hafter hbefore => ?_) ?_
    · rw [pops_iff_head]
      interval_cases k <;> decide
    · rintro k hk ⟨created, hpush⟩
      interval_cases k <;> simp [refusedThenQueued] at hpush
  have htwo : IsLeast (pushesSince 2 refusedThenQueued 2 7) 2 := by
    refine isLeast_pushesSince (by decide) ⟨false, rfl⟩ (fun k hafter hbefore => ?_) ?_
    · rw [pops_iff_head]
      interval_cases k <;> decide
    · rintro k hk ⟨created, hpush⟩
      interval_cases k <;> simp [refusedThenQueued] at hpush
  have hlt := horder 2 refusedThenQueued 7 3 false (by decide) 2 (by decide) (by decide) 4 2
    hthree htwo
  omega

end DirtyFiles
end OrderBookServer
