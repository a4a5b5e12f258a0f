import Mathlib.Data.List.Forall2
import Mathlib.Data.List.ReduceOption
import Mathlib.Tactic

/-!
# Fallible steps

When a sequence of fallible steps succeeds, each step does. A traversal that
succeeds pairs every element with its result.
-/
namespace OrderBookServer

variable {ε A B : Type}

theorem bind_eq_ok {x : Except ε A} {f : A → Except ε B} {b : B} :
    x >>= f = .ok b ↔ ∃ a, x = .ok a ∧ f a = .ok b := by
  cases x with
  | error e => simp [bind, Except.bind]
  | ok a => simp [bind, Except.bind]

theorem map_eq_ok {x : Except ε A} {f : A → B} {b : B} :
    f <$> x = .ok b ↔ ∃ a, x = .ok a ∧ f a = b := by
  cases x with
  | error e => simp [Functor.map, Except.map]
  | ok a => simp [Functor.map, Except.map]

theorem exists_of_isOk {x : Except ε A} (h : x.isOk = true) : ∃ a, x = .ok a := by
  cases x with
  | error e => cases h
  | ok a => exact ⟨a, rfl⟩

theorem toOption_eq_some {x : Except ε A} {a : A} : x.toOption = some a ↔ x = .ok a := by
  cases x with
  | error e => simp [Except.toOption]
  | ok b => simp [Except.toOption]

theorem mapM_eq_ok {f : A → Except ε B} {as : List A} {bs : List B} :
    as.mapM f = .ok bs ↔ List.Forall₂ (fun a b => f a = .ok b) as bs := by
  induction as generalizing bs with
  | nil => simp [pure, Except.pure, eq_comm]
  | cons a as ih =>
    rw [List.mapM_cons, List.forall₂_cons_left_iff]
    simp only [bind_eq_ok, ih, pure, Except.pure, Except.ok.injEq]
    constructor
    · rintro ⟨b, hb, bs', hbs, rfl⟩
      exact ⟨b, bs', hb, hbs, rfl⟩
    · rintro ⟨b, bs', hb, hbs, rfl⟩
      exact ⟨b, hb, bs', hbs, rfl⟩

/-- A traversal of the elements that pass, when a result shows whether its element does. -/
theorem mapM_filter {f : A → Except ε B} {p : A → Bool} {q : B → Bool} {as : List A} {bs : List B}
    (h : as.mapM f = .ok bs) (hpq : ∀ a b, f a = .ok b → p a = q b) :
    (as.filter p).mapM f = .ok (bs.filter q) := by
  rw [mapM_eq_ok] at h ⊢
  induction h with
  | nil => exact .nil
  | @cons a b as bs hb _ ih =>
    rw [List.filter_cons, List.filter_cons, hpq a b hb]
    split
    · exact .cons hb ih
    · exact ih

end OrderBookServer
