import Mathlib.Logic.Relation
import Mathlib.Data.List.Infix

/-!
# Runs of a system

A system takes one step after another, and each step gives something out. A run is a
chain of steps with all that they gave out, oldest first. What every step keeps holds
after every run, what every step only increases is increased by a run, and where every
step is matched by another system, every run is. What was given out since a step of a
kind goes on as the run does.
-/
namespace OrderBookServer

inductive Run {S O : Type*} (step : S → List O → S → Prop) (first : S) : List O → S → Prop
  | refl : Run step first [] first
  | tail {out more : List O} {mid last : S} (h : Run step first out mid)
      (hstep : step mid more last) : Run step first (out ++ more) last

namespace Run

variable {S O T : Type*} {step : S → List O → S → Prop} {first mid last : S} {out more : List O}

theorem single (h : step first out last) : Run step first out last := by
  simpa using Run.refl.tail h

theorem trans (h : Run step first out mid) (h' : Run step mid more last) :
    Run step first (out ++ more) last := by
  induction h' with
  | refl => simpa using h
  | tail _ hstep ih => simpa using ih.tail hstep

/-- What holds at first and is kept by every step, given all that was given out before it. -/
theorem invariant (Inv : List O → S → Prop) (h : Run step first out last) (hfirst : Inv [] first)
    (hstep : ∀ {out more : List O} {s s' : S}, Run step first out s → Inv out s → step s more s' →
      Inv (out ++ more) s') : Inv out last := by
  induction h with
  | refl => exact hfirst
  | tail hrun hs ih => exact hstep hrun ih hs

/-- What holds of every state reached and does not look at what was given out. -/
theorem keeps (Inv : S → Prop) (h : Run step first out last) (hfirst : Inv first)
    (hstep : ∀ {more : List O} {s s' : S}, Inv s → step s more s' → Inv s') : Inv last :=
  h.invariant (fun _ s => Inv s) hfirst fun _ hs => hstep hs

/-- A measure that no step takes down is taken down by no run. -/
theorem le {A : Type*} [Preorder A] {f : S → A} (h : Run step first out last)
    (hstep : ∀ {more : List O} {s s' : S}, step s more s' → f s ≤ f s') : f first ≤ f last :=
  h.keeps (fun s => f first ≤ f s) le_rfl fun hs hnext => hs.trans (hstep hnext)

/-- Where every step of the system is matched by steps of another one, every run is. -/
theorem simulates (next : T → T → Prop) (Sim : S → T → Prop) {t : T} (h : Run step first out last)
    (hfirst : Sim first t)
    (hstep : ∀ {more : List O} {s s' : S} {t : T}, Sim s t → step s more s' →
      ∃ t', Relation.ReflTransGen next t t' ∧ Sim s' t') :
    ∃ t', Relation.ReflTransGen next t t' ∧ Sim last t' := by
  induction h with
  | refl => exact ⟨t, .refl, hfirst⟩
  | tail _ hs ih =>
    obtain ⟨t', hrun, hsim⟩ := ih
    obtain ⟨last, hmore, hlast⟩ := hstep hsim hs
    exact ⟨last, hrun.trans hmore, hlast⟩

/-- The run took a step of a kind, and what it keeps holds since: what was given out from this
step on. -/
inductive Since (step : S → List O → S → Prop) (first : S) (Was : S → List O → S → Prop)
    (Keeps : S → Prop) : List O → S → List O → Prop
  | now {out more : List O} {mid last : S} (h : Run step first out mid) (hstep : step mid more last)
      (was : Was mid more last) (kept : Keeps last) : Since step first Was Keeps (out ++ more) last more
  | later {out since more : List O} {mid last : S} (h : Since step first Was Keeps out mid since)
      (hstep : step mid more last) (kept : Keeps last) :
      Since step first Was Keeps (out ++ more) last (since ++ more)

namespace Since

variable {Was : S → List O → S → Prop} {Keeps Keeps' : S → Prop} {since : List O}

theorem run (h : Since step first Was Keeps out last since) : Run step first out last := by
  induction h with
  | now hrun hstep => exact hrun.tail hstep
  | later _ hstep _ ih => exact ih.tail hstep

theorem mono (h : Since step first Was Keeps out last since) (hkeeps : ∀ s, Keeps s → Keeps' s) :
    Since step first Was Keeps' out last since := by
  induction h with
  | now hrun hstep was kept => exact .now hrun hstep was (hkeeps _ kept)
  | later _ hstep kept ih => exact .later ih hstep (hkeeps _ kept)

theorem trans (h : Since step first Was (fun _ => True) out mid since) (hmore : Run step mid more last) :
    Since step first Was (fun _ => True) (out ++ more) last (since ++ more) := by
  induction hmore with
  | refl => simpa using h
  | tail _ hstep ih => simpa using ih.later hstep trivial

end Since
end Run
end OrderBookServer
