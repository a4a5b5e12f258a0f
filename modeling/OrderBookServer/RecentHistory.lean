import Mathlib.Data.List.DropRight
import Mathlib.Data.List.ModifyLast

/-!
# The end of a history

A queue of bounded length that drops its oldest entry for a new one holds the end of all
that was pushed. What is done to its newest entry is done to the newest one of all.
-/
namespace OrderBookServer
namespace RecentHistory

variable {A : Type*} {capacity : ℕ}

/-- Push to the back, and drop from the front what there is no room for. -/
def push (capacity : ℕ) (recent : List A) (x : A) : List A :=
  (if recent.length = capacity then recent.tail else recent) ++ [x]

theorem length_rtake_le (all : List A) (capacity : ℕ) : (all.rtake capacity).length ≤ capacity := by
  simp [List.rtake]
  omega

theorem push_rtake (hcapacity : 0 < capacity) (all : List A) (x : A) :
    push capacity (all.rtake capacity) x = (all ++ [x]).rtake capacity := by
  have hlength : (all.rtake capacity).length = min capacity all.length := by
    simp [List.rtake]
    omega
  rw [push, hlength, List.rtake, List.rtake, List.length_append, List.length_singleton]
  split_ifs with hfull
  · rw [List.tail_drop, List.drop_append_of_le_length (by omega)]
    congr 2
    omega
  · rw [List.drop_append_of_le_length (by omega)]
    congr 2
    omega

theorem modifyLast_rtake (hcapacity : 0 < capacity) (f : A → A) (all : List A) :
    (all.rtake capacity).modifyLast f = (all.modifyLast f).rtake capacity := by
  induction all using List.reverseRecOn with
  | nil => simp [List.modifyLast, List.modifyLast.go]
  | append_singleton all x _ =>
    obtain ⟨capacity, rfl⟩ := Nat.exists_eq_add_of_lt hcapacity
    simp [List.rtake_concat_succ, List.modifyLast_concat]

end RecentHistory
end OrderBookServer
