import Mathlib.Data.List.Basic
import Mathlib.Tactic

/-!
# Records of a sequence

A sequence is cut after each separator. What comes before the last cut are whole
records, what comes after it is the rest. Whole records and rest of a longer
sequence go on from the rest of a shorter one, so a sequence may arrive in pieces.
-/
namespace OrderBookServer.Records

variable {A : Type*} [DecidableEq A] (sep : A)

/-- The whole records of a sequence, `cur` being the record read so far. -/
def records (cur : List A) : List A → List (List A)
  | [] => []
  | a :: as => if a = sep then (cur ++ [a]) :: records [] as else records (cur ++ [a]) as

/-- What follows the last separator. -/
def rest (cur : List A) : List A → List A
  | [] => cur
  | a :: as => if a = sep then rest [] as else rest (cur ++ [a]) as

/-- A record ends with its only separator. -/
def Whole (record : List A) : Prop := ∃ body, record = body ++ [sep] ∧ sep ∉ body

variable {sep} {cur as bs : List A}

theorem records_append : records sep cur (as ++ bs) =
    records sep cur as ++ records sep (rest sep cur as) bs := by
  induction as generalizing cur with
  | nil => rfl
  | cons a as ih =>
    rw [List.cons_append, records, records, rest]
    split_ifs
    · rw [ih, List.cons_append]
    · exact ih

theorem rest_append : rest sep cur (as ++ bs) = rest sep (rest sep cur as) bs := by
  induction as generalizing cur with
  | nil => rfl
  | cons a as ih =>
    rw [List.cons_append, rest, rest]
    split_ifs
    · exact ih
    · exact ih

/-- Nothing is lost and nothing is moved. -/
theorem flatten_records (sep : A) (cur as : List A) :
    (records sep cur as).flatten ++ rest sep cur as = cur ++ as := by
  induction as generalizing cur with
  | nil => simp [records, rest]
  | cons a as ih =>
    rw [records, rest]
    split_ifs
    · rw [List.flatten_cons, List.append_assoc, ih]
      simp
    · rw [ih]
      simp

theorem whole_of_mem_records (hcur : sep ∉ cur) {record : List A}
    (h : record ∈ records sep cur as) : Whole sep record := by
  induction as generalizing cur with
  | nil => exact absurd h List.not_mem_nil
  | cons a as ih =>
    rw [records] at h
    split_ifs at h with ha
    · obtain rfl | h := List.mem_cons.mp h
      · exact ⟨cur, by rw [ha], hcur⟩
      · exact ih List.not_mem_nil h
    · apply ih _ h
      rw [List.mem_append, List.mem_singleton, not_or]
      exact ⟨hcur, fun heq => ha heq.symm⟩

theorem notMem_rest (hcur : sep ∉ cur) : sep ∉ rest sep cur as := by
  induction as generalizing cur with
  | nil => exact hcur
  | cons a as ih =>
    rw [rest]
    split_ifs with ha
    · exact ih List.not_mem_nil
    · apply ih
      rw [List.mem_append, List.mem_singleton, not_or]
      exact ⟨hcur, fun heq => ha heq.symm⟩

/-- Without a separator the record read so far only grows. -/
theorem of_notMem (cur : List A) (h : sep ∉ as) : records sep cur as = [] ∧ rest sep cur as = cur ++ as := by
  induction as generalizing cur with
  | nil => simp [records, rest]
  | cons a as ih =>
    rw [List.mem_cons, not_or] at h
    have ha : a ≠ sep := fun heq => h.1 heq.symm
    rw [records, rest, if_neg ha, if_neg ha]
    simpa using ih (cur ++ [a]) h.2

theorem Whole.records_append {record : List A} (h : Whole sep record) (as : List A) :
    records sep [] (record ++ as) = record :: records sep [] as ∧
      rest sep [] (record ++ as) = rest sep [] as := by
  obtain ⟨body, rfl, hbody⟩ := h
  obtain ⟨hrecords, hrest⟩ := of_notMem [] hbody
  rw [Records.records_append, rest_append, Records.records_append, rest_append, rest_append,
    hrecords, hrest]
  simp [records, rest]

/-- Whole records that are put together are cut where they were. -/
theorem records_flatten {rs : List (List A)} (h : ∀ r ∈ rs, Whole sep r) :
    records sep [] rs.flatten = rs ∧ rest sep [] rs.flatten = [] := by
  induction rs with
  | nil => simp [records, rest]
  | cons r rs ih =>
    rw [List.forall_mem_cons] at h
    obtain ⟨hrecords, hrest⟩ := h.1.records_append rs.flatten
    obtain ⟨ihrecords, ihrest⟩ := ih h.2
    rw [List.flatten_cons, hrecords, hrest, ihrecords, ihrest]
    exact ⟨rfl, rfl⟩

end OrderBookServer.Records
