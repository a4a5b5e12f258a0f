import Mathlib.Tactic

/-!
# JSON text

Strings, numbers and null as a compact JSON printer writes them. Each of them ends where
it ends: what follows can be told apart, so records that differ print differently.
-/
namespace OrderBookServer.JsonText

/-- A character inside a string. -/
def escape (c : Char) : List Char :=
  if c = '"' ∨ c = '\\' then ['\\', c]
  else if c = '\n' then ['\\', 'n']
  else if c = '\r' then ['\\', 'r']
  else if c = '\t' then ['\\', 't']
  else if c.toNat = 8 then ['\\', 'b']
  else if c.toNat = 12 then ['\\', 'f']
  else if c.toNat < 32 then
    ['\\', 'u', '0', '0', Nat.digitChar (c.toNat / 16), Nat.digitChar (c.toNat % 16)]
  else [c]

def string (text : String) : List Char := '"' :: text.toList.flatMap escape ++ ['"']

def number (n : ℕ) : List Char := Nat.toDigits 10 n

def nullable : Option ℕ → List Char
  | none => "null".toList
  | some n => number n

/-- A field of an object, and what comes after it. -/
def field (name : String) (value rest : List Char) : List Char :=
  string name ++ ':' :: (value ++ rest)

def array (values : List (List Char)) : List Char :=
  '[' :: (List.intercalate [','] values ++ [']'])

theorem field_inj {name : String} {value value' rest rest' : List Char}
    (h : field name value rest = field name value' rest') : value ++ rest = value' ++ rest' :=
  List.tail_eq_of_cons_eq (List.append_cancel_left h)

/-- The value of a hexadecimal digit in lower case. -/
def hexValue (c : Char) : ℕ := if c.isDigit then c.toNat - 48 else c.toNat - 87

/-- Read one character of a string back; nothing at its end. -/
def unescape : List Char → Option (Char × List Char)
  | '\\' :: 'u' :: '0' :: '0' :: a :: b :: rest =>
    some (Char.ofNat (16 * hexValue a + hexValue b), rest)
  | '\\' :: c :: rest =>
    let c := if c = 'n' then '\n' else if c = 'r' then '\r' else if c = 't' then '\t'
      else if c = 'b' then Char.ofNat 8 else if c = 'f' then Char.ofNat 12 else c
    some (c, rest)
  | '"' :: _ => none
  | c :: rest => some (c, rest)
  | [] => none

theorem hexValue_digitChar : ∀ n < 16, hexValue (Nat.digitChar n) = n := by decide

theorem ofNat_hexValue (c : Char) (h : c.toNat < 32) :
    Char.ofNat (16 * hexValue (Nat.digitChar (c.toNat / 16)) +
      hexValue (Nat.digitChar (c.toNat % 16))) = c := by
  rw [hexValue_digitChar _ (by omega), hexValue_digitChar _ (by omega), Nat.div_add_mod,
    Char.ofNat_toNat]

theorem eq_of_toNat {c : Char} {n : ℕ} (h : c.toNat = n) : Char.ofNat n = c := by
  rw [← h, Char.ofNat_toNat]

/-- An escaped character is read back, and the text after it is left. -/
theorem unescape_escape (c : Char) (rest : List Char) :
    unescape (escape c ++ rest) = some (c, rest) := by
  unfold escape
  split_ifs with hq hn hr ht hb hf hctl
  · obtain rfl | rfl := hq <;> rfl
  · rw [hn]; rfl
  · rw [hr]; rfl
  · rw [ht]; rfl
  · rw [← eq_of_toNat hb]; rfl
  · rw [← eq_of_toNat hf]; rfl
  · show some (Char.ofNat _, rest) = _
    rw [ofNat_hexValue c hctl]
  · rw [not_or] at hq
    rw [List.singleton_append, unescape]
    · exact fun _ _ _ h => absurd h hq.2
    · exact fun _ _ h => absurd h hq.2
    · exact fun h => absurd h hq.1

theorem flatMap_escape_inj {cs ds rest rest' : List Char}
    (h : cs.flatMap escape ++ '"' :: rest = ds.flatMap escape ++ '"' :: rest') :
    cs = ds ∧ rest = rest' := by
  induction cs generalizing ds with
  | nil =>
    cases ds with
    | nil => exact ⟨rfl, List.tail_eq_of_cons_eq h⟩
    | cons d ds =>
      have hread := congrArg unescape h
      rw [List.flatMap_cons, List.append_assoc, unescape_escape] at hread
      cases hread
  | cons c cs ih =>
    have hread := congrArg unescape h
    rw [List.flatMap_cons, List.append_assoc, unescape_escape] at hread
    cases ds with
    | nil => cases hread
    | cons d ds =>
      rw [List.flatMap_cons, List.append_assoc, unescape_escape] at hread
      obtain ⟨rfl, hrest⟩ : c = d ∧ _ = _ := by simpa using hread
      obtain ⟨rfl, hsame⟩ := ih hrest
      exact ⟨rfl, hsame⟩

/-- A string is over at its closing quote. -/
theorem string_append_inj {s t : String} {rest rest' : List Char}
    (h : string s ++ rest = string t ++ rest') : s = t ∧ rest = rest' := by
  unfold string at h
  rw [List.cons_append, List.cons_append, List.append_assoc, List.append_assoc] at h
  obtain ⟨hchars, hrest⟩ := flatMap_escape_inj (List.tail_eq_of_cons_eq h)
  exact ⟨String.toList_inj.mp hchars, hrest⟩

/-- A number is over where the digits are. -/
theorem takeWhile_number (n : ℕ) {c : Char} (rest : List Char) (hc : c.isDigit = false) :
    (number n ++ c :: rest).takeWhile Char.isDigit = number n := by
  have hdigits : ∀ d ∈ number n, d.isDigit = true := fun d hd =>
    Nat.isDigit_of_mem_toDigits (by decide) (by decide) hd
  rw [List.takeWhile_append_of_pos hdigits, List.takeWhile_cons_of_neg (by simp [hc]),
    List.append_nil]

theorem number_injective : Function.Injective number :=
  Function.LeftInverse.injective (g := fun cs => Nat.ofDigitChars 10 cs 0)
    fun _ => Nat.ofDigitChars_ten_toDigits

theorem nullable_append_inj {a b : Option ℕ} {c d : Char} {rest rest' : List Char}
    (hc : c.isDigit = false) (hd : d.isDigit = false)
    (h : nullable a ++ c :: rest = nullable b ++ d :: rest') : a = b ∧ c :: rest = d :: rest' := by
  have hread := congrArg (List.takeWhile Char.isDigit) h
  cases a with
  | none =>
    cases b with
    | none => exact ⟨rfl, List.append_cancel_left h⟩
    | some m =>
      rw [nullable, nullable, takeWhile_number m rest' hd] at hread
      exact absurd hread.symm Nat.toDigits_ne_nil
  | some n =>
    cases b with
    | none =>
      rw [nullable, nullable, takeWhile_number n rest hc] at hread
      exact absurd hread Nat.toDigits_ne_nil
    | some m =>
      rw [nullable, nullable, takeWhile_number n rest hc, takeWhile_number m rest' hd] at hread
      obtain rfl := number_injective hread
      exact ⟨rfl, List.append_cancel_left h⟩

end OrderBookServer.JsonText
