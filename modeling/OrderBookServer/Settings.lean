import OrderBookServer.Listen
import OrderBookServer.ParseInt
import OrderBookServer.Results
import OrderBookServer.U64
import Mathlib.Data.List.DropRight

/-!
# The settings of the server

The limits of the listener and the coins in scope are read from the environment when the
server starts. Which limits and which scopes it can start with is settled here: exactly the
limits that the loop is made for, and exactly the scopes that a list of coins can name.
-/
namespace OrderBookServer

/-- Why a variable could not be read. -/
inductive VarError where
  | notPresent
  /-- With what `Debug` prints of the value. -/
  | notUnicode (value : String)
  deriving DecidableEq, Repr

def VarError.display : VarError → String
  | .notPresent => "environment variable not found"
  | .notUnicode value => s!"environment variable was not valid unicode: {value}"

/-- `std::env::var` -/
abbrev Env := String → Except VarError String

/-! ### Limits -/

namespace SourceLimits

/-- What a variable says, or the fallback without it. -/
def numberValue (env : Env) (name : String) (fallback : ℕ) : Except String ℕ :=
  match env name with
  | .ok value => (ParseInt.parse U64.modulus value).mapError fun err => s!"{name}: {err.display}"
  | .error .notPresent => .ok fallback
  | .error err => .error s!"{name}: {err.display}"

def number (env : Env) (name : String) (fallback : ℕ) : Except String ℕ := do
  let value ← numberValue env name fallback
  if value = 0 then .error s!"{name} must be positive" else .ok value

def fromEnv (env : Env) : Except String SourceLimits := do
  let snapshotInterval ← number env "BOOK_SNAPSHOT_INTERVAL_SECONDS"
    (DEFAULT.snapshotInterval / second)
  if ¬ (10 ≤ snapshotInterval ∧ snapshotInterval ≤ 300) then
    .error "BOOK_SNAPSHOT_INTERVAL_SECONDS must be between 10 and 300"
  else
    let dirtyFiles ← number env "BOOK_MAX_DIRTY_FILES" DEFAULT.dirtyFiles
    let turnBytes ← number env "BOOK_READ_TURN_BYTES" DEFAULT.turnBytes
    let recordBytes ← number env "BOOK_MAX_RECORD_BYTES" DEFAULT.recordBytes
    let queueBytes ← number env "BOOK_MAX_QUEUE_BYTES" DEFAULT.queueBytes
    let queueHeights ← number env "BOOK_MAX_QUEUE_HEIGHTS" DEFAULT.queueHeights
    let queueAge ← number env "BOOK_MAX_QUEUE_AGE_SECONDS" (DEFAULT.queueAge / second)
    let snapshotTimeout ← number env "BOOK_SNAPSHOT_TIMEOUT_SECONDS"
      (DEFAULT.snapshotTimeout / second)
    return {
      dirtyFiles := dirtyFiles
      turnBytes := turnBytes
      recordBytes := recordBytes
      queueBytes := queueBytes
      queueHeights := queueHeights
      queueAge := queueAge * second
      snapshotTimeout := snapshotTimeout * second
      snapshotInterval := snapshotInterval * second }

/-- What the loop asks of its limits. -/
structure Valid (limits : SourceLimits) : Prop where
  counts : ∀ n ∈ [limits.dirtyFiles, limits.turnBytes, limits.recordBytes, limits.queueBytes,
    limits.queueHeights], 0 < n ∧ n < U64.modulus
  ages : ∀ age ∈ [limits.queueAge, limits.snapshotTimeout],
    ∃ n, 0 < n ∧ n < U64.modulus ∧ age = n * second
  interval : ∃ n, 10 ≤ n ∧ n ≤ 300 ∧ limits.snapshotInterval = n * second

theorem valid_default : DEFAULT.Valid where
  counts := by decide
  ages := by
    have h : 120 < U64.modulus := by decide
    simp only [DEFAULT, ResourceLimits.DEFAULT, List.mem_cons, List.not_mem_nil, or_false,
      forall_eq_or_imp, forall_eq]
    exact ⟨⟨120, by omega, h, by simp [second]⟩, 120, by omega, h, rfl⟩
  interval := ⟨10, by omega, by omega, rfl⟩

variable {env : Env} {name : String} {fallback n : ℕ} {limits : SourceLimits} {e : String}

theorem number_unset (h : env name = .error .notPresent) (hpos : 0 < fallback) :
    number env name fallback = .ok fallback := by
  have hne : fallback ≠ 0 := by omega
  simp [number, numberValue, h, bind, Except.bind, hne]

theorem number_set (h : env name = .ok n.repr) (hpos : 0 < n) (hlt : n < U64.modulus) :
    number env name fallback = .ok n := by
  have hne : n ≠ 0 := by omega
  simp [number, numberValue, h, ParseInt.parse_repr hlt, Except.mapError, bind, Except.bind, hne]

theorem numberValue_lt (h : numberValue env name fallback = .ok n) (hlt : fallback < U64.modulus) :
    n < U64.modulus := by
  unfold numberValue at h
  split at h
  · rename_i text htext
    cases hparse : ParseInt.parse U64.modulus text with
    | error err => simp [hparse, Except.mapError] at h
    | ok value =>
      simp only [hparse, Except.mapError, Except.ok.injEq] at h
      exact h ▸ ParseInt.lt_of_parse hparse (by decide)
  · simp only [Except.ok.injEq] at h
    omega
  · simp at h

theorem number_eq_ok (h : number env name fallback = .ok n) (hlt : fallback < U64.modulus) :
    0 < n ∧ n < U64.modulus := by
  simp only [number, bind_eq_ok] at h
  obtain ⟨value, hvalue, hn⟩ := h
  have hbound := numberValue_lt hvalue hlt
  split_ifs at hn with hzero
  simp only [Except.ok.injEq] at hn
  omega

theorem numberValue_error (h : numberValue env name fallback = .error e) :
    ∃ rest, e = name ++ rest := by
  unfold numberValue at h
  split at h
  · rename_i text htext
    cases hparse : ParseInt.parse U64.modulus text with
    | error err =>
      simp only [hparse, Except.mapError, Except.error.injEq] at h
      exact ⟨": " ++ err.display, by rw [← h, ← String.append_assoc]; rfl⟩
    | ok value => simp [hparse, Except.mapError] at h
  · simp at h
  · rename_i err hother hvar
    simp only [Except.error.injEq] at h
    exact ⟨": " ++ err.display, by rw [← h, ← String.append_assoc]; rfl⟩

/-- A number that fails was set, and the error names it. -/
theorem number_eq_error (h : number env name fallback = .error e) (hpos : 0 < fallback) :
    env name ≠ .error .notPresent ∧ ∃ rest, e = name ++ rest := by
  refine ⟨fun hunset => by simp [number_unset hunset hpos] at h, ?_⟩
  cases hvalue : numberValue env name fallback with
  | error err =>
    simp only [number, hvalue, bind, Except.bind, Except.error.injEq] at h
    exact numberValue_error (h ▸ hvalue)
  | ok value =>
    simp only [number, hvalue, bind, Except.bind] at h
    split_ifs at h
    simp only [Except.error.injEq] at h
    exact ⟨" must be positive", by rw [← h]; rfl⟩

/-- Whatever goes wrong, the error begins with the name of a variable that is set. -/
def Blames {A : Type} (env : Env) (x : Except String A) : Prop :=
  ∀ e, x = .error e → ∃ name rest, env name ≠ .error .notPresent ∧ e = name ++ rest

theorem Blames.bind {A B : Type} {x : Except String A} {f : A → Except String B}
    (hx : Blames env x) (hf : ∀ a, x = .ok a → Blames env (f a)) : Blames env (x >>= f) := by
  intro e h
  cases x with
  | error err => exact hx e (by simpa [Bind.bind, Except.bind] using h)
  | ok a => exact hf a rfl e h

theorem blames_number (hpos : 0 < fallback) : Blames env (number env name fallback) := by
  intro e h
  obtain ⟨hset, rest, he⟩ := number_eq_error h hpos
  exact ⟨name, rest, hset, he⟩

theorem fromEnv_blames : Blames env (fromEnv env) := by
  refine (blames_number (by decide)).bind fun interval hinterval => ?_
  split_ifs with hrange
  · iterate 7 refine (blames_number (by decide)).bind fun _ _ => ?_
    intro e h
    simp [pure, Except.pure] at h
  · intro e h
    refine ⟨"BOOK_SNAPSHOT_INTERVAL_SECONDS", " must be between 10 and 300", fun hunset => ?_, ?_⟩
    · rw [number_unset hunset (by decide), Except.ok.injEq] at hinterval
      exact hrange (by rw [← hinterval]; decide)
    · simp only [Except.error.injEq] at h
      rw [← h]
      rfl

theorem fromEnv_valid (h : fromEnv env = .ok limits) : limits.Valid := by
  simp only [fromEnv, bind_eq_ok] at h
  obtain ⟨interval, hinterval, h⟩ := h
  split_ifs at h with hrange
  simp only [bind_eq_ok, pure, Except.pure, Except.ok.injEq] at h
  obtain ⟨dirtyFiles, hdirty, turnBytes, hturn, recordBytes, hrecord, queueBytes, hqueue,
    queueHeights, hheights, queueAge, hage, snapshotTimeout, htimeout, rfl⟩ := h
  have hcount {name : String} {fallback n : ℕ} (h : number env name fallback = .ok n)
      (hlt : fallback < U64.modulus) : 0 < n ∧ n < U64.modulus := number_eq_ok h hlt
  refine ⟨?_, ?_, interval, by omega, by omega, rfl⟩
  · simp only [List.mem_cons, List.not_mem_nil, or_false, forall_eq_or_imp, forall_eq]
    exact ⟨hcount hdirty (by decide), hcount hturn (by decide), hcount hrecord (by decide),
      hcount hqueue (by decide), hcount hheights (by decide)⟩
  · simp only [List.mem_cons, List.not_mem_nil, or_false, forall_eq_or_imp, forall_eq]
    obtain ⟨hpos, hlt⟩ := hcount hage (by decide)
    obtain ⟨hpos', hlt'⟩ := hcount htimeout (by decide)
    exact ⟨⟨queueAge, hpos, hlt, rfl⟩, snapshotTimeout, hpos', hlt', rfl⟩

/-- The environment in which every limit is written out. -/
def environ (self : SourceLimits) : Env := fun name =>
  match name with
  | "BOOK_SNAPSHOT_INTERVAL_SECONDS" => .ok (self.snapshotInterval / second).repr
  | "BOOK_MAX_DIRTY_FILES" => .ok self.dirtyFiles.repr
  | "BOOK_READ_TURN_BYTES" => .ok self.turnBytes.repr
  | "BOOK_MAX_RECORD_BYTES" => .ok self.recordBytes.repr
  | "BOOK_MAX_QUEUE_BYTES" => .ok self.queueBytes.repr
  | "BOOK_MAX_QUEUE_HEIGHTS" => .ok self.queueHeights.repr
  | "BOOK_MAX_QUEUE_AGE_SECONDS" => .ok (self.queueAge / second).repr
  | "BOOK_SNAPSHOT_TIMEOUT_SECONDS" => .ok (self.snapshotTimeout / second).repr
  | _ => .error .notPresent

theorem mul_second_div (n : ℕ) : n * second / second = n :=
  Nat.mul_div_cancel n (by decide)

theorem fromEnv_environ (h : limits.Valid) : fromEnv limits.environ = .ok limits := by
  have hcounts := h.counts
  have hages := h.ages
  obtain ⟨interval, hlow, hhigh, hinterval⟩ := h.interval
  simp only [List.mem_cons, List.not_mem_nil, or_false, forall_eq_or_imp, forall_eq]
    at hcounts hages
  obtain ⟨⟨hdirty, hdirty'⟩, ⟨hturn, hturn'⟩, ⟨hrecord, hrecord'⟩, ⟨hqueue, hqueue'⟩,
    hheights, hheights'⟩ := hcounts
  obtain ⟨⟨age, hage, hage', hqueueAge⟩, timeout, htimeout, htimeout', hsnapshotTimeout⟩ := hages
  have hmax : 300 < U64.modulus := by decide
  have hread {name : String} {fallback n : ℕ} (hvar : limits.environ name = .ok n.repr)
      (hpos : 0 < n) (hlt : n < U64.modulus) : number limits.environ name fallback = .ok n :=
    number_set hvar hpos hlt
  have hin : 10 ≤ limits.snapshotInterval / second ∧ limits.snapshotInterval / second ≤ 300 := by
    rw [hinterval, mul_second_div]
    omega
  have hback {t n : ℕ} (ht : t = n * second) : t / second * second = t := by
    rw [ht, mul_second_div]
  rw [← mul_second_div age, ← hqueueAge] at hage hage'
  rw [← mul_second_div timeout, ← hsnapshotTimeout] at htimeout htimeout'
  simp only [fromEnv, bind, Except.bind, pure, Except.pure, hin, and_self, not_true, if_false,
    hread (by rfl : limits.environ "BOOK_SNAPSHOT_INTERVAL_SECONDS" = _) (by omega) (by omega),
    hread (by rfl : limits.environ "BOOK_MAX_DIRTY_FILES" = _) hdirty hdirty',
    hread (by rfl : limits.environ "BOOK_READ_TURN_BYTES" = _) hturn hturn',
    hread (by rfl : limits.environ "BOOK_MAX_RECORD_BYTES" = _) hrecord hrecord',
    hread (by rfl : limits.environ "BOOK_MAX_QUEUE_BYTES" = _) hqueue hqueue',
    hread (by rfl : limits.environ "BOOK_MAX_QUEUE_HEIGHTS" = _) hheights hheights',
    hread (by rfl : limits.environ "BOOK_MAX_QUEUE_AGE_SECONDS" = _) hage hage',
    hread (by rfl : limits.environ "BOOK_SNAPSHOT_TIMEOUT_SECONDS" = _) htimeout htimeout',
    hback hinterval, hback hqueueAge, hback hsnapshotTimeout]

/-- The limits with which the loop can start are the valid ones. -/
theorem fromEnv_range : (∃ env, fromEnv env = .ok limits) ↔ limits.Valid :=
  ⟨fun ⟨_, h⟩ => fromEnv_valid h, fun h => ⟨limits.environ, fromEnv_environ h⟩⟩

example : fromEnv (fun _ => .error .notPresent) = .ok DEFAULT := by decide

end SourceLimits

/-! ### Coins in scope -/

/-- `char::is_whitespace` -/
def isWhitespace (c : Char) : Bool :=
  let n := c.toNat
  decide (9 ≤ n ∧ n ≤ 13) || n == 0x20 || n == 0x85 || n == 0xA0 || n == 0x1680 ||
    decide (0x2000 ≤ n ∧ n ≤ 0x200A) || n == 0x2028 || n == 0x2029 || n == 0x202F ||
    n == 0x205F || n == 0x3000

/-- `str::trim` -/
def trim (text : String) : String :=
  .ofList ((text.toList.dropWhile isWhitespace).rdropWhile isWhitespace)

theorem trim_eq_self {text : String} (hhead : ∀ c ∈ text.toList.head?, isWhitespace c = false)
    (hlast : ∀ c ∈ text.toList.getLast?, isWhitespace c = false) : trim text = text := by
  have hdrop : text.toList.dropWhile isWhitespace = text.toList := by
    rw [List.dropWhile_eq_self_iff]
    intro hl
    simp [hhead text.toList[0] (by rw [List.head?_eq_getElem?, List.getElem?_eq_getElem hl]; rfl)]
  have hrdrop : text.toList.rdropWhile isWhitespace = text.toList := by
    rw [List.rdropWhile_eq_self_iff]
    intro hne
    simp [hlast _ (List.getLast?_eq_some_getLast hne)]
  rw [trim, hdrop, hrdrop, String.ofList_toList]

theorem head_trim {text : String} {c : Char} (h : c ∈ (trim text).toList.head?) :
    isWhitespace c = false := by
  have hdropped := List.head?_dropWhile_not isWhitespace text.toList
  have hprefix := List.rdropWhile_prefix isWhitespace (text.toList.dropWhile isWhitespace)
  obtain ⟨rest, hrest⟩ := hprefix
  rw [trim, String.toList_ofList] at h
  rw [← hrest, List.head?_append, Option.mem_def.mp h] at hdropped
  simpa using hdropped

theorem last_trim {text : String} {c : Char} (h : c ∈ (trim text).toList.getLast?) :
    isWhitespace c = false := by
  rw [trim, String.toList_ofList] at h
  obtain ⟨hne, rfl⟩ := List.mem_getLast?_eq_getLast h
  simpa using List.rdropWhile_last_not isWhitespace _ hne

@[simp] theorem trim_trim (text : String) : trim (trim text) = trim text :=
  trim_eq_self (fun _ => head_trim) fun _ => last_trim

theorem mem_of_mem_trim {text : String} {c : Char} (h : c ∈ (trim text).toList) :
    c ∈ text.toList := by
  rw [trim, String.toList_ofList] at h
  exact (List.dropWhile_sublist _).subset ((List.rdropWhile_prefix _ _).subset h)

/-- `str::split` at a character. -/
def splitAt (text : String) (sep : Char) : List String := (text.toList.splitOn sep).map .ofList

theorem not_mem_of_mem_splitOn {a : Char} {piece cs : List Char} (h : piece ∈ cs.splitOn a) :
    a ∉ piece := by
  induction cs generalizing piece with
  | nil => simp_all
  | cons c cs ih =>
    rw [List.splitOn_cons_eq_if_modifyHead] at h
    split_ifs at h with hc
    · rw [List.mem_cons] at h
      obtain rfl | h := h
      · simp
      · exact ih h
    · cases hsplit : cs.splitOn a with
      | nil => simp [hsplit] at h
      | cons first rest =>
        rw [hsplit, List.modifyHead_cons, List.mem_cons] at h
        obtain rfl | h := h
        · have hfirst : a ∉ first := ih (by simp [hsplit])
          rw [List.mem_cons, not_or]
          exact ⟨fun heq => hc (by simp [heq]), hfirst⟩
        · exact ih (by simp [hsplit, h])

/-- Pieces that are not empty end in those of their join. -/
theorem head_intercalate {sep : List Char} {ls : List (List Char)} {c : Char}
    (hne : ∀ l ∈ ls, l ≠ []) (h : c ∈ (sep.intercalate ls).head?) : ∃ l ∈ ls, c ∈ l.head? := by
  cases ls with
  | nil => simp at h
  | cons l ls =>
    refine ⟨l, List.mem_cons_self, ?_⟩
    cases ls with
    | nil => simpa using h
    | cons l' ls =>
      rw [List.intercalate_cons_cons, List.append_assoc,
        List.head?_append_of_ne_nil l (hne l List.mem_cons_self)] at h
      exact h

theorem last_intercalate {sep : List Char} {ls : List (List Char)} {c : Char}
    (hne : ∀ l ∈ ls, l ≠ []) (h : c ∈ (sep.intercalate ls).getLast?) :
    ∃ l ∈ ls, c ∈ l.getLast? := by
  induction ls with
  | nil => simp at h
  | cons l ls ih =>
    cases ls with
    | nil => exact ⟨l, List.mem_cons_self, by simpa using h⟩
    | cons l' ls =>
      have hrest : sep.intercalate (l' :: ls) ≠ [] := by
        cases ls with
        | nil => simpa using hne l' (by simp)
        | cons l'' ls => simp [hne l' (by simp)]
      rw [List.intercalate_cons_cons, List.getLast?_append_of_ne_nil _ hrest] at h
      obtain ⟨m, hm, hc⟩ := ih (fun m hm => hne m (List.mem_cons_of_mem l hm)) h
      exact ⟨m, List.mem_cons_of_mem l hm, hc⟩

inductive ScopeError where
  /-- invalid coin; use a comma-separated list or a lone * -/
  | invalidCoin (coin : String)
  | notUnicode (value : String)
  deriving DecidableEq, Repr

namespace CoinScope

def checkCoin (coin : String) : Except ScopeError String :=
  if coin == "" || decide (coin.utf8ByteSize > 64) || coin == "*" then .error (.invalidCoin coin)
  else .ok coin

def parse (value : String) : Except ScopeError CoinScope :=
  let value := trim value
  if value == "" then .ok ⟨false, ∅⟩
  else if value == "*" then .ok all
  else do
    let extra ← ((splitAt value ',').map trim).mapM checkCoin
    return ⟨false, extra.toFinset⟩

def fromEnv (env : Env) : Except ScopeError CoinScope :=
  match env "BOOK_EXTRA_COINS" with
  | .ok value => parse value
  | .error .notPresent => .ok ⟨false, ∅⟩
  | .error (.notUnicode value) => .error (.notUnicode value)

/-- A coin that a list can name. -/
structure Listable (coin : String) : Prop where
  nonempty : coin ≠ ""
  short : coin.utf8ByteSize ≤ 64
  notStar : coin ≠ "*"
  noComma : ',' ∉ coin.toList
  trimmed : trim coin = coin

variable {value coin : String} {scope : CoinScope} {coins : List String}

theorem checkCoin_eq_ok {checked : String} : checkCoin coin = .ok checked ↔
    coin = checked ∧ coin ≠ "" ∧ coin.utf8ByteSize ≤ 64 ∧ coin ≠ "*" := by
  unfold checkCoin
  split_ifs with hbad
  · simp only [Bool.or_eq_true, beq_iff_eq, decide_eq_true_eq] at hbad
    simp only [false_iff]
    rintro ⟨-, hnonempty, hshort, hstar⟩
    obtain (hempty | hlong) | hlone := hbad
    · exact hnonempty hempty
    · omega
    · exact hstar hlone
  · simp only [Bool.or_eq_true, beq_iff_eq, decide_eq_true_eq, not_or, not_lt] at hbad
    simp [hbad]

theorem mapM_checkCoin {checked : List String} (h : coins.mapM checkCoin = .ok checked) :
    checked = coins ∧ ∀ coin ∈ coins, checkCoin coin = .ok coin := by
  rw [mapM_eq_ok] at h
  induction h with
  | nil => simp
  | cons hcoin hrest ih =>
    obtain rfl := (checkCoin_eq_ok.mp hcoin).1
    simp only [ih.1, List.mem_cons, forall_eq_or_imp, true_and]
    exact ⟨hcoin, ih.2⟩

theorem listable_of_mem_split (hmem : coin ∈ (splitAt value ',').map trim)
    (hcheck : checkCoin coin = .ok coin) : Listable coin := by
  obtain ⟨-, hnonempty, hshort, hstar⟩ := checkCoin_eq_ok.mp hcheck
  simp only [splitAt, List.map_map, List.mem_map, Function.comp_apply] at hmem
  obtain ⟨piece, hpiece, rfl⟩ := hmem
  refine ⟨hnonempty, hshort, hstar, fun hcomma => ?_, trim_trim _⟩
  have hin := mem_of_mem_trim hcomma
  rw [String.toList_ofList] at hin
  exact not_mem_of_mem_splitOn hpiece hin

theorem parse_listable (h : parse value = .ok scope) (hall : scope ≠ all) :
    scope.isAll = false ∧ ∀ coin ∈ scope.extra, Listable coin := by
  simp only [parse] at h
  split_ifs at h with hempty hstar
  · simp only [Except.ok.injEq] at h
    simp [← h]
  · simp only [Except.ok.injEq] at h
    exact absurd h.symm hall
  · simp only [bind_eq_ok, pure, Except.pure, Except.ok.injEq] at h
    obtain ⟨checked, hchecked, rfl⟩ := h
    obtain ⟨rfl, hcoins⟩ := mapM_checkCoin hchecked
    refine ⟨rfl, fun coin hcoin => ?_⟩
    rw [List.mem_toFinset] at hcoin
    exact listable_of_mem_split hcoin (hcoins coin hcoin)

theorem Listable.trim_intercalate (h : ∀ coin ∈ coins, Listable coin) :
    trim (",".intercalate coins) = ",".intercalate coins := by
  have hne (l : List Char) (hl : l ∈ coins.map String.toList) : l ≠ [] := by
    obtain ⟨coin, hcoin, rfl⟩ := List.mem_map.mp hl
    simpa using (h coin hcoin).nonempty
  refine trim_eq_self (fun c hc => ?_) fun c hc => ?_
  · rw [String.toList_intercalate] at hc
    obtain ⟨l, hl, hc⟩ := head_intercalate hne hc
    obtain ⟨coin, hcoin, rfl⟩ := List.mem_map.mp hl
    exact head_trim ((h coin hcoin).trimmed.symm ▸ hc)
  · rw [String.toList_intercalate] at hc
    obtain ⟨l, hl, hc⟩ := last_intercalate hne hc
    obtain ⟨coin, hcoin, rfl⟩ := List.mem_map.mp hl
    exact last_trim ((h coin hcoin).trimmed.symm ▸ hc)

theorem Listable.splitAt_intercalate (hne : coins ≠ []) (h : ∀ coin ∈ coins, Listable coin) :
    (splitAt (",".intercalate coins) ',').map trim = coins := by
  have hsplit : (",".intercalate coins).toList.splitOn ',' = coins.map String.toList := by
    rw [String.toList_intercalate]
    refine List.splitOn_intercalate ',' (fun l hl => ?_) (by simpa using hne)
    obtain ⟨coin, hcoin, rfl⟩ := List.mem_map.mp hl
    exact (h coin hcoin).noComma
  rw [splitAt, hsplit, List.map_map, List.map_map]
  calc coins.map _ = coins.map id :=
      List.map_congr_left fun coin hcoin => by simp [(h coin hcoin).trimmed]
    _ = coins := List.map_id coins

/-- A list of coins is read back. -/
theorem parse_intercalate (hne : coins ≠ []) (h : ∀ coin ∈ coins, Listable coin) :
    parse (",".intercalate coins) = .ok ⟨false, coins.toFinset⟩ := by
  have hsplit := Listable.splitAt_intercalate hne h
  have hchecked : coins.mapM checkCoin = .ok coins := by
    rw [mapM_eq_ok]
    exact List.forall₂_same.mpr fun coin hcoin =>
      checkCoin_eq_ok.mpr
        ⟨rfl, (h coin hcoin).nonempty, (h coin hcoin).short, (h coin hcoin).notStar⟩
  -- A text that is empty or a lone star would be a coin of the list.
  have hnotCoin (text : String) (hcomma : ',' ∉ text.toList) (htrim : trim text = text)
      (heq : ",".intercalate coins = text) : Listable text := by
    rw [heq, splitAt, List.splitOn_eq_singleton hcomma] at hsplit
    exact h text (by rw [← hsplit]; simp [htrim])
  have hempty : ",".intercalate coins ≠ "" := fun heq =>
    (hnotCoin "" (by simp) (by decide) heq).nonempty rfl
  have hstar : ",".intercalate coins ≠ "*" := fun heq =>
    (hnotCoin "*" (by simp) (by decide) heq).notStar rfl
  simp only [parse, Listable.trim_intercalate h, beq_iff_eq, hempty, hstar, if_false, hsplit,
    hchecked]
  rfl

/-- The scopes with which the server can start: everything, or a set of coins that a list can
name. -/
theorem parse_range : (∃ value, parse value = .ok scope) ↔
    scope = all ∨ scope.isAll = false ∧ ∀ coin ∈ scope.extra, Listable coin := by
  constructor
  · rintro ⟨value, h⟩
    by_cases hall : scope = all
    · exact .inl hall
    · exact .inr (parse_listable h hall)
  · rintro (rfl | ⟨hsome, hcoins⟩)
    · exact ⟨"*", rfl⟩
    · by_cases hempty : scope.extra = ∅
      · refine ⟨"", ?_⟩
        obtain ⟨isAll, extra⟩ := scope
        simp only at hsome hempty
        subst hsome hempty
        rfl
      · refine ⟨",".intercalate scope.extra.toList, ?_⟩
        rw [parse_intercalate (by simpa using hempty)
          fun coin hcoin => hcoins coin (Finset.mem_toList.mp hcoin), Finset.toList_toFinset]
        obtain ⟨isAll, extra⟩ := scope
        simp only at hsome
        rw [hsome]

end CoinScope
end OrderBookServer
