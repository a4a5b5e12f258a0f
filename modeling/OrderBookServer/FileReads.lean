import OrderBookServer.FileCursor
import OrderBookServer.Listener

/-!
# What bounded reads deliver

Where a turn begins and ends does not matter: the records that are delivered, and
whether a turn fails, depend on the bytes that were read and on nothing else.
-/
namespace OrderBookServer

open Records

namespace FileCursor

/-! ### The scan of the bytes just read -/

/-- No record has more than `limit` bytes, finished or not. -/
def Fits (limit : ℕ) (cur bytes : List UInt8) : Prop :=
  ∀ r ∈ records newline cur bytes ++ [rest newline cur bytes], r.length ≤ limit

section Fits

variable {limit : ℕ} {cur bytes more : List UInt8} {byte : UInt8}

theorem fits_nil : Fits limit cur [] ↔ cur.length ≤ limit := by
  simp [Fits, records, rest]

theorem fits_newline :
    Fits limit cur (newline :: bytes) ↔ cur.length + 1 ≤ limit ∧ Fits limit [] bytes := by
  rw [Fits, records, rest, if_pos rfl, if_pos rfl, List.cons_append, List.forall_mem_cons,
    List.length_append, List.length_singleton]
  rfl

theorem fits_cons (h : byte ≠ newline) :
    Fits limit cur (byte :: bytes) ↔ Fits limit (cur ++ [byte]) bytes := by
  rw [Fits, records, rest, if_neg h, if_neg h]
  rfl

theorem fits_append : Fits limit cur (bytes ++ more) ↔
    (∀ r ∈ records newline cur bytes, r.length ≤ limit) ∧
      Fits limit (rest newline cur bytes) more := by
  rw [Fits, records_append, rest_append, List.append_assoc, List.forall_mem_append]
  rfl

/-- A record only grows until it ends. -/
theorem not_fits_of_lt (h : limit < cur.length) : ¬ Fits limit cur bytes := by
  induction bytes generalizing cur with
  | nil =>
    rw [fits_nil]
    omega
  | cons byte bytes ih =>
    by_cases hbyte : byte = newline
    · subst hbyte
      rw [fits_newline]
      intro hfits
      have := hfits.1
      omega
    · rw [fits_cons hbyte]
      apply ih
      rw [List.length_append, List.length_singleton]
      omega

end Fits

/-- The scan stops at the first byte past the limit, and otherwise finds where the last record
ends. `base` is where the record in progress began. -/
theorem scan_eq {limit : ℕ} {cur bytes : List UInt8} (base : ℕ) (completeEnd : Option ℕ)
    (hcur : cur.length ≤ limit) :
    (Fits limit cur bytes →
      scan limit (base + cur.length) cur.length completeEnd bytes =
        ((rest newline cur bytes).length,
          .ok (if records newline cur bytes = [] then completeEnd
            else some (base + (records newline cur bytes).flatten.length)))) ∧
    (¬ Fits limit cur bytes →
      (scan limit (base + cur.length) cur.length completeEnd bytes).2 = .error .recordLimit) := by
  induction bytes generalizing base cur completeEnd with
  | nil =>
    rw [fits_nil]
    exact ⟨fun _ => by simp [scan, rest, records], fun h => absurd hcur h⟩
  | cons byte bytes ih =>
    rw [scan]
    by_cases hlimit : cur.length + 1 > limit
    · have hnot : ¬ Fits limit cur (byte :: bytes) := by
        by_cases hbyte : byte = newline
        · subst hbyte
          rw [fits_newline]
          omega
        · rw [fits_cons hbyte]
          apply not_fits_of_lt
          rw [List.length_append, List.length_singleton]
          omega
      rw [if_pos hlimit]
      exact ⟨fun h => absurd h hnot, fun _ => rfl⟩
    · rw [if_neg hlimit]
      by_cases hbyte : byte = newline
      · subst hbyte
        have hempty : ([] : List UInt8).length ≤ limit := Nat.zero_le limit
        obtain ⟨hok, herror⟩ := ih (base + cur.length + 1) (some (base + cur.length + 1)) hempty
        rw [if_pos rfl, fits_newline, records, rest, if_pos rfl, if_pos rfl]
        constructor
        · intro hfits
          refine (hok hfits.2).trans ?_
          rw [if_neg (List.cons_ne_nil _ _), List.flatten_cons, List.length_append,
            List.length_append, List.length_singleton]
          split_ifs with hnone
          · simp [hnone, add_assoc]
          · congr 3
            omega
        · intro hfits
          exact herror fun h => hfits ⟨by omega, h⟩
      · have hlength : (cur ++ [byte]).length = cur.length + 1 := by
          rw [List.length_append, List.length_singleton]
        have hih := ih base completeEnd (hlength.trans_le (by omega))
        rw [hlength] at hih
        rw [if_neg hbyte, fits_cons hbyte, records, rest, if_neg hbyte, if_neg hbyte]
        exact hih

/-! ### One turn -/

/-- The file has only grown, nothing about it has failed, and the partial record is not too old. -/
structure Quiet (cursor : FileCursor) (contents : List UInt8) (file : FileView) : Prop where
  grown : contents <+: file.contents
  metadata : file.metadata = .ok ()
  sameFile : file.sameFile = true
  read : ∃ n, file.read = .ok n
  young : cursor.partialExpired file.now = false

/-- The records in what a turn returned. -/
def recordsOf (text : String) : List (List UInt8) := records newline [] (Utf8.bytes text)

/-- The cursor after it read `read` from `start` on and returned `data`. -/
structure Tracks (start limit : ℕ) (contents read : List UInt8) (data : List String)
    (cursor : FileCursor) : Prop where
  start_le : start ≤ contents.length
  offset : cursor.offset = start + read.length
  sliced : read <+: contents.drop start
  bound : cursor.maxRecordBytes = limit
  partialBytes : cursor.partialBytes = rest newline [] read
  counter : cursor.partialRecordBytes = cursor.partialBytes.length
  fits : Fits limit [] read
  whole : ∀ text ∈ data, rest newline [] (Utf8.bytes text) = []
  delivered : data.flatMap recordsOf = records newline [] read

variable {start limit budget age : ℕ} {contents read : List UInt8} {data : List String}
variable {cursor : FileCursor} {file : FileView}

theorem tracks_openAt (limit age : ℕ) (h : start ≤ contents.length) :
    Tracks start limit contents [] [] ((openAt start limit).withMaxAge age) where
  start_le := h
  offset := rfl
  sliced := List.nil_prefix
  bound := rfl
  partialBytes := rfl
  counter := rfl
  fits := fits_nil.mpr (Nat.zero_le limit)
  whole := by simp
  delivered := rfl

theorem Tracks.length_le (h : Tracks start limit contents read data cursor) :
    cursor.offset ≤ contents.length := by
  have hstart := h.start_le
  have hlength := h.sliced.length_le
  rw [List.length_drop] at hlength
  rw [h.offset]
  omega

/-- What is read next goes on where the last read ended. -/
theorem Tracks.sliced_chunk (h : Tracks start limit contents read data cursor)
    (hgrown : contents <+: file.contents) :
    read ++ cursor.chunk file budget <+: file.contents.drop start := by
  obtain ⟨more, hmore⟩ := h.sliced.trans (hgrown.drop start)
  have hdrop : file.contents.drop cursor.offset = more := by
    rw [h.offset, ← List.drop_drop, ← hmore, List.drop_left]
  rw [chunk, hdrop, ← hmore, List.prefix_append_right_inj]
  exact List.take_prefix _ _

theorem verifyFile_of_quiet (h : Tracks start limit contents read data cursor)
    (hq : Quiet cursor contents file) : cursor.verifyFile file = .ok () := by
  have hlength := h.length_le
  have hgrown := hq.grown.length_le
  rw [verifyFile, hq.metadata]
  dsimp only
  rw [hq.sameFile, Bool.not_true, if_neg Bool.false_ne_true, if_neg (by omega)]

/-- The partial bytes are cut after the last whole record among them. -/
theorem takeComplete_eq (cursor : FileCursor) (whole : List (List UInt8)) {tail : List UInt8}
    (h : cursor.partialBytes = whole.flatten ++ tail) :
    cursor.takeComplete (if whole = [] then none else some whole.flatten.length) =
      ({ cursor with partialBytes := tail },
        match Utf8.decode whole.flatten with
        | some data => .ok data
        | none => .error .invalidUtf8) := by
  split_ifs with hnone
  · subst hnone
    have hempty : Utf8.decode [] = some "" := Utf8.decode_eq_some.mpr rfl
    rw [List.flatten_nil, List.nil_append] at h
    rw [takeComplete, List.flatten_nil, hempty, ← h]
  · cases hdecode : Utf8.decode whole.flatten with
    | none => simp only [takeComplete, h, List.drop_left, List.take_left, hdecode]
    | some data => simp only [takeComplete, h, List.drop_left, List.take_left, hdecode]

/-- Only the time of the partial record is set. -/
theorem markPartial_eq (cursor : FileCursor) (completed : Bool) (now : Instant) :
    ∃ since, cursor.markPartial completed now = { cursor with partialSince := since } := by
  rw [markPartial]
  split_ifs
  · exact ⟨none, rfl⟩
  · exact ⟨some now, rfl⟩
  · exact ⟨cursor.partialSince, rfl⟩

/-- The records that a turn completes. -/
def completed (cursor : FileCursor) (bytes : List UInt8) : List (List UInt8) :=
  records newline cursor.partialBytes bytes

theorem Tracks.records_append (h : Tracks start limit contents read data cursor)
    (bytes : List UInt8) :
    records newline [] (read ++ bytes) = records newline [] read ++ cursor.completed bytes := by
  rw [Records.records_append, completed, h.partialBytes]

theorem Tracks.fits_append (h : Tracks start limit contents read data cursor)
    (bytes : List UInt8) :
    Fits limit [] (read ++ bytes) ↔ Fits limit cursor.partialBytes bytes := by
  rw [FileCursor.fits_append, h.partialBytes, and_iff_right]
  intro r hr
  exact h.fits r (List.mem_append_left _ hr)

theorem Tracks.length_partialBytes_le (h : Tracks start limit contents read data cursor) :
    cursor.partialBytes.length ≤ limit := by
  apply h.fits
  rw [h.partialBytes]
  simp

theorem whole_of_mem_completed (h : Tracks start limit contents read data cursor)
    (bytes : List UInt8) : ∀ r ∈ cursor.completed bytes, Whole newline r := by
  intro r hr
  rw [completed, h.partialBytes] at hr
  exact whole_of_mem_records (notMem_rest List.not_mem_nil) hr

/-- A turn fails at a record past the limit. -/
theorem readTurn_of_not_fits (h : Tracks start limit contents read data cursor)
    (hq : Quiet cursor contents file)
    (hfits : ¬ Fits limit [] (read ++ cursor.chunk file budget)) :
    ∃ e, (cursor.readTurn file budget).2 = .error e := by
  obtain ⟨n, hn⟩ := hq.read
  rw [h.fits_append] at hfits
  have hscan := (scan_eq 0 none h.length_partialBytes_le).2 hfits
  rw [Nat.zero_add] at hscan
  rw [readTurn, verifyFile_of_quiet h hq, hq.young, hn]
  dsimp only
  rw [if_neg Bool.false_ne_true, h.counter, h.bound]
  generalize scan limit cursor.partialBytes.length cursor.partialBytes.length none
    (cursor.chunk file budget) = out at hscan ⊢
  obtain ⟨recordBytes, e | completeEnd⟩ := out
  · exact ⟨e, rfl⟩
  · cases hscan

/-- Otherwise it cuts the whole records off and reads them as text. -/
theorem readTurn_of_fits (h : Tracks start limit contents read data cursor)
    (hq : Quiet cursor contents file)
    (hfits : Fits limit [] (read ++ cursor.chunk file budget)) :
    ∃ since, cursor.readTurn file budget =
      match Utf8.decode (cursor.completed (cursor.chunk file budget)).flatten with
      | none => ({ cursor with
          offset := cursor.offset + (cursor.chunk file budget).length
          partialRecordBytes :=
            (rest newline cursor.partialBytes (cursor.chunk file budget)).length
          partialBytes := rest newline cursor.partialBytes (cursor.chunk file budget) },
          .error .invalidUtf8)
      | some text => ({ cursor with
          offset := cursor.offset + (cursor.chunk file budget).length
          partialRecordBytes :=
            (rest newline cursor.partialBytes (cursor.chunk file budget)).length
          partialBytes := rest newline cursor.partialBytes (cursor.chunk file budget)
          partialSince := since },
          .ok (text, decide ((cursor.chunk file budget).length > 0),
            (cursor.chunk file budget).length)) := by
  obtain ⟨n, hn⟩ := hq.read
  have hlimit := h.bound
  subst hlimit
  rw [h.fits_append] at hfits
  have hscan := (scan_eq 0 none h.length_partialBytes_le).1 hfits
  have hcompleted : records newline cursor.partialBytes (cursor.chunk file budget) =
      cursor.completed (cursor.chunk file budget) := rfl
  have hflatten := flatten_records newline cursor.partialBytes (cursor.chunk file budget)
  rw [Nat.zero_add, Nat.zero_add] at hscan
  rw [hcompleted] at hscan hflatten
  rw [readTurn, verifyFile_of_quiet h hq, hq.young, hn]
  dsimp only
  rw [if_neg Bool.false_ne_true, h.counter, hscan]
  dsimp only
  rw [takeComplete_eq _ (cursor.completed (cursor.chunk file budget)) hflatten.symm]
  cases Utf8.decode (cursor.completed (cursor.chunk file budget)).flatten with
  | none => exact ⟨none, rfl⟩
  | some text =>
    dsimp only
    obtain ⟨since, hsince⟩ := markPartial_eq { cursor with
      offset := cursor.offset + (cursor.chunk file budget).length
      partialRecordBytes := (rest newline cursor.partialBytes (cursor.chunk file budget)).length
      partialBytes := rest newline cursor.partialBytes (cursor.chunk file budget) }
      (if cursor.completed (cursor.chunk file budget) = [] then none
        else some (cursor.completed (cursor.chunk file budget)).flatten.length).isSome file.later
    exact ⟨since, Prod.ext hsince rfl⟩

/-! ### The records as texts -/

theorem encode_newline : Utf8.encode ['\n'] = [newline] := by decide

theorem newline_lt : newline < 128 := by decide

theorem newline_notMem {c : Char} (h : c ≠ '\n') : newline ∉ String.utf8EncodeChar c := by
  intro hmem
  obtain ⟨b, -, hsingle, hc⟩ | hhigh := Utf8.utf8EncodeChar_cases c
  · rw [hsingle, List.mem_singleton] at hmem
    subst hmem
    exact h (Char.toNat_inj.mp hc.symm)
  · exact hhigh newline hmem newline_lt

/-- The listener cuts a text where its bytes are cut. -/
theorem map_encode_splitInclusive (cur cs : List Char) :
    (OrderBookListener.splitInclusive cur cs).map Utf8.encode =
      records newline (Utf8.encode cur) (Utf8.encode cs) ++
        (if rest newline (Utf8.encode cur) (Utf8.encode cs) = [] then []
          else [rest newline (Utf8.encode cur) (Utf8.encode cs)]) := by
  induction cs generalizing cur with
  | nil =>
    cases cur with
    | nil => rfl
    | cons c cur =>
      have hne : Utf8.encode (c :: cur) ≠ [] := fun h =>
        List.cons_ne_nil c cur (Utf8.encode_injective h)
      rw [OrderBookListener.splitInclusive, Utf8.encode_nil, records, rest, if_neg hne]
      rfl
  | cons c cs ih =>
    rw [OrderBookListener.splitInclusive]
    by_cases hc : c = '\n'
    · subst hc
      have hcons : Utf8.encode ('\n' :: cs) = newline :: Utf8.encode cs := by
        rw [← List.singleton_append, Utf8.encode_append, encode_newline]
        rfl
      rw [if_pos rfl, List.map_cons, ih, hcons, records, rest, if_pos rfl, if_pos rfl,
        Utf8.encode_append, encode_newline]
      rfl
    · have hcons : Utf8.encode (c :: cs) = Utf8.encode [c] ++ Utf8.encode cs :=
        Utf8.encode_append [c] cs
      have hnot : newline ∉ Utf8.encode [c] := by
        simpa [Utf8.encode] using newline_notMem hc
      obtain ⟨hrecords, hrest⟩ := of_notMem (Utf8.encode cur) hnot
      rw [if_neg hc, ih, hcons, records_append, rest_append, hrecords, hrest, Utf8.encode_append,
        List.nil_append]

/-- What turns return, cut into records as the listener does. -/
def recordTexts (data : List String) : List (List Char) :=
  data.flatMap fun text => OrderBookListener.splitInclusive [] text.toList

theorem Tracks.map_encode_recordTexts (h : Tracks start limit contents read data cursor) :
    (recordTexts data).map Utf8.encode = records newline [] read := by
  rw [recordTexts, List.map_flatMap, ← h.delivered]
  apply List.flatMap_congr
  intro text htext
  have hrest := h.whole text htext
  rw [Utf8.bytes_eq_encode] at hrest
  rw [map_encode_splitInclusive, Utf8.encode_nil, hrest, if_pos rfl, List.append_nil, recordsOf,
    Utf8.bytes_eq_encode]

/-- Nothing read is lost. -/
theorem Tracks.flatMap_bytes (h : Tracks start limit contents read data cursor) :
    data.flatMap Utf8.bytes ++ cursor.partialBytes = read := by
  have hflatten := flatten_records newline [] read
  rw [← h.delivered, ← h.partialBytes, List.nil_append, List.flatMap_def,
    List.flatten_flatten, List.map_map] at hflatten
  rw [← hflatten, List.flatMap_def]
  congr 2
  apply List.map_congr_left
  intro text htext
  have hrest := flatten_records newline [] (Utf8.bytes text)
  rw [h.whole text htext, List.append_nil] at hrest
  exact hrest.symm

theorem eq_empty_or_getLast? {text : String} (h : rest newline [] (Utf8.bytes text) = []) :
    text = "" ∨ text.toList.getLast? = some '\n' := by
  have hflatten := flatten_records newline [] (Utf8.bytes text)
  rw [h, List.append_nil, List.nil_append] at hflatten
  rcases List.eq_nil_or_concat (records newline [] (Utf8.bytes text)) with hnil | ⟨rs, r, hlast⟩
  · left
    rw [hnil, List.flatten_nil] at hflatten
    exact Utf8.bytes_injective hflatten.symm
  · right
    have hr : r ∈ records newline [] (Utf8.bytes text) := by
      rw [hlast]
      simp
    obtain ⟨body, rfl, -⟩ := whole_of_mem_records List.not_mem_nil hr
    rw [hlast, List.concat_eq_append, List.flatten_append, List.flatten_singleton, ← List.append_assoc, Utf8.bytes_eq_encode] at hflatten
    exact Utf8.getLast?_of_encode newline_lt rfl hflatten.symm

/-! ### Runs of turns -/

/-- No record is too long, and each whole one is a text. -/
def Acceptable (limit : ℕ) (bytes : List UInt8) : Prop :=
  Fits limit [] bytes ∧ ∀ r ∈ records newline [] bytes, Utf8.Valid r

/-- A cursor that began at `start` has read `read`, turn by turn, while the file grew to
`contents`; `out` is what the turns returned, or the error of the last. -/
inductive Ran (start limit age : ℕ) : List UInt8 → List UInt8 →
    Except CursorError (List String) → FileCursor → Prop
  | opened {contents : List UInt8} (h : start ≤ contents.length) :
    Ran start limit age contents [] (.ok []) ((openAt start limit).withMaxAge age)
  | turned {contents read : List UInt8} {data : List String} {cursor : FileCursor}
    (h : Ran start limit age contents read (.ok data) cursor) (file : FileView) (budget : ℕ)
    (hq : Quiet cursor contents file) :
    Ran start limit age file.contents (read ++ cursor.chunk file budget)
      ((cursor.readTurn file budget).2.map fun out => data ++ [out.1])
      (cursor.readTurn file budget).1

theorem Tracks.valid_flatten_iff (h : Tracks start limit contents read data cursor)
    (bytes : List UInt8) : Utf8.Valid (cursor.completed bytes).flatten ↔
      ∀ r ∈ cursor.completed bytes, Utf8.Valid r :=
  Utf8.valid_flatten_iff newline_lt (whole_of_mem_completed h bytes)

/-- A turn fails exactly where it reads past the limit, or completes what is not a text. -/
theorem Tracks.readTurn_error_iff (h : Tracks start limit contents read data cursor)
    (hq : Quiet cursor contents file) (budget : ℕ) :
    (∃ e, (cursor.readTurn file budget).2 = .error e) ↔
      ¬ Fits limit [] (read ++ cursor.chunk file budget) ∨
        ∃ r ∈ cursor.completed (cursor.chunk file budget), ¬ Utf8.Valid r := by
  by_cases hfits : Fits limit [] (read ++ cursor.chunk file budget)
  · obtain ⟨since, hturn⟩ := readTurn_of_fits h hq hfits
    have hvalid := h.valid_flatten_iff (cursor.chunk file budget)
    rw [← Utf8.isSome_decode] at hvalid
    rw [hturn]
    cases hdecode : Utf8.decode (cursor.completed (cursor.chunk file budget)).flatten with
    | none =>
      rw [hdecode] at hvalid
      have hbad : ¬ ∀ r ∈ cursor.completed (cursor.chunk file budget), Utf8.Valid r := by
        rw [← hvalid]
        simp
      push Not at hbad
      exact iff_of_true ⟨_, rfl⟩ (.inr hbad)
    | some text =>
      rw [hdecode] at hvalid
      have hall := hvalid.mp rfl
      apply iff_of_false
      · rintro ⟨e, he⟩
        cases he
      · rintro (hnot | ⟨r, hr, hbad⟩)
        · exact hnot hfits
        · exact hbad (hall r hr)
  · exact iff_of_true (readTurn_of_not_fits h hq hfits) (.inl hfits)

/-- A turn that succeeds delivers what it completed. -/
theorem Tracks.readTurn (h : Tracks start limit contents read data cursor)
    (hq : Quiet cursor contents file) {text : String} {more : Bool} {n : ℕ}
    (hturn : (cursor.readTurn file budget).2 = .ok (text, more, n)) :
    Tracks start limit file.contents (read ++ cursor.chunk file budget) (data ++ [text])
      (cursor.readTurn file budget).1 := by
  have herror := h.readTurn_error_iff hq budget
  have hfits : Fits limit [] (read ++ cursor.chunk file budget) := by
    by_contra hnot
    obtain ⟨e, he⟩ := herror.mpr (.inl hnot)
    cases hturn.symm.trans he
  obtain ⟨since, heq⟩ := readTurn_of_fits h hq hfits
  rw [heq] at hturn ⊢
  cases hdecode : Utf8.decode (cursor.completed (cursor.chunk file budget)).flatten with
  | none =>
    rw [hdecode] at hturn
    cases hturn
  | some found =>
    rw [hdecode] at hturn
    obtain ⟨rfl, -, -⟩ : found = text ∧ _ ∧ _ := by simpa using hturn
    have hbytes := Utf8.decode_eq_some.mp hdecode
    obtain ⟨hrecords, hrest⟩ := records_flatten
      (whole_of_mem_completed h (cursor.chunk file budget))
    rw [hbytes] at hrecords hrest
    exact {
      start_le := h.start_le.trans hq.grown.length_le
      offset := by
        rw [List.length_append, ← add_assoc, ← h.offset]
      sliced := h.sliced_chunk hq.grown
      bound := h.bound
      partialBytes := by
        rw [rest_append, ← h.partialBytes]
      counter := rfl
      fits := hfits
      whole := by
        simp only [List.mem_append, List.mem_singleton]
        rintro other (hmem | rfl)
        · exact h.whole other hmem
        · exact hrest
      delivered := by
        rw [List.flatMap_append, h.delivered, h.records_append, List.flatMap_singleton, recordsOf,
          hrecords] }

theorem Tracks.valid_of_mem (h : Tracks start limit contents read data cursor) {r : List UInt8}
    (hr : r ∈ records newline [] read) : Utf8.Valid r := by
  rw [← h.map_encode_recordTexts, List.mem_map] at hr
  obtain ⟨cs, -, rfl⟩ := hr
  exact ⟨cs, rfl⟩

variable {out : Except CursorError (List String)}

/-- After each turn the bytes read are acceptable and the cursor tracks them, or the turn failed
and they are not. -/
theorem Ran.outcome (h : Ran start limit age contents read out cursor) :
    (∃ data, out = .ok data ∧ Acceptable limit read ∧
      Tracks start limit contents read data cursor) ∨
    (∃ e, out = .error e) ∧ ¬ Acceptable limit read := by
  induction h with
  | opened h =>
    have htracks := tracks_openAt limit age h
    exact .inl ⟨[], rfl, ⟨htracks.fits, fun r hr => htracks.valid_of_mem hr⟩, htracks⟩
  | @turned contents read data cursor h file budget hq ih =>
    obtain ⟨data', hdata, hacceptable, htracks⟩ | ⟨⟨e, he⟩, -⟩ := ih
    · obtain rfl : data = data' := Except.ok.inj hdata
      have herror := htracks.readTurn_error_iff hq budget
      cases hturn : (cursor.readTurn file budget).2 with
      | error e =>
        right
        refine ⟨⟨e, rfl⟩, fun hgood => ?_⟩
        obtain hlong | ⟨r, hr, hbad⟩ := herror.mp ⟨e, hturn⟩
        · exact hlong hgood.1
        · apply hbad
          apply hgood.2
          rw [htracks.records_append]
          exact List.mem_append_right _ hr
      | ok result =>
        obtain ⟨text, more, n⟩ := result
        have hafter := htracks.readTurn hq hturn
        exact .inl ⟨data ++ [text], rfl, ⟨hafter.fits, fun r hr => hafter.valid_of_mem hr⟩, hafter⟩
    · cases he

theorem Ran.tracks (h : Ran start limit age contents read (.ok data) cursor) :
    Tracks start limit contents read data cursor := by
  obtain ⟨data', hdata, -, htracks⟩ | ⟨⟨e, he⟩, -⟩ := h.outcome
  · cases hdata
    exact htracks
  · cases he

/-- Turns of any budgets deliver whole records, each once and in order. They stop exactly at a
record past the limit or at one that is not a text, wherever the turns begin and end. -/
theorem bounded_reads_deliver_records (h : Ran start limit age contents read out cursor) :
    (∀ data, out = .ok data →
      data.flatMap Utf8.bytes ++ cursor.partialBytes = read ∧
      read = (contents.take cursor.offset).drop start ∧
      (∀ text ∈ data, text = "" ∨ text.toList.getLast? = some '\n') ∧
      newline ∉ cursor.partialBytes ∧
      cursor.partialRecordBytes = cursor.partialBytes.length ∧
      cursor.partialRecordBytes ≤ cursor.maxRecordBytes ∧
      ∀ file budget, Quiet cursor contents file →
        ((∃ e, (cursor.readTurn file budget).2 = .error e) ↔
          (∃ r ∈ records newline [] (read ++ cursor.chunk file budget) ++
            [rest newline [] (read ++ cursor.chunk file budget)], limit < r.length) ∨
          ∃ r ∈ records newline cursor.partialBytes (cursor.chunk file budget),
            ¬ Utf8.Valid r)) ∧
    ∀ age' contents' out' cursor', Ran start limit age' contents' read out' cursor' →
      (∃ data data', out = .ok data ∧ out' = .ok data' ∧
        recordTexts data = recordTexts data') ∨
      (∃ e e', out = .error e ∧ out' = .error e') := by
  constructor
  · rintro data rfl
    have htracks := h.tracks
    refine ⟨htracks.flatMap_bytes, ?_, fun text htext => eq_empty_or_getLast? (htracks.whole text htext),
      ?_, htracks.counter, ?_, fun file budget hq => ?_⟩
    · rw [List.drop_take, htracks.offset, Nat.add_sub_cancel_left]
      exact List.prefix_iff_eq_take.mp htracks.sliced
    · rw [htracks.partialBytes]
      exact notMem_rest List.not_mem_nil
    · rw [htracks.counter, htracks.bound]
      exact htracks.length_partialBytes_le
    · have hlong : (∃ r ∈ records newline [] (read ++ cursor.chunk file budget) ++
          [rest newline [] (read ++ cursor.chunk file budget)], limit < r.length) ↔
          ¬ Fits limit [] (read ++ cursor.chunk file budget) := by
        simp only [Fits, not_forall, not_le, exists_prop]
      rw [hlong]
      exact htracks.readTurn_error_iff hq budget
  · intro age' contents' out' cursor' h'
    obtain ⟨data, rfl, hgood, htracks⟩ | ⟨⟨e, rfl⟩, hbad⟩ := h.outcome
    · obtain ⟨data', rfl, -, htracks'⟩ | ⟨-, hbad⟩ := h'.outcome
      · refine .inl ⟨data, data', rfl, rfl, ?_⟩
        apply List.map_injective_iff.mpr Utf8.encode_injective
        rw [htracks.map_encode_recordTexts, htracks'.map_encode_recordTexts]
      · exact absurd hgood hbad
    · obtain ⟨data', -, hgood, -⟩ | ⟨⟨e', rfl⟩, -⟩ := h'.outcome
      · exact absurd hgood hbad
      · exact .inr ⟨e, e', rfl, rfl⟩

/-- A file with a line and the first byte of the next. -/
def lineFile : FileView where
  contents := [111, 107, 10, 111]
  metadata := .ok ()
  sameFile := true
  read := .ok 2
  now := 0
  later := 0

theorem quiet_lineFile {cursor : FileCursor} (h : cursor.partialExpired 0 = false) :
    Quiet cursor lineFile.contents lineFile :=
  ⟨List.prefix_rfl, rfl, rfl, ⟨2, rfl⟩, h⟩

theorem bounded_reads_deliver_records_two_turns :
    ["", "ok\n"].flatMap Utf8.bytes ++
      ((((openAt 0 8).withMaxAge 1).readTurn lineFile 2).1.readTurn lineFile 2).1.partialBytes =
        [111, 107, 10, 111] := by
  have hopened : Ran 0 8 1 lineFile.contents [] (.ok []) ((openAt 0 8).withMaxAge 1) :=
    .opened (by decide)
  have hfirst : Ran 0 8 1 lineFile.contents [111, 107] (.ok [""])
      (((openAt 0 8).withMaxAge 1).readTurn lineFile 2).1 :=
    .turned hopened lineFile 2 (quiet_lineFile (by decide))
  have hsecond : Ran 0 8 1 lineFile.contents [111, 107, 10, 111] (.ok ["", "ok\n"])
      ((((openAt 0 8).withMaxAge 1).readTurn lineFile 2).1.readTurn lineFile 2).1 :=
    .turned hfirst lineFile 2 (quiet_lineFile (by decide))
  exact ((bounded_reads_deliver_records hsecond).1 ["", "ok\n"] rfl).1

end FileCursor
end OrderBookServer
