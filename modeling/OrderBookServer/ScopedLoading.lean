import OrderBookServer.ScopedParse
import OrderBookServer.SnapshotFile

/-!
# Reading in scope is reading in full and leaving out

The node's snapshot is read off the front of its text, and what is left of the text has to be
blank. What a scope leaves out of a block or of a snapshot is what it leaves out of the same
text read in full; the frame of a snapshot is checked in any scope, also where it skips every
book.
-/
namespace OrderBookServer

/-- The tokeniser at work: it takes the first value off the front of a text. -/
structure JsonReader where
  read : List Char → Except String (Json × List Char)

namespace JsonReader

def isBlank (c : Char) : Bool := c == ' ' || c == '\n' || c == '\t' || c == '\r'

/-- `Deserializer::end` -/
def finish (rest : List Char) : Except String Unit :=
  if rest.all isBlank then return () else .error "trailing characters"

/-- `serde_json::from_str` -/
def fromStr (reader : JsonReader) (text : String) : Except String Json := do
  let (value, rest) ← reader.read text.toList
  finish rest
  return value

theorem finish_eq_ok {rest : List Char} : finish rest = .ok () ↔ rest.all isBlank = true := by
  unfold finish
  split_ifs with h
  · simp [h, pure, Except.pure]
  · simp [h]

theorem fromStr_eq_ok {reader : JsonReader} {text : String} {value : Json} :
    reader.fromStr text = .ok value ↔
      ∃ rest, reader.read text.toList = .ok (value, rest) ∧ rest.all isBlank = true := by
  unfold fromStr
  constructor
  · intro h
    obtain ⟨⟨value', rest⟩, hread, h⟩ := bind_eq_ok.mp h
    obtain ⟨done, hfinish, h⟩ := bind_eq_ok.mp h
    obtain rfl := Except.ok.inj h
    exact ⟨rest, hread, finish_eq_ok.mp hfinish⟩
  · rintro ⟨rest, hread, hblank⟩
    exact bind_eq_ok.mpr ⟨(value, rest), hread, bind_eq_ok.mpr ⟨(), finish_eq_ok.mpr hblank, rfl⟩⟩

end JsonReader

/-- `load_snapshots_from_str`, from its text on. -/
def loadSnapshots (reader : JsonReader) (serde : SerdeJson) (str : String) (scope : CoinScope) :
    Except String (ℕ × Snapshots InnerL4Order) := do
  let (value, rest) ← reader.read str.toList
  let (height, books) ← serde.snapshotSeed scope value
  JsonReader.finish rest
  return (height, HashMap.collect (← books.mapM RawBook.entry))

/-- The frame `[height, [[coin, sides], ...]]`, with nothing but blanks after it. -/
def Framed (reader : JsonReader) (str : String) : Prop :=
  ∃ height books rest, reader.read str.toList = .ok (.arr [height, .arr books], rest) ∧
    (∀ book ∈ books, ∃ coin sides, book = .arr [coin, sides]) ∧ rest.all JsonReader.isBlank = true

namespace SerdeJson

variable {serde : SerdeJson} {scope : CoinScope} {value : Json}

theorem array_eq_ok {elems : List Json} (h : array value = .ok elems) : value = .arr elems := by
  unfold array at h
  split at h
  · rw [Except.ok.inj h]
  · simp at h

theorem pair_eq_ok {fst snd : Json} (h : pair value = .ok (fst, snd)) : value = .arr [fst, snd] := by
  unfold pair at h
  obtain ⟨elems, helems, h⟩ := bind_eq_ok.mp h
  rw [array_eq_ok helems]
  split at h
  · simp only [pure, Except.pure, Except.ok.injEq, Prod.mk.injEq] at h
    rw [h.1, h.2]
  · simp at h

/-- A book is a pair also where it is skipped. -/
theorem bookSeed_framed {out : Option RawBook} (h : serde.bookSeed scope value = .ok out) :
    ∃ coin sides, value = .arr [coin, sides] := by
  unfold bookSeed at h
  obtain ⟨⟨coin, sides⟩, hpair, -⟩ := bind_eq_ok.mp h
  exact ⟨coin, sides, pair_eq_ok hpair⟩

theorem booksSeed_framed {books : List RawBook} (h : serde.booksSeed scope value = .ok books) :
    ∃ elems, value = .arr elems ∧ ∀ elem ∈ elems, ∃ coin sides, elem = .arr [coin, sides] := by
  unfold booksSeed at h
  obtain ⟨elems, helems, h⟩ := bind_eq_ok.mp h
  obtain ⟨outs, houts, -⟩ := bind_eq_ok.mp h
  refine ⟨elems, array_eq_ok helems, fun elem helem => ?_⟩
  obtain ⟨i, hi, rfl⟩ := List.mem_iff_getElem.mp helem
  obtain ⟨hlength, hget⟩ := List.forall₂_iff_get.mp (mapM_eq_ok.mp houts)
  exact bookSeed_framed (hget i hi (hlength ▸ hi))

theorem snapshotSeed_framed {height : ℕ} {books : List RawBook}
    (h : serde.snapshotSeed scope value = .ok (height, books)) :
    ∃ height elems, value = .arr [height, .arr elems] ∧
      ∀ elem ∈ elems, ∃ coin sides, elem = .arr [coin, sides] := by
  unfold snapshotSeed at h
  obtain ⟨⟨rawHeight, rawBooks⟩, hpair, h⟩ := bind_eq_ok.mp h
  obtain ⟨word, -, h⟩ := bind_eq_ok.mp h
  obtain ⟨decoded, hbooks, -⟩ := bind_eq_ok.mp h
  obtain ⟨elems, rfl, hframed⟩ := booksSeed_framed hbooks
  exact ⟨rawHeight, elems, pair_eq_ok hpair, hframed⟩

end SerdeJson

section

variable {reader : JsonReader} {serde : SerdeJson} {str : String} {scope : CoinScope}
  {out : ℕ × Snapshots InnerL4Order}

/-- A snapshot that is loaded, at whatever scope, is framed. -/
theorem framed_of_loadSnapshots (h : loadSnapshots reader serde str scope = .ok out) :
    Framed reader str := by
  unfold loadSnapshots at h
  obtain ⟨⟨value, rest⟩, hread, h⟩ := bind_eq_ok.mp h
  obtain ⟨⟨height, books⟩, hseed, h⟩ := bind_eq_ok.mp h
  obtain ⟨done, hfinish, -⟩ := bind_eq_ok.mp h
  obtain ⟨rawHeight, elems, rfl, hframed⟩ := SerdeJson.snapshotSeed_framed hseed
  exact ⟨rawHeight, elems, rest, hread, hframed, JsonReader.finish_eq_ok.mp hfinish⟩

/-- Loading from the text is loading with a tokeniser that wants the whole text. -/
theorem loadSnapshots_eq_ok_iff : loadSnapshots reader serde str scope = .ok out ↔
    loadSnapshotsFromStr { serde with tokenise := reader.fromStr } str scope = .ok out := by
  constructor
  · intro h
    obtain ⟨⟨value, rest⟩, hread, h⟩ := bind_eq_ok.mp h
    obtain ⟨⟨height, books⟩, hseed, h⟩ := bind_eq_ok.mp h
    obtain ⟨done, hfinish, h⟩ := bind_eq_ok.mp h
    have hvalue := JsonReader.fromStr_eq_ok.mpr ⟨rest, hread, JsonReader.finish_eq_ok.mp hfinish⟩
    exact bind_eq_ok.mpr ⟨value, hvalue, bind_eq_ok.mpr ⟨(height, books), hseed, h⟩⟩
  · intro h
    obtain ⟨value, hvalue, h⟩ := bind_eq_ok.mp h
    obtain ⟨⟨height, books⟩, hseed, h⟩ := bind_eq_ok.mp h
    obtain ⟨rest, hread, hblank⟩ := JsonReader.fromStr_eq_ok.mp hvalue
    exact bind_eq_ok.mpr ⟨(value, rest), hread, bind_eq_ok.mpr ⟨(height, books), hseed,
      bind_eq_ok.mpr ⟨(), JsonReader.finish_eq_ok.mpr hblank, h⟩⟩⟩

/-- The batch with those of its events, in their order, whose coin is in scope. -/
structure KeepsInScope {E : Type} (coin : E → String) (scope : CoinScope) (batch kept : Batch E) :
    Prop where
  blockNumber : kept.blockNumber = batch.blockNumber
  localTime : kept.localTime = batch.localTime
  blockTime : kept.blockTime = batch.blockTime
  wireBytes : kept.wireBytes = batch.wireBytes
  events : kept.events = batch.events.filter fun e => scope.contains (coin e)

theorem parseInScope_filters {E : Type} {event : ScopedEvent E} {source : EventSource}
    (hevent : event.Probes source) {line : String} (hplain : PlainLine serde source line)
    (scope : CoinScope) {batch : Batch E}
    (h : Batch.parseInScope serde event line .all = .ok batch) :
    ∃ kept, Batch.parseInScope serde event line scope = .ok kept ∧
      KeepsInScope event.coin scope batch kept :=
  ⟨_, Batch.parseInScope_of_all hevent hplain rfl scope h, rfl, rfl, rfl, rfl, rfl⟩

theorem loadSnapshots_filters (scope : CoinScope) {height : ℕ} {snapshot : Snapshots InnerL4Order}
    (h : loadSnapshots reader serde str .all = .ok (height, snapshot)) :
    ∃ kept, loadSnapshots reader serde str scope = .ok (height, kept) ∧
      ∀ coin, kept.lookup coin = if scope.contains coin.value then snapshot.lookup coin else none := by
  have hload := loadSnapshotsFromStr_of_all scope rfl (loadSnapshots_eq_ok_iff.mp h)
  refine ⟨scope.restrict snapshot, loadSnapshots_eq_ok_iff.mpr hload, fun coin => ?_⟩
  rw [CoinScope.restrict, HashMap.lookup_restrict]

end

/-- Parsing in any scope is parsing in full and then leaving out what is not in scope: for the
blocks of each source, written as the node writes them, and for snapshots. A snapshot whose frame
is wrong is rejected in every scope. -/
theorem scoped_parsing_filters (reader : JsonReader) (serde : SerdeJson) (scope : CoinScope) :
    (∀ line batch, PlainLine serde .orderDiffs line →
      Batch.parseInScope serde (.diffs serde) line .all = .ok batch →
      ∃ kept, Batch.parseInScope serde (.diffs serde) line scope = .ok kept ∧
        KeepsInScope (fun diff => diff.coin) scope batch kept) ∧
    (∀ line batch, PlainLine serde .orderStatuses line →
      Batch.parseInScope serde (.statuses serde) line .all = .ok batch →
      ∃ kept, Batch.parseInScope serde (.statuses serde) line scope = .ok kept ∧
        KeepsInScope (fun status => status.order.coin) scope batch kept) ∧
    (∀ line batch, PlainLine serde .fills line →
      Batch.parseInScope serde (.fills serde) line .all = .ok batch →
      ∃ kept, Batch.parseInScope serde (.fills serde) line scope = .ok kept ∧
        KeepsInScope (fun fill => fill.fill.coin) scope batch kept) ∧
    (∀ str height snapshot, loadSnapshots reader serde str .all = .ok (height, snapshot) →
      ∃ kept, loadSnapshots reader serde str scope = .ok (height, kept) ∧
        ∀ coin, kept.lookup coin =
          if scope.contains coin.value then snapshot.lookup coin else none) ∧
    ∀ str, ¬ Framed reader str → ∃ e, loadSnapshots reader serde str scope = .error e := by
  refine ⟨fun line batch hplain => ?_, fun line batch hplain => ?_, fun line batch hplain => ?_,
    fun str height snapshot => loadSnapshots_filters scope, fun str hframe => ?_⟩
  · exact parseInScope_filters (ScopedEvent.probes_diffs serde) hplain scope
  · exact parseInScope_filters (ScopedEvent.probes_statuses serde) hplain scope
  · exact parseInScope_filters (ScopedEvent.probes_fills serde) hplain scope
  · cases hload : loadSnapshots reader serde str scope with
    | error e => exact ⟨e, rfl⟩
    | ok out => exact absurd (framed_of_loadSnapshots hload) hframe

/-- The lines of a block with a diff of an outcome coin and one of BTC, and of two snapshots of
one book each, the second with an element too many. -/
def twoDiffsLine : String :=
  "[\"1970-01-01T00:00:00\",\"1970-01-01T00:00:00\",6," ++
    "[\x7b\"user\":\"0x0000000000000000000000000000000000000000\",\"oid\":5,\"px\":\"1\"," ++
    "\"coin\":\"#10\",\"raw_book_diff\":\"remove\"\x7d," ++
    "\x7b\"user\":\"0x0000000000000000000000000000000000000000\",\"oid\":4,\"px\":\"1\"," ++
    "\"coin\":\"BTC\",\"raw_book_diff\":\"remove\"\x7d]]"

def removal (oid coin : String) : Json :=
  .obj [("user", .str "0x0000000000000000000000000000000000000000"), ("oid", .num oid),
    ("px", .str "1"), ("coin", .str coin), ("raw_book_diff", .str "remove")]

def twoDiffs : Json :=
  .arr [.str "1970-01-01T00:00:00", .str "1970-01-01T00:00:00", .num "6",
    .arr [removal "5" "#10", removal "4" "BTC"]]

def skippedBook (more : List Json) : Json :=
  .arr [.num "5", .arr [.arr ([.str "BTC", .arr [.arr [], .arr []]] ++ more)]]

/-- A scope of outcome coins only keeps the first diff, and still looks at the frame of a book
that it skips. -/
theorem scoped_parsing_filters_outcome_coins :
    let serde := SerdeJson.ofLines [(twoDiffsLine, twoDiffs)]
    let reader : JsonReader := ⟨fun text =>
      if text = "[5,[[\"BTC\",[[],[]]]]]".toList then .ok (skippedBook [], [])
      else .ok (skippedBook [.num "3"], [])⟩
    let scope : CoinScope := ⟨false, ∅⟩
    (∃ kept, Batch.parseInScope serde (.diffs serde) twoDiffsLine scope = .ok kept ∧
      kept.events.map (fun diff => diff.coin) = ["#10"]) ∧
    (∃ kept, loadSnapshots reader serde "[5,[[\"BTC\",[[],[]]]]]" scope = .ok (5, kept) ∧
      kept.lookup ⟨"BTC"⟩ = none) ∧
    ∃ e, loadSnapshots reader serde "[5,[[\"BTC\",[[],[]],3]]]" scope = .error e := by
  intro serde reader scope
  have hvalue : serde.tokenise twoDiffsLine = .ok twoDiffs := by
    simp [serde, SerdeJson.ofLines]
  have hraw : RawBatch.decode serde twoDiffs =
      .ok ⟨⟨0⟩, ⟨0⟩, 6, [removal "5" "#10", removal "4" "BTC"]⟩ := rfl
  have hdecoded : Batch.decode serde (.diffs serde) twoDiffs =
      .ok ⟨⟨0⟩, ⟨0⟩, 6, [⟨0, 5, "1", "#10", .remove⟩, ⟨0, 4, "1", "BTC", .remove⟩], 0⟩ := rfl
  have hbatch : Batch.parseInScope serde (.diffs serde) twoDiffsLine .all =
      .ok ⟨⟨0⟩, ⟨0⟩, 6, [⟨0, 5, "1", "#10", .remove⟩, ⟨0, 4, "1", "BTC", .remove⟩],
        twoDiffsLine.utf8ByteSize⟩ :=
    bind_eq_ok.mpr ⟨twoDiffs, hvalue, bind_eq_ok.mpr ⟨_, hdecoded, rfl⟩⟩
  have hplain : PlainLine serde .orderDiffs twoDiffsLine := by
    intro value raw htokens hdecode event hevent
    obtain rfl := Except.ok.inj (hvalue.symm.trans htokens)
    obtain rfl := Except.ok.inj (hraw.symm.trans hdecode)
    simp only [List.mem_cons, List.not_mem_nil, or_false] at hevent
    obtain rfl | rfl := hevent
    · exact ⟨_, rfl⟩
    · exact ⟨_, rfl⟩
  have hloaded : loadSnapshots reader serde "[5,[[\"BTC\",[[],[]]]]]" .all =
      .ok (5, HashMap.collect [(⟨"BTC"⟩, ⟨[], []⟩)]) := by
    decide +kernel
  have hframe : ¬ Framed reader "[5,[[\"BTC\",[[],[]],3]]]" := by
    rintro ⟨height, books, rest, hread, hbooks, -⟩
    have hlong : reader.read "[5,[[\"BTC\",[[],[]],3]]]".toList = .ok (skippedBook [.num "3"], []) := by
      simp [reader]
    simp only [hlong, skippedBook, Except.ok.injEq, Prod.mk.injEq, Json.arr.injEq,
      List.cons.injEq] at hread
    obtain ⟨coin, sides, hbook⟩ := hbooks _ (hread.1.2.1 ▸ List.mem_singleton_self _)
    simp at hbook
  obtain ⟨hdiffs, -, -, hsnapshots, hframes⟩ := scoped_parsing_filters reader serde scope
  obtain ⟨kept, hkept, hkeeps⟩ := hdiffs twoDiffsLine _ hplain hbatch
  obtain ⟨books, hbooks, hlookup⟩ := hsnapshots _ _ _ hloaded
  refine ⟨⟨kept, hkept, ?_⟩, ⟨books, hbooks, ?_⟩, hframes _ hframe⟩
  · rw [hkeeps.events]
    decide
  · rw [hlookup]
    exact if_neg (by decide)

end OrderBookServer
