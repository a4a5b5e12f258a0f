import OrderBookServer.NodeData
import OrderBookServer.Results

/-!
# Reading in scope

A record whose events are objects is read in scope whenever it is read in full, and
gives the same block with the events of the other coins left out: an event that is
read in full names its coin to the probe. The snapshot of the node is read in the
same way, book by book.
-/
namespace OrderBookServer

/-! ### Events -/

namespace Json

/-- A field that is required is found alike by a record and by a probe. -/
theorem field_of_fields {optional names : List String} {fs : List (String × Json)}
    {values : List Json} {i : ℕ} {name : String} {value : Json}
    (h : (obj fs).fields optional names = .ok values) (hi : names[i]? = some name)
    (hv : values[i]? = some value) (hrequired : name ∉ optional) :
    (obj fs).fields [] [name] = .ok [value] := by
  have hfield : field optional fs name = .ok value := by
    obtain ⟨-, hget⟩ := List.forall₂_iff_get.mp (mapM_eq_ok.mp h)
    obtain ⟨hlt, rfl⟩ := List.getElem?_eq_some_iff.mp hi
    obtain ⟨hlt', rfl⟩ := List.getElem?_eq_some_iff.mp hv
    exact hget i hlt hlt'
  have hprobe : field [] fs name = .ok value := by
    unfold field at hfield ⊢
    split at hfield <;> simp_all
  rw [fields, List.mapM_cons, hprobe]
  rfl

theorem mem_of_field {fs : List (String × Json)} {name : String} {value : Json}
    (h : (obj fs).fields [] [name] = .ok [value]) : (name, value) ∈ fs := by
  simp only [fields, mapM_eq_ok, List.forall₂_cons, List.forall₂_nil_left_iff, and_true] at h
  unfold field at h
  split at h
  · rename_i f hfilter
    cases h
    have hm : f ∈ fs.filter fun f => f.1 = name := by simp [hfilter]
    rw [List.mem_filter] at hm
    obtain ⟨hm, hname⟩ := hm
    rwa [← of_decide_eq_true hname]
  · simp at h
  · cases h

/-- The value is an object. -/
def IsObject (value : Json) : Prop := ∃ fs, value = .obj fs

end Json

namespace SerdeJson

variable {serde : SerdeJson}

/-- How the node writes an event: a status and its order, a diff, and a fill beside
its user are objects. -/
def Plain : EventSource → Json → Prop
  | .orderStatuses, raw => ∃ fs, raw = .obj fs ∧ ∀ f ∈ fs, f.1 = "order" → f.2.IsObject
  | .orderDiffs, raw => raw.IsObject
  | .fills, raw => ∃ user fill, raw = .arr [user, fill] ∧ fill.IsObject

theorem coinProbe_of_l4Order {raw : Json} {order : L4Order} (hraw : raw.IsObject)
    (h : serde.l4Order raw = .ok order) : coinProbe raw = .ok order.coin := by
  obtain ⟨fs, rfl⟩ := hraw
  unfold l4Order at h
  obtain ⟨values, hvalues, h⟩ := bind_eq_ok.mp h
  split at h
  · have hprobe := Json.field_of_fields (i := 1) hvalues rfl rfl (by simp)
    simp only [bind_eq_ok] at h
    obtain ⟨_, -, coin, hcoin, h⟩ := h
    obtain ⟨_, -, _, -, _, -, _, -, _, -, _, -, _, -, _, -, _, -, _, -, _, -, _, -, _, -, h⟩ := h
    cases h
    rw [coinProbe, hprobe]
    exact hcoin
  · cases h

theorem orderStatusProbe_of_orderStatus {raw : Json} {status : NodeDataOrderStatus}
    (hraw : Plain .orderStatuses raw) (h : serde.orderStatus raw = .ok status) :
    orderStatusProbe raw = .ok status.order.coin := by
  obtain ⟨fs, rfl, horder⟩ := hraw
  unfold orderStatus at h
  obtain ⟨values, hvalues, h⟩ := bind_eq_ok.mp h
  split at h
  · have hprobe := Json.field_of_fields (i := 3) hvalues rfl rfl (by simp)
    simp only [bind_eq_ok] at h
    obtain ⟨_, -, _, -, _, -, order, ho, h⟩ := h
    cases h
    rw [orderStatusProbe, hprobe]
    exact coinProbe_of_l4Order (horder _ (Json.mem_of_field hprobe) rfl) ho
  · cases h

theorem coinProbe_of_orderDiff {raw : Json} {diff : NodeDataOrderDiff}
    (hraw : raw.IsObject) (h : serde.orderDiff raw = .ok diff) : coinProbe raw = .ok diff.coin := by
  obtain ⟨fs, rfl⟩ := hraw
  unfold orderDiff at h
  obtain ⟨values, hvalues, h⟩ := bind_eq_ok.mp h
  split at h
  · have hprobe := Json.field_of_fields (i := 3) hvalues rfl rfl (by simp)
    simp only [bind_eq_ok] at h
    obtain ⟨_, -, _, -, _, -, coin, hcoin, _, -, h⟩ := h
    cases h
    rw [coinProbe, hprobe]
    exact hcoin
  · cases h

theorem coinProbe_of_fill {raw : Json} {fill : Fill} (hraw : raw.IsObject)
    (h : serde.fill raw = .ok fill) : coinProbe raw = .ok fill.coin := by
  obtain ⟨fs, rfl⟩ := hraw
  unfold SerdeJson.fill at h
  obtain ⟨values, hvalues, h⟩ := bind_eq_ok.mp h
  split at h
  · have hprobe := Json.field_of_fields (i := 0) hvalues rfl rfl (by simp)
    simp only [bind_eq_ok] at h
    obtain ⟨coin, hcoin, h⟩ := h
    obtain ⟨_, -, _, -, _, -, _, -, _, -, _, -, _, -, _, -, _, -, _, -, _, -, _, -, _, -, _, -, h⟩ := h
    cases h
    rw [coinProbe, hprobe]
    exact hcoin
  · cases h

theorem fillProbe_of_nodeDataFill {raw : Json} {fill : NodeDataFill} (hraw : Plain .fills raw)
    (h : serde.nodeDataFill raw = .ok fill) : fillProbe raw = .ok fill.fill.coin := by
  obtain ⟨user, value, rfl, hvalue⟩ := hraw
  unfold nodeDataFill at h
  obtain ⟨⟨_, _⟩, hpair, h⟩ := bind_eq_ok.mp h
  cases hpair
  simp only [bind_eq_ok] at h
  obtain ⟨_, -, fill', hfill, h⟩ := h
  cases h
  exact coinProbe_of_fill hvalue hfill

end SerdeJson

/-- The events of a batch that are in scope. -/
def Batch.inScope {E : Type} (coin : E → String) (scope : CoinScope) (b : Batch E) : Batch E :=
  { b with events := b.events.filter fun e => scope.contains (coin e) }

def EventBatch.inScope (scope : CoinScope) : EventBatch → EventBatch
  | .orders b => .orders (b.inScope (fun s => s.order.coin) scope)
  | .bookDiffs b => .bookDiffs (b.inScope (fun d => d.coin) scope)
  | .fills b => .fills (b.inScope (fun f => f.fill.coin) scope)

namespace ScopedEvent

variable {E : Type}

/-- An event written as the node does names its coin to the probe. -/
def Probes (event : ScopedEvent E) (source : EventSource) : Prop :=
  ∀ raw e, SerdeJson.Plain source raw → event.decode raw = .ok e →
    event.probe raw = .ok (event.coin e)

theorem probes_statuses (serde : SerdeJson) : (statuses serde).Probes .orderStatuses :=
  fun _ _ hraw h => SerdeJson.orderStatusProbe_of_orderStatus hraw h

theorem probes_diffs (serde : SerdeJson) : (diffs serde).Probes .orderDiffs :=
  fun _ _ hraw h => SerdeJson.coinProbe_of_orderDiff hraw h

theorem probes_fills (serde : SerdeJson) : (fills serde).Probes .fills :=
  fun _ _ hraw h => SerdeJson.fillProbe_of_nodeDataFill hraw h

theorem decodeInScope_of_mapM {event : ScopedEvent E} {source : EventSource}
    (hevent : event.Probes source) (scope : CoinScope) {raws : List Json} {events : List E}
    (hplain : ∀ raw ∈ raws, SerdeJson.Plain source raw) (h : raws.mapM event.decode = .ok events) :
    event.decodeInScope scope raws =
      .ok (events.filter fun e => scope.contains (event.coin e)) := by
  rw [mapM_eq_ok] at h
  induction h with
  | nil => rfl
  | @cons raw e raws events he _ ih =>
    have hprobe := hevent raw e (hplain raw List.mem_cons_self) he
    have hrest := ih fun raw hm => hplain raw (List.mem_cons_of_mem _ hm)
    rw [decodeInScope, inScope, hprobe, List.filter_cons]
    by_cases hc : scope.contains (event.coin e) = true
    · simp [bind, Except.bind, pure, Except.pure, hc, he, hrest]
    · simp [bind, Except.bind, pure, Except.pure, hc, hrest]

end ScopedEvent

/-- The events of a line are written as the node does. -/
def PlainLine (serde : SerdeJson) (source : EventSource) (line : String) : Prop :=
  ∀ value raw, serde.tokenise line = .ok value → RawBatch.decode serde value = .ok raw →
    ∀ event ∈ raw.events, SerdeJson.Plain source event

/-- A record that is read in full is a raw record whose events are all read. -/
theorem Batch.parseInScope_full {E : Type} {serde : SerdeJson} {event : ScopedEvent E}
    {line : String} {full : CoinScope} (hfull : full.isAll = true) {batch : Batch E}
    (h : parseInScope serde event line full = .ok batch) :
    ∃ value raw, serde.tokenise line = .ok value ∧ RawBatch.decode serde value = .ok raw ∧
      raw.events.mapM event.decode = .ok batch.events ∧
      batch = ⟨raw.localTime, raw.blockTime, raw.blockNumber, batch.events, line.utf8ByteSize⟩ := by
  unfold parseInScope at h
  obtain ⟨value, hvalue, h⟩ := bind_eq_ok.mp h
  rw [if_pos hfull] at h
  obtain ⟨decoded, hdecoded, h⟩ := bind_eq_ok.mp h
  cases h
  unfold decode at hdecoded
  obtain ⟨raw, hraw, hdecoded⟩ := bind_eq_ok.mp hdecoded
  obtain ⟨events, hevents, hdecoded⟩ := bind_eq_ok.mp hdecoded
  cases hdecoded
  exact ⟨value, raw, hvalue, hraw, hevents, rfl⟩

theorem Batch.parseInScope_of_all {E : Type} {serde : SerdeJson} {event : ScopedEvent E}
    {source : EventSource} (hevent : event.Probes source) {line : String}
    (hplain : PlainLine serde source line) {full : CoinScope} (hfull : full.isAll = true)
    (scope : CoinScope) {batch : Batch E} (h : parseInScope serde event line full = .ok batch) :
    parseInScope serde event line scope = .ok (batch.inScope event.coin scope) := by
  by_cases hall : scope.isAll = true
  · have hsame : batch.inScope event.coin scope = batch := by
      simp [Batch.inScope, CoinScope.contains_of_isAll hall]
    rw [hsame, ← h]
    simp only [parseInScope, hall, hfull, if_true]
  · obtain ⟨value, raw, hvalue, hraw, hevents, hbatch⟩ := parseInScope_full hfull h
    have hscoped := ScopedEvent.decodeInScope_of_mapM hevent scope (hplain value raw hvalue hraw)
      hevents
    rw [hbatch]
    simp only [parseInScope, hvalue, bind, Except.bind, hall, hraw, hscoped]
    rfl

end OrderBookServer
