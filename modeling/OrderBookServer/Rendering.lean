import OrderBookServer.L4Updates

/-!
# What a turn may send

Everything that a turn of a connection sends is a reply, or it renders what the turn is
about: a frame of the views that were broadcast or of the books of that moment, the trades
or the updates of a coin in the batch, or the snapshot of a book.
-/
namespace OrderBookServer
namespace Connection

open OrderBookListener

/-- What may be sent in a turn. -/
inductive Renders (toString : ServerResponse → Except String String) : Event → Sent → Prop
  | reply (e : Event) (response : ServerResponse) : Renders toString e (.reply response)
  | frame {views : L2Snapshots} {time height : ℕ} {order : List Subscription} {start : ℕ}
      {now : Subscription → ℕ} {encoded : Subscription → Except String (Option String)}
      {sub : Subscription} {text : String}
      (h : BookWireCache.encode toString sub views time height = .ok (some text)) :
      Renders toString (.broadcast (.snapshot views time height) order start now encoded)
        (.frame sub height text)
  | trades {batch : Batch NodeDataFill} {order : List Subscription} {start : ℕ}
      {now : Subscription → ℕ} {encoded : Subscription → Except String (Option String)}
      {coin : String} {trades : List Trade} (h : (coinToTrades batch).lookup coin = some trades) :
      Renders toString (.broadcast (.fills batch) order start now encoded)
        (.push (.trades coin) (.trades trades))
  | updates {diffBatch : Batch NodeDataOrderDiff} {statusBatch : Batch NodeDataOrderStatus}
      {order : List Subscription} {start : ℕ} {now : Subscription → ℕ}
      {encoded : Subscription → Except String (Option String)} {coin : String}
      {updates : L4BookUpdates}
      (h : coinUpdates coin (.l4BookUpdates diffBatch statusBatch) = some updates) :
      Renders toString (.broadcast (.l4BookUpdates diffBatch statusBatch) order start now encoded)
        (.push (.l4Book coin) (.l4Book (.updates updates)))
  | first {sub : Subscription} {reading : Reading} {book : OrderBookState} {text : String}
      (hbook : reading.listener.orderBookState = some book)
      (h : BookWireCache.encode toString sub book.computeL2Snapshot.1.2.2 book.time book.height =
        .ok (some text)) :
      Renders toString (.request (.subscribe sub) reading) (.frame sub book.height text)
  | snapshot {coin : String} {reading : Reading} {book : OrderBookState}
      {orders : Snapshot InnerL4Order} (hbook : reading.listener.orderBookState = some book)
      (h : book.orderBook.toSnapshots.lookup ⟨coin⟩ = some orders) :
      Renders toString (.request (.subscribe (.l4Book coin)) reading)
        (.push (.l4Book coin) (.l4Book (.snapshot coin book.time book.height
          ⟨orders.bids.map L4Order.ofInner, orders.asks.map L4Order.ofInner⟩)))

/-- What was sent between the two connections. -/
def Adds (P : Sent → Prop) (before after : Connection) : Prop :=
  ∃ log, after.sent = before.sent ++ log ∧ ∀ x ∈ log, P x

variable {P : Sent → Prop} {self mid after : Connection} {x : Sent}

theorem Adds.refl (P : Sent → Prop) (self : Connection) : Adds P self self := ⟨[], by simp⟩

theorem Adds.of_sent_eq (h : after.sent = self.sent) : Adds P self after := ⟨[], by simp [h]⟩

theorem Adds.trans (h : Adds P self mid) (h' : Adds P mid after) : Adds P self after := by
  obtain ⟨log, hlog, hall⟩ := h
  obtain ⟨more, hmore, hrest⟩ := h'
  refine ⟨log ++ more, by rw [hmore, hlog, List.append_assoc], fun x hx => ?_⟩
  rw [List.mem_append] at hx
  exact hx.elim (hall x) (hrest x)

theorem adds_send (self : Connection) (hx : P x) : Adds P self (self.send x) :=
  ⟨[x], by simp [send, hx]⟩

variable {toString : ServerResponse → Except String String}
  {fromStr : String → Except String Subscription} {reading : Reading} {sub : Subscription}

theorem adds_reply (e : Event) (self : Connection) (response : ServerResponse) :
    Adds (Renders toString e) self (self.reply response) := adds_send self (.reply e response)

theorem adds_rollBack (e : Event) (self : Connection) (sub : Subscription) (message : String) :
    Adds (Renders toString e) self (self.rollBack sub message) :=
  (Adds.of_sent_eq rfl).trans (adds_reply e _ _)

/-- The snapshot that begins an L4 stream is of the live books. -/
theorem handleImmediateSnapshot_l4 {listener : OrderBookListener} {now : ℕ} {coin : String}
    {message : ServerResponse}
    (h : (Subscription.l4Book coin).handleImmediateSnapshot listener now = .ok (some message)) :
    ∃ book orders, listener.orderBookState = some book ∧
      book.orderBook.toSnapshots.lookup ⟨coin⟩ = some orders ∧
      message = .l4Book (.snapshot coin book.time book.height
        ⟨orders.bids.map L4Order.ofInner, orders.asks.map L4Order.ofInner⟩) := by
  unfold Subscription.handleImmediateSnapshot OrderBookListener.computeSnapshot at h
  cases hbook : listener.orderBookState with
  | none => simp [hbook] at h
  | some book =>
    simp only [hbook, Option.map_some, OrderBookState.computeSnapshot, bind, Except.bind] at h
    split at h
    · simp at h
    · split at h
      · rename_i orders horders
        simp only [Except.ok.injEq, Option.some.injEq] at h
        exact ⟨book, orders, rfl, horders, h.symm⟩
      · simp at h

theorem adds_startOther
    (hother : ∀ coin nSigFigs nLevels mantissa, sub ≠ .l2Book coin nSigFigs nLevels mantissa) :
    Adds (Renders toString (.request (.subscribe sub) reading)) self
      (self.startOther sub reading).1 := by
  have hconfirmed : Adds (Renders toString (.request (.subscribe sub) reading)) self _ :=
    adds_reply _ self (.subscriptionResponse (.subscribe sub))
  unfold startOther
  cases hmsg : sub.handleImmediateSnapshot reading.listener reading.now with
  | error err => exact adds_rollBack _ self sub _
  | ok snapshotMsg =>
    cases snapshotMsg with
    | none => exact hconfirmed
    | some message =>
      cases sub with
      | trades coin => simp [Subscription.handleImmediateSnapshot] at hmsg
      | l2Book coin nSigFigs nLevels mantissa => exact absurd rfl (hother _ _ _ _)
      | l4Book coin =>
        obtain ⟨book, orders, hbook, horders, rfl⟩ := handleImmediateSnapshot_l4 hmsg
        exact hconfirmed.trans (adds_send _ (.snapshot hbook horders))

end Connection
end OrderBookServer
