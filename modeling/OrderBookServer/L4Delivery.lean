import OrderBookServer.Broadcasts
import OrderBookServer.L4Updates

/-!
# L4 updates after a snapshot

A subscription to an L4 book begins with a snapshot of the live books, and then passes on
what is received. Blocks that the books already had may still wait to be received then:
they are passed on too, and only where none of them is about the coin do the updates start
right after the snapshot.
-/
namespace OrderBookServer

open OrderBookListener InternalMessage

/-! ### What was broadcast before and after -/

namespace InternalMessage

theorem Gapless.of_append {log more : List InternalMessage} (h : Gapless (log ++ more)) :
    Gapless log := fun before m after heq =>
  h before m (after ++ more) (by rw [heq, List.append_assoc, List.cons_append])

theorem blocks_mono {log log' : List InternalMessage} (h : log <+: log') :
    blocks log <+: blocks log' := by
  obtain ⟨more, rfl⟩ := h
  rw [blocks_append]
  exact List.prefix_append _ _

/-- No block since a gap is past the last one sent. -/
theorem Gapless.le_lastUpdate {before mid : List InternalMessage} (h : Gapless (before ++ mid))
    (hgap : mid.any isGap = false) {p : BlockPair} (hp : p ∈ blocks mid) :
    ∃ last, lastUpdate (before ++ mid) = some last ∧ p.1.blockNumber ≤ last.blockNumber := by
  induction mid using List.reverseRecOn with
  | nil => exact absurd hp List.not_mem_nil
  | append_singleton mid message ih =>
    rw [List.any_append, Bool.or_eq_false_iff] at hgap
    rw [← List.append_assoc] at h ⊢
    have hfollows : Follows (before ++ mid) message := h (before ++ mid) message [] rfl
    have ih := ih h.of_append hgap.1
    rw [blocks_append, hgap.1, if_neg Bool.false_ne_true] at hp
    cases message with
    | gap => cases hgap.2
    | snapshot views time height =>
      rw [lastUpdate_snapshot]
      exact ih (by simpa [blocks] using hp)
    | fills batch =>
      rw [lastUpdate_fills]
      exact ih (by simpa [blocks] using hp)
    | l4BookUpdates diffBatch statusBatch =>
      rw [lastUpdate_l4BookUpdates]
      refine ⟨statusBatch, rfl, ?_⟩
      obtain hp | hp := List.mem_append.mp hp
      · obtain ⟨last, hlast, hle⟩ := ih hp
        have := hfollows.2 last hlast
        omega
      · obtain rfl := List.mem_singleton.mp hp
        exact le_rfl

/-- The blocks up to a gap are sent with both their batches, and in order. -/
theorem Gapless.increasing {before mid : List InternalMessage} (h : Gapless (before ++ mid)) :
    (∀ p ∈ blocks mid, p.2.blockNumber = p.1.blockNumber) ∧
      (blocks mid).Pairwise (fun p q => p.1.blockNumber < q.1.blockNumber) := by
  induction mid using List.reverseRecOn with
  | nil => exact ⟨fun p hp => absurd hp List.not_mem_nil, .nil⟩
  | append_singleton mid message ih =>
    rw [← List.append_assoc] at h
    have hfollows : Follows (before ++ mid) message := h (before ++ mid) message [] rfl
    obtain ⟨hpaired, hordered⟩ := ih h.of_append
    rw [blocks_append]
    split_ifs with hgap
    · rw [List.append_nil]
      exact ⟨hpaired, hordered⟩
    · cases message with
      | gap => exact ⟨by simpa [blocks] using hpaired, by simpa [blocks] using hordered⟩
      | snapshot views time height =>
        exact ⟨by simpa [blocks] using hpaired, by simpa [blocks] using hordered⟩
      | fills batch => exact ⟨by simpa [blocks] using hpaired, by simpa [blocks] using hordered⟩
      | l4BookUpdates diffBatch statusBatch =>
        refine ⟨fun p hp => ?_, List.pairwise_append.mpr
          ⟨hordered, List.pairwise_singleton _ _, fun p hp q hq => ?_⟩⟩
        · obtain hp | hp := List.mem_append.mp hp
          · exact hpaired p hp
          · obtain rfl := List.mem_singleton.mp hp
            exact hfollows.1
        · obtain rfl := List.mem_singleton.mp hq
          obtain ⟨last, hlast, hle⟩ := h.of_append.le_lastUpdate (Bool.not_eq_true _ ▸ hgap) hp
          have := hfollows.2 last hlast
          show p.1.blockNumber < statusBatch.blockNumber
          omega

end InternalMessage

/-- The updates of a coin in a block. -/
def blockUpdates (coin : String) (p : BlockPair) : Option L4BookUpdates :=
  coinUpdates coin (.l4BookUpdates p.2 p.1)

theorem height_of_blockUpdates {coin : String} {p : BlockPair} {updates : L4BookUpdates}
    (h : blockUpdates coin p = some updates) : updates.height = p.2.blockNumber := by
  obtain ⟨all, hall, hlookup⟩ := Option.bind_eq_some_iff.mp h
  obtain ⟨time, -, heq⟩ := lookup_coinToBookUpdates hall coin
  rw [heq] at hlookup
  split_ifs at hlookup
  rw [← Option.some.inj hlookup]

theorem filterMap_coinUpdates (coin : String) {messages : List InternalMessage}
    (h : messages.any isGap = false) :
    messages.filterMap (coinUpdates coin) =
      (blocks messages).filterMap (blockUpdates coin) := by
  induction messages with
  | nil => rfl
  | cons message rest ih =>
    rw [List.any_cons, Bool.or_eq_false_iff] at h
    have ih := ih h.2
    cases message with
    | gap => cases h.1
    | snapshot views time height => exact ih
    | fills batch => exact ih
    | l4BookUpdates diffBatch statusBatch =>
      rw [List.filterMap_cons, ih, blocks, List.filterMap_cons]
      rfl

/-- A last message may also be a gap. -/
theorem filterMap_coinUpdates_snoc (coin : String) {messages : List InternalMessage}
    (h : messages.any isGap = false) (message : InternalMessage) :
    (messages ++ [message]).filterMap (coinUpdates coin) =
      (blocks (messages ++ [message])).filterMap (blockUpdates coin) := by
  cases message with
  | gap =>
    rw [List.filterMap_append, blocks_append, h, if_neg Bool.false_ne_true,
      filterMap_coinUpdates coin h]
    simp [blocks, coinUpdates]
  | snapshot views time height => exact filterMap_coinUpdates coin (by simp [h, isGap])
  | fills batch => exact filterMap_coinUpdates coin (by simp [h, isGap])
  | l4BookUpdates diffBatch statusBatch => exact filterMap_coinUpdates coin (by simp [h, isGap])

/-! ### A connection and its listener -/

structure Socket where
  fetch : FetchWorld
  connection : Connection
  goesOn : Bool
  /-- How many messages had been sent when the connection was opened. -/
  joined : ℕ
  /-- How many have been received, those before it was opened among them. -/
  received : ℕ

namespace Socket

/-- All messages the listener has sent. -/
def messages (self : Socket) : List InternalMessage :=
  self.fetch.listener.internalMessageTx.getD []

def seen (self : Socket) : List InternalMessage := self.messages.take self.received

/-- The messages that wait in the receiver. -/
def waiting (self : Socket) : List InternalMessage := self.messages.drop self.received

/-- One turn of the loop of the connection. -/
def turn (fromStr : String → Except String Subscription) (ignoreSpot : Bool) (self : Socket)
    (e : Connection.Event) : Socket :=
  { self with
    connection := (self.connection.step fromStr ignoreSpot e).1
    goesOn := (self.connection.step fromStr ignoreSpot e).2 }

/-- The listener does something, or the connection takes one of its turns. -/
inductive Step (serde : SerdeJson) (fromStr : String → Except String Subscription)
    (ignoreSpot : Bool) : Socket → Socket → Prop
  | listener {w : Socket} {fetch : FetchWorld} (h : FetchWorld.Step serde w.fetch fetch) :
      Step serde fromStr ignoreSpot w { w with fetch := fetch }
  | receive {w : Socket} {message : InternalMessage} (order : List Subscription) (start : ℕ)
      (now : Subscription → ℕ) (encoded : Subscription → Except String (Option String))
      (hopen : w.goesOn = true) (hnext : w.messages[w.received]? = some message)
      (hwalks : w.connection.Walks order) :
      Step serde fromStr ignoreSpot w
        { w.turn fromStr ignoreSpot (.broadcast message order start now encoded) with
          received := w.received + 1 }
  | request {w : Socket} (message : ClientMessage) (reading : Connection.Reading)
      (hopen : w.goesOn = true) (hlistener : reading.listener = w.fetch.listener) :
      Step serde fromStr ignoreSpot w (w.turn fromStr ignoreSpot (.request message reading))
  | malformed {w : Socket} (text : String) (hopen : w.goesOn = true) :
      Step serde fromStr ignoreSpot w (w.turn fromStr ignoreSpot (.malformed text))
  /-- The client goes away, or the receiver has fallen behind. -/
  | closed (w : Socket) : Step serde fromStr ignoreSpot w { w with goesOn := false }

/-- A connection that is opened in a run of the listener. The coins are read later than the
receiver is made. -/
inductive Opened (serde : SerdeJson) (limits : ResourceLimits) (ignoreSpot : Bool)
    (scope : CoinScope) : Socket → Prop
  | intro {fetch : FetchWorld} {log : List InternalMessage} (listener : OrderBookListener)
      (h : Relation.ReflTransGen (FetchWorld.Step serde) (.start limits ignoreSpot scope) fetch)
      (hlog : fetch.listener.internalMessageTx = some log) :
      Opened serde limits ignoreSpot scope
        ⟨fetch, .start listener, true, log.length, log.length⟩

/-- What holds of every run of a connection. -/
structure Sound (w : Socket) : Prop where
  fetch : FetchWorld.Sound w.fetch
  held : w.goesOn = true → heldIn w.connection.sent = w.connection.manager.subscriptions
  joined : w.joined ≤ w.received
  received : w.received ≤ w.messages.length
  gapless : w.goesOn = true → (w.seen.drop w.joined).any isGap = false

variable {serde : SerdeJson} {fromStr : String → Except String Subscription} {ignoreSpot : Bool}
  {limits : ResourceLimits} {scope : CoinScope} {w w' : Socket}

theorem messages_append (w : Socket) : w.messages = w.seen ++ w.waiting :=
  (List.take_append_drop _ _).symm

/-- The listener only adds messages. -/
theorem messages_advances {more : List InternalMessage} {fetch : FetchWorld} (hs : Sound w)
    (h : Advances w.fetch.listener fetch.listener more) :
    ({ w with fetch := fetch } : Socket).messages = w.messages ++ more := by
  obtain ⟨log, hlog⟩ := hs.fetch.publishes
  unfold messages
  rw [h.sent, hlog.sender]
  rfl

theorem seen_advances {more : List InternalMessage} {fetch : FetchWorld} (hs : Sound w)
    (h : Advances w.fetch.listener fetch.listener more) :
    ({ w with fetch := fetch } : Socket).seen = w.seen := by
  unfold seen
  rw [messages_advances hs h]
  exact List.take_append_of_le_length hs.received

theorem seen_receive {message : InternalMessage} (hnext : w.messages[w.received]? = some message) :
    w.messages.take (w.received + 1) = w.seen ++ [message] := by
  rw [List.take_add_one, hnext]
  rfl

theorem Sound.publishing (hs : Sound w) : Publishing w.fetch.listener w.messages := by
  obtain ⟨log, hlog⟩ := hs.fetch.publishes
  rw [messages, hlog.sender]
  exact hlog

theorem Opened.sound (h : Opened serde limits ignoreSpot scope w) : Sound w := by
  cases h with
  | @intro fetch log listener h hlog =>
    have hmessages : (⟨fetch, .start listener, true, log.length, log.length⟩ : Socket).messages =
        log := by
      rw [messages, hlog, Option.getD_some]
    refine ⟨FetchWorld.run_sound h, fun _ => rfl, le_rfl, ?_, fun _ => ?_⟩
    · rw [hmessages]
    · show (List.drop log.length (List.take log.length _)).any isGap = false
      rw [List.drop_eq_nil_of_le (List.length_take_le _ _), List.any_nil]

/-- A turn tells the client what is held. -/
theorem Sound.turn (hs : Sound w) {e : Connection.Event} (hopen : w.goesOn = true)
    (hwalks : e.Walks w.connection) (hgoes : (w.turn fromStr ignoreSpot e).goesOn = true) :
    heldIn (w.turn fromStr ignoreSpot e).connection.sent =
      (w.turn fromStr ignoreSpot e).connection.manager.subscriptions := by
  obtain ⟨log, -, hsaid, -⟩ := Connection.step_tells fromStr ignoreSpot hwalks ""
  exact (hsaid hgoes).heldIn (hs.held hopen)

theorem Sound.step (hs : Sound w) (h : Step serde fromStr ignoreSpot w w') : Sound w' := by
  cases h with
  | @listener fetch h =>
    obtain ⟨more, hmore⟩ := FetchWorld.step_advances hs.fetch h
    refine ⟨FetchWorld.step_sound hs.fetch h, hs.held, hs.joined, ?_, fun hgoes => ?_⟩
    · rw [messages_advances hs hmore, List.length_append]
      exact hs.received.trans (Nat.le_add_right _ _)
    · rw [seen_advances hs hmore]
      exact hs.gapless hgoes
  | @receive message order start now encoded hopen hnext hwalks =>
    obtain ⟨hlt, -⟩ := List.getElem?_eq_some_iff.mp hnext
    refine ⟨hs.fetch, hs.turn hopen hwalks, Nat.le_succ_of_le hs.joined, hlt, fun hgoes => ?_⟩
    show ((w.messages.take (w.received + 1)).drop w.joined).any isGap = false
    have hjoined : w.joined ≤ w.seen.length := by
      rw [seen, List.length_take, Nat.min_eq_left hs.received]
      exact hs.joined
    rw [seen_receive hnext, List.drop_append_of_le_length hjoined, List.any_append,
      hs.gapless hopen]
    cases message with
    | gap => cases hgoes
    | snapshot views time height => rfl
    | fills batch => rfl
    | l4BookUpdates diffBatch statusBatch => rfl
  | request message reading hopen hlistener =>
    exact ⟨hs.fetch, hs.turn hopen trivial, hs.joined, hs.received, fun _ => hs.gapless hopen⟩
  | malformed text hopen =>
    exact ⟨hs.fetch, hs.turn hopen trivial, hs.joined, hs.received, fun _ => hs.gapless hopen⟩
  | closed =>
    exact ⟨hs.fetch, fun hopen => (nomatch hopen), hs.joined, hs.received,
      fun hopen => (nomatch hopen)⟩

/-! ### From a subscription on -/

/-- What was sent and received since. -/
structure Since (coin : String) (w w' : Socket) (log : List Sent)
    (since : List InternalMessage) : Prop where
  sent : w'.connection.sent = w.connection.sent ++ log
  seen : w'.seen = w.seen ++ since
  gapless : w'.goesOn = true → since.any isGap = false
  delivered : .l4Book coin ∈ heldIn w.connection.sent →
    .reply (.subscriptionResponse (.unsubscribe (.l4Book coin))) ∉ log →
    updatesFor (.l4Book coin) log <+: (blocks since).filterMap (blockUpdates coin) ∧
      (w'.goesOn = true →
        updatesFor (.l4Book coin) log = (blocks since).filterMap (blockUpdates coin))

variable {coin : String} {log : List Sent} {since after : List InternalMessage} {w'' : Socket}

theorem Since.refl (coin : String) (w : Socket) : Since coin w w [] [] where
  sent := (List.append_nil _).symm
  seen := (List.append_nil _).symm
  gapless _ := rfl
  delivered _ _ := ⟨List.prefix_refl _, fun _ => rfl⟩

/-- Only its end takes a subscription from what is held. -/
theorem mem_hold {sub : Subscription} {subscriptions : Finset Subscription}
    (hheld : sub ∈ subscriptions)
    (hlog : .reply (.subscriptionResponse (.unsubscribe sub)) ∉ log) :
    sub ∈ log.foldl Sent.hold subscriptions := by
  induction log generalizing subscriptions with
  | nil => exact hheld
  | cons x log ih =>
    rw [List.mem_cons, not_or] at hlog
    refine ih ?_ hlog.2
    unfold Sent.hold
    split
    · exact Finset.mem_insert_of_mem hheld
    · rename_i other
      have hne : sub ≠ other := by
        rintro rfl
        exact hlog.1 rfl
      exact Finset.mem_erase.mpr ⟨hne, hheld⟩
    · exact hheld

theorem Since.turn (hs : Sound w') (h : Since coin w w' log since) (hopen : w'.goesOn = true)
    {e : Connection.Event} (hwalks : e.Walks w'.connection) {received : ℕ}
    (hseen : w'.messages.take received = w'.seen ++ after)
    (hgapless : (w'.turn fromStr ignoreSpot e).goesOn = true → after.any isGap = false)
    (hblocks : (blocks (since ++ after)).filterMap (blockUpdates coin) =
      (blocks since).filterMap (blockUpdates coin) ++ e.updates coin) :
    ∃ more, Since coin w { w'.turn fromStr ignoreSpot e with received := received }
      (log ++ more) (since ++ after) := by
  obtain ⟨more, hsent, -, hupdates⟩ := Connection.step_tells fromStr ignoreSpot hwalks coin
  refine ⟨more, ?_, ?_, fun hon => ?_, fun hheld hkept => ?_⟩
  · exact hsent.trans (by rw [h.sent, List.append_assoc])
  · exact hseen.trans (by rw [h.seen, List.append_assoc])
  · rw [List.any_append, h.gapless hopen, hgapless hon]
    rfl
  · rw [List.mem_append, not_or] at hkept
    have hmem : .l4Book coin ∈ w'.connection.manager.subscriptions := by
      rw [← hs.held hopen, h.sent, heldIn, List.foldl_append]
      exact mem_hold hheld hkept.1
    obtain ⟨hpre, hall⟩ := hupdates hmem
    rw [hblocks, updatesFor_append, (h.delivered hheld hkept.1).2 hopen]
    refine ⟨List.prefix_append_right_inj _ |>.mpr hpre, fun hon => ?_⟩
    rw [hall hon]

/-- A turn that receives nothing. -/
theorem Since.quiet (hs : Sound w') (h : Since coin w w' log since) (hopen : w'.goesOn = true)
    {e : Connection.Event} (hwalks : e.Walks w'.connection) (hnone : e.updates coin = []) :
    ∃ more, Since coin w (w'.turn fromStr ignoreSpot e) (log ++ more) (since ++ []) := by
  refine h.turn hs hopen hwalks (List.append_nil _).symm (fun _ => rfl) ?_
  rw [hnone, List.append_nil, List.append_nil]

theorem Since.step (hs : Sound w') (h : Since coin w w' log since)
    (hstep : Step serde fromStr ignoreSpot w' w'') :
    ∃ more after, Since coin w w'' (log ++ more) (since ++ after) := by
  cases hstep with
  | @listener fetch hfetch =>
    obtain ⟨_, hmore⟩ := FetchWorld.step_advances hs.fetch hfetch
    refine ⟨[], [], ?_⟩
    rw [List.append_nil, List.append_nil]
    exact ⟨h.sent, (seen_advances hs hmore).trans h.seen, h.gapless, h.delivered⟩
  | @receive message order start now encoded hopen hnext hwalks =>
    have hblocks : (blocks (since ++ [message])).filterMap (blockUpdates coin) =
        (blocks since).filterMap (blockUpdates coin) ++ (coinUpdates coin message).toList := by
      rw [← filterMap_coinUpdates_snoc coin (h.gapless hopen) message, List.filterMap_append,
        filterMap_coinUpdates coin (h.gapless hopen)]
      cases hcoin : coinUpdates coin message <;> simp [hcoin]
    have hgapless : (w'.turn fromStr ignoreSpot
        (.broadcast message order start now encoded)).goesOn = true →
          [message].any isGap = false := by
      intro hon
      cases message with
      | gap => cases hon
      | snapshot views time height => rfl
      | fills batch => rfl
      | l4BookUpdates diffBatch statusBatch => rfl
    obtain ⟨more, hmore⟩ := h.turn hs hopen (e := .broadcast message order start now encoded)
      hwalks (seen_receive hnext) hgapless hblocks
    exact ⟨more, [message], hmore⟩
  | request message reading hopen hlistener =>
    obtain ⟨more, hmore⟩ := h.quiet hs hopen (e := .request message reading) trivial rfl
    exact ⟨more, [], hmore⟩
  | malformed text hopen =>
    obtain ⟨more, hmore⟩ := h.quiet hs hopen (e := .malformed text) trivial rfl
    exact ⟨more, [], hmore⟩
  | closed =>
    refine ⟨[], [], ?_⟩
    rw [List.append_nil, List.append_nil]
    exact ⟨h.sent, h.seen, fun hon => (nomatch hon), fun hheld hkept =>
      ⟨(h.delivered hheld hkept).1, fun hon => (nomatch hon)⟩⟩

/-- Along a run, the listener adds messages and the connection takes them in turn. -/
theorem Sound.run (hs : Sound w) (coin : String)
    (hrun : Relation.ReflTransGen (Step serde fromStr ignoreSpot) w w') :
    Sound w' ∧ (∃ more, Advances w.fetch.listener w'.fetch.listener more) ∧
      ∃ log since, Since coin w w' log since := by
  induction hrun with
  | refl => exact ⟨hs, ⟨[], .congr rfl rfl⟩, [], [], .refl coin w⟩
  | @tail mid last _ hstep ih =>
    obtain ⟨hmid, ⟨more, hadvances⟩, log, since, hsince⟩ := ih
    obtain ⟨_, _, hlast⟩ := hsince.step hmid hstep
    refine ⟨hmid.step hstep, ?_, _, _, hlast⟩
    cases hstep with
    | listener h =>
      obtain ⟨_, hnext⟩ := FetchWorld.step_advances hmid.fetch h
      exact ⟨_, hadvances.trans hnext⟩
    | receive => exact ⟨more, hadvances⟩
    | request => exact ⟨more, hadvances⟩
    | malformed => exact ⟨more, hadvances⟩
    | closed => exact ⟨more, hadvances⟩

/-- The client subscribes to an L4 book, and is sent its snapshot. -/
structure Subscribes (fromStr : String → Except String Subscription) (ignoreSpot : Bool)
    (coin : String) (height : ℕ) (w w' : Socket) : Prop where
  turn : ∃ reading : Connection.Reading, reading.listener = w.fetch.listener ∧
    w' = w.turn fromStr ignoreSpot (.request (.subscribe (.l4Book coin)) reading)
  goesOn : w.goesOn = true
  answer : ∃ time levels, w'.connection.sent = w.connection.sent ++
    [.reply (.subscriptionResponse (.subscribe (.l4Book coin))),
      .push (.l4Book coin) (.l4Book (.snapshot coin time height levels))]

/-- The snapshot is of the live books. -/
theorem Subscribes.live {height : ℕ} (h : Subscribes fromStr ignoreSpot coin height w w') :
    ∃ s, w.fetch.listener.orderBookState = some s ∧ s.height = height := by
  obtain ⟨⟨reading, hlistener, rfl⟩, -, time, levels, hanswer⟩ := h
  have hsent : (w.connection.receiveClientMessage fromStr (.subscribe (.l4Book coin))
      reading).1.sent = _ := hanswer
  obtain ⟨message, hout⟩ | ⟨hnew, -, hout⟩ :=
    Connection.receive_subscribe fromStr w.connection (.l4Book coin) reading
  · rw [hout] at hsent
    have := List.append_cancel_left hsent
    cases this
  · rw [hout] at hsent
    have hstart : ((w.connection.subscribed (.l4Book coin)).startOther (.l4Book coin)
        reading).1.sent = _ := hsent
    unfold Connection.startOther at hstart
    cases hmsg : (Subscription.l4Book coin).handleImmediateSnapshot reading.listener reading.now with
    | error err =>
      rw [hmsg] at hstart
      dsimp only at hstart
      rw [Connection.rollBack_subscribed hnew] at hstart
      cases List.append_cancel_left hstart
    | ok snapshotMsg =>
      cases snapshotMsg with
      | none =>
        rw [hmsg] at hstart
        cases List.append_cancel_left hstart
      | some message =>
        obtain ⟨coin', s, levels', -, hs, rfl⟩ :=
          Connection.handleImmediateSnapshot_other (by simp) hmsg
        rw [hmsg] at hstart
        have hcons := List.append_cancel_left ((List.append_assoc _ _ _).symm.trans hstart)
        cases hcons
        exact ⟨s, hlistener ▸ hs, rfl⟩

theorem Step.request_of_subscribes (serde : SerdeJson) {height : ℕ}
    (h : Subscribes fromStr ignoreSpot coin height w w') : Step serde fromStr ignoreSpot w w' := by
  obtain ⟨⟨reading, hlistener, rfl⟩, hopen, -⟩ := h
  exact .request _ reading hopen hlistener

/-- What is received comes from what waited and what the listener has added. -/
theorem Since.received {more : List InternalMessage} (hs : Sound w)
    (h : Since coin w w' log since)
    (hadvances : Advances w.fetch.listener w'.fetch.listener more) :
    since <+: w.waiting ++ more := by
  have hmessages : w'.messages = w.seen ++ (w.waiting ++ more) := by
    rw [← List.append_assoc, ← messages_append]
    exact messages_advances hs hadvances
  have htake : w'.seen <+: w'.messages := List.take_prefix _ _
  rw [h.seen, hmessages] at htake
  exact (List.prefix_append_right_inj _).mp htake

/-- Without a gap, no block that was received is past the live books. -/
theorem Sound.le_of_mem_seen (hs : Sound w) (hopen : w.goesOn = true)
    (hgap : w.waiting.any isGap = false) {s : OrderBookState}
    (hlive : w.fetch.listener.orderBookState = some s) {p : BlockPair}
    (hp : p ∈ blocks (w.seen.drop w.joined)) : p.1.blockNumber ≤ s.height := by
  have hsplit : w.messages = w.seen.take w.joined ++ (w.seen.drop w.joined ++ w.waiting) := by
    rw [← List.append_assoc, List.take_append_drop, ← messages_append]
  have hnone : (w.seen.drop w.joined ++ w.waiting).any isGap = false := by
    rw [List.any_append, hs.gapless hopen, hgap]
    rfl
  have hmem : p ∈ blocks (w.seen.drop w.joined ++ w.waiting) :=
    (blocks_mono (List.prefix_append _ _)).subset hp
  have hgapless := hs.publishing.gapless
  rw [hsplit] at hgapless
  obtain ⟨last, hlast, hle⟩ := hgapless.le_lastUpdate hnone hmem
  rw [← hsplit] at hlast
  have := (hs.publishing.update s last hlive hlast).1
  omega

/-- Where no block of the snapshot that is about the coin waits to be received, the updates
sent are those of the blocks after it, in order and once each: all those received, as long as
the connection goes on, and none of them was received before. -/
theorem l4_updates_start_after_the_snapshot {w₀ : Socket} {height : ℕ}
    (hopened : Opened serde limits ignoreSpot scope w₀)
    (hbefore : Relation.ReflTransGen (Step serde fromStr ignoreSpot) w₀ w)
    (hsubscribes : Subscribes fromStr ignoreSpot coin height w w')
    (hclear : ∀ p ∈ blocks w.waiting, blockUpdates coin p ≠ none → height < p.1.blockNumber)
    (hafter : Relation.ReflTransGen (Step serde fromStr ignoreSpot) w' w'')
    (hlog : w''.connection.sent = w'.connection.sent ++ log)
    (hkept : .reply (.subscriptionResponse (.unsubscribe (.l4Book coin))) ∉ log) :
    ∃ since, w''.seen = w.seen ++ since ∧
      (blocks since).Pairwise (fun p q => p.1.blockNumber < q.1.blockNumber) ∧
      updatesFor (.l4Book coin) log <+:
        ((blocks since).filter (height < ·.1.blockNumber)).filterMap (blockUpdates coin) ∧
      (w''.goesOn = true → updatesFor (.l4Book coin) log =
        ((blocks since).filter (height < ·.1.blockNumber)).filterMap (blockUpdates coin)) ∧
      (∀ updates ∈ updatesFor (.l4Book coin) log, height < updates.height) ∧
      (w.waiting.any isGap = false →
        ∀ p ∈ blocks (w.seen.drop w.joined), p.1.blockNumber ≤ height) := by
  obtain ⟨hs, -⟩ := hopened.sound.run coin hbefore
  have hs' : Sound w' := hs.step (.request_of_subscribes serde hsubscribes)
  obtain ⟨hs'', ⟨more, hadvances⟩, _, since, hsince⟩ := hs'.run coin hafter
  obtain ⟨s, hlive, hheight⟩ := hsubscribes.live
  obtain ⟨⟨reading, hlistener, rfl⟩, hopen, time, levels, hanswer⟩ := hsubscribes
  obtain rfl := List.append_cancel_left (hsince.sent.symm.trans hlog)
  have hseen : w''.seen = w.seen ++ since := hsince.seen
  have hpast : ∀ p ∈ blocks since, blockUpdates coin p ≠ none → height < p.1.blockNumber := by
    intro p hp hcoin
    have hp := (blocks_mono (hsince.received hs' hadvances)).subset hp
    rw [blocks_append] at hp
    obtain hp | hp := List.mem_append.mp hp
    · exact hclear p hp hcoin
    · split_ifs at hp
      · exact absurd hp List.not_mem_nil
      · exact hheight ▸ (hadvances.consecutive s hlive).lt_of_mem hp
  have hdue : ((blocks since).filter (height < ·.1.blockNumber)).filterMap (blockUpdates coin) =
      (blocks since).filterMap (blockUpdates coin) := by
    rw [List.filterMap_filter]
    refine List.filterMap_congr fun p hp => ?_
    by_cases hcoin : blockUpdates coin p = none
    · rw [hcoin, ite_self]
    · rw [if_pos (decide_eq_true (hpast p hp hcoin))]
  have hheld : .l4Book coin ∈ heldIn
      (w.turn fromStr ignoreSpot (.request (.subscribe (.l4Book coin)) reading)).connection.sent := by
    rw [hanswer, heldIn, List.foldl_append]
    exact Finset.mem_insert_self _ _
  obtain ⟨hsome, hall⟩ := hsince.delivered hheld hkept
  have hgapless := hs''.publishing.gapless
  rw [messages_append, hseen] at hgapless
  obtain ⟨hpaired, hordered⟩ := hgapless.of_append.increasing
  refine ⟨since, hseen, hordered, ?_, ?_, fun updates hupdates => ?_, fun hgap p hp => ?_⟩
  · rw [hdue]
    exact hsome
  · rw [hdue]
    exact hall
  · obtain ⟨p, hp, hcoin⟩ := List.mem_filterMap.mp (hsome.subset hupdates)
    rw [height_of_blockUpdates hcoin, hpaired p hp]
    exact hpast p hp (by rw [hcoin]; exact Option.some_ne_none _)
  · exact hheight ▸ hs.le_of_mem_seen hopen hgap hlive hp

/-! ### The block of height 6 -/

def restingSnapshot : Snapshots InnerL4Order := Finmap.singleton ⟨"BTC"⟩ ⟨[.unitBid "BTC" 5], []⟩

def restingAtFive : OrderBookListener :=
  ((OrderBookListener.new (some []) false .all).initFromSnapshot restingSnapshot 5).1

/-- A turn that moves nothing, and the block of height 6 that removes the order. -/
def blockSixTurns : Option (OrderBookListener × OrderBookListener) :=
  (restingAtFive.turn blockSixReader (SerdeJson.emptyBlockLine ++ "\n") .orderStatuses
    fun _ => 0).bind fun before =>
      (before.turn blockSixReader (arrayDiffLine ++ "\n") .orderDiffs fun _ => 0).map
        fun after => (before, after)

def unread : String → Except String Subscription := fun _ => .error "no L2 book"

def subscribeBtc (listener : OrderBookListener) : Connection.Event :=
  .request (.subscribe (.l4Book "BTC")) ⟨listener, 0, 0, .ok none, .ok none⟩

def receiveFor (message : InternalMessage) : Connection.Event :=
  .broadcast message [.l4Book "BTC"] 0 (fun _ => 0) (fun _ => .ok none)

/-- A client that is sent the snapshot of a listener, and then the updates of a message. -/
def Told (listener reader : OrderBookListener) (message : InternalMessage) (height : ℕ)
    (levels : Snapshot L4Order) : Prop :=
  let out := (Connection.start listener).step unread false (subscribeBtc reader)
  out.2 = true ∧ out.1.manager.subscriptions = {.l4Book "BTC"} ∧
    out.1.sent = [.reply (.subscriptionResponse (.subscribe (.l4Book "BTC"))),
      .push (.l4Book "BTC") (.l4Book (.snapshot "BTC" 0 height levels))] ∧
    (out.1.step unread false (receiveFor message)).1.sent =
      out.1.sent ++ (coinUpdates "BTC" message).toList.map fun updates =>
        .push (.l4Book "BTC") (.l4Book (.updates updates))

instance (listener reader : OrderBookListener) (message : InternalMessage) (height : ℕ)
    (levels : Snapshot L4Order) : Decidable (Told listener reader message height levels) :=
  inferInstanceAs (Decidable (_ ∧ _ ∧ _ ∧ _))

theorem blockSix_told : ∃ p ∈ blockSixTurns, ∃ log ∈ p.1.internalMessageTx,
    ∃ message ∈ (p.2.internalMessageTx.getD [])[log.length]?,
      (coinUpdates "BTC" message).map L4BookUpdates.height = some 6 ∧
      Told p.1 p.1 message 5 ⟨[.ofInner (.unitBid "BTC" 5)], []⟩ ∧ Told p.1 p.2 message 6 ⟨[], []⟩ := by
  simp only [blockSixTurns, OrderBookListener.turn,
    processData_line arrayDiffLine (by decide) (by decide +kernel),
    processData_line SerdeJson.emptyBlockLine (by decide) (by decide +kernel)]
  decide +kernel

/-- A connection that is opened after a log. -/
def opened (listener : OrderBookListener) (log : List InternalMessage) : Socket :=
  ⟨⟨listener, none⟩, .start listener, true, log.length, log.length⟩

theorem opened_before_blockSix {before after : OrderBookListener}
    (h : (before, after) ∈ blockSixTurns) {log : List InternalMessage}
    (hlog : before.internalMessageTx = some log) :
    Opened blockSixReader .DEFAULT false .all (opened before log) ∧
    FetchWorld.Step blockSixReader ⟨before, none⟩ ⟨after, none⟩ := by
  obtain ⟨mid, hmid, h⟩ := Option.bind_eq_some_iff.mp h
  obtain ⟨last, hlast, h⟩ := Option.map_eq_some_iff.mp h
  cases h
  have hready := FetchWorld.run_first_fetch blockSixReader false restingSnapshot
  exact ⟨.intro before (hready.tail (.progress (.turn _ _ _ hmid))) hlog,
    .progress (.turn _ _ _ hlast)⟩

theorem subscribes_of_told {listener : OrderBookListener} {message : InternalMessage} {height : ℕ}
    {levels : Snapshot L4Order} (hopen : w.goesOn = true)
    (hconnection : w.connection = .start listener)
    (h : Told listener w.fetch.listener message height levels) :
    Subscribes unread false "BTC" height w (w.turn unread false (subscribeBtc w.fetch.listener)) := by
  obtain ⟨-, -, hsent, -⟩ := h
  refine ⟨⟨_, rfl, rfl⟩, hopen, 0, levels, ?_⟩
  rw [turn, hconnection]
  exact hsent

/-- The client subscribes at height 5, and is sent the updates of the block of height 6. -/
theorem l4_updates_start_after_the_snapshot_block_six : ∃ (w w' w'' : Socket)
    (updates : L4BookUpdates) (since : List InternalMessage),
    Subscribes unread false "BTC" 5 w w' ∧
      w''.connection.sent =
        w'.connection.sent ++ [.push (.l4Book "BTC") (.l4Book (.updates updates))] ∧
      updates.height = 6 ∧ w''.seen = w.seen ++ since ∧
      [updates] <+: ((blocks since).filter (5 < ·.1.blockNumber)).filterMap (blockUpdates "BTC") := by
  obtain ⟨⟨before, after⟩, hturns, log, hlog, message, hmessage, hupdates, htold, -⟩ :=
    blockSix_told
  obtain ⟨hopened, hsix⟩ := opened_before_blockSix hturns hlog
  obtain ⟨updates, hcoin, hheight⟩ := Option.map_eq_some_iff.mp hupdates
  have hsubscribes := subscribes_of_told (w := opened before log) rfl rfl htold
  obtain ⟨hgoes, hheld, -, hsent⟩ := htold
  rw [hcoin] at hsent
  have hwalks : Connection.Walks _ [.l4Book "BTC"] :=
    ⟨List.nodup_singleton _, (hheld.trans rfl).symm⟩
  have hlisten : Step blockSixReader unread false
      ((opened before log).turn unread false (subscribeBtc before))
      { (opened before log).turn unread false (subscribeBtc before) with fetch := ⟨after, none⟩ } :=
    .listener hsix
  have hnone : (opened before log).waiting = [] := by
    have hmessages : (opened before log).messages = log := by
      rw [messages, opened, hlog, Option.getD_some]
    rw [waiting, hmessages]
    exact List.drop_length
  obtain ⟨since, hseen, -, hpre, -⟩ := l4_updates_start_after_the_snapshot hopened .refl
    hsubscribes (by simp [hnone, blocks])
    ((Relation.ReflTransGen.single hlisten).tail
      (.receive [.l4Book "BTC"] 0 (fun _ => 0) (fun _ => .ok none) hgoes hmessage hwalks))
    hsent (by simp)
  exact ⟨_, _, _, updates, since, hsubscribes, hsent, hheight, hseen, hpre⟩

/-- The client subscribes between the block of height 6 and its broadcast: the snapshot has the
block, whose updates follow it. -/
theorem waiting_updates_follow_the_snapshot : ∃ (serde : SerdeJson)
    (fromStr : String → Except String Subscription) (w₀ w w' w'' : Socket)
    (updates : L4BookUpdates), Opened serde .DEFAULT false .all w₀ ∧
      Relation.ReflTransGen (Step serde fromStr false) w₀ w ∧
      Subscribes fromStr false "BTC" 6 w w' ∧
      Relation.ReflTransGen (Step serde fromStr false) w' w'' ∧
      w''.connection.sent =
        w'.connection.sent ++ [.push (.l4Book "BTC") (.l4Book (.updates updates))] ∧
      updates.height = 6 := by
  obtain ⟨⟨before, after⟩, hturns, log, hlog, message, hmessage, hupdates, -, htold⟩ :=
    blockSix_told
  obtain ⟨hopened, hsix⟩ := opened_before_blockSix hturns hlog
  obtain ⟨updates, hcoin, hheight⟩ := Option.map_eq_some_iff.mp hupdates
  have hlisten : Step blockSixReader unread false (opened before log)
      { opened before log with fetch := ⟨after, none⟩ } := .listener hsix
  have hsubscribes := subscribes_of_told
    (w := { opened before log with fetch := ⟨after, none⟩ }) rfl rfl htold
  obtain ⟨hgoes, hheld, -, hsent⟩ := htold
  rw [hcoin] at hsent
  have hwalks : Connection.Walks _ [.l4Book "BTC"] :=
    ⟨List.nodup_singleton _, (hheld.trans rfl).symm⟩
  exact ⟨blockSixReader, unread, _, _, _, _, updates, hopened, .single hlisten, hsubscribes,
    .single (.receive [.l4Book "BTC"] 0 (fun _ => 0) (fun _ => .ok none) hgoes hmessage hwalks),
    hsent, hheight⟩

end Socket
end OrderBookServer
