import OrderBookServer.ServerRuns

/-!
# The streams of the server

What a client may rely on, in every run of the server and whatever the other connections do:
it is sent nothing for a subscription that it was not told it holds, the frames of a
subscription go up in height, and of the blocks that are broadcast it is sent the updates
of its coins, each once and without one left out, for as long as its connection goes on.
-/
namespace OrderBookServer

namespace InternalMessage
open OrderBookListener

/-! ### Blocks, one after the other -/

/-- Each block is of the height after that of the block before it. -/
def Next (p q : BlockPair) : Prop := q.1.blockNumber = p.1.blockNumber + 1

theorem lastUpdate_append {before mid : List InternalMessage} (hgap : mid.any isGap = false) :
    lastUpdate (before ++ mid) =
      ((blocks mid).getLast?.map Prod.fst).or (lastUpdate before) := by
  induction mid using List.reverseRecOn with
  | nil => simp [blocks]
  | append_singleton mid message ih =>
    rw [List.any_append, Bool.or_eq_false_iff] at hgap
    have ih := ih hgap.1
    rw [← List.append_assoc, blocks_append, hgap.1, if_neg Bool.false_ne_true]
    cases message with
    | gap => simp [isGap] at hgap
    | snapshot views time height =>
      rw [lastUpdate_snapshot]
      simpa [blocks] using ih
    | fills batch =>
      rw [lastUpdate_fills]
      simpa [blocks] using ih
    | l4BookUpdates diffBatch statusBatch =>
      rw [lastUpdate_l4BookUpdates]
      simp [blocks]

theorem isChain_blocks {before mid : List InternalMessage}
    (h : Gapless (before ++ mid)) (hgap : mid.any isGap = false) :
    (blocks mid).IsChain Next := by
  induction mid using List.reverseRecOn with
  | nil => exact .nil
  | append_singleton mid message ih =>
    rw [List.any_append, Bool.or_eq_false_iff] at hgap
    rw [← List.append_assoc] at h
    have hfollows : Follows (before ++ mid) message := h (before ++ mid) message [] rfl
    have ih := ih h.of_append hgap.1
    rw [blocks_append, hgap.1, if_neg Bool.false_ne_true]
    cases message with
    | gap => simp [isGap] at hgap
    | snapshot views time height => simpa [blocks] using ih
    | fills batch => simpa [blocks] using ih
    | l4BookUpdates diffBatch statusBatch =>
      refine List.isChain_append.mpr ⟨ih, .singleton _, fun p hp q hq => ?_⟩
      have hlast : lastUpdate (before ++ mid) = _ := lastUpdate_append hgap.1
      rw [Option.mem_def.mp hp] at hlast
      obtain rfl : (statusBatch, diffBatch) = q := by simpa [blocks] using hq
      exact hfollows.2 p.1 hlast

end InternalMessage

namespace Connection

variable {toString : ServerResponse → Except String String}
  {fromStr : String → Except String Subscription} {self : Connection} {sub : Subscription}
  {reading : Reading}

/-! ### A turn, however old the books are -/

theorem Open.startL2_kept (h : Open toString self) (hnew : sub ∉ self.manager.subscriptions)
    (hround : fromStr sub.toJson = .ok sub) (hserved : reading.Served toString sub) :
    Kept toString ((self.subscribed sub).startL2 fromStr sub reading).1 ∧
      (((self.subscribed sub).startL2 fromStr sub reading).2.isOk = true →
        Open toString ((self.subscribed sub).startL2 fromStr sub reading).1) := by
  have hopen {out : Connection × Except String Unit} (h : Open toString out.1) :
      Kept toString out.1 ∧ (out.2.isOk = true → Open toString out.1) := ⟨h.toKept, fun _ => h⟩
  unfold Connection.startL2
  dsimp only
  rw [rollBack_subscribed hnew]
  cases hcurrent : reading.listener.computeL2Snapshot.1 with
  | none => exact hopen h.reply
  | some current =>
    obtain ⟨time, height, views⟩ := current
    have hsent := h.confirm.sendWsDataFromSnapshot (Finset.mem_insert_self sub _) reading.later
      (hserved time height views hcurrent).2
    dsimp only
    split
    · exact ⟨h.toKept.subscribed sub, fun hok => nomatch hok⟩
    · split_ifs
      · rw [hround]
        dsimp only
        split <;> rename_i hout <;> rw [hout] at hsent <;> exact hopen hsent
      · exact hopen h.reply

theorem Open.receive_kept (h : Open toString self)
    (hround : ∀ sub : Subscription, fromStr sub.toJson = .ok sub) {message : ClientMessage}
    (hadmits : (Event.request message reading).Admits toString self) :
    Kept toString (self.receiveClientMessage fromStr message reading).1 ∧
      ((self.receiveClientMessage fromStr message reading).2.isOk = true →
        Open toString (self.receiveClientMessage fromStr message reading).1) := by
  have hopen {out : Connection × Except String Unit} (h : Open toString out.1) :
      Kept toString out.1 ∧ (out.2.isOk = true → Open toString out.1) := ⟨h.toKept, fun _ => h⟩
  cases message with
  | subscribe sub =>
    obtain ⟨m, hout⟩ | ⟨hnew, -, hout⟩ := receive_subscribe fromStr self sub reading
    · rw [hout]
      exact hopen h.reply
    · rw [hout]
      cases sub with
      | trades coin => exact hopen (h.startOther hnew (by simp))
      | l4Book coin => exact hopen (h.startOther hnew (by simp))
      | l2Book coin nSigFigs nLevels mantissa => exact h.startL2_kept hnew (hround _) hadmits
  | unsubscribe sub =>
    obtain ⟨m, hout⟩ | ⟨-, hout⟩ := receive_unsubscribe fromStr self sub reading
    · rw [hout]
      exact hopen h.reply
    · rw [hout]
      exact hopen h.remove

theorem Open.step_kept (h : Open toString self)
    (hround : ∀ sub : Subscription, fromStr sub.toJson = .ok sub) (ignoreSpot : Bool) {e : Event}
    (hadmits : e.Admits toString self) :
    Kept toString (self.step fromStr ignoreSpot e).1 ∧
      ((self.step fromStr ignoreSpot e).2 = true →
        Open toString (self.step fromStr ignoreSpot e).1) := by
  cases e with
  | request message reading => exact h.receive_kept hround hadmits
  | malformed text => exact h.step hround ignoreSpot (e := .malformed text) trivial trivial
  | broadcast message order start now encoded =>
    exact h.step hround ignoreSpot hadmits (by trivial)

end Connection

namespace Server
open HlListen OrderBookListener Socket InternalMessage

variable {toString : ServerResponse → Except String String}
  {fromStr : String → Except String Subscription} {serde : SerdeJson}
  {changes : Disk → Disk → Prop} {ignoreSpot : Bool} {limits : SourceLimits}
  {roots : List (PathBuf × EventSource)} {scope : CoinScope} {disk : Disk} {now : Instant}
  {s s' : Server} {out more : List Output} {id : ℕ}

/-! ### Frames in order -/

/-- What was sent may be sent so, and more to those that are still there. -/
structure InOrder (toString : ServerResponse → Except String String) (out : List Output)
    (s : Server) : Prop where
  orderly : ∀ id, Orderly toString (sentTo id out)
  opened : ∀ id received connection, s.clients.lookup id = some (.streaming received connection) →
    Connection.Open toString connection

theorem step_orderly {client : Client} {l : OrderBookListener} {past log : List Sent}
    {after : Option Client} (hround : ∀ sub : Subscription, fromStr sub.toJson = .ok sub)
    (hpast : Orderly toString past)
    (hopen : ∀ received connection, client = .streaming received connection →
      Connection.Open toString connection ∧ past = connection.sent)
    (h : client.Step toString fromStr ignoreSpot l log after) :
    Orderly toString (past ++ log) ∧
      ∀ received connection, after = some (.streaming received connection) →
        Connection.Open toString connection := by
  cases h with
  | join => simpa using hpast
  | ask received => simpa using hpast
  | start received =>
    refine ⟨by simpa using hpast, fun r c hc => ?_⟩
    simp only [Option.some.injEq, Client.streaming.injEq] at hc
    exact hc.2 ▸ Connection.open_start toString l
  | refuse received => exact ⟨hpast.snoc trivial, by simp⟩
  | leave client => simpa using hpast
  | @turn received next connection e hturn =>
    obtain ⟨hc, rfl⟩ := hopen received connection rfl
    obtain ⟨hkept, hgoes⟩ := hc.step_kept hround ignoreSpot hturn.admits
    rw [← sent_turn ignoreSpot hturn]
    refine ⟨hkept.orderly, fun r c heq => ?_⟩
    split_ifs at heq with hon
    simp only [Option.some.injEq, Client.streaming.injEq] at heq
    exact heq.2 ▸ hgoes hon
  | @cut received next connection e n hturn =>
    obtain ⟨hc, rfl⟩ := hopen received connection rfl
    have horderly := (hc.step_kept hround ignoreSpot hturn.admits).1.orderly
    rw [sent_turn ignoreSpot hturn, ← List.take_append_drop n (Client.newly _ _),
      ← List.append_assoc] at horderly
    exact ⟨horderly.of_append, by simp⟩

theorem run_inOrder (hround : ∀ sub : Subscription, fromStr sub.toJson = .ok sub)
    (h : Run (Step toString fromStr serde changes ignoreSpot)
      (starts limits roots ignoreSpot scope disk now) out s) : InOrder toString out s := by
  refine h.invariant (InOrder toString) ⟨fun id => .nil, by simp [starts]⟩ ?_
  intro out more s s' hrun hs hstep
  have hserves := run_serves hrun
  cases hstep with
  | loop hstep => exact ⟨by simpa using hs.orderly, hs.opened⟩
  | accept hpermit =>
    refine ⟨by simpa using hs.orderly, fun id received connection hclient => ?_⟩
    rw [HashMap.lookup_insert_ite] at hclient
    split_ifs at hclient with hid
    · simp at hclient
    · exact hs.opened id received connection hclient
  | @client id client log after hclient hstep =>
    obtain ⟨hnext, hopened⟩ := step_orderly hround (hs.orderly id) (fun received connection hc => by
      rw [hc] at hclient
      have halone := (hclient ▸ hserves.follows id).alone
      exact ⟨hs.opened id received connection hclient, halone.1⟩) hstep
    refine ⟨fun id' => ?_, fun id' received connection hc => ?_⟩
    · rw [sentTo_append, sentTo_sent]
      split_ifs with hid
      · exact hid ▸ hnext
      · simpa using hs.orderly id'
    · rw [lookup_leave] at hc
      split_ifs at hc with hid
      · exact hopened received connection hc
      · exact hs.opened id' received connection hc

/-- Whatever is broadcast and asked for in whatever order, and however many connections there are,
each of them is sent nothing for a subscription that it was not told it holds, and the frames of a
subscription go up in height until the client is told that it has ended. -/
theorem frames_in_order (hround : ∀ sub : Subscription, fromStr sub.toJson = .ok sub)
    (h : Run (Step toString fromStr serde changes ignoreSpot)
      (starts limits roots ignoreSpot scope disk now) out s) (id : ℕ) :
    (∀ before x after, sentTo id out = before ++ x :: after → x.Fits toString before) ∧
    ∀ before mid after sub height encoded height' encoded',
      sentTo id out = before ++ .frame sub height encoded :: mid ++
        .frame sub height' encoded' :: after →
      Sent.reply (.subscriptionResponse (.unsubscribe sub)) ∉ mid → height < height' := by
  have horderly := (run_inOrder hround h).orderly id
  refine ⟨horderly, fun before mid after sub height encoded height' encoded' hlog hmid => ?_⟩
  exact horderly.height_lt hlog hmid

/-- A client is sent a frame at height 5 and one at height 6. -/
theorem frames_in_order_block_six : ∃ (out : List Output) (before mid : List Sent),
    sentTo 1 out = before ++ .frame btcFrames 5 bidFrame :: mid ++ [.frame btcFrames 6 noBidFrame] ∧
    Sent.reply (.subscriptionResponse (.unsubscribe btcFrames)) ∉ mid ∧
    (∀ before x after, sentTo 1 out = before ++ x :: after → x.Fits frameToString before) ∧
    ∀ before mid after sub height encoded height' encoded',
      sentTo 1 out = before ++ .frame sub height encoded :: mid ++
        .frame sub height' encoded' :: after →
      Sent.reply (.subscriptionResponse (.unsubscribe sub)) ∉ mid → height < height' := by
  obtain ⟨fromStr, out, more, s, s', connection, updates, hround, -, hrun, hmore, -, hsent, -,
    hlog, -⟩ := run_two_clients
  refine ⟨out ++ more, bidSecond.sent.take 1, bidSecond.sent.drop 2 ++
    [.push (.l4Book "BTC") (.l4Book (.updates updates))], ?_, ?_,
    frames_in_order hround (hrun.trans hmore) 1⟩
  · rw [sentTo_append, hsent, hlog]
    rfl
  · simp [bidSecond, bidFirst, bidStart, Connection.delivered, Connection.send, Connection.reply,
      Connection.subscribed]

/-! ### Blocks reach their subscribers -/

/-- From one point of the run on, a connection either goes on as one that is alone, having been
sent what was written to its socket, or it has ended for good. -/
inductive Goes (serde : SerdeJson) (fromStr : String → Except String Subscription)
    (ignoreSpot : Bool) (w : Socket) (world : FetchWorld) : Option Client → List Sent → Prop
  | streams {received : ℕ} {connection : Connection} {log : List Sent}
    (h : Relation.ReflTransGen (Socket.Step serde fromStr ignoreSpot) w
      ⟨world, connection, true, w.joined, received⟩)
    (hsent : connection.sent = w.connection.sent ++ log) :
    Goes serde fromStr ignoreSpot w world (some (.streaming received connection)) log
  | ended (log : List Sent) : Goes serde fromStr ignoreSpot w world none log

variable {w : Socket} {world world' : FetchWorld} {log : List Sent} {client : Client}
  {after : Option Client}

theorem Goes.fetch (h : Goes serde fromStr ignoreSpot w world after log)
    (hworld : Relation.ReflTransGen (FetchWorld.Step serde) world world') :
    Goes serde fromStr ignoreSpot w world' after log := by
  cases h with
  | ended => exact .ended log
  | @streams received connection _ h hsent =>
    have hmore : Relation.ReflTransGen (Socket.Step serde fromStr ignoreSpot)
        ⟨world, connection, true, w.joined, received⟩
        ⟨world', connection, true, w.joined, received⟩ :=
      hworld.lift (fun f => (⟨f, connection, true, w.joined, received⟩ : Socket))
        fun _ _ hstep => .listener hstep
    exact .streams (h.trans hmore) hsent

theorem Goes.step {more : List Sent} (h : Goes serde fromStr ignoreSpot w world (some client) log)
    (hstep : client.Step toString fromStr ignoreSpot world.listener more after) :
    Goes serde fromStr ignoreSpot w world after (log ++ more) := by
  cases h with
  | streams h hsent =>
    cases hstep with
    | cut n hturn => exact .ended _
    | leave => exact .ended _
    | @turn _ next _ e hturn =>
      have hnext := h.tail (socketStep_of_turn ignoreSpot hturn)
      split_ifs with hgoes
      · rw [hgoes] at hnext
        exact .streams hnext (by rw [sent_turn ignoreSpot hturn, hsent, List.append_assoc])
      · exact .ended _

theorem run_goes (joined : ℕ) {received : ℕ} {connection : Connection}
    (h : Run (Step toString fromStr serde changes ignoreSpot)
      (starts limits roots ignoreSpot scope disk now) out s)
    (hclient : s.clients.lookup id = some (.streaming received connection))
    (h' : Run (Step toString fromStr serde changes ignoreSpot) s more s') :
    id < s'.nextId ∧
      Goes serde fromStr ignoreSpot ⟨s.loop.fetchWorld, connection, true, joined, received⟩
        s'.loop.fetchWorld (s'.clients.lookup id) (sentTo id more) := by
  refine h'.invariant (fun more s' => id < s'.nextId ∧
    Goes serde fromStr ignoreSpot ⟨s.loop.fetchWorld, connection, true, joined, received⟩
      s'.loop.fetchWorld (s'.clients.lookup id) (sentTo id more)) ⟨?_, ?_⟩ ?_
  · by_contra hle
    simp [((run_serves h).fresh id (Nat.le_of_not_lt hle)).1] at hclient
  · rw [hclient]
    exact .streams .refl (by simp [sentTo])
  intro more last s₁ s₂ hrun hs hstep
  obtain ⟨hid, hgoes⟩ := hs
  have hloop := run_loop (h.trans hrun)
  cases hstep with
  | loop hstep =>
    have hworld := (step_concerns (run_single hloop) hstep).fetchWorld
    exact ⟨hid, by simpa using hgoes.fetch hworld⟩
  | accept hpermit =>
    refine ⟨Nat.lt_succ_of_lt hid, ?_⟩
    rw [HashMap.lookup_insert_ite, if_neg hid.ne]
    simpa using hgoes
  | @client id' client log after hclient' hstep =>
    rw [leave_nextId, leave_loop, lookup_leave, sentTo_append, sentTo_sent]
    refine ⟨hid, ?_⟩
    by_cases heq : id = id'
    · subst heq
      rw [if_pos rfl, if_pos rfl]
      exact Goes.step (hclient' ▸ hgoes) hstep
    · rw [if_neg heq, if_neg (Ne.symm heq), List.append_nil]
      exact hgoes

/-- From any point of the run on, the messages that a connection receives have no gap among them,
and their blocks are of consecutive heights. A subscription to the L4 book of a coin that is held
all the while is sent the updates of the coin in exactly these blocks, each once and in order. -/
theorem blocks_reach_subscribers {received received' : ℕ} {connection connection' : Connection}
    (h : Run (Step toString fromStr serde changes ignoreSpot)
      (starts limits roots ignoreSpot scope disk now) out s)
    (hclient : s.clients.lookup id = some (.streaming received connection))
    (h' : Run (Step toString fromStr serde changes ignoreSpot) s more s')
    (hclient' : s'.clients.lookup id = some (.streaming received' connection')) :
    ∃ since, (Client.messages s'.loop.listener).take received' =
        (Client.messages s.loop.listener).take received ++ since ∧
      since.any isGap = false ∧ (blocks since).IsChain InternalMessage.Next ∧
      ∀ coin, .l4Book coin ∈ connection.manager.subscriptions →
        .reply (.subscriptionResponse (.unsubscribe (.l4Book coin))) ∉ sentTo id more →
        updatesFor (.l4Book coin) (sentTo id more) =
          (blocks since).filterMap (blockUpdates coin) := by
  obtain ⟨-, joined, halone⟩ := (hclient ▸ (run_serves h).follows id).alone
  obtain ⟨w₀, hopened, hrun⟩ := halone.socket
  have hgoes := (run_goes joined h hclient h').2
  rw [hclient'] at hgoes
  cases hgoes with
  | streams hmore hsent =>
    have hsince (coin : String) := (hopened.sound.run coin hrun).1.run coin hmore
    obtain ⟨hs', -, log, since, hfirst⟩ := hsince ""
    have hgapless := hs'.publishing.gapless
    rw [Socket.messages_append, hfirst.seen] at hgapless
    refine ⟨since, hfirst.seen, hfirst.gapless rfl,
      InternalMessage.isChain_blocks hgapless.of_append (hfirst.gapless rfl),
      fun coin hheld hkept => ?_⟩
    obtain ⟨-, -, log', since', hnext⟩ := hsince coin
    obtain rfl : since' = since := List.append_cancel_left (hnext.seen.symm.trans hfirst.seen)
    obtain rfl : sentTo id more = log' := List.append_cancel_left (hsent.symm.trans hnext.sent)
    obtain ⟨hs, -⟩ := hopened.sound.run coin hrun
    exact (hnext.delivered (by rw [hs.held rfl]; exact hheld) hkept).2 rfl

/-- The block is broadcast, and a client is sent its updates. -/
theorem blocks_reach_subscribers_block_six : ∃ (s s' : Server) (more : List Output)
    (updates : L4BookUpdates) (since : List InternalMessage), updates.height = 6 ∧
    updatesFor (.l4Book "BTC") (sentTo 1 more) = [updates] ∧
    (Client.messages s'.loop.listener).take 3 =
      (Client.messages s.loop.listener).take 1 ++ since ∧
    since.any isGap = false ∧ (blocks since).IsChain InternalMessage.Next ∧
    ∀ coin, .l4Book coin ∈ bidSecond.manager.subscriptions →
      .reply (.subscriptionResponse (.unsubscribe (.l4Book coin))) ∉ sentTo 1 more →
      updatesFor (.l4Book coin) (sentTo 1 more) =
        (blocks since).filterMap (blockUpdates coin) := by
  obtain ⟨fromStr, out, more, s, s', connection, updates, -, hheight, hrun, hmore, hfirst, -,
    hclient, hlog, -⟩ := run_two_clients
  obtain ⟨since, hall⟩ := blocks_reach_subscribers hrun hfirst hmore hclient
  exact ⟨s, s', more, updates, since, hheight, by rw [hlog]; rfl, hall⟩

end Server
end OrderBookServer
