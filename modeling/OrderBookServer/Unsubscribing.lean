import OrderBookServer.L4Delivery

/-!
# Unsubscribing

A request to unsubscribe is validated like one to subscribe, by the universe of that moment.
What was valid once may not be valid later: each broadcast of views replaces the universe,
and a coin that is not in the views leaves it.
-/
namespace OrderBookServer

open OrderBookListener InternalMessage

namespace Subscription

/-- A subscription to an L4 book is for a coin with a book only. -/
def isL4Book : Subscription → Bool
  | l4Book _ => true
  | _ => false

/-- Some universe has the subscription. -/
def Admissible (self : Subscription) : Prop := ∃ coins, self.validate coins = true

/-- Of what could be subscribed to once, the universe decides by the coin alone. -/
theorem Admissible.validate_iff {self : Subscription} (h : self.Admissible) (coins : Finset String) :
    self.validate coins = true ↔
      self.coin ∈ coins ∨ (isHip4Coin self.coin = true ∧ self.isL4Book = false) := by
  obtain ⟨once, honce⟩ := h
  unfold validate at honce ⊢
  split_ifs at honce ⊢ with hsize
  cases self with
  | trades coin => simp [Subscription.coin, isL4Book]
  | l4Book coin =>
    have hat : coin.toList.head? ≠ some '@' := by
      simpa using (Bool.and_eq_true_iff.mp honce).2
    simp [Subscription.coin, isL4Book, hat]
  | l2Book coin nSigFigs nLevels mantissa =>
    dsimp only at honce ⊢
    split_ifs at honce with hknown hdefault hlevels
    have hiff : ¬ (coin ∉ coins ∧ isHip4Coin coin = false) ↔
        coin ∈ coins ∨ isHip4Coin coin = true := by
      rw [not_and_or, not_not, Bool.not_eq_false]
    rw [if_neg hdefault, if_neg hlevels, honce]
    simp [Subscription.coin, isL4Book, ← hiff]

end Subscription

/-! ### What is held -/

namespace Connection

variable {fromStr : String → Except String Subscription} {self : Connection} {sub : Subscription}

theorem manager_sendViews (self : Connection) (time height : ℕ) (now : Subscription → ℕ)
    (encoded : Subscription → Except String (Option String)) (order : List Subscription) :
    (sendViews time height now encoded self order).1.manager = self.manager := by
  induction order generalizing self with
  | nil => rfl
  | cons sub order ih =>
    have hfirst := manager_sendWsDataFromSnapshot self (now sub) time height sub (encoded sub)
    unfold sendViews
    split
    · rename_i hout
      rw [hout] at hfirst
      exact hfirst
    · rename_i hout
      rw [hout] at hfirst
      rw [ih, hfirst]

theorem manager_sendEach {V : Type} (stream : Stream V) (height time : ℕ) (now : Subscription → ℕ)
    (self : Connection) (data : HashMap String V) (order : List Subscription) :
    (sendEach stream height time now self data order).1.manager = self.manager := by
  induction order generalizing self data with
  | nil => rfl
  | cons sub order ih =>
    unfold sendEach
    split
    · exact ih self data
    · split
      · rfl
      · split
        · exact ih self data
        · exact ih (self.send _) _

theorem manager_sendBatch {V : Type} (stream : Stream V) (height : ℕ) (time : Option ℕ)
    (start : ℕ) (now : Subscription → ℕ) (data : HashMap String V) (self : Connection)
    (order : List Subscription) :
    (sendBatch stream height time start now data self order).1.manager = self.manager := by
  unfold sendBatch
  split_ifs
  · rfl
  · split
    · rfl
    · split
      · rfl
      · exact manager_sendEach stream height _ now self data order

/-- The answer to a new subscription keeps it, or takes it back. -/
theorem manager_startStream (self : Connection) (sub : Subscription) (reading : Reading) :
    (self.startStream fromStr sub reading).1.manager.subscriptions ⊆
      self.manager.subscriptions := by
  have hrefused (message : String) :
      (self.rollBack sub message).manager.subscriptions ⊆ self.manager.subscriptions :=
    Finset.erase_subset sub _
  have hother : (self.startOther sub reading).1.manager.subscriptions ⊆
      self.manager.subscriptions := by
    unfold startOther
    split
    · exact hrefused _
    · dsimp only
      split <;> exact Finset.Subset.refl _
  cases sub with
  | trades coin => exact hother
  | l4Book coin => exact hother
  | l2Book coin nSigFigs nLevels mantissa =>
    unfold startStream startL2
    dsimp only
    cases reading.listener.computeL2Snapshot.1 with
    | none => exact hrefused _
    | some current =>
      obtain ⟨time, height, views⟩ := current
      dsimp only
      cases reading.view with
      | error e => exact Finset.Subset.refl _
      | ok view =>
        dsimp only
        split_ifs
        · cases fromStr (Subscription.l2Book coin nSigFigs nLevels mantissa).toJson with
          | error e => exact Finset.Subset.refl _
          | ok selection =>
            dsimp only
            have hframe := manager_sendWsDataFromSnapshot (self.reply (.subscriptionResponse
                (.subscribe (.l2Book coin nSigFigs nLevels mantissa))))
              reading.later time height selection reading.encoded
            have hheld := congrArg SubscriptionManager.subscriptions hframe
            split
            · rename_i hout
              rw [hout] at hheld
              exact hheld.subset
            · rename_i hout
              rw [hout] at hheld
              exact hheld.subset
        · exact hrefused _

/-- What is held after a turn was held before or is valid. -/
theorem mem_step {ignoreSpot : Bool} {e : Event}
    (h : sub ∈ (self.step fromStr ignoreSpot e).1.manager.subscriptions) :
    sub ∈ self.manager.subscriptions ∨ sub.validate self.coins = true := by
  cases e with
  | malformed text => exact .inl h
  | broadcast message order start now encoded =>
    cases message with
    | gap => exact .inl h
    | snapshot views time height =>
      have hsame := manager_sendViews { self with coins := newUniverse views ignoreSpot }
        time height now encoded order
      exact .inl ((congrArg SubscriptionManager.subscriptions hsame).subset h)
    | fills batch =>
      have hsame := manager_sendBatch trades batch.blockNumber batch.blockTimeMillis start now
        (coinToTrades batch) self order
      exact .inl ((congrArg SubscriptionManager.subscriptions hsame).subset h)
    | l4BookUpdates diffBatch statusBatch =>
      have hsame := manager_sendBatch l4 diffBatch.blockNumber diffBatch.blockTimeMillis start now
        ((coinToBookUpdates diffBatch statusBatch).getD ∅) self order
      exact .inl ((congrArg SubscriptionManager.subscriptions hsame).subset h)
  | request message reading =>
    change sub ∈ (self.receiveClientMessage fromStr message reading).1.manager.subscriptions at h
    cases message with
    | subscribe asked =>
      obtain ⟨text, hout⟩ | ⟨-, hvalid, hout⟩ := receive_subscribe fromStr self asked reading
      · rw [hout] at h
        exact .inl h
      · rw [hout] at h
        obtain rfl | hheld := Finset.mem_insert.mp (manager_startStream _ asked reading h)
        · exact .inr hvalid
        · exact .inl hheld
    | unsubscribe asked =>
      obtain ⟨text, hout⟩ | ⟨-, hout⟩ := receive_unsubscribe fromStr self asked reading
      · rw [hout] at h
        exact .inl h
      · rw [hout] at h
        exact .inl (Finset.mem_of_mem_erase h)

/-- The subscription is not held any more, it has no position, and the client is told. -/
structure Stops (sub : Subscription) (before after : Connection) : Prop where
  held : sub ∉ after.manager.subscriptions
  position : after.sentPositions.lookup sub.toJson = none
  confirmed : after.sent = before.sent ++ [.reply (.subscriptionResponse (.unsubscribe sub))]

theorem stops_removed (self : Connection) (sub : Subscription) :
    Stops sub self (self.removed sub) where
  held := Finset.notMem_erase sub _
  position := Finmap.lookup_erase _ _
  confirmed := rfl

/-- A request to unsubscribe is granted where the subscription is held and valid. -/
theorem receive_unsubscribe_held (fromStr : String → Except String Subscription)
    (reading : Reading) (hheld : sub ∈ self.manager.subscriptions)
    (hvalid : sub.validate self.coins = true) :
    self.receiveClientMessage fromStr (.unsubscribe sub) reading = (self.removed sub, .ok ()) := by
  unfold receiveClientMessage
  dsimp only
  rw [if_neg (by simp [hvalid])]
  exact if_pos (decide_eq_true hheld)

theorem receive_unsubscribe_invalid (fromStr : String → Except String Subscription)
    (reading : Reading) (hinvalid : sub.validate self.coins = false) :
    self.receiveClientMessage fromStr (.unsubscribe sub) reading =
      (self.reply (.error ("Invalid subscription: " ++ sub.toJson)), .ok ()) := by
  unfold receiveClientMessage
  dsimp only
  rw [if_pos hinvalid]

end Connection

namespace Socket

variable {serde : SerdeJson} {fromStr : String → Except String Subscription} {ignoreSpot : Bool}
  {limits : ResourceLimits} {scope : CoinScope} {w₀ w w' : Socket} {sub : Subscription}

/-- Whatever is held was valid when it was subscribed to. -/
def HoldsAdmissible (w : Socket) : Prop := ∀ sub ∈ w.connection.manager.subscriptions, sub.Admissible

theorem HoldsAdmissible.turn (h : HoldsAdmissible w) (e : Connection.Event) :
    HoldsAdmissible (w.turn fromStr ignoreSpot e) := fun sub hsub =>
  (Connection.mem_step hsub).elim (h sub) fun hvalid => ⟨_, hvalid⟩

theorem HoldsAdmissible.step (h : HoldsAdmissible w) (hstep : Step serde fromStr ignoreSpot w w') :
    HoldsAdmissible w' := by
  cases hstep with
  | listener => exact h
  | receive order start now encoded hopen hnext hwalks => exact h.turn _
  | request message reading hopen hlistener => exact h.turn _
  | malformed text hopen => exact h.turn _
  | closed => exact h

theorem Opened.run_holdsAdmissible (hopened : Opened serde limits ignoreSpot scope w₀)
    (hrun : Relation.ReflTransGen (Step serde fromStr ignoreSpot) w₀ w) : HoldsAdmissible w := by
  induction hrun with
  | refl =>
    obtain ⟨listener, -, -⟩ := hopened
    exact fun sub hsub => absurd hsub (Finset.notMem_empty sub)
  | tail _ hstep ih => exact ih.step hstep

theorem turn_unsubscribe_invalid (hinvalid : sub.validate w.connection.coins = false)
    (reading : Connection.Reading) :
    w.turn fromStr ignoreSpot (.request (.unsubscribe sub) reading) = { w with
      connection := w.connection.reply (.error ("Invalid subscription: " ++ sub.toJson))
      goesOn := true } := by
  dsimp only [turn, Connection.step]
  rw [Connection.receive_unsubscribe_invalid fromStr reading hinvalid]
  rfl

/-- Whatever a connection holds, in every run of it and of its listener, a request to
unsubscribe from it is granted if and only if its coin is still in the universe, or is an
outcome coin and the subscription not to an L4 book. Where it is not, the client is told that
the subscription is invalid, and it is held on with its position. -/
theorem held_unsubscribes_iff (hopened : Opened serde limits ignoreSpot scope w₀)
    (hrun : Relation.ReflTransGen (Step serde fromStr ignoreSpot) w₀ w)
    (hheld : sub ∈ w.connection.manager.subscriptions) (reading : Connection.Reading) :
    let w' := w.turn fromStr ignoreSpot (.request (.unsubscribe sub) reading)
    w'.goesOn = true ∧
      (Connection.Stops sub w.connection w'.connection ↔ sub.coin ∈ w.connection.coins ∨
        (isHip4Coin sub.coin = true ∧ sub.isL4Book = false)) ∧
      (¬ Connection.Stops sub w.connection w'.connection → w'.connection =
        w.connection.reply (.error ("Invalid subscription: " ++ sub.toJson))) := by
  have hadmissible := hopened.run_holdsAdmissible hrun sub hheld
  dsimp only
  rw [← hadmissible.validate_iff]
  by_cases hvalid : sub.validate w.connection.coins = true
  · dsimp only [turn, Connection.step]
    rw [Connection.receive_unsubscribe_held fromStr reading hheld hvalid]
    have hstops := Connection.stops_removed w.connection sub
    exact ⟨rfl, iff_of_true hstops hvalid, fun hnot => absurd hstops hnot⟩
  · rw [turn_unsubscribe_invalid (Bool.not_eq_true _ ▸ hvalid) reading]
    have hkept : ¬ Connection.Stops sub w.connection (w.connection.reply
        (.error ("Invalid subscription: " ++ sub.toJson))) := fun hstops => hstops.held hheld
    exact ⟨rfl, iff_of_false hkept hvalid, fun _ => rfl⟩

/-! ### A spot coin -/

/-- The books of a snapshot with a spot coin, where spot is ignored. -/
def spotAtFive : OrderBookListener :=
  ((OrderBookListener.new (some []) true .all).initFromSnapshot
    (Finmap.singleton ⟨"@1"⟩ ⟨[], []⟩) 5).1

def spotTrades : Subscription := .trades "@1"

def subscribeSpot : Connection.Event :=
  .request (.subscribe spotTrades) ⟨spotAtFive, 0, 0, .ok none, .ok none⟩

def receiveForSpot (message : InternalMessage) : Connection.Event :=
  .broadcast message [spotTrades] 0 (fun _ => 0) (fun _ => .ok none)

/-- A client that subscribes to the trades of a spot coin, and then is sent views. -/
def SpotLeaves (message : InternalMessage) : Prop :=
  let subscribed := (Connection.start spotAtFive).step unread true subscribeSpot
  let received := subscribed.1.step unread true (receiveForSpot message)
  subscribed.2 = true ∧ received.2 = true ∧ spotTrades.coin ∈ subscribed.1.coins ∧
    subscribed.1.manager.subscriptions = {spotTrades} ∧
    received.1.manager.subscriptions = {spotTrades} ∧
    spotTrades.validate received.1.coins = false

instance (message : InternalMessage) : Decidable (SpotLeaves message) :=
  inferInstanceAs (Decidable (_ ∧ _ ∧ _ ∧ _ ∧ _ ∧ _))

theorem spot_leaves : ∃ log ∈ spotAtFive.internalMessageTx,
    ∃ after ∈ spotAtFive.turn .ofEmptyBlock (SerdeJson.emptyBlockLine ++ "\n") .orderStatuses
      fun _ => 0,
    ∃ message ∈ (after.internalMessageTx.getD [])[log.length]?, SpotLeaves message := by
  decide +kernel

theorem opened_at_spot {log : List InternalMessage} (hlog : spotAtFive.internalMessageTx = some log) :
    Opened .ofEmptyBlock .DEFAULT true .all (opened spotAtFive log) :=
  .intro spotAtFive
    (FetchWorld.run_first_fetch .ofEmptyBlock true (Finmap.singleton ⟨"@1"⟩ ⟨[], []⟩)) hlog

theorem subscribes_to_spot (log : List InternalMessage) :
    Step .ofEmptyBlock unread true (opened spotAtFive log)
      ((opened spotAtFive log).turn unread true subscribeSpot) :=
  .request (.subscribe spotTrades) ⟨spotAtFive, 0, 0, .ok none, .ok none⟩ rfl rfl

/-- Before the views come, the client can unsubscribe. -/
theorem held_unsubscribes_before_views : ∃ w₀ w : Socket,
    Opened .ofEmptyBlock .DEFAULT true .all w₀ ∧
    Relation.ReflTransGen (Step .ofEmptyBlock unread true) w₀ w ∧
    spotTrades ∈ w.connection.manager.subscriptions ∧
    ∀ reading, Connection.Stops spotTrades w.connection
      (w.turn unread true (.request (.unsubscribe spotTrades) reading)).connection := by
  obtain ⟨log, hlog, -, -, -, -, -, -, hcoin, hheld, -, -⟩ := spot_leaves
  have hrun := Relation.ReflTransGen.single (subscribes_to_spot log)
  have hmem : spotTrades ∈ ((opened spotAtFive log).turn unread true
      subscribeSpot).connection.manager.subscriptions :=
    hheld.symm.subset (Finset.mem_singleton_self _)
  refine ⟨_, _, opened_at_spot hlog, hrun, hmem, fun reading => ?_⟩
  exact (held_unsubscribes_iff (opened_at_spot hlog) hrun hmem reading).2.1.mpr (.inl hcoin)

/-- A client subscribes to the trades of a spot coin that the first snapshot has, and cannot
unsubscribe once the first views have come. -/
theorem spot_trades_go_on : ∃ w₀ w : Socket, Opened .ofEmptyBlock .DEFAULT true .all w₀ ∧
    Relation.ReflTransGen (Step .ofEmptyBlock unread true) w₀ w ∧ w.goesOn = true ∧
    spotTrades ∈ w.connection.manager.subscriptions ∧
    ∀ reading, let w' := w.turn unread true (.request (.unsubscribe spotTrades) reading)
      ¬ Connection.Stops spotTrades w.connection w'.connection ∧
        spotTrades ∈ w'.connection.manager.subscriptions := by
  obtain ⟨log, hlog, after, hturn, message, hmessage, hgoes, hlast, -, hheld, hkept, hinvalid⟩ :=
    spot_leaves
  have hpublish : Step .ofEmptyBlock unread true
      ((opened spotAtFive log).turn unread true subscribeSpot)
      { (opened spotAtFive log).turn unread true subscribeSpot with fetch := ⟨after, none⟩ } :=
    .listener (.progress (.turn _ _ _ hturn))
  have hwalks : Connection.Walks _ [spotTrades] :=
    ⟨List.nodup_singleton _, (hheld.trans rfl).symm⟩
  have hpublished := (Relation.ReflTransGen.single (subscribes_to_spot log)).tail hpublish
  refine ⟨_, _, opened_at_spot hlog, hpublished.tail
    (.receive [spotTrades] 0 (fun _ => 0) (fun _ => .ok none) hgoes hmessage hwalks), hlast, ?_,
    fun reading => ?_⟩
  · exact hkept.symm.subset (Finset.mem_singleton_self _)
  · rw [turn_unsubscribe_invalid hinvalid reading]
    have hmem : spotTrades ∈ _ := hkept.symm.subset (Finset.mem_singleton_self _)
    exact ⟨fun hstops => hstops.held hmem, hmem⟩

end Socket
end OrderBookServer
