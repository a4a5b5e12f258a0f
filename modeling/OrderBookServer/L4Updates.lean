import OrderBookServer.Delivery

/-!
# What a connection passes on

Every turn tells the client what is held, as long as the connection goes on, and of the
updates of a block it sends a subscription to an L4 book those of its coin, once.
-/
namespace OrderBookServer

open OrderBookListener InternalMessage

/-! ### What a turn of the loop sends -/

/-- The updates of a coin in a message. -/
def coinUpdates (coin : String) : InternalMessage → Option L4BookUpdates
  | .l4BookUpdates diffBatch statusBatch =>
    (coinToBookUpdates diffBatch statusBatch).bind fun updates => updates.lookup coin
  | _ => none

/-- The updates sent for a subscription. -/
def updatesFor (sub : Subscription) (log : List Sent) : List L4BookUpdates :=
  log.filterMap fun
    | .push s (.l4Book (.updates updates)) => if s = sub then some updates else none
    | _ => none

@[simp] theorem updatesFor_append (sub : Subscription) (log more : List Sent) :
    updatesFor sub (log ++ more) = updatesFor sub log ++ updatesFor sub more :=
  List.filterMap_append

namespace Connection

/-- What was sent, of which the manager holds what the client was told. -/
structure Says (before after : Connection) (log : List Sent) : Prop where
  sent : after.sent = before.sent ++ log
  held : after.manager.subscriptions = log.foldl Sent.hold before.manager.subscriptions

variable {self mid after : Connection} {log more : List Sent}

theorem Says.refl (self : Connection) : Says self self [] := ⟨(List.append_nil _).symm, rfl⟩

theorem Says.trans (h : Says self mid log) (h' : Says mid after more) :
    Says self after (log ++ more) :=
  ⟨by rw [h'.sent, h.sent, List.append_assoc], by rw [h'.held, h.held, List.foldl_append]⟩

theorem Says.heldIn (h : Says self after log)
    (hheld : heldIn self.sent = self.manager.subscriptions) :
    OrderBookServer.heldIn after.sent = after.manager.subscriptions := by
  rw [h.sent, h.held, ← hheld, OrderBookServer.heldIn, List.foldl_append]
  rfl

/-- Something that is no confirmation. -/
theorem says_send (self : Connection) {x : Sent}
    (hx : ∀ subscriptions, x.hold subscriptions = subscriptions) : Says self (self.send x) [x] :=
  ⟨rfl, (hx _).symm⟩

/-- Turns that send no update. -/
def Silent (log : List Sent) : Prop := ∀ sub, updatesFor sub log = []

theorem Silent.append (h : Silent log) (h' : Silent more) : Silent (log ++ more) := fun sub => by
  rw [updatesFor_append, h sub, h' sub, List.append_nil]

theorem says_reply (self : Connection) (message : String) :
    Says self (self.reply (.error message)) [.reply (.error message)] :=
  says_send self fun _ => rfl

theorem says_sendWsDataFromSnapshot (self : Connection) (now time height : ℕ) (sub : Subscription)
    (encoded : Except String (Option String)) :
    ∃ log, Says self (self.sendWsDataFromSnapshot now sub time height encoded).1 log ∧
      Silent log := by
  have hnone : ∃ log, Says self self log ∧ Silent log := ⟨[], .refl self, fun _ => rfl⟩
  unfold sendWsDataFromSnapshot
  split
  · split
    · exact hnone
    · split_ifs
      · exact hnone
      · split
        · exact hnone
        · exact hnone
        · exact ⟨_, ⟨rfl, rfl⟩, fun _ => rfl⟩
  · exact hnone

theorem says_sendViews (self : Connection) (time height : ℕ) (now : Subscription → ℕ)
    (encoded : Subscription → Except String (Option String)) (order : List Subscription) :
    ∃ log, Says self (sendViews time height now encoded self order).1 log ∧ Silent log := by
  induction order generalizing self with
  | nil => exact ⟨[], .refl self, fun _ => rfl⟩
  | cons sub order ih =>
    obtain ⟨log, hfirst, hsilent⟩ :=
      says_sendWsDataFromSnapshot self (now sub) time height sub (encoded sub)
    unfold sendViews
    split
    · rename_i next e hout
      rw [hout] at hfirst
      exact ⟨log, hfirst, hsilent⟩
    · rename_i next sent hout
      rw [hout] at hfirst
      obtain ⟨more, hrest, hquiet⟩ := ih next
      exact ⟨_, hfirst.trans hrest, hsilent.append hquiet⟩

/-- Trades are no updates. -/
theorem says_trades (self : Connection) (height time : ℕ) (now : Subscription → ℕ)
    (data : HashMap String (List Trade)) (order : List Subscription) :
    ∃ log, Says self (sendEach trades height time now self data order).1 log ∧ Silent log := by
  induction order generalizing self data with
  | nil => exact ⟨[], .refl self, fun _ => rfl⟩
  | cons sub order ih =>
    unfold sendEach
    split
    · exact ih self data
    · split
      · exact ⟨[], .refl self, fun _ => rfl⟩
      · split
        · exact ih self data
        · rename_i coin _ _ _ _ list _
          obtain ⟨more, hrest, hquiet⟩ :=
            ih (self.send (.push sub (trades.response list))) (data.erase coin)
          have hsend : Silent [.push sub (trades.response list)] := fun _ => rfl
          exact ⟨_, (says_send self fun _ => rfl).trans hrest, hsend.append hquiet⟩

/-- What a subscription is due of the updates of a block. -/
def due (coin : String) (data : HashMap String L4BookUpdates) (order : List Subscription) :
    List L4BookUpdates :=
  if .l4Book coin ∈ order then (data.lookup coin).toList else []

theorem due_of_notMem {coin : String} {order : List Subscription} (h : .l4Book coin ∉ order)
    (data : HashMap String L4BookUpdates) : due coin data order = [] := if_neg h

theorem due_cons_self (coin : String) (data : HashMap String L4BookUpdates)
    (order : List Subscription) :
    due coin data (.l4Book coin :: order) = (data.lookup coin).toList := if_pos List.mem_cons_self

theorem due_cons_of_ne {coin : String} {data : HashMap String L4BookUpdates} {sub : Subscription}
    {order : List Subscription} (h : sub ≠ .l4Book coin) :
    due coin data (sub :: order) = due coin data order := by
  unfold due
  simp only [List.mem_cons, Ne.symm h, false_or]

/-- Of the updates of a block, a subscription is sent those of its coin, once. -/
theorem says_updates (self : Connection) (height time : ℕ) (now : Subscription → ℕ)
    (data : HashMap String L4BookUpdates) {order : List Subscription} (hnodup : order.Nodup)
    (coin : String) :
    ∃ log, Says self (sendEach l4 height time now self data order).1 log ∧
      updatesFor (.l4Book coin) log <+: due coin data order ∧
      ((sendEach l4 height time now self data order).2.isOk = true →
        updatesFor (.l4Book coin) log = due coin data order) := by
  induction order generalizing self data with
  | nil => exact ⟨[], .refl self, List.prefix_refl _, fun _ => rfl⟩
  | cons sub order ih =>
    obtain ⟨hfirst, hrest⟩ := List.nodup_cons.mp hnodup
    cases hcoin : l4.coin sub with
    | none =>
      have hne : sub ≠ .l4Book coin := by
        rintro rfl
        cases hcoin
      rw [sendEach, hcoin, due_cons_of_ne hne]
      exact ih self data hrest
    | some c =>
      obtain rfl : sub = .l4Book c := by
        cases sub with
        | trades coin => cases hcoin
        | l2Book coin nSigFigs nLevels mantissa => cases hcoin
        | l4Book coin => rw [Option.some.inj hcoin]
      rw [sendEach, hcoin]
      dsimp only
      split
      · exact ⟨[], .refl self, List.nil_prefix, fun h => by cases h⟩
      · split
        · rename_i hlookup
          obtain ⟨log, hsaid, hpre, hall⟩ := ih self data hrest
          refine ⟨log, hsaid, ?_⟩
          by_cases hc : c = coin
          · subst hc
            rw [due_of_notMem hfirst] at hpre hall
            rw [due_cons_self, hlookup]
            exact ⟨hpre, hall⟩
          · rw [due_cons_of_ne (by simpa using hc)]
            exact ⟨hpre, hall⟩
        · rename_i updates hlookup
          obtain ⟨log, hsaid, hpre, hall⟩ :=
            ih (self.send (.push (.l4Book c) (l4.response updates))) (data.erase c) hrest
          refine ⟨_, (says_send self fun _ => rfl).trans hsaid, ?_⟩
          rw [updatesFor_append]
          by_cases hc : c = coin
          · subst hc
            have hown : updatesFor (.l4Book c) [.push (.l4Book c) (l4.response updates)] =
                [updates] := by simp [updatesFor, l4]
            rw [due_of_notMem hfirst, List.prefix_nil] at hpre
            rw [due_cons_self, hlookup, hown, hpre]
            exact ⟨List.prefix_refl _, fun _ => rfl⟩
          · have hother : updatesFor (.l4Book coin) [.push (.l4Book c) (l4.response updates)] =
                [] := by simp [updatesFor, l4, hc]
            have hdue : due coin (data.erase c) order = due coin data order := by
              unfold due
              rw [HashMap.lookup_erase_ite, if_neg (Ne.symm hc)]
            rw [hdue] at hpre hall
            rw [due_cons_of_ne (by simpa using hc), hother, List.nil_append]
            exact ⟨hpre, hall⟩

theorem says_fillBatch (self : Connection) (batch : Batch NodeDataFill)
    (order : List Subscription) (start : ℕ) (now : Subscription → ℕ) :
    ∃ log, Says self (self.sendFillBatch batch order start now).1 log ∧ Silent log := by
  have hnone : ∃ log, Says self self log ∧ Silent log := ⟨[], .refl self, fun _ => rfl⟩
  unfold sendFillBatch sendBatch
  split_ifs
  · exact hnone
  · split
    · exact hnone
    · split
      · exact hnone
      · exact says_trades self _ _ now _ order

theorem says_l4Batch (self : Connection) (diffBatch : Batch NodeDataOrderDiff)
    (statusBatch : Batch NodeDataOrderStatus) {order : List Subscription} (start : ℕ)
    (now : Subscription → ℕ) (hnodup : order.Nodup) (coin : String) :
    ∃ log, Says self (self.sendL4Batch diffBatch statusBatch order start now).1 log ∧
      updatesFor (.l4Book coin) log <+:
        due coin ((coinToBookUpdates diffBatch statusBatch).getD ∅) order ∧
      ((self.sendL4Batch diffBatch statusBatch order start now).2.isOk = true →
        updatesFor (.l4Book coin) log =
          due coin ((coinToBookUpdates diffBatch statusBatch).getD ∅) order) := by
  unfold sendL4Batch sendBatch
  split_ifs with hnobody
  · have hout : .l4Book coin ∉ order := fun hmem =>
      absurd (List.all_eq_true.mp hnobody _ hmem) (by simp [l4])
    rw [due_of_notMem hout]
    exact ⟨[], .refl self, List.prefix_refl _, fun _ => rfl⟩
  · split
    · exact ⟨[], .refl self, List.nil_prefix, fun h => by cases h⟩
    · split
      · exact ⟨[], .refl self, List.nil_prefix, fun h => by cases h⟩
      · exact says_updates self _ _ now _ hnodup coin

/-! ### What a request is answered -/

variable {fromStr : String → Except String Subscription} {reading : Reading} {sub : Subscription}

/-- The answer to a request sends no update, and tells the client what is held if the
connection goes on. -/
def Replies (before : Connection) (out : Connection × Except String Unit) : Prop :=
  ∃ log, out.1.sent = before.sent ++ log ∧ Silent log ∧
    (out.2.isOk = true → Says before out.1 log)

theorem Says.replies (h : Says self after log) (hsilent : Silent log)
    (outcome : Except String Unit) : Replies self (after, outcome) := ⟨log, h.sent, hsilent, fun _ => h⟩

theorem replies_error (self : Connection) (message : String) :
    Replies self (self.reply (.error message), .ok ()) :=
  (says_reply self message).replies (fun _ => rfl) _

theorem says_confirm (self : Connection) (sub : Subscription) :
    Says self ((self.subscribed sub).reply (.subscriptionResponse (.subscribe sub)))
      [.reply (.subscriptionResponse (.subscribe sub))] := ⟨rfl, rfl⟩

theorem replies_startL2 (hnew : sub ∉ self.manager.subscriptions) :
    Replies self ((self.subscribed sub).startL2 fromStr sub reading) := by
  have hclosed (e : String) : Replies self (self.subscribed sub, .error e) :=
    ⟨[], (List.append_nil _).symm, fun _ => rfl, fun h => by cases h⟩
  have hconfirm := says_confirm self sub
  unfold startL2
  dsimp only
  rw [rollBack_subscribed hnew]
  cases reading.listener.computeL2Snapshot.1 with
  | none => exact replies_error self _
  | some current =>
    obtain ⟨time, height, views⟩ := current
    dsimp only
    cases reading.view with
    | error e => exact hclosed e
    | ok view =>
      dsimp only
      split_ifs
      · cases fromStr sub.toJson with
        | error e => exact hconfirm.replies (fun _ => rfl) _
        | ok selection =>
          dsimp only
          obtain ⟨log, hsaid, hsilent⟩ := says_sendWsDataFromSnapshot
            ((self.subscribed sub).reply (.subscriptionResponse (.subscribe sub))) reading.later
            time height selection reading.encoded
          have hall {outcome : Except String Unit} :=
            (hconfirm.trans hsaid).replies (Silent.append (fun _ => rfl) hsilent) outcome
          split
          · rename_i hout
            rw [hout] at hall
            exact hall
          · rename_i hout
            rw [hout] at hall
            exact hall
      · exact replies_error self _

theorem replies_startOther (hnew : sub ∉ self.manager.subscriptions)
    (hother : ∀ coin nSigFigs nLevels mantissa, sub ≠ .l2Book coin nSigFigs nLevels mantissa) :
    Replies self ((self.subscribed sub).startOther sub reading) := by
  have hconfirm := says_confirm self sub
  unfold startOther
  cases hmsg : sub.handleImmediateSnapshot reading.listener reading.now with
  | error err =>
    dsimp only
    rw [rollBack_subscribed hnew]
    exact replies_error self _
  | ok snapshotMsg =>
    cases snapshotMsg with
    | none => exact hconfirm.replies (fun _ => rfl) _
    | some message =>
      obtain ⟨coin, s, levels, -, -, rfl⟩ := handleImmediateSnapshot_other hother hmsg
      have hpush : Says ((self.subscribed sub).reply (.subscriptionResponse (.subscribe sub))) _
        [.push sub (.l4Book (.snapshot coin s.time s.height levels))] := says_send _ fun _ => rfl
      exact (hconfirm.trans hpush).replies (fun _ => rfl) _

theorem replies_receiveClientMessage (fromStr : String → Except String Subscription)
    (self : Connection) (message : ClientMessage) (reading : Reading) :
    Replies self (self.receiveClientMessage fromStr message reading) := by
  cases message with
  | subscribe sub =>
    obtain ⟨m, hout⟩ | ⟨hnew, -, hout⟩ := receive_subscribe fromStr self sub reading
    · rw [hout]
      exact replies_error self m
    · rw [hout]
      cases sub with
      | trades coin => exact replies_startOther hnew (by simp)
      | l4Book coin => exact replies_startOther hnew (by simp)
      | l2Book coin nSigFigs nLevels mantissa => exact replies_startL2 hnew
  | unsubscribe sub =>
    obtain ⟨m, hout⟩ | ⟨-, hout⟩ := receive_unsubscribe fromStr self sub reading
    · rw [hout]
      exact replies_error self m
    · rw [hout]
      have hremove : Says self (self.removed sub)
        [.reply (.subscriptionResponse (.unsubscribe sub))] := ⟨rfl, rfl⟩
      exact hremove.replies (fun _ => rfl) _

/-! ### One turn of the loop -/

/-- The order of a broadcast is one of the set of subscriptions. -/
def Event.Walks (self : Connection) : Event → Prop
  | .broadcast _ order _ _ _ => self.Walks order
  | _ => True

/-- The updates of a coin in a message that is received. -/
def Event.updates (coin : String) : Event → List L4BookUpdates
  | .broadcast message _ _ _ _ => (coinUpdates coin message).toList
  | _ => []

theorem Walks.due_eq {order : List Subscription} (h : self.Walks order) {coin : String}
    (hmem : .l4Book coin ∈ self.manager.subscriptions) (diffBatch : Batch NodeDataOrderDiff)
    (statusBatch : Batch NodeDataOrderStatus) :
    due coin ((coinToBookUpdates diffBatch statusBatch).getD ∅) order =
      (coinUpdates coin (.l4BookUpdates diffBatch statusBatch)).toList := by
  rw [due, if_pos (List.mem_toFinset.mp (h.2 ▸ hmem)), coinUpdates]
  cases coinToBookUpdates diffBatch statusBatch with
  | none => rw [Option.getD_none, Finmap.lookup_empty, Option.bind_none]
  | some updates => rfl

/-- Every turn tells the client what is held, as long as the connection goes on, and of what
it receives it passes on the updates of the coins that are held. -/
theorem step_tells (fromStr : String → Except String Subscription) (ignoreSpot : Bool) {e : Event}
    (hwalks : e.Walks self) (coin : String) :
    ∃ log, (self.step fromStr ignoreSpot e).1.sent = self.sent ++ log ∧
      ((self.step fromStr ignoreSpot e).2 = true → Says self (self.step fromStr ignoreSpot e).1 log) ∧
      (.l4Book coin ∈ self.manager.subscriptions →
        updatesFor (.l4Book coin) log <+: e.updates coin ∧
        ((self.step fromStr ignoreSpot e).2 = true →
          updatesFor (.l4Book coin) log = e.updates coin)) := by
  have hquiet {out : Connection × Bool}
      (h : ∃ log, Says self out.1 log ∧ Silent log) (hnone : e.updates coin = []) :
      ∃ log, out.1.sent = self.sent ++ log ∧ (out.2 = true → Says self out.1 log) ∧
        (.l4Book coin ∈ self.manager.subscriptions →
          updatesFor (.l4Book coin) log <+: e.updates coin ∧
          (out.2 = true → updatesFor (.l4Book coin) log = e.updates coin)) := by
    obtain ⟨log, hsaid, hsilent⟩ := h
    rw [hnone]
    exact ⟨log, hsaid.sent, fun _ => hsaid,
      fun _ => ⟨hsilent _ ▸ List.prefix_refl _, fun _ => hsilent _⟩⟩
  cases e with
  | malformed text => exact hquiet ⟨_, says_reply self _, fun _ => rfl⟩ rfl
  | request message reading =>
    obtain ⟨log, hsent, hsilent, hsaid⟩ := replies_receiveClientMessage fromStr self message reading
    exact ⟨log, hsent, hsaid, fun _ => ⟨hsilent _ ▸ List.prefix_refl _, fun _ => hsilent _⟩⟩
  | broadcast message order start now encoded =>
    cases message with
    | gap => exact hquiet ⟨_, says_reply self _, fun _ => rfl⟩ rfl
    | fills batch => exact hquiet (says_fillBatch self batch order start now) rfl
    | snapshot views time height =>
      obtain ⟨log, hsaid, hsilent⟩ := says_sendViews
        { self with coins := newUniverse views ignoreSpot } time height now encoded order
      exact hquiet ⟨log, ⟨hsaid.sent, hsaid.held⟩, hsilent⟩ rfl
    | l4BookUpdates diffBatch statusBatch =>
      obtain ⟨log, hsaid, hpre, hall⟩ :=
        says_l4Batch self diffBatch statusBatch start now hwalks.1 coin
      refine ⟨log, hsaid.sent, fun _ => hsaid, fun hmem => ?_⟩
      rw [hwalks.due_eq hmem] at hpre hall
      exact ⟨hpre, hall⟩

end Connection

end OrderBookServer
