import OrderBookServer.Connection

/-!
# Frames reach a subscription in order

The positions a connection keeps are those of the last frames it has sent: for every
subscription it holds, and under the text that names the subscription. A new subscription
has none, so its first frame is always sent, and a later frame is only sent at a new
height.
-/
namespace OrderBookServer

/-! ### What a client may rely on -/

/-- A confirmation starts or ends a subscription. -/
def Sent.hold (subscriptions : Finset Subscription) : Sent → Finset Subscription
  | .reply (.subscriptionResponse (.subscribe sub)) => insert sub subscriptions
  | .reply (.subscriptionResponse (.unsubscribe sub)) => subscriptions.erase sub
  | _ => subscriptions

/-- The subscriptions that are held after all that was sent. -/
def heldIn (log : List Sent) : Finset Subscription := log.foldl Sent.hold ∅

def Sent.nextHeight (sub : Subscription) (last : Option ℕ) : Sent → Option ℕ
  | .frame s height _ => if s = sub then some height else last
  | .reply (.subscriptionResponse (.unsubscribe s)) => if s = sub then none else last
  | _ => last

/-- The height of the last frame of a subscription, since it was held. -/
def lastHeight (sub : Subscription) (log : List Sent) : Option ℕ :=
  log.foldl (Sent.nextHeight sub) none

@[simp] theorem heldIn_snoc (log : List Sent) (x : Sent) :
    heldIn (log ++ [x]) = x.hold (heldIn log) := by simp [heldIn]

@[simp] theorem lastHeight_snoc (sub : Subscription) (log : List Sent) (x : Sent) :
    lastHeight sub (log ++ [x]) = x.nextHeight sub (lastHeight sub log) := by simp [lastHeight]

section Log

variable (toString : ServerResponse → Except String String)

/-- The bytes of a frame are those of a book of its coin at its height. -/
def Encodes (sub : Subscription) (height : ℕ) (encoded : String) : Prop :=
  ∃ book : L2Book, toString (.l2Book book) = .ok encoded ∧ book.coin = sub.coin ∧
    book.height = height

/-- What may be sent after a log: nothing for a subscription that is not held, and no frame
that does not go up in height. -/
def Sent.Fits (log : List Sent) : Sent → Prop
  | .reply _ => True
  | .push sub _ => sub ∈ heldIn log
  | .frame sub height encoded => sub ∈ heldIn log ∧ Encodes toString sub height encoded ∧
      ∀ previous, lastHeight sub log = some previous → previous < height

/-- Everything sent may be sent after what was sent before it. -/
def Orderly (log : List Sent) : Prop :=
  ∀ before x after, log = before ++ x :: after → x.Fits toString before

variable {toString} {log : List Sent}

theorem Orderly.nil : Orderly toString [] := fun _ _ _ h => by simp at h

theorem Orderly.snoc (h : Orderly toString log) {x : Sent} (hx : x.Fits toString log) :
    Orderly toString (log ++ [x]) := by
  intro before y after hsplit
  obtain rfl | ⟨after', last, rfl⟩ := after.eq_nil_or_concat
  · obtain ⟨rfl, hlast⟩ := List.append_inj' hsplit rfl
    cases hlast
    exact hx
  · rw [List.concat_eq_append, ← List.cons_append, ← List.append_assoc] at hsplit
    exact h before y after' (List.append_inj' hsplit rfl).1

theorem Orderly.of_append {log' : List Sent} (h : Orderly toString (log ++ log')) :
    Orderly toString log := fun before x after hsplit =>
  h before x (after ++ log') (by rw [hsplit, List.append_assoc, List.cons_append])

/-- As long as a subscription is not removed, its last frame is not below an earlier one. -/
theorem Orderly.le_lastHeight {before mid : List Sent} {sub : Subscription} {height : ℕ}
    {encoded : String} (h : Orderly toString (before ++ .frame sub height encoded :: mid))
    (hkept : Sent.reply (.subscriptionResponse (.unsubscribe sub)) ∉ mid) :
    ∃ last, lastHeight sub (before ++ .frame sub height encoded :: mid) = some last ∧
      height ≤ last := by
  induction mid using List.reverseRecOn with
  | nil => exact ⟨height, by simp [Sent.nextHeight], le_rfl⟩
  | append_singleton mid x ih =>
    rw [← List.cons_append, ← List.append_assoc] at h ⊢
    obtain ⟨last, hlast, hle⟩ := ih h.of_append fun hmem => hkept (List.mem_append_left _ hmem)
    rw [lastHeight_snoc, hlast]
    unfold Sent.nextHeight
    split
    · rename_i s next text
      split_ifs with hs
      · subst hs
        exact ⟨next, rfl, hle.trans ((h _ _ [] rfl).2.2 last hlast).le⟩
      · exact ⟨last, rfl, hle⟩
    · rename_i s
      split_ifs with hs
      · subst hs
        exact absurd (List.mem_append_right _ List.mem_cons_self) hkept
      · exact ⟨last, rfl, hle⟩
    · exact ⟨last, rfl, hle⟩

/-- Two frames of a subscription that is not removed in between go up in height. -/
theorem Orderly.height_lt {before mid after : List Sent} {sub : Subscription}
    {height height' : ℕ} {encoded encoded' : String}
    (h : Orderly toString log) (hlog : log = before ++ .frame sub height encoded ::
      mid ++ .frame sub height' encoded' :: after)
    (hkept : Sent.reply (.subscriptionResponse (.unsubscribe sub)) ∉ mid) : height < height' := by
  obtain ⟨-, -, hnext⟩ := h _ _ after hlog
  rw [hlog] at h
  obtain ⟨last, hlast, hle⟩ := h.of_append.le_lastHeight hkept
  exact hle.trans_lt (hnext last hlast)

end Log

/-! ### One turn of the loop -/

/-- An answer of the shared cache to anyone, after any calls of all connections. -/
def Answers (toString : ServerResponse → Except String String) (subscription : Subscription)
    (views : L2Snapshots) (time height : ℕ) (answer : Except String (Option String)) : Prop :=
  ∃ address calls cache, BookWireCache.Calls toString calls cache ∧
    cache.KeepsAddress ⟨address, views⟩ ∧
    (cache.get toString subscription ⟨address, views⟩ time height).1 = answer

theorem Answers.eq_encode {toString : ServerResponse → Except String String}
    {subscription : Subscription} {views : L2Snapshots} {time height : ℕ}
    {answer : Except String (Option String)}
    (h : Answers toString subscription views time height answer) :
    answer = BookWireCache.encode toString subscription views time height := by
  obtain ⟨address, calls, cache, hcalls, hkeeps, rfl⟩ := h
  exact (BookWireCache.get_eq_encode hcalls.valid hkeeps).1

theorem Answers.encodes {toString : ServerResponse → Except String String}
    {subscription : Subscription} {views : L2Snapshots} {time height : ℕ} {encoded : String}
    (h : BookWireCache.encode toString subscription views time height = .ok (some encoded)) :
    Encodes toString subscription height encoded := by
  unfold BookWireCache.encode at h
  split at h
  · rename_i coin nSigFigs nLevels mantissa
    split at h
    · cases h
    · rename_i levels hlevels
      cases ht : toString (.l2Book (.fromL2Snapshot coin levels time height)) with
      | error e =>
        rw [ht] at h
        cases h
      | ok text =>
        rw [ht] at h
        dsimp only [bind, Except.bind] at h
        split_ifs at h
        cases h
        exact ⟨_, ht, rfl, rfl⟩
  · cases h

namespace Connection

variable (toString : ServerResponse → Except String String)

/-- What holds also once the connection has ended. -/
structure Kept (connection : Connection) : Prop where
  orderly : Orderly toString connection.sent
  keys : ∀ key ∈ connection.sentPositions, ∃ sub ∈ connection.manager.subscriptions,
    sub.toJson = key

/-- The manager holds what the client was told, and the positions are those of the last
frames. -/
structure Open (connection : Connection) : Prop extends Kept toString connection where
  held : heldIn connection.sent = connection.manager.subscriptions
  positions : ∀ sub, lastHeight sub connection.sent =
    connection.sentPositions.lookup sub.toJson

variable {toString} {self : Connection} {sub : Subscription}

theorem Open.reply (h : Open toString self) {message : String} :
    Open toString (self.reply (.error message)) where
  orderly := h.orderly.snoc trivial
  keys := h.keys
  held := by rw [Connection.reply, Connection.send, heldIn_snoc]; exact h.held
  positions sub := by rw [Connection.reply, Connection.send, lastHeight_snoc]; exact h.positions sub

theorem Open.push (h : Open toString self) (hsub : sub ∈ self.manager.subscriptions)
    (response : ServerResponse) : Open toString (self.send (.push sub response)) where
  orderly := h.orderly.snoc (show sub ∈ heldIn self.sent from h.held ▸ hsub)
  keys := h.keys
  held := by rw [Connection.send, heldIn_snoc]; exact h.held
  positions sub := by rw [Connection.send, lastHeight_snoc]; exact h.positions sub

/-- A connection that has sent one frame more. -/
def delivered (self : Connection) (sub : Subscription) (height : ℕ) (encoded : String) :
    Connection :=
  { self.send (.frame sub height encoded) with
    sentPositions := self.sentPositions.insert sub.toJson height }

theorem Open.frame (h : Open toString self) (hsub : sub ∈ self.manager.subscriptions) {height : ℕ}
    {encoded : String}
    (hlater : ∀ previous, self.sentPositions.lookup sub.toJson = some previous → previous < height)
    (hbytes : Encodes toString sub height encoded) :
    Open toString (self.delivered sub height encoded) where
  orderly := h.orderly.snoc ⟨h.held ▸ hsub, hbytes, fun previous hp =>
    hlater previous (h.positions sub ▸ hp)⟩
  keys key hkey := by
    obtain rfl | hkey := Finmap.mem_insert.mp hkey
    · exact ⟨sub, hsub, rfl⟩
    · exact h.keys key hkey
  held := by
    dsimp only [delivered, Connection.send]
    rw [heldIn_snoc]
    exact h.held
  positions s := by
    dsimp only [delivered, Connection.send]
    rw [lastHeight_snoc, HashMap.lookup_insert_ite, ← h.positions s]
    show (if sub = s then _ else _) = _
    by_cases hs : s = sub
    · rw [if_pos hs.symm, if_pos (congrArg _ hs)]
    · rw [if_neg (Ne.symm hs), if_neg fun hj => hs (Subscription.toJson_injective hj)]

/-- A subscription that is not held has no position. -/
theorem Kept.no_position (h : Kept toString self) (hsub : sub ∉ self.manager.subscriptions) :
    self.sentPositions.lookup sub.toJson = none := by
  rw [Finmap.lookup_eq_none]
  intro hkey
  obtain ⟨s, hs, heq⟩ := h.keys _ hkey
  exact hsub (Subscription.toJson_injective heq ▸ hs)

/-- A connection with one subscription more. -/
def subscribed (self : Connection) (sub : Subscription) : Connection :=
  { self with manager := ⟨insert sub self.manager.subscriptions⟩ }

theorem Open.confirm (h : Open toString self) :
    Open toString ((self.subscribed sub).reply (.subscriptionResponse (.subscribe sub))) where
  orderly := h.orderly.snoc trivial
  keys key hkey :=
    let ⟨s, hs, heq⟩ := h.keys key hkey
    ⟨s, Finset.mem_insert_of_mem hs, heq⟩
  held := by
    rw [Connection.reply, Connection.send, heldIn_snoc]
    show insert sub (heldIn self.sent) = _
    rw [h.held]
    rfl
  positions sub := by
    rw [Connection.reply, Connection.send, lastHeight_snoc]
    exact h.positions sub

/-- A connection with one subscription less, which the client is told. -/
def removed (self : Connection) (sub : Subscription) : Connection :=
  { self with
    manager := ⟨self.manager.subscriptions.erase sub⟩
    sentPositions := self.sentPositions.erase sub.toJson }.reply
      (.subscriptionResponse (.unsubscribe sub))

theorem Open.remove (h : Open toString self) : Open toString (self.removed sub) where
  orderly := h.orderly.snoc trivial
  keys key hkey := by
    obtain ⟨hne, hkey⟩ := Finmap.mem_erase.mp hkey
    obtain ⟨s, hs, heq⟩ := h.keys key hkey
    exact ⟨s, Finset.mem_erase_of_ne_of_mem (fun hsub => hne (by rw [← heq, hsub])) hs, heq⟩
  held := by
    rw [removed, Connection.reply, Connection.send, heldIn_snoc, h.held]
    rfl
  positions s := by
    rw [removed, Connection.reply, Connection.send, lastHeight_snoc, HashMap.lookup_erase_ite,
      ← h.positions s]
    show (if sub = s then _ else _) = _
    by_cases hs : s = sub
    · rw [if_pos hs.symm, if_pos (congrArg _ hs)]
    · rw [if_neg (Ne.symm hs), if_neg fun hj => hs (Subscription.toJson_injective hj)]

/-! ### The loop over the subscriptions -/

@[simp] theorem manager_sendWsDataFromSnapshot (self : Connection) (now time height : ℕ)
    (sub : Subscription) (encoded : Except String (Option String)) :
    (self.sendWsDataFromSnapshot now sub time height encoded).1.manager = self.manager := by
  unfold sendWsDataFromSnapshot
  split
  · split
    · rfl
    · split_ifs
      · rfl
      · split <;> rfl
  · rfl

theorem Open.sendWsDataFromSnapshot (h : Open toString self)
    (hsub : sub ∈ self.manager.subscriptions) (now : ℕ) {views : L2Snapshots} {time height : ℕ}
    {encoded : Except String (Option String)}
    (ha : Answers toString sub views time height encoded) :
    Open toString (self.sendWsDataFromSnapshot now sub time height encoded).1 := by
  unfold Connection.sendWsDataFromSnapshot
  split
  · split
    · exact h
    · split_ifs with hold
      · exact h
      · split
        · exact h
        · exact h
        · rename_i text
          refine h.frame hsub (fun previous hp => ?_) (Answers.encodes ha.eq_encode.symm)
          by_contra hle
          rw [hp] at hold
          exact hold (decide_eq_true (Nat.le_of_not_lt hle))
  · exact h

/-- A frame at a new height is sent. -/
theorem sendWsDataFromSnapshot_later {self : Connection} {now time height : ℕ} {coin text : String}
    {nSigFigs nLevels mantissa : Option ℕ}
    (hsub : sub = .l2Book coin nSigFigs nLevels mantissa)
    (hrecent : requireRecentSource now time = .ok ())
    (hlater : ∀ previous, self.sentPositions.lookup sub.toJson = some previous →
      previous < height) :
    self.sendWsDataFromSnapshot now sub time height (.ok (some text)) =
      (self.delivered sub height text, .ok true) := by
  have hnot : ¬ (self.sentPositions.lookup sub.toJson).any (fun previous => height ≤ previous) = true := by
    rw [Option.any_eq_true]
    rintro ⟨previous, hp, hle⟩
    exact absurd (hlater previous hp) (Nat.not_lt.mpr (of_decide_eq_true hle))
  rw [hsub] at hnot ⊢
  unfold Connection.sendWsDataFromSnapshot
  dsimp only
  rw [hrecent]
  dsimp only
  rw [if_neg hnot]
  rfl

theorem Open.sendViews {views : L2Snapshots} {time height : ℕ} {now : Subscription → ℕ}
    {encoded : Subscription → Except String (Option String)} {order : List Subscription}
    (h : Open toString self) (hheld : ∀ sub ∈ order, sub ∈ self.manager.subscriptions)
    (ha : ∀ sub ∈ order, Answers toString sub views time height (encoded sub)) :
    Open toString (sendViews time height now encoded self order).1 := by
  induction order generalizing self with
  | nil => exact h
  | cons sub order ih =>
    have hfirst := h.sendWsDataFromSnapshot (hheld sub List.mem_cons_self) (now sub)
      (ha sub List.mem_cons_self)
    have hmanager := manager_sendWsDataFromSnapshot self (now sub) time height sub (encoded sub)
    unfold Connection.sendViews
    split
    · rename_i next e hout
      rw [hout] at hfirst
      exact hfirst
    · rename_i next sent hout
      rw [hout] at hfirst hmanager
      refine ih hfirst (fun s hs => ?_) fun s hs => ha s (List.mem_cons_of_mem sub hs)
      rw [hmanager]
      exact hheld s (List.mem_cons_of_mem sub hs)

theorem Open.sendEach {V : Type} (stream : Stream V) {height time : ℕ} {now : Subscription → ℕ}
    {data : HashMap String V} {order : List Subscription} (h : Open toString self)
    (hheld : ∀ sub ∈ order, sub ∈ self.manager.subscriptions) :
    Open toString (sendEach stream height time now self data order).1 := by
  induction order generalizing self data with
  | nil => exact h
  | cons sub order ih =>
    have hrest : ∀ s ∈ order, s ∈ self.manager.subscriptions := fun s hs =>
      hheld s (List.mem_cons_of_mem sub hs)
    unfold Connection.sendEach
    split
    · exact ih h hrest
    · split
      · exact h
      · split
        · exact ih h hrest
        · exact ih (h.push (hheld sub List.mem_cons_self) _) hrest

theorem Open.sendBatch {V : Type} (stream : Stream V) {height start : ℕ} {time : Option ℕ}
    {now : Subscription → ℕ} {data : HashMap String V} {order : List Subscription}
    (h : Open toString self) (hheld : ∀ sub ∈ order, sub ∈ self.manager.subscriptions) :
    Open toString (sendBatch stream height time start now data self order).1 := by
  unfold Connection.sendBatch
  split_ifs
  · exact h
  · split
    · exact h
    · split
      · exact h
      · exact h.sendEach stream hheld

/-! ### Requests -/

theorem rollBack_subscribed (hnew : sub ∉ self.manager.subscriptions) (message : String) :
    (self.subscribed sub).rollBack sub message = self.reply (.error message) := by
  have herase : (insert sub self.manager.subscriptions).erase sub = self.manager.subscriptions :=
    Finset.erase_insert hnew
  unfold rollBack subscribed SubscriptionManager.unsubscribe
  dsimp only
  rw [herase]

theorem Kept.subscribed (h : Kept toString self) (sub : Subscription) :
    Kept toString (self.subscribed sub) where
  orderly := h.orderly
  keys key hkey :=
    let ⟨s, hs, heq⟩ := h.keys key hkey
    ⟨s, Finset.mem_insert_of_mem hs, heq⟩

/-- What is read on the way of a request for L2 frames is what the shared cache answers. -/
def Reading.Served (toString : ServerResponse → Except String String) (reading : Reading)
    (selection : Subscription) : Prop :=
  ∀ time height views, reading.listener.computeL2Snapshot.1 = some (time, height, views) →
    Answers toString selection views time height reading.view ∧
      Answers toString selection views time height reading.encoded

/-- The books are still recent when their first frame is sent. -/
def Reading.Recent (reading : Reading) : Prop :=
  ∀ time height views, reading.listener.computeL2Snapshot.1 = some (time, height, views) →
    requireRecentSource reading.later time = .ok ()

/-- How a request for L2 frames is answered: it is refused, or it is confirmed and a frame
of the books of that moment follows at once, or there is no such frame within the bound and
the connection ends. -/
inductive L2Answer (toString : ServerResponse → Except String String) (selection : Subscription)
    (reading : Reading) : List Sent → Bool → Prop
  | refused (message : String) : L2Answer toString selection reading [.reply (.error message)] true
  | accepted {time height : ℕ} {views : L2Snapshots} {encoded : String}
      (current : reading.listener.computeL2Snapshot.1 = some (time, height, views))
      (bytes : BookWireCache.encode toString selection views time height = .ok (some encoded)) :
      L2Answer toString selection reading
        [.reply (.subscriptionResponse (.subscribe selection)), .frame selection height encoded] true
  | failed {time height : ℕ} {views : L2Snapshots} {e : String}
      (current : reading.listener.computeL2Snapshot.1 = some (time, height, views))
      (bytes : BookWireCache.encode toString selection views time height = .error e) :
      L2Answer toString selection reading [] false

/-- What a request may leave. -/
structure Answered (toString : ServerResponse → Except String String) (before : Connection)
    (log : List Sent) (out : Connection × Except String Unit) : Prop where
  sent : out.1.sent = before.sent ++ log
  kept : Kept toString out.1
  opened : out.2.isOk = true → Open toString out.1

variable {fromStr : String → Except String Subscription} {reading : Reading}

theorem Open.answered_reply (h : Open toString self) (message : String) :
    Answered toString self [.reply (.error message)]
      (self.reply (.error message), .ok ()) :=
  ⟨rfl, h.reply.toKept, fun _ => h.reply⟩

/-- A new subscription to recent books that have a frame is confirmed, and the frame sent. -/
theorem startL2_accepts {coin text : String} {nSigFigs nLevels mantissa : Option ℕ}
    {selection : Subscription} {time height : ℕ} {views : L2Snapshots}
    (hselection : selection = .l2Book coin nSigFigs nLevels mantissa)
    (hnone : self.sentPositions.lookup selection.toJson = none)
    (hround : fromStr selection.toJson = .ok selection)
    (hcurrent : reading.listener.computeL2Snapshot.1 = some (time, height, views))
    (hview : reading.view = .ok (some text)) (hencoded : reading.encoded = .ok (some text))
    (hnow : requireRecentSource reading.now time = .ok ())
    (hlater : requireRecentSource reading.later time = .ok ()) :
    (self.subscribed selection).startL2 fromStr selection reading =
      (((self.subscribed selection).reply (.subscriptionResponse (.subscribe selection))).delivered
        selection height text, .ok ()) := by
  have hfirst : ((self.subscribed selection).reply (.subscriptionResponse
        (.subscribe selection))).sendWsDataFromSnapshot reading.later selection time height
          (.ok (some text)) = (_, .ok true) :=
    sendWsDataFromSnapshot_later hselection hlater fun previous hp => by cases hnone.symm.trans hp
  unfold Connection.startL2
  rw [hcurrent]
  dsimp only
  rw [hview]
  dsimp only
  rw [if_pos ⟨rfl, hnow⟩, hround]
  dsimp only
  rw [hencoded, hfirst]

theorem Open.startL2 (h : Open toString self) {coin : String} {nSigFigs nLevels mantissa : Option ℕ}
    {selection : Subscription} (hselection : selection = .l2Book coin nSigFigs nLevels mantissa)
    (hnew : selection ∉ self.manager.subscriptions)
    (hround : fromStr selection.toJson = .ok selection)
    (hserved : reading.Served toString selection) (hrecent : reading.Recent) :
    ∃ log, Answered toString self log
        ((self.subscribed selection).startL2 fromStr selection reading) ∧
      L2Answer toString selection reading log
        ((self.subscribed selection).startL2 fromStr selection reading).2.isOk := by
  have hrefused : ∃ log, Answered toString self log
        ((self.subscribed selection).rollBack selection
          "Unable to grab fresh order book snapshot", .ok ()) ∧
      L2Answer toString selection reading log true := by
    rw [rollBack_subscribed hnew]
    exact ⟨_, h.answered_reply _, .refused _⟩
  cases hcurrent : reading.listener.computeL2Snapshot.1 with
  | none =>
    unfold Connection.startL2
    rw [hcurrent]
    exact hrefused
  | some current =>
    obtain ⟨time, height, views⟩ := current
    obtain ⟨hview, hencoded⟩ := hserved time height views hcurrent
    cases hbytes : BookWireCache.encode toString selection views time height with
    | error e =>
      unfold Connection.startL2
      rw [hcurrent, hview.eq_encode, hbytes]
      refine ⟨[], ⟨(List.append_nil _).symm, h.toKept.subscribed selection, fun h => by cases h⟩, ?_⟩
      exact .failed hcurrent hbytes
    | ok frame =>
      by_cases haccept : frame.isSome ∧ requireRecentSource reading.now time = .ok ()
      · obtain ⟨text, rfl⟩ := Option.isSome_iff_exists.mp haccept.1
        have hnone := h.no_position hnew
        have hlater : ∀ previous, self.sentPositions.lookup selection.toJson = some previous →
            previous < height := fun previous hp => by cases hnone.symm.trans hp
        have hsent := h.confirm.frame (Finset.mem_insert_self selection _) hlater
          (Answers.encodes hbytes)
        rw [startL2_accepts hselection hnone hround hcurrent (hview.eq_encode.trans hbytes)
          (hencoded.eq_encode.trans hbytes) haccept.2 (hrecent time height views hcurrent)]
        refine ⟨_, ⟨?_, hsent.toKept, fun _ => hsent⟩, .accepted hcurrent hbytes⟩
        exact List.append_assoc _ _ _
      · unfold Connection.startL2
        rw [hcurrent, hview.eq_encode, hbytes]
        dsimp only
        rw [if_neg haccept]
        exact hrefused

/-- Any other subscription that begins with a snapshot is one to the L4 book of a coin. -/
theorem handleImmediateSnapshot_other {listener : OrderBookListener} {now : ℕ}
    {message : ServerResponse}
    (hother : ∀ coin nSigFigs nLevels mantissa, sub ≠ .l2Book coin nSigFigs nLevels mantissa)
    (h : sub.handleImmediateSnapshot listener now = .ok (some message)) :
    ∃ coin s levels, sub = .l4Book coin ∧ listener.orderBookState = some s ∧
      message = .l4Book (.snapshot coin s.time s.height levels) := by
  cases sub with
  | trades coin => cases h
  | l2Book coin nSigFigs nLevels mantissa => exact absurd rfl (hother _ _ _ _)
  | l4Book coin =>
    unfold Subscription.handleImmediateSnapshot OrderBookListener.computeSnapshot at h
    cases hbook : listener.orderBookState with
    | none =>
      rw [hbook] at h
      cases h
    | some s =>
      rw [hbook] at h
      dsimp only [Option.map_some, OrderBookState.computeSnapshot, bind, Except.bind] at h
      split at h
      · cases h
      · split at h
        · cases h
          exact ⟨coin, s, _, rfl, rfl, rfl⟩
        · cases h

theorem Open.startOther (h : Open toString self) (hnew : sub ∉ self.manager.subscriptions)
    (hother : ∀ coin nSigFigs nLevels mantissa, sub ≠ .l2Book coin nSigFigs nLevels mantissa) :
    Open toString ((self.subscribed sub).startOther sub reading).1 := by
  have hconfirm : Open toString ((self.subscribed sub).reply _) := h.confirm
  unfold Connection.startOther
  split
  · rw [rollBack_subscribed hnew]
    exact h.reply
  · rename_i snapshotMsg hmsg
    dsimp only
    split
    · exact hconfirm
    · rename_i book
      obtain ⟨coin, s, levels, -, -, hbook⟩ := handleImmediateSnapshot_other hother hmsg
      cases hbook
    · exact hconfirm.push (Finset.mem_insert_self sub _) _

/-- A new subscription, valid and within the capacity. -/
theorem receive_new (fromStr : String → Except String Subscription) (reading : Reading)
    (hnew : sub ∉ self.manager.subscriptions) (hvalid : sub.validate self.coins = true)
    (hroom : self.manager.subscriptions.card < maxSubscriptions) :
    self.receiveClientMessage fromStr (.subscribe sub) reading =
      (self.subscribed sub).startStream fromStr sub reading := by
  have hfull : ¬ (self.manager.subscriptions.card ≥ maxSubscriptions ∧
      sub ∉ self.manager.subscriptions) := fun h => absurd hroom (Nat.not_lt.mpr h.1)
  have hsuccess : (self.manager.subscribe sub).1 = true := by
    rw [SubscriptionManager.subscribe, if_neg hfull]
    exact decide_eq_true hnew
  have hmanager : (self.manager.subscribe sub).2 = ⟨insert sub self.manager.subscriptions⟩ := by
    rw [SubscriptionManager.subscribe, if_neg hfull]
  unfold receiveClientMessage
  dsimp only
  rw [if_neg hfull, if_neg (by simp [hvalid]), if_pos hsuccess, hmanager]
  rfl

/-- A request to subscribe is refused, unless the subscription is new. -/
theorem receive_subscribe (fromStr : String → Except String Subscription) (self : Connection)
    (sub : Subscription) (reading : Reading) :
    (∃ message, self.receiveClientMessage fromStr (.subscribe sub) reading =
      (self.reply (.error message), .ok ())) ∨
    sub ∉ self.manager.subscriptions ∧ sub.validate self.coins = true ∧
      self.receiveClientMessage fromStr (.subscribe sub) reading =
        (self.subscribed sub).startStream fromStr sub reading := by
  by_cases hvalid : sub.validate self.coins = true
  · by_cases hnew : sub ∉ self.manager.subscriptions
    · by_cases hroom : self.manager.subscriptions.card < maxSubscriptions
      · exact .inr ⟨hnew, hvalid, receive_new fromStr reading hnew hvalid hroom⟩
      · unfold receiveClientMessage
        dsimp only
        rw [if_pos ⟨Nat.not_lt.mp hroom, hnew⟩]
        exact .inl ⟨_, rfl⟩
    · rw [not_not] at hnew
      have hfull : ¬ (self.manager.subscriptions.card ≥ maxSubscriptions ∧
          sub ∉ self.manager.subscriptions) := fun h => h.2 hnew
      unfold receiveClientMessage
      dsimp only
      rw [if_neg hfull, if_neg (by simp [hvalid]), SubscriptionManager.subscribe, if_neg hfull,
        if_neg (by simpa using hnew), Finset.insert_eq_of_mem hnew]
      exact .inl ⟨_, rfl⟩
  · unfold receiveClientMessage
    dsimp only
    rw [Bool.not_eq_true] at hvalid
    split_ifs
    · exact .inl ⟨_, rfl⟩
    · exact .inl ⟨_, rfl⟩

/-- A request to unsubscribe is refused, unless the subscription is held. -/
theorem receive_unsubscribe (fromStr : String → Except String Subscription) (self : Connection)
    (sub : Subscription) (reading : Reading) :
    (∃ message, self.receiveClientMessage fromStr (.unsubscribe sub) reading =
      (self.reply (.error message), .ok ())) ∨
    sub ∈ self.manager.subscriptions ∧
      self.receiveClientMessage fromStr (.unsubscribe sub) reading =
        (self.removed sub, .ok ()) := by
  unfold receiveClientMessage
  dsimp only
  split_ifs with hvalid hheld
  · exact .inl ⟨_, rfl⟩
  · exact .inr ⟨of_decide_eq_true hheld, rfl⟩
  · have hnot : sub ∉ self.manager.subscriptions := by
      simpa [SubscriptionManager.unsubscribe] using hheld
    rw [SubscriptionManager.unsubscribe, Finset.erase_eq_of_notMem hnot]
    exact .inl ⟨_, rfl⟩

/-! ### Runs -/

/-- An order in which the set of subscriptions may be walked. -/
def Walks (self : Connection) (order : List Subscription) : Prop :=
  order.Nodup ∧ order.toFinset = self.manager.subscriptions

theorem Walks.mem {order : List Subscription} (h : self.Walks order) :
    ∀ sub ∈ order, sub ∈ self.manager.subscriptions := fun _ hs => h.2 ▸ List.mem_toFinset.mpr hs

/-- What an event reads elsewhere is what is there to be read. -/
def Event.Admits (toString : ServerResponse → Except String String) (self : Connection) :
    Event → Prop
  | .broadcast (.snapshot views time height) order _ _ encoded =>
    self.Walks order ∧ ∀ sub ∈ order, Answers toString sub views time height (encoded sub)
  | .broadcast _ order _ _ _ => self.Walks order
  | .request (.subscribe sub) reading => reading.Served toString sub
  | _ => True

/-- The books are recent where a request is answered. -/
def Event.Recent : Event → Prop
  | .request _ reading => reading.Recent
  | _ => True

/-- What `handle_socket` starts with. -/
def start (listener : OrderBookListener) : Connection := ⟨⟨∅⟩, ∅, listener.startUniverse, []⟩

/-- Any turns of the loop, and whether it goes on. -/
inductive Run (toString : ServerResponse → Except String String)
    (fromStr : String → Except String Subscription) (ignoreSpot : Bool) :
    Connection → Bool → Prop
  | start (listener : OrderBookListener) : Run toString fromStr ignoreSpot (start listener) true
  | step {self : Connection} (e : Event) (before : Run toString fromStr ignoreSpot self true)
      (admits : e.Admits toString self) (recent : e.Recent) :
      Run toString fromStr ignoreSpot (self.step fromStr ignoreSpot e).1
        (self.step fromStr ignoreSpot e).2

theorem open_start (toString : ServerResponse → Except String String)
    (listener : OrderBookListener) : Open toString (start listener) where
  orderly := Orderly.nil
  keys key h := absurd (show key ∈ (∅ : HashMap String ℕ) from h) Finmap.notMem_empty
  held := rfl
  positions sub := by
    show none = Finmap.lookup _ (∅ : HashMap String ℕ)
    rw [Finmap.lookup_empty]

theorem Open.receiveClientMessage (h : Open toString self)
    (hround : ∀ sub : Subscription, fromStr sub.toJson = .ok sub) {message : ClientMessage}
    (hserved : ∀ sub, message = .subscribe sub → reading.Served toString sub)
    (hrecent : reading.Recent) :
    Kept toString (self.receiveClientMessage fromStr message reading).1 ∧
      ((self.receiveClientMessage fromStr message reading).2.isOk = true →
        Open toString (self.receiveClientMessage fromStr message reading).1) := by
  have hopen {out : Connection × Except String Unit} (h : Open toString out.1) :
      Kept toString out.1 ∧ (out.2.isOk = true → Open toString out.1) := ⟨h.toKept, fun _ => h⟩
  cases message with
  | subscribe sub =>
    obtain ⟨m, hout⟩ | ⟨hnew, -, hout⟩ := receive_subscribe fromStr self sub reading
    · rw [hout]
      exact hopen h.reply
    · rw [hout]
      cases sub with
      | trades coin => exact hopen (h.startOther hnew (by simp))
      | l4Book coin => exact hopen (h.startOther hnew (by simp))
      | l2Book coin nSigFigs nLevels mantissa =>
        obtain ⟨log, hanswered, -⟩ := h.startL2 rfl hnew (hround _) (hserved _ rfl) hrecent
        exact ⟨hanswered.kept, hanswered.opened⟩
  | unsubscribe sub =>
    obtain ⟨m, hout⟩ | ⟨-, hout⟩ := receive_unsubscribe fromStr self sub reading
    · rw [hout]
      exact hopen h.reply
    · rw [hout]
      exact hopen h.remove

/-- One turn of the loop. -/
theorem Open.step (h : Open toString self)
    (hround : ∀ sub : Subscription, fromStr sub.toJson = .ok sub) (ignoreSpot : Bool) {e : Event}
    (hadmits : e.Admits toString self) (hrecent : e.Recent) :
    Kept toString (self.step fromStr ignoreSpot e).1 ∧
      ((self.step fromStr ignoreSpot e).2 = true →
        Open toString (self.step fromStr ignoreSpot e).1) := by
  have hopen {out : Connection} {goesOn : Bool} (h : Open toString out) :
      Kept toString out ∧ (goesOn = true → Open toString out) := ⟨h.toKept, fun _ => h⟩
  cases e with
  | malformed text => exact hopen h.reply
  | request message reading =>
    refine h.receiveClientMessage hround (fun sub hsub => ?_) hrecent
    subst hsub
    exact hadmits
  | broadcast message order start now encoded =>
    cases message with
    | gap => exact hopen h.reply
    | fills batch => exact hopen (h.sendBatch trades hadmits.mem)
    | l4BookUpdates diffBatch statusBatch => exact hopen (h.sendBatch l4 hadmits.mem)
    | snapshot views time height =>
      have hcoins : Open toString { self with coins := newUniverse views ignoreSpot } :=
        ⟨⟨h.orderly, h.keys⟩, h.held, h.positions⟩
      exact hopen (hcoins.sendViews hadmits.1.mem hadmits.2)

theorem Run.kept {ignoreSpot goesOn : Bool}
    (hround : ∀ sub : Subscription, fromStr sub.toJson = .ok sub)
    (h : Run toString fromStr ignoreSpot self goesOn) :
    Kept toString self ∧ (goesOn = true → Open toString self) := by
  induction h with
  | start listener => exact ⟨(open_start toString listener).toKept, fun _ => open_start toString listener⟩
  | step e before admits recent ih => exact (ih.2 rfl).step hround ignoreSpot admits recent

/-- In every run of a connection, whatever is broadcast and requested in whatever order: the
positions are those of subscriptions that are held; nothing is sent for a subscription that
is not held; the frames of a subscription go up in height until it is removed, and each is
of its coin at its height; and a request for L2 frames that is accepted is answered by its
confirmation and at once by a frame of the books of that moment. -/
theorem l2_positions_are_monotone {ignoreSpot goesOn : Bool}
    (hround : ∀ sub : Subscription, fromStr sub.toJson = .ok sub)
    (h : Run toString fromStr ignoreSpot self goesOn) :
    (∀ key ∈ self.sentPositions, ∃ sub ∈ self.manager.subscriptions, sub.toJson = key) ∧
    (∀ before x after, self.sent = before ++ x :: after → x.Fits toString before) ∧
    (∀ before mid after sub height encoded height' encoded',
      self.sent = before ++ .frame sub height encoded :: mid ++
        .frame sub height' encoded' :: after →
      Sent.reply (.subscriptionResponse (.unsubscribe sub)) ∉ mid → height < height') ∧
    (goesOn = true → heldIn self.sent = self.manager.subscriptions ∧
      ∀ coin nSigFigs nLevels mantissa reading,
        let sub : Subscription := .l2Book coin nSigFigs nLevels mantissa
        let e : Event := .request (.subscribe sub) reading
        e.Admits toString self → e.Recent →
        ∃ log, (self.step fromStr ignoreSpot e).1.sent = self.sent ++ log ∧
          L2Answer toString sub reading log (self.step fromStr ignoreSpot e).2) := by
  obtain ⟨hkept, hopen⟩ := h.kept hround
  refine ⟨hkept.keys, hkept.orderly, ?_, fun hgoes => ⟨(hopen hgoes).held, ?_⟩⟩
  · intro before mid after sub height encoded height' encoded' hlog hmid
    exact hkept.orderly.height_lt hlog hmid
  · intro coin nSigFigs nLevels mantissa reading sub e hadmits hrecent
    obtain ⟨m, hout⟩ | ⟨hnew, -, hout⟩ := receive_subscribe fromStr self sub reading
    · refine ⟨[.reply (.error m)], ?_, ?_⟩
      · show (self.receiveClientMessage fromStr _ reading).1.sent = _
        rw [hout]
        rfl
      · show L2Answer _ _ _ _ (self.receiveClientMessage fromStr _ reading).2.isOk
        rw [hout]
        exact .refused m
    · obtain ⟨log, hanswered, hanswer⟩ := (hopen hgoes).startL2 rfl hnew (hround _) hadmits hrecent
      refine ⟨log, ?_, ?_⟩
      · show (self.receiveClientMessage fromStr _ reading).1.sent = _
        rw [hout]
        exact hanswered.sent
      · show L2Answer _ _ _ _ (self.receiveClientMessage fromStr _ reading).2.isOk
        rw [hout]
        exact hanswer

/-- An empty cache may answer. -/
theorem answers_encode (toString : ServerResponse → Except String String) (sub : Subscription)
    (views : L2Snapshots) (time height : ℕ) : Answers toString sub views time height
      (BookWireCache.encode toString sub views time height) :=
  have hkeeps : ({} : BookWireCache).KeepsAddress ⟨0, views⟩ := fun source h => by cases h
  ⟨0, [], {}, .start, hkeeps, (BookWireCache.get_eq_encode BookWireCache.valid_default hkeeps).1⟩

/-- A subscription to a coin that has no book yet, and the broadcast of the next block. -/
theorem l2_positions_are_monotone_two_frames :
    let toString : ServerResponse → Except String String
      | .l2Book book => .ok (ServerResponse.l2Frame book)
      | _ => .error "not an L2 frame"
    let sub : Subscription := .l2Book "#10" none none none
    let text (height : ℕ) := ServerResponse.l2Frame ⟨"#10", 0, height, ⟨[], []⟩⟩
    ∃ (fromStr : String → Except String Subscription) (self : Connection),
      Run toString fromStr true self true ∧
      self.sent = [.reply (.subscriptionResponse (.subscribe sub)), .frame sub 100 (text 100),
        .frame sub 101 (text 101)] ∧
      heldIn self.sent = self.manager.subscriptions := by
  intro toString sub text
  have : Nonempty Subscription := ⟨sub⟩
  let fromStr (text : String) : Except String Subscription :=
    .ok (Function.invFun Subscription.toJson text)
  have hround (s : Subscription) : fromStr s.toJson = .ok s :=
    congrArg Except.ok (Function.leftInverse_invFun Subscription.toJson_injective s)
  let listener := { OrderBookListener.new none true .all with
    orderBookState := some (.fromSnapshot ∅ 100 0 true true) }
  have hcurrent : listener.computeL2Snapshot.1 = some (0, 100, ∅) := rfl
  have hbytes : ∀ height ∈ [100, 101],
      BookWireCache.encode toString sub ∅ 0 height = .ok (some (text height)) := by
    decide +kernel
  have hrecent : requireRecentSource 0 0 = .ok () := by decide
  let reading : Reading := ⟨listener, 0, 0, .ok (some (text 100)), .ok (some (text 100))⟩
  let first := ((start listener).subscribed sub).reply (.subscriptionResponse (.subscribe sub))
  have hstart : (start listener).step fromStr true (.request (.subscribe sub) reading) =
      (first.delivered sub 100 (text 100), true) := by
    have hnew : sub ∉ (start listener).manager.subscriptions := Finset.notMem_empty sub
    have hvalid : sub.validate (start listener).coins = true := by decide +kernel
    have haccepts : ((start listener).subscribed sub).startL2 fromStr sub reading =
        (first.delivered sub 100 (text 100), .ok ()) :=
      startL2_accepts rfl (Finmap.lookup_empty _) (hround sub) hcurrent rfl rfl hrecent hrecent
    exact congrArg (fun out => (out.1, out.2.isOk))
      ((receive_new fromStr reading hnew hvalid (by decide)).trans haccepts)
  let second := { first.delivered sub 100 (text 100) with coins := ∅ }
  let next : Event := .broadcast (.snapshot ∅ 0 101) [sub] 0 (fun _ => 0)
    fun _ => .ok (some (text 101))
  have hnext : (first.delivered sub 100 (text 100)).step fromStr true next =
      (second.delivered sub 101 (text 101), true) := by
    have hlater : ∀ previous, second.sentPositions.lookup sub.toJson = some previous →
        previous < 101 := by
      intro previous hp
      rw [show second.sentPositions = Finmap.insert sub.toJson 100 ∅ from rfl,
        Finmap.lookup_insert] at hp
      cases hp
      decide
    have hsend : second.sendWsDataFromSnapshot 0 sub 0 101 (.ok (some (text 101))) = _ :=
      sendWsDataFromSnapshot_later rfl hrecent hlater
    show ((sendViews 0 101 _ _ second [sub]).1, (sendViews 0 101 _ _ second [sub]).2.isOk) = _
    rw [sendViews, hsend]
    rfl
  have hrun : Run toString fromStr true (start listener) true := .start listener
  have hanswers : ∀ height ∈ [100, 101],
      Answers toString sub ∅ 0 height (.ok (some (text height))) := by
    intro height hheight
    rw [← hbytes height hheight]
    exact answers_encode toString sub ∅ 0 height
  have hserved : (Event.request (.subscribe sub) reading).Admits toString (start listener) := by
    intro time height views hv
    cases hcurrent.symm.trans hv
    exact ⟨hanswers 100 (by decide), hanswers 100 (by decide)⟩
  have hrecents : (Event.request (.subscribe sub) reading).Recent := by
    intro time height views hv
    cases hcurrent.symm.trans hv
    exact hrecent
  have hfirst := hrun.step _ hserved hrecents
  rw [hstart] at hfirst
  have hadmits : next.Admits toString (first.delivered sub 100 (text 100)) := by
    refine ⟨⟨by decide, by decide⟩, fun s hs => ?_⟩
    obtain rfl := List.mem_singleton.mp hs
    exact hanswers 101 (by decide)
  have hlast := hfirst.step _ hadmits trivial
  rw [hnext] at hlast
  exact ⟨fromStr, _, hlast, rfl, ((l2_positions_are_monotone hround hlast).2.2.2 rfl).1⟩

end Connection
end OrderBookServer
