import OrderBookServer.RecentHistory
import OrderBookServer.Delivery

/-!
# The trace of a connection

Each connection has a trace that is reported once it has ended: of the last broadcasts of
views, when each was begun, how many frames it brought the client, and when all of them
were written. A broadcast that ends the connection is never complete.
-/
namespace OrderBookServer

structure BatchTrace where
  height : ℕ
  sourceTimeMs : ℕ
  startedAtMs : ℕ
  completedAtMs : Option ℕ
  flushedFrames : ℕ
  deriving DecidableEq

structure DeliveryTrace where
  sourcePeerPort : ℕ
  openedAtMs : ℕ
  closedAtMs : Option ℕ
  batches : List BatchTrace

namespace DeliveryTrace

/-- `HISTORY` -/
def history : ℕ := 128

def new (sourcePeerPort nowMs : ℕ) : DeliveryTrace := ⟨sourcePeerPort, nowMs, none, []⟩

/-- `begin` -/
def start (self : DeliveryTrace) (height sourceTimeMs nowMs : ℕ) : DeliveryTrace :=
  { self with
    batches := RecentHistory.push history self.batches ⟨height, sourceTimeMs, nowMs, none, 0⟩ }

def sent (self : DeliveryTrace) : DeliveryTrace :=
  { self with
    batches := self.batches.modifyLast fun batch =>
      { batch with flushedFrames := batch.flushedFrames + 1 } }

def complete (self : DeliveryTrace) (nowMs : ℕ) : DeliveryTrace :=
  { self with
    batches := self.batches.modifyLast fun batch => { batch with completedAtMs := some nowMs } }

def drop (self : DeliveryTrace) (nowMs : ℕ) : DeliveryTrace :=
  { self with closedAtMs := some nowMs }

/-- The trace of all the broadcasts so far, of which it holds the last ones. -/
def upTo (sourcePeerPort openedAtMs : ℕ) (all : List BatchTrace) : DeliveryTrace :=
  ⟨sourcePeerPort, openedAtMs, none, all.rtake history⟩

variable (sourcePeerPort openedAtMs : ℕ) (all : List BatchTrace) (batch : BatchTrace)

theorem new_eq_upTo : new sourcePeerPort openedAtMs = upTo sourcePeerPort openedAtMs [] := by
  simp [new, upTo]

@[simp] theorem upTo_start (height sourceTimeMs nowMs : ℕ) :
    (upTo sourcePeerPort openedAtMs all).start height sourceTimeMs nowMs =
      upTo sourcePeerPort openedAtMs (all ++ [⟨height, sourceTimeMs, nowMs, none, 0⟩]) := by
  simp [upTo, start, RecentHistory.push_rtake, history]

theorem upTo_modifyLast (f : BatchTrace → BatchTrace) :
    { upTo sourcePeerPort openedAtMs (all ++ [batch]) with
      batches := (upTo sourcePeerPort openedAtMs (all ++ [batch])).batches.modifyLast f } =
      upTo sourcePeerPort openedAtMs (all ++ [f batch]) := by
  have hroom : 0 < history := by decide
  simp [upTo, RecentHistory.modifyLast_rtake hroom, List.modifyLast_concat]

@[simp] theorem upTo_sent : (upTo sourcePeerPort openedAtMs (all ++ [batch])).sent =
    upTo sourcePeerPort openedAtMs
      (all ++ [{ batch with flushedFrames := batch.flushedFrames + 1 }]) :=
  upTo_modifyLast sourcePeerPort openedAtMs all batch _

@[simp] theorem upTo_complete (nowMs : ℕ) :
    (upTo sourcePeerPort openedAtMs (all ++ [batch])).complete nowMs =
      upTo sourcePeerPort openedAtMs (all ++ [{ batch with completedAtMs := some nowMs }]) :=
  upTo_modifyLast sourcePeerPort openedAtMs all batch _

end DeliveryTrace

def Sent.isFrame : Sent → Bool
  | .frame _ _ _ => true
  | _ => false

/-- A connection with its trace. -/
structure TracedConnection where
  connection : Connection
  trace : DeliveryTrace

namespace TracedConnection

/-- The loop over the subscriptions at a broadcast of views. -/
def sendViews (time height : ℕ) (now : Subscription → ℕ)
    (encoded : Subscription → Except String (Option String)) :
    TracedConnection → List Subscription → TracedConnection × Except String Unit
  | self, [] => (self, .ok ())
  | self, sub :: subs =>
    match self.connection.sendWsDataFromSnapshot (now sub) sub time height (encoded sub) with
    | (connection, .error e) => (⟨connection, self.trace⟩, .error e)
    | (connection, .ok true) =>
      sendViews time height now encoded ⟨connection, self.trace.sent⟩ subs
    | (connection, .ok false) => sendViews time height now encoded ⟨connection, self.trace⟩ subs

/-- A turn, with the clock before and after it. -/
structure Turn where
  event : Connection.Event
  began : ℕ
  ended : ℕ

def step (fromStr : String → Except String Subscription) (ignoreSpot : Bool)
    (self : TracedConnection) (turn : Turn) : TracedConnection × Bool :=
  match turn.event with
  | .broadcast (.snapshot l2Snapshots time height) order _ now encoded =>
    let trace := self.trace.start height time turn.began
    let connection := { self.connection with coins := newUniverse l2Snapshots ignoreSpot }
    let out := sendViews time height now encoded ⟨connection, trace⟩ order
    (if out.2.isOk then { out.1 with trace := out.1.trace.complete turn.ended } else out.1,
      out.2.isOk)
  | e =>
    let out := self.connection.step fromStr ignoreSpot e
    (⟨out.1, self.trace⟩, out.2)

/-- What there is to tell of a turn: a broadcast of views, with the frames that were sent, and
when that was done if it was. -/
def Turn.batches (turn : Turn) (before : Connection) (out : Connection × Bool) : List BatchTrace :=
  match turn.event with
  | .broadcast (.snapshot _ time height) _ _ _ _ =>
    [⟨height, time, turn.began, if out.2 then some turn.ended else none,
      (out.1.sent.drop before.sent.length).countP Sent.isFrame⟩]
  | _ => []

/-- Turns, until one of them ends the connection. -/
def run (fromStr : String → Except String Subscription) (ignoreSpot : Bool) :
    TracedConnection → List Turn → TracedConnection × Bool
  | self, [] => (self, true)
  | self, turn :: turns =>
    let out := self.step fromStr ignoreSpot turn
    if out.2 then run fromStr ignoreSpot out.1 turns else out

/-- The turns of the connection alone, and all that there is to tell of them. -/
def told (fromStr : String → Except String Subscription) (ignoreSpot : Bool) :
    Connection → List Turn → (Connection × Bool) × List BatchTrace
  | self, [] => ((self, true), [])
  | self, turn :: turns =>
    let after := self.step fromStr ignoreSpot turn.event
    let rest := if after.2 then told fromStr ignoreSpot after.1 turns else (after, [])
    (rest.1, turn.batches self after ++ rest.2)

variable {fromStr : String → Except String Subscription} {ignoreSpot : Bool}
  {connection : Connection} {sourcePeerPort openedAtMs : ℕ} {past : List BatchTrace}

/-! ### The trace follows the connection -/

/-- A call says truly whether it sent a frame. -/
theorem sendWsDataFromSnapshot_tells (connection : Connection) (now : ℕ) (sub : Subscription)
    (time height : ℕ) (encoded : Except String (Option String)) :
    let out := connection.sendWsDataFromSnapshot now sub time height encoded
    (out.2 = .ok true ∧ ∃ text, out.1.sent = connection.sent ++ [.frame sub height text]) ∨
      (out.2 ≠ .ok true ∧ out.1.sent = connection.sent) := by
  unfold Connection.sendWsDataFromSnapshot
  split
  · split
    · exact .inr (by simp)
    · split_ifs
      · exact .inr (by simp)
      · split
        · exact .inr (by simp)
        · exact .inr (by simp)
        · exact .inl ⟨rfl, _, rfl⟩
  · exact .inr (by simp)

theorem sendViews_upTo (sourcePeerPort openedAtMs : ℕ) (past : List BatchTrace) (time height : ℕ)
    (now : Subscription → ℕ) (encoded : Subscription → Except String (Option String))
    (subs : List Subscription) (connection : Connection) (batch : BatchTrace) :
    let out := Connection.sendViews time height now encoded connection subs
    ∃ log, out.1.sent = connection.sent ++ log ∧
      sendViews time height now encoded
          ⟨connection, .upTo sourcePeerPort openedAtMs (past ++ [batch])⟩ subs =
        (⟨out.1, .upTo sourcePeerPort openedAtMs (past ++ [{ batch with
          flushedFrames := batch.flushedFrames + log.countP Sent.isFrame }])⟩, out.2) := by
  induction subs generalizing connection batch with
  | nil => exact ⟨[], by simp [sendViews, Connection.sendViews]⟩
  | cons sub subs ih =>
    have htells := sendWsDataFromSnapshot_tells connection (now sub) sub time height (encoded sub)
    rw [sendViews, Connection.sendViews]
    rcases hout : connection.sendWsDataFromSnapshot (now sub) sub time height (encoded sub)
      with ⟨next, e | _ | _⟩
    · have hsent : next.sent = connection.sent := by simpa [hout] using htells
      exact ⟨[], by simp [hsent]⟩
    · have hsent : next.sent = connection.sent := by simpa [hout] using htells
      obtain ⟨log, hlog, hrest⟩ := ih next batch
      exact ⟨log, hsent ▸ hlog, hrest⟩
    · obtain ⟨text, hsent⟩ : ∃ text, next.sent = connection.sent ++ [.frame sub height text] := by
        simpa [hout] using htells
      obtain ⟨log, hlog, hrest⟩ :=
        ih next { batch with flushedFrames := batch.flushedFrames + 1 }
      have hcount : batch.flushedFrames + (Sent.frame sub height text :: log).countP Sent.isFrame =
          batch.flushedFrames + 1 + log.countP Sent.isFrame := by
        simp [List.countP_cons, Sent.isFrame]
        omega
      refine ⟨.frame sub height text :: log, by simp [hlog, hsent], ?_⟩
      simpa [hcount] using hrest

/-- A turn with the trace is the turn of the connection, which the trace tells of. -/
theorem step_upTo (turn : Turn) :
    let after := connection.step fromStr ignoreSpot turn.event
    step fromStr ignoreSpot ⟨connection, .upTo sourcePeerPort openedAtMs past⟩ turn =
      (⟨after.1, .upTo sourcePeerPort openedAtMs (past ++ turn.batches connection after)⟩,
        after.2) := by
  obtain ⟨e, began, ended⟩ := turn
  cases e with
  | broadcast message order clock now encoded =>
    cases message with
    | snapshot views time height =>
      obtain ⟨log, hlog, hrest⟩ := sendViews_upTo sourcePeerPort openedAtMs past time height now
        encoded order { connection with coins := newUniverse views ignoreSpot }
        ⟨height, time, began, none, 0⟩
      simp only [step, DeliveryTrace.upTo_start, hrest, Connection.step, Turn.batches, hlog,
        List.drop_left]
      split_ifs with hok <;> simp [hok]
    | _ => simp [step, Turn.batches]
  | _ => simp [step, Turn.batches]

/-! ### What is reported -/

theorem run_upTo (turns : List Turn) :
    run fromStr ignoreSpot ⟨connection, .upTo sourcePeerPort openedAtMs past⟩ turns =
      (⟨(told fromStr ignoreSpot connection turns).1.1, .upTo sourcePeerPort openedAtMs
        (past ++ (told fromStr ignoreSpot connection turns).2)⟩,
          (told fromStr ignoreSpot connection turns).1.2) := by
  induction turns generalizing connection past with
  | nil => simp [run, told]
  | cons turn turns ih =>
    simp only [run, told, step_upTo]
    split_ifs with hgoes
    · simp [ih]
    · simp

theorem completed_of_mem_batches {turn : Turn} {after : Connection × Bool} {batch : BatchTrace}
    (h : batch ∈ turn.batches connection after) (hgoes : after.2 = true) :
    batch.completedAtMs ≠ none := by
  unfold Turn.batches at h
  split at h
  · simp_all
  · simp at h

theorem batches_dropLast (turn : Turn) (after : Connection × Bool) :
    (turn.batches connection after).dropLast = [] := by
  unfold Turn.batches
  split <;> simp

/-- Only the last broadcast may be incomplete, and it has ended the connection. -/
theorem told_completed (turns : List Turn) :
    ∀ batch ∈ if (told fromStr ignoreSpot connection turns).1.2 then
        (told fromStr ignoreSpot connection turns).2
      else (told fromStr ignoreSpot connection turns).2.dropLast, batch.completedAtMs ≠ none := by
  induction turns generalizing connection with
  | nil => simp [told]
  | cons turn turns ih =>
    simp only [told]
    by_cases hgoes : (connection.step fromStr ignoreSpot turn.event).2 = true
    · simp only [if_pos hgoes]
      have hrest := @ih (connection.step fromStr ignoreSpot turn.event).1
      have hfirst {batch : BatchTrace} (h : batch ∈ turn.batches connection
          (connection.step fromStr ignoreSpot turn.event)) : batch.completedAtMs ≠ none :=
        completed_of_mem_batches h hgoes
      intro batch hbatch
      split_ifs at hrest hbatch with hon
      · obtain hbatch | hbatch := List.mem_append.mp hbatch
        · exact hfirst hbatch
        · exact hrest batch hbatch
      · rw [List.dropLast_append] at hbatch
        split_ifs at hbatch
        · exact hfirst (List.mem_of_mem_dropLast hbatch)
        · obtain hbatch | hbatch := List.mem_append.mp hbatch
          · exact hfirst hbatch
          · exact hrest batch hbatch
    · simp [if_neg hgoes, batches_dropLast]

/-- Once a connection has ended, its trace is of the last of its broadcasts, no more than there is
room for, as they went: each with the frames that were sent in it, and completed unless it has
itself ended the connection. The connection is as it would be without the trace. -/
theorem reported_batches (listener : OrderBookListener) (turns : List Turn) (nowMs : ℕ) :
    let out := run fromStr ignoreSpot ⟨.start listener, .new sourcePeerPort openedAtMs⟩ turns
    let all := told fromStr ignoreSpot (.start listener) turns
    (out.1.connection, out.2) = all.1 ∧
      out.1.trace.drop nowMs =
        ⟨sourcePeerPort, openedAtMs, some nowMs, all.2.rtake DeliveryTrace.history⟩ ∧
      out.1.trace.batches.length ≤ DeliveryTrace.history ∧
      ∀ batch ∈ if out.2 then all.2 else all.2.dropLast, batch.completedAtMs ≠ none := by
  intro out all
  have hrun : out = (⟨all.1.1, .upTo sourcePeerPort openedAtMs all.2⟩, all.1.2) := by
    simp only [out, all, DeliveryTrace.new_eq_upTo, run_upTo, List.nil_append]
  rw [hrun]
  refine ⟨rfl, by simp [DeliveryTrace.drop, DeliveryTrace.upTo], ?_, told_completed turns⟩
  simpa [DeliveryTrace.upTo] using RecentHistory.length_rtake_le all.2 DeliveryTrace.history

end TracedConnection
end OrderBookServer
