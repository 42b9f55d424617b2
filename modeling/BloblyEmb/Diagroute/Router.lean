import BloblyEmb.Diag.Transport
import BloblyEmb.Isotp.Receive
import Mathlib.Data.Int.Notation

/-!
# The diagnostic router

A gateway forwards the diagnostic requests of a network tester to nodes behind it
(`comm/diagroute`): one link, one exchange at a time. The owner hands in requests and received
frames, steps the timers, and pumps the frames onto the bus of the exchange. The answers wait in a
queue of two. A channel is the list of its answers to the frames it is given: when the list ends it
is not ready.
-/
namespace BloblyEmb.Diagroute
open Isotp (Link maxPayload fresh)
open Diag

def maxRoutes : ℕ := 8

/-- How long the target's next answer may take once the request has left, in microseconds. -/
def answerWaitUs : UInt64 := 6000000

/-- How long the frames of an exchange may stop moving while something is in flight. -/
def stallUs : UInt64 := 5000000

/-- How long a bus may wait undrained while the queue of answers is full. -/
def gateHoldUs : UInt64 := 20000

/-- The answers that may wait. -/
def queueLen : ℕ := 2

/-- How much of a request an answer is compared with. -/
def reqHeadLen : ℕ := 31

structure Route where
  logical : UInt16 := 0
  bus : UInt8 := 0
  txId : UInt32 := 0
  rxId : UInt32 := 0
deriving Inhabited, DecidableEq

inductive Verdict where
  | accepted
  | unknownTarget
  | locked
  | busy
  | refused
deriving DecidableEq

/-- The services whose answer echoes the sub-function. -/
def echoesSub (sid : UInt8) : Bool :=
  [0x10, 0x11, 0x19, 0x27, 0x28, 0x29, 0x31, 0x3E, 0x85].contains sid

/-- One of the identifiers of a request is the one of the answer. -/
def echoesId (a : List UInt8) : List UInt8 → Bool
  | hi :: lo :: ids => (a.getD 1 0 == hi && a.getD 2 0 == lo) || echoesId a ids
  | _ => false

/-- The answer `a` is one to the request of `full` bytes that begins with `req`. -/
def answers (a req : List UInt8) (full : ℕ) : Bool :=
  let n := a.length
  let rn := req.length
  let sid := req.getD 0 0
  let sub := req.getD 1 0 &&& 0x7F
  if n < 1 ∨ rn < 1 then false
  else if a.getD 0 0 = 0x7F then decide (2 ≤ n) && a.getD 1 0 == sid
  else if a.getD 0 0 ≠ sid + 0x40 then false
  else if echoesSub sid then
    if n < 2 ∨ rn < 2 ∨ a.getD 1 0 ≠ sub then false
    else if sid = 0x31 then
      decide (4 ≤ n ∧ 4 ≤ rn) && a.getD 2 0 == req.getD 2 0 && a.getD 3 0 == req.getD 3 0
    else if sid = 0x19 ∧ (sub = 0x04 ∨ sub = 0x06) then
      if n < 6 ∨ rn < 5 ∨ a.getD 2 0 ≠ req.getD 2 0 ∨ a.getD 3 0 ≠ req.getD 3 0 ∨
          a.getD 4 0 ≠ req.getD 4 0 then false
      else if n = 6 ∨ rn < 6 ∨ req.getD 5 0 = 0xFF then true
      else if req.getD 5 0 = 0xFE ∧ sub = 0x06 then
        decide (0x90 ≤ a.getD 6 0 ∧ a.getD 6 0 ≤ 0xEF)
      else a.getD 6 0 == req.getD 5 0
    else true
  else if sid = 0x22 then
    -- identifiers past what was kept of the request cannot be told
    if n < 3 then false else echoesId a req.tail || decide (rn < full)
  else if sid = 0x2E then
    decide (3 ≤ n ∧ 3 ≤ rn) && a.getD 1 0 == req.getD 1 0 && a.getD 2 0 == req.getD 2 0
  else if sid = 0x36 then decide (2 ≤ n ∧ 2 ≤ rn) && a.getD 1 0 == req.getD 1 0
  else true

structure Answer where
  logical : UInt16
  ticket : UInt32
  data : List UInt8
deriving DecidableEq

structure Router where
  routes : List Route
  level : UInt8
  forwarded : UInt32
  answered : UInt32
  timeouts : UInt32
  failed : UInt32
  stale : UInt32
  lost : UInt32
  link : Link
  /-- The route of the exchange in flight. -/
  active : Option ℕ
  ticket : UInt32
  reqHead : List UInt8
  reqFull : ℕ
  /-- The link's aborted sends when the request was accepted. -/
  aborts : UInt32
  /-- The last frame of the exchange, either way. -/
  movedAt : UInt64
  sending : Bool
  fullHeld : Bool
  fullSince : UInt64
  /-- When the next answer must have begun, once the request has left. -/
  deadline : UInt64
  granted : Bool
  /-- The tester's first routed request named its connection. -/
  bound : Bool
  grantConn : UInt32
  queue : List Answer

namespace Router

/-- `init`, with the routes that were added. -/
def init (level bs : UInt8) (routes : List Route) : Router where
  routes := routes
  level := level
  forwarded := 0
  answered := 0
  timeouts := 0
  failed := 0
  stale := 0
  lost := 0
  link := (fresh bs 0 0 0 0).initDefaults
  active := none
  ticket := 0
  reqHead := []
  reqFull := 0
  aborts := 0
  movedAt := 0
  sending := false
  fullHeld := false
  fullSince := 0
  deadline := 0
  granted := false
  bound := false
  grantConn := 0
  queue := []

/-- The route of the exchange in flight. -/
def route (r : Router) (i : ℕ) : Route := r.routes.getD i default

def endExchange (r : Router) : Router :=
  { r with active := none, sending := false, deadline := 0, link := r.link.abortTx.abortRx }

/-- The tester holds a level on the gateway's own server. -/
def hold (r : Router) (unlocked : UInt8) : Router :=
  if r.level ≠ 0 ∧ unlocked = r.level then { r with granted := true } else r

/-! ## Timers -/

/-- The request is no longer being sent: it left, or the link gave up on it. -/
def settle (r : Router) (now : UInt64) : Router :=
  if r.active = none ∨ r.sending = false ∨ r.link.busy then r
  else if r.link.txAborts ≠ r.aborts then { r with failed := r.failed + 1 }.endExchange
  else { r with sending := false, deadline := now + answerWaitUs }

/-- No answer has begun in time. -/
def overdue (r : Router) (now : UInt64) : Router :=
  if r.active = none ∨ r.sending ∨ now < r.deadline ∨ ¬r.link.idle then r
  else { r with timeouts := r.timeouts + 1 }.endExchange

/-- The frames of the exchange have stopped moving. -/
def stalled (r : Router) (now : UInt64) : Prop := ¬r.link.idle ∧ stallUs ≤ now - r.movedAt

instance (r : Router) (now : UInt64) : Decidable (r.stalled now) :=
  inferInstanceAs (Decidable (_ ∧ _))

def step (r : Router) (now : UInt64) : Router :=
  let r := { r with link := r.link.tick now }
  if r.active = none then r
  else
    let r := r.settle now
    if r.active = none then r
    else if r.stalled now then { r with timeouts := r.timeouts + 1 }.endExchange
    else r.overdue now

/-! ## Requests -/

/-- The tester of the connection, and the route it holds: a tester on a new connection authenticates
for itself, and its first request names the connection. -/
def bindRoute (r : Router) (conn : UInt32) (unlocked : UInt8) : Router :=
  let r := if r.granted ∧ r.bound ∧ r.grantConn ≠ conn then
    { r with granted := false, bound := false } else r
  let r := r.hold unlocked
  if r.granted ∧ ¬r.bound then { r with bound := true, grantConn := conn } else r

/-- The exchange for a request, in the place of whatever the previous one left. -/
def begin (r : Router) (idx : ℕ) (req : List UInt8) (ticket : UInt32) (now : UInt64) :
    Verdict × Router :=
  let r := { r.endExchange with queue := [], fullHeld := false }
  let sent := r.link.send req
  if sent.1 = false then (.refused, { r with link := sent.2 })
  else
    (.accepted, { r with
      link := sent.2, active := some idx, ticket := ticket, reqHead := req.take reqHeadLen,
      reqFull := req.length, aborts := sent.2.txAborts, movedAt := now, sending := true,
      forwarded := r.forwarded + 1 })

/-- One routed request, for the route `idx`. -/
def accept (r : Router) (idx : ℤ) (req : List UInt8) (conn ticket : UInt32) (unlocked : UInt8)
    (now : UInt64) : Verdict × Router :=
  let r := r.step now
  if idx < 0 ∨ r.routes.length ≤ idx then (.unknownTarget, r)
  else if req.length < 1 ∨ maxPayload < req.length then (.refused, r)
  else
    let r := r.bindRoute conn unlocked
    if ¬r.granted then (.locked, r)
    else if r.active ≠ none ∧ r.sending then (.busy, r)
    else r.begin idx.toNat req ticket now

/-! ## Received frames -/

/-- A response that says the final one is still to come. -/
def pending (a : List UInt8) : Bool :=
  decide (3 ≤ a.length) && a.getD 0 0 == 0x7F && a.getD 2 0 == 0x78

/-- A completed answer goes into the queue, unless it is full or the answer is to another request. -/
def collect (r : Router) (now : UInt64) : Router :=
  if queueLen ≤ r.queue.length then { r with link := r.link.abortRx, lost := r.lost + 1 }
  else
    let taken := r.link.take
    let r := { r with link := taken.2 }
    match taken.1 with
    | none => r
    | some a =>
      if a.length = 0 then r
      else if ¬answers a r.reqHead r.reqFull then { r with stale := r.stale + 1 }
      else
        let r := { r with
          queue := r.queue ++ [Answer.mk (r.route (r.active.getD 0)).logical r.ticket a],
          answered := r.answered + 1 }
        if pending a then { r with deadline := now + answerWaitUs } else r.endExchange

/-- The frame is one of the target of the exchange in flight. -/
def concerns (r : Router) (bus : UInt8) (f : Frame) : Prop :=
  ∃ i ∈ r.active, f.ext = false ∧ (r.route i).bus = bus ∧ f.id = (r.route i).rxId

instance (r : Router) (bus : UInt8) (f : Frame) : Decidable (r.concerns bus f) :=
  inferInstanceAs (Decidable (∃ i ∈ r.active, _))

/-- The frame is none of a flow control. -/
def notFlow (f : Frame) : Bool := f.data.head?.any fun b => b &&& 0xF0 != 0x30

/-- The link takes a frame; progress is what it took. -/
def intake (r : Router) (f : Frame) (now : UInt64) : Router :=
  let before := r.link.progress
  let taken := takeFrame r.link now f
  let r := { r with link := taken.2 }
  let r := if taken.1 then r.collect now else r
  if r.link.progress ≠ before then { r with movedAt := now } else r

/-- One received frame from a bus; the timers first. -/
def onFrame (r : Router) (bus : UInt8) (f : Frame) (now : UInt64) : Router :=
  if ¬r.concerns bus f then r
  else
    let r := r.step now
    if r.active = none then r
    -- only flow control belongs to a request that is still leaving
    else if r.sending ∧ notFlow f then r
    else r.intake f now

/-! ## Frames for the bus -/

/-- The frames of the exchange onto its bus; a frame that the channel refuses ends it. -/
def pumpAll (r : Router) (txId : UInt32) (now : UInt64) : List Bool → Router × List Frame
  | [] => (r.settle now, [])
  | ok :: rest =>
    let next := nextFrame r.link txId now
    match next.1 with
    | none => ({ r with link := next.2 }.settle now, [])
    | some f =>
      if ok = false then ({ r with link := next.2.abortTx }.endExchange, [])
      else
        let pumped := pumpAll { r with link := next.2, movedAt := now } txId now rest
        (pumped.1, f :: pumped.2)

def pump (r : Router) (now : UInt64) (channel : List Bool) : Router × List Frame :=
  match r.active with
  | none => (r, [])
  | some i => r.pumpAll (r.route i).txId now channel

/-! ## The queue of answers -/

/-- The tester's connection ended. -/
def cancel (r : Router) : Router :=
  { r.endExchange with queue := [], fullHeld := false, granted := false, bound := false }

/-- The bus of the exchange may be drained. -/
def room (r : Router) (now : UInt64) : Bool × Router :=
  if r.queue.length < queueLen then (true, { r with fullHeld := false })
  else if ¬r.fullHeld then (false, { r with fullHeld := true, fullSince := now })
  else (decide (gateHoldUs ≤ now - r.fullSince), r)

/-- The oldest answer has been handed over. -/
def pop (r : Router) : Router :=
  match r.queue with
  | [] => r
  | _ :: queue => { r with queue := queue, fullHeld := false }

end Router

/-! ## The owner's pass -/

inductive Event where
  | accept (idx : ℤ) (req : List UInt8) (conn ticket : UInt32) (unlocked : UInt8) (now : UInt64)
  | hold (unlocked : UInt8)
  | frame (bus : UInt8) (f : Frame) (now : UInt64)
  | step (now : UInt64)
  /-- The owner's turn to send: the timers, then the frames onto the bus of the exchange. -/
  | produce (now : UInt64) (channel : List Bool)
  | room (now : UInt64)
  | pop
  | cancel

namespace Event

/-- The time of an event. -/
def time : Event → Option UInt64
  | accept _ _ _ _ _ now | frame _ _ now | step now | produce now _ | room now => some now
  | _ => none

end Event

/-- One event; the label is the verdict on a request. -/
def apply (r : Router) : Event → Router × Option Verdict
  | .accept idx req conn ticket unlocked now =>
    ((r.accept idx req conn ticket unlocked now).2,
      some (r.accept idx req conn ticket unlocked now).1)
  | .hold unlocked => (r.hold unlocked, none)
  | .frame bus f now => (r.onFrame bus f now, none)
  | .step now => (r.step now, none)
  | .produce now channel => (((r.step now).pump now channel).1, none)
  | .room now => ((r.room now).2, none)
  | .pop => (r.pop, none)
  | .cancel => (r.cancel, none)

end BloblyEmb.Diagroute
