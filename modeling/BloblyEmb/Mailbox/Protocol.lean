import BloblyEmb.Lib.Trace

/-!
# The mailbox of the network transport

The thread that runs the TCP connection hands one request at a time to the thread that serves it,
through a state that both write (`driver/eth/doip_mb.h`). Each of its functions is one step here; the
connection, what TCP has not had acknowledged, and the two threads' own places stand around it.
-/
namespace BloblyEmb.Mailbox

/-! ## The sequence rules -/

/-- The TCP states that the rules read. -/
def tcpEstablished : UInt32 := 5
def tcpCloseWait : UInt32 := 6
def tcpClosed : UInt32 := 1

structure Mb where
  posted : UInt32 := 0
  settled : UInt32 := 0
  /-- The request answered last, never a withdrawn one. -/
  served : UInt32 := 0
  queued : UInt32 := 0
  reported : UInt32 := 0
  drops : UInt32 := 0
  dropAfter : UInt32 := 0
  dropsSeen : UInt32 := 0
  pushed : UInt32 := 0
  pushTaken : UInt32 := 0
  pushQueued : UInt32 := 0
  pushReported : UInt32 := 0
deriving DecidableEq

namespace Mb

def post (m : Mb) : Mb := { m with posted := m.posted + 1 }

def waiting (m : Mb) : Bool := m.settled != m.posted

def serve (m : Mb) : Mb := { m with served := m.posted, settled := m.posted }

def withdraw (m : Mb) (seq : UInt32) : Mb := { m with settled := seq }

def collect (m : Mb) (seq : UInt32) : Bool := m.served == seq

/-- A response went to TCP. -/
def queue (m : Mb) : Mb := { m with queued := m.served }

def pushQueue (m : Mb) : Mb := { m with pushQueued := m.pushTaken }

def drop (m : Mb) : Mb :=
  { m with queued := 0, pushQueued := 0, pushTaken := m.pushed, dropAfter := m.posted,
           drops := m.drops + 1 }

def push (m : Mb) : Mb := { m with pushed := m.pushed + 1 }

def pushTake (m : Mb) : Bool × Mb :=
  if m.pushTaken = m.pushed then (false, m) else (true, { m with pushTaken := m.pushed })

/-- A socket on which everything sent has been acknowledged. -/
def drained (state unacked : UInt32) : Bool :=
  unacked == 0 && (state == tcpEstablished || state == tcpCloseWait)

def sentTake (m : Mb) (state unacked : UInt32) : Bool × Mb :=
  if m.served = m.reported ∨ m.queued ≠ m.served ∨ ¬drained state unacked then (false, m)
  else (true, { m with reported := m.served })

def pushSentTake (m : Mb) (state unacked : UInt32) : Bool × Mb :=
  if m.pushed = m.pushReported ∨ m.pushQueued ≠ m.pushed ∨ ¬drained state unacked then (false, m)
  else (true, { m with pushReported := m.pushed })

def droppedTake (m : Mb) : Bool × Mb :=
  if m.drops ≠ m.dropsSeen ∧ m.served ≤ m.dropAfter then
    (true, { m with dropsSeen := m.drops, pushTaken := m.pushed })
  else (false, { m with dropsSeen := m.drops })

end Mb

/-! ## The two threads and the connection -/

/-- What a send carries. -/
inductive Item where
  | answer (seq : UInt32)
  | push (seq : UInt32)
  /-- A routing activation, an acknowledgement, an alive check, an answer of a routed node. -/
  | other
deriving DecidableEq

/-- Where the thread of the connection is. -/
inductive Thread where
  | idle
  | waiting (seq : UInt32)
  /-- It has the answer, or a push, to send. -/
  | holding (item : Item)
  /-- TCP took it. -/
  | sent (item : Item)
  | pushQueueing (seq : UInt32)
  | dropping
deriving DecidableEq

/-- The socket: the tester may have closed its side. -/
inductive Tcp where
  | established
  | closeWait
  | closed
deriving DecidableEq

def Tcp.code : Tcp → UInt32
  | .established => tcpEstablished
  | .closeWait => tcpCloseWait
  | .closed => tcpClosed

structure Link where
  /-- The connections so far; the last one is the one of now. -/
  number : ℕ := 1
  /-- The thread holds it open. -/
  opened : Bool := true
  tcp : Tcp := .established
  inFlight : List Item := []
deriving DecidableEq

structure World where
  m : Mb := {}
  thread : Thread := .idle
  link : Link := {}
  /-- The server has pushed what was not reported sent, and it heard of a drop since it served. -/
  pushOut : Bool := false
  gone : Bool := false
deriving DecidableEq

inductive Event where
  -- the thread of the connection
  | post
  | collect
  | withdraw
  | pushTake
  /-- Anything that is neither an answer nor a push. -/
  | compose
  | discard
  | send
  | queue
  | pushQueue
  | recycle
  | drop
  | connect
  -- TCP
  | acknowledge (n : ℕ)
  | finish
  | reset
  -- the thread of the server
  | serve
  | push
  | sentTake
  | pushSentTake
  | droppedTake
deriving DecidableEq

inductive Label where
  | quiet
  | posted (seq : UInt32) (conn : ℕ)
  | served (seq : UInt32)
  | withdrawn (seq : UInt32)
  | acked (conn : ℕ) (items : List Item)
  | reported (seq : UInt32)
  | pushReported (seq : UInt32)
deriving DecidableEq

namespace World

/-- The state and the unacknowledged sends as the server reads them, a socket that is not open as
closed. -/
def readState (w : World) : UInt32 := if w.link.opened then w.link.tcp.code else tcpClosed

/-- Saturated, so that only no send reads as none. -/
def readUnacked (w : World) : UInt32 :=
  if w.link.opened ∧ w.link.inFlight ≠ [] then 1 else 0

def stepThread (w : World) : Event → World × Label
  | .post =>
    if w.thread = .idle ∧ w.link.opened then
      ({ w with m := w.m.post, thread := .waiting w.m.post.posted },
        .posted w.m.post.posted w.link.number)
    else (w, .quiet)
  | .collect =>
    match w.thread with
    | .waiting seq =>
      if w.m.collect seq then ({ w with thread := .holding (.answer seq) }, .quiet)
      else (w, .quiet)
    | _ => (w, .quiet)
  | .withdraw =>
    match w.thread with
    | .waiting seq =>
      if w.m.collect seq then (w, .quiet)
      else ({ w with m := w.m.withdraw seq, thread := .idle }, .withdrawn seq)
    | _ => (w, .quiet)
  | .pushTake =>
    if w.thread = .idle ∧ w.m.pushTake.1 then
      ({ w with m := w.m.pushTake.2, thread := .holding (.push w.m.pushTake.2.pushTaken) }, .quiet)
    else (w, .quiet)
  | .compose =>
    if w.thread = .idle ∧ w.link.opened then ({ w with thread := .holding .other }, .quiet)
    else (w, .quiet)
  | .discard =>
    match w.thread with
    | .holding _ => ({ w with thread := .idle }, .quiet)
    | _ => (w, .quiet)
  | .send =>
    match w.thread with
    | .holding item =>
      if w.link.opened ∧ w.link.tcp ≠ .closed then
        let link := { w.link with inFlight := w.link.inFlight ++ [item] }
        ({ w with link := link, thread := .sent item }, .quiet)
      else (w, .quiet)
    | _ => (w, .quiet)
  | .queue =>
    match w.thread with
    | .sent (.push seq) => ({ w with m := w.m.queue, thread := .pushQueueing seq }, .quiet)
    | .sent _ => ({ w with m := w.m.queue, thread := .idle }, .quiet)
    | _ => (w, .quiet)
  | .pushQueue =>
    match w.thread with
    | .pushQueueing _ => ({ w with m := w.m.pushQueue, thread := .idle }, .quiet)
    | _ => (w, .quiet)
  | .recycle =>
    -- between requests, or when a send failed
    match w.thread with
    | .idle | .holding _ =>
      if w.link.opened then
        let link := { w.link with opened := false, tcp := .closed, inFlight := [] }
        ({ w with link := link, thread := .dropping }, .quiet)
      else (w, .quiet)
    | _ => (w, .quiet)
  | .drop =>
    match w.thread with
    | .dropping => ({ w with m := w.m.drop, thread := .idle }, .quiet)
    | _ => (w, .quiet)
  | .connect =>
    if w.thread = .idle ∧ w.link.opened = false then
      let link := { number := w.link.number + 1 }
      ({ w with link := link }, .quiet)
    else (w, .quiet)
  | _ => (w, .quiet)

def stepTcp (w : World) : Event → World × Label
  | .acknowledge n =>
    if w.link.tcp = .closed then (w, .quiet)
    else
      let link := { w.link with inFlight := w.link.inFlight.drop n }
      ({ w with link := link }, .acked w.link.number (w.link.inFlight.take n))
  | .finish =>
    if w.link.tcp = .established then
      ({ w with link := { w.link with tcp := .closeWait } }, .quiet)
    else (w, .quiet)
  | .reset =>
    -- what was not acknowledged is released
    ({ w with link := { w.link with tcp := .closed, inFlight := [] } }, .quiet)
  | _ => (w, .quiet)

def stepServer (w : World) : Event → World × Label
  | .serve =>
    if w.m.waiting then ({ w with m := w.m.serve, gone := false }, .served w.m.serve.served)
    else (w, .quiet)
  | .push =>
    -- the next response of a routine, once the one before it was acknowledged
    if w.pushOut = false ∧ w.gone = false then ({ w with m := w.m.push, pushOut := true }, .quiet)
    else (w, .quiet)
  | .sentTake =>
    let taken := w.m.sentTake w.readState w.readUnacked
    ({ w with m := taken.2 }, if taken.1 then .reported taken.2.reported else .quiet)
  | .pushSentTake =>
    let taken := w.m.pushSentTake w.readState w.readUnacked
    if taken.1 then
      ({ w with m := taken.2, pushOut := false }, .pushReported taken.2.pushReported)
    else (w, .quiet)
  | .droppedTake =>
    let taken := w.m.droppedTake
    if taken.1 then ({ w with m := taken.2, pushOut := false, gone := true }, .quiet)
    else ({ w with m := taken.2 }, .quiet)
  | _ => (w, .quiet)

/-- One step of either thread, or of TCP. -/
def step (w : World) (e : Event) : World × Label :=
  match e with
  | .acknowledge _ | .finish | .reset => w.stepTcp e
  | .serve | .push | .sentTake | .pushSentTake | .droppedTake => w.stepServer e
  | _ => w.stepThread e

end World

end BloblyEmb.Mailbox
