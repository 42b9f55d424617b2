import BloblyEmb.Lib.Buffer
import BloblyEmb.Diag.Transport
import BloblyEmb.Isotp.Receive
import BloblyEmb.Uds.Application

/-!
# A node's diagnostic connection

One server on one bus connection, that a network transport shares (`comm/diag`): requests from
either side, the answers that leave over each, what the sides hide from each other, and the reset
that waits for its answer. `remote` says that a request is the network's.
-/
namespace BloblyEmb.Diag
open Isotp (Link maxPayload fresh)
open Uds.Application

/-- The requests of the network and the reset they may have asked for (`comm/uds/remote`). -/
structure RemoteReset where
  /-- The request served last is not yet acknowledged. -/
  inflight : Bool := false
  /-- The pending reset was asked over the network. -/
  reset : Bool := false
  /-- And its answer has been acknowledged. -/
  acked : Bool := false
deriving DecidableEq

namespace RemoteReset

def begin (r : RemoteReset) : RemoteReset := { r with inflight := true }

def asked (r : RemoteReset) (remote : Bool) : RemoteReset := { r with reset := remote, acked := false }

def sent (r : RemoteReset) : RemoteReset :=
  { r with inflight := false, acked := if r.reset then true else r.acked }

/-- The connection is gone: true when the pending reset must be cancelled. -/
def dropped (r : RemoteReset) : Bool × RemoteReset :=
  (r.reset && !r.acked, { r with inflight := false })

end RemoteReset

/-- What the owner sets once: the hooks, the tables, and what it refreshes in the identifiers before
a request. -/
structure Node (ε : Type) where
  hooks : Hooks ε
  config : Config
  refresh : ε → List Did → List Did
  rxId : UInt32
  txId : UInt32
  /-- Functional requests; 0 for none. -/
  functionalId : UInt32
  /-- The bootloader serves the network too. -/
  handoffRemote : Bool
  /-- The owner performs an answered reset itself. -/
  ownerResets : Bool

structure Connection (ε : Type) where
  link : Link
  server : Server ε
  resp : ℕ → UInt8
  /-- The session in force was entered by the network. -/
  remoteOwns : Bool
  remote : RemoteReset
  /-- The unlocked level was earned by the network. -/
  unlockRemote : Bool
  /-- The other side's unlock that a reset request hid, whose it is, and its session entry. -/
  heldBack : UInt8
  heldBackRemote : Bool
  heldBackEpoch : UInt32
  /-- The exchange in progress of either side, and its session entry. -/
  saLevel : Bool → UInt8
  saSeed : Bool → Vector UInt8 seedLen
  saEpoch : Bool → UInt32

/-- What an owner sees of a call. -/
structure Log where
  /-- A request was served, over the network or not, and its answer has this length. -/
  served : Option (Bool × ℕ) := none
  /-- That request ordered a reset. -/
  ordered : Bool := false
  sent : List Frame := []
  /-- The channel refused a frame. -/
  refused : Bool := false
  /-- The diagnostic state went back to power-on for an answered reset. -/
  performed : Bool := false
deriving DecidableEq

variable {ε : Type}

namespace Connection

/-- A connection of zeros after `init`. -/
def init (node : Node ε) (ctx : ε) (dids : List Did) (bs stmin : UInt8) : Connection ε where
  link := (fresh bs stmin 0 0 0).initDefaults
  server := ({ ctx := ctx, dids := dids } : Server ε).init node.hooks maxPayload
  resp := fun _ => 0
  remoteOwns := false
  remote := {}
  unlockRemote := false
  heldBack := 0
  heldBackRemote := false
  heldBackEpoch := 0
  saLevel := fun _ => 0
  saSeed := fun _ => .replicate _ 0
  saEpoch := fun _ => 0

/-! ## The two sides -/

/-- Before a request: the other side's unlock is hidden, and the own exchange loaded. The results
are the session entry it starts in and the level hidden. -/
def enter (c : Connection ε) (remote : Bool) : Connection ε × UInt32 × UInt8 :=
  let before := c.server.sessionEpoch
  let hides := c.server.unlocked ≠ 0 ∧ c.unlockRemote ≠ remote
  let held := if hides then c.server.unlocked else 0
  ({ c with server := { c.server with
      unlocked := if hides then 0 else c.server.unlocked
      saLevel := if c.saEpoch remote = c.server.sessionEpoch then c.saLevel remote else 0
      saSeed := c.saSeed remote } }, before, held)

/-- After it: the unlock is the side's that earned it, and a hidden one comes back unless the session
was entered or a reset is pending. -/
def leave (c : Connection ε) (before : UInt32) (held : UInt8) (remote : Bool) : Connection ε :=
  let c := { c with
    saLevel := Function.update c.saLevel remote c.server.saLevel
    saSeed := Function.update c.saSeed remote c.server.saSeed
    saEpoch := Function.update c.saEpoch remote c.server.sessionEpoch }
  let c :=
    if c.server.unlocked ≠ 0 then { c with unlockRemote := remote }
    else if held ≠ 0 ∧ c.server.sessionEpoch = before then
      if c.server.resetReq = 0 then { c with server := { c.server with unlocked := held } }
      else { c with
        heldBack := held, heldBackRemote := !remote, heldBackEpoch := c.server.sessionEpoch }
    else c
  if c.server.sessionEpoch ≠ before then { c with remoteOwns := remote } else c

/-- The live identifiers are brought up to date. -/
def refreshDids (node : Node ε) (c : Connection ε) : Connection ε :=
  { c with server := { c.server with dids := node.refresh c.server.ctx c.server.dids } }

/-! ## Resets -/

/-- The reset whose answer has left; 0 for none. -/
def resetDue (c : Connection ε) : UInt8 :=
  if c.server.resetReq ≠ 0 ∧ c.link.busy = false ∧ c.remote.inflight = false then c.server.resetReq
  else 0

/-- The diagnostic state goes back to power-on once the answer has left, unless the owner resets. -/
def applyAnsweredReset (node : Node ε) (c : Connection ε) : Connection ε × Bool :=
  if node.ownerResets = false ∧ c.resetDue ≠ 0 then
    ({ c with server := c.server.resetState node.hooks, heldBack := 0 }, true)
  else (c, false)

/-- The reset does not happen, and what its request hid comes back. -/
def cancelReset (c : Connection ε) : Connection ε :=
  let c := { c with server := { c.server with resetReq := 0 } }
  let c :=
    if c.heldBack ≠ 0 ∧ c.server.unlocked = 0 ∧ c.heldBackEpoch = c.server.sessionEpoch then
      { c with server := { c.server with unlocked := c.heldBack }, unlockRemote := c.heldBackRemote }
    else c
  { c with heldBack := 0 }

/-- The answer in flight on the bus was abandoned. -/
def answerLost (c : Connection ε) : Connection ε :=
  if c.remote.reset then c else c.cancelReset

/-! ## Requests -/

/-- The server handles a request between `enter` and `leave`; the answer is in the buffer. -/
def handleFor (node : Node ε) (c : Connection ε) (remote functional : Bool) (req : List UInt8) :
    Connection ε × Reply :=
  let entered := c.enter remote
  let c := entered.1
  let s := { c.server with handoffElsewhere := remote && !node.handoffRemote }
  let handled :=
    if functional then s.handleFunctional node.hooks node.config req
    else s.handle node.hooks node.config req
  let c := { c with
    server := { handled.1 with handoffElsewhere := false }
    -- the network's answer goes into a buffer of its own
    resp := if remote then c.resp else Buffer.fill c.resp 0 handled.2.stores }
  (c.leave entered.2.1 entered.2.2 remote, handled.2)

/-- The answer goes into the link; a reset is never performed unanswered. -/
def sendAnswer (c : Connection ε) (n : ℕ) : Connection ε :=
  if n > 0 then
    let sent := c.link.send (Buffer.prefixOf c.resp n)
    let c := { c with link := sent.2 }
    if sent.1 = false then c.cancelReset else c
  else c

/-- A request of the bus is served. -/
def serveBus (node : Node ε) (c : Connection ε) (functional : Bool) (req : List UInt8) :
    Connection ε × Log :=
  let handled := (c.refreshDids node).handleFor node false functional req
  let c : Connection ε := { handled.1 with remote := handled.1.remote.asked false }
  let n := handled.2.len
  (c.sendAnswer n, { served := some (false, n), ordered := decide (c.server.resetReq ≠ 0) })

/-- A functional request, which is one frame: dropped while the link is not quiet both ways, or a
reset is pending. -/
def functional (node : Node ε) (c : Connection ε) (f : Frame) : Connection ε × Log :=
  let pci := f.data.getD 0 0
  let n := (pci &&& 0x0F).toNat
  if f.data.length < 2 ∨ pci >>> 4 ≠ 0 then (c, {})
  else if n < 1 ∨ n > 7 ∨ n ≥ f.data.length ∨ c.link.idle = false ∨ c.server.resetReq ≠ 0 then (c, {})
  else
    let served := c.serveBus node true ((f.data.drop 1).take n)
    -- a suppressed reset applies before the next frame
    let applied := served.1.applyAnsweredReset node
    (applied.1, { served.2 with performed := applied.2 })

/-- One received frame: of a request, or a functional request. -/
def onFrame (node : Node ε) (c : Connection ε) (now : UInt64) (f : Frame) : Connection ε × Log :=
  if f.ext then (c, {})
  else if f.id = node.rxId then ({ c with link := (takeFrame c.link now f).2 }, {})
  else if node.functionalId ≠ 0 ∧ f.id = node.functionalId then c.functional node f
  else (c, {})

/-- The request that the link reassembled; none while a reset is pending. -/
def serve (node : Node ε) (c : Connection ε) : Connection ε × Log :=
  let taken := takeRequest c.link (decide (c.server.resetReq ≠ 0))
  let c := { c with link := taken.2 }
  match taken.1 with
  | none => (c, {})
  | some req => if req.length > 0 then c.serveBus node false req else (c, {})

/-- A request of the network. -/
def serveRemote (node : Node ε) (c : Connection ε) (req : List UInt8) (functional : Bool) :
    Connection ε × Log :=
  let c := { c with remote := c.remote.begin }
  if req.length < 1 ∨ c.server.resetReq ≠ 0 then (c, {})
  else
    let handled := (c.refreshDids node).handleFor node true functional req
    let c := handled.1
    let ordered := decide (c.server.resetReq ≠ 0)
    ({ c with remote := if ordered then c.remote.asked true else c.remote },
      { served := some (true, handled.2.len), ordered := ordered })

/-- The network's answer was acknowledged. -/
def remoteSent (c : Connection ε) : Connection ε := { c with remote := c.remote.sent }

/-- The network's connection is gone, and with it what it opened. -/
def remoteDropped (node : Node ε) (c : Connection ε) : Connection ε :=
  let dropped := c.remote.dropped
  let c := { c with remote := dropped.2 }
  let c := if dropped.1 then c.cancelReset else c
  let c := if c.remoteOwns then { c with server := c.server.endSession node.hooks } else c
  let c := { c with remoteOwns := false }
  let c := if c.unlockRemote then { c with server := { c.server with unlocked := 0 } } else c
  let c := { c with unlockRemote := false }
  let c := if c.heldBackRemote then { c with heldBack := 0 } else c
  { c with saLevel := Function.update c.saLevel true 0 }

/-- The level that the network tester holds. -/
def remoteUnlocked (c : Connection ε) : UInt8 := if c.unlockRemote then c.server.unlocked else 0

/-! ## Time and sending -/

/-- The top of a pass: the link's timeouts, an answered reset, and the session's silence. -/
def housekeep (node : Node ε) (c : Connection ε) (now : UInt64) : Connection ε × Log :=
  let applied := { c with link := c.link.tick now }.applyAnsweredReset node
  let c := applied.1
  let s := if inFlight c.link ∨ c.remote.inflight then c.server.holdS3 now.toNat else c.server
  ({ c with server := s.tick node.hooks node.config now.toNat }, { performed := applied.2 })

/-- Sends the answer in flight while the channel takes it. -/
def pump (node : Node ε) (c : Connection ε) (now : UInt64) (channel : List Bool) :
    Connection ε × Log :=
  let pumped := pumpLink c.link node.txId now channel
  let c := { c with link := pumped.2.1 }
  (if pumped.1 then c else c.answerLost, { sent := pumped.2.2, refused := !pumped.1 })

end Connection

/-! ## The owner's calls -/

inductive Event where
  | housekeep (now : UInt64)
  | frame (now : UInt64) (f : Frame)
  | serve
  | pump (now : UInt64) (channel : List Bool)
  | remoteRequest (req : List UInt8) (functional : Bool)
  | remoteSent
  | remoteDropped

/-- One call. -/
def step (node : Node ε) (c : Connection ε) : Event → Connection ε × Log
  | .housekeep now => c.housekeep node now
  | .frame now f => c.onFrame node now f
  | .serve => c.serve node
  | .pump now channel => c.pump node now channel
  | .remoteRequest req functional => c.serveRemote node req functional
  | .remoteSent => (c.remoteSent, {})
  | .remoteDropped => (c.remoteDropped node, {})

end BloblyEmb.Diag
