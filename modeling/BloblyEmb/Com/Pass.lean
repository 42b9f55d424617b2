import BloblyEmb.Com.Monitor
import BloblyEmb.Nm.Machine
import BloblyEmb.Fault.Persist
import BloblyEmb.Fault.Debounce

/-!
# The pass of the comm thread

What the generator emits for one pass of the comm thread (`gen_rx_target`, `comm_pass_order`): the
reception gate, the supervision of the received frames, the faults that watch a frame's status,
network management, the operation cycle and the journal, each in its step. Beside the state stand a
log of what the steps did, and what the log has to know of the past.
-/
namespace BloblyEmb.CommPass
open Com (RxMonitor RxGate RxPublish)
open Fault (Memory Store Debounce Report TestResult)
open Network (Nm)

/-- What a fault watches in the status of its frame. A count of lost frames is kept in so many
bits. -/
inductive On where
  | timeout
  | integrity
  | lost (bits : ℕ)
deriving DecidableEq

/-- A node: its received frames, and which faults watch one of them; the others are reported by
function blocks. -/
structure Config (k n : ℕ) where
  frame : Fin k → Com.Config
  /-- The frame has an end-to-end protection. -/
  e2e : Fin k → Bool
  watch : Fin n → Option (Fin k × On)
  graceUs : UInt64

/-- What a pass did. -/
inductive Item (k n : ℕ) where
  /-- A drained frame was published, with reception on or not. -/
  | published (i : Fin k) (rxOn : Bool)
  /-- A result was judged that stems from a frame, or a deadline, of a sleeping network or not. -/
  | judged (j : Fin n) (asleep : Bool)
  /-- A drained frame was checked; reception was silenced since the last one that ended a silence, and
  the frames counted as lost before and after. -/
  | counted (i : Fin k) (hushed : Bool) (before after : UInt32)
  /-- The journal was written, with a snapshot due or not. -/
  | persisted (due : Bool)
deriving DecidableEq

structure Comm (k n : ℕ) where
  /-- The server's reception switch (0x28). -/
  rxOn : Bool
  gate : RxGate
  mon : Fin k → RxMonitor
  /-- The status published last of each frame; `none` when nothing was. -/
  fsrc : Fin k → RxPublish
  deb : Fin n → Debounce
  /-- A publication stepped the fault since the top of the pass. -/
  sev : Fin n → Bool
  slost : Fin n → UInt32
  nm : Nm
  /-- The network as the drain last acted on it. -/
  nmSeen : Bool
  cycleOn : Bool
  mem : Memory n
  store : Store
  log : List (Item k n) := []
  /-- The status kept of a frame was published by a sleeping network. -/
  stale : Fin k → Bool := fun _ => false
  /-- Reception was off, or the network asleep, since the last frame that ended a silence. -/
  hushed : Fin k → Bool

/-- What the drain takes from the queue. -/
inductive Arrival (k n : ℕ) where
  /-- A checked frame, authentic or not. -/
  | frame (i : Fin k) (data : ℕ → UInt8) (authentic : Bool)
  /-- A request on the bus, which leaves reception switched so. -/
  | service (rxOn : Bool)
  /-- A frame of the network's management, or a call of the shell; `reports` are the function blocks'
  at that time. -/
  | nm (f : Network.Frame) (t : UInt64) (reports : Fin n → Report)
  | shell (request : Bool) (t : UInt64) (reports : Fin n → Report)

/-- What meets a pass: the time, how the timers and a request of the network leave reception, the
queue, what the node wants of the network and how often it may transmit, and the reports. -/
structure Input (k n : ℕ) where
  now : UInt64
  housekeep : Option Bool
  remote : Option Bool
  drain : List (Arrival k n)
  t1 : UInt64
  hold : Bool
  txSlots : ℕ
  reports : Fin n → Report
  late : Fin n → Report
  dids : List (UInt16 × List UInt8)

/-- The steps of a pass. -/
inductive CommStep where
  | housekeep
  | opened
  | reports
  | remote
  | drain
  | tick
  | cycle
  | settle
  | persist
deriving DecidableEq

/-- The one order in which they are emitted. -/
def commPassOrder : List CommStep :=
  [.housekeep, .opened, .reports, .remote, .drain, .tick, .cycle, .settle, .persist]

/-- The network is up: anything but `busSleep`. -/
def awake (n : Nm) : Bool := n.state != .busSleep

/-- An authentic frame without end-to-end protection. -/
def received (r : RxMonitor) (now : UInt64) (gate : Bool) : RxMonitor × RxPublish :=
  if !gate then (r, .none)
  else ({ r with com := r.com.onReceive now, reported := false }, .ok)

namespace Comm
variable {k n : ℕ}

def note (c : Comm k n) (x : Item k n) : Comm k n := { c with log := c.log ++ [x] }

/-- What a change of reception or of the network means for the frames to come. -/
def hush (c : Comm k n) : Comm k n :=
  { c with hushed := fun i => c.hushed i || !(c.rxOn && awake c.nm) }

def setRx (c : Comm k n) (rxOn : Option Bool) : Comm k n :=
  match rxOn with
  | none => c
  | some on => { c with rxOn := on }.hush

def setNm (c : Comm k n) (nm : Nm) : Comm k n := { c with nm := nm }.hush

/-! ## The gate -/

/-- A sampling of the gate: a silence marks the monitors, and the statuses go stale. -/
def sample (c : Comm k n) : Comm k n :=
  let gate := c.gate.sample c.rxOn (awake c.nm)
  if gate.silent then
    { c with gate := gate, mon := fun i => (c.mon i).silenced, fsrc := fun _ => .none }
  else { c with gate := gate }

/-! ## The faults -/

/-- One result of fault `j`: debounced, and consumed by the memory. -/
def judge (c : Comm k n) (now : UInt64) (j : Fin n) (r : TestResult) (enabled asleep : Bool) :
    Comm k n :=
  let s := c.mem.slots j
  let d := ((c.deb j).apply s.gen s.held).step r now enabled
  let c := { c with deb := Function.update c.deb j d, mem := c.mem.consume j d.rep }
  if enabled && r != .notTested then c.note (.judged j asleep) else c

/-- The result of a publication, or of a level. -/
def resultOf (on : On) (status : RxPublish) (moved : Bool) : TestResult :=
  let failed : Bool :=
    match on with
    | .timeout => decide (status = RxPublish.timeout)
    | .integrity => decide (status = RxPublish.integrity)
    | .lost _ => moved
  if failed then .failed else if status = RxPublish.ok then .passed else .notTested

/-- A small step forward of the count, in its own width. -/
def moved (bits : ℕ) (lost base : UInt32) : Bool :=
  let d := (lost - base).toNat % 2 ^ bits
  d != 0 && decide (2 * d < 2 ^ bits)

/-- The share of fault `j` in a publication of frame `i`. -/
def hook (cfg : Config k n) (now : UInt64) (i : Fin k) (status : RxPublish) (c : Comm k n)
    (j : Fin n) : Comm k n :=
  match cfg.watch j with
  | none => c
  | some (src, on) =>
    if src ≠ i then c
    else
      let lost := (c.mon i).lost
      let changed := match on with
        | .lost bits => moved bits lost (c.slost j)
        | _ => false
      let c := c.judge now j (resultOf on status changed) true (!awake c.nm)
      { c with
        sev := Function.update c.sev j true
        slost := match on with
          | .lost _ => Function.update c.slost j lost
          | _ => c.slost }

/-- What a publication leaves for the faults: asleep it is not judged, and nothing is kept. -/
def hooks (cfg : Config k n) (now : UInt64) (i : Fin k) (status : RxPublish) (c : Comm k n) :
    Comm k n :=
  if c.gate.receiving then
    (List.finRange n).foldl (hook cfg now i status)
      { c with
        fsrc := Function.update c.fsrc i status
        stale := Function.update c.stale i (!awake c.nm) }
  else c

/-- The level of fault `j` at the top of a pass. -/
def levelStep (cfg : Config k n) (now : UInt64) (c : Comm k n) (j : Fin n) : Comm k n :=
  match cfg.watch j with
  | none => c
  | some (src, on) =>
    let stepped := c.sev j && c.gate.live
    let c := { c with sev := Function.update c.sev j false }
    if stepped then c
    else c.judge now j (resultOf on (c.fsrc src) false) c.gate.live (c.stale src)

/-- The reports of the function blocks. -/
def consumeReports (cfg : Config k n) (reports : Fin n → Report) (c : Comm k n) : Comm k n :=
  { c with mem := c.mem.each fun m j =>
      match cfg.watch j with
      | none => m.consume j (reports j)
      | some _ => m }

def capture (c : Comm k n) (dids : List (UInt16 × List UInt8)) : Comm k n :=
  { c with mem := c.mem.capture dids }

/-- The operation cycle follows the network; what was reported before its end is read into it. -/
def cycle (cfg : Config k n) (t : UInt64) (reports : Fin n → Report)
    (dids : List (UInt16 × List UInt8)) (c : Comm k n) : Comm k n :=
  let c :=
    if awake c.nm != c.cycleOn then
      let c := { c with cycleOn := awake c.nm }
      if c.cycleOn then
        let c := if c.mem.ending then (c.consumeReports cfg reports).capture dids else c
        { c with mem := c.mem.cycleStart }
      else { c with mem := c.mem.endCycleAfter t cfg.graceUs }
    else c
  if c.mem.cycleEndDue t then
    let c := (c.consumeReports cfg reports).capture dids
    { c with mem := c.mem.cycleEnd }
  else c

/-! ## The drain -/

/-- The end of a silence for the next frame: a usable frame while reception is on and the network
awake. -/
def settled (c : Comm k n) (i : Fin k) (usable : Bool) : Comm k n :=
  { c with hushed := Function.update c.hushed i (c.hushed i && !(usable && c.rxOn && awake c.nm)) }

/-- The publication of a drained frame. -/
def publish (cfg : Config k n) (now : UInt64) (i : Fin k) (status : RxPublish) (c : Comm k n) :
    Comm k n :=
  if status = .none then c else (c.note (.published i c.rxOn)).hooks cfg now i status

/-- A received frame. -/
def onFrame (cfg : Config k n) (now : UInt64) (i : Fin k) (data : ℕ → UInt8) (authentic : Bool)
    (c : Comm k n) : Comm k n :=
  let r := c.mon i
  if !authentic then
    let done := r.rejected now c.gate.on
    { c with mon := Function.update c.mon i done.1 }.publish cfg now i done.2
  else if cfg.e2e i then
    let check := r.e2e.checkEx data (cfg.frame i).dlc (cfg.frame i).layout
    let done := { r with e2e := check.1 }.checked now check.2 c.gate.on c.gate.receiving
      c.gate.suspended
    let c := { c with mon := Function.update c.mon i done.1 }.note
      (.counted i (c.hushed i) r.lost done.1.lost)
    (c.settled i check.2.usable).publish cfg now i done.2
  else
    let done := received r now c.gate.on
    { c with mon := Function.update c.mon i done.1 }.publish cfg now i done.2

/-- After each frame: the network changed state, and what follows sees it. -/
def transition (cfg : Config k n) (t : UInt64) (reports : Fin n → Report)
    (dids : List (UInt16 × List UInt8)) (c : Comm k n) : Comm k n :=
  if awake c.nm != c.nmSeen then
    let c := { c with nmSeen := awake c.nm }.sample
    { c with fsrc := fun _ => .none }.cycle cfg t reports dids
  else c

def arrive (cfg : Config k n) (now : UInt64) (dids : List (UInt16 × List UInt8)) (c : Comm k n) :
    Arrival k n → Comm k n
  | .frame i data authentic => c.onFrame cfg now i data authentic
  | .service rxOn =>
    -- in bus sleep nothing reaches the server
    if awake c.nm then (c.setRx (some rxOn)).sample else c
  | .nm f t reports => (c.setNm (c.nm.onFrame t f)).transition cfg t reports dids
  | .shell request t reports =>
    (c.setNm (if request then c.nm.request t else c.nm.release)).transition cfg t reports dids

/-! ## The pass -/

/-- Network management transmits while it has a slot. -/
def produce (t : UInt64) : ℕ → Nm → Nm
  | 0, nm => nm
  | slots + 1, nm => if (nm.tick t).2 then produce t slots (nm.tick t).1 else (nm.tick t).1

/-- The deadline of frame `i`. -/
def expireStep (cfg : Config k n) (now : UInt64) (c : Comm k n) (i : Fin k) : Comm k n :=
  if c.gate.live then
    let done := (c.mon i).expire now
    let c := { c with mon := Function.update c.mon i done.1 }
    if done.2 then c.hooks cfg now i .timeout else c
  else c

def housekeep (c : Comm k n) (x : Input k n) : Comm k n := (c.setRx x.housekeep).hush

def opened (cfg : Config k n) (c : Comm k n) (x : Input k n) : Comm k n :=
  (List.finRange n).foldl (levelStep cfg x.now) c.sample

def reports (cfg : Config k n) (c : Comm k n) (x : Input k n) : Comm k n :=
  (c.consumeReports cfg x.reports).capture x.dids

def remote (c : Comm k n) (x : Input k n) : Comm k n :=
  match x.remote with
  | none => c
  | some on => (c.setRx (some on)).sample

def drain (cfg : Config k n) (c : Comm k n) (x : Input k n) : Comm k n :=
  x.drain.foldl (arrive cfg x.now x.dids) { c with nmSeen := awake c.nm }

def tick (c : Comm k n) (x : Input k n) : Comm k n :=
  c.setNm (produce x.t1 x.txSlots (c.nm.hold x.t1 x.hold))

def settle (cfg : Config k n) (c : Comm k n) (x : Input k n) : Comm k n :=
  let c := c.sample
  let done := c.gate.settle
  let c := { c with
    gate := done.1
    mon := if done.2 then fun i => (c.mon i).restart x.now else c.mon }
  (List.finRange k).foldl (expireStep cfg x.now) c

def persist (c : Comm k n) (x : Input k n) : Comm k n :=
  let c := c.capture x.dids
  let done := c.mem.persist c.store x.t1 false
  { c with mem := done.2.1, store := done.2.2 }.note
    (.persisted (decide (∃ j, (c.mem.slots j).snapDue = true)))

/-- What is emitted for a step. -/
def emitted (cfg : Config k n) (x : Input k n) (c : Comm k n) : CommStep → Comm k n
  | .housekeep => c.housekeep x
  | .opened => c.opened cfg x
  | .reports => c.reports cfg x
  | .remote => c.remote x
  | .drain => c.drain cfg x
  | .tick => c.tick x
  | .cycle => c.cycle cfg x.t1 x.late x.dids
  | .settle => c.settle cfg x
  | .persist => c.persist x

/-- One pass. -/
def pass (cfg : Config k n) (c : Comm k n) (x : Input k n) : Comm k n :=
  commPassOrder.foldl (emitted cfg x) c

/-- The thread's start: the deadlines armed, and nothing sampled yet. -/
def boot (cfg : Config k n) (now : UInt64) (rxOn : Bool) (nm : Nm) (mem : Memory n) (store : Store)
    (deb : Fin n → Debounce) : Comm k n where
  rxOn := rxOn
  gate := {}
  mon i := RxMonitor.start
    { com := { timeoutUs := (cfg.frame i).comUs }, e2e := { timeoutUs := (cfg.frame i).e2eUs } } now
  fsrc _ := .none
  deb := deb
  sev _ := false
  slost _ := 0
  nm := nm
  nmSeen := false
  cycleOn := awake nm
  mem := mem
  store := store
  hushed _ := false

/-- A sequence of passes. -/
def passes (cfg : Config k n) (c : Comm k n) (xs : List (Input k n)) : Comm k n :=
  xs.foldl (pass cfg) c

end Comm

/-! ## What the log may hold -/

/-- Published with reception on, judged with the network awake, not counted through a silence, and
written with no snapshot due. -/
def Item.Good {k n : ℕ} : Item k n → Prop
  | .published _ rxOn => rxOn = true
  | .judged _ asleep => asleep = false
  | .counted _ hushed before after => hushed = true → after = before
  | .persisted due => due = false

end BloblyEmb.CommPass
