import Mathlib.Data.List.Nodup
import Mathlib.Tactic.Common

/-!
# Service segments of a system

What a system declares on its SOME/IP buses (`tools/sysmodel`): nodes with their endpoints and what
their FBs read, signals with their producers, and the events that carry them; the checks of
`validate_system_gen` that hold them together; and the SOME/IP half that `sysgen` lowers each node
into, as the tables it writes. An issue is named by what it is about: its text is not modelled.
-/
namespace BloblyEmb.Someip

/-! ## The declarations -/

structure Bus where
  name : String
  kind : String := "can"
  service : ℕ := 0
  version : ℕ := 0

structure SysSignal where
  name : String
  bus : String
  producer : String
  frame : String := ""
  fields : List (String × String)

/-- The `tx` table of an event. -/
structure Tx where
  mode : String := ""
  cycleMs : Option Int := none
  minDelayMs : Option Int := none
deriving DecidableEq

/-- The end-to-end protection of an event; the timeout is the receiver's. -/
structure E2e where
  dataId : ℕ
  counterPos : ℕ
  crcPos : ℕ
  timeoutMs : Option Int := none
deriving DecidableEq

structure SysFrame where
  name : String
  bus : String
  id : ℕ
  signals : List String
  tx : Option Tx := none
  e2e : Option E2e := none

structure Node where
  name : String
  buses : List String
  someip : Option Bool := none
  someipBad : Bool := false
  hasEndpoint : Bool := false
  hasHost : Bool := false
  endpoint : String := ""
  port : ℕ := 0
  fbReads : List String := []
  /-- The partition of the FB that writes a signal, and of one that reads it. -/
  writer : String → Option String := fun _ => none
  reader : String → Option String := fun _ => none
  /-- A host part is given in an endpoint. -/
  hosted : hasHost = true → hasEndpoint = true

structure System where
  buses : List Bus
  nodes : List Node
  signals : List SysSignal
  frames : List SysFrame
  /-- Each bus is a table of its own. -/
  named : (buses.map Bus.name).Nodup

def Node.ipHost (n : Node) : Bool := n.someip = some false

def Node.outsideService (n : Node) : Bool := n.someipBad || n.ipHost

namespace System

variable (s : System)

def busByName (name : String) : Option Bus := s.buses.find? (·.name = name)

def signalByName (name : String) : Option SysSignal := s.signals.find? (·.name = name)

def isSomeipBus (name : String) : Bool :=
  match s.busByName name with
  | some b => b.kind = "someip"
  | none => false

/-! ## Who exchanges an event -/

/-- The node that sends an event: the producer of its signals. -/
def someipEventProducer (fr : SysFrame) : String :=
  match fr.signals.findSome? s.signalByName with
  | some sig => sig.producer
  | none => ""

def someipMembers (bus : String) : List Node :=
  s.nodes.filter fun n => bus ∈ n.buses ∧ ¬n.outsideService

/-- The members, other than the producer, that read a signal of the event; on a segment of two the
other member in any case. -/
def someipEventReceivers (fr : SysFrame) : List String :=
  let producer := s.someipEventProducer fr
  let members := s.someipMembers fr.bus
  let out := (members.filter fun n => n.name ≠ producer ∧ fr.signals.any (· ∈ n.fbReads)).map
    Node.name
  if out = [] ∧ members.length = 2 ∧ producer ≠ "" then
    (members.filter (·.name ≠ producer)).map Node.name
  else out

/-- Whom a node exchanges an event with. -/
def someipEventPartner (n : Node) (fr : SysFrame) : Option String :=
  let producer := s.someipEventProducer fr
  let receivers := s.someipEventReceivers fr
  if producer = n.name then
    match receivers with
    | [r] => some r
    | _ => none
  else if n.name ∈ receivers ∧ producer ≠ "" then some producer
  else none

/-- The members that a node exchanges events with, by the first event. -/
def someipPartners (n : Node) (bus : String) : List String :=
  let members := s.someipMembers bus
  if members.length = 2 then (members.filter (·.name ≠ n.name)).map Node.name
  else
    s.frames.foldl (fun out fr =>
      if fr.bus ≠ bus then out
      else
        match s.someipEventPartner n fr with
        | none => out
        | some p => if p ∈ out then out else out ++ [p]) []

/-! ## The checks -/

inductive Issue where
  | repeatedNode (node : String)
  | notIdentifier (node : String)
  | repeatedSignal (signal : String)
  | reserved (signal field : String)
  | unknownProducer (signal : String)
  | readsOwn (signal : String)
  | offBus (signal : String)
  | twoOwners (frame signal : String)
  | unknownBus (frame : String)
  | notSomeip (frame : String)
  | noSignals (frame : String)
  | undeclared (frame signal : String)
  | otherBus (frame signal : String)
  | carriedTwice (frame signal : String)
  | noFrame (signal : String)
  | otherFrame (signal : String)
  | uncarried (signal : String)
  | sameName (frame : String)
  | noEndpoint (node : String)
  | noFarEnd (bus : String)
  | noReceiver (frame : String)
  | manyReceivers (frame : String)
  | partialReader (frame node signal : String)
  | noPartner (node : String)
  | manySegments (node : String)
  | badSomeip (node : String)
  | hostExchanges (node signal : String)
deriving DecidableEq

/-- An issue where the condition holds. -/
def issueIf (p : Prop) [Decidable p] (i : Issue) : List Issue := if p then [i] else []

@[simp] theorem issueIf_eq_nil {p : Prop} [Decidable p] {i : Issue} : issueIf p i = [] ↔ ¬p := by
  simp [issueIf]

/-- The entries whose key has come before. -/
def repeats {α β : Type} [DecidableEq β] (key : α → β) (issue : α → Issue) :
    List β → List α → List Issue
  | _, [] => []
  | seen, x :: xs => issueIf (key x ∈ seen) (issue x) ++ repeats key issue (key x :: seen) xs

/-- `check_topology_wellformed`: node names are unique. -/
def checkTopologyWellformed : List Issue :=
  repeats Node.name (fun n => .repeatedNode n.name) [] s.nodes

/-- `[A-Za-z_][A-Za-z0-9_]*` -/
def isIdentifier (name : String) : Bool :=
  let alpha := fun c : Char => c.isAlpha || c == '_'
  match name.toList with
  | [] => false
  | c :: cs => alpha c && cs.all fun c => alpha c || c.isDigit

def checkNodeNameIsAnIdentifier : List Issue :=
  s.nodes.flatMap fun n => issueIf (¬isIdentifier n.name) (.notIdentifier n.name)

/-- The producer of the first signal that declares a frame of a bus, among those whose producer is a
node. -/
def frameOwner (bus frame : String) : Option String :=
  (s.signals.find? fun sig => sig.bus = bus ∧ sig.frame = frame ∧
    s.nodes.any (·.name = sig.producer)).map SysSignal.producer

/-- `check_signals_dissolved`, of one signal. -/
def checkSignal (sig : SysSignal) : List Issue :=
  sig.fields.flatMap (fun f =>
    issueIf (f.1 = "valid" ∨ f.1 = "status" ∨ f.1 = "lost") (.reserved sig.name f.1)) ++
  match s.nodes.find? (·.name = sig.producer) with
  | none => [.unknownProducer sig.name]
  | some p =>
    issueIf (sig.name ∈ p.fbReads) (.readsOwn sig.name) ++
    issueIf (sig.bus ∉ p.buses) (.offBus sig.name) ++
    issueIf (sig.frame ≠ "" ∧ s.frameOwner sig.bus sig.frame ≠ some sig.producer)
      (.twoOwners sig.frame sig.name)

/-- The signals that frames carry, with their carriers: those that are declared and on the frame's
bus. -/
def carried : List (String × String) :=
  (s.frames.filter fun fr => s.isSomeipBus fr.bus).flatMap fun fr =>
    (fr.signals.filter fun sg => (s.signalByName sg).any (·.bus = fr.bus)).map (·, fr.name)

def carrier (sg : String) : Option String := (s.carried.find? (·.1 = sg)).map Prod.snd

/-- `check_someip_signal_frames`, of one frame. -/
def checkFrame (fr : SysFrame) : List Issue :=
  match s.busByName fr.bus with
  | none => [.unknownBus fr.name]
  | some b =>
    if b.kind ≠ "someip" then [.notSomeip fr.name]
    else
      issueIf (fr.signals = []) (.noSignals fr.name) ++
      fr.signals.flatMap fun sg =>
        match s.signalByName sg with
        | none => [.undeclared fr.name sg]
        | some sig => issueIf (sig.bus ≠ fr.bus) (.otherBus fr.name sg)

/-- `check_someip_signal_frames`, of one signal on a segment. -/
def checkCarrier (sig : SysSignal) : List Issue :=
  if s.isSomeipBus sig.bus then
    match s.carrier sig.name with
    | none => [.uncarried sig.name]
    | some own =>
      if sig.frame = "" then [.noFrame sig.name] else issueIf (sig.frame ≠ own) (.otherFrame sig.name)
  else []

def checkSomeipSignalFrames : List Issue :=
  s.frames.flatMap s.checkFrame ++
  repeats Prod.fst (fun c => .carriedTwice c.2 c.1) [] s.carried ++
  s.signals.flatMap s.checkCarrier

def checkSignalsDissolved : List Issue :=
  repeats SysSignal.name (fun sig => .repeatedSignal sig.name) [] s.signals ++
  s.checkSomeipSignalFrames ++ s.signals.flatMap s.checkSignal

/-- `check_someip_segment`, of one event. -/
def checkEvent (members : List Node) (fr : SysFrame) : List Issue :=
  if fr.signals = [] ∨ s.someipEventProducer fr = "" then []
  else
    match s.someipEventReceivers fr with
    | [] => [.noReceiver fr.name]
    | [r] => (members.filter (·.name = r)).flatMap fun n =>
        fr.signals.flatMap fun sg => issueIf (sg ∉ n.fbReads) (.partialReader fr.name n.name sg)
    | _ => [.manyReceivers fr.name]

/-- `check_someip_segment`, of one bus; `snake` makes the generated name of a frame. -/
def checkSegment (snake : String → String) (b : Bus) : List Issue :=
  let members := s.someipMembers b.name
  repeats (fun fr : SysFrame => snake fr.name) (fun fr => .sameName fr.name) []
    (s.frames.filter (·.bus = b.name)) ++
  (s.nodes.filter (b.name ∈ ·.buses)).flatMap (fun n =>
    if n.hasHost ∧ n.endpoint = "" then []
    else issueIf (¬n.hasEndpoint ∨ n.endpoint = "") (.noEndpoint n.name)) ++
  if members.length < 2 then [.noFarEnd b.name]
  else
    (s.frames.filter (·.bus = b.name)).flatMap (s.checkEvent members) ++
    members.flatMap fun n => issueIf (s.someipPartners n b.name = []) (.noPartner n.name)

def checkSomeipSegment (snake : String → String) : List Issue :=
  (s.buses.filter (·.kind = "someip")).flatMap (s.checkSegment snake)

/-- `check_endpoint_carrier`: a node is on one segment. -/
def checkEndpointCarrier : List Issue :=
  s.nodes.flatMap fun n =>
    issueIf (1 < (n.buses.filter fun b => s.isSomeipBus b).length) (.manySegments n.name)

/-- `check_ip_hosts` -/
def checkIpHosts : List Issue :=
  s.nodes.flatMap fun n =>
    if n.someipBad then [.badSomeip n.name]
    else if ¬n.ipHost then []
    else
      s.signals.flatMap fun sig =>
        issueIf (sig.bus ∈ n.buses ∧ s.isSomeipBus sig.bus ∧
          (sig.producer = n.name ∨ sig.name ∈ n.fbReads)) (.hostExchanges n.name sig.name)

/-- The errors of `validate_system_gen`, with those of its other checks. -/
def validateSystemGen (snake : String → String) (others : System → List Issue) : List Issue :=
  s.checkTopologyWellformed ++ s.checkNodeNameIsAnIdentifier ++ s.checkSignalsDissolved ++
    s.checkSomeipSegment snake ++ s.checkEndpointCarrier ++ s.checkIpHosts ++ others s

/-! ## Lowering -/

end System

/-- The `[[signal]]` table of a generated file. -/
structure SignalTable where
  name : String
  fields : List (String × String)
  source : String
  target : String
deriving DecidableEq

/-- The `[[frame]]` table of a generated file. -/
structure FrameTable where
  name : String
  bus : String
  id : ℕ
  peer : String := ""
  signals : List String
  tx : Option Tx := none
  e2e : Option E2e := none
deriving DecidableEq

/-- The SOME/IP half of a node: its eth bus, the service contract and the events. -/
structure Sections where
  segment : String
  iface : String
  service : ℕ
  version : ℕ
  port : ℕ
  peer : Option String
  signals : List SignalTable
  frames : List FrameTable

/-- The event names written so far, the signals received so far, and the tables. -/
structure Walk where
  emitted : List String := []
  rxSeen : List String := []
  signals : List SignalTable := []
  frames : List FrameTable := []

/-- An assignment to a key of a map, which keeps its place. -/
def setKey (m : List (String × String)) (k v : String) : List (String × String) :=
  if m.any (·.1 = k) then m.map fun p => if p.1 = k then (k, v) else p else m ++ [(k, v)]

def ethIface : String := "eth0"

/-- `someip_frame_lines` -/
def someipFrameLines (fr : SysFrame) (iface : String) (tx : Bool) (peer : String) : FrameTable where
  name := fr.name
  bus := iface
  id := fr.id
  peer := peer
  signals := fr.signals
  tx := if tx then fr.tx else none
  e2e := fr.e2e.map fun e => { e with timeoutMs := if tx then none else e.timeoutMs }

namespace System

variable (s : System)

def endpointOf (name : String) : Option String :=
  (s.nodes.find? fun n => n.name = name ∧ n.hasEndpoint).map fun n =>
    n.endpoint ++ ":" ++ toString n.port

def framePeer (n : Node) (fr : SysFrame) (defaultPeer : String) : String :=
  match s.someipEventPartner n fr with
  | none => ""
  | some p => if p = defaultPeer then "" else (s.endpointOf p).getD ""

/-- The events of a signal that the node sends. -/
def sendFrame (n : Node) (bus : Bus) (defaultPeer : String) (sig : SysSignal) (w : Walk)
    (fr : SysFrame) : Walk :=
  if fr.bus ≠ bus.name ∨ sig.name ∉ fr.signals ∨ fr.name ∈ w.emitted then w
  else { w with
    emitted := w.emitted ++ [fr.name]
    frames := w.frames ++ [someipFrameLines fr ethIface true (s.framePeer n fr defaultPeer)] }

/-- A signal that the node may produce. -/
def sendSignal (n : Node) (bus : Bus) (defaultPeer : String) (w : Walk) (sig : SysSignal) :
    Except String Walk :=
  if sig.bus ≠ bus.name ∨ sig.producer ≠ n.name then .ok w
  else
    match n.writer sig.name with
    | none => .error sig.name
    | some part =>
      let w := { w with signals := w.signals ++ [⟨sig.name, sig.fields, part, ethIface⟩] }
      .ok (s.frames.foldl (s.sendFrame n bus defaultPeer sig) w)

/-- The fields of a received signal: with its status and its count of lost frames, where the event is
protected. -/
def rxFields (fr : SysFrame) (fields : List (String × String)) : List (String × String) :=
  if fr.e2e.isSome then setKey (setKey fields "status" "RxStatus") "lost" "u32" else fields

/-- A signal of an event that the node receives. -/
def receiveSignal (n : Node) (fr : SysFrame) (w : Walk) (sg : String) : Walk :=
  if sg ∈ w.rxSeen then w
  else
    let w := { w with rxSeen := w.rxSeen ++ [sg] }
    match s.signalByName sg with
    | none => w
    | some sig =>
      { w with signals := w.signals ++
          [⟨sig.name, rxFields fr sig.fields, ethIface, (n.reader sg).getD "app"⟩] }

/-- The events of a signal that the node reads. -/
def receiveFrame (n : Node) (bus : Bus) (defaultPeer name : String) (w : Walk) (fr : SysFrame) :
    Walk :=
  if fr.bus ≠ bus.name ∨ name ∉ fr.signals ∨ fr.name ∈ w.emitted then w
  else
    let w := fr.signals.foldl (s.receiveSignal n fr) { w with emitted := w.emitted ++ [fr.name] }
    { w with
      frames := w.frames ++ [someipFrameLines fr ethIface false (s.framePeer n fr defaultPeer)] }

/-- A signal that an FB of the node reads. -/
def receiveRead (n : Node) (bus : Bus) (defaultPeer : String) (w : Walk) (name : String) : Walk :=
  match s.signalByName name with
  | none => w
  | some sig =>
    if sig.bus ≠ bus.name ∨ sig.producer = n.name then w
    else s.frames.foldl (s.receiveFrame n bus defaultPeer name) w

/-- `someip_sections` -/
def someipSections (n : Node) (bus : Bus) : Except String (Option Sections) :=
  if n.ipHost then .ok none
  else
    let defaultPeer := (s.someipPartners n bus.name).headD ""
    match s.signals.foldlM (s.sendSignal n bus defaultPeer) {} with
    | .error e => .error e
    | .ok w =>
      let w := n.fbReads.foldl (s.receiveRead n bus defaultPeer) w
      .ok (some
        { segment := bus.name
          iface := n.endpoint
          service := bus.service
          version := bus.version
          port := n.port
          peer := s.endpointOf defaultPeer
          signals := w.signals
          frames := w.frames })

/-- The SOME/IP half of a generated node, whichever of the generators writes it: on the last of its
buses that is a segment. -/
def lower (n : Node) : Except String (Option Sections) :=
  match (n.buses.filter fun b => s.isSomeipBus b).getLast?.bind s.busByName with
  | none => .ok none
  | some bus => s.someipSections n bus

end System

/-! ## Layouts -/

/-- A field of an event's payload. -/
structure EthLayoutCell where
  frame : String
  id : ℕ
  sig : String
  field : String
  offset : ℕ
  width : ℕ
  typ : String
deriving DecidableEq

def scalarWidth (t : String) : ℕ :=
  if t = "bool" ∨ t = "u8" ∨ t = "i8" then 1
  else if t = "u16" ∨ t = "i16" then 2
  else if t = "u32" ∨ t = "i32" ∨ t = "f32" then 4
  else if t = "u64" ∨ t = "i64" ∨ t = "f64" then 8
  else 0

/-- A field in a list that is sorted by name. -/
def insertField (f : String × String) : List (String × String) → List (String × String)
  | [] => [f]
  | g :: l => if f.1 < g.1 then f :: g :: l else g :: insertField f l

/-- The fields of a signal in the order of their names. -/
def sortFields (fields : List (String × String)) : List (String × String) :=
  fields.foldl (fun l f => insertField f l) []

/-- The fields of a table that are on the wire: not the count of lost frames of a received one. -/
def SignalTable.wireFields (t : SignalTable) : List (String × String) :=
  t.fields.filter fun f => ¬(t.source = ethIface ∧ f.1 = "lost")

/-- The cells of one signal, and the offset behind them. -/
def signalCells (fr : FrameTable) (sig : String) (fields : List (String × String))
    (r : ℕ × List EthLayoutCell) : ℕ × List EthLayoutCell :=
  (sortFields fields).foldl (fun r f =>
    if scalarWidth f.2 = 0 then r
    else (r.1 + scalarWidth f.2, r.2 ++ [⟨fr.name, fr.id, sig, f.1, r.1, scalarWidth f.2, f.2⟩])) r

/-- The cells of one event; of two tables of a signal the later one counts. -/
def frameCells (signals : List SignalTable) (fr : FrameTable) : List EthLayoutCell :=
  (fr.signals.foldl (fun r sg =>
    match signals.reverse.find? (·.name = sg) with
    | none => r
    | some t => signalCells fr sg t.wireFields r) (0, [])).2

/-- `eth_layouts`, of a file with the sections of a segment; the signals of the node's other buses
stand before them. -/
def ethLayouts (before : List SignalTable) (sec : Sections) : List EthLayoutCell :=
  sec.frames.flatMap (frameCells (before ++ sec.signals))

end BloblyEmb.Someip
