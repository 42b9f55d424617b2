import BloblyEmb.Lib.Cycle
import Mathlib.Data.Finset.Dedup

/-!
# The routes of a system

What a system declares (`tools/sysmodel`): its buses with the frames that each defines, the signals
and who produces them, and the routes of its gateways. Beside it stand the checks of the routes, as
`validate_system_gen` makes them. An issue is named by what it is about: its text is not modelled.
-/
namespace BloblyEmb.Sysmodel

/-! ## The declarations -/

/-- A frame of a database, with the names of its signals. -/
structure Message where
  name : String
  id : UInt32
  ext : Bool
  signals : List String

/-- What a frame is on the wire. -/
def Message.ident (m : Message) : UInt32 × Bool := (m.id, m.ext)

structure Bus where
  name : String
  interface : String
  kind : String := "can"
  dbc : String

structure SysSignal where
  name : String
  bus : String
  frame : String

structure Route where
  gateway : String
  frame : String := ""
  signal : String := ""
  fromBus : String
  toBus : String

/-- What a node authors itself: the buses that it declares, and what it produces on them. -/
structure NodeView where
  fbWrites : List String := []
  localBuses : List String := []
  produces : String → List String := fun _ => []
  /-- A signal has an end on a bus that its node declares. -/
  wired : localBuses = [] → ∀ i, produces i = []

structure Node where
  name : String
  buses : List String
  view : NodeView

/-- A system, and what the file of a database holds. -/
structure System where
  buses : List Bus
  nodes : List Node
  signals : List SysSignal
  routes : List Route
  load : String → Option (List Message)
  /-- Each bus is a table of its own. -/
  named : (buses.map Bus.name).Nodup

inductive Issue where
  | authoredBus (node : String)
  | unknownGateway (gateway : String)
  | endpoints (gateway : String)
  | sameBus (gateway bus : String)
  | someip (gateway bus : String)
  | frameOrSignal (gateway : String)
  | unknownBus (gateway bus : String)
  | offBus (gateway bus : String)
  | undeclared (gateway signal : String)
  | notProduced (gateway signal : String)
  | alsoWritten (gateway signal node : String)
  | sharedFrame (gateway signal other : String)
  | sharedId (gateway frame signal : String)
  | cycle (entity : String)
  | noContract (gateway frame : String)
  | widthDiffers (gateway frame : String)
  | idDiffers (gateway frame : String)
  | countDiffers (gateway frame : String)
  | signalMissing (gateway frame signal : String)
  | repeatedSignal (signal : String)
  | notLoaded (bus : String)
  | repeatedId (bus frame : String)
  | noDbc (signal : String)
  | noFrame (signal : String)
  | notInFrame (signal : String)
  | ambiguous (signal : String)
deriving DecidableEq

/-- An issue where the condition holds. -/
def issueIf (p : Prop) [Decidable p] (i : Issue) : List Issue := if p then [i] else []

@[simp] theorem issueIf_eq_nil {p : Prop} [Decidable p] {i : Issue} : issueIf p i = [] ↔ ¬p := by
  simp [issueIf]

/-- The entries whose key has come before. -/
def repeats {α β : Type} [DecidableEq β] (key : α → β) (issue : α → Issue) :
    List β → List α → List Issue
  | _, [] => []
  | seen, x :: xs => issueIf (key x ∈ seen) (issue x) ++ repeats key issue (key x :: seen) xs

namespace System

def busByName (s : System) (name : String) : Option Bus := s.buses.find? (·.name = name)

def signalByName (s : System) (name : String) : Option SysSignal :=
  s.signals.find? (·.name = name)

def database (s : System) (b : Bus) : Option (List Message) :=
  if b.dbc = "" then none else s.load b.dbc

/-- `route_msg_of`: the frame of that name. -/
def msgOf (db : List Message) (frame : String) : Option Message := db.find? (·.name = frame)

/-- The frame that carries a signal, where it is one. -/
def dbcFrameOf (s : System) (b : Bus) (sig : String) : Option String :=
  match s.database b with
  | none => none
  | some db =>
    match db.filter (sig ∈ ·.signals) with
    | [m] => some m.name
    | _ => none

def dbcFrameIdent (s : System) (b : Bus) (frame : String) : Option (UInt32 × Bool) :=
  match s.database b with
  | none => none
  | some db => (msgOf db frame).map Message.ident

def dbcSigFrameIdent (s : System) (b : Bus) (sig : String) : Option (UInt32 × Bool) :=
  match s.dbcFrameOf b sig with
  | none => none
  | some frame => s.dbcFrameIdent b frame

def signalProducedOn (s : System) (sig bus : String) : Bool :=
  s.signals.any (fun ss => ss.name = sig ∧ ss.bus = bus) ||
    match s.busByName bus with
    | none => false
    | some b => s.nodes.any fun n => bus ∈ n.buses ∧ sig ∈ n.view.produces b.interface

/-! ## The checks -/

/-- `check_partial_no_wiring`, as far as it looks at buses. -/
def checkPartialNoWiring (s : System) : List Issue :=
  s.nodes.flatMap fun n => issueIf (0 < n.view.localBuses.length) (.authoredBus n.name)

/-- Both buses of a route are declared, its gateway is on them, and neither is of another kind. -/
def checkRouteBus (s : System) (r : Route) (g : Node) (bus : String) : List Issue :=
  if bus = "" then []
  else
    match s.busByName bus with
    | none => [.unknownBus r.gateway bus]
    | some b => issueIf (b.kind = "someip") (.someip r.gateway bus) ++
        issueIf (bus ∉ g.buses) (.offBus r.gateway bus)

/-- A signal route carries a declared signal from a bus where it is produced. -/
def checkRouteSignal (s : System) (r : Route) : List Issue :=
  if r.signal = "" then []
  else
    issueIf (s.signalByName r.signal).isNone (.undeclared r.gateway r.signal) ++
      issueIf (r.fromBus ≠ "" ∧ s.signalProducedOn r.signal r.fromBus = false)
        (.notProduced r.gateway r.signal)

/-- The route is the only writer of the signal on its destination. -/
def checkRouteWriter (s : System) (r : Route) : List Issue :=
  if r.signal = "" ∨ r.toBus = "" then []
  else
    s.nodes.flatMap (fun n => issueIf (r.toBus ∈ n.buses ∧ r.signal ∈ n.view.fbWrites)
        (.alsoWritten r.gateway r.signal n.name)) ++
      match s.busByName r.toBus with
      | none => []
      | some b =>
        match s.dbcFrameOf b r.signal with
        | none => []
        | some dst => s.signals.flatMap fun ss =>
            issueIf (ss.bus = r.toBus ∧ ss.name ≠ r.signal ∧ s.dbcFrameOf b ss.name = some dst)
              (.sharedFrame r.gateway r.signal ss.name)

/-- Nobody else transmits the frame that a route forwards. -/
def checkRouteFrame (s : System) (r : Route) : List Issue :=
  if r.frame = "" ∨ r.toBus = "" then []
  else
    match s.busByName r.toBus with
    | none => []
    | some b =>
      match s.dbcFrameIdent b r.frame with
      | none => []
      | some ident => s.signals.flatMap fun ss =>
          issueIf (ss.bus = r.toBus ∧ s.dbcSigFrameIdent b ss.name = some ident)
            (.sharedId r.gateway r.frame ss.name)

/-- The first loop of `check_routes`, in a dissolved system. -/
def checkRoute (s : System) (r : Route) : List Issue :=
  match s.nodes.find? (·.name = r.gateway) with
  | none => [.unknownGateway r.gateway]
  | some g =>
    issueIf (r.fromBus = "" ∨ r.toBus = "") (.endpoints r.gateway) ++
      issueIf (r.fromBus = r.toBus ∧ r.fromBus ≠ "") (.sameBus r.gateway r.fromBus) ++
      issueIf ((r.frame = "") = (r.signal = "")) (.frameOrSignal r.gateway) ++
      s.checkRouteBus r g r.fromBus ++ s.checkRouteBus r g r.toBus ++
      s.checkRouteSignal r ++ s.checkRouteWriter r ++ s.checkRouteFrame r

end System

/-- What a route carries: one graph is searched for each. -/
def Route.entity (r : Route) : String :=
  if r.signal ≠ "" then "sig:" ++ r.signal else "frm:" ++ r.frame

/-- The nodes of the edges, in the order in which they come. -/
def graphNodes (es : List (String × String)) : List String :=
  (es.flatMap fun e => [e.1, e.2]).eraseDups

def graphAdj (es : List (String × String)) (n : String) : List String :=
  (es.filter (·.1 = n)).map (·.2)

/-- `graph_has_cycle`. -/
def graphHasCycle (es : List (String × String)) : Option Bool :=
  Graph.search (graphAdj es) (graphNodes es).length (graphNodes es) fun _ => .unvisited

namespace System

def routeEdges (s : System) (entity : String) : List (String × String) :=
  (s.routes.filter fun r => r.fromBus ≠ "" ∧ r.toBus ≠ "" ∧ r.entity = entity).map
    fun r => (r.fromBus, r.toBus)

def checkRouteCycles (s : System) : List Issue :=
  (s.routes.map Route.entity).eraseDups.flatMap fun entity =>
    issueIf (graphHasCycle (s.routeEdges entity) = some true) (.cycle entity)

/-- `check_frame_route_contract`: both buses define the frame alike. -/
def checkFrameRouteContract (s : System) (r : Route) : List Issue :=
  match s.busByName r.fromBus, s.busByName r.toBus with
  | some src, some dst =>
    match (s.database src).bind (msgOf · r.frame), (s.database dst).bind (msgOf · r.frame) with
    | some sm, some dm =>
      issueIf (sm.ext ≠ dm.ext) (.widthDiffers r.gateway r.frame) ++
        issueIf (sm.id ≠ dm.id) (.idDiffers r.gateway r.frame) ++
        issueIf (sm.signals.length ≠ dm.signals.length) (.countDiffers r.gateway r.frame) ++
        sm.signals.flatMap fun sg =>
          issueIf (sg ∉ dm.signals) (.signalMissing r.gateway r.frame sg)
    | _, _ => [.noContract r.gateway r.frame]
  | _, _ => []

/-- `check_route_dbc`, for the routes that forward a frame. -/
def checkRouteDbc (s : System) : List Issue :=
  s.routes.flatMap fun r =>
    if r.toBus = "" ∨ r.frame = "" then [] else s.checkFrameRouteContract r

/-- `check_signals_dissolved`: a signal is declared once. -/
def checkSignalsDissolved (s : System) : List Issue :=
  repeats SysSignal.name (fun ss => .repeatedSignal ss.name) [] s.signals

/-- `check_dbc_conformance`: each database is loaded, and defines one frame for an id. -/
def checkBusDbc (s : System) (b : Bus) : List Issue :=
  if b.dbc = "" then []
  else
    match s.load b.dbc with
    | none => [.notLoaded b.name]
    | some db => repeats Message.ident (fun m => .repeatedId b.name m.name) [] db

/-- `check_dbc_conformance`: a signal on a bus of frames is in its frame, and in no other. -/
def checkSignalDbc (s : System) (ss : SysSignal) : List Issue :=
  match s.busByName ss.bus with
  | none => [.noDbc ss.name]
  | some b =>
    if b.kind = "someip" then []
    else if b.dbc = "" then [.noDbc ss.name]
    else
      match s.load b.dbc with
      | none => []
      | some db =>
        match msgOf db ss.frame with
        | none => [.noFrame ss.name]
        | some m => issueIf (ss.name ∉ m.signals) (.notInFrame ss.name) ++
            issueIf (1 < (db.filter (ss.name ∈ ·.signals)).length) (.ambiguous ss.name)

def checkDbcConformance (s : System) : List Issue :=
  s.buses.flatMap s.checkBusDbc ++ s.signals.flatMap s.checkSignalDbc

/-- `check_routes`. -/
def checkRoutes (s : System) : List Issue :=
  s.routes.flatMap s.checkRoute ++ s.checkRouteCycles

/-- The errors of `validate_system_gen`, with those of its other checks. -/
def validateSystemGen (others : System → List Issue) (s : System) : List Issue :=
  s.checkPartialNoWiring ++ s.checkRoutes ++ s.checkSignalsDissolved ++ s.checkDbcConformance ++
    s.checkRouteDbc ++ others s

end System

end BloblyEmb.Sysmodel
