import BloblyEmb.Isotp.Link
import BloblyEmb.Uds.Application

/-!
# The network server

DoIP framing (`comm/doip`): the bytes of one tester connection are assembled into messages, each
message is answered into a response buffer, and diagnostic messages go to a diagnostic server or
to the router of a gateway. The diagnostic server is the embedded one, or one that its owner serves
through a hook.
-/
namespace BloblyEmb.Doip
open Buffer

def headerLen : ℕ := 8

/-- The longest diagnostic request or response. -/
def maxUds : ℕ := Isotp.maxPayload

/-- The longest message that is assembled. -/
def maxMsg : ℕ := headerLen + 4 + maxUds

/-- Where a diagnostic response starts in the answer to one message. -/
def diagRespAt : ℕ := headerLen + 5 + headerLen + 4

/-- The response room that a node serves its connection with. -/
def maxResp : ℕ := headerLen + 5 + headerLen + 4 + maxUds

def defaultFunctionalAddr : UInt16 := 0xE400

def protoVer : UInt8 := 0x02
def protoInv : UInt8 := 0xFD

def ptGenNack : UInt16 := 0x0000
def ptRouteReq : UInt16 := 0x0005
def ptRouteResp : UInt16 := 0x0006
def ptAliveReq : UInt16 := 0x0007
def ptAliveResp : UInt16 := 0x0008
def ptStatusReq : UInt16 := 0x4001
def ptStatusResp : UInt16 := 0x4002
def ptPowerReq : UInt16 := 0x4003
def ptPowerResp : UInt16 := 0x4004
def ptDiag : UInt16 := 0x8001
def ptDiagAck : UInt16 := 0x8002
def ptDiagNack : UInt16 := 0x8003

def nackBadPattern : UInt8 := 0x00
def nackUnknownType : UInt8 := 0x01
def nackTooLarge : UInt8 := 0x02
def nackBadLength : UInt8 := 0x04

def raUnknownSource : UInt8 := 0x00
def raSourceDiffers : UInt8 := 0x02
def raUnsupportedType : UInt8 := 0x06
def raOk : UInt8 := 0x10

def dnackInvalidSource : UInt8 := 0x02
def dnackUnknownTarget : UInt8 := 0x03
def dnackTransportError : UInt8 := 0x08

def nodeTypeGateway : UInt8 := 0x00
def nodeTypeNode : UInt8 := 0x01
def powerReady : UInt8 := 0x01

/-- The sockets that testers connect to. -/
def maxSockets : UInt8 := 1

/-- The longest payload, as entity status reports it. -/
def maxDataSize : ℕ := maxMsg - headerLen

/-- The addresses of external test equipment. -/
def testerAddressOk (a : UInt16) : Bool := 0x0E00 ≤ a && a ≤ 0x0FFF

/-- What a diagnostic server answers: its stores into the response room, and the length it
returns. -/
structure Answer where
  stores : List (ℕ × UInt8)
  len : ℤ

/-- The hooks of an owner that serves requests itself, over a context `γ`. -/
structure Serve (γ : Type) where
  /-- Answers a request, with the response room it may use. -/
  answer : Option (γ → List UInt8 → Bool → ℕ → γ × Answer) := none
  /-- Hands a request to the router: the route, the request, the connection and the ticket. -/
  route : Option (γ → ℕ → List UInt8 → UInt32 → UInt32 → γ × ℤ) := none

/-- What a message calls. -/
inductive Call where
  | answer (req : List UInt8) (functional : Bool)
  | uds (req : List UInt8) (functional : Bool)
  | route (idx : ℕ) (req : List UInt8) (conn ticket : UInt32)

structure Server (γ ε : Type) where
  entityAddr : UInt16
  testerAddr : UInt16
  activated : Bool
  fatal : Bool
  testers : List UInt16
  actTypes : List UInt8
  uds : Uds.Application.Server ε
  /-- The context of the hooks. -/
  ctx : γ
  functionalAddr : UInt16
  /-- The bytes assembled so far. -/
  buf : List UInt8
  routes : List UInt16
  conn : UInt32
  ticket : UInt32
  routeOpen : Bool

/-- A response buffer and how much of it is written. -/
structure Room where
  cells : ℕ → UInt8
  len : ℕ

/-- Writes bytes behind those there are. -/
def Room.put (r : Room) (bytes : List UInt8) : Room :=
  ⟨store r.cells r.len bytes, r.len + bytes.length⟩

/-- The word at byte `i`, high byte first. -/
def be16 (bs : List UInt8) (i : ℕ) : UInt16 :=
  ((bs.getD i 0).toUInt16 <<< 8) ||| (bs.getD (i + 1) 0).toUInt16

def be32 (bs : List UInt8) (i : ℕ) : UInt32 :=
  ((bs.getD i 0).toUInt32 <<< 24) ||| ((bs.getD (i + 1) 0).toUInt32 <<< 16) |||
    ((bs.getD (i + 2) 0).toUInt32 <<< 8) ||| (bs.getD (i + 3) 0).toUInt32

def bytes16 (a : UInt16) : List UInt8 := [(a >>> 8).toUInt8, a.toUInt8]

def header (ptype : UInt16) (plen : UInt32) : List UInt8 :=
  [protoVer, protoInv] ++ bytes16 ptype ++
    [(plen >>> 24).toUInt8, (plen >>> 16).toUInt8, (plen >>> 8).toUInt8, plen.toUInt8]

/-- A whole message. -/
def frame (ptype : UInt16) (body : List UInt8) : List UInt8 :=
  header ptype body.length.toUInt32 ++ body

def genNack (code : UInt8) : List UInt8 := frame ptGenNack [code]

def nackIfRoom (r : Room) (code : UInt8) (respMax : ℕ) : Room :=
  if respMax < r.len + headerLen + 1 then r else r.put (genNack code)

/-- A diagnostic-message NACK from an address. -/
def diagNackFrom (source sa : UInt16) (code : UInt8) : List UInt8 :=
  frame ptDiagNack (bytes16 source ++ bytes16 sa ++ [code])

/-- The acknowledgement of a diagnostic message, from the address it was sent to. -/
def diagAck (ta sa : UInt16) : List UInt8 :=
  frame ptDiagAck (bytes16 ta ++ bytes16 sa ++ [0x00])

/-- A message that was served: its type, its payload and what it called. -/
structure Served where
  ptype : UInt16
  payload : List UInt8
  calls : List Call

namespace Server
variable {γ ε : Type} (serve : Serve γ) (h : Uds.Application.Hooks ε) (cfg : Uds.Application.Config)

/-- The longest response that the answering server may write. -/
def udsCap (s : Server γ ε) : ℕ := if serve.answer.isSome then maxUds else s.uds.cap

/-- The longest answer to one message. -/
def maxRespPerMsg (s : Server γ ε) : ℕ := diagRespAt + s.udsCap serve

/-- The first route to a logical address. -/
def routeIndex (s : Server γ ε) (ta : UInt16) : Option ℕ := s.routes.findIdx? (· == ta)

def testerAllowed (s : Server γ ε) (sa : UInt16) : Bool :=
  if s.testers = [] then testerAddressOk sa else s.testers.contains sa

def typeServed (s : Server γ ε) (atype : UInt8) : Bool :=
  if s.actTypes = [] then atype == 0x00 else s.actTypes.contains atype

/-- The answer to a routing activation. -/
def activationCode (s : Server γ ε) (sa : UInt16) (atype : UInt8) : UInt8 :=
  if ¬s.testerAllowed sa then raUnknownSource
  else if ¬s.typeServed atype then raUnsupportedType
  else if s.activated ∧ sa ≠ s.testerAddr then raSourceDiffers
  else raOk

/-- The answers that carry no data. -/
def infoResponse (s : Server γ ε) (ptype : UInt16) (opened : UInt8) : List UInt8 :=
  if ptype = ptAliveReq then frame ptAliveResp (bytes16 s.entityAddr)
  else if ptype = ptStatusReq then
    frame ptStatusResp
      ([if s.routes ≠ [] then nodeTypeGateway else nodeTypeNode, maxSockets, opened] ++
        [(maxDataSize.toUInt32 >>> 24).toUInt8, (maxDataSize.toUInt32 >>> 16).toUInt8,
          (maxDataSize.toUInt32 >>> 8).toUInt8, maxDataSize.toUInt32.toUInt8])
  else frame ptPowerResp [powerReady]

/-- An invalid payload length closes the connection. -/
def badLength (s : Server γ ε) (r : Room) : Server γ ε × Room × List Call :=
  ({ s with fatal := true }, r.put (genNack nackBadLength), [])

/-- A routing activation. -/
def activation (s : Server γ ε) (r : Room) : Server γ ε × Room × List Call :=
  let sa := be16 s.buf headerLen
  let code := s.activationCode sa (s.buf.getD (headerLen + 2) 0)
  let r := r.put (frame ptRouteResp (bytes16 sa ++ bytes16 s.entityAddr ++ [code, 0, 0, 0, 0]))
  -- every refusal closes the connection
  if code = raOk then ({ s with testerAddr := sa, activated := true }, r, [])
  else ({ s with fatal := true }, r, [])

/-- The bytes of the request in a diagnostic message. -/
def request (s : Server γ ε) (plen : ℕ) : List UInt8 :=
  (s.buf.drop (headerLen + 4)).take (plen - 4)

/-- Hands a diagnostic message for a node behind the gateway to the router. -/
def route (s : Server γ ε) (ta : UInt16) (plen : ℕ) (r : Room) (sa : UInt16) :
    Server γ ε × Room × List Call :=
  match s.routeIndex ta, serve.route with
  | some idx, some hook =>
    let ticket := s.ticket + 1
    let (ctx, code) := hook s.ctx idx (s.request plen) s.conn ticket
    let calls := [Call.route idx (s.request plen) s.conn ticket]
    if code ≠ 0 then
      ({ s with ctx := ctx }, r.put (diagNackFrom ta sa (UInt8.ofInt code)), calls)
    else
      ({ s with ctx := ctx, ticket := ticket, routeOpen := true }, r.put (diagAck ta sa), calls)
  | _, _ => (s, r.put (diagNackFrom s.entityAddr sa dnackUnknownTarget), [])

/-- The answering server serves a request. -/
def ask (s : Server γ ε) (req : List UInt8) (functional : Bool) :
    Server γ ε × Answer × List Call :=
  match serve.answer with
  | some hook =>
    let (ctx, a) := hook s.ctx req functional (s.udsCap serve)
    ({ s with ctx := ctx }, a, [.answer req functional])
  | none =>
    let (uds, reply) :=
      if functional then s.uds.handleFunctional h cfg req else s.uds.handle h cfg req
    ({ s with uds := uds }, ⟨reply.stores, reply.len⟩, [.uds req functional])

/-- A diagnostic message. -/
def diagnostic (s : Server γ ε) (plen : ℕ) (r : Room) : Server γ ε × Room × List Call :=
  let sa := be16 s.buf headerLen
  let ta := be16 s.buf (headerLen + 2)
  if ¬s.activated ∨ sa ≠ s.testerAddr then
    (s, r.put (diagNackFrom s.entityAddr sa dnackInvalidSource), [])
  else
    let functional :=
      ta == (if s.functionalAddr ≠ 0 then s.functionalAddr else defaultFunctionalAddr)
    if ta ≠ s.entityAddr ∧ ¬functional then s.route serve ta plen r sa
    else
      let cap := s.udsCap serve
      -- the server writes its response to where it is framed
      let (s, a, calls) := s.ask serve h cfg (s.request plen) functional
      let r := { r with cells := fill r.cells (r.len + diagRespAt) a.stores }
      if a.len < 0 ∨ (cap : ℤ) < a.len then
        (s, r.put (diagNackFrom s.entityAddr sa dnackTransportError), calls)
      else
        let r := r.put (diagAck ta sa)
        if 0 < a.len then
          let r := r.put (header ptDiag (4 + a.len.toNat).toUInt32 ++ bytes16 s.entityAddr ++
            bytes16 sa)
          (s, { r with len := r.len + a.len.toNat }, calls)
        else (s, r, calls)

/-- Answers the message at the front of the buffer. -/
def dispatch (s : Server γ ε) (ptype : UInt16) (plen : ℕ) (r : Room) :
    Server γ ε × Room × List Call :=
  if ptype = ptRouteReq then
    if plen ≠ 7 ∧ plen ≠ 11 then s.badLength r else s.activation r
  else if ptype = ptAliveResp then
    if plen ≠ 2 then s.badLength r else (s, r, [])
  else if ptype = ptAliveReq ∨ ptype = ptStatusReq ∨ ptype = ptPowerReq then
    if plen ≠ 0 then s.badLength r else (s, r.put (s.infoResponse ptype 1), [])
  else if ptype = ptDiag then
    if plen < 5 then s.badLength r else s.diagnostic serve h cfg plen r
  else (s, r.put (genNack nackUnknownType), [])

end Server

/-- What the front of the buffer holds. -/
inductive Head where
  /-- Less than a header, or less than the message it announces. -/
  | partly
  /-- A header that ends the connection. -/
  | refused (code : UInt8)
  | whole (ptype : UInt16) (plen : ℕ)

def head (buf : List UInt8) : Head :=
  if buf.length < headerLen then .partly
  else if buf.getD 0 0 ≠ protoVer ∨ buf.getD 1 0 ≠ protoInv then .refused nackBadPattern
  -- the length is compared as a word
  else if (maxMsg - headerLen).toUInt32 < be32 buf 4 then .refused nackTooLarge
  else if buf.length < headerLen + (be32 buf 4).toNat then .partly
  else .whole (be16 buf 2) (be32 buf 4).toNat

namespace Server
variable {γ ε : Type} (serve : Serve γ) (h : Uds.Application.Hooks ε) (cfg : Uds.Application.Config)

/-- Answers the messages in the buffer, one pass a message, in at most `fuel` passes. -/
def serveAll (respMax : ℕ) : ℕ → Server γ ε → Room → Server γ ε × Room × List Served
  | 0, s, r => (s, r, [])
  | fuel + 1, s, r =>
    match head s.buf with
    | .partly => (s, r, [])
    | .refused code => ({ s with buf := [], fatal := true }, nackIfRoom r code respMax, [])
    | .whole ptype plen =>
      -- the message stays when its answer might not fit
      if respMax < r.len + s.maxRespPerMsg serve then (s, r, [])
      else
        let total := headerLen + plen
        let served := Served.mk ptype ((s.buf.drop headerLen).take plen)
        let (s, r, calls) := s.dispatch serve h cfg ptype plen r
        if s.fatal then ({ s with buf := [] }, r, [served calls])
        else
          let (s, r, log) := serveAll respMax fuel { s with buf := s.buf.drop total } r
          (s, r, served calls :: log)

/-- Takes a chunk of the connection's bytes and answers the messages it completes. -/
def feed (s : Server γ ε) (data : List UInt8) (resp : ℕ → UInt8) (respMax : ℕ) :
    Server γ ε × Room × List Served :=
  if maxMsg < s.buf.length + data.length then
    ({ s with buf := [], fatal := true }, nackIfRoom ⟨resp, 0⟩ nackTooLarge respMax, [])
  else
    let s := { s with buf := s.buf ++ data }
    s.serveAll serve h cfg respMax (s.buf.length + 1) ⟨resp, 0⟩

/-- Frames an answer of a node behind the gateway, for the tester. -/
def routedMessage (s : Server γ ε) (source : UInt16) (resp : List UInt8) :
    Server γ ε × List UInt8 :=
  ({ s with
      routeOpen :=
        if ¬(3 ≤ resp.length ∧ resp.getD 0 0 = 0x7F ∧ resp.getD 2 0 = 0x78) then false
        else s.routeOpen },
    frame ptDiag (bytes16 source ++ bytes16 s.testerAddr ++ resp))

/-- Frames a further response of this entity, for the tester. -/
def responseMessage (s : Server γ ε) (resp : List UInt8) : List UInt8 :=
  frame ptDiag (bytes16 s.entityAddr ++ bytes16 s.testerAddr ++ resp)

end Server
end BloblyEmb.Doip
