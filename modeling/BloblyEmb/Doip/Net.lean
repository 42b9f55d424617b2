import BloblyEmb.Doip.Server

/-!
# The network loop

`driver/doipnet`: one tester connection at a time. What is received goes to the framing, a response
buffer at a time, and each response is sent before the next is made. A connection that the framing
condemns ends once its response is out, and so does one whose send fails.
-/
namespace BloblyEmb.Doip
open Buffer

/-- What a receive on the connection gives. -/
inductive Received where
  | dropped
  | nothing
  | bytes (data : List UInt8)

/-- What a step did on the connection: the responses handed to the network, the messages served,
and whether the connection ended. -/
structure Done where
  sent : List (List UInt8)
  served : List Served
  ended : Bool

namespace Server
variable {γ ε : Type} (serve : Serve γ) (h : Uds.Application.Hooks ε) (cfg : Uds.Application.Config)

/-- The connection ends: the next one starts without a tester. -/
def endConnection (s : Server γ ε) : Server γ ε :=
  { s with
    activated := false, fatal := false, buf := [], conn := s.conn + 1, ticket := s.ticket + 1,
    routeOpen := false }

/-- Serves what a chunk completes: a feed, and empty feeds while they answer, in at most `fuel`
feeds. `sends k` is whether the send of response `k` succeeds. -/
def exchange (respMax : ℕ) : ℕ → (ℕ → Bool) → Server γ ε → List UInt8 → (ℕ → UInt8) →
    Server γ ε × Done
  | 0, _, s, _, _ => (s, ⟨[], [], false⟩)
  | fuel + 1, sends, s, data, out =>
    let (s, r, log) := s.feed serve h cfg data out respMax
    if r.len = 0 then (s, ⟨[], log, false⟩)
    else
      let response := prefixOf r.cells r.len
      if ¬sends 0 then (s.endConnection, ⟨[response], log, true⟩)
      else
        let (s, rest) := exchange respMax fuel (fun k => sends (k + 1)) s [] r.cells
        (s, ⟨response :: rest.sent, log ++ rest.served, rest.ended⟩)

/-- One receive and everything that it completes. -/
def pass (s : Server γ ε) (rx : Received) (sends : ℕ → Bool) (out : ℕ → UInt8) (respMax : ℕ) :
    Server γ ε × Done :=
  match rx with
  | .dropped => (s.endConnection, ⟨[], [], true⟩)
  | .nothing => (s, ⟨[], [], false⟩)
  | .bytes data =>
    let (s, done) :=
      s.exchange serve h cfg respMax (s.buf.length + data.length + 2) sends data out
    if s.fatal then (s.endConnection, { done with ended := true }) else (s, done)

/-- Sends a further response of the server, which the tester did not ask for again. -/
def push (s : Server γ ε) (resp : List UInt8) (sent : Bool) : Server γ ε × Done :=
  if ¬s.activated then (s, ⟨[], [], false⟩)
  else
    let response := s.responseMessage resp
    if ¬sent then (s.endConnection, ⟨[response], [], true⟩) else (s, ⟨[response], [], false⟩)

/-- Sends an answer of a node behind the gateway, to the request numbered `ticket`. -/
def routed (s : Server γ ε) (source : UInt16) (ticket : UInt32) (resp : List UInt8) (sent : Bool) :
    Server γ ε × Done :=
  if ¬s.activated ∨ ¬s.routeOpen ∨ ticket ≠ s.ticket ∨ resp = [] then (s, ⟨[], [], false⟩)
  else
    let (s, response) := s.routedMessage source resp
    if ¬sent then (s.endConnection, ⟨[response], [], true⟩) else (s, ⟨[response], [], false⟩)

end Server
end BloblyEmb.Doip
