import Mathlib.Algebra.Order.Ring.Nat
import Mathlib.Data.List.Basic
import Mathlib.Tactic.Common

/-!
# The diagnostic server under the bootloader

The part of `comm/uds` that the programming session delegates to, as the bootloader configures
it: no service table, no sub-function rows, no hooks, a zero `resp_cap`. What remains served is
session control, reading identifiers, refusing to write them, and tester present. Every other
service is answered `serviceNotSupported`.

`RemoteReset` is the bookkeeping for requests that reach a server over the network.
-/
namespace BloblyEmb.Uds

def maxDidData : ℕ := 32
def legacyRespCap : ℕ := 3 + maxDidData

def sessionDefault : UInt8 := 0x01
def sessionProgramming : UInt8 := 0x02
def sessionExtended : UInt8 := 0x03
def sessionSafety : UInt8 := 0x04

def nrcServiceNotSupported : UInt8 := 0x11
def nrcSubfunctionNotSupported : UInt8 := 0x12
def nrcIncorrectLength : UInt8 := 0x13
def nrcResponseTooLong : UInt8 := 0x14
def nrcRequestOutOfRange : UInt8 := 0x31

/-- The identifier of the active session, which the server serves itself. -/
def didActiveSession : UInt16 := 0xF186

structure Did where
  id : UInt16
  data : List UInt8
  deriving DecidableEq, Repr

structure Server where
  /-- The active session; 0 before any was entered. -/
  session : UInt8 := 0
  dids : List Did := []
  deriving DecidableEq, Repr

/-- A negative response. -/
def negative (sid nrc : UInt8) : List UInt8 := [0x7F, sid, nrc]

namespace Server

def enterSession (s : Server) (session : UInt8) : Server := { s with session := session }

def sessionAnswer (session : UInt8) : List UInt8 := [0x50, session, 0x00, 0x32, 0x01, 0xF4]

/-- Tester present: the only valid sub-function is 0, validated before suppression. -/
def testerPresent (req : List UInt8) : List UInt8 :=
  match req with
  | [] | [_] => negative 0x3E nrcIncorrectLength
  | _ :: sub :: rest =>
    if sub &&& 0x7F ≠ 0x00 then negative 0x3E nrcSubfunctionNotSupported
    else if rest ≠ [] then negative 0x3E nrcIncorrectLength
    else if sub &&& 0x80 ≠ 0 then []
    else [0x7E, 0x00]

/-- Session control. The state changes only on a supported session of the exact length. -/
def sessionControl (s : Server) (req : List UInt8) : Server × List UInt8 :=
  match req with
  | [] | [_] => (s, negative 0x10 nrcIncorrectLength)
  | _ :: sub :: rest =>
    let session := sub &&& 0x7F
    if session ≠ sessionDefault ∧ session ≠ sessionProgramming ∧ session ≠ sessionExtended ∧
        session ≠ sessionSafety then
      (s, negative 0x10 nrcSubfunctionNotSupported)
    else if rest ≠ [] then
      (s, negative 0x10 nrcIncorrectLength)
    else
      (s.enterSession session, if sub &&& 0x80 ≠ 0 then [] else sessionAnswer session)

/-- The record of an identifier: the active session, or the table's entry. -/
def record (s : Server) (id : UInt16) : Option (List UInt8) :=
  if id = didActiveSession ∧ s.session ≠ 0 then some [s.session]
  else (s.dids.find? (·.id == id)).map (·.data)

/-- The identifiers a read request names. -/
def requested : List UInt8 → List UInt16
  | hi :: lo :: rest => (hi.toUInt16 <<< 8 ||| lo.toUInt16) :: requested rest
  | _ => []

/-- Reading identifiers: those that exist are answered in the order of the request. -/
def readDid (s : Server) (req : List UInt8) : List UInt8 :=
  if req.length < 3 ∨ (req.length - 1) % 2 ≠ 0 then
    negative 0x22 nrcIncorrectLength
  else
    let answered := (requested req.tail).filterMap fun id => (s.record id).map fun d => (id, d)
    if answered = [] then
      negative 0x22 nrcRequestOutOfRange
    else if 1 + (answered.map fun a => 2 + a.2.length).sum > legacyRespCap then
      negative 0x22 nrcResponseTooLong
    else
      0x62 :: answered.flatMap fun (a : UInt16 × List UInt8) => (a.1 >>> 8).toUInt8 :: a.1.toUInt8 :: a.2

/-- No identifier of the bootloader is writable. -/
def writeDid (req : List UInt8) : List UInt8 :=
  if req.length < 4 then negative 0x2E nrcIncorrectLength
  else negative 0x2E nrcRequestOutOfRange

/-- One physically addressed request. -/
def handle (s : Server) (req : List UInt8) : Server × List UInt8 :=
  match req with
  | [] => (s, [])
  | sid :: _ =>
    if sid = 0x3E then (s, testerPresent req)
    else if sid = 0x10 then s.sessionControl req
    else if sid = 0x22 then (s, s.readDid req)
    else if sid = 0x2E then (s, writeDid req)
    else (s, negative sid nrcServiceNotSupported)

/-- Only session control changes the server. -/
theorem handle_fst_of_ne (s : Server) (req : List UInt8) (h : req.head? ≠ some 0x10) :
    (s.handle req).1 = s := by
  cases req with
  | nil => rfl
  | cons sid rest =>
    have hne : sid ≠ 0x10 := by simpa using h
    simp only [handle]
    split_ifs <;> rfl

end Server

/-! ## Requests over the network -/

structure RemoteReset where
  /-- A network request is taken and its acknowledgement is still out. -/
  inflight : Bool := false
  /-- The pending reset was asked over the network. -/
  reset : Bool := false
  /-- That reset's answer has been acknowledged. -/
  acked : Bool := false
  deriving DecidableEq, Repr

namespace RemoteReset

/-- A network request is taken. -/
def begin (r : RemoteReset) : RemoteReset := { r with inflight := true }

/-- The request just served left a reset pending. -/
def asked (r : RemoteReset) (remote : Bool) : RemoteReset :=
  { r with reset := remote, acked := false }

/-- The answer to the last network request has been acknowledged. -/
def sent (r : RemoteReset) : RemoteReset :=
  { r with inflight := false, acked := r.acked || r.reset }

/-- The network connection is gone; whether the pending reset must be cancelled with it. -/
def dropped (r : RemoteReset) : RemoteReset × Bool :=
  ({ r with inflight := false }, r.reset && !r.acked)

end RemoteReset
end BloblyEmb.Uds
