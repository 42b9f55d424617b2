import BloblyEmb.Uds.Server
import Mathlib.Algebra.Order.Ring.Nat
import Mathlib.Data.Int.Notation

/-!
# The diagnostic server

`comm/uds` as an application runs it: the service table, sub-function rows, the identifier
table, security access with its lockout, communication control, the fault-memory services, and
the sessions they are gated by. `BloblyEmb.Uds.Server` is the same server as the bootloader
configures it.

What the owner sets once is the `Config`; the rest is the `Server`. The function pointers are the
`Hooks`, over a context `ε` that they may read and change; a missing pointer is `none`. A hook
that only reads is a function of the context. An answer is the log of the stores into the
response buffer together with the returned length, since the two are what the owner sees.
-/
namespace BloblyEmb.Uds.Application

/-- The smallest response buffer `init` accepts: the longest fixed response. -/
def minRespCap : ℤ := 6

/-! ## Session masks: one bit per session value, 0 for every session -/

def inProgramming : UInt8 := 0x02
def inExtended : UInt8 := 0x04

def nrcConditionsNotCorrect : UInt8 := 0x22
def nrcRequestSequenceError : UInt8 := 0x24
def nrcSecurityAccessDenied : UInt8 := 0x33
def nrcInvalidKey : UInt8 := 0x35
def nrcExceededAttempts : UInt8 := 0x36
def nrcTimeDelayNotExpired : UInt8 := 0x37
def nrcSubfunctionNotInSession : UInt8 := 0x7E
def nrcServiceNotInSession : UInt8 := 0x7F

def defaultS3Us : ℕ := 5000000

def seedLen : ℕ := 4
def maxSecurityLevel : ℕ := 8
def defaultSaAttempts : UInt8 := 3
def defaultSaDelayUs : ℕ := 10000000

/-- The kind of reset that hands the programming session to the bootloader. -/
def resetIntoBoot : UInt8 := 0x80

/-- The low 64 bits: the server's clock is a 64-bit word. -/
def u64 (n : ℕ) : ℕ := n % 2 ^ 64

/-! ## Hooks -/

/-- A service acts through a hook. -/
inductive HookCall
  | seed (ok : Bool)
  | key (level : UInt8) (ok : Bool)
  | handoff (ok : Bool)
  | readMemory
  | clear (group : UInt32) (nrc : UInt8)
  | setting (on : Bool)
  | writeDid (id : UInt16) (nrc : UInt8)
  deriving DecidableEq, Repr

structure SecurityOps (ε : Type) where
  /-- The bytes stored for a seed, and whether it is one. -/
  seed : ε → ε × List UInt8 × Bool
  keyOk : ε → UInt8 → List UInt8 → List UInt8 → ε × Bool

/-- The part of the fault memory that both 0x19 and 0x14 need. -/
structure MemoryOps (ε : Type) where
  count : ε → ℕ
  /-- The trouble code and, in the low byte, its status. -/
  entry : ε → ℕ → UInt32
  /-- The response code, 0 for cleared. -/
  clear : ε → UInt32 → ε × UInt8

structure Hooks (ε : Type) where
  security : Option (SecurityOps ε) := none
  handoffOk : Option (ε → Bool) := none
  memory : Option (MemoryOps ε) := none
  setSetting : Option (ε → Bool → ε) := none
  /-- A snapshot record: the bytes stored within the capacity (none: only its length is asked),
  and the length returned. -/
  snapshot : Option (ε → ℕ → Option ℕ → List UInt8 × ℤ) := none
  extended : Option (ε → ℕ → UInt8 → ℕ → List UInt8 × ℤ) := none
  didWrite : Option (ε → UInt16 → List UInt8 → ε × UInt8) := none

/-! ## Configuration and state -/

/-- One row of the service table. -/
structure Service where
  sid : UInt8
  sessions : UInt8 := 0
  security : UInt8 := 0
  deriving DecidableEq, Repr

/-- One sub-function row. -/
structure SubService where
  sid : UInt8
  sub : UInt8
  sessions : UInt8 := 0
  security : UInt8 := 0
  deriving DecidableEq, Repr

/-- A data identifier: `data` is its cell, of which the first `len` bytes are the record. -/
structure Did where
  id : UInt16
  data : List UInt8
  len : UInt8
  writable : Bool := false
  bound : Bool := false
  readSessions : UInt8 := 0
  writeSessions : UInt8 := 0
  readSecurity : UInt8 := 0
  writeSecurity : UInt8 := 0
  deriving DecidableEq, Repr

structure Config where
  s3Us : ℕ := 0
  singleNetwork : Bool := false
  servesReset : Bool := false
  servesCommControl : Bool := false
  noProgramming : Bool := false
  bootHandoff : Bool := false
  subs : List SubService := []
  /-- Bit `L - 1` for level `L`. -/
  securityLevels : UInt8 := 0
  saAttempts : UInt8 := 0
  saDelayUs : ℕ := 0
  services : List Service := []
  extRecords : UInt8 := 0
  /-- The status availability mask of the fault memory; 0 when none is wired. -/
  avail : UInt8 := 0

structure Server (ε : Type) where
  ctx : ε
  session : UInt8 := 0
  dids : List Did := []
  /-- The unlocked security level; 0 when locked. -/
  unlocked : UInt8 := 0
  /-- The response capacity; 0 before `init`, negative when `init` refused it. -/
  respCap : ℤ := 0
  nowUs : ℕ := 0
  lastRxUs : ℕ := 0
  rxSeen : Bool := false
  resetReq : UInt8 := 0
  normalTxOff : Bool := false
  normalRxOff : Bool := false
  handoffElsewhere : Bool := false
  /-- The level whose seed is outstanding; 0 for none. -/
  saLevel : UInt8 := 0
  sessionEpoch : UInt32 := 0
  saSeed : Vector UInt8 seedLen := .replicate _ 0
  /-- Wrong keys per level. -/
  saFailed : Vector UInt8 maxSecurityLevel := .replicate _ 0
  saDelayUntil : ℕ := 0
  /-- The delay starts at the next tick. -/
  saArmDelay : Bool := false

/-! ## Answers -/

/-- Bytes stored from offset `o` on. -/
def place (o : ℕ) : List UInt8 → List (ℕ × UInt8)
  | [] => []
  | b :: bs => (o, b) :: place (o + 1) bs

structure Reply where
  /-- The stores into the response buffer, in order. -/
  stores : List (ℕ × UInt8) := []
  /-- The length returned; 0 for no response. -/
  len : ℕ := 0
  calls : List HookCall := []
  deriving DecidableEq, Repr

namespace Reply

/-- No response. -/
def silent : Reply := {}

/-- The response `bytes`. -/
def say (bytes : List UInt8) : Reply := { stores := place 0 bytes, len := bytes.length }

def negative (sid nrc : UInt8) : Reply := say (Uds.negative sid nrc)

/-- A positive response, withheld when the sub-function byte says so. -/
def suppressible (sub : UInt8) (bytes : List UInt8) : Reply :=
  if sub &&& 0x80 ≠ 0 then silent else say bytes

/-- The reply to a request that first went to a hook. -/
def calling (c : HookCall) (r : Reply) : Reply := { r with calls := c :: r.calls }

/-- The reply to a request after some stores of its own. -/
def behind (stores : List (ℕ × UInt8)) (r : Reply) : Reply :=
  { r with stores := stores ++ r.stores }

/-- The byte the buffer holds at `i` after the stores. -/
def byte (r : Reply) (i : ℕ) : Option UInt8 := (r.stores.findRev? (·.1 == i)).map (·.2)

end Reply

/-- A service allowed by `mask` runs in `session`. -/
def inMask (mask session : UInt8) : Bool :=
  if mask = 0 then true
  else if session = 0 ∨ session > 8 then false
  else mask &&& (1 <<< (session - 1)) != 0

/-- Where a service may run unless the table says otherwise. -/
def defaultSessions (sid : UInt8) : UInt8 :=
  if sid = 0x27 ∨ sid = 0x28 ∨ sid = 0x85 then inExtended ||| inProgramming else 0

/-- Where the programming handoff is accepted when no row names it. -/
def defaultHandoffSessions : UInt8 := inExtended

namespace Config

def saDelay (cfg : Config) : ℕ := if cfg.saDelayUs = 0 then defaultSaDelayUs else cfg.saDelayUs

def saMaxAttempts (cfg : Config) : UInt8 :=
  if cfg.saAttempts = 0 then defaultSaAttempts else cfg.saAttempts

/-- The table's row for a service, its sessions resolved; none when a configured table leaves the
service out. -/
def serviceRow (cfg : Config) (sid : UInt8) : Option Service :=
  if cfg.services = [] then
    some { sid := sid, sessions := defaultSessions sid }
  else
    (cfg.services.find? (·.sid == sid)).map fun row =>
      if row.sessions = 0 then { row with sessions := defaultSessions sid } else row

end Config

variable {ε : Type}

/-- The services the owner wired. -/
def serviceSupported (h : Hooks ε) (cfg : Config) (sid : UInt8) : Bool :=
  if sid = 0x10 ∨ sid = 0x22 ∨ sid = 0x2E ∨ sid = 0x3E then true
  else if sid = 0x11 then cfg.servesReset
  else if sid = 0x14 ∨ sid = 0x19 then cfg.avail != 0 && h.memory.isSome
  else if sid = 0x85 then cfg.avail != 0 && h.setSetting.isSome
  else if sid = 0x27 then h.security.isSome && cfg.securityLevels != 0
  else if sid = 0x28 then cfg.servesCommControl
  else false

namespace Server

def cap (s : Server ε) : ℕ := if s.respCap > 0 then s.respCap.toNat else legacyRespCap

/-! ## Sessions -/

/-- DTC setting resumes when a session ends. -/
def restoreDtcSetting (h : Hooks ε) (s : Server ε) : Server ε :=
  match h.setSetting with
  | some set => { s with ctx := set s.ctx true }
  | none => s

/-- Every entry relocks and voids an outstanding seed; the default session also re-enables
communication. -/
def enterSession (h : Hooks ε) (s : Server ε) (session : UInt8) : Server ε :=
  let s := { s with
    unlocked := 0
    saLevel := 0
    sessionEpoch := s.sessionEpoch + 1
    session := session }
  if session = sessionDefault then
    { s with normalTxOff := false, normalRxOff := false }.restoreDtcSetting h
  else s

/-- Back to the default session, without touching a pending reset. -/
def endSession (h : Hooks ε) (s : Server ε) : Server ε := s.enterSession h sessionDefault

/-- Some level has wrong keys counting. -/
def anySaFailed (s : Server ε) : Bool := s.saFailed.toList.any (· > 0)

/-- The diagnostic state of power-on. -/
def resetState (h : Hooks ε) (s : Server ε) : Server ε :=
  let s := { s with
    session := sessionDefault
    unlocked := 0
    saLevel := 0
    sessionEpoch := s.sessionEpoch + 1
    saArmDelay := s.anySaFailed
    normalTxOff := false
    normalRxOff := false }
  { s.restoreDtcSetting h with resetReq := 0, lastRxUs := 0, rxSeen := false }

def init (h : Hooks ε) (s : Server ε) (respCap : ℤ) : Server ε :=
  { s with respCap := if respCap ≥ minRespCap then respCap else -1 }.resetState h

/-- What an owner that restarts the controller carries across: the wrong keys of each level, and
whether a lockout is running. -/
def keptSecurity (s : Server ε) : Vector UInt8 maxSecurityLevel × Bool :=
  (s.saFailed, s.saArmDelay || Decidable.decide (s.nowUs < s.saDelayUntil))

/-- Takes back what was kept: a lockout is armed, its delay to be started by the first tick. -/
def restoreSecurity (s : Server ε) (kept : Vector UInt8 maxSecurityLevel × Bool) : Server ε :=
  let s := { s with saFailed := kept.1 }
  { s with saArmDelay := kept.2 || s.anySaFailed }

/-- The clock is set, and an armed delay starts. -/
def startDelay (cfg : Config) (s : Server ε) (now : ℕ) : Server ε :=
  let s := { s with nowUs := now }
  if s.saArmDelay then { s with saArmDelay := false, saDelayUntil := u64 (now + cfg.saDelay) }
  else s

/-- A session of silence since the last request is over. -/
def expired (cfg : Config) (s : Server ε) (now : ℕ) : Bool :=
  let s3 := if cfg.s3Us = 0 then defaultS3Us else cfg.s3Us
  !(s.session == sessionDefault || s.session == 0 || !s.rxSeen) &&
    (now > s.lastRxUs && now - s.lastRxUs > s3)

/-- The clock moves on, an armed delay starts, and a silent session expires. -/
def tick (h : Hooks ε) (cfg : Config) (s : Server ε) (now : ℕ) : Server ε :=
  let s := s.startDelay cfg now
  if s.expired cfg now then s.enterSession h sessionDefault else s

/-- An exchange is still under way: the session's silence has not begun. -/
def holdS3 (s : Server ε) (now : ℕ) : Server ε := { s with nowUs := now, lastRxUs := now }

/-! ## Session control, reset, communication -/

/-- The refusal of a sub-function row in the active session, 0 when it passes; none without a
row. -/
def subRefusal (cfg : Config) (s : Server ε) (sid sub : UInt8) : Option UInt8 :=
  (cfg.subs.find? fun r => r.sid == sid && r.sub == sub).map fun r =>
    if !inMask r.sessions s.session then nrcSubfunctionNotInSession
    else if r.security ≠ 0 ∧ s.unlocked ≠ r.security then nrcSecurityAccessDenied
    else 0

/-- The refusal of a session by its row; a handoff without a row has default sessions. -/
def sessionGate (cfg : Config) (s : Server ε) (sub : UInt8) (handoff : Bool) : UInt8 :=
  match s.subRefusal cfg 0x10 sub with
  | some gate => gate
  | none =>
    if handoff && !inMask defaultHandoffSessions s.session then nrcSubfunctionNotInSession else 0

/-- The handoff over to the bootloader, once the conditions allow it. -/
def handOff (h : Hooks ε) (s : Server ε) (req : List UInt8) (sub : UInt8) : Server ε × Reply :=
  let accepted : Server ε × Reply :=
    ({ s with resetReq := resetIntoBoot }, .suppressible (req.getD 1 0) (Uds.Server.sessionAnswer sub))
  if s.handoffElsewhere then
    (s, .negative 0x10 nrcConditionsNotCorrect)
  else
    match h.handoffOk with
    | none => accepted
    | some handoffOk =>
      if handoffOk s.ctx then (accepted.1, accepted.2.calling (.handoff true))
      else (s, (Reply.negative 0x10 nrcConditionsNotCorrect).calling (.handoff false))

def sessionControl (h : Hooks ε) (cfg : Config) (s : Server ε) (req : List UInt8) :
    Server ε × Reply :=
  if req.length < 2 then
    (s, .negative 0x10 nrcIncorrectLength)
  else
    let sub := req.getD 1 0 &&& 0x7F
    if sub ≠ sessionDefault ∧ sub ≠ sessionProgramming ∧ sub ≠ sessionExtended ∧
        sub ≠ sessionSafety then
      (s, .negative 0x10 nrcSubfunctionNotSupported)
    else
      let handoff := sub == sessionProgramming && cfg.noProgramming
      if handoff && !cfg.bootHandoff then
        (s, .negative 0x10 nrcSubfunctionNotSupported)
      else
        let gate := s.sessionGate cfg sub handoff
        if gate ≠ 0 then
          (s, .negative 0x10 gate)
        else if req.length ≠ 2 then
          (s, .negative 0x10 nrcIncorrectLength)
        else if handoff then
          s.handOff h req sub
        else
          (s.enterSession h sub, .suppressible (req.getD 1 0) (Uds.Server.sessionAnswer sub))

def ecuReset (s : Server ε) (req : List UInt8) : Server ε × Reply :=
  if req.length < 2 then
    (s, .negative 0x11 nrcIncorrectLength)
  else
    let sub := req.getD 1 0 &&& 0x7F
    if sub ≠ 0x01 ∧ sub ≠ 0x03 then
      (s, .negative 0x11 nrcSubfunctionNotSupported)
    else if req.length ≠ 2 then
      (s, .negative 0x11 nrcIncorrectLength)
    else
      ({ s with resetReq := sub }, .suppressible (req.getD 1 0) [0x51, sub])

def communicationControl (cfg : Config) (s : Server ε) (req : List UInt8) : Server ε × Reply :=
  if req.length < 2 then
    (s, .negative 0x28 nrcIncorrectLength)
  else
    let sub := req.getD 1 0 &&& 0x7F
    if sub > 0x03 then
      (s, .negative 0x28 nrcSubfunctionNotSupported)
    else if req.length ≠ 3 then
      (s, .negative 0x28 nrcIncorrectLength)
    else
      let ctype := req.getD 2 0
      let subnet := ctype >>> 4
      if ctype &&& 0x03 ≠ 0x01 ∨ ctype &&& 0x0C ≠ 0 then
        (s, .negative 0x28 nrcRequestOutOfRange)
      else if subnet ≠ 0x0F ∧ ¬(subnet = 0 ∧ cfg.singleNetwork = true) then
        (s, .negative 0x28 nrcRequestOutOfRange)
      else
        ({ s with
          normalRxOff := sub == 0x02 || sub == 0x03
          normalTxOff := sub == 0x01 || sub == 0x03 }, .suppressible (req.getD 1 0) [0x68, sub])

/-- Tester present: the only sub-function is 0, checked before suppression. -/
def testerPresent (s : Server ε) (req : List UInt8) : Server ε × Reply :=
  if req.length < 2 then
    (s, .negative 0x3E nrcIncorrectLength)
  else if req.getD 1 0 &&& 0x7F ≠ 0x00 then
    (s, .negative 0x3E nrcSubfunctionNotSupported)
  else if req.length ≠ 2 then
    (s, .negative 0x3E nrcIncorrectLength)
  else
    (s, .suppressible (req.getD 1 0) [0x7E, 0x00])

/-! ## Security access -/

/-- The lockout runs, or is about to. -/
def lockedOut (s : Server ε) : Bool := s.saArmDelay || Decidable.decide (s.nowUs < s.saDelayUntil)

/-- The seed cell after a hook stored `bytes` into it. -/
def seedCell (cell : Vector UInt8 seedLen) (bytes : List UInt8) : Vector UInt8 seedLen :=
  .ofFn fun i => if h : i < bytes.length then bytes.get ⟨i, h⟩ else cell.get i

/-- A fresh seed for `level`; zeros when the level is already unlocked. -/
def requestSeed (ops : SecurityOps ε) (s : Server ε) (level sub : UInt8) : Server ε × Reply :=
  if s.lockedOut then
    (s, .negative 0x27 nrcTimeDelayNotExpired)
  else
    let s := { s with saLevel := 0 }
    if s.unlocked = level then
      (s, .say (0x67 :: sub :: List.replicate seedLen 0))
    else
      let (ctx, bytes, ok) := ops.seed s.ctx
      -- the hook stores into the seed cell before it is known to succeed
      let s := { s with ctx := ctx, saSeed := seedCell s.saSeed bytes }
      if !ok then
        (s, (Reply.negative 0x27 nrcConditionsNotCorrect).calling (.seed false))
      else if s.saSeed.toList.all (· == 0) then
        (s, (Reply.negative 0x27 nrcConditionsNotCorrect).calling (.seed true))
      else
        ({ s with saLevel := level }, (Reply.say (0x67 :: sub :: s.saSeed.toList)).calling (.seed true))

/-- The wrong keys counted at index `i` of the levels. -/
def failed (s : Server ε) (i : ℕ) : UInt8 := s.saFailed[i]?.getD 0

/-- The key for the outstanding seed, checked once. -/
def sendKey (ops : SecurityOps ε) (cfg : Config) (s : Server ε) (level : UInt8)
    (req : List UInt8) : Server ε × Reply :=
  if req.length ≠ 2 + seedLen then
    (s, .negative 0x27 nrcIncorrectLength)
  else if s.saLevel ≠ level then
    (s, .negative 0x27 nrcRequestSequenceError)
  else
    let (ctx, ok) := ops.keyOk s.ctx level s.saSeed.toList (req.drop 2)
    let s := { s with ctx := ctx, saLevel := 0 }
    let i := level.toNat - 1
    if !ok then
      let failed := s.failed i + 1
      if failed ≥ cfg.saMaxAttempts then
        ({ s with
          saFailed := s.saFailed.setIfInBounds i 0
          saDelayUntil := u64 (s.nowUs + cfg.saDelay) },
          (Reply.negative 0x27 nrcExceededAttempts).calling (.key level false))
      else
        ({ s with saFailed := s.saFailed.setIfInBounds i failed },
          (Reply.negative 0x27 nrcInvalidKey).calling (.key level false))
    else
      ({ s with saFailed := s.saFailed.setIfInBounds i 0, unlocked := level },
        (Reply.suppressible (req.getD 1 0) [0x67, req.getD 1 0]).calling (.key level true))

def securityAccess (ops : SecurityOps ε) (cfg : Config) (s : Server ε) (req : List UInt8) :
    Server ε × Reply :=
  if req.length < 2 then
    (s, .negative 0x27 nrcIncorrectLength)
  else
    let sub := req.getD 1 0 &&& 0x7F
    let level := (sub + 1) / 2
    if sub = 0 ∨ level.toNat > maxSecurityLevel ∨
        cfg.securityLevels &&& (1 <<< (level - 1)) = 0 then
      (s, .negative 0x27 nrcSubfunctionNotSupported)
    else if sub &&& 1 = 1 then
      s.requestSeed ops level sub
    else
      s.sendKey ops cfg level req

/-! ## Identifiers -/

/-- The record length of an identifier the server serves itself; 0 for any other. -/
def servedDidLen (s : Server ε) (id : UInt16) : ℕ :=
  if id = didActiveSession ∧ s.session ≠ 0 then 1 else 0

def findDid (s : Server ε) (id : UInt16) : Option Did := s.dids.find? (·.id == id)

/-- What one identifier adds to the answer: nothing when it is not answered, and a refusal when
its level is not unlocked. -/
def didSize (s : Server ε) (id : UInt16) : Except UInt8 ℕ :=
  if s.servedDidLen id > 0 then
    .ok (2 + s.servedDidLen id)
  else
    match s.findDid id with
    | none => .ok 0
    | some d =>
      if !inMask d.readSessions s.session then .ok 0
      else if d.readSecurity ≠ 0 ∧ s.unlocked ≠ d.readSecurity then
        .error nrcSecurityAccessDenied
      else .ok (2 + d.len.toNat)

/-- The sizing pass: the bytes and the number of the answered identifiers. -/
def sizeDids (s : Server ε) : List UInt16 → Except UInt8 (ℕ × ℕ)
  | [] => .ok (0, 0)
  | id :: ids =>
    match s.didSize id with
    | .error nrc => .error nrc
    | .ok n =>
      match s.sizeDids ids with
      | .error nrc => .error nrc
      | .ok (total, answered) => .ok (n + total, if n = 0 then answered else answered + 1)

/-- The two bytes of an identifier. -/
def idBytes (id : UInt16) : List UInt8 := [(id >>> 8).toUInt8, id.toUInt8]

/-- The record of the writing pass; empty when the identifier is not answered. -/
def didRecord (s : Server ε) (id : UInt16) : List UInt8 :=
  if s.servedDidLen id > 0 then
    idBytes id ++ [s.session]
  else
    match s.findDid id with
    | none => []
    | some d =>
      if !inMask d.readSessions s.session then []
      else idBytes id ++ (List.range d.len.toNat).map fun j => d.data.getD j 0

/-- The writing pass: the records in the order of the request, from `o` on. -/
def writeDids (s : Server ε) (o : ℕ) : List UInt16 → List (ℕ × UInt8) × ℕ
  | [] => ([], o)
  | id :: ids =>
    let record := s.didRecord id
    let rest := s.writeDids (o + record.length) ids
    (place o record ++ rest.1, rest.2)

def readDid (s : Server ε) (req : List UInt8) : Server ε × Reply :=
  if req.length < 3 ∨ (req.length - 1) % 2 ≠ 0 then
    (s, .negative 0x22 nrcIncorrectLength)
  else
    let ids := Uds.Server.requested req.tail
    match s.sizeDids ids with
    | .error nrc => (s, .negative 0x22 nrc)
    | .ok (total, answered) =>
      if answered = 0 then
        (s, .negative 0x22 nrcRequestOutOfRange)
      else if 1 + total > s.cap then
        (s, .negative 0x22 nrcResponseTooLong)
      else
        let written := s.writeDids 1 ids
        (s, { stores := (0, 0x62) :: written.1, len := written.2 })

/-- The identifier's cell with the record `bytes` written into it. -/
def storeDid (s : Server ε) (id : UInt16) (bytes : List UInt8) : Server ε :=
  { s with
    dids := s.dids.replaceF fun d =>
      if d.id = id then some { d with data := bytes ++ d.data.drop bytes.length } else none }

def writeDid (h : Hooks ε) (s : Server ε) (req : List UInt8) : Server ε × Reply :=
  if req.length < 4 then
    (s, .negative 0x2E nrcIncorrectLength)
  else
    let id := (req.getD 1 0).toUInt16 <<< 8 ||| (req.getD 2 0).toUInt16
    let bytes := req.drop 3
    let accepted (s : Server ε) : Server ε × Reply :=
      (s.storeDid id bytes, .say [0x6E, req.getD 1 0, req.getD 2 0])
    match s.findDid id with
    | none => (s, .negative 0x2E nrcRequestOutOfRange)
    | some d =>
      if !d.writable || !inMask d.writeSessions s.session then
        (s, .negative 0x2E nrcRequestOutOfRange)
      else if d.writeSecurity ≠ 0 ∧ s.unlocked ≠ d.writeSecurity then
        (s, .negative 0x2E nrcSecurityAccessDenied)
      else if bytes.length ≠ d.len.toNat ∨ bytes.length > maxDidData then
        (s, .negative 0x2E nrcIncorrectLength)
      else if d.bound then
        match h.didWrite with
        | none => (s, .negative 0x2E nrcConditionsNotCorrect)
        | some write =>
          let (ctx, nrc) := write s.ctx id bytes
          let s := { s with ctx := ctx }
          if nrc ≠ 0 then (s, (Reply.negative 0x2E nrc).calling (.writeDid id nrc))
          else ((accepted s).1, (accepted s).2.calling (.writeDid id nrc))
      else
        accepted s

/-! ## The fault memory -/

/-- The bytes of a trouble code and its status. -/
def dtcBytes (e : UInt32) : List UInt8 :=
  [(e >>> 24).toUInt8, (e >>> 16).toUInt8, (e >>> 8).toUInt8, e.toUInt8]

/-- Trouble code `i` belongs to the report. -/
def reported (mem : MemoryOps ε) (s : Server ε) (sub mask : UInt8) (i : ℕ) : Bool :=
  sub == 0x0A || (mem.entry s.ctx i).toUInt8 &&& mask != 0

/-- The writing pass over trouble codes: those that `hit` append the four bytes of `record`. -/
def writeDtcs (hit : ℕ → Bool) (record : ℕ → List UInt8) (o : ℕ) :
    List ℕ → List (ℕ × UInt8) × ℕ
  | [] => ([], o)
  | i :: is =>
    if hit i then
      let rest := writeDtcs hit record (o + 4) is
      (place o (record i) ++ rest.1, rest.2)
    else
      writeDtcs hit record o is

/-- Every trouble code with a stored snapshot, with its record number. -/
def snapshotIds (mem : MemoryOps ε) (snapshot : ε → ℕ → Option ℕ → List UInt8 × ℤ)
    (s : Server ε) : Reply :=
  let n := mem.count s.ctx
  let stored (i : ℕ) : Bool := Decidable.decide ((snapshot s.ctx i none).2 > 0)
  if 2 + 4 * (List.range n).countP stored > s.cap then
    .negative 0x19 nrcResponseTooLong
  else
    let record (i : ℕ) : List UInt8 := (dtcBytes (mem.entry s.ctx i)).take 3 ++ [0x01]
    let written := writeDtcs stored record 2 (List.range n)
    { stores := place 0 [0x59, 0x03] ++ written.1, len := written.2 }

/-- One trouble code's snapshot record behind the six bytes `head`. -/
def snapshotRecord (snapshot : ε → ℕ → Option ℕ → List UInt8 × ℤ) (s : Server ε) (i : ℕ)
    (head : List (ℕ × UInt8)) : Reply :=
  let len := (snapshot s.ctx i none).2
  if len > 0 then
    if (6 + 1 + len : ℤ) > s.cap then
      (Reply.negative 0x19 nrcResponseTooLong).behind head
    else
      let written := snapshot s.ctx i (some (s.cap - 6 - 1))
      let stores := head ++ [(6, 0x01)] ++ place (6 + 1) written.1
      if written.2 ≠ len then (Reply.negative 0x19 nrcResponseTooLong).behind stores
      else { stores := stores, len := 6 + 1 + len.toNat }
  else
    { stores := head, len := 6 }

/-- The extended data records `recs` of one trouble code, from `o` on: straight into the
response, each bounded by what is left of it. -/
def extendedRecords (extended : ε → ℕ → UInt8 → ℕ → List UInt8 × ℤ) (s : Server ε) (i : ℕ)
    (stores : List (ℕ × UInt8)) (o : ℕ) : List UInt8 → Reply
  | [] => { stores := stores, len := o }
  | r :: rs =>
    let room := s.cap - o - 1
    let written := extended s.ctx i r room
    let stores := stores ++ place (o + 1) written.1
    if written.2 < 0 ∨ written.2 > room then
      (Reply.negative 0x19 nrcResponseTooLong).behind stores
    else if written.2 = 0 then
      extendedRecords extended s i stores o rs
    else
      extendedRecords extended s i (stores ++ [(o, r)]) (o + 1 + written.2.toNat) rs

/-- The record numbers `first .. last` of bytes. -/
def recordNumbers (first last : UInt8) : List UInt8 :=
  (List.range' first.toNat ((last + 1).toNat - first.toNat)).map UInt8.ofNat

/-- The server defines the record number: the one snapshot record, an extended data record, or
all of them. -/
def definedRecord (cfg : Config) (sub recNo : UInt8) : Bool :=
  if sub = 0x04 then recNo == 0x01 || recNo == 0xFF
  else recNo == 0xFF || (recNo ≥ 1 && recNo ≤ cfg.extRecords)

/-- One trouble code's snapshot record (0x04) or extended data records (0x06). -/
def dtcRecords (h : Hooks ε) (cfg : Config) (mem : MemoryOps ε) (s : Server ε) (sub : UInt8)
    (req : List UInt8) : Reply :=
  let dtc : UInt32 := (req.getD 2 0).toUInt32 <<< 16 ||| (req.getD 3 0).toUInt32 <<< 8 |||
    (req.getD 4 0).toUInt32
  let recNo := req.getD 5 0
  match (List.range (mem.count s.ctx)).find? fun j => mem.entry s.ctx j >>> 8 == dtc with
  | none => .negative 0x19 nrcRequestOutOfRange
  | some i =>
    if !definedRecord cfg sub recNo then
      .negative 0x19 nrcRequestOutOfRange
    else
      let head := place 0 [0x59, sub, (dtc >>> 16).toUInt8, (dtc >>> 8).toUInt8, dtc.toUInt8,
        (mem.entry s.ctx i).toUInt8 &&& cfg.avail]
      if sub = 0x04 then
        match h.snapshot with
        | none => .negative 0x19 nrcSubfunctionNotSupported
        | some snapshot => s.snapshotRecord snapshot i head
      else
        match h.extended with
        | none => .negative 0x19 nrcSubfunctionNotSupported
        | some extended =>
          let first := if recNo = 0xFF then 1 else recNo
          let last := if recNo = 0xFF then cfg.extRecords else recNo
          s.extendedRecords extended i head 6 (recordNumbers first last)

/-- The request length a sub-function of 0x19 wants; 0 when it is not served. -/
def wantedLen (h : Hooks ε) (sub : UInt8) : ℕ :=
  if sub = 0x01 ∨ sub = 0x02 then 3
  else if sub = 0x0A then 2
  else if sub = 0x03 then (if h.snapshot.isSome then 2 else 0)
  else if sub = 0x04 then (if h.snapshot.isSome then 6 else 0)
  else if sub = 0x06 then (if h.extended.isSome then 6 else 0)
  else 0

/-- The trouble codes that match a mask, counted (0x01) or listed (0x02, 0x0A). -/
def dtcsByMask (cfg : Config) (mem : MemoryOps ε) (s : Server ε) (sub : UInt8)
    (req : List UInt8) : Reply :=
  let mask := if sub = 0x0A then 0xFF else req.getD 2 0 &&& cfg.avail
  let n := mem.count s.ctx
  let hits := (List.range n).countP (s.reported mem sub mask)
  if sub = 0x01 then
    .say [0x59, 0x01, cfg.avail, 0x01, UInt8.ofNat (hits >>> 8), UInt8.ofNat hits]
  else if 3 + 4 * hits > s.cap then
    .negative 0x19 nrcResponseTooLong
  else
    let written := writeDtcs (s.reported mem sub mask) (fun i => dtcBytes (mem.entry s.ctx i)) 3
      (List.range n)
    { stores := place 0 [0x59, sub, cfg.avail] ++ written.1, len := written.2 }

def readDtcs (h : Hooks ε) (cfg : Config) (mem : MemoryOps ε) (s : Server ε) (req : List UInt8) :
    Server ε × Reply :=
  if req.length < 2 then
    (s, .negative 0x19 nrcIncorrectLength)
  else
    let sub := req.getD 1 0
    if wantedLen h sub = 0 then
      (s, .negative 0x19 nrcSubfunctionNotSupported)
    else if req.length ≠ wantedLen h sub then
      (s, .negative 0x19 nrcIncorrectLength)
    else if sub = 0x03 then
      match h.snapshot with
      | none => (s, .negative 0x19 nrcSubfunctionNotSupported)
      | some snapshot => (s, (s.snapshotIds mem snapshot).calling .readMemory)
    else if sub = 0x04 ∨ sub = 0x06 then
      (s, (s.dtcRecords h cfg mem sub req).calling .readMemory)
    else
      (s, (s.dtcsByMask cfg mem sub req).calling .readMemory)

def clearDtcs (mem : MemoryOps ε) (s : Server ε) (req : List UInt8) : Server ε × Reply :=
  if req.length ≠ 4 then
    (s, .negative 0x14 nrcIncorrectLength)
  else
    let group : UInt32 := (req.getD 1 0).toUInt32 <<< 16 ||| (req.getD 2 0).toUInt32 <<< 8 |||
      (req.getD 3 0).toUInt32
    let (ctx, nrc) := mem.clear s.ctx group
    let s := { s with ctx := ctx }
    if nrc ≠ 0 then (s, (Reply.negative 0x14 nrc).calling (.clear group nrc))
    else (s, (Reply.say [0x54]).calling (.clear group nrc))

def dtcSetting (set : ε → Bool → ε) (s : Server ε) (req : List UInt8) : Server ε × Reply :=
  if req.length < 2 then
    (s, .negative 0x85 nrcIncorrectLength)
  else
    let sub := req.getD 1 0 &&& 0x7F
    if sub ≠ 0x01 ∧ sub ≠ 0x02 then
      (s, .negative 0x85 nrcSubfunctionNotSupported)
    else
      ({ s with ctx := set s.ctx (sub == 0x01) },
        (Reply.suppressible (req.getD 1 0) [0xC5, sub]).calling (.setting (sub == 0x01)))

/-! ## Requests -/

/-- The service itself, once the table let the request through. -/
def serve (h : Hooks ε) (cfg : Config) (s : Server ε) (sid : UInt8) (req : List UInt8) :
    Server ε × Reply :=
  let unserved := (s, Reply.negative sid nrcServiceNotSupported)
  if sid = 0x3E then s.testerPresent req
  else if sid = 0x10 then s.sessionControl h cfg req
  else if sid = 0x11 then s.ecuReset req
  else if sid = 0x22 then s.readDid req
  else if sid = 0x27 then
    match h.security with
    | some ops => s.securityAccess ops cfg req
    | none => unserved
  else if sid = 0x14 then
    match h.memory with
    | some mem => s.clearDtcs mem req
    | none => unserved
  else if sid = 0x19 then
    match h.memory with
    | some mem => s.readDtcs h cfg mem req
    | none => unserved
  else if sid = 0x85 then
    match h.setSetting with
    | some set => s.dtcSetting set req
    | none => unserved
  else if sid = 0x28 then s.communicationControl cfg req
  else if sid = 0x2E then s.writeDid h req
  else unserved

/-- The services, one by one. -/
theorem serve_cases {P : UInt8 → (List UInt8 → Server ε × Reply) → Prop} (h : Hooks ε)
    (cfg : Config) (s : Server ε)
    (tester : P 0x3E s.testerPresent) (control : P 0x10 (s.sessionControl h cfg))
    (reset : P 0x11 s.ecuReset) (read : P 0x22 s.readDid)
    (access : ∀ ops, h.security = some ops → P 0x27 (s.securityAccess ops cfg))
    (clear : ∀ mem, h.memory = some mem → P 0x14 (s.clearDtcs mem))
    (dtcs : ∀ mem, h.memory = some mem → P 0x19 (s.readDtcs h cfg mem))
    (setting : ∀ set, h.setSetting = some set → P 0x85 (s.dtcSetting set))
    (comm : P 0x28 (s.communicationControl cfg)) (write : P 0x2E (s.writeDid h))
    (unserved : ∀ sid, P sid fun _ => (s, .negative sid nrcServiceNotSupported)) (sid : UInt8) :
    P sid (s.serve h cfg sid) := by
  have hite {c : Prop} [Decidable c] {f g : List UInt8 → Server ε × Reply}
      (hc : c → P sid f) (hn : ¬c → P sid g) : P sid fun req => if c then f req else g req := by
    split
    · exact hc ‹_›
    · exact hn ‹_›
  refine hite (fun heq => heq ▸ tester) fun _ => hite (fun heq => heq ▸ control) fun _ =>
    hite (fun heq => heq ▸ reset) fun _ => hite (fun heq => heq ▸ read) fun _ =>
    hite (fun heq => ?_) fun _ => hite (fun heq => ?_) fun _ => hite (fun heq => ?_) fun _ =>
    hite (fun heq => ?_) fun _ => hite (fun heq => heq ▸ comm) fun _ =>
    hite (fun heq => heq ▸ write) fun _ => unserved sid
  · subst heq
    cases hx : h.security with
    | none => exact unserved _
    | some ops => exact access ops hx
  · subst heq
    cases hx : h.memory with
    | none => exact unserved _
    | some mem => exact clear mem hx
  · subst heq
    cases hx : h.memory with
    | none => exact unserved _
    | some mem => exact dtcs mem hx
  · subst heq
    cases hx : h.setSetting with
    | none => exact unserved _
    | some set => exact setting set hx

/-- Any request keeps the session alive. -/
def stamped (s : Server ε) : Server ε := { s with lastRxUs := s.nowUs, rxSeen := true }

/-- One request: supported, in the active session, behind the service's security, then served. -/
def dispatch (h : Hooks ε) (cfg : Config) (s : Server ε) (req : List UInt8) : Server ε × Reply :=
  match req with
  | [] => (s, .silent)
  | sid :: _ =>
    if s.respCap < 0 then
      (s, .silent)
    else
      let s := s.stamped
      if !serviceSupported h cfg sid then
        (s, .negative sid nrcServiceNotSupported)
      else
        match cfg.serviceRow sid with
        | none => (s, .negative sid nrcServiceNotSupported)
        | some row =>
          if !inMask row.sessions s.session then
            (s, .negative sid nrcServiceNotInSession)
          else if row.security ≠ 0 ∧ s.unlocked ≠ row.security then
            (s, .negative sid nrcSecurityAccessDenied)
          else
            s.serve h cfg sid req

/-- A physically addressed request. -/
def handle (h : Hooks ε) (cfg : Config) (s : Server ε) (req : List UInt8) : Server ε × Reply :=
  s.dispatch h cfg req

/-- The response codes a functional request never answers. -/
def withheld (nrc : UInt8) : Bool :=
  nrc == nrcServiceNotSupported || nrc == nrcSubfunctionNotSupported ||
    nrc == nrcRequestOutOfRange || nrc == nrcSubfunctionNotInSession ||
    nrc == nrcServiceNotInSession

/-- A functionally addressed request. Security access is physical only, and a broadcast into an
unsupported or gated service stays silent. -/
def handleFunctional (h : Hooks ε) (cfg : Config) (s : Server ε) (req : List UInt8) :
    Server ε × Reply :=
  if req.head? = some 0x27 ∧ s.respCap ≥ 0 then
    (s.stamped, .silent)
  else
    let (s, r) := s.dispatch h cfg req
    if r.len = 3 ∧ r.byte 0 = some 0x7F ∧ ∃ nrc ∈ r.byte 2, withheld nrc = true then
      (s, { r with len := 0 })
    else (s, r)

end Server
end BloblyEmb.Uds.Application
