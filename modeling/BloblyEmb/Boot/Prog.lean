import Mathlib.Algebra.Order.Ring.Nat
import BloblyEmb.Boot.Header
import BloblyEmb.Flash.Driver
import BloblyEmb.Uds.Server

/-!
# The programming session

The bootloader's diagnostic server (`boot/prog.v`): the erase and check routines, the download
services, authentication and reset, layered on `Uds.Server` and reached over two transports.

Addresses and sizes are natural numbers below `2 ^ 32`; `u32` marks the places where the
source's arithmetic wraps. A handler that may work on the flash is a `FlashM` computation; the
others are functions of the session alone. The signature verifier and the challenge source are
parameters: `Verifier` is the streaming interface of `bcrypto`, and a `Draw` is what one call of
the random source does.
-/
namespace BloblyEmb.Boot
open Flash Uds

/-- Program granularity: the flash word. -/
def progWord : ℕ := 32

/-- Payload cap of one `TransferData` block. -/
def maxBlockData : ℕ := 512

def nrcIncorrectLength : UInt8 := 0x13
def nrcConditionsNotCorrect : UInt8 := 0x22
def nrcRequestSequenceError : UInt8 := 0x24
def nrcRequestOutOfRange : UInt8 := 0x31
def nrcSecurityAccessDenied : UInt8 := 0x33
def nrcInvalidKey : UInt8 := 0x35
def nrcGeneralProgrammingFailure : UInt8 := 0x72
def nrcWrongBlockSequence : UInt8 := 0x73
def nrcBusyRepeat : UInt8 := 0x21
def nrcResponsePending : UInt8 := 0x78

/-- How often a lost response of a routine is sent again. -/
def workResendMax : ℕ := 3

def routineErase : UInt16 := 0xFF00
def routineCheck : UInt16 := 0xFF01

/-- Tester silence after which a session expires. -/
def s3ServerUs : ℕ := 5000000

/-- The longest a handed-off session waits for the network, unless the node says otherwise. -/
def netWaitDefaultUs : ℕ := 10000000

/-- The low 32 bits. -/
def u32 (n : ℕ) : ℕ := n % 2 ^ 32

/-- Subtraction of 32-bit words. -/
def sub32 (a b : ℕ) : ℕ := u32 (a + 2 ^ 32 - b)

/-- The transports a request arrives over: ISO-TP on the bus, and DoIP. -/
inductive Via
  | bus
  | net
  deriving DecidableEq, Repr

/-- Routine work answered `responsePending`. After the last unit only the answer is left. -/
inductive Work
  | none
  | erase
  | check
  | answer
  deriving DecidableEq, Repr

/-- The streaming signature verifier. -/
structure Verifier where
  State : Type
  start : List UInt8 → List UInt8 → State
  update : State → List UInt8 → State
  finish : State → Bool

namespace Verifier

/-- The signature `sig` under `key` was verified over `msg`, fed in some chunks. -/
def Accepts (V : Verifier) (key sig msg : List UInt8) : Prop :=
  ∃ chunks : List (List UInt8), chunks.flatten = msg ∧
    V.finish (chunks.foldl V.update (V.start key sig)) = true

end Verifier

/-- One call of the random source: the bytes it leaves in the buffer, and its answer. A failing
source may have written a part. -/
structure Draw where
  bytes : List UInt8 := []
  ok : Bool := false

/-- The buffer after the call. -/
def Draw.into (d : Draw) (buf : List UInt8) : List UInt8 :=
  d.bytes.take buf.length ++ buf.drop d.bytes.length

/-- What a node bakes into its bootloader. The application window ends inside the 32-bit
address space. -/
structure Config where
  appBase : ℕ
  appSize : ℕ
  /-- The flash sector, or 0 for the whole region at once. -/
  eraseUnit : ℕ
  imageKey : List UInt8
  sessionKey : List UInt8
  /-- There is a random source. -/
  rng : Bool
  netWaitUs : ℕ
  dids : List Did
  window : appBase + appSize < 2 ^ 32

def keyIsZero (k : List UInt8) : Bool := k.all (· == 0)

structure Prog where
  srv : Server := {}
  unlocked : Bool := false
  challenge : List UInt8 := List.replicate 32 0
  challengeValid : Bool := false
  erased : Bool := false
  downloading : Bool := false
  dlAddr : ℕ := 0
  dlEnd : ℕ := 0
  nextBlock : UInt8 := 0
  lastRxUs : ℕ := 0
  heard : Bool := false
  stage : List UInt8 := List.replicate 32 0
  stageLen : ℕ := 0
  resetPending : Bool := false
  /-- The transport that holds the session in force. -/
  owner : Option Via := none
  remote : RemoteReset := {}
  remoteSpoke : Bool := false
  clock : ℕ := 0
  awaitNet : Bool := false
  work : Work := .none
  /-- The transport that asked for the routine. -/
  workVia : Option Via := none
  workAddr : ℕ := 0
  workEnd : ℕ := 0
  workOut : Bool := false
  workPush : Bool := false
  workReady : Bool := false
  workResend : Bool := false
  workTries : ℕ := 0
  workRsp : List UInt8 := []

/-- Big-endian word of four request bytes. -/
def be32 (b0 b1 b2 b3 : UInt8) : ℕ :=
  b0.toNat * 2 ^ 24 + b1.toNat * 2 ^ 16 + b2.toNat * 2 ^ 8 + b3.toNat

/-- The word at offset `off` of a request that is long enough. -/
def reqWord (req : List UInt8) (off : ℕ) : ℕ :=
  be32 (req.getD off 0) (req.getD (off + 1) 0) (req.getD (off + 2) 0) (req.getD (off + 3) 0)

def routineRsp (rid : UInt16) (result : UInt8) : List UInt8 :=
  [0x71, 0x01, (rid >>> 8).toUInt8, rid.toUInt8, result]

/-- Time from `since` to `now`; no silence when the stamp is not before `now`. -/
def elapsed (now since : ℕ) : ℕ := if now > since then now - since else 0

namespace Prog

def stamp (p : Prog) (now : ℕ) : Prog := { p with lastRxUs := now, heard := true }

/-- Activity over `via` counts when that transport may use the session in force. -/
def heardVia (p : Prog) (via : Via) (now : ℕ) : Prog :=
  if p.srv.session = 0x01 ∨ p.owner = none ∨ p.owner = some via then p.stamp now else p

/-- Back to the default session: relocked, a challenge, a download and a routine abandoned. -/
def endSession (p : Prog) : Prog :=
  { p with
    srv := { p.srv with session := 0x01 }
    unlocked := false
    challengeValid := false
    downloading := false
    erased := false
    owner := none
    awaitNet := false
    remoteSpoke := false
    work := .none }

def inProgrammingSession (p : Prog) : Bool := p.srv.session == 0x02

/-- The flash services require an unlock, unless no session key is baked. -/
def writeLocked (cfg : Config) (p : Prog) : Bool := !p.unlocked && !keyIsZero cfg.sessionKey

/-- `[addr, addr+size)` lies inside the application window and is not empty. -/
def regionOk (cfg : Config) (addr size : ℕ) : Bool :=
  if size = 0 then false
  else Decidable.decide (addr ≥ cfg.appBase) &&
    Decidable.decide (addr + size ≤ cfg.appBase + cfg.appSize)

/-! ## Services -/

/-- 0x29: a challenge is drawn and issued, and the proof over it verified. -/
def authentication (V : Verifier) (cfg : Config) (draw : Draw) (p : Prog) (req : List UInt8) :
    Prog × List UInt8 :=
  if req.length < 2 then
    (p, negative 0x29 nrcIncorrectLength)
  else if !p.inProgrammingSession then
    (p, negative 0x29 nrcConditionsNotCorrect)
  else if req.getD 1 0 = 0x01 then
    if !cfg.rng || keyIsZero cfg.sessionKey then
      (p, negative 0x29 nrcConditionsNotCorrect)
    else
      -- the source writes into the challenge buffer before it is known to succeed
      let p := { p with challenge := draw.into p.challenge }
      if !draw.ok then
        (p, negative 0x29 nrcConditionsNotCorrect)
      else
        ({ p with challengeValid := true }, 0x69 :: 0x01 :: p.challenge)
  else if req.getD 1 0 = 0x02 then
    if !p.challengeValid then
      (p, negative 0x29 nrcRequestSequenceError)
    else if req.length < 2 + 64 then
      (p, negative 0x29 nrcIncorrectLength)
    else
      let sig := (req.drop 2).take 64
      -- one-shot: a fresh challenge per attempt
      let p := { p with challengeValid := false }
      if !V.finish (V.update (V.start cfg.sessionKey sig) p.challenge) then
        (p, negative 0x29 nrcInvalidKey)
      else
        ({ p with unlocked := true }, [0x69, 0x02])
  else
    (p, negative 0x29 nrcRequestOutOfRange)

/-- 0x31: starts the erase or the check; the work itself is done by `step`. -/
def routineControl (cfg : Config) (p : Prog) (req : List UInt8) : Prog × List UInt8 :=
  if req.length < 4 then
    (p, negative 0x31 nrcIncorrectLength)
  else
    let rid := (req.getD 2 0).toUInt16 <<< 8 ||| (req.getD 3 0).toUInt16
    if req.getD 1 0 ≠ 0x01 then
      (p, negative 0x31 nrcRequestOutOfRange)
    else if !p.inProgrammingSession || p.writeLocked cfg then
      (p, negative 0x31 nrcSecurityAccessDenied)
    else if rid = routineErase then
      if req.length < 12 then
        (p, negative 0x31 nrcIncorrectLength)
      else
        let addr := reqWord req 4
        let size := reqWord req 8
        if !regionOk cfg addr size then
          (p, negative 0x31 nrcRequestOutOfRange)
        else
          ({ p with
            erased := false
            downloading := false
            work := .erase
            workAddr := addr
            workEnd := u32 (addr + size) }, negative 0x31 nrcResponsePending)
    else if rid = routineCheck then
      if p.downloading then
        (p, negative 0x31 nrcRequestSequenceError)
      else
        ({ p with work := .check }, negative 0x31 nrcResponsePending)
    else
      (p, negative 0x31 nrcRequestOutOfRange)

/-- The bytes the valid mark is stored as. -/
def markBytes : List UInt8 :=
  [validMark.toUInt8, (validMark >>> 8).toUInt8, (validMark >>> 16).toUInt8,
    (validMark >>> 24).toUInt8]

/-- 0x34: the download region, accepted over an erased window without a stale mark. -/
def requestDownload (cfg : Config) (p : Prog) (req : List UInt8) : FlashM (Prog × List UInt8) :=
  if req.length < 11 then
    pure (p, negative 0x34 nrcIncorrectLength)
  else if !p.inProgrammingSession || p.writeLocked cfg then
    pure (p, negative 0x34 nrcSecurityAccessDenied)
  else if !p.erased then
    pure (p, negative 0x34 nrcRequestSequenceError)
  else do
    match ← read (u32 (cfg.appBase + 32)) 4 with
    | none => pure (p, negative 0x34 nrcGeneralProgrammingFailure)
    | some mark =>
      if mark = markBytes then
        pure (p, negative 0x34 nrcConditionsNotCorrect)
      else if req.getD 1 0 ≠ 0x00 ∨ req.getD 2 0 ≠ 0x44 then
        pure (p, negative 0x34 nrcRequestOutOfRange)
      else
        let addr := reqWord req 3
        let size := reqWord req 7
        if !regionOk cfg addr size || addr % progWord != 0 then
          pure (p, negative 0x34 nrcRequestOutOfRange)
        else
          pure ({ p with
            downloading := true
            dlAddr := addr
            dlEnd := u32 (addr + size)
            nextBlock := 1
            stageLen := 0 }, [0x74, 0x20, 0x02, 0x02])

/-- The cursor behind a word that was programmed or skipped. -/
def advance (p : Prog) : Prog := { p with dlAddr := u32 (p.dlAddr + progWord), stageLen := 0 }

/-- One byte staged. -/
def stageByte (p : Prog) (b : UInt8) : Prog :=
  { p with stage := p.stage.set p.stageLen b, stageLen := p.stageLen + 1 }

@[simp] theorem advance_stageLen (p : Prog) : p.advance.stageLen = 0 := rfl
@[simp] theorem stageByte_stageLen (p : Prog) (b : UInt8) :
    (p.stageByte b).stageLen = p.stageLen + 1 := rfl
@[simp] theorem stageByte_dlAddr (p : Prog) (b : UInt8) : (p.stageByte b).dlAddr = p.dlAddr := rfl
@[simp] theorem stageByte_dlEnd (p : Prog) (b : UInt8) : (p.stageByte b).dlEnd = p.dlEnd := rfl
@[simp] theorem advance_dlEnd (p : Prog) : p.advance.dlEnd = p.dlEnd := rfl
@[simp] theorem advance_stage (p : Prog) : p.advance.stage = p.stage := rfl
@[simp] theorem stageByte_downloading (p : Prog) (b : UInt8) :
    (p.stageByte b).downloading = p.downloading := rfl
@[simp] theorem advance_downloading (p : Prog) : p.advance.downloading = p.downloading := rfl

/-- Programs the staged word, except the word of the valid mark, which is skipped. -/
def programStage (cfg : Config) (p : Prog) : FlashM (Prog × Bool) :=
  if p.dlAddr = u32 (cfg.appBase + 32) then
    pure (p.advance, true)
  else do
    let ok ← program p.dlAddr p.stage
    if ok then
      pure (p.advance, true)
    else
      pure (p, false)

/-- The loop of `transferData`: each byte is staged, each full word programmed. -/
def stageBytes (cfg : Config) (p : Prog) : List UInt8 → FlashM (Prog × Bool)
  | [] => pure (p, true)
  | b :: bs =>
    if p.stageLen < p.stage.length then
      let p' := p.stageByte b
      if p'.stageLen = progWord then do
        let (p'', ok) ← programStage cfg p'
        if ok then stageBytes cfg p'' bs else pure (p'', false)
      else
        stageBytes cfg p' bs
    else
      FlashM.trap

/-- 0x36: the next block of a download. -/
def transferData (cfg : Config) (p : Prog) (req : List UInt8) : FlashM (Prog × List UInt8) :=
  if !p.downloading then
    pure (p, negative 0x36 nrcRequestSequenceError)
  else if req.length < 2 then
    pure (p, negative 0x36 nrcIncorrectLength)
  else
    let blk := req.getD 1 0
    if blk ≠ p.nextBlock then
      pure (p, negative 0x36 nrcWrongBlockSequence)
    else
      let n := req.length - 2
      if n = 0 ∨ n > maxBlockData then
        pure (p, negative 0x36 nrcIncorrectLength)
      else if p.dlAddr + p.stageLen + n > p.dlEnd then
        pure (p, negative 0x36 nrcRequestOutOfRange)
      else do
        let (p', ok) ← stageBytes cfg p (req.drop 2)
        if ok then
          pure ({ p' with nextBlock := p'.nextBlock + 1 }, [0x76, blk])
        else
          pure (p', negative 0x36 nrcGeneralProgrammingFailure)

/-- The stage with its unused part padded. -/
def padStage (p : Prog) : Prog :=
  { p with stage := p.stage.take p.stageLen ++ List.replicate (progWord - p.stageLen) 0xFF }

/-- 0x37: the staged tail is padded and programmed. -/
def transferExit (cfg : Config) (p : Prog) : FlashM (Prog × List UInt8) :=
  if !p.downloading then
    pure (p, negative 0x37 nrcRequestSequenceError)
  else if p.stageLen > 0 then do
    let (p', ok) ← programStage cfg p.padStage
    if ok then
      pure ({ p' with downloading := false }, [0x77])
    else
      pure (p', negative 0x37 nrcGeneralProgrammingFailure)
  else
    pure ({ p with downloading := false }, [0x77])

/-- 0x11: the reset is pending once this is answered. -/
def ecuReset (p : Prog) (req : List UInt8) : Prog × List UInt8 :=
  if req.length < 2 then
    (p, negative 0x11 nrcIncorrectLength)
  else
    let sub := req.getD 1 0
    ({ p with resetPending := true }, if sub &&& 0x80 ≠ 0 then [] else [0x51, sub &&& 0x7F])

/-! ## The check routine -/

/-- The one pass over the image, 64 bytes a read: the running CRC and the running verifier.
`none` when a read is refused. -/
def walkImage (V : Verifier) (cfg : Config) (signed : Bool) (imageLen off : ℕ) (crc : UInt32)
    (ver : V.State) : FlashM (Option (UInt32 × V.State)) :=
  if off < imageLen then do
    let n := min (imageLen - off) 64
    match ← read (u32 (cfg.appBase + hdrSize.toNat + off)) n with
    | none => pure none
    | some buf =>
      walkImage V cfg signed imageLen (off + n) (crc32Update crc buf)
        (if signed then V.update ver buf else ver)
  else
    pure (some (crc, ver))
  termination_by imageLen - off

/-- The word programmed as the valid mark. -/
def markWord : List UInt8 := markBytes ++ List.replicate 28 0xFF

/-- The signature behind the image; without a key none is read. -/
def readSignature (cfg : Config) (signed : Bool) (imageLen : ℕ) : FlashM (Option (List UInt8)) :=
  if signed then read (u32 (cfg.appBase + hdrSize.toNat + imageLen)) 64 else pure (some [])

/-- Reads header and image back, verifies both, and programs the valid mark on success. -/
def checkAndMark (V : Verifier) (cfg : Config) : FlashM Bool := do
  match ← read cfg.appBase 64 with
  | none => pure false
  | some hdr =>
    let h := parseHeader (Ptr.of hdr)
    let signed := !keyIsZero cfg.imageKey
    let sigSpan := if signed then 64 else 0
    if h.magic ≠ magic ∨ h.hdrVer ≠ hdrVer ∨ h.hdrSize ≠ hdrSize then
      pure false
    else if h.imageLen = 0 ∨ h.imageLen > maxImageLen ∨
        !regionOk cfg cfg.appBase (u32 (hdrSize.toNat + h.imageLen.toNat + sigSpan)) then
      pure false
    else if crc32 ((Ptr.of hdr).slice 0 28) ≠ h.word0Crc then
      pure false
    else
      match ← readSignature cfg signed h.imageLen.toNat with
      | none => pure false
      | some sig =>
        let ver := V.start cfg.imageKey sig
        let ver := if signed then V.update ver (hdr.take 32) else ver
        match ← walkImage V cfg signed h.imageLen.toNat 0 0xFFFFFFFF ver with
        | none => pure false
        | some (crc, ver) =>
          if crc ^^^ 0xFFFFFFFF ≠ h.imageCrc then
            pure false
          else if signed ∧ V.finish ver = false then
            pure false
          else
            program (u32 (cfg.appBase + 32)) markWord

/-! ## Routine work -/

/-- The routine's answer, on its way and kept until it is confirmed. -/
def answerOut (p : Prog) (resp : List UInt8) : Prog × List UInt8 :=
  ({ p with
    work := .answer
    workTries := 0
    workRsp := resp
    workOut := true
    workPush := p.workVia = some Via.net }, resp)

/-- The routine's `responsePending`, on its way. -/
def pendingOut (p : Prog) : Prog × List UInt8 :=
  ({ p with workOut := true, workPush := p.workVia = some Via.net },
    negative 0x31 nrcResponsePending)

/-- Routine work asked over `via` waits on its next step. -/
def workDue (p : Prog) (via : Option Via) : Bool :=
  p.work != .none && p.workVia == via && (p.workReady || p.workResend)

/-- Says the preceding response again, or gives up. -/
def resend (p : Prog) : Prog × List UInt8 :=
  let p := { p with workResend := false, workTries := p.workTries + 1 }
  if p.work = .answer then
    if p.workTries > workResendMax then
      ({ p with work := .none }, [])
    else
      ({ p with workOut := true, workPush := p.workVia = some Via.net }, p.workRsp)
  else if p.workTries > workResendMax then
    p.answerOut (negative 0x31 nrcGeneralProgrammingFailure)
  else
    p.pendingOut

/-- The end of the erase unit that holds the cursor, cut at the end of the region. -/
def nextUnit (cfg : Config) (p : Prog) : ℕ :=
  if cfg.eraseUnit ≠ 0 then
    let b := u32 (cfg.appBase +
      (sub32 p.workAddr cfg.appBase / cfg.eraseUnit + 1) * cfg.eraseUnit)
    if b < p.workEnd then b else p.workEnd
  else
    p.workEnd

/-- The check, in one unit. -/
def checkUnit (V : Verifier) (cfg : Config) (p : Prog) : FlashM (Prog × List UInt8) := do
  let ok ← checkAndMark V cfg
  pure (p.answerOut (routineRsp routineCheck (if ok then 0x00 else 0x01)))

/-- The erase of the unit that holds the cursor. -/
def eraseUnit (cfg : Config) (p : Prog) : FlashM (Prog × List UInt8) := do
  let next := p.nextUnit cfg
  let ok ← erase p.workAddr (sub32 next p.workAddr)
  if !ok then
    pure (p.answerOut (negative 0x31 nrcGeneralProgrammingFailure))
  else
    let p := { p with workAddr := next }
    if next < p.workEnd then
      pure p.pendingOut
    else
      pure ({ p with erased := true }.answerOut (routineRsp routineErase 0x00))

/-- The next unit of the routine in progress, and the response that follows it. -/
def step (V : Verifier) (cfg : Config) (p : Prog) (now : ℕ) : FlashM (Prog × List UInt8) :=
  if !p.workDue p.workVia then
    pure (p, [])
  else
    let p := p.stamp now
    if p.workResend then
      pure p.resend
    else
      let p := { p with workReady := false }
      if p.work = .check then p.checkUnit V cfg else p.eraseUnit cfg

/-! ## Requests -/

/-- Boot services first, everything else to `Uds.Server`. A session change de-authenticates. -/
def dispatch (V : Verifier) (cfg : Config) (draw : Draw) (p : Prog) (req : List UInt8) :
    FlashM (Prog × List UInt8) :=
  match req.head? with
  | some 0x10 =>
    let p := { p with
      unlocked := false
      challengeValid := false
      downloading := false
      erased := false }
    let (srv, resp) := p.srv.handle req
    pure ({ p with srv := srv }, resp)
  | some 0x29 => pure (p.authentication V cfg draw req)
  | some 0x31 => pure (p.routineControl cfg req)
  | some 0x34 => p.requestDownload cfg req
  | some 0x36 => p.transferData cfg req
  | some 0x37 => p.transferExit cfg
  | some 0x11 => pure (p.ecuReset req)
  | _ =>
    let (srv, resp) := p.srv.handle req
    pure ({ p with srv := srv }, resp)

/-- The bookkeeping after a dispatched request: a routine just started answers where it was
asked, and the session belongs to the transport that used it. -/
def settle (via : Via) (p : Prog) : Prog :=
  let p := if p.work = .erase ∨ p.work = .check then
    { p with
      workVia := some via
      workOut := true
      workPush := false
      workReady := false
      workResend := false
      workTries := 0 }
    else p
  let p := { p with owner := if p.srv.session = 0x01 then none else some via }
  let p := { p with remoteSpoke := p.owner = some Via.net }
  if p.resetPending then { p with remote := p.remote.asked (via = Via.net) } else p

/-- One request over `via`, refused while the other transport holds the session. -/
def handleVia (V : Verifier) (cfg : Config) (via : Via) (draw : Draw) (p : Prog)
    (req : List UInt8) : FlashM (Prog × List UInt8) :=
  if req = [] ∨ p.resetPending then
    pure (p, [])
  else if p.srv.session ≠ 0x01 ∧ p.owner ≠ none ∧ p.owner ≠ some via then
    pure (p, negative (req.getD 0 0) nrcConditionsNotCorrect)
  else if p.work ≠ .none ∧ p.work ≠ .answer then
    pure (p, negative (req.getD 0 0) nrcBusyRepeat)
  else do
    let (p', resp) ← p.dispatch V cfg draw req
    pure (p'.settle via, resp)

/-- A request from the bus. -/
def handle (V : Verifier) (cfg : Config) (draw : Draw) (p : Prog) (req : List UInt8) :
    FlashM (Prog × List UInt8) := p.handleVia V cfg .bus draw req

/-- A request from the network. A functional one is not served. -/
def serveRemote (V : Verifier) (cfg : Config) (draw : Draw) (functional : Bool) (p : Prog)
    (req : List UInt8) : FlashM (Prog × List UInt8) :=
  let p := { p with remote := p.remote.begin }
  if req = [] ∨ functional ∨ p.resetPending then
    pure (p, [])
  else
    (p.heardVia .net p.clock).handleVia V cfg .net draw req

/-! ## Reports and clocks -/

/-- The routine's response on its way has left. -/
def workLeft (p : Prog) : Prog :=
  if p.workOut then
    let p := { p with workOut := false, workTries := 0 }
    if p.work = .answer then { p with work := .none } else { p with workReady := true }
  else p

/-- The routine's response on its way was lost. -/
def workLost (p : Prog) : Prog :=
  if p.workOut then { p with workOut := false, workResend := true } else p

/-- The answer to the last network request was acknowledged. -/
def remoteSent (p : Prog) : Prog :=
  let p := { p with remote := p.remote.sent }
  if p.workVia = some .net ∧ p.workPush = false then p.workLeft else p

/-- The response the routine pushed over the network was acknowledged. -/
def pushSent (p : Prog) : Prog :=
  if p.workVia = some .net ∧ p.workPush = true then p.workLeft else p

/-- The network connection is gone. -/
def remoteDropped (p : Prog) : Prog :=
  let dropped := p.remote.dropped
  let p := { p with remote := dropped.1, resetPending := p.resetPending && !dropped.2 }
  let p := if p.owner = some .net ∧ p.remoteSpoke then p.endSession else p
  if p.workVia = some .net then { p with work := .none } else p

/-- The boot's network is reachable now. -/
def netUp (p : Prog) (now : ℕ) : Prog :=
  if p.awaitNet then { p with awaitNet := false }.stamp now else p

/-- A pending reset whose answer the bus lost is cancelled, unless the network asked for it. -/
def cancelReset (p : Prog) : Prog :=
  if !p.remote.reset then { p with resetPending := false } else p

/-- Tester silence: the session expires. -/
def tick (cfg : Config) (p : Prog) (now : ℕ) : Prog :=
  let p := { p with clock := now }
  let p := if p.work ≠ .none then p.stamp now else p
  let p := if p.remote.inflight then p.heardVia .net now else p
  let wait := if cfg.netWaitUs ≠ 0 then cfg.netWaitUs else netWaitDefaultUs
  let p := if p.awaitNet ∧ elapsed now p.lastRxUs > wait then { p with awaitNet := false } else p
  if p.srv.session ≠ 0x01 ∧ p.awaitNet = false ∧ p.heard ∧
      elapsed now p.lastRxUs > s3ServerUs then
    p.endSession
  else p

/-- A session handed off by the application over `via`, locked like any entry. -/
def openHandedOff (p : Prog) (now : ℕ) (via : Via) : Prog :=
  { p with
    srv := { p.srv with session := 0x02 }
    owner := some via
    awaitNet := via = Via.net
    remoteSpoke := false
    unlocked := false
    challengeValid := false }.stamp now

/-- A freshly booted programming service. -/
def init (cfg : Config) : Prog := { srv := { session := 0x01, dids := cfg.dids } }

end Prog

/-! ## The machine -/

/-- What happens to a bootloader. A request carries what the random source would do. -/
inductive Event
  | handle (req : List UInt8) (draw : Draw)
  | serveRemote (req : List UInt8) (functional : Bool) (draw : Draw)
  | remoteSent
  | pushSent
  | workLeft
  | workLost
  | remoteDropped
  | netUp (now : ℕ)
  | heard (now : ℕ)
  | tick (now : ℕ)
  | cancelReset
  | step (now : ℕ)
  /-- A reset, with the handoff it finds in the request cell. -/
  | reset (handoff : Option (ℕ × Via))

/-- An event, and what the flash driver does while it is served. -/
structure Input where
  event : Event
  faults : Faults := {}

structure State where
  prog : Prog
  mem : Mem

/-- What one event shows: the reply (empty for none) and how serving it ended, and the calls of
the flash driver. -/
structure Label where
  out : Outcome (List UInt8)
  calls : List Call

/-- The session a reset starts. -/
def boot (cfg : Config) (handoff : Option (ℕ × Via)) : Prog :=
  match handoff with
  | none => Prog.init cfg
  | some (now, via) => (Prog.init cfg).openHandedOff now via

/-- The computation an event runs. -/
def serve (V : Verifier) (cfg : Config) (p : Prog) : Event → FlashM (Prog × List UInt8)
  | .handle req draw => p.handle V cfg draw req
  | .serveRemote req functional draw => p.serveRemote V cfg draw functional req
  | .remoteSent => pure (p.remoteSent, [])
  | .pushSent => pure (p.pushSent, [])
  | .workLeft => pure (p.workLeft, [])
  | .workLost => pure (p.workLost, [])
  | .remoteDropped => pure (p.remoteDropped, [])
  | .netUp now => pure (p.netUp now, [])
  | .heard now => pure (p.heardVia .bus now, [])
  | .tick now => pure (p.tick cfg now, [])
  | .cancelReset => pure (p.cancelReset, [])
  | .step now => p.step V cfg now
  | .reset handoff => pure (boot cfg handoff, [])

/-- One event. A power cut or a run-time error loses the session: the next one starts from a
reset. -/
def step (V : Verifier) (cfg : Config) (s : State) (i : Input) : State × Label :=
  match serve V cfg s.prog i.event ⟨s.mem, i.faults⟩ with
  | ⟨.done (p, resp), w, calls⟩ => (⟨p, w.mem⟩, ⟨.done resp, calls⟩)
  | ⟨.cut, w, calls⟩ => (⟨boot cfg none, w.mem⟩, ⟨.cut, calls⟩)
  | ⟨.trap, w, calls⟩ => (⟨boot cfg none, w.mem⟩, ⟨.trap, calls⟩)

/-- A bootloader after a reset, over the flash content `mem`. -/
def start (cfg : Config) (handoff : Option (ℕ × Via)) (mem : Mem) : State :=
  ⟨boot cfg handoff, mem⟩

/-! ## A bench -/

/-- A node without keys: a window of 64 KiB in four erase units. -/
def bench : Config where
  appBase := 0x00020000
  appSize := 0x00010000
  eraseUnit := 0x4000
  imageKey := List.replicate 32 0
  sessionKey := List.replicate 32 0
  rng := false
  netWaitUs := 0
  dids := []
  window := by decide

/-- A verifier that accepts nothing. -/
def rejecting : Verifier := ⟨Unit, fun _ _ => (), fun _ _ => (), fun _ => false⟩

/-- A request on the bus, served by a driver that obeys `faults`. -/
def ask (req : List UInt8) (faults : Faults := {}) : Input := ⟨.handle req {}, faults⟩

/-- The routine's last response leaves, and its next unit is done. -/
def nextStep : List Input := [⟨.workLeft, {}⟩, ⟨.step 0, {}⟩]

/-- Programming session, erase of the first 16 KiB, one step. -/
def eraseFirst : List Input :=
  [ask [0x10, 0x02],
    ask [0x31, 0x01, 0xFF, 0x00, 0x00, 0x02, 0x00, 0x00, 0x00, 0x00, 0x40, 0x00]] ++ nextStep

/-- Download of the first 64 bytes. -/
def downloadFirst : Input :=
  ask [0x34, 0x00, 0x44, 0x00, 0x02, 0x00, 0x00, 0x00, 0x00, 0x00, 0x40]

end BloblyEmb.Boot
