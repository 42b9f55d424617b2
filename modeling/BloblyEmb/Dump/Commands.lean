import BloblyEmb.Dump.Capture
import BloblyEmb.Isotp.Receive

/-!
# Commands that reach two rings

The owner of a trace serves the commands of the host for its own ring and for the satellite's
(`comm/trace/multicore.v`). Some are refused, and a refusal is to leave both rings as they were.
-/
namespace BloblyEmb.Dump

open Multicore (FreezeSync genMod genAfter)

/-! ## The commands and their answers -/

def opArm : UInt8 := 1
def opStart : UInt8 := 2
def opStop : UInt8 := 3
def opReset : UInt8 := 4
def opSetPush : UInt8 := 5
def opDump : UInt8 := 6
def opStatus : UInt8 := 7

def resultOk : UInt8 := 0
def resultBadOpcode : UInt8 := 1
def resultUnsupported : UInt8 := 2
def resultNotReady : UInt8 := 3
def resultBusy : UInt8 := 4

structure Cmd where
  opcode : UInt8
  arg0 : UInt8
  periodMs : UInt16
  handlerFilter : UInt16
  coreMask : UInt16
deriving DecidableEq

/-- A mask of zero is core 0. -/
def Cmd.targets (c : Cmd) (core : UInt8) : Bool :=
  let m := if c.coreMask = 0 then 1 else c.coreMask
  decide (core < 16) && decide (m &&& ((1 : UInt16) <<< core.toUInt16) ≠ 0)

def Cmd.rearms (c : Cmd) : Bool := c.opcode = opArm || c.opcode = opStart || c.opcode = opReset

structure Rsp where
  opcodeEcho : UInt8
  result : UInt8
  state : UInt8
  cause : UInt8
  recordsUsed : UInt16
  capacity : UInt16
  core : UInt8

def decodeCmd (b : ℕ → UInt8) : Cmd where
  opcode := b 0
  arg0 := b 1
  periodMs := (b 2).toUInt16 ||| ((b 3).toUInt16 <<< 8)
  handlerFilter := (b 4).toUInt16 ||| ((b 5).toUInt16 <<< 8)
  coreMask := (b 6).toUInt16 ||| ((b 7).toUInt16 <<< 8)

def encodeRsp (r : Rsp) : List UInt8 :=
  [r.opcodeEcho, r.result, (r.state &&& (0x0f : UInt8)) ||| (r.cause <<< (4 : UInt8)), r.recordsUsed.toUInt8,
    (r.recordsUsed >>> 8).toUInt8, r.capacity.toUInt8, (r.capacity >>> 8).toUInt8, r.core]

def stateCode : Multicore.State → UInt8
  | .idle => 0
  | .capturing => 1
  | .full => 2
  | .frozen => 3

def freezeNone : UInt8 := 0

def causeCode : Multicore.Cause → UInt8
  | .none => freezeNone
  | .stop => 1
  | .trigger => 2
  | .full => 3

def TraceBuffer.rsp (t : TraceBuffer) (opcode result core : UInt8) : Rsp where
  opcodeEcho := opcode
  result := result
  state := stateCode t.ring.state
  cause := causeCode t.ring.froze
  recordsUsed := UInt16.ofNat t.ring.used
  capacity := UInt16.ofNat t.ring.cap
  core := core

def statusRsp (t : TraceBuffer) (opcode result core : UInt8) : List UInt8 :=
  encodeRsp (t.rsp opcode result core)

def TraceBuffer.stop (t : TraceBuffer) : TraceBuffer := { t with ring := t.ring.stop }

/-- A window that may be read. -/
def TraceBuffer.stopped (t : TraceBuffer) : Bool := t.ring.state = .full || t.ring.state = .frozen

/-- The ring after a command that is for it, the result, and whether a dump was granted. -/
def TraceBuffer.serve (t : TraceBuffer) (c : Cmd) : TraceBuffer × UInt8 × Bool :=
  if c.rearms then (t.start, resultOk, false)
  else if c.opcode = opStop then (t.stop, resultOk, false)
  else if c.opcode = opDump then
    if t.stopped then (t, resultOk, true) else (t, resultNotReady, false)
  else if c.opcode = opSetPush then (t, resultUnsupported, false)
  else if c.opcode = opStatus then (t, resultOk, false)
  else (t, resultBadOpcode, false)

/-- The ring after a command, the answer, whether a dump was granted, and whether the core was
addressed. -/
def handleCmd (t : TraceBuffer) (c : Cmd) (core : UInt8) :
    TraceBuffer × List UInt8 × Bool × Bool :=
  if c.targets core = false then (t, List.replicate 8 0, false, false)
  else
    let (t, result, doDump) := t.serve c
    (t, statusRsp t c.opcode result core, doDump, true)

/-! ## The module -/

/-- What a bus endpoint hands in. -/
structure CmdFrame where
  len : ℕ
  data : ℕ → UInt8

structure TraceModule where
  core : UInt8
  useIsotp : Bool
  buf : TraceBuffer
  link : Isotp.Link
  rsp : List UInt8 := List.replicate 8 0
  rspDue : Bool := false
  /-- A raw dump under way, and its next record. -/
  dumping : Bool := false
  dumpPos : ℕ := 0
  /-- The window of another core, imported. -/
  remote : TraceBuffer
  remoteCore : UInt8 := 0
  freeze : Option FreezeSync := none
  freezeGen : ℕ := 0
  remoteDue : Bool := false
  remoteFrom : ℕ := 0
  remoteOffsetUs : UInt32 := 0
  remoteBoundUs : UInt16 := 0
  remoteOffsetKnown : Bool := false
  localDue : Bool := false
  localFrom : ℕ := 0

def newCoreOffset (offsetUs : UInt32) (boundUs : UInt16) : Record :=
  { entityId := entity kindControl ctlCoreoffset, cpuUs := boundUs, tsinfo := offsetUs }

namespace TraceModule

def isDumping (m : TraceModule) : Bool := m.dumping || m.localDue || m.remoteDue || m.link.busy

def queueRsp (m : TraceModule) (b : List UInt8) : TraceModule :=
  if m.rspDue then m else { m with rsp := b, rspDue := true }

/-- The answer of a command on the owner's ring goes out before any other. -/
def onCmd (m : TraceModule) (f : CmdFrame) : TraceModule × Option (List UInt8) :=
  if f.len < 8 then (m, none)
  else
    let (buf, rsp, doDump, has) := handleCmd m.buf (decodeCmd f.data) m.core
    let m := { m with buf := buf }
    let busy := doDump && m.useIsotp && m.link.busy
    let rsp := if busy then rsp.set 1 resultBusy else rsp
    let m := if has then { m with rsp := rsp, rspDue := true } else m
    let answer := if has then some rsp else none
    if busy ∨ doDump = false then (m, answer)
    else if m.useIsotp then ({ m with localDue := true, localFrom := 0 }, answer)
    else ({ m with dumping := true, dumpPos := 0 }, answer)

def bump (m : TraceModule) (restartSat : Bool) (clock : UInt32) : TraceModule :=
  match m.freeze with
  | none => m
  | some fs =>
    let gen := (m.freezeGen + 1) % genMod
    { m with
      freezeGen := gen
      freeze := some
        { fs with
          since := Function.update fs.since (gen % 2) clock
          rearm := if restartSat then gen else fs.rearm
          word := gen
          raised := none } }

def satRestartPending (m : TraceModule) : Bool :=
  match m.freeze with
  | none => false
  | some fs => genAfter fs.rearm fs.ack

def setRemote (m : TraceModule) (core : UInt8) (capacity : ℕ) : TraceModule :=
  { m with remote := World.newBuffer capacity .oneshot 0, remoteCore := core }

/-- The window of a satellite, as the import stages it in a buffer. -/
def imported (m : TraceModule) (sat : TraceBuffer) : TraceBuffer :=
  let t := { m.remote.start with hasPrefix := sat.hasPrefix, prefixBase := sat.prefixBase }
  let t := if m.remoteOffsetKnown then t.push (newCoreOffset m.remoteOffsetUs m.remoteBoundUs)
    else t
  (sat.window.foldl TraceBuffer.push t).stop

def loadRemoteBuffer (m : TraceModule) (sat : TraceBuffer) : TraceModule :=
  { m with remote := m.imported sat, remoteDue := true, remoteFrom := 0 }

def satRsp (m : TraceModule) (sat : TraceBuffer) (opcode result satCore : UInt8) : List UInt8 :=
  if m.satRestartPending = false then statusRsp sat opcode result satCore
  else encodeRsp
    { opcodeEcho := opcode, result := result, state := stateCode .capturing, cause := freezeNone
      recordsUsed := 0, capacity := UInt16.ofNat sat.ring.cap, core := satCore }

end TraceModule

/-- What a command leaves behind, whether a window was imported, and the answer made, of which one
that is made while another waits never goes out. -/
structure Outcome where
  m : TraceModule
  sat : TraceBuffer
  imported : Bool
  answer : Option (List UInt8)

/-- The satellite and its core, and the room for its window. -/
structure Satellite where
  core : UInt8
  remoteCap : ℕ

namespace TraceModule

/-- What the satellite's ring gets of a command. -/
def serveSat (m : TraceModule) (c : Cmd) (sat : TraceBuffer) (s : Satellite) :
    TraceModule × TraceBuffer × Bool :=
  if c.targets s.core = false then (m, sat, false)
  else if c.rearms then (m, if m.freeze.isNone then sat.start else sat, false)
  else if c.opcode = opStop then (m, sat.stop, false)
  else if c.opcode = opDump ∧ sat.stopped = true ∧ 0 < sat.ring.used then
    ((m.setRemote s.core s.remoteCap).loadRemoteBuffer sat, sat, true)
  else (m, sat, false)

/-- A core whose ring still runs, so that no dump of it is served. -/
def blocked (m : TraceModule) (c : Cmd) (sat : TraceBuffer) (s : Satellite) :
    Option (List UInt8) :=
  if c.targets s.core && decide (sat.ring.state = .capturing) then
    some (statusRsp sat c.opcode resultNotReady s.core)
  else if c.targets m.core && decide (m.buf.ring.state = .capturing) then
    some (statusRsp m.buf c.opcode resultNotReady m.core)
  else none

/-- Nothing but an answer. -/
def refuse (m : TraceModule) (sat : TraceBuffer) (b : List UInt8) : Outcome :=
  { m := m.queueRsp b, sat := sat, imported := false, answer := some b }

/-- Both halves of a command that nothing stands against. -/
def serveBoth (m : TraceModule) (f : CmdFrame) (c : Cmd) (sat : TraceBuffer) (s : Satellite) :
    Outcome :=
  let (m, sat, imported) := m.serveSat c sat s
  let (m, answer) := m.onCmd f
  if c.targets s.core && !c.targets m.core then
    let b := m.satRsp sat c.opcode resultOk s.core
    { m := m.queueRsp b, sat := sat, imported := imported, answer := some b }
  else { m := m, sat := sat, imported := imported, answer := answer }

def onCmdMulticore (m : TraceModule) (f : CmdFrame) (sat : TraceBuffer) (s : Satellite)
    (clock : UInt32) : Outcome :=
  if f.len < 8 then { m := m, sat := sat, imported := false, answer := none }
  else
    let c := decodeCmd f.data
    let rearms := c.rearms && (c.targets m.core || c.targets s.core)
    if c.targets s.core ∧ (c.opcode = opStop ∨ c.opcode = opDump) ∧ m.satRestartPending then
      m.refuse sat (m.satRsp sat c.opcode resultBusy s.core)
    else
      let m := if rearms then m.bump (c.targets s.core) clock else m
      if c.opcode = opDump ∧ m.isDumping then
        if c.targets m.core then m.refuse sat (statusRsp m.buf c.opcode resultBusy m.core)
        else if c.targets s.core then m.refuse sat (statusRsp sat c.opcode resultBusy s.core)
        else { m := m, sat := sat, imported := false, answer := none }
      else
        match if c.opcode = opDump then m.blocked c sat s else none with
        | some b => m.refuse sat b
        | none => m.serveBoth f c sat s

end TraceModule

/-! ## Refusals -/

/-- The command was answered with busy or not ready. -/
def Outcome.Refused (o : Outcome) : Prop :=
  ∃ b, o.answer = some b ∧ (b.getD 1 0 = resultBusy ∨ b.getD 1 0 = resultNotReady)

namespace TraceModule

variable (m : TraceModule) (f : CmdFrame) (sat : TraceBuffer) (s : Satellite) (clock : UInt32)

/-- A dump of both rings finds the owner's idle and a window in the satellite's. -/
structure Imports : Prop where
  long : 8 ≤ f.len
  dump : (decodeCmd f.data).opcode = opDump
  both : (decodeCmd f.data).targets m.core = true ∧ (decodeCmd f.data).targets s.core = true
  adopted : m.satRestartPending = false
  still : m.isDumping = false
  idle : m.buf.ring.state = .idle
  window : sat.stopped = true ∧ 0 < sat.ring.used

/-- All but the answer that waits is as before. -/
def Kept (m' : TraceModule) : Prop := m' = { m with rsp := m'.rsp, rspDue := m'.rspDue }

theorem kept_queueRsp (b : List UInt8) : m.Kept (m.queueRsp b) := by
  unfold queueRsp Kept
  split <;> rfl

theorem result_statusRsp (t : TraceBuffer) (opcode result core : UInt8) :
    (statusRsp t opcode result core).getD 1 0 = result := rfl

theorem result_satRsp (opcode result satCore : UInt8) :
    (m.satRsp sat opcode result satCore).getD 1 0 = result := by
  unfold satRsp
  split <;> rfl

/-- A result that is not a refusal. -/
def Granted (r : UInt8) : Prop := r ≠ resultBusy ∧ r ≠ resultNotReady

theorem granted_ok : Granted resultOk := ⟨by decide, by decide⟩

theorem granted_unsupported : Granted resultUnsupported := ⟨by decide, by decide⟩

theorem granted_badOpcode : Granted resultBadOpcode := ⟨by decide, by decide⟩

theorem not_granted {r : UInt8} (h : r = resultBusy ∨ r = resultNotReady) : ¬Granted r := by
  rintro ⟨hbusy, hready⟩
  exact h.elim hbusy hready

/-- A ring without a window refuses a dump, and nothing else. -/
theorem serve_cases (t : TraceBuffer) (c : Cmd) :
    (c.opcode = opDump ∧ t.stopped = false ∧ t.serve c = (t, resultNotReady, false)) ∨
      (Granted (t.serve c).2.1 ∧ ((t.serve c).2.2 = true → c.opcode = opDump)) := by
  unfold TraceBuffer.serve
  by_cases hrearms : c.rearms = true
  · rw [if_pos hrearms]
    exact .inr ⟨granted_ok, fun h => by cases h⟩
  rw [if_neg hrearms]
  by_cases hstop : c.opcode = opStop
  · rw [if_pos hstop]
    exact .inr ⟨granted_ok, fun h => by cases h⟩
  rw [if_neg hstop]
  by_cases hdump : c.opcode = opDump
  · rw [if_pos hdump]
    cases hstopped : t.stopped with
    | true => exact .inr ⟨granted_ok, fun _ => hdump⟩
    | false => exact .inl ⟨hdump, rfl, rfl⟩
  rw [if_neg hdump]
  by_cases hpush : c.opcode = opSetPush
  · rw [if_pos hpush]
    exact .inr ⟨granted_unsupported, fun h => by cases h⟩
  rw [if_neg hpush]
  by_cases hstatus : c.opcode = opStatus
  · rw [if_pos hstatus]
    exact .inr ⟨granted_ok, fun h => by cases h⟩
  rw [if_neg hstatus]
  exact .inr ⟨granted_badOpcode, fun h => by cases h⟩

variable {m f sat s clock}

/-- While no transfer is under way, the owner's half refuses only a dump of a ring without a window,
and that keeps the ring. -/
theorem onCmd_refuses {b : List UInt8}
    (hfree : (decodeCmd f.data).opcode = opDump → m.link.busy = false)
    (hb : (m.onCmd f).2 = some b) (href : ¬Granted (b.getD 1 0)) :
    (decodeCmd f.data).opcode = opDump ∧ (decodeCmd f.data).targets m.core = true ∧
      m.buf.stopped = false ∧ m.Kept (m.onCmd f).1 := by
  unfold onCmd at hb ⊢
  by_cases hlen : f.len < 8
  · simp [hlen] at hb
  rw [if_neg hlen] at hb ⊢
  cases htargets : (decodeCmd f.data).targets m.core with
  | false => simp [handleCmd, htargets] at hb
  | true =>
    rcases serve_cases m.buf (decodeCmd f.data) with ⟨hdump, hstopped, hserve⟩ | ⟨hgranted, hdo⟩
    · refine ⟨hdump, rfl, hstopped, ?_⟩
      rw [handleCmd, if_neg (by rw [htargets]; decide), hserve]
      rfl
    · have hbusy : ((m.buf.serve (decodeCmd f.data)).2.2 && m.useIsotp && m.link.busy) = false := by
        cases hdump : (m.buf.serve (decodeCmd f.data)).2.2 with
        | false => rfl
        | true => rw [hfree (hdo hdump), Bool.and_false]
      have hanswer : b = statusRsp (m.buf.serve (decodeCmd f.data)).1 (decodeCmd f.data).opcode
          (m.buf.serve (decodeCmd f.data)).2.1 m.core := by
        rw [handleCmd, if_neg (by rw [htargets]; decide)] at hb
        simp only [hbusy, Bool.false_eq_true, if_false, if_true, false_or] at hb
        split at hb
        · exact (Option.some.inj hb).symm
        · split at hb
          · exact (Option.some.inj hb).symm
          · exact (Option.some.inj hb).symm
      rw [hanswer, result_statusRsp] at href
      exact absurd hgranted href

/-- Where a dump finds a window in the satellite's ring, it is imported; what else a command does to
the satellite leaves the module. -/
theorem serveSat_cases (c : Cmd) (hdump : c.opcode = opDump) :
    ((c.targets s.core = true ∧ sat.stopped = true ∧ 0 < sat.ring.used) ∧
        m.serveSat c sat s = ((m.setRemote s.core s.remoteCap).loadRemoteBuffer sat, sat, true)) ∨
      (¬(c.targets s.core = true ∧ sat.stopped = true ∧ 0 < sat.ring.used) ∧
        m.serveSat c sat s = (m, sat, false)) := by
  have hrearms : ¬c.rearms = true := by
    rw [Cmd.rearms, hdump]
    decide
  have hstop : ¬c.opcode = opStop := by
    rw [hdump]
    decide
  unfold serveSat
  cases htargets : c.targets s.core with
  | false =>
    right
    simp
  | true =>
    rw [if_neg (by decide), if_neg hrearms, if_neg hstop]
    by_cases hwindow : sat.stopped = true ∧ 0 < sat.ring.used
    · exact .inl ⟨⟨rfl, hwindow⟩, if_pos ⟨hdump, hwindow⟩⟩
    · exact .inr ⟨fun h => hwindow h.2, if_neg fun h => hwindow h.2⟩

theorem serveSat_owner (c : Cmd) : (m.serveSat c sat s).1.buf = m.buf ∧
    (m.serveSat c sat s).1.core = m.core ∧ (m.serveSat c sat s).1.link = m.link := by
  unfold serveSat
  split
  · exact ⟨rfl, rfl, rfl⟩
  split
  · exact ⟨rfl, rfl, rfl⟩
  split
  · exact ⟨rfl, rfl, rfl⟩
  split
  · exact ⟨rfl, rfl, rfl⟩
  · exact ⟨rfl, rfl, rfl⟩

/-- A command that is served is refused only by the owner's half, as a dump without a window. -/
theorem serveBoth_refused
    (hfree : (decodeCmd f.data).opcode = opDump → m.link.busy = false)
    (href : (m.serveBoth f (decodeCmd f.data) sat s).Refused) :
    (decodeCmd f.data).opcode = opDump ∧ (decodeCmd f.data).targets m.core = true ∧
      m.buf.stopped = false ∧
      (m.serveBoth f (decodeCmd f.data) sat s).sat = (m.serveSat (decodeCmd f.data) sat s).2.1 ∧
      (m.serveSat (decodeCmd f.data) sat s).1.Kept
        (m.serveBoth f (decodeCmd f.data) sat s).m := by
  obtain ⟨hbuf, hcore, hlink⟩ := @serveSat_owner m sat s (decodeCmd f.data)
  obtain ⟨b, hb, hcode⟩ := href
  unfold serveBoth at hb ⊢
  by_cases hsat : ((decodeCmd f.data).targets s.core &&
      !(decodeCmd f.data).targets ((m.serveSat (decodeCmd f.data) sat s).1.onCmd f).1.core) = true
  · exfalso
    simp only [hsat, if_true, Option.some.injEq] at hb
    rw [← hb, result_satRsp] at hcode
    exact not_granted hcode granted_ok
  · rw [Bool.not_eq_true] at hsat
    simp only [hsat, Bool.false_eq_true, if_false] at hb ⊢
    obtain ⟨hdump, htargets, hstopped, hkept⟩ := onCmd_refuses
      (fun h => hlink ▸ hfree h) hb (not_granted hcode)
    exact ⟨hdump, hcore ▸ htargets, hbuf ▸ hstopped, True.intro, hkept⟩

theorem dump_not_rearms {c : Cmd} (h : c.opcode = opDump) : c.rearms = false := by
  rw [Cmd.rearms, h]
  decide

theorem link_of_isDumping (h : m.isDumping = false) : m.link.busy = false := by
  rw [isDumping, Bool.or_eq_false_iff] at h
  exact h.2

theorem idle_of_open (hblocked : m.blocked (decodeCmd f.data) sat s = none)
    (htargets : (decodeCmd f.data).targets m.core = true) (hstopped : m.buf.stopped = false) :
    m.buf.ring.state = .idle := by
  have hcapturing : m.buf.ring.state ≠ .capturing := by
    intro h
    rw [blocked, htargets, h] at hblocked
    simp only [decide_true, Bool.and_true, if_true] at hblocked
    split at hblocked <;> cases hblocked
  rw [TraceBuffer.stopped, Bool.or_eq_false_iff, decide_eq_false_iff_not,
    decide_eq_false_iff_not] at hstopped
  cases hstate : m.buf.ring.state with
  | idle => rfl
  | capturing => exact absurd hstate hcapturing
  | full => exact absurd hstate hstopped.1
  | frozen => exact absurd hstate hstopped.2

/-- What a refused command may leave behind. -/
def Leaves (m : TraceModule) (f : CmdFrame) (sat : TraceBuffer) (s : Satellite) (o : Outcome) :
    Prop :=
  o.sat = sat ∧ (¬m.Imports f sat s → m.Kept o.m) ∧
    (m.Imports f sat s → Kept
      { m with
        remote := (m.setRemote s.core s.remoteCap).imported sat
        remoteCore := s.core
        remoteDue := true
        remoteFrom := 0 } o.m)

theorem leaves_refuse (b : List UInt8) (h : ¬m.Imports f sat s) :
    m.Leaves f sat s (m.refuse sat b) :=
  ⟨rfl, fun _ => m.kept_queueRsp b, fun himports => absurd himports h⟩

theorem leaves_dump (hlen : ¬f.len < 8) (hdump : (decodeCmd f.data).opcode = opDump)
    (hadopted : (decodeCmd f.data).targets s.core = true → m.satRestartPending = false)
    (hstill : m.isDumping = false) (hblocked : m.blocked (decodeCmd f.data) sat s = none)
    (href : (m.serveBoth f (decodeCmd f.data) sat s).Refused) :
    m.Leaves f sat s (m.serveBoth f (decodeCmd f.data) sat s) := by
  obtain ⟨-, htargets, hstopped, hsat, hkept⟩ :=
    serveBoth_refused (fun _ => link_of_isDumping hstill) href
  rcases @serveSat_cases m sat s _ hdump with ⟨hwindow, hserve⟩ | ⟨hno, hserve⟩
  · rw [hserve] at hsat hkept
    have himports : m.Imports f sat s :=
      { long := Nat.le_of_not_lt hlen
        dump := hdump
        both := ⟨htargets, hwindow.1⟩
        adopted := hadopted hwindow.1
        still := hstill
        idle := idle_of_open hblocked htargets hstopped
        window := hwindow.2 }
    exact ⟨hsat, fun hno => absurd himports hno, fun _ => hkept⟩
  · rw [hserve] at hsat hkept
    exact ⟨hsat, fun _ => hkept, fun himports => absurd ⟨himports.both.2, himports.window⟩ hno⟩

/-- A command that was answered with busy or not ready has changed nothing but the answer that waits,
unless it was a dump of both rings that found the owner's idle: then it imported the satellite's
window, which streams from its start. -/
theorem onCmdMulticore_refused (m : TraceModule) (f : CmdFrame) (sat : TraceBuffer) (s : Satellite)
    (clock : UInt32) (href : (m.onCmdMulticore f sat s clock).Refused) :
    m.Leaves f sat s (m.onCmdMulticore f sat s clock) := by
  unfold onCmdMulticore at href ⊢
  by_cases hlen : f.len < 8
  · obtain ⟨b, hb, -⟩ := href
    simp [hlen] at hb
  rw [if_neg hlen] at href ⊢
  by_cases hpending : (decodeCmd f.data).targets s.core = true ∧
      ((decodeCmd f.data).opcode = opStop ∨ (decodeCmd f.data).opcode = opDump) ∧
      m.satRestartPending = true
  · simp only [if_pos hpending]
    apply leaves_refuse
    intro himports
    rw [himports.adopted] at hpending
    exact absurd hpending.2.2 (by decide)
  simp only [if_neg hpending] at href ⊢
  by_cases hdump : (decodeCmd f.data).opcode = opDump
  · simp only [dump_not_rearms hdump, Bool.false_and, Bool.false_eq_true, if_false, hdump, true_and,
      if_true] at href ⊢
    by_cases hstill : m.isDumping = true
    · have hno : ¬m.Imports f sat s := fun h => by simp [h.still] at hstill
      simp only [if_pos hstill] at href ⊢
      by_cases hown : (decodeCmd f.data).targets m.core = true
      · simp only [if_pos hown]
        exact leaves_refuse _ hno
      simp only [if_neg hown] at href ⊢
      by_cases hsat : (decodeCmd f.data).targets s.core = true
      · simp only [if_pos hsat]
        exact leaves_refuse _ hno
      · simp only [if_neg hsat] at href
        obtain ⟨b, hb, -⟩ := href
        cases hb
    · simp only [if_neg hstill] at href ⊢
      cases hblocked : m.blocked (decodeCmd f.data) sat s with
      | some b =>
        apply leaves_refuse
        intro himports
        have hsatRuns : sat.ring.state ≠ .capturing := by
          intro h
          have hwindow := himports.window.1
          rw [TraceBuffer.stopped, h] at hwindow
          cases hwindow
        simp [blocked, himports.idle, hsatRuns] at hblocked
      | none =>
        rw [hblocked] at href
        refine leaves_dump hlen hdump (fun htargets => ?_) (Bool.not_eq_true _ ▸ hstill) hblocked href
        rw [← Bool.not_eq_true]
        exact fun h => hpending ⟨htargets, .inr hdump, h⟩
  · simp only [hdump, false_and, if_false] at href ⊢
    exact absurd (serveBoth_refused (fun h => absurd h hdump) href).1 hdump

/-- An owner as it boots, with a ring of four records. -/
def booted : TraceModule where
  core := 0
  useIsotp := true
  buf := World.newBuffer 4 .ring 0
  link := Isotp.fresh 0 0 10 1000000 1000000
  remote := World.newBuffer 0 .oneshot 0

/-- A satellite that was stopped after one record. -/
def stoppedSat : TraceBuffer := ((World.newBuffer 4 .ring 0).start.push {}).stop

/-- The host's dump of cores 0 and 1. -/
def dumpBoth : CmdFrame where
  len := 8
  data := Function.update (Function.update (fun _ => 0) 0 opDump) 6 3

/-- While the owner records, a dump of both leaves both. -/
theorem onCmdMulticore_refused_capturing :
    ({ booted with buf := booted.buf.start }.onCmdMulticore dumpBoth stoppedSat ⟨1, 4⟩ 0).Refused ∧
      { booted with buf := booted.buf.start }.Leaves dumpBoth stoppedSat ⟨1, 4⟩
        ({ booted with buf := booted.buf.start }.onCmdMulticore dumpBoth stoppedSat ⟨1, 4⟩ 0) :=
  have href : ({ booted with buf := booted.buf.start }.onCmdMulticore dumpBoth stoppedSat
      ⟨1, 4⟩ 0).Refused := ⟨_, rfl, .inr rfl⟩
  ⟨href, onCmdMulticore_refused _ _ _ _ _ href⟩

/-- An idle owner answers that it is not ready, and the satellite's window is on its way. -/
theorem idle_owner_imports :
    (booted.onCmdMulticore dumpBoth stoppedSat ⟨1, 4⟩ 0).Refused ∧
      booted.remoteDue = false ∧ booted.remote.ring.used = 0 ∧
      (booted.onCmdMulticore dumpBoth stoppedSat ⟨1, 4⟩ 0).m.remoteDue = true ∧
      (booted.onCmdMulticore dumpBoth stoppedSat ⟨1, 4⟩ 0).m.remote.ring.used = 1 :=
  ⟨⟨_, rfl, .inr rfl⟩, rfl, rfl, rfl, rfl⟩

end TraceModule

end BloblyEmb.Dump
