import BloblyEmb.Lib.Buffer

/-!
# The transport link

ISO-TP segmentation and reassembly (`comm/isotp`). A link works on frames of eight bytes: it
reassembles messages from received frames, and segments a message that it sends. Its owner feeds it
frames, polls it for the next frame to send, advances its time and takes the messages.
-/
namespace BloblyEmb.Isotp
open Buffer

/-- The longest message. -/
def maxPayload : ℕ := 520

/-- The bytes of one frame. -/
abbrev Pdu := Fin 8 → UInt8

inductive RxPhase where
  | idle
  | receiving
deriving DecidableEq

inductive TxPhase where
  | idle
  | sendSf
  | sendFf
  | waitFc
  | sendCf
deriving DecidableEq

structure Link where
  bs : UInt8
  stmin : UInt8
  nBsUs : UInt64
  wftMax : UInt8
  txAborts : UInt32
  progress : UInt32
  nCrUs : UInt64
  rx : RxPhase
  rxBuf : ℕ → UInt8
  rxLen : ℕ
  rxPos : ℕ
  rxSn : UInt8
  /-- Consecutive frames since the last flow control. -/
  rxCount : UInt8
  fcSend : Bool
  fcOvflw : Bool
  ready : Bool
  readyLen : ℕ
  tx : TxPhase
  txBuf : ℕ → UInt8
  txLen : ℕ
  txPos : ℕ
  txSn : UInt8
  peerBs : UInt8
  peerStmin : UInt64
  blockLeft : UInt8
  nextUs : UInt64
  fcDeadline : UInt64
  rxDeadline : UInt64
  wftCount : UInt8

/-- The STmin byte of a flow control, in microseconds. -/
def decodeStmin (b : UInt8) : UInt64 :=
  if b ≤ 0x7F then b.toUInt64 * 1000
  else if 0xF1 ≤ b ∧ b ≤ 0xF9 then (b - 0xF0).toUInt64 * 100
  else 127000

namespace Pdu

/-- `n` bytes of a frame from byte `at'` on. -/
def bytes (p : Pdu) (at' n : ℕ) : List UInt8 := ((List.finRange 8).map p).drop at' |>.take n

/-- The frame's type and the rest of its first byte. -/
def pci (p : Pdu) : UInt8 := p 0 &&& 0xF0
def low (p : Pdu) : UInt8 := p 0 &&& 0x0F

/-- The length a first frame announces. -/
def total (p : Pdu) : ℕ := p.low.toNat * 256 + (p 1).toNat

end Pdu

/-- A frame of `head` and what follows, filled up with zeros. -/
def pdu (bytes : List UInt8) : Pdu := fun i => bytes.getD i 0

namespace Link

/-- Starts a message, unless one is in flight or the length is none. -/
def send (l : Link) (src : List UInt8) : Bool × Link :=
  if l.tx ≠ .idle ∨ src.length = 0 ∨ maxPayload < src.length then (false, l)
  else
    (true, { l with
      txBuf := store l.txBuf 0 src, txLen := src.length, txPos := 0, txSn := 1, wftCount := 0,
      tx := if src.length ≤ 7 then .sendSf else .sendFf })

def busy (l : Link) : Bool := l.tx ≠ .idle

def abortTx (l : Link) : Link := { l with tx := .idle }

/-- The link abandons its transmission. -/
def giveUpTx (l : Link) : Link := { l with tx := .idle, txAborts := l.txAborts + 1 }

def abortRx (l : Link) : Link :=
  { l with rx := .idle, fcSend := false, fcOvflw := false, ready := false }

/-- Nothing is in flight in either direction. -/
def idle (l : Link) : Bool :=
  l.tx = .idle && l.rx ≠ .receiving && !l.fcSend && !l.fcOvflw && !l.ready

def hasRequest (l : Link) : Bool := l.ready

/-- The completed message, if there is one. -/
def take (l : Link) : Option (List UInt8) × Link :=
  if ¬l.ready then (none, l)
  else (some (prefixOf l.rxBuf l.readyLen), { l with ready := false })

/-- A received frame of `n` bytes is too short for what its first byte says. -/
def truncated (l : Link) (pci : UInt8) (n : ℕ) : Bool :=
  let left := l.rxLen - l.rxPos
  if pci >>> 4 = 0 then decide (n ≤ (pci &&& 0x0F).toNat)
  else if pci >>> 4 = 1 then decide (n < 8)
  else if pci >>> 4 = 2 then decide (n < 8 ∧ n < left + 1)
  else if pci >>> 4 = 3 then decide (n < 3)
  else false

/-! ## Received frames -/

/-- A single frame. -/
def onSingle (l : Link) (p : Pdu) : Link :=
  let n := p.low.toNat
  if 0 < n ∧ n ≤ 7 then
    { l with
      rxBuf := store l.rxBuf 0 (p.bytes 1 n), ready := true, readyLen := n, rx := .idle,
      fcSend := false, fcOvflw := false, progress := l.progress + 1 }
  else l

/-- A first frame: a reception begins, or is refused for its length. -/
def onFirst (l : Link) (p : Pdu) : Link :=
  let total := p.total
  if 7 < total ∧ total ≤ maxPayload then
    { l with
      fcOvflw := false, rxBuf := store l.rxBuf 0 (p.bytes 2 6), rxLen := total, rxPos := 6,
      rxSn := 1, rxCount := 0, rx := .receiving, rxDeadline := 0, fcSend := true,
      -- a first frame that is repeated moves nothing
      progress := if l.rx ≠ .receiving then l.progress + 1 else l.progress }
  else if total = 0 ∨ maxPayload < total then
    { l with rx := .idle, fcSend := false, fcOvflw := true }
  else l

/-- The gap before a consecutive frame was too long. -/
def crExpired (l : Link) (now : UInt64) : Prop :=
  l.rx = .receiving ∧ l.nCrUs ≠ 0 ∧ l.rxDeadline ≠ 0 ∧ l.rxDeadline ≤ now

instance (l : Link) (now : UInt64) : Decidable (l.crExpired now) :=
  inferInstanceAs (Decidable (_ ∧ _))

/-- A consecutive frame in sequence. -/
def inSequence (l : Link) (now : UInt64) (p : Pdu) : Link :=
  let n := min (l.rxLen - l.rxPos) 7
  let l := { l with
    rxDeadline := now + l.nCrUs, rxBuf := store l.rxBuf l.rxPos (p.bytes 1 n), rxPos := l.rxPos + n,
    rxSn := (l.rxSn + 1) &&& 0x0F, rxCount := l.rxCount + 1,
    progress := if ¬l.fcSend then l.progress + 1 else l.progress }
  if l.rxLen ≤ l.rxPos then { l with ready := true, readyLen := l.rxLen, rx := .idle }
  else if l.bs ≠ 0 ∧ l.bs ≤ l.rxCount then { l with rxCount := 0, rxDeadline := 0, fcSend := true }
  else l

def onConsecutive (l : Link) (now : UInt64) (p : Pdu) : Link :=
  let l := if l.crExpired now then { l with rx := .idle, fcSend := false } else l
  if l.rx = .receiving ∧ p.low = l.rxSn &&& 0x0F then l.inSequence now p
  else if l.rx = .receiving then { l with rx := .idle }
  else l

/-- A flow control, for the message being sent. -/
def onFlow (l : Link) (now : UInt64) (p : Pdu) : Link :=
  if l.tx ≠ .waitFc then l
  else if l.nBsUs ≠ 0 ∧ l.fcDeadline ≤ now then l.giveUpTx
  else if p.low = 0 then
    { l with
      peerBs := p 1, peerStmin := decodeStmin (p 2), blockLeft := p 1, nextUs := now, wftCount := 0,
      tx := .sendCf, fcDeadline := now + l.nBsUs, progress := l.progress + 1 }
  else if p.low = 1 then
    if l.wftMax ≠ 0 ∧ l.wftMax ≤ l.wftCount then l.giveUpTx
    else { l with
      wftCount := l.wftCount + 1, fcDeadline := now + l.nBsUs, progress := l.progress + 1 }
  else l.giveUpTx

/-- A received frame. -/
def onFrame (l : Link) (now : UInt64) (p : Pdu) : Link :=
  if p.pci = 0x00 then l.onSingle p
  else if p.pci = 0x10 then l.onFirst p
  else if p.pci = 0x20 then l.onConsecutive now p
  else if p.pci = 0x30 then l.onFlow now p
  else l

/-! ## Time and sending -/

/-- The timeouts every owner runs a link with. -/
def initDefaults (l : Link) : Link :=
  { l with nBsUs := 1000000, wftMax := 16, nCrUs := 1000000 }

/-- The sending side has made no progress for too long. -/
def bsExpired (l : Link) (now : UInt64) : Prop :=
  l.nBsUs ≠ 0 ∧ (l.tx = .waitFc ∨ l.tx = .sendCf) ∧ l.fcDeadline ≤ now

instance (l : Link) (now : UInt64) : Decidable (l.bsExpired now) :=
  inferInstanceAs (Decidable (_ ∧ _))

def tick (l : Link) (now : UInt64) : Link :=
  let l := if l.bsExpired now then l.giveUpTx else l
  if l.crExpired now then { l with rx := .idle, fcSend := false } else l

/-- The next consecutive frame. -/
def pollCf (l : Link) (now : UInt64) : Option Pdu × Link :=
  if now < l.nextUs then (none, l)
  else
    let n := min (l.txLen - l.txPos) 7
    let out := pdu ((0x20 ||| (l.txSn &&& 0x0F)) :: (List.range n).map fun i => l.txBuf (l.txPos + i))
    let l := { l with
      txPos := l.txPos + n, txSn := (l.txSn + 1) &&& 0x0F, nextUs := now + l.peerStmin,
      fcDeadline := now + l.nBsUs }
    if l.txLen ≤ l.txPos then (some out, { l with tx := .idle })
    else if l.peerBs ≠ 0 then
      let l := { l with blockLeft := l.blockLeft - 1 }
      if l.blockLeft = 0 then (some out, { l with tx := .waitFc, fcDeadline := now + l.nBsUs })
      else (some out, l)
    else (some out, l)

/-- The next frame to send, a flow control before the rest. -/
def poll (l : Link) (now : UInt64) : Option Pdu × Link :=
  if l.fcOvflw then (some (pdu [0x32]), { l with fcOvflw := false })
  else if l.fcSend then
    (some (pdu [0x30, l.bs, l.stmin]),
      { l with fcSend := false, rxDeadline := now + l.nCrUs })
  else match l.tx with
    | .idle => (none, l)
    | .sendSf => (some (pdu (l.txLen.toUInt8 :: prefixOf l.txBuf l.txLen)), { l with tx := .idle })
    | .sendFf =>
      (some (pdu ((0x10 ||| ((l.txLen / 256).toUInt8 &&& 0x0F)) :: l.txLen.toUInt8 ::
        prefixOf l.txBuf 6)),
        { l with txPos := 6, txSn := 1, tx := .waitFc, fcDeadline := now + l.nBsUs })
    | .waitFc => (none, if l.nBsUs ≠ 0 ∧ l.fcDeadline ≤ now then l.giveUpTx else l)
    | .sendCf => l.pollCf now

end Link

end BloblyEmb.Isotp
