import Mathlib.Logic.Function.Basic
import Mathlib.Logic.Function.Iterate
import Mathlib.Tactic.Common

/-!
# End-to-end protection

The counter and the CRC that a sender stamps into a frame, and what the receiver makes of them
(`comm/e2e`): the check of one frame, and the timeout that finds a sender lost.
-/
namespace BloblyEmb.E2e

/-- A counter runs to 14. -/
def p01CounterSpan : UInt8 := 15

def crcUpdate (crc b : UInt8) : UInt8 :=
  Nat.iterate (fun c => if c &&& 0x80 ≠ 0 then (c <<< 1) ^^^ 0x1D else c <<< 1) 8 (crc ^^^ b)

/-- Where a frame carries its protection, and the two windows that the CRC leaves out. -/
structure Layout where
  dataId : UInt16
  crcPos : ℕ
  counterPos : ℕ
  ex1Pos : ℕ := 0
  ex1Len : ℕ := 0
  ex2Pos : ℕ := 0
  ex2Len : ℕ := 0

def Layout.covers (l : Layout) (i : ℕ) : Bool :=
  i ≠ l.crcPos && !(0 < l.ex1Len && l.ex1Pos ≤ i && i < l.ex1Pos + l.ex1Len) &&
    !(0 < l.ex2Len && l.ex2Pos ≤ i && i < l.ex2Pos + l.ex2Len)

def compute (data : ℕ → UInt8) (dlc : ℕ) (l : Layout) : UInt8 :=
  let c := crcUpdate (crcUpdate 0 l.dataId.toUInt8) (l.dataId >>> 8).toUInt8
  (List.range dlc).foldl (fun c i => if l.covers i then crcUpdate c (data i) else c) c

structure TxState where
  counter : UInt8 := 0

/-- Stamps the counter and then the CRC. -/
def TxState.protectEx (t : TxState) (data : ℕ → UInt8) (dlc : ℕ) (l : Layout) :
    TxState × (ℕ → UInt8) :=
  let data := Function.update data l.counterPos
    ((data l.counterPos &&& 0xF0) ||| (t.counter % p01CounterSpan))
  ({ counter := (t.counter + 1) % p01CounterSpan },
    Function.update data l.crcPos (compute data dlc l))

inductive Status where
  | ok
  | crcError
  | repeated
  | lost
deriving DecidableEq

def Status.usable : Status → Bool
  | .ok | .lost => true
  | _ => false

structure RxState where
  last : UInt8 := 0
  started : Bool := false
  lostFrames : UInt32 := 0
  /-- 0 is off. -/
  timeoutUs : UInt64 := 0
  validUs : UInt64 := 0
  armed : Bool := false
  timedout : Bool := false

/-- What a receiver publishes for a frame. -/
inductive RxVerdict where
  | none
  | ok
  | timeout
  | integrity
deriving DecidableEq

namespace RxState

def arm (r : RxState) (now : UInt64) : RxState :=
  { r with validUs := now, armed := true, timedout := false }

def onValid (r : RxState) (now : UInt64) : RxState := r.arm now

def expired (r : RxState) (now : UInt64) : RxState × Bool :=
  if r.timeoutUs = 0 ∨ r.armed = false ∨ r.timedout = true then (r, false)
  else if r.timeoutUs < now - r.validUs then ({ r with timedout := true }, true)
  else (r, false)

def receiveEx (r : RxState) (now : UInt64) (st : Status) (suspended : Bool) : RxState × RxVerdict :=
  if st.usable then
    let due := if suspended then (r, false) else r.expired now
    (due.1.onValid now, if due.2 then .timeout else .ok)
  else if st = .crcError then (if r.timedout then r.arm now else r, .integrity)
  else (r, .none)

def receive (r : RxState) (now : UInt64) (st : Status) : RxState × RxVerdict :=
  r.receiveEx now st false

def checkEx (r : RxState) (data : ℕ → UInt8) (dlc : ℕ) (l : Layout) : RxState × Status :=
  if data l.crcPos ≠ compute data dlc l then (r, .crcError)
  else
    let ctr := data l.counterPos &&& 0x0F
    if p01CounterSpan ≤ ctr then (r, .crcError)
    else
      let delta := (ctr + p01CounterSpan - r.last) % p01CounterSpan
      let gap := r.started && decide (1 < delta)
      ({ r with
          last := ctr, started := true,
          lostFrames := if gap then r.lostFrames + (delta - 1).toUInt32 else r.lostFrames },
        if r.started && decide (delta = 0) then .repeated else if gap then .lost else .ok)

end RxState

end BloblyEmb.E2e
