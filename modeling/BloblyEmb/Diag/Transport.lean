import BloblyEmb.Isotp.Link

/-!
# A server's link on its channel

The transport side that every diagnostic server shares (`comm/diag`): the intake of a received
frame, and the next frame for the channel.
-/
namespace BloblyEmb.Diag
open Isotp

/-- A received frame, with the bytes that arrived. -/
structure Frame where
  id : UInt32
  ext : Bool
  data : List UInt8
deriving DecidableEq

/-- Feeds one frame to the link, only the bytes that arrived, and not at all one that is shorter
than its first byte says. True when a message waits. -/
def takeFrame (l : Link) (now : UInt64) (f : Frame) : Bool × Link :=
  match f.data.take 8 with
  | [] => (false, l)
  | b :: bs =>
    if l.truncated b (b :: bs).length then (false, l)
    else ((l.onFrame now (pdu (b :: bs))).ready, l.onFrame now (pdu (b :: bs)))

/-- The next frame of the link, on its identifier. -/
def nextFrame (l : Link) (txId : UInt32) (now : UInt64) : Option Frame × Link :=
  ((l.poll now).1.map fun p => { id := txId, ext := false, data := (List.finRange 8).map p },
    (l.poll now).2)

/-- A completed message. It is dropped while an answer is being sent, and while `blocked`. -/
def takeRequest (l : Link) (blocked : Bool) : Option (List UInt8) × Link :=
  (if l.take.2.busy ∨ blocked then none else l.take.1, l.take.2)

/-- Sends what the link has while the channel takes it: the list of the channel's answers to the
frames it is given. A frame that it refuses aborts the transfer, and the result is false. -/
def pumpLink (l : Link) (txId : UInt32) (now : UInt64) : List Bool → Bool × Link × List Frame
  | [] => (true, l, [])
  | ok :: rest =>
    match (nextFrame l txId now).1 with
    | none => (true, (nextFrame l txId now).2, [])
    | some f =>
      if ok = false then (false, (nextFrame l txId now).2.abortTx, [])
      else
        let pumped := pumpLink (nextFrame l txId now).2 txId now rest
        (pumped.1, pumped.2.1, f :: pumped.2.2)

/-- An exchange is under way on the link. -/
def inFlight (l : Link) : Bool := !l.idle

end BloblyEmb.Diag
