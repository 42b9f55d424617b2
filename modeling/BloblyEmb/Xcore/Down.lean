import BloblyEmb.Lib.Trace
import BloblyEmb.Xioc.Channel

/-!
# Reads from the owner, across its boots

The owner's window of the shared memory (`xcore_owner.c`, `xcore_sat.c`): a gate of two words, and
wide channels behind it. An owner boot closes the gate, takes a new nonce, initialises each channel
and opens the gate for its layout; a reset may cut it at any word, and the memory keeps what was
stored. The satellite looks at the gate before and after it reads its channel.

Which boot opened the gate, the order of the publications of a channel, and what was published since
the last begin are not in the code.
-/
namespace BloblyEmb.Xcore

open Xioc (nextSeq slots maxWords Kind)

/-- The magic word for 0, which is the retraction. -/
def layoutMagic : UInt32 := 0x4C594F31

def ackOf (v : UInt32) : UInt32 := if v ≠ 0 then v else layoutMagic

def nextNonce (v : UInt32) : UInt32 := (v + 2) ||| 1

def seedOf (nonce : UInt32) : UInt32 := (nonce * 2654435761) ||| 1

/-! ## A channel -/

structure Channel where
  latest : UInt32
  words : ℕ
  wseq : UInt32
  cell : ℕ → UInt32
  /-- Since it was initialised: the seed, the publications begun and published, the value of each,
  and which of them stands in a slot. -/
  seed : UInt32 := 0
  count : ℕ := 0
  pub : ℕ := 0
  value : ℕ → List UInt32 := fun _ => []
  slot : ℕ → Option ℕ := fun _ => none

namespace Channel

def retract (c : Channel) : Channel := { c with latest := 0 }

def clear (c : Channel) (i : ℕ) : Channel := { c with cell := Function.update c.cell i 0 }

def setWseq (c : Channel) (seed : UInt32) : Channel := { c with wseq := seed }

def geometry (c : Channel) (words : ℕ) : Channel :=
  { c with words := words, seed := c.wseq, count := 0, pub := 0, slot := fun _ => none }

/-- The number of the next publication is taken. -/
def start (c : Channel) (v : List UInt32) : Channel :=
  { c with
    wseq := nextSeq c.wseq
    count := c.count + 1
    value := Function.update c.value c.count v }

/-- A store of the sequence word of a slot. -/
def storeSeq (c : Channel) (n x : UInt32) (s : Option ℕ) : Channel :=
  { c with
    cell := Function.update c.cell (Kind.wide.slot n c.words) x
    slot := Function.update c.slot (n.toNat % slots) s }

def invalidate (c : Channel) (n : UInt32) : Channel := c.storeSeq n 0 none

def payload (c : Channel) (n : UInt32) (v : List UInt32) (i : ℕ) : Channel :=
  { c with cell := Function.update c.cell (Kind.wide.slot n c.words + 1 + i) (v.getD i 0) }

def validate (c : Channel) (n : UInt32) : Channel := c.storeSeq n n (some (c.count - 1))

def publish (c : Channel) (n : UInt32) : Channel := { c with latest := n, pub := c.count }

end Channel

/-! ## The owner -/

/-- Where the owner is: its next access. -/
inductive Owner where
  /-- In reset: its next store is the first of `xcore_owner_begin`. -/
  | off
  | loadNonce
  | storeNonce (v : UInt32)
  /-- The channels to initialise; then the gate opens. -/
  | init (todo : List (ℕ × ℕ))
  | clear (o words i : ℕ) (rest : List (ℕ × ℕ))
  | wseq (o words : ℕ) (rest : List (ℕ × ℕ))
  | geometry (o words : ℕ) (rest : List (ℕ × ℕ))
  | idle
  | invalidate (o : ℕ) (n : UInt32) (v : List UInt32)
  | payload (o : ℕ) (n : UInt32) (v : List UInt32) (i : ℕ)
  | validate (o : ℕ) (n : UInt32) (v : List UInt32)
  | publish (o : ℕ) (n : UInt32) (v : List UInt32)

/-- The builds of the two cores: the layout of each, the channels of the owner and the one that the
reader reads, with its width. -/
structure Config where
  layout : UInt32
  chans : List (ℕ × ℕ)
  /-- The generator lays the channels out one behind the other. -/
  apart : (chans.map Prod.fst).Nodup
  readLayout : UInt32
  off : ℕ
  words : ℕ
  /-- The layout is of the list of channels: a build of the same one reads where the owner has a
  channel. -/
  known : readLayout = layout → off ∈ chans.map Prod.fst

/-- What the owner has, and what it stores for the satellite. -/
structure Shared where
  ack : UInt32
  nonce : UInt32
  chan : ℕ → Channel
  owner : Owner := .off
  owNonce : UInt32 := 0
  owSeed : UInt32 := 0
  /-- The boot that opened the gate, and how many took a nonce. -/
  gate : Option ℕ := none
  boots : ℕ := 0
  /-- What was published since the last begin. -/
  done : List (ℕ × List UInt32) := []

namespace Shared

def setChan (m : Shared) (o : ℕ) (c : Channel) : Shared :=
  { m with chan := Function.update m.chan o c }

/-- The words of the value, and then the sequence word. -/
def storing (m : Shared) (o : ℕ) (n : UInt32) (v : List UInt32) (i : ℕ) : Owner :=
  if i < (m.chan o).words then .payload o n v i else .validate o n v

/-- The next access of the owner. -/
def access (cfg : Config) (m : Shared) : Shared :=
  match m.owner with
  | .off => { m with ack := 0, owner := .loadNonce, gate := none, done := [] }
  | .loadNonce => { m with owner := .storeNonce (nextNonce m.nonce) }
  | .storeNonce v =>
    { m with
      nonce := v, owNonce := v, owSeed := seedOf v, boots := m.boots + 1, owner := .init cfg.chans }
  | .init [] =>
    { m with ack := ackOf (m.owNonce ^^^ cfg.layout), gate := some m.boots, owner := .idle }
  | .init ((o, words) :: rest) =>
    { m.setChan o (m.chan o).retract with owner := .clear o words 0 rest }
  | .clear o words i rest =>
    { m.setChan o ((m.chan o).clear i) with
      owner := if i + 1 < slots * (1 + words) then .clear o words (i + 1) rest
        else .wseq o words rest }
  | .wseq o words rest =>
    { m.setChan o ((m.chan o).setWseq m.owSeed) with owner := .geometry o words rest }
  | .geometry o words rest =>
    { m.setChan o ((m.chan o).geometry words) with owner := .init rest }
  | .idle => m
  | .invalidate o n v =>
    { m.setChan o ((m.chan o).invalidate n) with owner := m.storing o n v 0 }
  | .payload o n v i =>
    { m.setChan o ((m.chan o).payload n v i) with owner := m.storing o n v (i + 1) }
  | .validate o n v => { m.setChan o ((m.chan o).validate n) with owner := .publish o n v }
  | .publish o n v =>
    { m.setChan o ((m.chan o).publish n) with owner := .idle, done := (o, v) :: m.done }

/-- `xcore_opub_n`: its accesses follow. -/
def opub (m : Shared) (o : ℕ) (src : List UInt32) : Shared :=
  match m.owner with
  | .idle =>
    let v := (List.range (m.chan o).words).map fun i => src.getD i 0
    { m.setChan o ((m.chan o).start v) with owner := .invalidate o (nextSeq (m.chan o).wseq) v }
  | _ => m

def reset (m : Shared) : Shared := { m with owner := .off }

end Shared

/-! ## The satellite -/

/-- What a read saw of the gate, and which boot had opened it. -/
structure Look where
  ack : UInt32
  nonce : UInt32
  boot : Option ℕ

/-- Where the reader is: its next load. `k` is the place of the publication that it found. -/
inductive Reader where
  | idle
  | nonce (ack : UInt32) (boot : Option ℕ)
  | latest (l : Look)
  | words (l : Look) (n : UInt32) (k : ℕ)
  | copy (l : Look) (n : UInt32) (k : ℕ) (tmp : List UInt32)
  | recheck (l : Look) (n : UInt32) (k : ℕ) (tmp : List UInt32)
  | gate (l : Look)
  /-- What was published when it looked at the gate again. -/
  | last (l : Look) (seen : List (ℕ × List UInt32))

structure Sat where
  reader : Reader := .idle
  stNonce : UInt32 := 0
  rdSeq : UInt32 := 0
  dst : List UInt32
  /-- The boot that the lanes are of. -/
  stBoot : ℕ := 0

inductive Label where
  | quiet
  /-- A read returns 0, or 1. -/
  | default
  | fresh (seen : List (ℕ × List UInt32))
deriving DecidableEq

namespace Sat

/-- `down_reset`. -/
def downReset (cfg : Config) (s : Sat) : Sat :=
  { s with rdSeq := 0, dst := List.replicate cfg.words 0 }

def refuse (cfg : Config) (s : Sat) : Sat × Label :=
  ({ s.downReset cfg with stNonce := 0, reader := .idle }, .default)

/-- The reader copies, and then looks at the sequence word again. -/
def copying (cfg : Config) (l : Look) (n : UInt32) (k : ℕ) (tmp : List UInt32) : Reader :=
  if tmp.length < cfg.words then .copy l n k tmp else .recheck l n k tmp

/-- The next load of `xcore_down_read`. -/
def access (cfg : Config) (m : Shared) (s : Sat) : Sat × Label :=
  let c := m.chan cfg.off
  match s.reader with
  | .idle => (s, .quiet)
  | .nonce ack boot =>
    if ack = 0 ∨ ack ≠ ackOf (m.nonce ^^^ cfg.readLayout) then s.refuse cfg
    else if s.stNonce ≠ m.nonce then
      ({ s.downReset cfg with stNonce := m.nonce, reader := .latest ⟨ack, m.nonce, boot⟩ }, .quiet)
    else ({ s with reader := .latest ⟨ack, m.nonce, boot⟩ }, .quiet)
  | .latest l =>
    if c.latest = 0 ∨ c.latest = s.rdSeq then ({ s with reader := .gate l }, .quiet)
    else ({ s with reader := .words l c.latest (c.pub - 1) }, .quiet)
  | .words l n k =>
    if c.words ≠ cfg.words ∨ maxWords < c.words then ({ s with reader := .gate l }, .quiet)
    else ({ s with reader := copying cfg l n k [] }, .quiet)
  | .copy l n k tmp =>
    ({ s with
        reader := copying cfg l n k
          (tmp ++ [c.cell (Kind.wide.slot n cfg.words + 1 + tmp.length)]) }, .quiet)
  | .recheck l n _ tmp =>
    if c.cell (Kind.wide.slot n cfg.words) ≠ n then ({ s with reader := .gate l }, .quiet)
    else
      ({ s with reader := .gate l, dst := tmp, rdSeq := n, stBoot := l.boot.getD 0 }, .quiet)
  | .gate l =>
    if m.ack ≠ l.ack then s.refuse cfg else ({ s with reader := .last l m.done }, .quiet)
  | .last l seen =>
    if m.nonce ≠ l.nonce then s.refuse cfg
    else ({ s with reader := .idle }, if s.rdSeq ≠ 0 then .fresh seen else .default)

/-- The first load of `xcore_down_read`. -/
def read (m : Shared) (s : Sat) : Sat :=
  match s.reader with
  | .idle => { s with reader := .nonce m.ack m.gate }
  | _ => s

end Sat

/-! ## The two cores -/

structure World where
  mem : Shared
  sat : Sat

inductive Event where
  | reset
  | opub (o : ℕ) (src : List UInt32)
  | read
  /-- The next access of a core. -/
  | owner
  | reader

/-- The satellite starts with zeros, on memory of any content. -/
def World.init (cfg : Config) (ack nonce : UInt32) (chan : ℕ → Channel) : World where
  mem := { ack := ack, nonce := nonce, chan := chan }
  sat := { dst := List.replicate cfg.words 0 }

def World.step (cfg : Config) (w : World) : Event → World × Label
  | .reset => ({ w with mem := w.mem.reset }, .quiet)
  | .opub o src => ({ w with mem := w.mem.opub o src }, .quiet)
  | .read => ({ w with sat := w.sat.read w.mem }, .quiet)
  | .owner => ({ w with mem := w.mem.access cfg }, .quiet)
  | .reader => ({ w with sat := (w.sat.access cfg w.mem).1 }, (w.sat.access cfg w.mem).2)

end BloblyEmb.Xcore
