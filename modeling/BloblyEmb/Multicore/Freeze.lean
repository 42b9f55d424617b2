import BloblyEmb.Lib.Trace
import Mathlib.Algebra.Order.Ring.Nat
import Mathlib.Logic.Function.Basic

/-!
# The freeze that two traced cores share

The owner of a trace and its satellite record each into a ring of its own (`comm/trace`). A budget
overrun on one freezes both, through shared words with a generation that each re-arm by the host
moves on. Every load and store of those words is one step here, of the owner's thread or of the
satellite's.

A generation is a number, and a word holds its low 31 bits: whatever the code compares is compared
by those.
-/
namespace BloblyEmb.Multicore

/-! ## Generations -/

def genMod : ℕ := 2 ^ 31

/-- Two generations that a word cannot tell apart. -/
def genSame (a b : ℕ) : Bool := a % genMod == b % genMod

/-- Generation `a` is strictly newer than `b`, on the circle. -/
def genAfter (a b : ℕ) : Bool :=
  let d := (a + (genMod - b % genMod)) % genMod
  decide (d ≠ 0 ∧ d < genMod / 2)

structure FreezeSync where
  /-- The generation in force, and of which generation the trip was that raised it. -/
  word : ℕ := 0
  raised : Option ℕ := none
  rearm : ℕ := 0
  ack : ℕ := 0
  since : ℕ → UInt32 := fun _ => 0

/-! ## Rings -/

inductive Mode where
  | oneshot
  | ring
deriving DecidableEq

inductive State where
  | idle
  | capturing
  | full
  | frozen
deriving DecidableEq

inductive Cause where
  | none
  | stop
  | trigger
  | full
deriving DecidableEq

structure Ring where
  cap : ℕ
  mode : Mode
  prePct : ℕ
  state : State := .idle
  used : ℕ := 0
  postRem : ℕ := 0
  pending : Bool := false
  froze : Cause := .none
  /-- How often it was started. -/
  windows : ℕ := 0

namespace Ring

def start (t : Ring) : Ring :=
  { t with state := .capturing, used := 0, postRem := 0, pending := false, froze := .none,
           windows := t.windows + 1 }

/-- One record. -/
def push (t : Ring) : Ring :=
  if t.state ≠ .capturing ∨ t.cap = 0 then t
  else
    match t.mode with
    | .oneshot =>
      let t := { t with used := t.used + 1 }
      if t.cap ≤ t.used then
        { t with state := .full, froze := if t.froze = .none then .full else t.froze }
      else t
    | .ring =>
      let t := { t with used := if t.used < t.cap then t.used + 1 else t.used }
      if t.pending then
        let t := { t with postRem := t.postRem - 1 }
        if t.postRem = 0 then { t with state := .frozen } else t
      else t

def stop (t : Ring) : Ring :=
  if t.state = .capturing then
    { t with state := if t.mode = .ring then .frozen else .full, pending := false, postRem := 0,
             froze := if t.froze = .none then .stop else t.froze }
  else t

def trigger (t : Ring) : Ring :=
  if t.state ≠ .capturing then t
  else
    let t := { t with froze := .trigger }
    match t.mode with
    | .oneshot => { t with state := .full }
    | .ring =>
      if t.pending then t
      else
        let post := t.cap - t.cap * t.prePct / 100
        let t := { t with pending := true, postRem := post }
        if post = 0 then { t with state := .frozen } else t

/-- The trigger of an overrun: not after a stop of the host. -/
def trip (t : Ring) : Ring × Bool :=
  if t.froze = .stop then (t, false) else ({ t.trigger with froze := .trigger }, true)

/-- It stops by itself, or has stopped. -/
def Halting (t : Ring) : Prop := t.state ≠ .capturing ∨ t.pending = true

end Ring

/-! ## Threads -/

/-- A dispatch that the hook records: when it began, whether it was over its budget, and whether an
epoch goes in before it. -/
structure Dispatch where
  start : UInt32
  overran : Bool
  anchor : Bool
deriving DecidableEq

inductive Adoption where
  | none
  | adopted
  | restarted
deriving DecidableEq

inductive Staleness where
  | current
  | predates
  | discarded
deriving DecidableEq

inductive Op where
  | stop
  | dump
deriving DecidableEq

/-- Where a thread is: its next access. `began` is the generation in force when the hook began. -/
inductive Thread where
  | idle
  | word (began : ℕ) (d : Dispatch)
  | since (began : ℕ) (d : Dispatch) (g : ℕ)
  | again (began : ℕ) (d : Dispatch) (g : ℕ) (s : UInt32)
  | rearm (began : ℕ) (d : Dispatch) (g : ℕ) (s : UInt32)
  | ack (began : ℕ) (d : Dispatch) (a : Adoption)
  | record (began : ℕ) (d : Dispatch) (a : Adoption)
  | sync (tripped : Bool)
  -- commands, on the owner's
  | stamp (sat own : Bool)
  | post (own : Bool)
  | publish (own : Bool)
  | pending (op : Op) (own : Bool)
  | pendingAck (op : Op) (own : Bool) (rearm : ℕ)

/-- A core that is traced. -/
structure Core where
  gen : ℕ := 0
  since : UInt32 := 0
  ring : Ring
  thread : Thread := .idle

structure World where
  sync : FreezeSync := {}
  owner : Core
  sat : Core
  freezeGen : ℕ := 0

/-- Which of the two. -/
inductive Who where
  | owner
  | sat
deriving DecidableEq

inductive Event where
  /-- A handler was dispatched. -/
  | hook (who : Who) (d : Dispatch)
  /-- The next access of a thread; `now` is the clock, where it is read. -/
  | step (who : Who) (now : UInt32)
  /-- The host's commands, by the cores they name. -/
  | arm (sat own : Bool)
  | host (op : Op) (sat own : Bool)

inductive Label where
  | quiet
  /-- A re-arm that addressed the satellite. -/
  | posted (gen : ℕ)
  /-- The satellite took up a generation. -/
  | adopted (old new : ℕ) (restarted : Bool)
  /-- It recorded a dispatch whose hook began in a generation. -/
  | recorded (began : ℕ)
  /-- A trip claimed a generation. -/
  | raised (who : Who) (gen : ℕ)
  /-- The end of a hook; `freezing` when it found a raise. -/
  | synced (who : Who) (freezing : Option ℕ)
  /-- The host's command reached the satellite's ring. -/
  | touched (op : Op)
deriving DecidableEq

namespace World

def core (w : World) : Who → Core
  | .owner => w.owner
  | .sat => w.sat

def setCore (w : World) (who : Who) (c : Core) : World :=
  match who with
  | .owner => { w with owner := c }
  | .sat => { w with sat := c }

def goto (w : World) (who : Who) (t : Thread) : World :=
  w.setCore who { w.core who with thread := t }

end World

/-- How a dispatch stands to the generation in force. -/
def Core.stale (c : Core) (d : Dispatch) (a : Adoption) : Staleness :=
  if a = .none then .current
  else if (d.start - c.since).toNat < 2 ^ 31 then .current
  else if a = .restarted then .discarded
  else .predates

/-- The hook's own part, between its accesses: the records, and whether the ring tripped. -/
def Core.recordDispatch (c : Core) (d : Dispatch) : Core × Bool :=
  let capturing := decide (c.ring.state = .capturing)
  let ring := if capturing && d.anchor then c.ring.push else c.ring
  let ring := ring.push
  if d.overran && capturing then ({ c with ring := ring.trip.1 }, ring.trip.2)
  else ({ c with ring := ring }, false)

namespace World

/-- The satellite's ring, when no re-arm of it is open. -/
def serve (w : World) (op : Op) : World × Label :=
  match op with
  | .stop => ({ w with sat := { w.sat with ring := w.sat.ring.stop } }, .touched .stop)
  | .dump =>
    if (w.sat.ring.state = .full ∨ w.sat.ring.state = .frozen) ∧ 0 < w.sat.ring.used then
      (w, .touched .dump)
    else (w, .quiet)

/-- The owner's half of a command. -/
def serveOwn (w : World) (op : Op) (own : Bool) : World :=
  if own ∧ op = .stop then { w with owner := { w.owner with ring := w.owner.ring.stop } } else w

def stepThread (w : World) (who : Who) (now : UInt32) : World × Label :=
  let c := w.core who
  match c.thread with
  | .idle => (w, .quiet)
  | .word began d => (w.goto who (.since began d w.sync.word), .quiet)
  | .since began d g => (w.goto who (.again began d g (w.sync.since (g % 2))), .quiet)
  | .again began d g s =>
    if genSame w.sync.word g = false then (w.goto who (.word began d), .quiet)
    else if genSame g c.gen then (w.goto who (.record began d .none), .quiet)
    else
      match who with
      | .owner =>
        (w.setCore .owner { c with gen := g, since := s, thread := .record began d .adopted },
          .quiet)
      | .sat => (w.goto .sat (.rearm began d g s), .quiet)
  | .rearm began d g s =>
    let restarts := genAfter w.sync.rearm c.gen
    let ring := if restarts then c.ring.start else c.ring
    let a : Adoption := if restarts then .restarted else .adopted
    (w.setCore who { gen := g, since := s, ring := ring, thread := .ack began d a },
      .adopted c.gen g restarts)
  | .ack began d a =>
    let sync := { w.sync with ack := c.gen }
    ({ w.goto who (.record began d a) with sync := sync }, .quiet)
  | .record began d a =>
    match c.stale d a with
    | .discarded => (w.goto who (.sync false), .quiet)
    | stale =>
      let done := c.recordDispatch d
      let tripped := done.2 && decide (stale ≠ .predates)
      (w.setCore who { done.1 with thread := .sync tripped },
        if who = .sat then .recorded began else .quiet)
  | .sync true =>
    -- the swap succeeds in the generation of the trip alone
    if genSame w.sync.word c.gen ∧ w.sync.raised = none then
      ({ w.goto who .idle with sync := { w.sync with raised := some c.gen } }, .raised who c.gen)
    else (w.goto who .idle, .synced who none)
  | .sync false =>
    match w.sync.raised with
    | some g =>
      if genSame w.sync.word c.gen then
        (w.setCore who { c with ring := c.ring.trigger, thread := .idle }, .synced who (some g))
      else (w.goto who .idle, .synced who none)
    | none => (w.goto who .idle, .synced who none)
  | .stamp sat own =>
    let gen := w.freezeGen + 1
    let sync := { w.sync with since := Function.update w.sync.since (gen % 2) now }
    let next : Thread := if sat then .post own else .publish own
    ({ w.goto who next with sync := sync, freezeGen := gen }, .quiet)
  | .post own =>
    ({ w.goto who (.publish own) with sync := { w.sync with rearm := w.freezeGen } },
      .posted w.freezeGen)
  | .publish own =>
    let ring := if own then w.owner.ring.start else w.owner.ring
    let sync := { w.sync with word := w.freezeGen, raised := none }
    ({ w with sync := sync, owner := { w.owner with ring := ring, thread := .idle } }, .quiet)
  | .pending op own => (w.goto who (.pendingAck op own w.sync.rearm), .quiet)
  | .pendingAck op own rearm =>
    if genAfter rearm w.sync.ack then (w.goto who .idle, .quiet)
    else
      let done := (w.goto who .idle).serve op
      (done.1.serveOwn op own, done.2)

def step (w : World) : Event → World × Label
  | .hook who d =>
    match (w.core who).thread with
    | .idle => (w.goto who (.word w.sync.word d), .quiet)
    | _ => (w, .quiet)
  | .step who now => w.stepThread who now
  | .arm sat own =>
    match w.owner.thread with
    | .idle => if sat ∨ own then (w.goto .owner (.stamp sat own), .quiet) else (w, .quiet)
    | _ => (w, .quiet)
  | .host op sat own =>
    match w.owner.thread with
    | .idle =>
      if sat then (w.goto .owner (.pending op own), .quiet) else (w.serveOwn op own, .quiet)
    | _ => (w, .quiet)

end World

end BloblyEmb.Multicore
