import BloblyEmb.E2e.Profile
import BloblyEmb.Lib.Trace

/-!
# Reception of a frame

Two deadlines watch the sender of a received frame, the deadline of its PDU and the timeout of its
end-to-end protection, and one status is published for both (`comm/com`, `rxmon`). A gate switches
reception off; its owner samples it, settles it at the end of a pass, and polls the deadlines while
it is live.
-/
namespace BloblyEmb.Com

open E2e (Status RxVerdict Layout)

/-! ## The deadline of a PDU -/

structure RxState where
  timeoutUs : UInt64 := 0
  lastUs : UInt64 := 0
  received : Bool := false
  timedout : Bool := false

namespace RxState

def onReceive (r : RxState) (now : UInt64) : RxState :=
  { r with lastUs := now, received := true, timedout := false }

def arm (r : RxState) (now : UInt64) : RxState := r.onReceive now

def expired (r : RxState) (now : UInt64) : RxState × Bool :=
  if r.timeoutUs = 0 ∨ r.received = false ∨ r.timedout = true then (r, false)
  else if r.timeoutUs < now - r.lastUs then ({ r with timedout := true }, true)
  else (r, false)

end RxState

/-! ## The monitor -/

inductive RxPublish where
  | none
  | ok
  | timeout
  | integrity
deriving DecidableEq

structure RxMonitor where
  com : RxState := {}
  e2e : E2e.RxState := {}
  quiet : Bool := false
  hidden : UInt32 := 0
  seen : UInt32 := 0
  reported : Bool := false

namespace RxMonitor

def start (r : RxMonitor) (now : UInt64) : RxMonitor :=
  { r with com := r.com.arm now, e2e := r.e2e.arm now, reported := false }

def silenced (r : RxMonitor) : RxMonitor := { r with quiet := true }

def lost (r : RxMonitor) : UInt32 := r.e2e.lostFrames - r.hidden

def checked (r : RxMonitor) (now : UInt64) (st : Status) (gate receiving suspended : Bool) :
    RxMonitor × RxPublish :=
  let gap := r.e2e.lostFrames - r.seen
  let received := r.e2e.receiveEx now st suspended
  let r := { r with
    seen := r.e2e.lostFrames,
    hidden := if r.quiet then r.hidden + gap else r.hidden,
    quiet := r.quiet && !(receiving && st.usable),
    e2e := received.1,
    reported := r.reported && decide (received.2 = .none) }
  match received.2 with
  | .ok => if gate then ({ r with com := r.com.onReceive now }, .ok) else (r, .none)
  | .timeout => if gate then ({ r with com := r.com.onReceive now }, .timeout) else (r, .none)
  | .integrity => ({ r with com := r.com.arm now }, if gate then .integrity else .none)
  | .none => (r, .none)

/-- A frame that its authentication refuses. -/
def rejected (r : RxMonitor) (now : UInt64) (gate : Bool) : RxMonitor × RxPublish :=
  ({ r with
      com := r.com.arm now,
      e2e := (r.e2e.receive now .crcError).1,
      reported := false },
    if gate then .integrity else .none)

def restart (r : RxMonitor) (now : UInt64) : RxMonitor :=
  { r with com := r.com.onReceive now, e2e := r.e2e.arm now, reported := false }

def expire (r : RxMonitor) (now : UInt64) : RxMonitor × Bool :=
  let c := r.com.expired now
  let e := r.e2e.expired now
  let r := { r with com := c.1, e2e := e.1 }
  if (c.2 || e.2) && !r.reported then ({ r with reported := true }, true) else (r, false)

end RxMonitor

/-! ## The gate -/

structure RxGate where
  on : Bool := false
  silent : Bool := false
  latched : Bool := false

namespace RxGate

def sample (g : RxGate) (rxOn awake : Bool) : RxGate :=
  let silent := !rxOn || !awake
  { on := rxOn, silent := silent, latched := g.latched || silent }

def suspended (g : RxGate) : Bool := g.latched

def receiving (g : RxGate) : Bool := !g.silent

def live (g : RxGate) : Bool := !g.silent && !g.latched

def settle (g : RxGate) : RxGate × Bool :=
  ({ g with latched := g.silent }, !g.silent && g.latched)

end RxGate

/-! ## The owner -/

/-- A received frame: its length, its protection and its two timeouts. -/
structure Config where
  dlc : ℕ
  layout : Layout
  comUs : UInt64
  e2eUs : UInt64

structure World where
  mon : RxMonitor
  gate : RxGate

inductive Event where
  | sample (rxOn awake : Bool)
  /-- A frame that is authentic, or one that is not. -/
  | frame (now : UInt64) (data : ℕ → UInt8)
  | forged (now : UInt64)
  | settle (now : UInt64)
  | poll (now : UInt64)

inductive Label where
  | quiet
  | judged (now : UInt64) (st : Status) (p : RxPublish)
  | refused (p : RxPublish)
  | restarted (now : UInt64)
  /-- The deadlines were polled; whether they were found to have run out. -/
  | polled (now : UInt64) (timeout : Bool)
deriving DecidableEq

namespace World

def start (cfg : Config) (now : UInt64) (rxOn awake : Bool) : World where
  mon := RxMonitor.start
    { com := { timeoutUs := cfg.comUs }, e2e := { timeoutUs := cfg.e2eUs } } now
  gate := RxGate.sample {} rxOn awake

def step (cfg : Config) (w : World) : Event → World × Label
  | .sample rxOn awake =>
    let gate := w.gate.sample rxOn awake
    ({ mon := if gate.silent then w.mon.silenced else w.mon, gate := gate }, .quiet)
  | .frame now data =>
    let check := w.mon.e2e.checkEx data cfg.dlc cfg.layout
    let done := { w.mon with e2e := check.1 }.checked now check.2 w.gate.on w.gate.receiving
      w.gate.suspended
    ({ w with mon := done.1 }, .judged now check.2 done.2)
  | .forged now =>
    let done := w.mon.rejected now w.gate.on
    ({ w with mon := done.1 }, .refused done.2)
  | .settle now =>
    let done := w.gate.settle
    if done.2 then ({ mon := w.mon.restart now, gate := done.1 }, .restarted now)
    else ({ w with gate := done.1 }, .quiet)
  | .poll now =>
    if w.gate.live then
      let done := w.mon.expire now
      ({ w with mon := done.1 }, .polled now done.2)
    else (w, .quiet)

end World

/-! ## What is published -/

def Label.published : Label → RxPublish
  | .judged _ _ p | .refused p => p
  | .polled _ true => .timeout
  | _ => .none

/-- A frame or a restart that moves a deadline: a repeat does not. -/
def Label.moves : Label → Bool
  | .judged _ st _ => st ≠ .repeated
  | .refused _ | .restarted _ => true
  | _ => false

/-- A usable frame, or a restart, and when. -/
def Label.alive : Label → Option UInt64
  | .judged now st _ => if st.usable then some now else none
  | .restarted now => some now
  | _ => none

/-- What a history shows of the sender. -/
structure Watch where
  /-- When the last usable frame came, or reception restarted. -/
  since : UInt64
  /-- A poll has come more than the timeout later. -/
  found : Bool := false
  /-- The status that was published last. -/
  status : RxPublish := .none
  /-- A poll has published a timeout since a deadline moved. -/
  told : Bool := false

def Watch.note (cfg : Config) (s : Watch) (l : Label) : Watch where
  since := l.alive.getD s.since
  found :=
    match l with
    | .polled now _ => s.found || decide (cfg.e2eUs < now - s.since)
    | _ => s.found && l.alive.isNone
  status := if l.published = .none then s.status else l.published
  told := !l.moves && (s.told || decide (l.published = .timeout))

abbrev Step := Trace.Entry World Event Label

def watch (cfg : Config) (now : UInt64) (hist : List Step) : Watch :=
  hist.foldl (fun s x => s.note cfg x.label) { since := now }

/-- Supervision of one frame, step by step, after what the history has shown. -/
structure Supervised (cfg : Config) (s : Watch) (x : Step) : Prop where
  /-- The first poll that comes too long after the last usable frame leaves a timeout. -/
  loss : ∀ now timeout, x.label = .polled now timeout → cfg.e2eUs < now - s.since →
    s.found = false → (s.note cfg x.label).status = .timeout
  /-- One timeout for a silence. A frame that ends it adds one only when its own protection has run
  out of time with no poll to see it. -/
  once : x.label.published = .timeout → s.told = true →
    ∃ now st, x.label = .judged now st .timeout ∧ st.usable = true ∧
      x.before.mon.e2e.timedout = false ∧ cfg.e2eUs < now - x.before.mon.e2e.validUs
  /-- Nothing while reception is off. -/
  off : x.before.gate.on = false → x.label.published = .none

/-! ## The invariant -/

section Proofs

variable {cfg : Config} {t : UInt64} {hist : List Step}

theorem watch_snoc (x : Step) :
    watch cfg t (hist ++ [x]) = (watch cfg t hist).note cfg x.label := by
  simp [watch]

structure Inv (cfg : Config) (s : Watch) (w : World) : Prop where
  timeouts : w.mon.com.timeoutUs = cfg.comUs ∧ w.mon.e2e.timeoutUs = cfg.e2eUs
  armed : w.mon.e2e.armed = true
  /-- Nothing but a usable frame or a restart has moved the timeout. -/
  since : s.found = false → w.mon.e2e.validUs = s.since ∧ w.mon.e2e.timedout = false
  told : w.mon.reported = s.told
  status : s.told = true → s.status = .timeout
  gate : w.gate.silent = false → w.gate.on = true

theorem inv_start (now : UInt64) (rxOn awake : Bool) :
    Inv cfg { since := now } (World.start cfg now rxOn awake) := by
  constructor <;> simp [World.start, RxMonitor.start, RxState.arm, RxState.onReceive,
    E2e.RxState.arm, RxGate.sample]
  exact fun h _ => h

variable {s : Watch} {w : World}

theorem expired_spec (r : E2e.RxState) (now : UInt64) (harmed : r.armed = true) :
    (r.expired now).2 = true ↔
      r.timeoutUs ≠ 0 ∧ r.timedout = false ∧ r.timeoutUs < now - r.validUs := by
  simp only [E2e.RxState.expired, harmed]
  split
  · rename_i h
    simp only [Bool.false_eq_true, false_iff, not_and, Bool.true_eq_false, false_or] at h ⊢
    intro h0 hno
    simp_all
  · rename_i h
    split <;> simp_all

theorem expired_frame (r : E2e.RxState) (now : UInt64) :
    (r.expired now).1 = { r with timedout := r.timedout || (r.expired now).2 } := by
  simp only [E2e.RxState.expired]
  split
  · simp
  split <;> simp

theorem com_expired_frame (r : RxState) (now : UInt64) :
    (r.expired now).1 = { r with timedout := r.timedout || (r.expired now).2 } := by
  simp only [RxState.expired]
  split
  · simp
  split <;> simp

/-- A check moves no deadline. -/
theorem checkEx_frame (r : E2e.RxState) (data : ℕ → UInt8) (dlc : ℕ) (l : Layout) :
    ((r.checkEx data dlc l).1.timeoutUs = r.timeoutUs ∧ (r.checkEx data dlc l).1.armed = r.armed) ∧
      (r.checkEx data dlc l).1.validUs = r.validUs ∧
      (r.checkEx data dlc l).1.timedout = r.timedout := by
  simp only [E2e.RxState.checkEx]
  split
  · simp
  split <;> simp

theorem receiveEx_usable (r : E2e.RxState) (now : UInt64) {st : Status} (suspended : Bool)
    (h : st.usable = true) :
    (r.receiveEx now st suspended).1 = r.arm now ∧
      (r.receiveEx now st suspended).2 =
        if suspended = false ∧ (r.expired now).2 = true then .timeout else .ok := by
  simp only [E2e.RxState.receiveEx, h, if_true]
  cases suspended with
  | true => simp [E2e.RxState.onValid]
  | false =>
    have hframe := expired_frame r now
    constructor
    · simp only [E2e.RxState.onValid, Bool.false_eq_true, if_false]
      rw [hframe]
      rfl
    · simp

theorem receiveEx_corrupt (r : E2e.RxState) (now : UInt64) (suspended : Bool) :
    r.receiveEx now .crcError suspended = (if r.timedout then r.arm now else r, .integrity) := by
  simp [E2e.RxState.receiveEx, Status.usable]

theorem receiveEx_repeated (r : E2e.RxState) (now : UInt64) (suspended : Bool) :
    r.receiveEx now .repeated suspended = (r, .none) := by
  simp [E2e.RxState.receiveEx, Status.usable]

/-- The publication of a verdict. -/
def publishOf : RxVerdict → RxPublish
  | .none => .none
  | .ok => .ok
  | .timeout => .timeout
  | .integrity => .integrity

/-- What a checked frame changes, by the verdict on it. -/
theorem checked_spec (r : RxMonitor) (now : UInt64) (st : Status) (gate receiving susp : Bool) :
    (r.checked now st gate receiving susp).1.e2e = (r.e2e.receiveEx now st susp).1 ∧
      (r.checked now st gate receiving susp).1.reported =
        (r.reported && decide ((r.e2e.receiveEx now st susp).2 = .none)) ∧
      (r.checked now st gate receiving susp).1.com.timeoutUs = r.com.timeoutUs ∧
      (r.checked now st gate receiving susp).2 =
        if gate then publishOf (r.e2e.receiveEx now st susp).2 else .none := by
  simp only [RxMonitor.checked]
  cases (r.e2e.receiveEx now st susp).2 <;> cases gate <;>
    simp [publishOf, RxState.arm, RxState.onReceive]

theorem good_frame (h : Inv cfg s w) (now : UInt64) (data : ℕ → UInt8) :
    Inv cfg (s.note cfg (w.step cfg (.frame now data)).2) (w.step cfg (.frame now data)).1 ∧
      Supervised cfg s (Trace.entry (World.step cfg) w (.frame now data)) := by
  have hframe := checkEx_frame w.mon.e2e data cfg.dlc cfg.layout
  generalize hcheck : w.mon.e2e.checkEx data cfg.dlc cfg.layout = check at hframe
  obtain ⟨e, st⟩ := check
  obtain ⟨⟨htimeout, harmed⟩, hvalid, htimedout⟩ := hframe
  simp only at htimeout harmed hvalid htimedout
  have hspec := checked_spec { w.mon with e2e := e } now st w.gate.on w.gate.receiving
    w.gate.suspended
  have hstep : w.step cfg (.frame now data) =
      ({ w with mon := (RxMonitor.checked { w.mon with e2e := e } now st w.gate.on
          w.gate.receiving w.gate.suspended).1 },
        .judged now st (RxMonitor.checked { w.mon with e2e := e } now st w.gate.on
          w.gate.receiving w.gate.suspended).2) := by
    simp only [World.step, hcheck]
  generalize RxMonitor.checked { w.mon with e2e := e } now st w.gate.on w.gate.receiving
    w.gate.suspended = done at hspec hstep
  obtain ⟨he, hreported, hcom, hpub⟩ := hspec
  have htold := h.told
  have hsince := h.since
  by_cases hst : st.usable = true
  · -- the sender is alive, and every deadline starts again
    obtain ⟨harm, hverdict⟩ := receiveEx_usable e now w.gate.suspended hst
    have hv : (e.receiveEx now st w.gate.suspended).2 ≠ .none := by
      rw [hverdict]
      split <;> simp
    have hrep : done.1.reported = false := by
      simp [hreported, hv]
    have hmove : st ≠ .repeated := by
      rintro rfl
      simp [Status.usable] at hst
    rw [harm] at he
    constructor
    · constructor
      case timeouts =>
        simp only [hstep, he]
        exact ⟨hcom.trans h.timeouts.1, by simp [E2e.RxState.arm, htimeout, h.timeouts.2]⟩
      case armed => simp [hstep, he, E2e.RxState.arm]
      case since => simp [hstep, he, E2e.RxState.arm, Watch.note, Label.alive, hst]
      case told => simp [hstep, hrep, Watch.note, Label.moves, hmove]
      case status => simp [hstep, Watch.note, Label.moves, hmove]
      case gate => simpa [hstep] using h.gate
    · constructor
      case loss => simp [hstep]
      case once =>
        intro hp hs
        simp only [Trace.entry_label, hstep, Label.published] at hp
        refine ⟨now, st, by simp [hstep, hp], hst, ?_⟩
        -- the verdict is the timeout only if the protection's own had run out unseen
        have hlate : w.gate.suspended = false ∧ (e.expired now).2 = true := by
          rw [hp, hverdict] at hpub
          by_contra hno
          rw [if_neg hno] at hpub
          split at hpub <;> simp [publishOf] at hpub
        have hdue := (expired_spec e now (harmed.trans h.armed)).mp hlate.2
        rw [htimedout, htimeout, hvalid, h.timeouts.2] at hdue
        exact hdue.2
      case off =>
        intro hoff
        simp only [Trace.entry_before] at hoff
        simp [hstep, Label.published, hpub, hoff]
  · cases st with
    | ok => simp [Status.usable] at hst
    | lost => simp [Status.usable] at hst
    | repeated =>
      rw [receiveEx_repeated] at he hreported hpub
      have hnone : done.2 = .none := by
        simp [hpub, publishOf]
      constructor
      · constructor
        case timeouts =>
          simp only [hstep, he]
          exact ⟨hcom.trans h.timeouts.1, by simp [htimeout, h.timeouts.2]⟩
        case armed => simp [hstep, he, harmed, h.armed]
        case since =>
          simpa [hstep, he, hvalid, htimedout, Watch.note, Label.alive, Status.usable] using hsince
        case told =>
          simp [hstep, hreported, htold, Watch.note, Label.moves, Label.published, hnone]
        case status =>
          simpa [hstep, Watch.note, Label.moves, Label.published, hnone] using h.status
        case gate => simpa [hstep] using h.gate
      · constructor
        case loss => simp [hstep]
        case once => simp [hstep, Label.published, hnone]
        case off => simp [hstep, Label.published, hnone]
    | crcError =>
      rw [receiveEx_corrupt] at he hreported hpub
      constructor
      · constructor
        case timeouts =>
          simp only [hstep, he]
          refine ⟨hcom.trans h.timeouts.1, ?_⟩
          split <;> simp [E2e.RxState.arm, htimeout, h.timeouts.2]
        case armed =>
          simp only [hstep, he]
          split <;> simp [E2e.RxState.arm, harmed, h.armed]
        case since =>
          intro hfound
          have hno := hsince (by simpa [hstep, Watch.note, Label.alive, Status.usable] using hfound)
          simp [hstep, he, hvalid, htimedout, hno, Watch.note, Label.alive, Status.usable]
        case told => simp [hstep, hreported, Watch.note, Label.moves]
        case status => simp [hstep, Watch.note, Label.moves]
        case gate => simpa [hstep] using h.gate
      · constructor
        case loss => simp [hstep]
        case once =>
          intro hp
          simp only [Trace.entry_label, hstep, Label.published, hpub, publishOf] at hp
          split at hp <;> simp at hp
        case off =>
          intro hoff
          simp only [Trace.entry_before] at hoff
          simp [hstep, Label.published, hpub, hoff]

theorem good_forged (h : Inv cfg s w) (now : UInt64) :
    Inv cfg (s.note cfg (w.step cfg (.forged now)).2) (w.step cfg (.forged now)).1 ∧
      Supervised cfg s (Trace.entry (World.step cfg) w (.forged now)) := by
  have hsince := h.since
  have he : (w.mon.rejected now w.gate.on).1.e2e =
      if w.mon.e2e.timedout then w.mon.e2e.arm now else w.mon.e2e := by
    simp [RxMonitor.rejected, E2e.RxState.receive, receiveEx_corrupt]
  constructor
  · constructor
    case timeouts =>
      simp only [World.step, he]
      refine ⟨h.timeouts.1, ?_⟩
      split <;> simp [E2e.RxState.arm, h.timeouts.2]
    case armed =>
      simp only [World.step, he]
      split <;> simp [E2e.RxState.arm, h.armed]
    case since =>
      intro hfound
      have hno := hsince (by simpa [World.step, Watch.note, Label.alive] using hfound)
      simp [World.step, he, hno, Watch.note, Label.alive]
    case told => simp [World.step, RxMonitor.rejected, Watch.note, Label.moves]
    case status => simp [World.step, Watch.note, Label.moves]
    case gate => simpa [World.step] using h.gate
  · constructor
    case loss => simp [World.step]
    case once =>
      intro hp
      simp only [Trace.entry_label, World.step, Label.published, RxMonitor.rejected] at hp
      split at hp <;> simp at hp
    case off =>
      intro hoff
      simp only [Trace.entry_before] at hoff
      simp [World.step, Label.published, RxMonitor.rejected, hoff]

@[simp] theorem published_polled (now : UInt64) (timeout : Bool) :
    (Label.polled now timeout).published = if timeout then .timeout else .none := by
  cases timeout <;> rfl

theorem note_quiet (s : Watch) : s.note cfg .quiet = s := by
  simp [Watch.note, Label.alive, Label.published, Label.moves]

theorem Supervised.of_quiet {x : Step} (hl : x.label = .quiet) : Supervised cfg s x := by
  constructor <;> simp [hl, Label.published]

theorem good_sample (h : Inv cfg s w) (rxOn awake : Bool) :
    Inv cfg (s.note cfg (w.step cfg (.sample rxOn awake)).2)
        (w.step cfg (.sample rxOn awake)).1 ∧
      Supervised cfg s (Trace.entry (World.step cfg) w (.sample rxOn awake)) := by
  have hmon : ∀ b : Bool, (if b then w.mon.silenced else w.mon).com = w.mon.com ∧
      (if b then w.mon.silenced else w.mon).e2e = w.mon.e2e ∧
      (if b then w.mon.silenced else w.mon).reported = w.mon.reported := by
    intro b
    cases b <;> simp [RxMonitor.silenced]
  refine ⟨?_, .of_quiet rfl⟩
  simp only [World.step, note_quiet]
  constructor
  case timeouts => simpa only [hmon] using h.timeouts
  case armed => simpa only [hmon] using h.armed
  case since => simpa only [hmon] using h.since
  case told => simpa only [hmon] using h.told
  case status => exact h.status
  case gate => simp [RxGate.sample]; exact fun h _ => h

theorem good_settle (h : Inv cfg s w) (now : UInt64) :
    Inv cfg (s.note cfg (w.step cfg (.settle now)).2) (w.step cfg (.settle now)).1 ∧
      Supervised cfg s (Trace.entry (World.step cfg) w (.settle now)) := by
  by_cases hback : w.gate.settle.2 = true
  · have hstep : w.step cfg (.settle now) =
        ({ mon := w.mon.restart now, gate := w.gate.settle.1 }, .restarted now) := by
      simp [World.step, hback]
    constructor
    · constructor
      case timeouts =>
        simpa [hstep, RxMonitor.restart, E2e.RxState.arm, RxState.onReceive] using h.timeouts
      case armed => simp [hstep, RxMonitor.restart, E2e.RxState.arm]
      case since => simp [hstep, RxMonitor.restart, E2e.RxState.arm, Watch.note, Label.alive]
      case told => simp [hstep, RxMonitor.restart, Watch.note, Label.moves]
      case status => simp [hstep, Watch.note, Label.moves]
      case gate => simpa [hstep, RxGate.settle] using h.gate
    · constructor <;> simp [hstep, Label.published]
  · have hstep : w.step cfg (.settle now) = ({ w with gate := w.gate.settle.1 }, .quiet) := by
      simp [World.step, hback]
    refine ⟨?_, .of_quiet (by simp [hstep])⟩
    simp only [hstep, note_quiet]
    exact { h with gate := by simpa [RxGate.settle] using h.gate }

theorem good_poll (h0 : cfg.e2eUs ≠ 0) (h : Inv cfg s w) (now : UInt64) :
    Inv cfg (s.note cfg (w.step cfg (.poll now)).2) (w.step cfg (.poll now)).1 ∧
      Supervised cfg s (Trace.entry (World.step cfg) w (.poll now)) := by
  by_cases hlive : w.gate.live = true
  · have hstep : w.step cfg (.poll now) =
        ({ w with mon := (w.mon.expire now).1 }, .polled now (w.mon.expire now).2) := by
      simp [World.step, hlive]
    have hframe := expired_frame w.mon.e2e now
    have hcom := com_expired_frame w.mon.com now
    have hdue := expired_spec w.mon.e2e now h.armed
    rw [h.timeouts.2] at hdue
    have hexpire : (w.mon.expire now).1.com = (w.mon.com.expired now).1 ∧
        (w.mon.expire now).1.e2e = (w.mon.e2e.expired now).1 ∧
        (w.mon.expire now).1.reported =
          (w.mon.reported || (w.mon.com.expired now).2 || (w.mon.e2e.expired now).2) ∧
        (w.mon.expire now).2 =
          (((w.mon.com.expired now).2 || (w.mon.e2e.expired now).2) && !w.mon.reported) := by
      simp only [RxMonitor.expire]
      cases (w.mon.com.expired now).2 <;> cases (w.mon.e2e.expired now).2 <;>
        cases w.mon.reported <;> simp
    obtain ⟨hc, he, hreported, hpub⟩ := hexpire
    have htold := h.told
    have hstatus := h.status
    constructor
    · constructor
      case timeouts => simpa [hstep, hc, he, hcom, hframe] using h.timeouts
      case armed => simpa [hstep, he, hframe] using h.armed
      case since =>
        intro hfound
        simp only [hstep, Watch.note, Bool.or_eq_false_iff, decide_eq_false_iff_not] at hfound
        obtain ⟨hvalid, hno⟩ := h.since hfound.1
        have hnot : (w.mon.e2e.expired now).2 = false := by
          rw [← Bool.not_eq_true, hdue, hvalid]
          exact fun hd => hfound.2 hd.2.2
        simp [hstep, he, hframe, hvalid, hno, hnot, Watch.note, Label.alive]
      case told =>
        simp only [hstep, hreported, Watch.note, Label.moves, published_polled, hpub, htold]
        cases (w.mon.com.expired now).2 <;> cases (w.mon.e2e.expired now).2 <;>
          cases s.told <;> simp
      case status =>
        intro ht
        simp only [hstep, Watch.note, Label.moves, published_polled] at ht ⊢
        cases hb : (w.mon.expire now).2 with
        | true => simp
        | false => simpa using hstatus (by simpa [hb] using ht)
      case gate => simpa [hstep] using h.gate
    · constructor
      case loss =>
        intro now' timeout hl hlong hfound
        simp only [Trace.entry_label, hstep, Label.polled.injEq] at hl
        obtain ⟨rfl, -⟩ := hl
        obtain ⟨hvalid, hno⟩ := h.since hfound
        have hran : (w.mon.e2e.expired now).2 = true :=
          hdue.mpr ⟨h0, hno, by rw [hvalid]; exact hlong⟩
        rw [hran, htold] at hpub
        simp only [Trace.entry_label, hstep, Watch.note, published_polled]
        cases ht : s.told with
        | true => simpa [hpub, ht] using hstatus ht
        | false => simp [hpub, ht]
      case once =>
        intro hp ht
        simp only [Trace.entry_label, hstep, published_polled, hpub, htold, ht] at hp
        simp at hp
      case off =>
        intro hoff
        -- a live gate is on
        simp only [RxGate.live, Bool.and_eq_true, Bool.not_eq_true'] at hlive
        have hon := h.gate hlive.1
        simp only [Trace.entry_before] at hoff
        simp [hoff] at hon
  · have hstep : w.step cfg (.poll now) = (w, .quiet) := by
      simp [World.step, hlive]
    refine ⟨?_, .of_quiet (by simp [hstep])⟩
    simpa only [hstep, note_quiet] using h

theorem good_step (h0 : cfg.e2eUs ≠ 0) (h : Inv cfg s w) (e : Event) :
    Inv cfg (s.note cfg (w.step cfg e).2) (w.step cfg e).1 ∧
      Supervised cfg s (Trace.entry (World.step cfg) w e) := by
  cases e with
  | sample rxOn awake => exact good_sample h rxOn awake
  | frame now data => exact good_frame h now data
  | forged now => exact good_forged h now
  | settle now => exact good_settle h now
  | poll now => exact good_poll h0 h now

end Proofs

/-- A frame with a timeout of its protection is supervised over every run. -/
theorem silence_supervised (cfg : Config) (h0 : cfg.e2eUs ≠ 0) (now : UInt64) (rxOn awake : Bool)
    (es : List Event) :
    Trace.Along (fun hist x => Supervised cfg (watch cfg now hist) x)
      (Trace.history (World.step cfg) (World.start cfg now rxOn awake) es) := by
  refine (Trace.run_along (I := fun w hist => Inv cfg (watch cfg now hist) w)
    (C := fun _ _ => True) (inv_start now rxOn awake) ?_ es fun _ _ _ _ => trivial).2
  intro es e h _
  rw [watch_snoc]
  exact good_step h0 h e

/-! ### A bench -/

/-- A deadline of 50 ms beside a timeout of 100. -/
def benchConfig : Config where
  dlc := 2
  layout := { dataId := 0, crcPos := 0, counterPos := 1 }
  comUs := 50
  e2eUs := 100

/-- A frame with its counter and its CRC. -/
def benchFrame (counter : UInt8) : ℕ → UInt8 := fun i =>
  if i = 1 then counter
  else if i = 0 then E2e.compute (fun _ => counter) 2 benchConfig.layout
  else 0

theorem silence_supervised_bench :
    Trace.Along (fun hist x => Supervised benchConfig (watch benchConfig 0 hist) x)
      (Trace.history (World.step benchConfig) (World.start benchConfig 0 true true)
        [.frame 10 (benchFrame 1), .poll 120]) ∧
      (Trace.history (World.step benchConfig) (World.start benchConfig 0 true true)
        [.frame 10 (benchFrame 1), .poll 120]).map (·.label) =
          [.judged 10 .ok .ok, .polled 120 true] :=
  ⟨silence_supervised benchConfig (by decide) 0 true true _, by decide +kernel⟩

/-- The deadline of the PDU reports the silence, and so does the frame that ends it. -/
theorem late_frame_reports_again :
    ¬Trace.Along
        (fun hist x => x.label.published = .timeout → (watch benchConfig 0 hist).told = false)
        (Trace.history (World.step benchConfig) (World.start benchConfig 0 true true)
          ([.frame 10 (benchFrame 1), .poll 70] ++ [.frame 150 (benchFrame 2)])) ∧
      (Trace.history (World.step benchConfig) (World.start benchConfig 0 true true)
          ([.frame 10 (benchFrame 1), .poll 70] ++ [.frame 150 (benchFrame 2)])).map (·.label) =
        [.judged 10 .ok .ok, .polled 70 true, .judged 150 .ok .timeout] := by
  constructor
  · intro h
    have htold := h _ _ [] (Trace.history_snoc _ _) (by decide +kernel)
    have htrue : (watch benchConfig 0 (Trace.history (World.step benchConfig)
        (World.start benchConfig 0 true true) [.frame 10 (benchFrame 1), .poll 70])).told = true := by
      decide +kernel
    rw [htrue] at htold
    contradiction
  · decide +kernel

end BloblyEmb.Com
