import BloblyEmb.Lib.Stamp
import Mathlib.Data.List.GetD
import Mathlib.Logic.Function.Basic

/-!
# Network management of a node

A node that needs the bus transmits a message on a cycle, hearing any message keeps it awake, and
when traffic stops it heads to sleep by way of a grace time (`comm/nm`).
-/
namespace BloblyEmb.Network

inductive State where
  | busSleep
  | repeatMessage
  | normalOperation
  | readySleep
  | prepareBusSleep
deriving DecidableEq

structure Timings where
  msgCycleUs : UInt64
  timeoutUs : UInt64
  repeatUs : UInt64
  waitSleepUs : UInt64

def maxNmNodes : ℕ := 32

/-- The state machine, and per remote node its latest request of partial networks. -/
structure Nm where
  cfg : Timings
  state : State := .busSleep
  requested : Bool := false
  held : Bool := false
  activeWoke : Bool := false
  pnNid : ℕ → UInt8 := fun _ => 0
  pnMask : ℕ → UInt64 := fun _ => 0
  pnSeen : ℕ → UInt64 := fun _ => 0
  txArmed : Bool := false
  lastTxUs : UInt64 := 0
  lastActivityUs : UInt64 := 0
  stateSinceUs : UInt64 := 0

/-! ## Control bits -/

def cbvRepeatMsgRequest : UInt8 := 0x01
def cbvReadyToSleep : UInt8 := 0x08
def cbvActiveWakeup : UInt8 := 0x10
def cbvPnInfo : UInt8 := 0x40

structure Frame where
  nid : UInt8
  cbv : UInt8
  pn : UInt64

namespace Nm

def enter (n : Nm) (s : State) (now : UInt64) : Nm :=
  { n with
    state := s
    stateSinceUs := now
    txArmed := s == .repeatMessage || s == .normalOperation
    activeWoke := if s = .busSleep then false else n.activeWoke
    pnNid := if s = .busSleep then fun _ => 0 else n.pnNid
    pnMask := if s = .busSleep then fun _ => 0 else n.pnMask
    pnSeen := if s = .busSleep then fun _ => 0 else n.pnSeen }

/-- Somebody on this node needs the bus. -/
def wanted (n : Nm) : Bool := n.requested || n.held

def wakeForRequest (n : Nm) (now : UInt64) : Nm :=
  match n.state with
  | .busSleep | .prepareBusSleep => { n with activeWoke := true }.enter .repeatMessage now
  | .readySleep => n.enter .normalOperation now
  | _ => n

def request (n : Nm) (now : UInt64) : Nm := { n with requested := true }.wakeForRequest now

def hold (n : Nm) (now : UInt64) (on : Bool) : Nm :=
  if on && !n.held then { n with held := true }.wakeForRequest now
  else if !on then { n with held := false }
  else n

def release (n : Nm) : Nm := { n with requested := false }

def onRx (n : Nm) (now : UInt64) : Nm :=
  let n := { n with lastActivityUs := now }
  if n.state = .busSleep ∨ n.state = .prepareBusSleep then
    { n with activeWoke := false }.enter .repeatMessage now
  else n

/-- The slot of a node in the table: its own, or else the first free one. -/
def pnSlot (n : Nm) (nid : UInt8) : Option ℕ :=
  ((List.range maxNmNodes).find? fun i => n.pnNid i == nid).or
    ((List.range maxNmNodes).find? fun i => n.pnNid i == 0)

def setPn (n : Nm) (nid : UInt8) (mask now : UInt64) : Nm :=
  if nid = 0 then n
  else
    match n.pnSlot nid with
    | none => n
    | some i =>
      { n with
        pnNid := Function.update n.pnNid i nid
        pnMask := Function.update n.pnMask i mask
        pnSeen := Function.update n.pnSeen i now }

def onFrame (n : Nm) (now : UInt64) (f : Frame) : Nm :=
  let n := (n.onRx now).setPn f.nid (if f.cbv &&& cbvPnInfo ≠ 0 then f.pn else 0) now
  if f.cbv &&& cbvRepeatMsgRequest ≠ 0 ∧ n.state ≠ .repeatMessage then n.enter .repeatMessage now
  else n

def buildFrame (n : Nm) (nodeId : UInt8) (pnLocal : UInt64) : Frame where
  nid := nodeId
  cbv :=
    (if n.activeWoke then
      if n.state = .repeatMessage then cbvActiveWakeup ||| cbvRepeatMsgRequest else cbvActiveWakeup
      else 0) |||
    (if !n.wanted then cbvReadyToSleep else 0) ||| (if pnLocal ≠ 0 then cbvPnInfo else 0)
  pn := pnLocal

def txDue (n : Nm) (now : UInt64) : Bool :=
  n.txArmed || decide (n.cfg.msgCycleUs ≤ now - n.lastTxUs)

/-- The transitions of a tick, and whether it transmits. -/
def advance (n : Nm) (now : UInt64) : Nm × Bool :=
  match n.state with
  | .repeatMessage =>
    let tx := n.txDue now
    if n.cfg.repeatUs ≤ now - n.stateSinceUs then
      (n.enter (if n.wanted then .normalOperation else .readySleep) now, tx)
    else (n, tx)
  | .normalOperation =>
    let tx := n.txDue now
    if !n.wanted then (n.enter .readySleep now, tx) else (n, tx)
  | .readySleep =>
    if n.wanted then (n.enter .normalOperation now, false)
    else if n.cfg.timeoutUs ≤ now - n.lastActivityUs then (n.enter .prepareBusSleep now, false)
    else (n, false)
  | .prepareBusSleep =>
    if n.wanted then (n.enter .repeatMessage now, false)
    else if n.cfg.waitSleepUs ≤ now - n.stateSinceUs then (n.enter .busSleep now, false)
    else (n, false)
  | .busSleep => (n, false)

def tick (n : Nm) (now : UInt64) : Nm × Bool :=
  let (n, tx) := n.advance now
  if tx then ({ n with txArmed := false, lastTxUs := now, lastActivityUs := now }, true)
  else (n, false)

end Nm

/-! ## What each call does -/

/-- The states in which a node transmits. -/
def State.Active (s : State) : Prop := s = .repeatMessage ∨ s = .normalOperation

/-- What holds of a node at any time. -/
structure Sound (n : Nm) (clock : UInt64) : Prop where
  /-- Whoever wants the network is in a state that transmits. -/
  wanted : n.wanted = true → n.state.Active
  tx : n.lastTxUs ≤ clock
  activity : n.lastActivityUs ≤ clock
  /-- A node on the way to sleep has heard nothing for the timeout. -/
  quiet : n.state = .prepareBusSleep → n.lastActivityUs.toNat + n.cfg.timeoutUs.toNat ≤ clock.toNat

/-- What a call other than a tick leaves of a node: it falls into no sleep, and what it transmits on
entry is still to come. -/
structure Kept (n n' : Nm) : Prop where
  cfg : n'.cfg = n.cfg
  lastTx : n'.lastTxUs = n.lastTxUs
  activity : n.lastActivityUs ≤ n'.lastActivityUs
  armed : n'.state.Active → n'.txArmed = false → n.state.Active ∧ n.txArmed = false
  asleep : n'.state = .prepareBusSleep ∨ n'.state = .busSleep → n'.state = n.state

section Calls

variable {n : Nm} {clock now : UInt64}

theorem active_iff (s : State) :
    s.Active ↔ s ≠ .busSleep ∧ s ≠ .readySleep ∧ s ≠ .prepareBusSleep := by
  cases s <;> simp [State.Active]

theorem Sound.later (h : Sound n clock) (hle : clock ≤ now) : Sound n now where
  wanted := h.wanted
  tx := UInt64.le_trans h.tx hle
  activity := UInt64.le_trans h.activity hle
  quiet := fun hstate => Nat.le_trans (h.quiet hstate) (UInt64.le_iff_toNat_le.mp hle)

theorem Kept.refl (n : Nm) : Kept n n :=
  ⟨rfl, rfl, UInt64.le_refl _, And.intro, fun _ => rfl⟩

theorem Kept.trans {n' n'' : Nm} (h : Kept n n') (h' : Kept n' n'') : Kept n n'' where
  cfg := h'.cfg.trans h.cfg
  lastTx := h'.lastTx.trans h.lastTx
  activity := UInt64.le_trans h.activity h'.activity
  armed := by
    intro hactive harmed
    obtain ⟨hactive', harmed'⟩ := h'.armed hactive harmed
    exact h.armed hactive' harmed'
  asleep := by
    intro hasleep
    have heq := h'.asleep hasleep
    rw [heq] at hasleep ⊢
    exact h.asleep hasleep

theorem kept_enter {s : State} (hs : s.Active) : Kept n (n.enter s now) where
  cfg := rfl
  lastTx := rfl
  activity := UInt64.le_refl _
  armed := by
    intro _ harmed
    rcases hs with rfl | rfl <;> simp [Nm.enter] at harmed
  asleep := by
    intro hasleep
    have hactive := (active_iff s).mp hs
    simp [Nm.enter, hactive] at hasleep

theorem sound_enter (h : Sound n clock) {s : State} (hs : s.Active) :
    Sound (n.enter s now) clock where
  wanted := fun _ => hs
  tx := h.tx
  activity := h.activity
  quiet := fun hstate => absurd hstate ((active_iff s).mp hs).2.2

/-- A change of the wishes and of what nobody here reads. -/
theorem kept_flags {r held woke : Bool} {nid : ℕ → UInt8} {mask seen : ℕ → UInt64} :
    Kept n { n with requested := r, held := held, activeWoke := woke, pnNid := nid, pnMask := mask,
                    pnSeen := seen } :=
  ⟨rfl, rfl, UInt64.le_refl _, And.intro, fun _ => rfl⟩

theorem wakeForRequest_spec (n : Nm) (now : UInt64) (htx : n.lastTxUs ≤ clock)
    (hact : n.lastActivityUs ≤ clock) :
    Kept n (n.wakeForRequest now) ∧ Sound (n.wakeForRequest now) clock ∧
      (n.wakeForRequest now).wanted = n.wanted := by
  have hwake : ∀ (m : Nm) (s : State), s.Active → m.lastTxUs = n.lastTxUs →
      m.lastActivityUs = n.lastActivityUs → Sound (m.enter s now) clock := by
    intro m s hs hmtx hmact
    refine ⟨fun _ => hs, ?_, ?_, fun hstate => absurd hstate ((active_iff s).mp hs).2.2⟩
    · simpa [Nm.enter, hmtx] using htx
    · simpa [Nm.enter, hmact] using hact
  unfold Nm.wakeForRequest
  split
  · exact ⟨kept_flags.trans (kept_enter (.inl rfl)), hwake _ _ (.inl rfl) rfl rfl, rfl⟩
  · exact ⟨kept_flags.trans (kept_enter (.inl rfl)), hwake _ _ (.inl rfl) rfl rfl, rfl⟩
  · exact ⟨kept_enter (.inr rfl), hwake _ _ (.inr rfl) rfl rfl, rfl⟩
  · next hsleep hprepare hready =>
    have hactive : n.state.Active := (active_iff _).mpr ⟨hsleep, hready, hprepare⟩
    exact ⟨Kept.refl n, ⟨fun _ => hactive, htx, hact, fun hstate => absurd hstate hprepare⟩, rfl⟩

theorem request_spec (h : Sound n now) :
    Kept n (n.request now) ∧ Sound (n.request now) now := by
  obtain ⟨hkept, hsound, -⟩ := wakeForRequest_spec { n with requested := true } now h.tx h.activity
  exact ⟨kept_flags.trans hkept, hsound⟩

theorem release_spec (h : Sound n now) : Kept n n.release ∧ Sound n.release now := by
  refine ⟨kept_flags, ?_, h.tx, h.activity, h.quiet⟩
  intro hwanted
  apply h.wanted
  simp only [Nm.wanted, Nm.release, Bool.false_or] at hwanted ⊢
  rw [hwanted, Bool.or_true]

theorem hold_spec (h : Sound n now) (on : Bool) :
    Kept n (n.hold now on) ∧ Sound (n.hold now on) now := by
  unfold Nm.hold
  split
  · obtain ⟨hkept, hsound, -⟩ := wakeForRequest_spec { n with held := true } now h.tx h.activity
    exact ⟨kept_flags.trans hkept, hsound⟩
  · split
    · refine ⟨kept_flags, ?_, h.tx, h.activity, h.quiet⟩
      intro hwanted
      apply h.wanted
      simp only [Nm.wanted, Bool.or_false] at hwanted ⊢
      rw [hwanted, Bool.true_or]
    · exact ⟨Kept.refl n, h⟩

theorem onRx_spec (h : Sound n now) :
    Kept n (n.onRx now) ∧ Sound (n.onRx now) now ∧ (n.onRx now).lastActivityUs = now := by
  have hkept : Kept n { n with lastActivityUs := now } :=
    ⟨rfl, rfl, h.activity, And.intro, fun _ => rfl⟩
  unfold Nm.onRx
  simp only
  split
  · refine ⟨(hkept.trans kept_flags).trans (kept_enter (.inl rfl)), ?_, rfl⟩
    exact ⟨fun _ => .inl rfl, h.tx, UInt64.le_refl _, by simp [Nm.enter]⟩
  · next hnot =>
    refine ⟨hkept, ⟨h.wanted, h.tx, UInt64.le_refl _, ?_⟩, rfl⟩
    intro hstate
    exact absurd (.inr hstate) hnot

theorem setPn_frame (now : UInt64) (n : Nm) (nid : UInt8) (mask : UInt64) :
    Kept n (n.setPn nid mask now) ∧ (n.setPn nid mask now).wanted = n.wanted ∧
      (n.setPn nid mask now).state = n.state ∧
      (n.setPn nid mask now).lastActivityUs = n.lastActivityUs := by
  unfold Nm.setPn
  split
  · exact ⟨Kept.refl n, rfl, rfl, rfl⟩
  · split
    · exact ⟨Kept.refl n, rfl, rfl, rfl⟩
    · exact ⟨kept_flags, rfl, rfl, rfl⟩

theorem onFrame_spec (h : Sound n now) (f : Frame) :
    Kept n (n.onFrame now f) ∧ Sound (n.onFrame now f) now ∧
      (n.onFrame now f).lastActivityUs = now := by
  obtain ⟨hkept, hsound, hact⟩ := onRx_spec h
  unfold Nm.onFrame
  generalize (if f.cbv &&& cbvPnInfo ≠ 0 then f.pn else 0) = mask
  obtain ⟨hkept', hwanted, hstate, hact'⟩ := setPn_frame now (n.onRx now) f.nid mask
  have hsound' : Sound ((n.onRx now).setPn f.nid mask now) now := by
    refine ⟨?_, ?_, ?_, ?_⟩
    · rw [hwanted, hstate]
      exact hsound.wanted
    · rw [hkept'.lastTx]
      exact hsound.tx
    · rw [hact']
      exact hsound.activity
    · rw [hstate, hact', hkept'.cfg]
      exact hsound.quiet
  simp only
  split
  · exact ⟨(hkept.trans hkept').trans (kept_enter (.inl rfl)), sound_enter hsound' (.inl rfl),
      hact'.trans hact⟩
  · exact ⟨hkept.trans hkept', hsound', hact'.trans hact⟩

/-- What a tick does. -/
structure Ticks (n n' : Nm) (tx : Bool) (now : UInt64) : Prop where
  cfg : n'.cfg = n.cfg
  sound : Sound n' now
  wanted : n'.wanted = n.wanted
  activity : n.lastActivityUs ≤ n'.lastActivityUs
  sent : tx = true → n'.lastTxUs = now
  silent : tx = false → n'.lastTxUs = n.lastTxUs
  /-- An active node has transmitted within its cycle. -/
  due : n.state.Active → tx = false →
    n.txArmed = false ∧ now.toNat < n.lastTxUs.toNat + n.cfg.msgCycleUs.toNat
  armed : n'.state.Active → n'.txArmed = false → tx = true ∨ n.state.Active ∧ n.txArmed = false
  /-- A node falls asleep only when it has heard nothing for the timeout. -/
  asleep : n'.state ≠ n.state → n'.state = .prepareBusSleep ∨ n'.state = .busSleep →
    n.lastActivityUs.toNat + n.cfg.timeoutUs.toNat ≤ now.toNat

/-- The transitions, before the transmission is recorded. -/
structure Advances (n n' : Nm) (tx : Bool) (now : UInt64) : Prop where
  cfg : n'.cfg = n.cfg
  lastTx : n'.lastTxUs = n.lastTxUs
  activity : n'.lastActivityUs = n.lastActivityUs
  requests : n'.wanted = n.wanted
  wanted : n.wanted = true → n'.state.Active
  due : n.state.Active → tx = n.txDue now
  awake : tx = true → n'.state ≠ .prepareBusSleep ∧ n'.state ≠ .busSleep
  armed : n'.state.Active → n'.txArmed = false → n.state.Active ∧ n.txArmed = false
  asleep : n'.state ≠ n.state → n'.state = .prepareBusSleep ∨ n'.state = .busSleep →
    n.lastActivityUs.toNat + n.cfg.timeoutUs.toNat ≤ now.toNat

theorem advances_stay {tx : Bool} (hw : n.wanted = true → n.state.Active)
    (hdue : n.state.Active → tx = n.txDue now)
    (htx : tx = true → n.state ≠ .prepareBusSleep ∧ n.state ≠ .busSleep) : Advances n n tx now :=
  ⟨rfl, rfl, rfl, rfl, hw, hdue, htx, And.intro, fun hne => absurd rfl hne⟩

theorem advances_enter {s : State} {tx : Bool} (hw : n.wanted = true → s.Active)
    (hdue : n.state.Active → tx = n.txDue now)
    (htx : tx = true → s ≠ .prepareBusSleep ∧ s ≠ .busSleep)
    (hquiet : s = .prepareBusSleep ∨ s = .busSleep →
      n.lastActivityUs.toNat + n.cfg.timeoutUs.toNat ≤ now.toNat) :
    Advances n (n.enter s now) tx now := by
  refine ⟨rfl, rfl, rfl, rfl, hw, hdue, htx, ?_, fun _ => hquiet⟩
  intro hactive harmed
  rcases hactive with hs | hs <;> simp [Nm.enter, show s = _ from hs] at harmed

theorem advance_spec (h : Sound n now) :
    Advances n (n.advance now).1 (n.advance now).2 now := by
  have hwanted := h.wanted
  unfold Nm.advance
  cases hstate : n.state with
  | repeatMessage =>
    simp only
    split
    · cases hw : n.wanted with
      | true => exact advances_enter (fun _ => .inr rfl) (fun _ => rfl) (by simp) (by simp)
      | false => exact advances_enter (by simp [hw]) (fun _ => rfl) (by simp) (by simp)
    · exact advances_stay hwanted (fun _ => rfl) (by simp [hstate])
  | normalOperation =>
    simp only
    split
    · next hw =>
      have hfree : n.wanted = false := by simpa using hw
      exact advances_enter (by simp [hfree]) (fun _ => rfl) (by simp) (by simp)
    · exact advances_stay hwanted (fun _ => rfl) (by simp [hstate])
  | readySleep =>
    have hidle : ¬n.state.Active := by simp [active_iff, hstate]
    simp only
    split
    · next hw => exact absurd (hwanted hw) hidle
    · split
      · next hw hquiet =>
        refine advances_enter (fun hw' => absurd hw' hw) (fun hactive => absurd hactive hidle)
          (by simp) fun _ => ?_
        exact (Stamp.le_elapsed_iff h.activity).mp hquiet
      · exact advances_stay hwanted (fun hactive => absurd hactive hidle) (by simp)
  | prepareBusSleep =>
    have hidle : ¬n.state.Active := by simp [active_iff, hstate]
    simp only
    split
    · next hw => exact absurd (hwanted hw) hidle
    · split
      · next hw _ =>
        exact advances_enter (fun hw' => absurd hw' hw) (fun hactive => absurd hactive hidle)
          (by simp) fun _ => h.quiet hstate
      · exact advances_stay hwanted (fun hactive => absurd hactive hidle) (by simp)
  | busSleep =>
    have hidle : ¬n.state.Active := by simp [active_iff, hstate]
    exact advances_stay hwanted (fun hactive => absurd hactive hidle) (by simp)

theorem Advances.sound {n' : Nm} {tx : Bool} (ha : Advances n n' tx now) (h : Sound n now) :
    Sound n' now where
  wanted := by
    rw [ha.requests]
    exact ha.wanted
  tx := by
    rw [ha.lastTx]
    exact h.tx
  activity := by
    rw [ha.activity]
    exact h.activity
  quiet := by
    intro hstate
    rw [ha.activity, ha.cfg]
    by_cases hsame : n'.state = n.state
    · exact h.quiet (hsame ▸ hstate)
    · exact ha.asleep hsame (.inl hstate)

theorem tick_spec (h : Sound n now) : Ticks n (n.tick now).1 (n.tick now).2 now := by
  have ha := advance_spec h
  have hsound := ha.sound h
  cases htx : (n.advance now).2 with
  | true =>
    have htick : n.tick now = ({ (n.advance now).1 with
        txArmed := false, lastTxUs := now, lastActivityUs := now }, true) := by
      simp [Nm.tick, htx]
    rw [htick]
    have hawake := ha.awake htx
    constructor
    case cfg => exact ha.cfg
    case sound =>
      exact ⟨hsound.wanted, UInt64.le_refl _, UInt64.le_refl _,
        fun hstate => absurd hstate hawake.1⟩
    case wanted => exact ha.requests
    case activity => exact h.activity
    case sent => exact fun _ => rfl
    case silent => simp
    case due => simp
    case armed => exact fun _ _ => .inl rfl
    case asleep =>
      rintro - (hstate | hstate)
      · exact absurd hstate hawake.1
      · exact absurd hstate hawake.2
  | false =>
    have htick : n.tick now = ((n.advance now).1, false) := by simp [Nm.tick, htx]
    rw [htick]
    constructor
    case cfg => exact ha.cfg
    case sound => exact hsound
    case wanted => exact ha.requests
    case activity =>
      rw [ha.activity]
      exact UInt64.le_refl _
    case sent => simp
    case silent => exact fun _ => ha.lastTx
    case due =>
      intro hactive _
      have hnot := ha.due hactive
      rw [htx, Nm.txDue, eq_comm, Bool.or_eq_false_iff, decide_eq_false_iff_not,
        Stamp.le_elapsed_iff h.tx] at hnot
      exact ⟨hnot.1, Nat.not_le.mp hnot.2⟩
    case armed => exact fun hactive harmed => .inr (ha.armed hactive harmed)
    case asleep => exact ha.asleep

end Calls

end BloblyEmb.Network
