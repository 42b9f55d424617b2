import BloblyEmb.Com.Pass
import BloblyEmb.Fault.Snapshots

/-!
# The order of a pass

Whatever meets the passes, the log holds nothing it may not hold. The gate is current wherever a frame
is drained, since each step that can change it samples it again; a silence that a frame has to know
of has marked its monitor; and what is kept of a status was published by an awake network.
-/
namespace BloblyEmb.CommPass
open Com (RxMonitor RxGate RxPublish)
open Fault (Memory Report TestResult)
open Network (Nm)

/-! ## The monitor of a frame -/

theorem lostFrames_expired (r : E2e.RxState) (now : UInt64) :
    (r.expired now).1.lostFrames = r.lostFrames := by
  unfold E2e.RxState.expired
  split_ifs <;> rfl

theorem lostFrames_receiveEx (r : E2e.RxState) (now : UInt64) (st : E2e.Status) (s : Bool) :
    (r.receiveEx now st s).1.lostFrames = r.lostFrames := by
  unfold E2e.RxState.receiveEx
  split_ifs
  · rfl
  · exact lostFrames_expired r now
  · rfl
  · rfl
  · rfl

/-- What a checked frame leaves in its monitor. -/
theorem checked_kept (r : RxMonitor) (now : UInt64) (st : E2e.Status) (gate receiving s : Bool) :
    (r.checked now st gate receiving s).1.seen = r.e2e.lostFrames ∧
      (r.checked now st gate receiving s).1.e2e.lostFrames = r.e2e.lostFrames ∧
      (r.checked now st gate receiving s).1.quiet = (r.quiet && !(receiving && st.usable)) ∧
      (r.checked now st gate receiving s).1.hidden =
        (if r.quiet then r.hidden + (r.e2e.lostFrames - r.seen) else r.hidden) ∧
      ((r.checked now st gate receiving s).2 ≠ .none → gate = true) := by
  have hlost := lostFrames_receiveEx r.e2e now st s
  unfold RxMonitor.checked
  dsimp only
  split
  · cases gate <;> simp [hlost]
  · cases gate <;> simp [hlost]
  · cases gate <;> simp [hlost]
  · simp [hlost]

/-- In a silence the frames missed are hidden, so none is counted. -/
theorem lost_checked (r : RxMonitor) (chk : E2e.RxState) (now : UInt64) (st : E2e.Status)
    (gate receiving s : Bool) (hseen : r.seen = r.e2e.lostFrames) (hquiet : r.quiet = true) :
    ({ r with e2e := chk }.checked now st gate receiving s).1.lost = r.lost := by
  obtain ⟨-, hlost, -, hhidden, -⟩ := checked_kept { r with e2e := chk } now st gate receiving s
  dsimp only at hlost hhidden
  rw [if_pos hquiet] at hhidden
  rw [RxMonitor.lost, hlost, hhidden, hseen, RxMonitor.lost]
  grind

namespace Comm
variable {k n : ℕ} {cfg : Config k n} {c c' : Comm k n}

/-! ## What holds along the steps -/

/-- At any time. -/
structure Sound (c : Comm k n) : Prop where
  seen : ∀ i, (c.mon i).seen = (c.mon i).e2e.lostFrames
  cached : ∀ i, c.fsrc i ≠ .none → c.stale i = false
  log : ∀ x ∈ c.log, x.Good

/-- A change of reception or of the network is sampled yet. -/
structure Ready (c : Comm k n) : Prop extends Sound c where
  quiet : ∀ i, c.hushed i = true → (c.mon i).quiet = true ∨ (c.rxOn && awake c.nm) = false

/-- The silences have marked the monitors. -/
structure Kept (c : Comm k n) : Prop extends Sound c where
  quiet : ∀ i, c.hushed i = true → (c.mon i).quiet = true

/-- And the gate is what it would be sampled as. -/
structure Current (c : Comm k n) : Prop extends Kept c where
  on : c.gate.on = c.rxOn
  silent : c.gate.silent = !(c.rxOn && awake c.nm)
  marked : c.gate.silent = true → ∀ i, (c.mon i).quiet = true

/-- A step that leaves reception, the network and the monitors, and logs nothing bad. -/
structure Aside (c c' : Comm k n) : Prop where
  rxOn : c'.rxOn = c.rxOn
  gate : c'.gate = c.gate
  mon : c'.mon = c.mon
  fsrc : c'.fsrc = c.fsrc
  nm : c'.nm = c.nm
  nmSeen : c'.nmSeen = c.nmSeen
  stale : c'.stale = c.stale
  hushed : c'.hushed = c.hushed
  log : (∀ x ∈ c.log, x.Good) → ∀ x ∈ c'.log, x.Good

namespace Aside

theorem refl (c : Comm k n) : Aside c c := ⟨rfl, rfl, rfl, rfl, rfl, rfl, rfl, rfl, id⟩

theorem trans {c'' : Comm k n} (h : Aside c c') (h' : Aside c' c'') : Aside c c'' where
  rxOn := h'.rxOn.trans h.rxOn
  gate := h'.gate.trans h.gate
  mon := h'.mon.trans h.mon
  fsrc := h'.fsrc.trans h.fsrc
  nm := h'.nm.trans h.nm
  nmSeen := h'.nmSeen.trans h.nmSeen
  stale := h'.stale.trans h.stale
  hushed := h'.hushed.trans h.hushed
  log hl := h'.log (h.log hl)

theorem note {x : Item k n} (h : Aside c c') (hx : x.Good) : Aside c (c'.note x) where
  rxOn := h.rxOn
  gate := h.gate
  mon := h.mon
  fsrc := h.fsrc
  nm := h.nm
  nmSeen := h.nmSeen
  stale := h.stale
  hushed := h.hushed
  log hl y hy := by
    rcases List.mem_append.mp hy with hy | hy
    · exact h.log hl y hy
    · exact List.mem_singleton.mp hy ▸ hx

theorem sound (h : Aside c c') (hc : Sound c) : Sound c' where
  seen i := by
    rw [h.mon]
    exact hc.seen i
  cached i hi := by
    rw [h.stale]
    rw [h.fsrc] at hi
    exact hc.cached i hi
  log := h.log hc.log

theorem ready (h : Aside c c') (hc : Ready c) : Ready c' where
  toSound := h.sound hc.toSound
  quiet i hi := by
    rw [h.mon, h.rxOn, h.nm]
    rw [h.hushed] at hi
    exact hc.quiet i hi

theorem current (h : Aside c c') (hc : Current c) : Current c' where
  toSound := h.sound hc.toSound
  quiet i hi := by
    rw [h.mon]
    rw [h.hushed] at hi
    exact hc.quiet i hi
  on := by
    rw [h.gate, h.rxOn]
    exact hc.on
  silent := by
    rw [h.gate, h.rxOn, h.nm]
    exact hc.silent
  marked hs i := by
    rw [h.mon]
    rw [h.gate] at hs
    exact hc.marked hs i

/-- A loop of such steps. -/
theorem foldl {α : Type} {f : Comm k n → α → Comm k n} {P : Comm k n → Prop}
    (hstep : ∀ c x, P c → Aside c (f c x)) (hP : ∀ c c', Aside c c' → P c → P c') (l : List α)
    (c : Comm k n) (hc : P c) : Aside c (l.foldl f c) := by
  induction l generalizing c with
  | nil => exact refl c
  | cons x l ih =>
    have hx := hstep c x hc
    exact hx.trans (ih (f c x) (hP c _ hx hc))

end Aside

/-! ## The gate -/

theorem Kept.hush (h : Kept c) : Ready c.hush where
  toSound := ⟨h.seen, h.cached, h.log⟩
  quiet i hi := by
    simp only [Comm.hush, Bool.or_eq_true, Bool.not_eq_true'] at hi
    exact hi.imp (h.quiet i) id

theorem Ready.hush (h : Ready c) : Ready c.hush where
  toSound := ⟨h.seen, h.cached, h.log⟩
  quiet i hi := by
    simp only [Comm.hush, Bool.or_eq_true, Bool.not_eq_true'] at hi
    rcases hi with hi | hi
    · exact h.quiet i hi
    · exact .inr hi

theorem Kept.setRx (h : Kept c) (on : Bool) : Ready (c.setRx (some on)) := by
  have hc : Kept { c with rxOn := on } := ⟨⟨h.seen, h.cached, h.log⟩, h.quiet⟩
  exact hc.hush

theorem Kept.setNm (h : Kept c) (nm : Nm) : Ready (c.setNm nm) := by
  have hc : Kept { c with nm := nm } := ⟨⟨h.seen, h.cached, h.log⟩, h.quiet⟩
  exact hc.hush

/-- A sampling makes the gate current. -/
theorem Ready.sample (h : Ready c) : Current c.sample := by
  have hsilent : (c.gate.sample c.rxOn (awake c.nm)).silent = !(c.rxOn && awake c.nm) := by
    simp [RxGate.sample, Bool.not_and]
  unfold Comm.sample
  dsimp only
  by_cases hs : (c.gate.sample c.rxOn (awake c.nm)).silent = true
  · rw [if_pos hs]
    constructor
    · constructor
      · exact ⟨h.seen, fun i hi => absurd rfl hi, h.log⟩
      · intro i _
        rfl
    · rfl
    · exact hsilent
    · intro _ i
      rfl
  · rw [if_neg hs]
    have hlive : (c.rxOn && awake c.nm) = true := by simpa [hsilent] using hs
    constructor
    · constructor
      · exact ⟨h.seen, h.cached, h.log⟩
      · intro i hi
        rcases h.quiet i hi with hq | hq
        · exact hq
        · simp [hlive] at hq
    · rfl
    · exact hsilent
    · intro hs'
      exact absurd hs' hs

theorem Current.receiving (h : Current c) (hr : c.gate.receiving = true) :
    c.rxOn = true ∧ awake c.nm = true := by
  simpa [RxGate.receiving, h.silent] using hr

/-! ## The faults -/

theorem aside_judge (c : Comm k n) (now : UInt64) (j : Fin n) (r : TestResult) {enabled asleep : Bool}
    (h : r ≠ .notTested → enabled = true → asleep = false) :
    Aside c (c.judge now j r enabled asleep) := by
  unfold Comm.judge
  dsimp only
  split
  · rename_i hgo
    simp only [Bool.and_eq_true, bne_iff_ne] at hgo
    exact Aside.note (c := c) ⟨rfl, rfl, rfl, rfl, rfl, rfl, rfl, rfl, id⟩ (h hgo.2 hgo.1)
  · exact ⟨rfl, rfl, rfl, rfl, rfl, rfl, rfl, rfl, id⟩

/-- A publication of an awake network. -/
theorem aside_hook (now : UInt64) (i : Fin k) (status : RxPublish) (c : Comm k n) (j : Fin n)
    (hup : awake c.nm = true) : Aside c (hook cfg now i status c j) := by
  unfold Comm.hook
  split
  · exact .refl c
  · split
    · exact .refl c
    · have hj (r : TestResult) : Aside c (c.judge now j r true (!awake c.nm)) := by
        apply aside_judge
        intro _ _
        simp [hup]
      exact ⟨(hj _).rxOn, (hj _).gate, (hj _).mon, (hj _).fsrc, (hj _).nm, (hj _).nmSeen,
        (hj _).stale, (hj _).hushed, (hj _).log⟩

theorem hooks_current (h : Current c) (now : UInt64) (i : Fin k) (status : RxPublish) :
    Current (hooks cfg now i status c) := by
  unfold Comm.hooks
  split
  · rename_i hr
    obtain ⟨-, hup⟩ := h.receiving hr
    have hkept : Current { c with
        fsrc := Function.update c.fsrc i status
        stale := Function.update c.stale i (!awake c.nm) } := by
      refine ⟨⟨⟨h.seen, fun i' hi' => ?_, h.log⟩, h.quiet⟩, h.on, h.silent, h.marked⟩
      by_cases heq : i' = i
      · subst heq
        simp [hup]
      · simp only [Function.update_of_ne heq] at hi' ⊢
        exact h.cached i' hi'
    refine Aside.current (Aside.foldl (P := fun c => awake c.nm = true) ?_ ?_ _ _ hup) hkept
    · intro c j hc
      exact aside_hook now i status c j hc
    · intro c c' ha hc
      rw [ha.nm]
      exact hc
  · exact h

/-- The level of a status that an awake network left. -/
theorem aside_levelStep (now : UInt64) (c : Comm k n) (j : Fin n)
    (hc : ∀ i, c.fsrc i ≠ .none → c.stale i = false) : Aside c (levelStep cfg now c j) := by
  unfold Comm.levelStep
  split
  · exact .refl c
  · rename_i src on _
    dsimp only
    split
    · exact ⟨rfl, rfl, rfl, rfl, rfl, rfl, rfl, rfl, id⟩
    · have hoff : Aside c { c with sev := Function.update c.sev j false } :=
        ⟨rfl, rfl, rfl, rfl, rfl, rfl, rfl, rfl, id⟩
      refine hoff.trans (aside_judge _ now j _ ?_)
      intro hr _
      -- no status, no result
      apply hc src
      intro hnone
      apply hr
      cases on <;> simp [resultOf, hnone]

theorem opened_current (cfg : Config k n) (h : Ready c) (x : Input k n) : Current (c.opened cfg x) := by
  have hs := h.sample
  refine Aside.current (Aside.foldl (P := fun c => ∀ i, c.fsrc i ≠ .none → c.stale i = false)
    ?_ ?_ _ _ hs.cached) hs
  · intro c j hc
    exact aside_levelStep x.now c j hc
  · intro c c' ha hc
    rw [ha.fsrc, ha.stale]
    exact hc

theorem aside_consumeReports (reports : Fin n → Report) (c : Comm k n) :
    Aside c (c.consumeReports cfg reports) := ⟨rfl, rfl, rfl, rfl, rfl, rfl, rfl, rfl, id⟩

theorem aside_capture (c : Comm k n) (dids : List (UInt16 × List UInt8)) :
    Aside c (c.capture dids) := ⟨rfl, rfl, rfl, rfl, rfl, rfl, rfl, rfl, id⟩

/-- The memory, read for the last time before a cycle ends. -/
theorem aside_read (cfg : Config k n) (reports : Fin n → Report) (dids : List (UInt16 × List UInt8))
    (c : Comm k n) : Aside c ((c.consumeReports cfg reports).capture dids) :=
  (aside_consumeReports reports c).trans (aside_capture _ dids)

theorem aside_mem (c : Comm k n) (m : Memory n) : Aside c { c with mem := m } :=
  ⟨rfl, rfl, rfl, rfl, rfl, rfl, rfl, rfl, id⟩

theorem aside_cycleEnd (cfg : Config k n) (t : UInt64) (reports : Fin n → Report)
    (dids : List (UInt16 × List UInt8)) (c : Comm k n) :
    Aside c (if c.mem.cycleEndDue t then
      { (c.consumeReports cfg reports).capture dids with
        mem := ((c.consumeReports cfg reports).capture dids).mem.cycleEnd } else c) := by
  split
  · exact (aside_read cfg reports dids c).trans (aside_mem _ _)
  · exact .refl c

theorem aside_cycle (cfg : Config k n) (t : UInt64) (reports : Fin n → Report)
    (dids : List (UInt16 × List UInt8)) (c : Comm k n) : Aside c (c.cycle cfg t reports dids) := by
  unfold Comm.cycle
  dsimp only
  refine Aside.trans ?_ (aside_cycleEnd cfg t reports dids _)
  have hon (on : Bool) : Aside c { c with cycleOn := on } :=
    ⟨rfl, rfl, rfl, rfl, rfl, rfl, rfl, rfl, id⟩
  split
  · split
    · refine Aside.trans ?_ (aside_mem _ _)
      split
      · exact (hon (awake c.nm)).trans (aside_read cfg reports dids _)
      · exact hon (awake c.nm)
    · exact (hon (awake c.nm)).trans (aside_mem _ _)
  · exact .refl c

/-! ## The drain -/

/-- A step of frame `i`'s monitor. -/
theorem Current.monitor (h : Current c) (i : Fin k) {r : RxMonitor} (hseen : r.seen = r.e2e.lostFrames)
    (hquiet : r.quiet = (c.mon i).quiet) :
    Current { c with mon := Function.update c.mon i r } := by
  constructor
  · constructor
    · refine ⟨fun i' => ?_, h.cached, h.log⟩
      by_cases heq : i' = i
      · subst heq
        simpa using hseen
      · simpa [heq] using h.seen i'
    · intro i' hi'
      by_cases heq : i' = i
      · subst heq
        simpa [hquiet] using h.quiet i' hi'
      · simpa [heq] using h.quiet i' hi'
  · exact h.on
  · exact h.silent
  · intro hs i'
    by_cases heq : i' = i
    · subst heq
      simpa [hquiet] using h.marked hs i'
    · simpa [heq] using h.marked hs i'

theorem Current.note (h : Current c) {x : Item k n} (hx : x.Good) : Current (c.note x) :=
  ((Aside.refl c).note hx).current h

/-- Inside the drain: the gate is current, and it was sampled with the network that the drain knows. -/
structure Draining (c : Comm k n) : Prop extends Current c where
  seenNow : c.nmSeen = awake c.nm

/-- A frame is published with reception on. -/
theorem publish_current (h : Current c) (now : UInt64) (i : Fin k) {status : RxPublish}
    (hon : status ≠ .none → c.gate.on = true) : Current (publish cfg now i status c) := by
  unfold Comm.publish
  split
  · exact h
  · rename_i hsome
    refine hooks_current (h.note ?_) now i status
    exact h.on.symm.trans (hon hsome)

/-- A publication leaves the network. -/
theorem nm_publish (cfg : Config k n) (h : Current c) (now : UInt64) (i : Fin k) (status : RxPublish) :
    (publish cfg now i status c).nm = c.nm ∧ (publish cfg now i status c).nmSeen = c.nmSeen := by
  unfold Comm.publish
  split
  · exact ⟨rfl, rfl⟩
  unfold Comm.hooks
  split
  · rename_i hr
    obtain ⟨-, hup⟩ := h.receiving hr
    have ha := Aside.foldl (f := hook cfg now i status) (P := fun c => awake c.nm = true)
      (fun c j hc => aside_hook now i status c j hc)
      (fun c c' ha hc => by
        rw [ha.nm]
        exact hc)
      (List.finRange n)
      { c.note (.published i c.rxOn) with
        fsrc := Function.update c.fsrc i status
        stale := Function.update c.stale i (!awake c.nm) } hup
    exact ⟨ha.nm, ha.nmSeen⟩
  · exact ⟨rfl, rfl⟩

theorem publish_draining (h : Draining c) (now : UInt64) (i : Fin k) {status : RxPublish}
    (hon : status ≠ .none → c.gate.on = true) : Draining (publish cfg now i status c) := by
  obtain ⟨hnm, hseen⟩ := nm_publish cfg h.toCurrent now i status
  refine ⟨publish_current h.toCurrent now i hon, ?_⟩
  rw [hnm, hseen]
  exact h.seenNow

theorem onFrame_draining (h : Draining c) (now : UInt64) (i : Fin k) (data : ℕ → UInt8)
    (authentic : Bool) : Draining (onFrame cfg now i data authentic c) := by
  have hseen := h.seen i
  unfold Comm.onFrame
  dsimp only
  split
  · refine publish_draining
      ⟨h.monitor i (r := ((c.mon i).rejected now c.gate.on).1) ?_ rfl, h.seenNow⟩ now i ?_
    · exact hseen.trans (lostFrames_receiveEx (c.mon i).e2e now .crcError false).symm
    · intro hne
      show c.gate.on = true
      cases hg : c.gate.on with
      | true => rfl
      | false => simp [RxMonitor.rejected, hg] at hne
  split
  · -- a checked frame ends the silence, or is counted through it
    obtain ⟨hs, hl, hq, -, hgate⟩ := checked_kept
      { c.mon i with e2e := ((c.mon i).e2e.checkEx data (cfg.frame i).dlc (cfg.frame i).layout).1 } now
      ((c.mon i).e2e.checkEx data (cfg.frame i).dlc (cfg.frame i).layout).2 c.gate.on
      c.gate.receiving c.gate.suspended
    have hcounted (hh : c.hushed i = true) := lost_checked (c.mon i)
      ((c.mon i).e2e.checkEx data (cfg.frame i).dlc (cfg.frame i).layout).1 now
      ((c.mon i).e2e.checkEx data (cfg.frame i).dlc (cfg.frame i).layout).2 c.gate.on
      c.gate.receiving c.gate.suspended hseen (h.quiet i hh)
    generalize { c.mon i with e2e :=
        ((c.mon i).e2e.checkEx data (cfg.frame i).dlc (cfg.frame i).layout).1 }.checked now
      ((c.mon i).e2e.checkEx data (cfg.frame i).dlc (cfg.frame i).layout).2 c.gate.on
      c.gate.receiving c.gate.suspended = done at hs hl hq hgate hcounted
    generalize ((c.mon i).e2e.checkEx data (cfg.frame i).dlc (cfg.frame i).layout).2 = st at hq
    refine publish_draining (c := settled (Comm.note { c with mon := Function.update c.mon i done.1 }
      (.counted i (c.hushed i) (c.mon i).lost done.1.lost)) i st.usable) ⟨?_, h.seenNow⟩ now i hgate
    constructor
    · constructor
      · constructor
        · intro i'
          by_cases heq : i' = i
          · subst heq
            simpa [settled, Comm.note] using hs.trans hl.symm
          · simpa [settled, Comm.note, heq] using h.seen i'
        · exact h.cached
        · exact (h.note (x := .counted i (c.hushed i) (c.mon i).lost done.1.lost) hcounted).log
      · intro i' hi'
        by_cases heq : i' = i
        · subst heq
          simp only [settled, Comm.note, Function.update_self, Bool.and_eq_true, Bool.not_eq_true']
            at hi' ⊢
          rw [hq, h.quiet i' hi'.1]
          have hnot : (c.gate.receiving && st.usable) = false := by
            rw [RxGate.receiving, h.silent, Bool.not_not]
            rw [← hi'.2]
            ac_rfl
          simp [hnot]
        · simp only [settled, Comm.note, Function.update_of_ne heq] at hi' ⊢
          exact h.quiet i' hi'
    · exact h.on
    · exact h.silent
    · intro hsil i'
      by_cases heq : i' = i
      · subst heq
        simp only [settled, Comm.note, Function.update_self] at hsil ⊢
        rw [hq, h.marked hsil i', RxGate.receiving, hsil]
        rfl
      · simp only [settled, Comm.note, Function.update_of_ne heq] at hsil ⊢
        exact h.marked hsil i'
  · refine publish_draining
      ⟨h.monitor i (r := (received (c.mon i) now c.gate.on).1) ?_ ?_, h.seenNow⟩ now i ?_
    · unfold received
      split <;> exact hseen
    · unfold received
      split <;> rfl
    · intro hne
      show c.gate.on = true
      cases hg : c.gate.on with
      | true => rfl
      | false => simp [received, hg] at hne

/-! ### The network inside the drain -/

/-- The network moved, and what follows sees it. -/
theorem transition_draining (h : Current c) (hseen : c.nmSeen = awake c.nm) (nm : Nm) (t : UInt64)
    (reports : Fin n → Report) (dids : List (UInt16 × List UInt8)) :
    Draining ((c.setNm nm).transition cfg t reports dids) := by
  have hready := h.toKept.setNm nm
  unfold Comm.transition
  split
  · dsimp only
    have hs : Current ({ c.setNm nm with nmSeen := awake (c.setNm nm).nm }.sample) :=
      Ready.sample ⟨⟨hready.seen, hready.cached, hready.log⟩, hready.quiet⟩
    have hnm : ({ c.setNm nm with nmSeen := awake (c.setNm nm).nm }.sample).nmSeen =
        awake ({ c.setNm nm with nmSeen := awake (c.setNm nm).nm }.sample).nm := by
      unfold Comm.sample
      dsimp only
      split <;> rfl
    have hvoid : Current { { c.setNm nm with nmSeen := awake (c.setNm nm).nm }.sample with
        fsrc := fun _ => .none } :=
      ⟨⟨⟨hs.seen, fun i hi => absurd rfl hi, hs.log⟩, hs.quiet⟩, hs.on, hs.silent, hs.marked⟩
    have ha := aside_cycle cfg t reports dids
      { { c.setNm nm with nmSeen := awake (c.setNm nm).nm }.sample with fsrc := fun _ => .none }
    refine ⟨ha.current hvoid, ?_⟩
    rw [ha.nmSeen, ha.nm]
    exact hnm
  · -- the same state of the network as the gate was sampled with
    rename_i hsame
    have hup : awake nm = awake c.nm := by
      have : awake nm = c.nmSeen := by simpa [Comm.setNm, Comm.hush] using hsame
      exact this.trans hseen
    refine ⟨⟨⟨hready.toSound, fun i hi => ?_⟩, h.on, ?_, h.marked⟩, ?_⟩
    · rcases hready.quiet i hi with hq | hq
      · exact hq
      · have hsil : c.gate.silent = true := by
          rw [h.silent, ← hup]
          simpa [Comm.setNm, Comm.hush] using congrArg not hq
        exact h.marked hsil i
    · show c.gate.silent = !(c.rxOn && awake nm)
      rw [hup]
      exact h.silent
    · exact hseen.trans hup.symm

theorem sample_draining (h : Ready c) (hseen : c.nmSeen = awake c.nm) : Draining c.sample := by
  refine ⟨h.sample, ?_⟩
  unfold Comm.sample
  dsimp only
  split <;> exact hseen

theorem arrive_draining (h : Draining c) (now : UInt64) (dids : List (UInt16 × List UInt8))
    (a : Arrival k n) : Draining (arrive cfg now dids c a) := by
  cases a with
  | frame i data authentic => exact onFrame_draining h now i data authentic
  | service rxOn =>
    simp only [arrive]
    split
    · exact sample_draining (h.toKept.setRx rxOn) h.seenNow
    · exact h
  | nm f t reports => exact transition_draining h.toCurrent h.seenNow _ t reports dids
  | shell request t reports => exact transition_draining h.toCurrent h.seenNow _ t reports dids

theorem drain_current (cfg : Config k n) (h : Current c) (x : Input k n) :
    Current (c.drain cfg x) := by
  have hstart : Draining { c with nmSeen := awake c.nm } :=
    ⟨⟨⟨⟨h.seen, h.cached, h.log⟩, h.quiet⟩, h.on, h.silent, h.marked⟩, rfl⟩
  unfold Comm.drain
  generalize { c with nmSeen := awake c.nm } = d at hstart
  induction x.drain generalizing d with
  | nil => exact hstart.toCurrent
  | cons a arrivals ih => exact ih _ (arrive_draining hstart x.now x.dids a)

/-! ## The end of a pass -/

/-- A deadline, polled. -/
theorem expireStep_current (h : Current c) (now : UInt64) (i : Fin k) :
    Current (expireStep cfg now c i) := by
  have hkept (r : RxMonitor) : (r.expire now).1.seen = r.seen ∧
      (r.expire now).1.e2e.lostFrames = r.e2e.lostFrames ∧ (r.expire now).1.quiet = r.quiet := by
    unfold RxMonitor.expire
    dsimp only
    split
    · exact ⟨rfl, lostFrames_expired r.e2e now, rfl⟩
    · exact ⟨rfl, lostFrames_expired r.e2e now, rfl⟩
  obtain ⟨hseen, hlost, hquiet⟩ := hkept (c.mon i)
  unfold Comm.expireStep
  split
  · have hm := h.monitor i (r := ((c.mon i).expire now).1)
      (hseen.trans ((h.seen i).trans hlost.symm)) hquiet
    dsimp only
    split
    · exact hooks_current hm now i .timeout
    · exact hm
  · exact h

theorem settle_current (h : Ready c) (x : Input k n) : Current (c.settle cfg x) := by
  have hs := h.sample
  unfold Comm.settle
  generalize c.sample = d at hs
  have hrestart (r : RxMonitor) : (r.restart x.now).seen = r.seen ∧
      (r.restart x.now).e2e.lostFrames = r.e2e.lostFrames ∧ (r.restart x.now).quiet = r.quiet :=
    ⟨rfl, rfl, rfl⟩
  have hsettled : Current { d with
      gate := d.gate.settle.1
      mon := if d.gate.settle.2 then fun i => (d.mon i).restart x.now else d.mon } := by
    by_cases hback : d.gate.settle.2 = true
    · rw [if_pos hback]
      exact ⟨⟨⟨hs.seen, hs.cached, hs.log⟩, hs.quiet⟩, hs.on, hs.silent, hs.marked⟩
    · rw [if_neg hback]
      exact ⟨⟨⟨hs.seen, hs.cached, hs.log⟩, hs.quiet⟩, hs.on, hs.silent, hs.marked⟩
  dsimp only
  generalize { d with
      gate := d.gate.settle.1
      mon := if d.gate.settle.2 then fun i => (d.mon i).restart x.now else d.mon } = e at hsettled
  induction List.finRange k generalizing e with
  | nil => exact hsettled
  | cons i is ih => exact ih _ (expireStep_current hsettled x.now i)

/-- A place for a snapshot leaves what is due. -/
theorem snapDue_allocate {m m' : Memory n} {i : Fin n} {l : Fin Fault.maxEntries}
    (h : m.allocate i = some (l, m')) (j : Fin n) : (m'.slots j).snapDue = (m.slots j).snapDue := by
  have hset (m : Memory n) (i : Fin n) (e : Option (Fin Fault.maxEntries)) :
      ((m.setSlot i { m.slots i with entry := e }).slots j).snapDue = (m.slots j).snapDue := by
    by_cases heq : j = i
    · subst heq
      simp [Memory.setSlot]
    · simp [Memory.setSlot, heq]
  have hplace (m : Memory n) (took : Bool) :
      ((m.place i l took).slots j).snapDue = (m.slots j).snapDue := hset _ i _
  unfold Memory.allocate at h
  split at h
  · obtain ⟨rfl, rfl⟩ := Prod.mk.inj (Option.some.inj h)
    exact hplace m false
  · split at h
    · cases h
    · rename_i e _
      obtain ⟨rfl, rfl⟩ := Prod.mk.inj (Option.some.inj h)
      exact (hplace _ _).trans (hset m e.slot none)

/-- The snapshot of a slot is taken, or there is none to take. -/
theorem snapDue_captureSlot_self (m : Memory n) (dids : List (UInt16 × List UInt8)) (i : Fin n) :
    ((Memory.captureSlot dids m i).slots i).snapDue = false := by
  have hself : ((m.setSlot i { m.slots i with snapDue := false }).slots i).snapDue = false := by
    simp [Memory.setSlot]
  unfold Memory.captureSlot
  split
  · rename_i hdue
    simpa using hdue
  · dsimp only
    split
    · exact hself
    · split
      · exact hself
      · rename_i hplaced
        exact (snapDue_allocate hplaced i).trans hself

/-- After a capture no snapshot is due. -/
theorem snapDue_capture (m : Memory n) (dids : List (UInt16 × List UInt8)) (j : Fin n) :
    ((m.capture dids).slots j).snapDue = false :=
  Loop.foldl_finRange_apply (fun m i => (m.slots i).snapDue) (fun _ _ => false) (fun _ => True)
    (fun _ _ _ => trivial) (fun m i _ => snapDue_captureSlot_self m dids i)
    (fun m _ _ hne => Memory.snapDue_captureSlot m dids hne) m trivial j

theorem persist_current (h : Current c) (x : Input k n) : Current (c.persist x) := by
  unfold Comm.persist
  dsimp only
  refine Aside.current (Aside.note (c := c) ⟨rfl, rfl, rfl, rfl, rfl, rfl, rfl, rfl, id⟩ ?_) h
  simp [Item.Good, Comm.capture, snapDue_capture]

/-! ## Passes -/

theorem pass_current (h : Kept c) (x : Input k n) : Current (pass cfg c x) := by
  have hhousekeep : Ready (c.housekeep x) := by
    unfold Comm.housekeep
    cases x.housekeep with
    | none => exact h.hush
    | some on => exact (h.setRx on).hush
  have hopened := opened_current cfg hhousekeep x
  have hreports : Current (((c.housekeep x).opened cfg x).reports cfg x) :=
    ((aside_consumeReports x.reports _).trans (aside_capture _ x.dids)).current hopened
  have hremote : Current ((((c.housekeep x).opened cfg x).reports cfg x).remote x) := by
    unfold Comm.remote
    split
    · exact hreports
    · exact (hreports.toKept.setRx _).sample
  have hdrain := drain_current cfg hremote x
  have htick := hdrain.toKept.setNm (produce x.t1 x.txSlots
    ((((((c.housekeep x).opened cfg x).reports cfg x).remote x).drain cfg x).nm.hold x.t1 x.hold))
  have hcycle := (aside_cycle cfg x.t1 x.late x.dids _).ready htick
  exact persist_current (settle_current hcycle x) x

/-- Nothing was published, judged or counted before the thread's start. -/
theorem kept_boot (cfg : Config k n) (now : UInt64) (rxOn : Bool) (nm : Nm) (mem : Memory n)
    (store : Fault.Store) (deb : Fin n → Fault.Debounce) :
    Kept (boot cfg now rxOn nm mem store deb) where
  seen _ := rfl
  cached _ hi := absurd rfl hi
  log _ hx := nomatch hx
  quiet _ hi := nomatch hi

theorem kept_passes (h : Kept c) (xs : List (Input k n)) : Kept (passes cfg c xs) := by
  unfold Comm.passes
  induction xs generalizing c with
  | nil => exact h
  | cons x xs ih => exact ih (pass_current h x).toKept

end Comm

/-- What the steps of every pass so far did was in order. -/
def Comm.Ordered {k n : ℕ} (c : Comm k n) : Prop := ∀ x ∈ c.log, x.Good

/-- Whatever meets the passes of the comm thread: a frame is published with reception on only, a result
is judged with the network awake only, a frame checked after a silence counts none as lost, and the
journal is written with no snapshot due. -/
theorem passes_ordered {k n : ℕ} (cfg : Config k n) (now : UInt64) (rxOn : Bool) (nm : Nm)
    (mem : Memory n) (store : Fault.Store) (deb : Fin n → Fault.Debounce) (xs : List (Input k n)) :
    (Comm.passes cfg (Comm.boot cfg now rxOn nm mem store deb) xs).Ordered :=
  (Comm.kept_passes (Comm.kept_boot cfg now rxOn nm mem store deb) xs).log

end BloblyEmb.CommPass
