import BloblyEmb.Fault.Producer

/-!
# The protocol of reports

One step of the code is one step of the track, for each fault: the wrapped generations are told
apart as the epochs are, because a producer that leaves too many of them unread stops new ones, and
the wrapped counters add what the unbounded ones do.
-/
namespace BloblyEmb.Fault

namespace Sim
variable {s : Slot} {p : Producer} {off active : Bool} {a : Track}

/-! ## The producer -/

theorem apply (h : Sim s p off active a) :
    Sim s { p with deb := p.deb.apply p.control.gen p.control.held } off active a.apply := by
  have hgen : p.control.gen = p.deb.rep.gen ↔ a.control.1 = a.tally.epoch := by
    have h₁ := h.order.tally
    have h₂ := h.order.control
    have h₃ := h.order.silent
    have h₄ := h.order.seen
    have h₅ := h.order.later.epoch
    simp only [silence] at h₃
    rw [h.control, h.tally.gen, eq_comm, ofNat_inj h₁ (by omega), eq_comm]
  have ho := h.order.apply
  simp only [Debounce.apply, Track.apply] at ho ⊢
  by_cases he : a.control.1 = a.tally.epoch
  · rw [if_pos (hgen.mpr he), if_pos he]
    exact h
  · rw [if_neg he] at ho
    rw [if_neg (fun hg => he (hgen.mp hg)), if_neg he]
    refine { h with deb := ?_, tally := ?_, order := ho }
    · rw [h.deb]
    · rw [h.control]
      exact ⟨rfl, rfl, rfl, rfl⟩

theorem wraps_fail {d : Debounce} {t : Tally} (h : Wraps d.rep t) : Wraps d.fail.rep t.fail where
  gen := h.gen
  failed := rfl
  fails := by
    simp only [Debounce.fail, Tally.fail, h.failed, h.fails]
    split
    · rfl
    · exact succ_ofNat _
  tests := by
    simp only [Debounce.fail, Tally.fail, h.tests]
    exact succ_ofNat _

theorem wraps_pass {d : Debounce} {t : Tally} (h : Wraps d.rep t) : Wraps d.pass.rep t.pass where
  gen := h.gen
  failed := rfl
  fails := h.fails
  tests := by
    simp only [Debounce.pass, Tally.pass, h.tests]
    exact succ_ofNat _

theorem result (h : Sim s p off active a) (r : TestResult) (now : UInt64) (enabled : Bool) :
    Sim s { p with deb := p.deb.step r now enabled } off active (a.result r now enabled) := by
  have ho := h.order.result r now enabled
  simp only [Debounce.step, Track.result] at ho ⊢
  by_cases hgap : ¬enabled = true ∨ r = .notTested
  · rw [if_pos hgap] at ho
    rw [if_pos hgap, if_pos hgap]
    refine { h with deb := ?_, order := ho }
    rw [h.deb]
  · rw [if_neg hgap] at ho
    rw [if_neg hgap, if_neg hgap]
    have hj : a.deb.judge r now =
        ({ (p.deb.judge r now).1 with rep := .zero }, (p.deb.judge r now).2) := by
      rw [h.deb, Debounce.judge_rep]
    have hw : Wraps (p.deb.judge r now).1.rep a.tally := by
      rw [Debounce.rep_judge]
      exact h.tally
    simp only [hj] at ho ⊢
    -- the same threshold is reached on both sides
    by_cases hf : (p.deb.judge r now).2.1 = true
    · simp only [hf, if_true] at ho ⊢
      have := wraps_fail hw
      exact { h with deb := rfl, tally := ⟨this.gen, this.failed, this.fails, this.tests⟩, order := ho }
    · by_cases hp : (p.deb.judge r now).2.2 = true
      · simp only [hf, hp, if_true] at ho ⊢
        have := wraps_pass hw
        exact { h with
          deb := rfl, tally := ⟨this.gen, this.failed, this.fails, this.tests⟩, order := ho }
      · simp only [hf, hp] at ho ⊢
        exact { h with deb := rfl, tally := ⟨hw.gen, hw.failed, hw.fails, hw.tests⟩, order := ho }

theorem publish (h : Sim s p off active a) :
    Sim s { p with report := p.deb.rep } off active { a with report := a.tally } :=
  { h with report := h.tally, order := h.order.publish }

theorem publishControl (h : Sim s p off active a) :
    Sim s { p with control := ⟨s.gen, s.held⟩ } off active
      { a with control := (a.epoch, a.held) } where
  __ := h
  control := by rw [h.gen, h.held]
  order := h.order.step .control (by simp)

/-! ## The owner -/

/-- A fresh generation is there when a fresh epoch is. -/
theorem canRenew_iff (h : Sim s p off active a) :
    s.canRenew ↔ Track.Fresh (some silence) a := by
  have h₁ := h.order.silent
  have h₂ := h.order.seen
  have h₃ := h.order.later.epoch
  have h₄ := h.order.tally
  have h₅ := h.order.control
  rw [Track.fresh_some, Slot.canRenew, h.gen, h.seenGen, UInt16.lt_iff_toNat_lt,
    toNat_sub (by omega) (by simp only [silence] at h₁; omega)]
  rfl

/-- What no step of the protocol looks at may change. -/
structure Steady (s s' : Slot) : Prop where
  gen : s'.gen = s.gen
  seenGen : s'.seenGen = s.seenGen
  held : s'.held = s.held
  waitGen : s'.waitGen = s.waitGen
  baseSeen : s'.baseSeen = s.baseSeen
  baseFails : s'.baseFails = s.baseFails
  baseTests : s'.baseTests = s.baseTests
  occurrence : s'.occurrence = s.occurrence
  testFailed : Has s'.status Fault.testFailed ↔ Has s.status Fault.testFailed
  failedSince : Has s'.status failedSinceClear ↔ Has s.status failedSinceClear

theorem steady (h : Sim s p off active a) {s' : Slot} (hs : Steady s s') :
    Sim s' p off active a where
  __ := h
  gen := hs.gen.trans h.gen
  seenGen := hs.seenGen.trans h.seenGen
  held := hs.held.trans h.held
  waiting := hs.waitGen.trans h.waiting
  base := by
    have := h.base
    rw [hs.baseSeen, hs.baseFails, hs.baseTests]
    exact this
  occurrences := hs.occurrence.trans h.occurrences
  testFailed := hs.testFailed.trans h.testFailed
  failedSince := hs.failedSince.trans h.failedSince

theorem cycle (h : Sim s p off active a) (isOpen : Bool) :
    Sim s p off isOpen { a with cycleOpen := isOpen } :=
  { h with active := rfl, order := h.order.step (.cycle isOpen) (by simp) }

/-- A new epoch begins on both sides. -/
theorem renew (h : Sim s p off active a) (hf : Track.Fresh (some silence) a) (held : Bool) :
    Sim ({ s with waitGen := false }.renew held) p off active (a.begin held) where
  __ := h
  gen := by
    simp only [Slot.renew, Track.begin, h.gen]
    exact succ_ofNat _
  held := rfl
  waiting := rfl
  base := rfl
  order := h.order.begin (Track.fresh_some.mp hf) held

theorem decide_testFailed (h : Sim s p off active a) :
    decide (Has s.status Fault.testFailed) = a.testFailed := by
  rw [Bool.eq_iff_iff, decide_eq_true_iff]
  exact h.testFailed

theorem restart_testFailed (b : UInt8) :
    Has (Memory.restartBits b) Fault.testFailed ↔ Has b Fault.testFailed := by
  revert b
  decide +kernel

theorem switchOn (h : Sim s p off active a) (boundary : Bool) :
    Sim (Memory.switchOn s boundary) p off active
      (if a.Fresh (some silence) then a.begin a.testFailed else { a with waiting := true }) := by
  have hgen : Sim (if s.canRenew then
      { s with waitGen := false }.renew (decide (Has s.status Fault.testFailed))
      else { s with waitGen := true }) p off active
      (if a.Fresh (some silence) then a.begin a.testFailed else { a with waiting := true }) := by
    by_cases hf : a.Fresh (some silence)
    · rw [if_pos (h.canRenew_iff.mpr hf), if_pos hf, h.decide_testFailed]
      exact h.renew hf _
    · rw [if_neg (fun hc => hf (h.canRenew_iff.mp hc)), if_neg hf]
      refine { h with waiting := rfl, order := { h.order with fed := ?_, fedTally := ?_ } } <;> simp
  simp only [Memory.switchOn]
  split
  · exact hgen.steady
      ⟨rfl, rfl, rfl, rfl, rfl, rfl, rfl, rfl, restart_testFailed _, (Grows.restart _).2⟩
  · exact hgen

/-- The setting is switched on both sides. -/
theorem setting (h : Sim s p off active a) (on boundary : Bool) :
    Sim (if on = true ∧ off = true then Memory.switchOn s boundary else s) p (!on) active
      (a.switch (some silence) on) := by
  simp only [Track.switch]
  have hoff : off = true ↔ ¬a.on = true := by
    rw [h.on]
    simp
  by_cases hs : on = true ∧ off = true
  · rw [if_pos hs, if_pos ⟨hs.1, hoff.mp hs.2⟩]
    have := h.switchOn boundary
    exact { this with on := rfl, order := { this.order with } }
  · rw [if_neg hs, if_neg (fun hc => hs ⟨hc.1, hoff.mpr hc.2⟩)]
    exact { h with on := rfl, order := { h.order with } }

/-- A clear on both sides. -/
theorem clear (h : Sim s p off active a) (hc : s.canRenew) :
    Sim (Memory.clearSlot { s with entry := none }) p off active
      (a.step (some silence) .clear) where
  __ := h.renew (h.canRenew_iff.mp hc) false
  occurrences := rfl
  testFailed := by
    simp only [Memory.clearSlot, Slot.renew, Track.step]
    decide
  failedSince := by
    simp only [Memory.clearSlot, Slot.renew, Track.step]
    decide
  order := h.order.step .clear fun _ => Track.fresh_some.mp (h.canRenew_iff.mp hc)

/-! ## Reading a report -/

/-- What counting changes of what the protocol looks at. -/
structure Counted (s s' : Slot) (failed : Bool) (df dt : UInt16) : Prop where
  gen : s'.gen = s.gen
  seenGen : s'.seenGen = s.seenGen
  held : s'.held = s.held
  waitGen : s'.waitGen = s.waitGen
  baseSeen : s'.baseSeen = s.baseSeen
  baseFails : s'.baseFails = s.baseFails
  baseTests : s'.baseTests = s.baseTests
  occurrence : s'.occurrence = if 0 < df then sat16 s.occurrence df else s.occurrence
  testFailed : Has s'.status Fault.testFailed ↔
    if 0 < dt then failed = true else Has s.status Fault.testFailed
  failedSince : Has s'.status failedSinceClear ↔
    Has s.status failedSinceClear ∨ 0 < df ∨ (failed = true ∧ 0 < dt)

theorem steady_countCycle (s : Slot) : Steady s s.countCycle := by
  have hc : ∀ b : UInt8, (Has (b ||| confirmed) Fault.testFailed ↔ Has b Fault.testFailed) ∧
      (Has (b ||| confirmed) failedSinceClear ↔ Has b failedSinceClear) := by
    decide +kernel
  simp only [Slot.countCycle]
  split
  · exact ⟨rfl, rfl, rfl, rfl, rfl, rfl, rfl, rfl, Iff.rfl, Iff.rfl⟩
  · generalize (if s.failedCycles < 255 then s.failedCycles + 1 else s.failedCycles) = c
    refine ⟨rfl, rfl, rfl, rfl, rfl, rfl, rfl, rfl, ?_, ?_⟩
    · dsimp only
      split
      · exact (hc _).1
      · exact Iff.rfl
    · dsimp only
      split
      · exact (hc _).2
      · exact Iff.rfl

theorem counted_tested (s : Slot) (failed : Bool) :
    (s.tested failed).occurrence = s.occurrence ∧
      (Has (s.tested failed).status Fault.testFailed ↔ failed = true) ∧
      (Has (s.tested failed).status failedSinceClear ↔ Has s.status failedSinceClear) := by
  have hb : ∀ (b : UInt8) (f : Bool),
      let b' := b &&& ~~~(notCompletedSinceClear ||| notCompletedThisCycle)
      (Has (if f then b' ||| Fault.testFailed else b' &&& ~~~Fault.testFailed) Fault.testFailed ↔
        f = true) ∧
      (Has (if f then b' ||| Fault.testFailed else b' &&& ~~~Fault.testFailed) failedSinceClear ↔
        Has b failedSinceClear) := by
    decide +kernel
  exact ⟨rfl, hb _ _⟩

/-- A failure, its cycle's counters aside. -/
theorem steady_failure (s : Slot) (df : UInt16) :
    Steady { s with
      status := s.status ||| (testFailedThisCycle ||| pending ||| failedSinceClear)
      occurrence := if 0 < df then sat16 s.occurrence df else s.occurrence } (s.failure df) := by
  simp only [Slot.failure]
  by_cases hdf : 0 < df
  · simp only [if_pos hdf]
    have h := steady_countCycle { s with
      status := s.status ||| (testFailedThisCycle ||| pending ||| failedSinceClear)
      occurrence := sat16 s.occurrence df
      snapDue := if s.freeze ≠ [] ∧ s.entry = none then true else s.snapDue }
    exact ⟨h.gen, h.seenGen, h.held, h.waitGen, h.baseSeen, h.baseFails, h.baseTests,
      h.occurrence, h.testFailed, h.failedSince⟩
  · simp only [if_neg hdf]
    have h := steady_countCycle { s with
      status := s.status ||| (testFailedThisCycle ||| pending ||| failedSinceClear) }
    exact ⟨h.gen, h.seenGen, h.held, h.waitGen, h.baseSeen, h.baseFails, h.baseTests,
      h.occurrence, h.testFailed, h.failedSince⟩

theorem counted_count (s : Slot) (failed : Bool) (df dt : UInt16) :
    Counted s (s.count failed df dt) failed df dt := by
  have hb : ∀ b : UInt8,
      (Has (b ||| (testFailedThisCycle ||| pending ||| failedSinceClear)) Fault.testFailed ↔
        Has b Fault.testFailed) ∧
      Has (b ||| (testFailedThisCycle ||| pending ||| failedSinceClear)) failedSinceClear := by
    decide +kernel
  obtain ⟨hocc, htf, hfs⟩ := counted_tested s failed
  simp only [Slot.count]
  by_cases hfail : 0 < df ∨ failed = true ∧ 0 < dt
  · rw [if_pos hfail]
    by_cases hdt : 0 < dt
    · rw [if_pos hdt]
      have h := steady_failure (s.tested failed) df
      refine ⟨h.gen, h.seenGen, h.held, h.waitGen, h.baseSeen, h.baseFails, h.baseTests,
        h.occurrence, ?_, ?_⟩
      · rw [if_pos hdt]
        exact h.testFailed.trans ((hb _).1.trans htf)
      · exact iff_of_true (h.failedSince.mpr (hb _).2) (.inr hfail)
    · rw [if_neg hdt]
      have h := steady_failure s df
      refine ⟨h.gen, h.seenGen, h.held, h.waitGen, h.baseSeen, h.baseFails, h.baseTests,
        h.occurrence, ?_, ?_⟩
      · rw [if_neg hdt]
        exact h.testFailed.trans (hb _).1
      · exact iff_of_true (h.failedSince.mpr (hb _).2) (.inr hfail)
  · rw [if_neg hfail]
    have hdf : ¬0 < df := fun h => hfail (.inl h)
    by_cases hdt : 0 < dt
    · rw [if_pos hdt]
      refine ⟨rfl, rfl, rfl, rfl, rfl, rfl, rfl, ?_, ?_, ?_⟩
      · rw [if_neg hdf]
        exact hocc
      · rw [if_pos hdt]
        exact htf
      · rw [hfs]
        exact ⟨.inl, fun h => h.resolve_right hfail⟩
    · rw [if_neg hdt]
      refine ⟨rfl, rfl, rfl, rfl, rfl, rfl, rfl, ?_, ?_, ?_⟩
      · rw [if_neg hdf]
      · rw [if_neg hdt]
      · exact ⟨.inl, fun h => h.resolve_right hfail⟩

/-- What the current report adds on both sides, with fewer than 65536 results in between. -/
theorem added (h : Sim s p off active a) (hb : a.report.results - a.read < 65536)
    (hw : a.waiting = false) (he : a.report.epoch = a.epoch) :
    s.newFails p.report = .ofNat (a.report.fails - (a.base.getD (0, 0)).1) ∧
      s.newTests p.report = .ofNat (a.report.tests - (a.base.getD (0, 0)).2) ∧
      a.report.fails - (a.base.getD (0, 0)).1 ≤ a.report.tests - (a.base.getD (0, 0)).2 ∧
      a.report.tests - (a.base.getD (0, 0)).2 < 65536 := by
  have hfed := h.order.fed hw he
  have hbase := h.base
  have hft := h.order.fails
  have hcount := h.order.counted
  cases hba : a.base with
  | none =>
    rw [hba] at hbase hfed
    simp only [Slot.newFails, Slot.newTests, hbase, Option.getD_none] at hfed ⊢
    refine ⟨h.report.fails, h.report.tests, ?_, ?_⟩ <;> omega
  | some b =>
    obtain ⟨f, t⟩ := b
    rw [hba] at hbase hfed
    obtain ⟨hseen, hf, ht⟩ := hbase
    obtain ⟨-, h₁, h₂⟩ := hcount f t hba
    simp only [Slot.newFails, Slot.newTests, hseen, Option.getD_some, if_true, hf, ht,
      h.report.fails, h.report.tests] at hfed ⊢
    refine ⟨sub_ofNat h₁, sub_ofNat (by omega), ?_, ?_⟩ <;> omega

theorem pos_ofNat {k : ℕ} (h : k < 65536) : 0 < UInt16.ofNat k ↔ 0 < k := by
  rw [UInt16.lt_iff_toNat_lt, UInt16.toNat_ofNat']
  simp only [UInt16.toNat_zero]
  omega

theorem ofNat_eq_zero {k : ℕ} (h : k < 65536) : UInt16.ofNat k = 0 ↔ k = 0 := by
  rw [← UInt16.toNat_inj, UInt16.toNat_ofNat']
  simp only [UInt16.toNat_zero]
  omega

/-- The report's generation is the slot's exactly when the epochs are the same. -/
theorem gen_iff (h : Sim s p off active a) :
    p.report.gen = s.gen ↔ a.report.epoch = a.epoch := by
  have h₁ := h.order.later.epoch
  have h₂ := h.order.tally
  have h₃ := h.order.control
  have h₄ := h.order.silent
  have h₅ := h.order.seen
  simp only [silence] at h₄
  rw [h.report.gen, h.gen]
  exact ofNat_inj (by omega) (by omega)

/-- The report of a waiting slot is read. -/
theorem read_waiting (h : Sim s p off active a) (hw : a.waiting = true) :
    Sim (s.consume off active p.report) p off active (a.readReport (some silence)) := by
  have ho := h.order.readReport
  have hsw : s.waitGen = true := h.waiting.trans hw
  have hcond : (¬off = true ∧ { s with seenGen := p.report.gen }.canRenew) ↔
      (a.on = true ∧ Track.Fresh (some silence)
        { a with seen := a.report.epoch, read := a.report.results }) := by
    have h₁ := h.order.later.epoch
    have h₂ := h.order.tally
    have h₃ := h.order.control
    have h₄ := h.order.silent
    have h₅ := h.order.seen
    refine and_congr (by rw [h.on]; simp) ?_
    rw [Track.fresh_some, Slot.canRenew]
    dsimp only
    rw [h.gen, h.report.gen, UInt16.lt_iff_toNat_lt,
      toNat_sub (by omega) (by simp only [silence] at h₄; omega)]
    rfl
  simp only [Slot.consume, Track.readReport] at ho ⊢
  rw [if_pos hw] at ho
  rw [if_pos hsw, if_pos hw]
  by_cases hc : a.on = true ∧ Track.Fresh (some silence)
      { a with seen := a.report.epoch, read := a.report.results }
  · rw [if_pos hc] at ho
    rw [if_pos (hcond.mpr hc), if_pos hc]
    refine { h with
      gen := ?_, seenGen := h.report.gen, held := ?_, waiting := rfl, base := rfl, order := ho }
    · simp only [Slot.renew, Track.begin, h.gen]
      exact succ_ofNat _
    · exact h.decide_testFailed
  · rw [if_neg hc] at ho
    rw [if_neg (fun hc' => hc (hcond.mp hc')), if_neg hc]
    exact { h with seenGen := h.report.gen, order := ho }

/-- The report of a slot that does not wait is read. -/
theorem read_counting (h : Sim s p off active a) (hw : a.waiting = false)
    (hb : a.report.results - a.read < 65536) :
    Sim (s.consume off active p.report) p off active (a.readReport (some silence)) := by
  have ho := h.order.readReport
  have hwn : ¬a.waiting = true := by simp [hw]
  have hsn : ¬s.waitGen = true := by simp [h.waiting, hw]
  simp only [Slot.consume, Track.readReport] at ho ⊢
  rw [if_neg hwn] at ho
  rw [if_neg hsn, if_neg hwn]
  by_cases he : a.report.epoch = a.epoch
  · obtain ⟨hdf, hdt, hle, hlt⟩ := h.added hb hw he
    rw [if_neg (not_not.mpr he)] at ho
    rw [if_neg (not_not.mpr (h.gen_iff.mpr he)), if_neg (not_not.mpr he)]
    have hnf : ({ s with seenGen := p.report.gen } : Slot).newFails p.report =
        .ofNat (a.report.fails - (a.base.getD (0, 0)).1) := hdf
    have hnt : ({ s with seenGen := p.report.gen } : Slot).newTests p.report =
        .ofNat (a.report.tests - (a.base.getD (0, 0)).2) := hdt
    rw [hnf, hnt]
    simp only [Track.count] at ho ⊢
    generalize hdf' : a.report.fails - (a.base.getD (0, 0)).1 = df at ho hle ⊢
    generalize hdt' : a.report.tests - (a.base.getD (0, 0)).2 = dt at ho hle hlt ⊢
    -- the baselines follow the counters, whatever is counted
    have hbase : Sim { s with
        seenGen := p.report.gen, baseFails := p.report.fails, baseTests := p.report.tests,
        baseSeen := true } p off active { a with
        seen := a.report.epoch, read := a.report.results
        base := some (a.report.fails, a.report.tests) } := by
      refine { h with
        seenGen := h.report.gen, base := ⟨rfl, h.report.fails, h.report.tests⟩, order := ?_ }
      split at ho
      · exact { ho with }
      · exact ho
    by_cases hel : a.on = true ∧ a.cycleOpen = true
    · rw [if_pos hel] at ho
      rw [if_pos hel]
      by_cases hz : df = 0 ∧ dt = 0
      · obtain ⟨rfl, rfl⟩ := hz
        rw [if_pos (.inr (.inr ⟨rfl, rfl⟩))]
        refine { hbase with
          occurrences := hbase.occurrences, testFailed := ?_, failedSince := ?_, order := ho }
        · simpa using hbase.testFailed
        · simpa using hbase.failedSince
      · have hno : ¬(off = true ∨ ¬active = true ∨
            UInt16.ofNat df = 0 ∧ UInt16.ofNat dt = 0) := by
          rw [h.on, h.active, hel.1, hel.2, ofNat_eq_zero (by omega), ofNat_eq_zero hlt]
          simpa using hz
        rw [if_neg hno]
        have hc := counted_count { s with
          seenGen := p.report.gen, baseFails := p.report.fails, baseTests := p.report.tests,
          baseSeen := true } p.report.failed (.ofNat df) (.ofNat dt)
        refine { hbase with
          gen := hc.gen.trans hbase.gen, seenGen := hc.seenGen.trans hbase.seenGen
          held := hc.held.trans hbase.held, waiting := hc.waitGen.trans hbase.waiting
          base := ⟨hc.baseSeen, hc.baseFails.trans h.report.fails,
            hc.baseTests.trans h.report.tests⟩
          occurrences := ?_, testFailed := ?_, failedSince := ?_, order := ho }
        · rw [hc.occurrence]
          dsimp only
          rw [h.occurrences]
          by_cases hpos : 0 < df
          · rw [if_pos ((pos_ofNat (by omega)).mpr hpos)]
            exact sat16_ofNat _ _ (by omega)
          · rw [if_neg (fun hp => hpos ((pos_ofNat (by omega)).mp hp)), show df = 0 by omega]
            rfl
        · rw [hc.testFailed]
          dsimp only
          by_cases hpos : 0 < dt
          · rw [if_pos ((pos_ofNat hlt).mpr hpos), if_pos hpos, h.report.failed]
          · rw [if_neg (fun hp => hpos ((pos_ofNat hlt).mp hp)), if_neg hpos]
            exact h.testFailed
        · rw [hc.failedSince, pos_ofNat (by omega), pos_ofNat hlt, h.report.failed]
          have := h.failedSince
          simp only [Bool.or_eq_true, Bool.and_eq_true, decide_eq_true_eq]
          rw [this]
    · rw [if_neg hel] at ho
      rw [if_neg hel, if_pos]
      · exact hbase
      · rw [h.on, h.active]
        by_cases hon : a.on = true
        · right; left
          exact fun hc => hel ⟨hon, hc⟩
        · left
          simpa using hon
  · rw [if_pos he] at ho
    rw [if_pos (fun hg => he (h.gen_iff.mp hg)), if_pos he]
    exact { h with seenGen := h.report.gen, order := ho }

theorem read (h : Sim s p off active a) (hb : a.report.results - a.read < 65536) :
    Sim (s.consume off active p.report) p off active (a.readReport (some silence)) := by
  cases hw : a.waiting with
  | true => exact h.read_waiting hw
  | false => exact h.read_counting hw hb

end Sim

/-! ## What leaves the protocol alone -/

namespace Sim.Steady

theorem refl (s : Slot) : Sim.Steady s s :=
  ⟨rfl, rfl, rfl, rfl, rfl, rfl, rfl, rfl, Iff.rfl, Iff.rfl⟩

theorem trans {s s' s'' : Slot} (h : Sim.Steady s s') (h' : Sim.Steady s' s'') :
    Sim.Steady s s'' :=
  ⟨h'.gen.trans h.gen, h'.seenGen.trans h.seenGen, h'.held.trans h.held,
    h'.waitGen.trans h.waitGen, h'.baseSeen.trans h.baseSeen, h'.baseFails.trans h.baseFails,
    h'.baseTests.trans h.baseTests, h'.occurrence.trans h.occurrence,
    h'.testFailed.trans h.testFailed, h'.failedSince.trans h.failedSince⟩

theorem of_kept {s s' : Slot} (h : Kept s s') : Sim.Steady s s' := by
  rw [h]
  exact ⟨rfl, rfl, rfl, rfl, rfl, rfl, rfl, rfl, Iff.rfl, Iff.rfl⟩

theorem of_taken {s s' : Slot} (h : Taken s s') : Sim.Steady s s' := by
  rw [h.same]
  exact ⟨rfl, rfl, rfl, rfl, rfl, rfl, rfl, rfl, Iff.rfl, Iff.rfl⟩

/-- A status that keeps the two bits the protocol sets. -/
theorem of_status {s s' : Slot} (hs : ∃ st fc ac t f e,
    s' = { s with
      status := st, failedCycles := fc, agingCount := ac, testedCycle := t, failedCycle := f,
      entry := e })
    (htf : Has s'.status Fault.testFailed ↔ Has s.status Fault.testFailed)
    (hfs : Has s'.status failedSinceClear ↔ Has s.status failedSinceClear) : Sim.Steady s s' := by
  obtain ⟨st, fc, ac, t, f, e, rfl⟩ := hs
  exact ⟨rfl, rfl, rfl, rfl, rfl, rfl, rfl, rfl, htf, hfs⟩

theorem of_endSlot (s : Slot) : Sim.Steady s (Memory.endSlot s) := by
  have hp : ∀ b : UInt8, (Has (b &&& ~~~pending) Fault.testFailed ↔ Has b Fault.testFailed) ∧
      (Has (b &&& ~~~pending) failedSinceClear ↔ Has b failedSinceClear) := by
    decide +kernel
  have hc : ∀ b : UInt8,
      (Has (b &&& ~~~pending &&& ~~~confirmed) Fault.testFailed ↔ Has b Fault.testFailed) ∧
      (Has (b &&& ~~~pending &&& ~~~confirmed) failedSinceClear ↔ Has b failedSinceClear) := by
    decide +kernel
  simp only [Memory.endSlot]
  split
  · split
    · exact of_status ⟨_, _, _, _, _, _, rfl⟩ (hp _).1 (hp _).2
    · split
      · split
        · exact of_status ⟨_, _, _, _, _, _, rfl⟩ (hc _).1 (hc _).2
        · exact of_status ⟨_, _, _, _, _, _, rfl⟩ (hp _).1 (hp _).2
      · exact of_status ⟨_, _, _, _, _, _, rfl⟩ (hp _).1 (hp _).2
  · exact refl s

theorem of_endedSlot (s : Slot) : Sim.Steady s (Memory.endedSlot s) := by
  simp only [Memory.endedSlot]
  split
  · exact (of_endSlot s).trans (of_status ⟨_, _, _, _, _, _, rfl⟩ Iff.rfl Iff.rfl)
  · exact of_endSlot s

end Sim.Steady

namespace Memory
variable {n : ℕ}

theorem steady_cycleEnd (m : Memory n) (i : Fin n) :
    Sim.Steady (m.slots i) (m.cycleEnd.slots i) := by
  rw [slots_cycleEnd]
  split
  · exact .of_endedSlot _
  · exact .refl _

theorem steady_cycleStart (m : Memory n) (i : Fin n) :
    Sim.Steady (m.slots i) (m.cycleStart.slots i) ∧
      m.cycleStart.settingOff = m.settingOff := by
  let m₁ := if m.cycleActive then ({ m with ending := false } : Memory n).cycleEnd
    else { m with ending := false }
  have h₁ : Sim.Steady (m.slots i) (m₁.slots i) ∧ m₁.settingOff = m.settingOff := by
    simp only [m₁]
    split
    · have hf := framed_cycleEnd ({ m with ending := false } : Memory n)
      exact ⟨steady_cycleEnd ({ m with ending := false } : Memory n) i, hf.settingOff⟩
    · exact ⟨.refl _, rfl⟩
  let m₂ := if m₁.settingOff then { m₁ with boundaryOff := true } else m₁
  have h₂ : Sim.Steady (m.slots i) (m₂.slots i) ∧ m₂.settingOff = m.settingOff := by
    simp only [m₂]
    split
    · exact h₁
    · exact h₁
  refine ⟨h₂.1.trans ?_, h₂.2⟩
  change Sim.Steady (m₂.slots i) { m₂.slots i with
    status := if m₂.settingOff then (m₂.slots i).status else restartBits (m₂.slots i).status
    failedCycle := false
    testedCycle := false }
  refine .of_status ⟨_, _, _, _, _, _, rfl⟩ ?_ ?_
  · dsimp only
    split
    · exact Iff.rfl
    · exact Sim.restart_testFailed _
  · dsimp only
    split
    · exact Iff.rfl
    · exact (Grows.restart _).2

end Memory

/-! ## A start -/

namespace Ecu
variable {n : ℕ}
open Memory

theorem lastRecord_none {m : Memory n} {img : List UInt8} {i : Fin n} {R : ℕ}
    (h : ∀ r < R, rdBe24 (recAt img r 0) (recAt img r 1) (recAt img r 2) ≠ (m.slots i).dtc) :
    lastRecord m img i R = none := by
  induction R with
  | zero => rfl
  | succ R ih =>
    rw [lastRecord, if_neg (h R (by omega))]
    exact ih fun r hr => h r (by omega)

theorem lastRecord_some {m : Memory n} {img : List UInt8} {i : Fin n} {R r : ℕ} (hr : r < R)
    (h : rdBe24 (recAt img r 0) (recAt img r 1) (recAt img r 2) = (m.slots i).dtc)
    (hlast : ∀ r', r < r' → r' < R →
      rdBe24 (recAt img r' 0) (recAt img r' 1) (recAt img r' 2) ≠ (m.slots i).dtc) :
    lastRecord m img i R = some r := by
  induction R with
  | zero => omega
  | succ R ih =>
    rw [lastRecord]
    by_cases he : r = R
    · subst he
      rw [if_pos h]
    · rw [if_neg (hlast R (by omega) (by omega))]
      exact ih (by omega) fun r' hlt hr' => hlast r' hlt (by omega)

/-- A slot that a restore has found runs as a fresh track with what the image keeps. -/
theorem sim_found {m : Memory n} {img : List UInt8} {i : Fin n} {s : Slot} (d : Debounce)
    (h : Found m.init img i s) :
    Sim s (.start d) false false (.start d (kept m img i).1 (kept m img i).2) := by
  have hstatus : ∀ b : UInt8,
      ¬Has ((b &&& persistedBits) ||| notCompletedThisCycle) testFailed ∧
      (Has ((b &&& persistedBits) ||| notCompletedThisCycle) failedSinceClear ↔
        Has b failedSinceClear) := by
    decide +kernel
  have hcheck : ∀ t : Slot, ∃ fr, checkBlocks t = { t with freeze := fr } := by
    intro t
    simp only [checkBlocks]
    split
    · exact ⟨_, rfl⟩
    · exact ⟨_, rfl⟩
  obtain ⟨fr, hfr⟩ := hcheck (m.init.slots i)
  have hzero : Wraps Report.zero Tally.zero := ⟨rfl, rfl, rfl, rfl⟩
  rcases h.slot with ⟨hs, hno⟩ | ⟨r, hi, ⟨hn, hlast⟩, hs⟩
  · have hk : kept m img i = (0, false) := by
      simp only [kept]
      split
      · rename_i hi
        rw [lastRecord_none (m := m) fun r hr hdtc => hno r hi ⟨hr, hdtc⟩]
      · rfl
    rw [hk, hs, hfr]
    exact {
      deb := rfl, tally := hzero, report := hzero, control := rfl, gen := rfl, seenGen := rfl
      held := rfl, waiting := rfl, base := rfl, on := rfl, active := rfl, occurrences := rfl
      testFailed := iff_of_false (by decide : ¬Has statusCleared testFailed) (by simp [Track.start])
      failedSince := iff_of_false (by decide : ¬Has statusCleared failedSinceClear)
        (by simp [Track.start])
      order := Track.ordered_start _ _ _ _ }
  · have hk : kept m img i = ((rdBe16 (recAt img r 6) (recAt img r 7)).toNat,
        decide (Has (recAt img r 3) failedSinceClear)) := by
      rw [kept, if_pos hi, lastRecord_some (m := m) hn.1 hn.2 fun r' hlt hr' hdtc =>
        hlast r' hlt ⟨hr', hdtc⟩]
    rw [hk, hs, hfr]
    exact {
      deb := rfl, tally := hzero, report := hzero, control := rfl, gen := rfl, seenGen := rfl
      held := rfl, waiting := rfl, base := rfl, on := rfl, active := rfl
      occurrences := by
        have := (rdBe16 (recAt img r 6) (recAt img r 7)).toNat_lt
        simp only [Track.start, restoredSlot]
        rw [Nat.min_eq_left (by omega), UInt16.ofNat_toNat]
      testFailed := iff_of_false (hstatus _).1 (by simp [Track.start])
      failedSince := by
        simp only [Track.start, decide_eq_true_eq]
        exact (hstatus _).2
      order := Track.ordered_start _ _ _ _ }

/-- Every fault starts as a track with what the store keeps. -/
theorem sim_boot {m : Memory n} (hd : m.Distinct) (d : Debounce) (st : Store) (i : Fin n) :
    Sim ((Node.boot m st).mem.slots i) (.start d) (Node.boot m st).mem.settingOff
      (Node.boot m st).mem.cycleActive (.start d (stored m st i).1 (stored m st i).2) := by
  cases hs : m.store with
  | none =>
    rw [Node.boot_of_none hs, stored, hs]
    exact {
      deb := rfl, tally := ⟨rfl, rfl, rfl, rfl⟩, report := ⟨rfl, rfl, rfl, rfl⟩, control := rfl
      gen := rfl, seenGen := rfl, held := rfl, waiting := rfl, base := rfl, on := rfl
      active := rfl, occurrences := rfl
      testFailed := iff_of_false (by decide : ¬Has statusCleared testFailed) (by simp [Track.start])
      failedSince := iff_of_false (by decide : ¬Has statusCleared failedSinceClear)
        (by simp [Track.start])
      order := Track.ordered_start _ _ _ _ }
  | some seam =>
    obtain ⟨hframe, hslot⟩ := restore_spec (m := m.init) st hs rfl rfl hd
      (fun _ => rfl) (fun _ => rfl)
    obtain ⟨s, hf, heq⟩ := hslot i
    rw [stored, hs, Node.boot, hframe.settingOff, hframe.cycleActive, heq]
    have h := sim_found d hf
    split
    · exact h.steady (.of_endedSlot s)
    · exact h

/-! ## All faults -/

/-- The slots of the memory that an owner's operation leaves to the protocol. -/
structure Leaves (m m' : Memory n) : Prop where
  slots : ∀ i, Sim.Steady (m.slots i) (m'.slots i)
  dtc : ∀ i, (m'.slots i).dtc = (m.slots i).dtc
  settingOff : m'.settingOff = m.settingOff
  cycleActive : m'.cycleActive = m.cycleActive

theorem Leaves.of_stores {m m' : Memory n} (h : Stores m m') : Leaves m m' :=
  ⟨fun i => .of_kept (h.slots i), fun i => (Grows.of_kept (h.slots i)).dtc, h.settingOff,
    h.cycleActive⟩

/-- The unit runs as the tracks of its faults. -/
structure Runs (m : Memory n) (x : Ecu n) (a : Fin n → Track) : Prop where
  store : x.owner.mem.store = m.store
  dtc : ∀ i, (x.owner.mem.slots i).dtc = (m.slots i).dtc
  sim : ∀ i, Sim (x.owner.mem.slots i) (x.producers i) x.owner.mem.settingOff
    x.owner.mem.cycleActive (a i)

section
variable {m : Memory n} {x : Ecu n} {a : Fin n → Track}

theorem runs_boot (hd : m.Distinct) (debs : Fin n → Debounce) (st : Store) :
    Runs m (boot m debs st) (tracks m debs st) := by
  refine ⟨?_, fun i => ?_, fun i => sim_boot hd (debs i) st i⟩
  · cases hs : m.store with
    | none =>
      rw [boot, Node.boot_of_none hs]
      exact hs
    | some seam =>
      rw [boot, Node.boot, (restore_spec (m := m.init) st hs rfl rfl hd
        (fun _ => rfl) (fun _ => rfl)).1.store]
      exact hs
  · cases hs : m.store with
    | none =>
      rw [boot, Node.boot_of_none hs]
      rfl
    | some seam => exact (Node.sound_boot hs (fun _ => rfl) (fun _ _ => rfl) hd st).dtc i

theorem Runs.distinct (h : Runs m x a) (hd : m.Distinct) : x.owner.mem.Distinct := by
  intro i j hij
  rw [h.dtc, h.dtc] at hij
  exact hd i j hij

/-- A producer's step, at the fault it belongs to. -/
theorem Runs.of_producer (h : Runs m x a) (j : Fin n) (p : Producer) (b : Track)
    (hj : Sim (x.owner.mem.slots j) p x.owner.mem.settingOff x.owner.mem.cycleActive b) :
    Runs m (x.setProducer j p) (fun i => if j = i then b else a i) := by
  refine ⟨h.store, h.dtc, fun i => ?_⟩
  by_cases hi : j = i
  · subst hi
    simpa [setProducer] using hj
  · simpa [setProducer, hi, Ne.symm hi] using h.sim i

/-- An operation of the owner that the protocol does not see. -/
theorem Runs.of_leaves (h : Runs m x a) {y : Node n} (hl : Leaves x.owner.mem y.mem)
    (hs : y.mem.store = x.owner.mem.store) : Runs m { x with owner := y } a where
  store := hs.trans h.store
  dtc i := (hl.dtc i).trans (h.dtc i)
  sim i := by
    have := (h.sim i).steady (hl.slots i)
    rw [← hl.settingOff, ← hl.cycleActive] at this
    exact this

theorem Runs.capture (h : Runs m x a) (dids : List (UInt16 × List UInt8)) :
    Runs m { x with owner := x.owner.step (.capture dids) } a := by
  obtain ⟨hs, hf⟩ := x.owner.mem.taken_capture dids
  exact h.of_leaves ⟨fun i => .of_taken (hs i), fun i => (Grows.of_taken (hs i)).dtc,
    hf.settingOff, hf.cycleActive⟩ hf.store

theorem Runs.cycleEnd (h : Runs m x a) :
    Runs m { x with owner := x.owner.step .cycleEnd }
      (fun i => { a i with cycleOpen := false }) := by
  have hf := x.owner.mem.framed_cycleEnd
  refine ⟨hf.store.trans h.store, fun i => ?_, fun i => ?_⟩
  · exact ((growsTo_cycleEnd _).slots i).dtc.trans (h.dtc i)
  · have := ((h.sim i).steady (steady_cycleEnd _ i)).cycle false
    dsimp only [Node.step]
    rw [hf.settingOff, hf.cycleActive]
    exact this

theorem Runs.cycleStart (h : Runs m x a) :
    Runs m { x with owner := x.owner.step .cycleStart }
      (fun i => { a i with cycleOpen := true }) := by
  have hg := growsTo_cycleStart x.owner.mem
  refine ⟨hg.store.trans h.store, fun i => (hg.slots i).dtc.trans (h.dtc i), fun i => ?_⟩
  obtain ⟨hs, hoff⟩ := x.owner.mem.steady_cycleStart i
  have := ((h.sim i).steady hs).cycle true
  dsimp only [Node.step]
  rw [hoff]
  exact this

theorem Runs.setSetting (h : Runs m x a) (on : Bool) :
    Runs m { x with owner := x.owner.step (.setSetting on) }
      (fun i => (a i).switch (some silence) on) := by
  have hg := growsTo_setSetting x.owner.mem on
  refine ⟨hg.store.trans h.store, fun i => (hg.slots i).dtc.trans (h.dtc i), fun i => ?_⟩
  have := (h.sim i).setting on (x.owner.mem.boundaryOff && x.owner.mem.cycleActive)
  dsimp only [Node.step]
  simp only [Memory.setSetting]
  by_cases hc : on = true ∧ x.owner.mem.settingOff = true
  · rw [if_pos hc] at this
    simp only [if_pos hc]
    exact this
  · rw [if_neg hc] at this
    simp only [if_neg hc]
    exact this

theorem Runs.clear (h : Runs m x a) (group : UInt32) :
    Runs m { x with owner := x.owner.step (.clear group) }
      (fun i => x.follow (some silence) i (a i) (.owner (.clear group))) := by
  have hst := persistClear_stores x.owner.mem x.owner.store group
  rcases x.owner.mem.clear_cases x.owner.store group with
      ⟨hcode, heq⟩ | ⟨hcode, -, heq⟩ | ⟨hcode, -, hcan, heq⟩
  · have hno : (x.owner.mem.clear x.owner.store group).1 ≠ 0 := by
      rcases hcode with hcode | hcode <;>
      · rw [hcode]
        decide
    simp only [follow, act, hno, false_and, if_false, Node.step, heq]
    exact h
  · have hno : (x.owner.mem.clear x.owner.store group).1 ≠ 0 := by
      rw [hcode]
      decide
    simp only [follow, act, hno, false_and, if_false, Node.step, heq]
    exact h.of_leaves (y := ⟨_, _⟩) (.of_stores hst) hst.store
  · simp only [follow, act, hcode, true_and, Node.step, heq]
    have hf := (x.owner.mem.persistClear x.owner.store group).2.1.framed_clearNamed group
    have hdtc := fun i => (Grows.of_kept (hst.slots i)).dtc
    refine ⟨(hf.store.trans hst.store).trans h.store, fun i => ?_, fun i => ?_⟩
    · dsimp only
      rw [slots_clearNamed, ← h.dtc]
      split
      · exact hdtc i
      · exact hdtc i
    · dsimp only
      rw [slots_clearNamed, hf.settingOff, hf.cycleActive, hst.settingOff, hst.cycleActive, hdtc]
      have hsim := (h.sim i).steady (.of_kept (hst.slots i))
      by_cases hn : Names group (x.owner.mem.slots i).dtc
      · simp only [if_pos hn]
        have hc : ((x.owner.mem.persistClear x.owner.store group).2.1.slots i).canRenew := by
          rw [hst.slots i]
          exact hcan i hn
        exact hsim.clear hc
      · simp only [if_neg hn]
        exact hsim

/-- An event of one fault steps its track alone. -/
theorem follow_at {limit : Option ℕ} {e : Event n} {j : Fin n} {act : Act}
    (h : ∀ i, x.act i e = if j = i then some act else none) :
    (fun i => x.follow limit i (a i) e) = fun i => if j = i then (a j).step limit act else a i := by
  funext i
  simp only [follow, h]
  by_cases hi : j = i
  · subst hi
    simp
  · simp [hi]

/-- One event of the unit is one step of each track it concerns. -/
theorem runs_step (h : Runs m x a) (hd : m.Distinct) (e : Event n)
    (hb : InTime a e) :
    Runs m (x.step e) (fun i => x.follow (some silence) i (a i) e) := by
  cases e with
  | apply j =>
    rw [follow_at fun i => rfl]
    exact h.of_producer j _ _ (h.sim j).apply
  | result j r now enabled =>
    rw [follow_at fun i => rfl]
    exact h.of_producer j _ _ ((h.sim j).result r now enabled)
  | publish j =>
    rw [follow_at fun i => rfl]
    exact h.of_producer j _ _ (h.sim j).publish
  | control j =>
    rw [follow_at fun i => rfl]
    exact h.of_producer j _ _ (h.sim j).publishControl
  | read j =>
    have hsim := (h.sim j).read hb
    refine ⟨h.store, fun i => ?_, fun i => ?_⟩
    · exact ((growsTo_consume _ _ _).slots i).dtc.trans (h.dtc i)
    · simp only [step, Node.step, follow, act, Memory.consume, settingOff_setSlot,
        cycleActive_setSlot]
      by_cases hi : j = i
      · subst hi
        simpa [Track.step] using hsim
      · simpa [hi, Ne.symm hi] using h.sim i
  | owner duty =>
    cases duty with
    | capture dids => exact h.capture dids
    | cycleStart => exact h.cycleStart
    | cycleEnd => exact h.cycleEnd
    | endCycleAfter now grace =>
      have hg := growsTo_endCycleAfter x.owner.mem now grace
      refine h.of_leaves (y := x.owner.step (.endCycleAfter now grace)) ?_ hg.store
      simp only [Node.step, Memory.endCycleAfter]
      split <;> exact ⟨fun i => .refl _, fun i => rfl, rfl, rfl⟩
    | clear group => exact h.clear group
    | setSetting on => exact h.setSetting on
    | persist now flush =>
      have hst := persist_stores x.owner.mem x.owner.store now flush
      exact h.of_leaves (y := x.owner.step (.persist now flush)) (.of_stores hst) hst.store
  | reset =>
    have hboot := runs_boot (h.distinct hd) (fun i => (x.producers i).deb) x.owner.store
    refine ⟨hboot.store.trans h.store, fun i => (hboot.dtc i).trans (h.dtc i), fun i => ?_⟩
    have := hboot.sim i
    simp only [tracks] at this
    simp only [step, follow, act, Track.step]
    rw [(h.sim i).deb]
    exact this

theorem runs_run (es : List (Event n)) (h : Runs m x a) (hd : m.Distinct)
    (hb : Paced (some silence) (x, a) es) :
    Runs m (runWith (some silence) (x, a) es).1 (runWith (some silence) (x, a) es).2 := by
  induction es generalizing x a with
  | nil => exact h
  | cons e es ih => exact ih (runs_step h hd e hb.1) hb.2

end

end Ecu

end BloblyEmb.Fault
