import BloblyEmb.Fault.Protocol

/-!
# What the memory counts

In every run of producers and owner, a fault's occurrences and its two failure bits are those of its
track: a pass counts exactly what the reports of the current epoch add. An epoch that cannot begin
is waited for, which only a producer that leaves 32767 generations unread can bring about.
-/
namespace BloblyEmb.Fault.Ecu
open Memory
variable {n : ℕ}

/-- A unit and its tracks from a start on. -/
def fromBoot (limit : Option ℕ) (m : Memory n) (debs : Fin n → Debounce) (st : Store)
    (es : List (Event n)) : Ecu n × (Fin n → Track) :=
  runWith limit (boot m debs st, tracks m debs st) es

/-- Slot `i` of the unit shows what its track does. -/
structure Shows (x : Ecu n) (a : Fin n → Track) (i : Fin n) : Prop where
  occurrences : (x.owner.mem.slots i).occurrence.toNat = min (a i).occurrences 65535
  testFailed : Has (x.owner.mem.slots i).status testFailed ↔ (a i).testFailed = true
  failedSince : Has (x.owner.mem.slots i).status failedSinceClear ↔ (a i).failedSince = true

theorem shows_of_sim {x : Ecu n} {a : Fin n → Track} {i : Fin n}
    (h : Sim (x.owner.mem.slots i) (x.producers i) x.owner.mem.settingOff x.owner.mem.cycleActive
      (a i)) : Shows x a i where
  occurrences := by
    rw [h.occurrences, UInt16.toNat_ofNat']
    omega
  testFailed := h.testFailed
  failedSince := h.failedSince

/-- The memory counts what the tracks count, however the producers, the owner, clears, the setting,
cycles and resets are interleaved, as long as fewer than 65536 results lie between two reports that
the owner reads; and a report carries the generation of its slot exactly when it is of the current
epoch, however long its producer was silent. -/
theorem counts_epochs (m : Memory n) (hd : m.Distinct) (debs : Fin n → Debounce) (st : Store)
    (es : List (Event n))
    (hb : Paced (some silence) (boot m debs st, tracks m debs st) es) (i : Fin n) :
    let r := fromBoot (some silence) m debs st es
    Shows r.1 r.2 i ∧
      ((r.1.producers i).report.gen = (r.1.owner.mem.slots i).gen ↔
        (r.2 i).report.epoch = (r.2 i).epoch) := by
  intro r
  have h := (runs_run es (runs_boot hd debs st) hd hb).sim i
  exact ⟨shows_of_sim h, h.gen_iff⟩

/-! ## A report from before a new epoch never counts -/

/-- Reading a report of an earlier epoch changes nothing that is shown. -/
theorem stale_report {limit : Option ℕ} {a : Track} (h : a.report.epoch ≠ a.epoch) :
    (a.readReport limit).occurrences = a.occurrences ∧
      (a.readReport limit).testFailed = a.testFailed ∧
      (a.readReport limit).failedSince = a.failedSince := by
  simp only [Track.readReport]
  split
  · split
    · exact ⟨rfl, rfl, rfl⟩
    · exact ⟨rfl, rfl, rfl⟩
  · exact ⟨rfl, rfl, rfl⟩

/-- Once an epoch begins, every report made before it is of an earlier one. -/
theorem begin_stale {limit : ℕ} {a : Track} (h : a.Ordered limit) (held : Bool) :
    (a.begin held).report.epoch ≠ (a.begin held).epoch ∧
      (a.begin held).tally.epoch ≠ (a.begin held).epoch := by
  have h₁ := h.later.epoch
  have h₂ := h.tally
  have h₃ := h.control
  simp only [Track.begin]
  omega

/-! ## A silent producer -/

/-- One DTC without a store, debounced by a single result. -/
def ramFault : Memory 1 := { Node.oneFault with store := none }

def singleResult : Debounce := ⟨false, 1, 1, 1, 1, false, 0, 0, .notTested, .zero⟩

/-- The unit after `g` clears that its producer has not applied. -/
def silentUnit (g : ℕ) : Ecu 1 where
  owner := ⟨{ ramFault.init with
    slots := fun i => { (ramFault.slots i).init with gen := .ofNat g } }, Node.blankStore⟩
  producers _ := .start singleResult

/-- Its track when generations never wrap. -/
def silentTrack (g : ℕ) : Track := { Track.start singleResult 0 false with epoch := g }

theorem clearNamed_one {m : Memory 1} (h : (m.slots 0).entry = none) :
    m.clearNamed 0xFFFFFF = { m with slots := fun _ => clearSlot (m.slots 0) } := by
  have hone : m.clearNamed 0xFFFFFF = m.clearOne 0 := by
    simp [clearNamed, each, Names, List.finRange]
  rw [hone, clearOne, if_neg (not_not.mpr h), setSlot]
  congr
  funext i
  rw [Subsingleton.elim i 0, Function.update_self]

/-- One more clear that the producer does not apply. -/
theorem clear_silentUnit {g : ℕ} (h : g < 32767) :
    ((silentUnit g).owner.mem.clear (silentUnit g).owner.store 0xFFFFFF).1 = 0 ∧
      (silentUnit g).step (.owner (.clear 0xFFFFFF)) = silentUnit (g + 1) := by
  have hcan : ∀ i, ((silentUnit g).owner.mem.slots i).canRenew := by
    intro i
    simp only [Slot.canRenew, silentUnit, Slot.init]
    rw [UInt16.lt_iff_toNat_lt, UInt16.toNat_sub, UInt16.toNat_ofNat']
    simp
    omega
  have hclear := clear_of_none (m := (silentUnit g).owner.mem) rfl (silentUnit g).owner.store
    ⟨0, .inl rfl⟩ fun i _ => hcan i
  simp only [step, Duty.op, Node.step, hclear, true_and]
  rw [clearNamed_one (by rfl)]
  simp only [silentUnit, clearSlot, Slot.renew, succ_ofNat]
  rfl

/-- What follows the clears: the setting goes off and on, then the producer comes back, applies the
control and fails. -/
def comesBack : List (Event 1) :=
  [.owner .cycleStart, .owner (.setSetting false), .owner (.setSetting true), .control 0, .apply 0,
    .result 0 .failed 0 true, .publish 0, .read 0]

theorem follow_silentUnit {g : ℕ} (h : g < 32767) :
    (fun i => (silentUnit g).follow none i (silentTrack g) (.owner (.clear 0xFFFFFF))) =
      fun _ => silentTrack (g + 1) := by
  funext i
  have hcode := (clear_silentUnit h).1
  simp only [follow, act, hcode, true_and]
  rw [if_pos (.inl rfl)]
  rfl

theorem runWith_silent (es : List (Event 1)) (g k : ℕ) (h : g + k ≤ 32767) :
    runWith none (silentUnit g, fun _ => silentTrack g)
        (List.replicate k (.owner (.clear 0xFFFFFF)) ++ es) =
      runWith none (silentUnit (g + k), fun _ => silentTrack (g + k)) es ∧
    (Paced none (silentUnit g, fun _ => silentTrack g)
        (List.replicate k (.owner (.clear 0xFFFFFF)) ++ es) ↔
      Paced none (silentUnit (g + k), fun _ => silentTrack (g + k)) es) := by
  induction k generalizing g with
  | zero => exact ⟨rfl, Iff.rfl⟩
  | succ k ih =>
    obtain ⟨hrun, hpaced⟩ := ih (g + 1) (by omega)
    have hstep := (clear_silentUnit (show g < 32767 by omega)).2
    have hfollow := follow_silentUnit (show g < 32767 by omega)
    rw [show g + 1 + k = g + (k + 1) by omega] at hrun hpaced
    simp only [List.replicate_succ, List.cons_append, runWith, Paced, hstep, hfollow]
    refine ⟨hrun, ?_⟩
    rw [← hpaced]
    exact ⟨And.right, fun hp => ⟨trivial, hp⟩⟩

/-- With epochs that never wait the counts differ: after 32767 generations that the producer has not
applied, switching the setting on finds none, and the failure of the producer that comes back is not
counted. -/
theorem silent_producer_missed :
    let es := List.replicate 32767 (.owner (.clear 0xFFFFFF)) ++ comesBack
    let start := (boot ramFault (fun _ => singleResult) Node.blankStore,
      tracks ramFault (fun _ => singleResult) Node.blankStore)
    Paced none start es ∧
      ((runWith none start es).1.owner.mem.slots 0).occurrence = 0 ∧
      ((runWith none start es).2 0).occurrences = 1 := by
  intro es start
  have hstart : start = (silentUnit 0, fun _ => silentTrack 0) := rfl
  obtain ⟨hrun, hpaced⟩ := runWith_silent comesBack 0 32767 (by omega)
  simp only [es]
  rw [hstart, hrun, hpaced]
  exact ⟨by decide +kernel, by decide +kernel, by decide +kernel⟩

/-- A failure of a producer that keeps up is counted once. -/
theorem counts_epochs_fails :
    let es : List (Event 1) := [.owner .cycleStart, .result 0 .failed 0 true, .publish 0, .read 0]
    Paced (some silence) (boot ramFault (fun _ => singleResult) Node.blankStore,
      tracks ramFault (fun _ => singleResult) Node.blankStore) es ∧
    Shows (fromBoot (some silence) ramFault (fun _ => singleResult) Node.blankStore es).1
      (fromBoot (some silence) ramFault (fun _ => singleResult) Node.blankStore es).2 0 := by
  intro es
  have hb : Paced (some silence) (boot ramFault (fun _ => singleResult) Node.blankStore,
      tracks ramFault (fun _ => singleResult) Node.blankStore) es := by
    decide +kernel
  exact ⟨hb, (counts_epochs ramFault (fun i j _ => Subsingleton.elim i j) _ _ es hb 0).1⟩

end BloblyEmb.Fault.Ecu
