import Mathlib.Data.Nat.Basic
import BloblyEmb.Fault.Debounce

/-!
# Reports by epochs

What the protocol between a producer and the owner of the fault memory is for, with numbers that
never wrap. Every clear and every switching on begins a new epoch. The producer restarts when it
applies the epoch's control, and the owner counts what the reports of the current epoch add, while
the setting is on and a cycle is open.
-/
namespace BloblyEmb.Fault

/-- A report that counts without bound: its epoch, the debounced state, the qualifications and the
completed tests of the epoch, and all results the producer was ever fed. -/
structure Tally where
  epoch : ℕ
  failed : Bool
  fails : ℕ
  tests : ℕ
  results : ℕ
  deriving DecidableEq, Repr

namespace Tally

def zero : Tally := ⟨0, false, 0, 0, 0⟩

/-- A test that completed failed. -/
def fail (t : Tally) : Tally :=
  { t with
    failed := true
    fails := if t.failed then t.fails else t.fails + 1
    tests := t.tests + 1 }

/-- A test that completed passed. -/
def pass (t : Tally) : Tally := { t with failed := false, tests := t.tests + 1 }

/-- What one completed test can do to a tally. -/
structure Fed (t u : Tally) : Prop where
  epoch : u.epoch = t.epoch
  results : u.results = t.results
  tests : u.tests = t.tests ∨ u.tests = t.tests + 1
  fails : t.fails ≤ u.fails
  both : u.fails + t.tests ≤ t.fails + u.tests

theorem fed_self (t : Tally) : Fed t t := ⟨rfl, rfl, .inl rfl, Nat.le_refl _, Nat.le_refl _⟩

theorem fed_fail (t : Tally) : Fed t t.fail := by
  refine ⟨rfl, rfl, .inr rfl, ?_, ?_⟩
  · simp only [fail]
    split <;> omega
  · simp only [fail]
    split <;> omega

theorem fed_pass (t : Tally) : Fed t t.pass := by
  refine ⟨rfl, rfl, .inr rfl, Nat.le_refl _, ?_⟩
  simp only [pass]
  omega

end Tally

/-- One fault, from its producer to its record in the memory. -/
structure Track where
  /-- The producer's debounce, its report aside. -/
  deb : Debounce
  tally : Tally
  /-- What it last published. -/
  report : Tally
  /-- The epoch it is to apply, and whether that epoch starts failed. -/
  control : ℕ × Bool
  epoch : ℕ
  held : Bool
  /-- The epoch of the last report read. -/
  seen : ℕ
  /-- The results behind the last report read. -/
  read : ℕ
  /-- The setting was switched on and no epoch could begin. -/
  waiting : Bool
  /-- The qualifications and tests of this epoch that are counted. -/
  base : Option (ℕ × ℕ)
  on : Bool
  cycleOpen : Bool
  occurrences : ℕ
  testFailed : Bool
  failedSince : Bool

/-- What happens to one fault. -/
inductive Act where
  | apply
  | result (r : TestResult) (now : UInt64) (enabled : Bool)
  | publish
  | read
  | control
  | cycle (isOpen : Bool)
  | setting (on : Bool)
  | clear
  | restart (occurrences : ℕ) (failedSince : Bool)
  deriving DecidableEq, Repr

namespace Track

/-- A fault at a start, with the occurrences and the failure that were kept. -/
def start (d : Debounce) (occurrences : ℕ) (failedSince : Bool) : Track where
  deb := { d with count := 0, since := 0, run := .notTested, rep := .zero }
  tally := .zero
  report := .zero
  control := (0, false)
  epoch := 0
  held := false
  seen := 0
  read := 0
  waiting := false
  base := none
  on := true
  cycleOpen := false
  occurrences := occurrences
  testFailed := false
  failedSince := failedSince

/-- The producer restarts, unless it is in the control's epoch. -/
def apply (a : Track) : Track :=
  if a.control.1 = a.tally.epoch then a
  else
    { a with
      deb := { a.deb with count := 0, since := 0, run := .notTested }
      tally := ⟨a.control.1, a.control.2, 0, 0, a.tally.results⟩ }

/-- The producer is fed one result. -/
def result (a : Track) (r : TestResult) (now : UInt64) (enabled : Bool) : Track :=
  if ¬enabled ∨ r = .notTested then { a with deb := { a.deb with run := .notTested } }
  else
    let (d, atFail, atPass) := a.deb.judge r now
    let t := if atFail then a.tally.fail else if atPass then a.tally.pass else a.tally
    { a with deb := d, tally := { t with results := t.results + 1 } }

/-- An epoch can begin: `limit` bounds the epochs a silent producer may leave unread. -/
def Fresh (limit : Option ℕ) (a : Track) : Prop := ∀ k, limit = some k → a.epoch - a.seen < k

instance (limit : Option ℕ) (a : Track) : Decidable (Fresh limit a) :=
  match limit with
  | none => isTrue fun _ h => nomatch h
  | some k => decidable_of_iff (a.epoch - a.seen < k)
      ⟨fun h k' hk => by cases hk; exact h, fun h => h k rfl⟩

/-- A new epoch begins. -/
def begin (a : Track) (held : Bool) : Track :=
  { a with epoch := a.epoch + 1, held := held, base := none, waiting := false }

/-- What the current report adds to what is counted. -/
def count (a : Track) : Track :=
  let (f, t) := a.base.getD (0, 0)
  let df := a.report.fails - f
  let dt := a.report.tests - t
  let a := { a with base := some (a.report.fails, a.report.tests) }
  if a.on ∧ a.cycleOpen then
    { a with
      occurrences := a.occurrences + df
      testFailed := if 0 < dt then a.report.failed else a.testFailed
      failedSince := a.failedSince || (decide (0 < df) || (a.report.failed && decide (0 < dt))) }
  else a

/-- The owner reads the report. -/
def readReport (limit : Option ℕ) (a : Track) : Track :=
  let a := { a with seen := a.report.epoch, read := a.report.results }
  if a.waiting then if a.on ∧ a.Fresh limit then a.begin a.testFailed else a
  else if a.report.epoch ≠ a.epoch then a
  else a.count

/-- The setting is switched. -/
def switch (limit : Option ℕ) (a : Track) (on : Bool) : Track :=
  let a :=
    if on ∧ ¬a.on then
      if a.Fresh limit then a.begin a.testFailed else { a with waiting := true }
    else a
  { a with on := on }

def step (limit : Option ℕ) (a : Track) : Act → Track
  | .apply => a.apply
  | .result r now enabled => a.result r now enabled
  | .publish => { a with report := a.tally }
  | .read => a.readReport limit
  | .control => { a with control := (a.epoch, a.held) }
  | .cycle isOpen => { a with cycleOpen := isOpen }
  | .setting on => a.switch limit on
  | .clear => { a.begin false with occurrences := 0, testFailed := false, failedSince := false }
  | .restart occurrences failedSince => start a.deb occurrences failedSince

/-! ## What holds of every run -/

/-- Tally `u` goes on from tally `t`, or is of a later epoch. -/
structure Later (t u : Tally) : Prop where
  epoch : t.epoch ≤ u.epoch
  results : t.results ≤ u.results
  same : t.epoch = u.epoch → t.fails ≤ u.fails ∧ u.fails + t.tests ≤ t.fails + u.tests ∧
    u.tests + t.results ≤ t.tests + u.results
  after : t.epoch < u.epoch → u.tests + t.results ≤ u.results
  fails : u.fails ≤ u.tests

theorem Later.trans_fed {t u : Tally} (h : Later t u) {v : Tally} (he : v.epoch = u.epoch)
    (hr : v.results = u.results + 1) (ht : v.tests = u.tests ∨ v.tests = u.tests + 1)
    (hf : u.fails ≤ v.fails) (hft : v.fails + u.tests ≤ u.fails + v.tests) : Later t v where
  epoch := by
    rw [he]
    exact h.epoch
  results := by
    have := h.results
    omega
  same hs := by
    obtain ⟨h₁, h₂, h₃⟩ := h.same (hs.trans he)
    omega
  after ha := by
    have := h.after (he ▸ ha)
    omega
  fails := by
    have := h.fails
    omega

/-- The order of the epochs, and what a report of the current epoch adds at most. -/
structure Ordered (limit : ℕ) (a : Track) : Prop where
  seen : a.seen ≤ a.report.epoch
  later : Later a.report a.tally
  tally : a.tally.epoch ≤ a.control.1
  control : a.control.1 ≤ a.epoch
  silent : a.epoch ≤ a.seen + limit
  read : a.read ≤ a.report.results
  fails : a.report.fails ≤ a.report.tests
  counted : ∀ f t, a.base = some (f, t) → a.report.epoch = a.epoch ∧ f ≤ a.report.fails ∧
    a.report.fails + t ≤ f + a.report.tests
  fed : a.waiting = false → a.report.epoch = a.epoch →
    a.report.tests + a.read ≤ (a.base.getD (0, 0)).2 + a.report.results
  fedTally : a.waiting = false → a.tally.epoch = a.epoch →
    a.tally.tests + a.read ≤ (a.base.getD (0, 0)).2 + a.tally.results

theorem fresh_some {k : ℕ} {a : Track} : Fresh (some k) a ↔ a.epoch - a.seen < k :=
  ⟨fun h => h k rfl, fun h k' hk => by cases hk; exact h⟩

theorem ordered_start (limit : ℕ) (d : Debounce) (occurrences : ℕ) (failedSince : Bool) :
    Ordered limit (start d occurrences failedSince) := by
  constructor
  case later => constructor <;> simp [start, Tally.zero]
  case counted => simp [start]
  all_goals simp [start, Tally.zero]

section
variable {limit : ℕ} {a : Track}

theorem Ordered.apply (h : Ordered limit a) : Ordered limit a.apply := by
  have he := h.later.epoch
  have ht := h.tally
  have hr := h.later.results
  have hread := h.read
  simp only [Track.apply]
  split
  · exact h
  · rename_i hne
    refine { h with later := ?_, tally := le_rfl, fedTally := ?_ }
    · constructor
      · dsimp only
        omega
      · exact hr
      · dsimp only
        intro hs
        omega
      · dsimp only
        intro _
        omega
      · exact le_rfl
    · dsimp only
      intro _ _
      omega

/-- One more result keeps the order. -/
theorem Ordered.feed (h : Ordered limit a) {d : Debounce} {t : Tally} (he : t.epoch = a.tally.epoch)
    (hr : t.results = a.tally.results + 1)
    (ht : t.tests = a.tally.tests ∨ t.tests = a.tally.tests + 1) (hf : a.tally.fails ≤ t.fails)
    (hft : t.fails + a.tally.tests ≤ a.tally.fails + t.tests) :
    Ordered limit { a with deb := d, tally := t } := by
  refine { h with
    later := h.later.trans_fed he hr ht hf hft
    tally := ?_
    fedTally := ?_ }
  · dsimp only
    rw [he]
    exact h.tally
  · dsimp only
    intro hw hs
    have := h.fedTally hw (he ▸ hs)
    omega

theorem Ordered.result (h : Ordered limit a) (r : TestResult) (now : UInt64) (enabled : Bool) :
    Ordered limit (a.result r now enabled) := by
  simp only [Track.result]
  split
  · exact { h with }
  · have hfed : a.tally.Fed (if (a.deb.judge r now).2.1 then a.tally.fail
        else if (a.deb.judge r now).2.2 then a.tally.pass else a.tally) := by
      split
      · exact a.tally.fed_fail
      · split
        · exact a.tally.fed_pass
        · exact a.tally.fed_self
    exact h.feed hfed.epoch (congrArg (· + 1) hfed.results) hfed.tests hfed.fails hfed.both

theorem Ordered.publish (h : Ordered limit a) : Ordered limit { a with report := a.tally } := by
  have he := h.later.epoch
  have ht := h.tally
  have hc := h.control
  refine { h with
    seen := Nat.le_trans h.seen he
    later := ⟨le_rfl, le_rfl, fun _ => ⟨le_rfl, le_rfl, le_rfl⟩, fun hlt => absurd hlt (by simp),
      h.later.fails⟩
    read := Nat.le_trans h.read h.later.results
    fails := h.later.fails
    counted := ?_
    fed := h.fedTally }
  intro f t hb
  obtain ⟨hre, hf, hft⟩ := h.counted f t hb
  obtain ⟨h₁, h₂, h₃⟩ := h.later.same (by omega)
  dsimp only
  refine ⟨by omega, by omega, by omega⟩

theorem Ordered.begin (h : Ordered limit a) (hf : a.epoch - a.seen < limit) (held : Bool) :
    Ordered limit (a.begin held) := by
  have hs := h.silent
  have he := h.seen
  have hl := h.later.epoch
  have ht := h.tally
  have hc := h.control
  refine { h with control := ?_, silent := ?_, counted := ?_, fed := ?_, fedTally := ?_ }
  all_goals
    simp only [Track.begin]
  · omega
  · omega
  · simp
  · intro _ hre
    omega
  · intro _ hte
    omega

theorem Ordered.readReport (h : Ordered limit a) : Ordered limit (a.readReport (some limit)) := by
  have hs := h.seen
  have hl := h.later.epoch
  have ht := h.tally
  have hc := h.control
  have hsil := h.silent
  simp only [Track.readReport]
  split
  · rename_i hw
    have hwait : Ordered limit { a with seen := a.report.epoch, read := a.report.results } := by
      refine { h with seen := le_rfl, silent := ?_, read := le_rfl, fed := ?_, fedTally := ?_ }
      · dsimp only
        omega
      · dsimp only
        rw [hw]
        intro hno
        cases hno
      · dsimp only
        rw [hw]
        intro hno
        cases hno
    split
    · rename_i hf
      exact hwait.begin (fresh_some.mp hf.2) _
    · exact hwait
  · split
    · rename_i hne
      refine { h with seen := le_rfl, silent := ?_, read := le_rfl, fed := ?_, fedTally := ?_ }
      · dsimp only
        omega
      · intro _ he
        exact absurd he hne
      · -- the producer restarted after the report that was read
        dsimp only
        intro _ hte
        have := h.later.after (by omega)
        omega
    · rename_i hre
      simp only [ne_eq, not_not] at hre
      have hcount : Ordered limit { a with
          seen := a.report.epoch, read := a.report.results
          base := some (a.report.fails, a.report.tests) } := by
        refine { h with
          seen := le_rfl, silent := ?_, read := le_rfl, counted := ?_, fed := ?_, fedTally := ?_ }
        · dsimp only
          omega
        · intro f t hb
          cases hb
          exact ⟨hre, le_rfl, le_rfl⟩
        · intro _ _
          exact le_rfl
        · intro _ hte
          exact (h.later.same (by rw [hre]; exact hte.symm)).2.2
      simp only [Track.count]
      split
      · exact { hcount with }
      · exact hcount

theorem Ordered.switch (h : Ordered limit a) (on : Bool) :
    Ordered limit (a.switch (some limit) on) := by
  simp only [Track.switch]
  split
  · split
    · rename_i hf
      exact { h.begin (fresh_some.mp hf) a.testFailed with }
    · refine { h with fed := ?_, fedTally := ?_ } <;> simp
  · exact { h with }

/-- The order holds after every step; a clear needs a fresh epoch. -/
theorem Ordered.step (h : Ordered limit a) (act : Act)
    (hclear : act = .clear → a.epoch - a.seen < limit) :
    Ordered limit (a.step (some limit) act) := by
  cases act with
  | apply => exact h.apply
  | result r now enabled => exact h.result r now enabled
  | publish => exact h.publish
  | read => exact h.readReport
  | control => exact { h with tally := Nat.le_trans h.tally h.control, control := le_rfl }
  | cycle isOpen => exact { h with }
  | setting on => exact h.switch on
  | clear => exact { h.begin (hclear rfl) false with }
  | restart occurrences failedSince => exact ordered_start limit _ _ _

end

end Track

end BloblyEmb.Fault
