import Mathlib.Data.Int.Notation
import Mathlib.Tactic.Common

/-!
# Debouncing on the producer

The producing thread runs a debounce per fault after each dispatch. What crosses to the owner is a
report: the debounced state and two counters that only go up, modulo their width, so that an owner
that reads slower than the producer writes still sees every qualification as a difference.
-/
namespace BloblyEmb.Fault

/-- What a function block writes to its fault port. -/
inductive TestResult where
  | notTested
  | passed
  | failed
  deriving DecidableEq, Repr

/-- What crosses to the owner's thread. -/
structure Report where
  gen : UInt16
  failed : Bool
  fails : UInt16
  tests : UInt16
  deriving DecidableEq, Repr

/-- The report of a producer that has reported nothing. -/
def Report.zero : Report := ⟨0, false, 0, 0⟩

/-- What crosses to the producer: the generation to apply, and whether it starts failed. -/
structure Control where
  gen : UInt16
  held : Bool
  deriving DecidableEq, Repr

structure Debounce where
  timeBased : Bool
  failThr : UInt32
  passThr : UInt32
  inc : UInt32
  dec : UInt32
  jump : Bool
  count : ℤ
  since : UInt64
  run : TestResult
  rep : Report
  deriving DecidableEq, Repr

/-- A counter threshold: at least 1, at most the largest 32-bit integer. -/
def thr (t : UInt32) : ℤ :=
  if t = 0 then 1 else if 0x7FFFFFFF < t then 0x7FFFFFFF else (t.toNat : ℤ)

namespace Debounce

/-- The counter after one more result. -/
def counted (d : Debounce) (r : TestResult) : ℤ :=
  if r = .failed then
    min ((if d.jump ∧ d.count < 0 then 0 else d.count) + thr d.inc) (thr d.failThr)
  else
    max ((if d.jump ∧ 0 < d.count then 0 else d.count) - thr d.dec) (-thr d.passThr)

/-- The debounce after one more result, and whether it stands at its failing and its passing
threshold. -/
def judge (d : Debounce) (r : TestResult) (now : UInt64) : Debounce × Bool × Bool :=
  if d.timeBased then
    let d := if r ≠ d.run then { d with run := r, since := now } else d
    let held := now - d.since
    (d, r = .failed ∧ d.failThr.toUInt64 ≤ held, r = .passed ∧ d.passThr.toUInt64 ≤ held)
  else
    let d := { d with count := d.counted r }
    (d, thr d.failThr ≤ d.count, d.count ≤ -thr d.passThr)

/-- A test that completed failed. -/
def fail (d : Debounce) : Debounce :=
  { d with rep := { d.rep with
      failed := true
      fails := if d.rep.failed then d.rep.fails else d.rep.fails + 1
      tests := d.rep.tests + 1 } }

/-- A test that completed passed. -/
def pass (d : Debounce) : Debounce :=
  { d with rep := { d.rep with failed := false, tests := d.rep.tests + 1 } }

/-- Feeds one dispatch's result. -/
def step (d : Debounce) (r : TestResult) (now : UInt64) (enabled : Bool) : Debounce :=
  if ¬enabled ∨ r = .notTested then { d with run := .notTested }
  else
    let (d, atFail, atPass) := d.judge r now
    if atFail then d.fail else if atPass then d.pass else d

/-- Resets the debounce for a new generation and echoes it. -/
def apply (d : Debounce) (gen : UInt16) (held : Bool) : Debounce :=
  if gen = d.rep.gen then d
  else { d with count := 0, since := 0, run := .notTested, rep := ⟨gen, held, 0, 0⟩ }

/-! ## What a dispatch reports -/

@[simp] theorem rep_judge (d : Debounce) (r : TestResult) (now : UInt64) :
    (d.judge r now).1.rep = d.rep := by
  simp only [judge]
  split
  · dsimp only
    split <;> rfl
  · rfl

/-- The thresholds do not depend on what was reported. -/
theorem judge_rep (d : Debounce) (rep : Report) (r : TestResult) (now : UInt64) :
    ({ d with rep := rep }.judge r now) =
      ({ (d.judge r now).1 with rep := rep }, (d.judge r now).2) := by
  simp only [judge]
  split
  · dsimp only
    split <;> rfl
  · rfl

end Debounce

end BloblyEmb.Fault
