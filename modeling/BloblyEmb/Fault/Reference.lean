import BloblyEmb.Fault.Debounce
import BloblyEmb.Lib.Trace
import Mathlib.Tactic.Ring

/-!
# The debounce on its own widths

The code keeps the position of the counter in 32 bits and moves it in 64. Its values stay between
the thresholds, so the narrow debounce is the one on integers; and that one is the reference, whose
times and counts have no width at all, as long as time does not go back.
-/
namespace BloblyEmb.Fault

/-! ## The counter in 32 bits -/

/-- A counter threshold in 32 bits. -/
def thr32 (t : UInt32) : Int32 :=
  if t = 0 then 1 else if 0x7FFFFFFF < t then 0x7FFFFFFF else Int32.ofInt t.toNat

/-- The debounce with the position of its counter in 32 bits. -/
structure Debounce32 where
  timeBased : Bool
  failThr : UInt32
  passThr : UInt32
  inc : UInt32
  dec : UInt32
  jump : Bool
  count : Int32
  since : UInt64
  run : TestResult
  rep : Report

namespace Debounce32

/-- The same debounce with its position an integer. -/
def wide (d : Debounce32) : Debounce where
  timeBased := d.timeBased
  failThr := d.failThr
  passThr := d.passThr
  inc := d.inc
  dec := d.dec
  jump := d.jump
  count := d.count.toInt
  since := d.since
  run := d.run
  rep := d.rep

/-- The counter after one more result, moved in 64 bits. -/
def counted (d : Debounce32) (r : TestResult) : Int64 :=
  let fthr := (thr32 d.failThr).toInt64
  let pthr := -(thr32 d.passThr).toInt64
  let c := d.count.toInt64
  if r = .failed then
    let c := (if d.jump ∧ c < 0 then 0 else c) + (thr32 d.inc).toInt64
    if fthr < c then fthr else c
  else
    let c := (if d.jump ∧ 0 < c then 0 else c) - (thr32 d.dec).toInt64
    if c < pthr then pthr else c

/-- The debounce after one more result, and whether it stands at its failing and its passing
threshold. -/
def judge (d : Debounce32) (r : TestResult) (now : UInt64) : Debounce32 × Bool × Bool :=
  if d.timeBased then
    let d := if r ≠ d.run then { d with run := r, since := now } else d
    let held := now - d.since
    (d, r = .failed ∧ d.failThr.toUInt64 ≤ held, r = .passed ∧ d.passThr.toUInt64 ≤ held)
  else
    let d := { d with count := (d.counted r).toInt32 }
    (d, (thr32 d.failThr).toInt64 ≤ d.count.toInt64, d.count.toInt64 ≤ -(thr32 d.passThr).toInt64)

/-- Feeds one dispatch's result. -/
def step (d : Debounce32) (r : TestResult) (now : UInt64) (enabled : Bool) : Debounce32 :=
  if ¬enabled ∨ r = .notTested then { d with run := .notTested }
  else
    let (d, atFail, atPass) := d.judge r now
    if atFail then
      { d with rep := { d.rep with
          failed := true
          fails := if d.rep.failed then d.rep.fails else d.rep.fails + 1
          tests := d.rep.tests + 1 } }
    else if atPass then { d with rep := { d.rep with failed := false, tests := d.rep.tests + 1 } }
    else d

/-- Resets the debounce for a new generation and echoes it. -/
def apply (d : Debounce32) (gen : UInt16) (held : Bool) : Debounce32 :=
  if gen = d.rep.gen then d
  else { d with count := 0, since := 0, run := .notTested, rep := ⟨gen, held, 0, 0⟩ }

/-- A debounce as its owner configures it, at power-on. -/
def fresh (timeBased : Bool) (failThr passThr inc dec : UInt32) (jump : Bool) : Debounce32 where
  timeBased := timeBased
  failThr := failThr
  passThr := passThr
  inc := inc
  dec := dec
  jump := jump
  count := 0
  since := 0
  run := .notTested
  rep := .zero

end Debounce32

/-! ## No value leaves its width -/

theorem thr_pos (t : UInt32) : 1 ≤ thr t := by
  have ht : t ≠ 0 → t.toNat ≠ 0 := fun h hz => h (UInt32.toNat_inj.mp hz)
  simp only [thr]
  split
  · exact Int.le_refl 1
  · split
    · decide
    · have := ht ‹_›
      omega

theorem thr_le (t : UInt32) : thr t ≤ 2 ^ 31 - 1 := by
  simp only [thr]
  split
  · decide
  · split
    · decide
    · rename_i hle
      have := UInt32.le_iff_toNat_le.mp (UInt32.not_lt.mp hle)
      have hmax : (0x7FFFFFFF : UInt32).toNat = 2147483647 := rfl
      omega

theorem toInt_thr32 (t : UInt32) : (thr32 t).toInt = thr t := by
  have hle := thr_le t
  simp only [thr, thr32] at hle ⊢
  split
  · rfl
  · split
    · rfl
    · rename_i hzero hmax
      rw [if_neg hzero, if_neg hmax] at hle
      exact Int32.toInt_ofInt_of_le (by omega) (by omega)

/-- The position of the counter is between its thresholds. -/
def Debounce.Within (d : Debounce) : Prop := -thr d.passThr ≤ d.count ∧ d.count ≤ thr d.failThr

theorem Debounce.within_counted {d : Debounce} (h : d.Within) (r : TestResult) :
    -thr d.passThr ≤ d.counted r ∧ d.counted r ≤ thr d.failThr := by
  obtain ⟨hlow, hhigh⟩ := h
  have hf := thr_pos d.failThr
  have hp := thr_pos d.passThr
  have hi := thr_pos d.inc
  have hd := thr_pos d.dec
  simp only [counted]
  split
  · split
    · omega
    · omega
  · split
    · omega
    · omega

theorem Debounce.within_judge {d : Debounce} (h : d.Within) (r : TestResult) (now : UInt64) :
    (d.judge r now).1.Within := by
  simp only [judge]
  split
  · dsimp only
    split
    · exact h
    · exact h
  · exact within_counted h r

theorem Debounce.within_step {d : Debounce} (h : d.Within) (r : TestResult) (now : UInt64)
    (enabled : Bool) : (d.step r now enabled).Within := by
  have hjudge := within_judge h r now
  simp only [step]
  split
  · exact h
  · split
    · exact hjudge
    · split
      · exact hjudge
      · exact hjudge

theorem Debounce.within_zero (d : Debounce) : { d with count := 0 }.Within := by
  have hf := thr_pos d.failThr
  have hp := thr_pos d.passThr
  exact ⟨show -thr d.passThr ≤ 0 by omega, show 0 ≤ thr d.failThr by omega⟩

theorem Debounce.within_apply {d : Debounce} (h : d.Within) (gen : UInt16) (held : Bool) :
    (d.apply gen held).Within := by
  simp only [apply]
  split
  · exact h
  · exact d.within_zero

namespace Debounce32

/-- A 64-bit sum of values of 32 bits is exact. -/
theorem exact_of_small {x : ℤ} (hlow : -2 ^ 33 ≤ x) (hhigh : x ≤ 2 ^ 33) : x.bmod (2 ^ 64) = x :=
  Int.bmod_eq_of_le (by omega) (by omega)

theorem toInt_min (x y : Int64) : (if y < x then y else x).toInt = min x.toInt y.toInt := by
  simp only [Int64.lt_iff_toInt_lt]
  split <;> omega

theorem toInt_max (x y : Int64) : (if x < y then y else x).toInt = max x.toInt y.toInt := by
  simp only [Int64.lt_iff_toInt_lt]
  split <;> omega

/-- The counter moves as the one on integers does. -/
theorem toInt_counted {d : Debounce32} (h : d.wide.Within) (r : TestResult) :
    (d.counted r).toInt = d.wide.counted r := by
  obtain ⟨hlow, hhigh⟩ := h
  have hf := thr_le d.failThr
  have hp := thr_le d.passThr
  have hi := thr_le d.inc
  have hd := thr_le d.dec
  have hi' := thr_pos d.inc
  have hd' := thr_pos d.dec
  have hf' := thr_pos d.failThr
  have hp' := thr_pos d.passThr
  simp only [wide] at hlow hhigh
  have hpass : (-(thr32 d.passThr).toInt64).toInt = -thr d.passThr := by
    rw [Int64.toInt_neg, Int32.toInt_toInt64, toInt_thr32]
    exact exact_of_small (by omega) (by omega)
  have hneg : d.count.toInt64 < 0 ↔ d.count.toInt < 0 := by
    rw [Int64.lt_iff_toInt_lt, Int32.toInt_toInt64]
    rfl
  have hpos : 0 < d.count.toInt64 ↔ 0 < d.count.toInt := by
    rw [Int64.lt_iff_toInt_lt, Int32.toInt_toInt64]
    rfl
  simp only [counted, Debounce.counted, wide]
  by_cases hr : r = .failed
  · have hsum : ((if d.jump ∧ d.count.toInt64 < 0 then 0 else d.count.toInt64) +
        (thr32 d.inc).toInt64).toInt =
        (if d.jump ∧ d.count.toInt < 0 then 0 else d.count.toInt) + thr d.inc := by
      rw [Int64.toInt_add, Int32.toInt_toInt64, toInt_thr32]
      simp only [hneg]
      split
      · exact exact_of_small (by simp; omega) (by simp; omega)
      · rw [Int32.toInt_toInt64]
        exact exact_of_small (by omega) (by omega)
    rw [if_pos hr, if_pos hr]
    rw [toInt_min, hsum, Int32.toInt_toInt64, toInt_thr32]
    rfl
  · have hsum : ((if d.jump ∧ 0 < d.count.toInt64 then 0 else d.count.toInt64) -
        (thr32 d.dec).toInt64).toInt =
        (if d.jump ∧ 0 < d.count.toInt then 0 else d.count.toInt) - thr d.dec := by
      rw [Int64.toInt_sub, Int32.toInt_toInt64, toInt_thr32]
      simp only [hpos]
      split
      · exact exact_of_small (by simp; omega) (by simp; omega)
      · rw [Int32.toInt_toInt64]
        exact exact_of_small (by omega) (by omega)
    rw [if_neg hr, if_neg hr]
    rw [toInt_max, hsum, hpass]
    rfl

/-- One result judged on the machine's widths and on integers. -/
theorem wide_judge {d : Debounce32} (h : d.wide.Within) (r : TestResult) (now : UInt64) :
    ((d.judge r now).1.wide, (d.judge r now).2) = d.wide.judge r now := by
  have hbound := Debounce.within_counted h r
  have hf := thr_le d.failThr
  have hp := thr_le d.passThr
  have hp' := thr_pos d.passThr
  have hcount : (d.counted r).toInt32.toInt = d.wide.counted r := by
    rw [Int64.toInt_toInt32, toInt_counted h]
    simp only [wide] at hbound ⊢
    exact Int.bmod_eq_of_le (by omega) (by omega)
  have hpass : (-(thr32 d.passThr).toInt64).toInt = -thr d.passThr := by
    rw [Int64.toInt_neg, Int32.toInt_toInt64, toInt_thr32]
    exact exact_of_small (by omega) (by omega)
  by_cases htime : d.timeBased = true
  · simp only [judge, Debounce.judge, htime, show d.wide.timeBased = true from htime, if_true,
      show d.wide.run = d.run from rfl]
    split
    · rfl
    · rfl
  · have hwide : { d with count := (d.counted r).toInt32 }.wide =
        { d.wide with count := d.wide.counted r } := by
      simp only [wide, hcount]
    rw [judge, if_neg htime, Debounce.judge, if_neg (show ¬d.wide.timeBased = true from htime)]
    refine Prod.ext hwide (Prod.ext ?_ ?_)
    · simp only [Int64.le_iff_toInt_le, Int32.toInt_toInt64, toInt_thr32, hcount]
      rfl
    · simp only [Int64.le_iff_toInt_le, Int32.toInt_toInt64, hpass, hcount]
      rfl

theorem wide_step {d : Debounce32} (h : d.wide.Within) (r : TestResult) (now : UInt64)
    (enabled : Bool) : (d.step r now enabled).wide = d.wide.step r now enabled := by
  have hjudge := wide_judge h r now
  simp only [step, Debounce.step]
  split
  · rfl
  · rw [← hjudge]
    dsimp only
    split
    · rfl
    · split
      · rfl
      · rfl

theorem wide_apply (d : Debounce32) (gen : UInt16) (held : Bool) :
    (d.apply gen held).wide = d.wide.apply gen held := by
  simp only [apply, Debounce.apply, show d.wide.rep = d.rep from rfl]
  split
  · rfl
  · rfl

end Debounce32

/-! ## The reference -/

/-- A threshold or a step of the reference: at least 1, at most 2³¹ - 1. -/
def clamp (t : UInt32) : ℕ := max 1 (min t.toNat (2 ^ 31 - 1))

/-- What a reference debounce is configured with. -/
structure Rule where
  timeBased : Bool
  failAt : ℕ
  passAt : ℕ
  up : ℕ
  down : ℕ
  jump : Bool

/-- The rule of a configuration: the counter's thresholds are clamped, times are as they are. -/
def ruleOf (timeBased : Bool) (failThr passThr inc dec : UInt32) (jump : Bool) : Rule where
  timeBased := timeBased
  failAt := if timeBased then failThr.toNat else clamp failThr
  passAt := if timeBased then passThr.toNat else clamp passThr
  up := clamp inc
  down := clamp dec
  jump := jump

/-- The rule whose thresholds are clamped whatever they are of. -/
def clampedRule (timeBased : Bool) (failThr passThr inc dec : UInt32) (jump : Bool) : Rule where
  timeBased := timeBased
  failAt := clamp failThr
  passAt := clamp passThr
  up := clamp inc
  down := clamp dec
  jump := jump

/-- The reference debounce: a position that failed results move up and passed ones down, or a run of
equal results since a time; nothing of it has a width. -/
structure Reference where
  position : ℤ := 0
  run : TestResult := .notTested
  since : ℕ := 0
  failed : Bool := false
  /-- How often it went from passed to failed in this generation. -/
  fails : ℕ := 0
  /-- How many results found it at a threshold in this generation. -/
  tests : ℕ := 0
  gen : UInt16 := 0

namespace Reference

/-- The reference after one more result, and whether it stands at a threshold. -/
def judge (u : Rule) (x : Reference) (r : TestResult) (now : ℕ) : Reference × Bool × Bool :=
  if u.timeBased then
    let x := if r = x.run then x else { x with run := r, since := now }
    (x, r = .failed ∧ x.since + u.failAt ≤ now, r = .passed ∧ x.since + u.passAt ≤ now)
  else if r = .failed then
    let start := if u.jump ∧ x.position < 0 then 0 else x.position
    let x := { x with position := min (start + u.up) u.failAt }
    (x, u.failAt ≤ x.position, x.position ≤ -u.passAt)
  else
    let start := if u.jump ∧ 0 < x.position then 0 else x.position
    let x := { x with position := max (start - u.down) (-u.passAt) }
    (x, u.failAt ≤ x.position, x.position ≤ -u.passAt)

def step (u : Rule) (x : Reference) (r : TestResult) (now : ℕ) (enabled : Bool) : Reference :=
  if ¬enabled ∨ r = .notTested then { x with run := .notTested }
  else
    let (x, atFail, atPass) := x.judge u r now
    if atFail then
      { x with
        failed := true
        fails := if x.failed then x.fails else x.fails + 1
        tests := x.tests + 1 }
    else if atPass then { x with failed := false, tests := x.tests + 1 }
    else x

/-- A new generation, which may start failed. -/
def apply (x : Reference) (gen : UInt16) (held : Bool) : Reference :=
  if gen = x.gen then x else { failed := held, gen := gen }

end Reference

/-! ## The debounce is its reference -/

/-- What a producer does with a debounce. -/
inductive Feed where
  | result (r : TestResult) (now : UInt64) (enabled : Bool)
  | generation (gen : UInt16) (held : Bool)

namespace Feed

/-- The time of a result. -/
def time : Feed → Option UInt64
  | result _ now _ => some now
  | generation _ _ => none

def run (d : Debounce32) : Feed → Debounce32
  | result r now enabled => d.step r now enabled
  | generation gen held => d.apply gen held

def ref (u : Rule) (x : Reference) : Feed → Reference
  | result r now enabled => x.step u r now.toNat enabled
  | generation gen held => x.apply gen held

end Feed

/-- The times of what is fed, in order. -/
def times (fs : List Feed) : List UInt64 := fs.filterMap Feed.time

/-- The debounce shows what its reference does: the failed state, the counts modulo their width, and
a position between the thresholds. -/
structure Matches (d : Debounce32) (x : Reference) : Prop where
  failed : d.rep.failed = x.failed
  low : -(clamp d.passThr : ℤ) ≤ d.count.toInt
  high : d.count.toInt ≤ clamp d.failThr
  fails : d.rep.fails.toNat = x.fails % 2 ^ 16
  tests : d.rep.tests.toNat = x.tests % 2 ^ 16

/-- The debounce and its reference in step. -/
structure InStep (u : Rule) (d : Debounce) (x : Reference) (before : List UInt64) : Prop where
  rule : u = ruleOf d.timeBased d.failThr d.passThr d.inc d.dec d.jump
  position : d.count = x.position
  run : d.run = x.run
  since : d.run ≠ .notTested → d.since.toNat = x.since ∧ d.since ∈ before
  failed : d.rep.failed = x.failed
  fails : d.rep.fails = UInt16.ofNat x.fails
  tests : d.rep.tests = UInt16.ofNat x.tests
  gen : d.rep.gen = x.gen

theorem clamp_eq (t : UInt32) : (clamp t : ℤ) = thr t := by
  have ht : t = 0 ↔ t.toNat = 0 := by
    constructor
    · rintro rfl
      rfl
    · intro h
      exact UInt32.toNat_inj.mp h
  have hmax : (0x7FFFFFFF : UInt32) < t ↔ 2147483647 < t.toNat := UInt32.lt_iff_toNat_lt
  simp only [clamp, thr, ht, hmax]
  split
  · omega
  · split
    · omega
    · omega

theorem ofNat_succ (n : ℕ) : UInt16.ofNat n + 1 = UInt16.ofNat (n + 1) := by
  simp

namespace InStep
variable {u : Rule} {d : Debounce} {x : Reference} {before : List UInt64}

/-- A result moves the debounce and its reference alike, to or from the same thresholds. -/
theorem judge (h : InStep u d x before) {r : TestResult} (hr : r ≠ .notTested) {now : UInt64}
    (hnow : ∀ t ∈ before, t ≤ now) :
    InStep u (d.judge r now).1 (x.judge u r now.toNat).1 (before ++ [now]) ∧
      (d.judge r now).2 = (x.judge u r now.toNat).2 := by
  have hbefore : ∀ t ∈ before, t ∈ before ++ [now] := fun t ht => List.mem_append_left _ ht
  have hlast : now ∈ before ++ [now] := List.mem_append_right _ (List.mem_singleton_self _)
  by_cases htime : d.timeBased = true
  · have hu : u.timeBased = true := by
      rw [h.rule]
      exact htime
    have hfail : u.failAt = d.failThr.toNat := by
      rw [h.rule]
      simp [ruleOf, htime]
    have hpass : u.passAt = d.passThr.toNat := by
      rw [h.rule]
      simp [ruleOf, htime]
    -- how long the run has held, when it began no later than now
    have hheld : ∀ (since : UInt64) (t : UInt32), since ≤ now →
        (t.toUInt64 ≤ now - since ↔ since.toNat + t.toNat ≤ now.toNat) := by
      intro since t hle
      rw [UInt64.le_iff_toNat_le, UInt64.toNat_sub_of_le _ _ hle, UInt32.toNat_toUInt64]
      have := UInt64.le_iff_toNat_le.mp hle
      omega
    rw [Debounce.judge, if_pos htime, Reference.judge, if_pos hu]
    dsimp only
    by_cases hrun : r = d.run
    · have hsince := h.since (hrun ▸ hr)
      have hle := hnow _ hsince.2
      rw [if_neg (fun hne => hne hrun), if_pos (hrun.trans h.run)]
      refine ⟨⟨h.rule, h.position, h.run, fun hne => ⟨hsince.1, hbefore _ hsince.2⟩, h.failed,
        h.fails, h.tests, h.gen⟩, ?_⟩
      simp only [hheld _ _ hle, hsince.1, hfail, hpass]
    · rw [if_pos hrun, if_neg (fun heq => hrun (heq.trans h.run.symm))]
      refine ⟨⟨h.rule, h.position, rfl, fun _ => ⟨rfl, hlast⟩, h.failed, h.fails, h.tests, h.gen⟩, ?_⟩
      simp only [hheld _ _ (UInt64.le_refl now), hfail, hpass]
  · have hu : ¬u.timeBased = true := by
      rw [h.rule]
      exact htime
    have hfail : (u.failAt : ℤ) = thr d.failThr := by
      rw [h.rule, ← clamp_eq]
      simp [ruleOf, htime]
    have hpass : (u.passAt : ℤ) = thr d.passThr := by
      rw [h.rule, ← clamp_eq]
      simp [ruleOf, htime]
    have hup : (u.up : ℤ) = thr d.inc := by
      rw [h.rule, ← clamp_eq]
      rfl
    have hdown : (u.down : ℤ) = thr d.dec := by
      rw [h.rule, ← clamp_eq]
      rfl
    have hjump : u.jump = d.jump := by
      rw [h.rule]
      rfl
    have hsince : d.run ≠ .notTested → d.since.toNat = x.since ∧ d.since ∈ before ++ [now] :=
      fun hne => ⟨(h.since hne).1, hbefore _ (h.since hne).2⟩
    simp only [Debounce.judge, Reference.judge, if_neg htime, if_neg hu, Debounce.counted, hfail,
      hpass, hup, hdown, hjump, h.position]
    split
    · exact ⟨⟨h.rule, rfl, h.run, hsince, h.failed, h.fails, h.tests, h.gen⟩, rfl⟩
    · exact ⟨⟨h.rule, rfl, h.run, hsince, h.failed, h.fails, h.tests, h.gen⟩, rfl⟩

theorem step (h : InStep u d x before) (r : TestResult) {now : UInt64}
    (hnow : ∀ t ∈ before, t ≤ now) (enabled : Bool) :
    InStep u (d.step r now enabled) (x.step u r now.toNat enabled) (before ++ [now]) := by
  simp only [Debounce.step, Reference.step]
  by_cases hgap : ¬enabled = true ∨ r = .notTested
  · rw [if_pos hgap, if_pos hgap]
    exact ⟨h.rule, h.position, rfl, fun hne => absurd rfl hne, h.failed, h.fails, h.tests, h.gen⟩
  · rw [if_neg hgap, if_neg hgap]
    obtain ⟨hin, heq⟩ := h.judge (fun hr => hgap (.inr hr)) hnow
    simp only [← heq]
    split
    · refine ⟨hin.rule, hin.position, hin.run, hin.since, rfl, ?_, ?_, hin.gen⟩
      · simp only [Debounce.fail, hin.failed, hin.fails]
        split
        · rfl
        · exact ofNat_succ _
      · simp only [Debounce.fail, hin.tests]
        exact ofNat_succ _
    · split
      · refine ⟨hin.rule, hin.position, hin.run, hin.since, rfl, hin.fails, ?_, hin.gen⟩
        simp only [Debounce.pass, hin.tests]
        exact ofNat_succ _
      · exact hin

theorem apply (h : InStep u d x before) (gen : UInt16) (held : Bool) :
    InStep u (d.apply gen held) (x.apply gen held) before := by
  simp only [Debounce.apply, Reference.apply, h.gen]
  split
  · exact h
  · exact ⟨h.rule, rfl, rfl, fun hne => absurd rfl hne, rfl, rfl, rfl, rfl⟩

end InStep

/-- Along a run: the debounce on its own widths, the one on integers, and the reference. -/
structure Follows (u : Rule) (d : Debounce32) (x : Reference) (before : List UInt64) : Prop where
  within : d.wide.Within
  inStep : InStep u d.wide x before

theorem Follows.feed {u : Rule} {d : Debounce32} {x : Reference} {before : List UInt64}
    (h : Follows u d x before) (f : Feed) (hnow : ∀ now ∈ f.time, ∀ t ∈ before, t ≤ now) :
    Follows u (f.run d) (f.ref u x) (before ++ f.time.toList) := by
  cases f with
  | result r now enabled =>
    have hwide := Debounce32.wide_step h.within r now enabled
    refine ⟨?_, ?_⟩
    · rw [show (Feed.result r now enabled).run d = d.step r now enabled from rfl, hwide]
      exact Debounce.within_step h.within r now enabled
    · rw [show (Feed.result r now enabled).run d = d.step r now enabled from rfl, hwide]
      exact h.inStep.step r (hnow now rfl) enabled
  | generation gen held =>
    have hwide := Debounce32.wide_apply d gen held
    refine ⟨?_, ?_⟩
    · rw [show (Feed.generation gen held).run d = d.apply gen held from rfl, hwide]
      exact Debounce.within_apply h.within gen held
    · rw [show (Feed.generation gen held).run d = d.apply gen held from rfl, hwide]
      simpa [Feed.time, Feed.ref] using h.inStep.apply gen held

theorem Follows.run {u : Rule} {d : Debounce32} {x : Reference} {before : List UInt64}
    (h : Follows u d x before) (fs : List Feed)
    (hsorted : (before ++ times fs).Pairwise (· ≤ ·)) :
    Follows u (fs.foldl Feed.run d) (fs.foldl (Feed.ref u) x) (before ++ times fs) := by
  induction fs generalizing d x before with
  | nil => simpa [times] using h
  | cons f fs ih =>
    have htimes : times (f :: fs) = f.time.toList ++ times fs := by
      cases hf : f.time <;> simp [times, hf]
    rw [htimes, ← List.append_assoc] at hsorted ⊢
    have hnow : ∀ now ∈ f.time, ∀ t ∈ before, t ≤ now := by
      intro now hf t ht
      have hfirst := (List.pairwise_append.mp hsorted).1
      refine (List.pairwise_append.mp hfirst).2.2 t ht now ?_
      simpa using hf
    exact ih (h.feed f hnow) hsorted

theorem Follows.matches {u : Rule} {d : Debounce32} {x : Reference} {before : List UInt64}
    (h : Follows u d x before) : Matches d x where
  failed := h.inStep.failed
  low := by
    rw [clamp_eq]
    exact h.within.1
  high := by
    rw [clamp_eq]
    exact h.within.2
  fails := by
    rw [show d.rep.fails = _ from h.inStep.fails]
    exact UInt16.toNat_ofNat'
  tests := by
    rw [show d.rep.tests = _ from h.inStep.tests]
    exact UInt16.toNat_ofNat'

/-- Every configuration of a debounce is its reference, whatever results, gaps and generations it is
fed, as long as time does not go back. -/
theorem debounce_matches_reference (timeBased : Bool) (failThr passThr inc dec : UInt32)
    (jump : Bool) (fs : List Feed) (hsorted : (times fs).Pairwise (· ≤ ·)) :
    Matches (fs.foldl Feed.run (.fresh timeBased failThr passThr inc dec jump))
      (fs.foldl (Feed.ref (ruleOf timeBased failThr passThr inc dec jump)) {}) := by
  have h0 : Follows (ruleOf timeBased failThr passThr inc dec jump)
      (.fresh timeBased failThr passThr inc dec jump) {} [] :=
    ⟨Debounce.within_zero (Debounce32.fresh timeBased failThr passThr inc dec jump).wide, rfl, rfl, rfl, fun hne => absurd rfl hne, rfl, rfl, rfl, rfl⟩
  exact (h0.run fs hsorted).matches

/-- A fault that fails two of three dispatches, then a new generation that starts failed. -/
def intermittent : List Feed :=
  [.result .failed 10 true, .result .passed 20 true, .result .failed 30 true,
    .result .failed 40 true, .generation 1 true, .result .failed 50 false, .result .passed 50 true]

theorem debounce_matches_reference_intermittent :
    (times intermittent).Pairwise (· ≤ ·) ∧
      Matches (intermittent.foldl Feed.run (.fresh false 3 2 2 1 false))
        (intermittent.foldl (Feed.ref (ruleOf false 3 2 2 1 false)) {}) :=
  ⟨by decide, debounce_matches_reference false 3 2 2 1 false intermittent (by decide)⟩

/-- A time of 0 is not taken as 1: the first failed result qualifies at once. -/
theorem time_thresholds_not_clamped :
    ¬∀ (timeBased : Bool) (failThr passThr inc dec : UInt32) (jump : Bool) (fs : List Feed),
      (times fs).Pairwise (· ≤ ·) →
      Matches (fs.foldl Feed.run (.fresh timeBased failThr passThr inc dec jump))
        (fs.foldl (Feed.ref (clampedRule timeBased failThr passThr inc dec jump)) {}) := by
  intro h
  have hfailed := (h true 0 0 0 0 false [.result .failed 0 true] (by decide)).failed
  revert hfailed
  decide

end BloblyEmb.Fault
