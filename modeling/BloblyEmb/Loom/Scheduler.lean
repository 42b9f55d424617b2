import Mathlib.Algebra.Order.Ring.Nat
import Mathlib.Data.List.Basic
import Mathlib.Tactic.Common
import Mathlib.Tactic.Ring

/-!
# The dispatch of handlers

A scheduler holds a fixed table of handlers, each with a period (`loom/loom.v`). A pass invokes every
handler that is due. What the handlers do to their partition is theirs; here a pass gives the handlers
that it invoked.
-/
namespace BloblyEmb.Loom

def u64 (n : ℕ) : ℕ := n % 2 ^ 64

def u32 (n : ℕ) : ℕ := n % 2 ^ 32

/-- Averaging windows, in microseconds. -/
def winUs : List ℕ := [100000, 1000000, 10000000]

structure HandlerStat where
  lastUs : ℕ := 0
  maxUs : ℕ := 0
  count : ℕ := 0
  totalUs : ℕ := 0
  deriving DecidableEq, Repr

structure Handler where
  period : ℕ
  due : ℕ := 0
  stat : HandlerStat := {}
  deriving DecidableEq, Repr

/-- One averaging window. A base of 0 means that it has not started. -/
structure Window where
  busyUs : ℕ := 0
  base : ℕ := 0
  loadPm : ℕ := 0
  deriving DecidableEq, Repr

structure Scheduler where
  handlers : List Handler := []
  windows : List Window := List.replicate 3 {}
  deriving DecidableEq, Repr

/-- Registers a handler, unless the table of `cap` entries is full. -/
def Scheduler.every (s : Scheduler) (cap period : ℕ) : Scheduler :=
  if s.handlers.length ≥ cap then s
  else { s with handlers := s.handlers ++ [{ period := u64 period }] }

/-- One period on; from `now` when that is past. -/
def nextDue (due period now : ℕ) : ℕ :=
  let nd := u64 (due + period)
  if nd ≤ now then u64 (now + period) else nd

def Handler.poll (h : Handler) (now : ℕ) : Handler × Bool :=
  if now ≥ h.due then ({ h with due := nextDue h.due h.period now }, true) else (h, false)

/-- The loop of `run`, from index `i` on: the table, and what was invoked. -/
def runFrom (now : ℕ) : ℕ → List Handler → List Handler × List ℕ
  | _, [] => ([], [])
  | i, h :: hs =>
    let (h, fired) := h.poll now
    let (hs, ran) := runFrom now (i + 1) hs
    (h :: hs, if fired then i :: ran else ran)

def Scheduler.run (s : Scheduler) (now : ℕ) : Scheduler × List ℕ :=
  let (handlers, ran) := runFrom now 0 s.handlers
  ({ s with handlers }, ran)

/-- Passes at the given times. -/
def Scheduler.runs (s : Scheduler) : List ℕ → Scheduler × List (List ℕ)
  | [] => (s, [])
  | now :: ts =>
    let (s, ran) := s.run now
    let (s, rans) := s.runs ts
    (s, ran :: rans)

/-- The times of the passes that invoked handler `i`. -/
def invoked (i : ℕ) : List ℕ → List (List ℕ) → List ℕ
  | now :: ts, ran :: rans => if i ∈ ran then now :: invoked i ts rans else invoked i ts rans
  | _, _ => []

/-- A handler on its own, polled at the given times, and when it ran. -/
def Handler.polls (h : Handler) : List ℕ → Handler × List ℕ
  | [] => (h, [])
  | now :: ts =>
    let (h, fired) := h.poll now
    let (h, fires) := h.polls ts
    (h, if fired then now :: fires else fires)

/-! ## Each handler on its own -/

theorem runFrom_handlers (now i : ℕ) (hs : List Handler) :
    (runFrom now i hs).1 = hs.map fun h => (h.poll now).1 := by
  induction hs generalizing i with
  | nil => rfl
  | cons h hs ih => exact congrArg _ (ih (i + 1))

theorem runFrom_ge {now i j : ℕ} {hs : List Handler} (h : j ∈ (runFrom now i hs).2) : i ≤ j := by
  induction hs generalizing i with
  | nil => simp [runFrom] at h
  | cons g hs ih =>
    simp only [runFrom] at h
    split at h
    · rcases List.mem_cons.mp h with rfl | h
      · exact Nat.le_refl _
      · exact Nat.le_of_succ_le (ih h)
    · exact Nat.le_of_succ_le (ih h)

/-- A pass invokes just the handlers that are due. -/
theorem mem_runFrom {now i j : ℕ} {hs : List Handler} {h : Handler} (hj : hs[j]? = some h) :
    i + j ∈ (runFrom now i hs).2 ↔ (h.poll now).2 = true := by
  induction hs generalizing i j with
  | nil => simp at hj
  | cons g hs ih =>
    cases j with
    | zero =>
      obtain rfl : g = h := by simpa using hj
      have hnot : i ∉ (runFrom now (i + 1) hs).2 := fun hmem => absurd (runFrom_ge hmem) (by omega)
      simp only [runFrom, Nat.add_zero]
      split
      · simp [*]
      · simp [*]
    | succ j =>
      have hrec := @ih (i + 1) j (by simpa using hj)
      rw [show i + 1 + j = i + (j + 1) by omega] at hrec
      have hne : i + (j + 1) ≠ i := by omega
      simp only [runFrom]
      split
      · rw [List.mem_cons, hrec, or_iff_right hne]
      · exact hrec

/-- What a run of passes does to a handler is what the passes do to it alone. -/
theorem runs_handler (ts : List ℕ) {s : Scheduler} {i : ℕ} {h : Handler}
    (hi : s.handlers[i]? = some h) :
    (s.runs ts).1.handlers[i]? = some (h.polls ts).1 ∧
      invoked i ts (s.runs ts).2 = (h.polls ts).2 := by
  induction ts generalizing s h with
  | nil => exact ⟨hi, rfl⟩
  | cons now ts ih =>
    have hnext : (s.run now).1.handlers[i]? = some (h.poll now).1 := by
      change (runFrom now 0 s.handlers).1[i]? = _
      rw [runFrom_handlers, List.getElem?_map, hi]
      rfl
    have hran : i ∈ (s.run now).2 ↔ (h.poll now).2 = true := by
      rw [← @mem_runFrom now 0 i s.handlers h hi, Nat.zero_add]
      rfl
    obtain ⟨hlast, hfires⟩ := ih hnext
    refine ⟨hlast, ?_⟩
    simp only [Scheduler.runs, Handler.polls, invoked, hfires]
    by_cases hfired : (h.poll now).2 = true
    · rw [if_pos hfired, if_pos (hran.mpr hfired)]
    · rw [if_neg hfired, if_neg fun hmem => hfired (hran.mp hmem)]

/-! ## Cadence -/

/-- What one poll does: nothing before the deadline; at it the deadline moves a period on, or a period
from now where that is past. -/
theorem poll_cases {h : Handler} {now : ℕ} (hdue : h.due ≤ now + h.period)
    (hnow : now + 2 * h.period < 2 ^ 64) :
    (now < h.due ∧ h.poll now = (h, false)) ∨
      (h.due ≤ now ∧ now < h.due + h.period ∧
        h.poll now = ({ h with due := h.due + h.period }, true)) ∨
      (h.due + h.period ≤ now ∧ h.poll now = ({ h with due := now + h.period }, true)) := by
  have hwrap : h.due + h.period < 2 ^ 64 := by omega
  have hwrap' : now + h.period < 2 ^ 64 := by omega
  unfold Handler.poll nextDue u64
  rw [Nat.mod_eq_of_lt hwrap, Nat.mod_eq_of_lt hwrap']
  by_cases hlt : now < h.due
  · rw [if_neg (by omega)]
    exact .inl ⟨hlt, rfl⟩
  · rw [if_pos (by omega)]
    by_cases hpast : h.due + h.period ≤ now
    · rw [if_pos hpast]
      exact .inr (.inr ⟨hpast, rfl⟩)
    · rw [if_neg hpast]
      exact .inr (.inl ⟨by omega, by omega, rfl⟩)

/-- The times of the polls are in order from `t` on, and the clock is two periods from its end. -/
def Clocked (period t : ℕ) : List ℕ → Prop
  | [] => True
  | u :: ts => t ≤ u ∧ u + 2 * period < 2 ^ 64 ∧ Clocked period u ts

/-- Polls change the deadline alone. -/
theorem polls_eq (ts : List ℕ) (h : Handler) :
    (h.polls ts).1 = { h with due := (h.polls ts).1.due } := by
  induction ts generalizing h with
  | nil => rfl
  | cons now ts ih =>
    have hperiod : (h.poll now).1.period = h.period := by
      unfold Handler.poll
      split <;> rfl
    have hstat : (h.poll now).1.stat = h.stat := by
      unfold Handler.poll
      split <;> rfl
    refine (ih (h.poll now).1).trans ?_
    rw [hperiod, hstat]
    rfl

/-- After a poll the deadline is ahead, by a period at most. -/
theorem poll_due {h : Handler} {now : ℕ} (hpos : 0 < h.period) (hdue : h.due ≤ now + h.period)
    (hnow : now + 2 * h.period < 2 ^ 64) : (h.poll now).1.period = h.period ∧
      now < (h.poll now).1.due ∧ (h.poll now).1.due ≤ now + h.period := by
  obtain ⟨hlt, hp⟩ | ⟨hle, hlt, hp⟩ | ⟨hle, hp⟩ := poll_cases hdue hnow
  all_goals
    rw [hp]
    dsimp only
    omega

/-- A poll that fires moves the deadline by a period, or more where it came late. -/
theorem poll_step {h : Handler} {now : ℕ} (hdue : h.due ≤ now + h.period)
    (hnow : now + 2 * h.period < 2 ^ 64) :
    ((h.poll now).2 = false ∧ (h.poll now).1.due = h.due) ∨
      ((h.poll now).2 = true ∧ h.due ≤ now ∧ h.due + h.period ≤ (h.poll now).1.due ∧
        (now < h.due + h.period → (h.poll now).1.due = h.due + h.period)) := by
  obtain ⟨-, hp⟩ | ⟨hle, -, hp⟩ | ⟨hlate, hp⟩ := poll_cases hdue hnow
  · exact .inl (by rw [hp]; exact ⟨rfl, rfl⟩)
  · exact .inr (by rw [hp]; exact ⟨rfl, hle, Nat.le_refl _, fun _ => rfl⟩)
  · refine .inr ?_
    rw [hp]
    exact ⟨rfl, by omega, Nat.add_le_add_right (by omega) _, fun hlt => by omega⟩

/-- By induction on the polls: `n` runs move the deadline by `n` periods at least, and all but the last
of them are before the last. -/
theorem polls_burst (ts : List ℕ) {h : Handler} {t : ℕ} (hpos : 0 < h.period)
    (hdue : h.due ≤ t + h.period) (hclock : Clocked h.period t ts) :
    ∀ k < (h.polls ts).2.length, ∃ f, (h.polls ts).2[k]? = some f ∧ h.due + k * h.period ≤ f := by
  induction ts generalizing h t with
  | nil => exact fun k hk => absurd hk (Nat.not_lt_zero k)
  | cons now ts ih =>
    obtain ⟨hle, hwrap, hclock'⟩ := hclock
    have hdue' : h.due ≤ now + h.period := by omega
    obtain ⟨hperiod, -, hahead⟩ := poll_due hpos hdue' hwrap
    have hrec := @ih (h.poll now).1 now (by rw [hperiod]; exact hpos) (by rw [hperiod]; exact hahead)
      (by rw [hperiod]; exact hclock')
    rw [hperiod] at hrec
    intro k hk
    obtain ⟨hfired, hsame⟩ | ⟨hfired, hnow, hnext, -⟩ := poll_step hdue' hwrap
    · simp only [Handler.polls, hfired, Bool.false_eq_true, if_false] at hk ⊢
      rw [hsame] at hrec
      exact hrec k hk
    · simp only [Handler.polls, hfired, if_true] at hk ⊢
      cases k with
      | zero => exact ⟨now, rfl, by omega⟩
      | succ k =>
        obtain ⟨f, hf, hlow⟩ := hrec k (by simpa using hk)
        refine ⟨f, by simpa using hf, ?_⟩
        rw [Nat.succ_mul]
        omega

/-- Every poll comes less than a period after the one before. -/
def Prompt (period t : ℕ) : List ℕ → Prop
  | [] => True
  | u :: ts => u < t + period ∧ Prompt period u ts

/-- The last of the times, `t` where there is none. -/
def lastOf (t : ℕ) : List ℕ → ℕ
  | [] => t
  | u :: ts => lastOf u ts

/-- By induction on the polls: where they are prompt, the deadlines are a period apart, the `k`-th run
is the first poll after the `k`-th of them, and no deadline is left behind. -/
theorem polls_cadence (ts : List ℕ) {h : Handler} {t : ℕ} (hpos : 0 < h.period) (hahead : t < h.due)
    (hdue : h.due ≤ t + h.period) (hclock : Clocked h.period t ts) (hprompt : Prompt h.period t ts) :
    (h.polls ts).1.due = h.due + (h.polls ts).2.length * h.period ∧
      lastOf t ts < (h.polls ts).1.due ∧ (h.polls ts).1.due ≤ lastOf t ts + h.period ∧
      ∀ k < (h.polls ts).2.length, ∃ f, (h.polls ts).2[k]? = some f ∧
        h.due + k * h.period ≤ f ∧ f < h.due + (k + 1) * h.period := by
  induction ts generalizing h t with
  | nil =>
    refine ⟨by simp [Handler.polls], hahead, hdue, fun k hk => absurd hk (Nat.not_lt_zero k)⟩
  | cons now ts ih =>
    obtain ⟨hle, hwrap, hclock'⟩ := hclock
    obtain ⟨hsoon, hprompt'⟩ := hprompt
    have hdue' : h.due ≤ now + h.period := by omega
    obtain ⟨hperiod, hafter, hwithin⟩ := poll_due hpos hdue' hwrap
    obtain ⟨hlast, hlow, hhigh, hall⟩ := @ih (h.poll now).1 now (by rw [hperiod]; exact hpos) hafter
      (by rw [hperiod]; exact hwithin) (by rw [hperiod]; exact hclock') (by rw [hperiod]; exact hprompt')
    rw [hperiod] at hlast hhigh hall
    obtain ⟨hfired, hsame⟩ | ⟨hfired, hnow, -, hnext⟩ := poll_step hdue' hwrap
    · simp only [Handler.polls, hfired, Bool.false_eq_true, if_false, lastOf]
      rw [hsame] at hlast hall
      exact ⟨hlast, hlow, hhigh, hall⟩
    · simp only [Handler.polls, hfired, if_true, lastOf, List.length_cons]
      have hlt : now < h.due + h.period := by omega
      rw [hnext hlt] at hlast hall
      refine ⟨?_, hlow, hhigh, fun k hk => ?_⟩
      · rw [hlast, Nat.succ_mul]
        omega
      · cases k with
        | zero => exact ⟨now, rfl, by omega, by omega⟩
        | succ k =>
          obtain ⟨f, hf, hge, hbefore⟩ := hall k (by omega)
          refine ⟨f, by simpa using hf, ?_, ?_⟩
          · rw [Nat.succ_mul]
            omega
          · rw [Nat.succ_mul]
            omega

/-- A handler that waits is not shortened: between its runs there is room for all deadlines but two. -/
theorem polls_spread (ts : List ℕ) {h : Handler} {t : ℕ} (hpos : 0 < h.period)
    (hdue : h.due ≤ t + h.period) (hclock : Clocked h.period t ts) {j k f g : ℕ} (hjk : j < k)
    (hf : (h.polls ts).2[j]? = some f) (hg : (h.polls ts).2[k]? = some g) :
    f + (k - j - 1) * h.period < g := by
  induction ts generalizing h t j k with
  | nil => simp [Handler.polls] at hf
  | cons now ts ih =>
    obtain ⟨hle, hwrap, hclock'⟩ := hclock
    have hdue' : h.due ≤ now + h.period := by omega
    obtain ⟨hperiod, hafter, hwithin⟩ := poll_due hpos hdue' hwrap
    have hpos' : 0 < (h.poll now).1.period := by rw [hperiod]; exact hpos
    have hwithin' : (h.poll now).1.due ≤ now + (h.poll now).1.period := by rw [hperiod]; exact hwithin
    have hclock'' : Clocked (h.poll now).1.period now ts := by rw [hperiod]; exact hclock'
    have hrec := @ih (h.poll now).1 now
    have hburst := polls_burst ts hpos' hwithin' hclock''
    rw [hperiod] at hrec hburst
    cases hfired : (h.poll now).2 with
    | false =>
      simp only [Handler.polls, hfired, Bool.false_eq_true, if_false] at hf hg
      exact hrec hpos hwithin hclock' hjk hf hg
    | true =>
      simp only [Handler.polls, hfired, if_true] at hf hg
      cases j with
      | zero =>
        obtain ⟨k, rfl⟩ : ∃ k', k = k' + 1 := ⟨k - 1, by omega⟩
        obtain rfl : now = f := by simpa using hf
        rw [List.getElem?_cons_succ] at hg
        obtain ⟨g', hg', hlow⟩ := hburst k (List.getElem?_eq_some_iff.mp hg).1
        obtain rfl := Option.some.inj (hg'.symm.trans hg)
        rw [show k + 1 - 0 - 1 = k by omega]
        omega
      | succ j =>
        obtain ⟨k, rfl⟩ : ∃ k', k = k' + 1 := ⟨k - 1, by omega⟩
        rw [List.getElem?_cons_succ] at hf hg
        have hsub : k + 1 - (j + 1) - 1 = k - j - 1 := by omega
        rw [hsub]
        exact hrec hpos hwithin hclock' (by omega) hf hg

/-- Over any passes, each handler runs as it would alone. Between two runs of a handler there is time
for all but the two deadlines at their ends, so it never catches up in a burst. Where each pass comes
less than a period after the one before, its runs stay on the grid that the first pass left: the `k`-th
is the first pass after the `k`-th deadline, and there are as many as deadlines. -/
theorem cadence (s : Scheduler) (first : ℕ) (ts : List ℕ) (i : ℕ) (h : Handler)
    (hi : s.handlers[i]? = some h) (hpos : 0 < h.period) (hdue : h.due ≤ first + h.period)
    (hclock : Clocked h.period first (first :: ts)) :
    (s.runs (first :: ts)).1.handlers[i]? = some (h.polls (first :: ts)).1 ∧
      (∀ j k f g, j < k → (invoked i (first :: ts) (s.runs (first :: ts)).2)[j]? = some f →
        (invoked i (first :: ts) (s.runs (first :: ts)).2)[k]? = some g →
        f + (k - j - 1) * h.period < g) ∧
      (Prompt h.period first ts → ∃ grid, first < grid ∧ grid ≤ first + h.period ∧
        ∃ n, (s.runs (first :: ts)).1.handlers[i]? = some { h with due := grid + n * h.period } ∧
          (invoked i ts ((s.run first).1.runs ts).2).length = n ∧
          lastOf first ts < grid + n * h.period ∧ grid + n * h.period ≤ lastOf first ts + h.period ∧
          ∀ k < n, ∃ f, (invoked i ts ((s.run first).1.runs ts).2)[k]? = some f ∧
            grid + k * h.period ≤ f ∧ f < grid + (k + 1) * h.period) := by
  obtain ⟨hlast, hfires⟩ := runs_handler (first :: ts) hi
  refine ⟨hlast, fun j k f g hjk hf hg => ?_, fun hprompt => ?_⟩
  · rw [hfires] at hf hg
    exact polls_spread (first :: ts) hpos hdue hclock hjk hf hg
  · obtain ⟨hle, hwrap, hclock'⟩ := hclock
    obtain ⟨hperiod, hafter, hwithin⟩ := poll_due hpos hdue hwrap
    have hnext : (s.run first).1.handlers[i]? = some (h.poll first).1 := by
      obtain ⟨hone, -⟩ := runs_handler [first] hi
      exact hone
    obtain ⟨hlast', hfires'⟩ := runs_handler ts hnext
    obtain ⟨hdue', hlow, hhigh, hall⟩ := polls_cadence ts (by rw [hperiod]; exact hpos) hafter
      (by rw [hperiod]; exact hwithin) (by rw [hperiod]; exact hclock') (by rw [hperiod]; exact hprompt)
    rw [← hfires', hperiod] at hall hdue'
    rw [hdue'] at hlow hhigh
    rw [hperiod] at hhigh
    refine ⟨_, hafter, hwithin, _, ?_, rfl, hlow, hhigh, hall⟩
    rw [← hdue', hlast]
    exact congrArg some (polls_eq (first :: ts) h)

theorem cadence_ten :
    ((Scheduler.runs { handlers := [{ period := 10 }] } [5, 15, 24]).1.handlers[0]? =
      some (Handler.polls { period := 10 } [5, 15, 24]).1) :=
  (cadence { handlers := [{ period := 10 }] } 5 [15, 24] 0 { period := 10 } rfl (by decide) (by decide)
    ⟨by decide, by decide, by decide, by decide, by decide, by decide, trivial⟩).1

end BloblyEmb.Loom
