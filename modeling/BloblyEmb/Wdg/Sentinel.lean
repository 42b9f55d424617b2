import BloblyEmb.Lib.Pending
import BloblyEmb.Lib.Stamp
import BloblyEmb.Lib.Trace
import Mathlib.Data.Int.Basic

/-!
# Supervision that gates the watchdog

Each supervised entity reports that it is alive, and may bound an activity by a deadline
(`wdg/sentinel`). The hardware watchdog is served only while every entity is healthy, and a failure
is latched. Failures are found late: at the next checkpoint, at the finish, or at the next service.
-/
namespace BloblyEmb.Sentinel

structure Entity where
  periodUs : UInt64
  deadlineUs : UInt64

structure Supervisor where
  cfg : ℕ → Entity
  n : ℕ
  seen : ℕ → Bool := fun _ => false
  lastAliveUs : ℕ → UInt64 := fun _ => 0
  startUs : ℕ → UInt64 := fun _ => 0
  active : ℕ → Bool := fun _ => false
  tripped : Bool := false

namespace Supervisor

def checkpoint (s : Supervisor) (id : ℤ) (now : UInt64) : Supervisor :=
  if 0 ≤ id ∧ id < s.n then
    let i := id.toNat
    { s with
      tripped := s.tripped ||
        (s.seen i && decide ((s.cfg i).periodUs < now - s.lastAliveUs i))
      seen := Function.update s.seen i true
      lastAliveUs := Function.update s.lastAliveUs i now }
  else s

def start (s : Supervisor) (id : ℤ) (now : UInt64) : Supervisor :=
  if 0 ≤ id ∧ id < s.n then
    { s with
      active := Function.update s.active id.toNat true
      startUs := Function.update s.startUs id.toNat now }
  else s

/-- The activity of the entity is past its deadline. -/
def overdue (s : Supervisor) (i : ℕ) (now : UInt64) : Bool :=
  s.active i && decide (0 < (s.cfg i).deadlineUs) &&
    decide ((s.cfg i).deadlineUs < now - s.startUs i)

def finish (s : Supervisor) (id : ℤ) (now : UInt64) : Supervisor :=
  if 0 ≤ id ∧ id < s.n then
    { s with
      tripped := s.tripped || s.overdue id.toNat now
      active := Function.update s.active id.toNat false }
  else s

/-- The loop over the entities. -/
def healthyFrom (s : Supervisor) (now : UInt64) : List ℕ → Supervisor × Bool
  | [] => (s, true)
  | i :: is =>
    if !s.seen i then (s, false)
    else if (s.cfg i).periodUs < now - s.lastAliveUs i then ({ s with tripped := true }, false)
    else if s.overdue i now then ({ s with tripped := true }, false)
    else s.healthyFrom now is

def healthy (s : Supervisor) (now : UInt64) : Supervisor × Bool :=
  s.healthyFrom now (List.range s.n)

def service (s : Supervisor) (now : UInt64) : Supervisor × Bool :=
  if s.tripped then (s, false) else s.healthy now

end Supervisor

/-! ## The calls -/

inductive Call where
  | checkpoint (id : ℤ)
  | start (id : ℤ)
  | finish (id : ℤ)
  | service
deriving DecidableEq

structure Event where
  now : UInt64
  call : Call
deriving DecidableEq

inductive Label where
  | quiet
  | service (kick : Bool)
deriving DecidableEq

def step (s : Supervisor) (e : Event) : Supervisor × Label :=
  match e.call with
  | .checkpoint id => (s.checkpoint id e.now, .quiet)
  | .start id => (s.start id e.now, .quiet)
  | .finish id => (s.finish id e.now, .quiet)
  | .service => ((s.service e.now).1, .service (s.service e.now).2)

abbrev Step := Trace.Entry Supervisor Event Label

/-! ## What a history shows -/

/-- The entity checkpointed at `t` for the last time. -/
def LastAlive (i : ℕ) (t : UInt64) (hist : List Step) : Prop :=
  Trace.Open (fun x => x.event = ⟨t, .checkpoint i⟩) (fun x => x.event.call = .checkpoint i) hist

/-- After the checkpoint at `t` the entity did not checkpoint again within its period. -/
def Unrenewed (e : Entity) (i : ℕ) (t : UInt64) (hist : List Step) : Prop :=
  Trace.Open (fun x => x.event = ⟨t, .checkpoint i⟩)
    (fun x => x.event.call = .checkpoint i ∧ x.event.now.toNat ≤ t.toNat + e.periodUs.toNat) hist

/-- The activity that was started at `t` is in progress. -/
def InProgress (i : ℕ) (t : UInt64) (hist : List Step) : Prop :=
  Trace.Open (fun x => x.event = ⟨t, .start i⟩) (fun x => x.event.call = .finish i) hist

/-- The activity that was started at `t` was not finished within its deadline. -/
def Unfinished (e : Entity) (i : ℕ) (t : UInt64) (hist : List Step) : Prop :=
  Trace.Open (fun x => x.event = ⟨t, .start i⟩)
    (fun x => x.event.call = .finish i ∧ x.event.now.toNat ≤ t.toNat + e.deadlineUs.toNat) hist

/-- By now the entity has failed once. -/
def Failed (e : Entity) (i : ℕ) (now : UInt64) (hist : List Step) : Prop :=
  (∃ t, Unrenewed e i t hist ∧ t.toNat + e.periodUs.toNat < now.toNat) ∨
    0 < e.deadlineUs ∧ ∃ t, Unfinished e i t hist ∧ t.toNat + e.deadlineUs.toNat < now.toNat

/-- The entity is alive and no activity of it is past its deadline. -/
def Alive (e : Entity) (i : ℕ) (now : UInt64) (hist : List Step) : Prop :=
  (∃ t, LastAlive i t hist ∧ now.toNat ≤ t.toNat + e.periodUs.toNat) ∧
    ∀ t, InProgress i t hist → 0 < e.deadlineUs → now.toNat ≤ t.toNat + e.deadlineUs.toNat

/-- What a service answers. -/
structure Supervises (cfg : ℕ → Entity) (n : ℕ) (hist : List Step) (x : Step) : Prop where
  caught : x.event.call = .service → (∃ i < n, Failed (cfg i) i x.event.now hist) →
    x.label = .service false
  kicked : x.label = .service true → ∀ i < n, Alive (cfg i) i x.event.now hist

/-- Times do not run backwards. -/
def InOrder (hist : List Step) (x : Step) : Prop := ∀ y ∈ hist, y.event.now ≤ x.event.now

instance (hist : List Step) (x : Step) : Decidable (InOrder hist x) :=
  inferInstanceAs (Decidable (∀ y ∈ hist, y.event.now ≤ x.event.now))

/-- The step looks at the deadline of the entity. -/
def Judged (i : ℕ) (x : Step) : Prop :=
  x.event.call = .service ∨ x.event.call = .finish i

/-- Where the deadline of an activity is judged, an activity that was started again before it was
finished is overdue from its last start when it is from an earlier one. -/
structure Careful (cfg : ℕ → Entity) (n : ℕ) (hist : List Step) (x : Step) : Prop where
  order : InOrder hist x
  restart : x.before.tripped = false → ∀ i < n, Judged i x → 0 < (cfg i).deadlineUs →
    ∀ t, InProgress i t hist → t.toNat + (cfg i).deadlineUs.toNat < x.event.now.toNat →
      (x.before.startUs i).toNat + (cfg i).deadlineUs.toNat < x.event.now.toNat

/-! ## The invariant -/

structure Inv (cfg : ℕ → Entity) (n : ℕ) (s : Supervisor) (hist : List Step) : Prop where
  entities : s.cfg = cfg
  count : s.n = n
  seen : ∀ i < n, s.seen i = true → LastAlive i (s.lastAliveUs i) hist
  renewed : s.tripped = false → ∀ i < n, ∀ t, Unrenewed (cfg i) i t hist →
    s.seen i = true ∧ s.lastAliveUs i = t
  latest : ∀ i < n, s.active i = true → InProgress i (s.startUs i) hist
  active : ∀ i < n, ∀ t, InProgress i t hist → s.active i = true
  finished : s.tripped = false → ∀ i < n, 0 < (cfg i).deadlineUs → ∀ t,
    Unfinished (cfg i) i t hist → InProgress i t hist

section Steps

variable {cfg : ℕ → Entity} {n : ℕ} {s : Supervisor} {hist : List Step} {x : Step}

theorem InOrder.lastAlive_le (ho : InOrder hist x) {i : ℕ} {t : UInt64}
    (h : LastAlive i t hist) : t ≤ x.event.now := by
  obtain ⟨y, hy, heq⟩ := h.exists_mem
  have hle := ho y hy
  rwa [heq] at hle

theorem InOrder.inProgress_le (ho : InOrder hist x) {i : ℕ} {t : UInt64}
    (h : InProgress i t hist) : t ≤ x.event.now := by
  obtain ⟨y, hy, heq⟩ := h.exists_mem
  have hle := ho y hy
  rwa [heq] at hle

/-- An entity is healthy. -/
def Supervisor.Fine (s : Supervisor) (now : UInt64) (i : ℕ) : Prop :=
  s.seen i = true ∧ now - s.lastAliveUs i ≤ (s.cfg i).periodUs ∧ s.overdue i now = false

theorem healthyFrom_spec (s : Supervisor) (now : UInt64) (is : List ℕ) :
    ((s.healthyFrom now is).2 = true ↔ ∀ i ∈ is, s.Fine now i) ∧
      ∃ b, (s.tripped = true → b = true) ∧
        (s.healthyFrom now is).1 = { s with tripped := b } := by
  induction is with
  | nil => exact ⟨by simp [Supervisor.healthyFrom], s.tripped, id, rfl⟩
  | cons i is ih =>
    rw [Supervisor.healthyFrom, List.forall_mem_cons]
    by_cases hseen : s.seen i = true
    · rw [if_neg (by simp [hseen])]
      by_cases hlate : (s.cfg i).periodUs < now - s.lastAliveUs i
      · rw [if_pos hlate]
        have hfine : ¬s.Fine now i := by
          intro h
          exact absurd h.2.1 (UInt64.not_le.mpr hlate)
        exact ⟨by simp [hfine], true, by simp⟩
      · rw [if_neg hlate]
        by_cases hover : s.overdue i now = true
        · rw [if_pos hover]
          have hfine : ¬s.Fine now i := by
            rintro ⟨-, -, hnot⟩
            simp [hover] at hnot
          exact ⟨by simp [hfine], true, by simp⟩
        · rw [if_neg hover]
          have hfine : s.Fine now i :=
            ⟨hseen, UInt64.not_lt.mp hlate, by simpa using hover⟩
          simpa [hfine] using ih
    · rw [if_pos (by simpa using hseen)]
      have hfine : ¬s.Fine now i := fun h => hseen h.1
      exact ⟨by simp [hfine], s.tripped, by simp⟩

theorem service_spec (s : Supervisor) (now : UInt64) :
    ((s.service now).2 = true ↔ s.tripped = false ∧ ∀ i < s.n, s.Fine now i) ∧
      ∃ b, (s.tripped = true → b = true) ∧ (s.service now).1 = { s with tripped := b } := by
  by_cases htrip : s.tripped = true
  · have hservice : s.service now = (s, false) := by simp [Supervisor.service, htrip]
    rw [hservice]
    exact ⟨by simp [htrip], s.tripped, id, rfl⟩
  · have hservice : s.service now = s.healthyFrom now (List.range s.n) := by
      simp [Supervisor.service, Supervisor.healthy, htrip]
    rw [hservice]
    simpa [htrip] using healthyFrom_spec s now (List.range s.n)

theorem lastAlive_snoc {i : ℕ} {t : UInt64} :
    LastAlive i t (hist ++ [x]) ↔ x.event = ⟨t, .checkpoint i⟩ ∨
      (LastAlive i t hist ∧ x.event.call ≠ .checkpoint i) := Trace.open_snoc

theorem unrenewed_snoc {e : Entity} {i : ℕ} {t : UInt64} :
    Unrenewed e i t (hist ++ [x]) ↔ x.event = ⟨t, .checkpoint i⟩ ∨ (Unrenewed e i t hist ∧
      ¬(x.event.call = .checkpoint i ∧ x.event.now.toNat ≤ t.toNat + e.periodUs.toNat)) :=
  Trace.open_snoc

theorem inProgress_snoc {i : ℕ} {t : UInt64} :
    InProgress i t (hist ++ [x]) ↔ x.event = ⟨t, .start i⟩ ∨
      (InProgress i t hist ∧ x.event.call ≠ .finish i) := Trace.open_snoc

theorem unfinished_snoc {e : Entity} {i : ℕ} {t : UInt64} :
    Unfinished e i t (hist ++ [x]) ↔ x.event = ⟨t, .start i⟩ ∨ (Unfinished e i t hist ∧
      ¬(x.event.call = .finish i ∧ x.event.now.toNat ≤ t.toNat + e.deadlineUs.toNat)) :=
  Trace.open_snoc

/-- The call is none of an entity that is supervised. -/
def Foreign (n : ℕ) (c : Call) : Prop :=
  ∀ i < n, c ≠ .checkpoint i ∧ c ≠ .start i ∧ c ≠ .finish i

/-- A call for none of the entities may trip the supervisor, and leaves the rest as it was. -/
theorem Inv.foreign (h : Inv cfg n s hist) (hx : Foreign n x.event.call) {b : Bool}
    (hb : s.tripped = true → b = true) :
    Inv cfg n { s with tripped := b } (hist ++ [x]) := by
  have hevent : ∀ t c, x.event = ⟨t, c⟩ → x.event.call = c := by
    intro t c heq
    rw [heq]
  have hfree : b = false → s.tripped = false := by
    intro hfalse
    cases htrip : s.tripped with
    | false => rfl
    | true => simp [hb htrip] at hfalse
  constructor
  case entities => exact h.entities
  case count => exact h.count
  case seen =>
    intro i hi hseen
    exact lastAlive_snoc.mpr (.inr ⟨h.seen i hi hseen, (hx i hi).1⟩)
  case renewed =>
    intro hfalse i hi t hopen
    rcases unrenewed_snoc.mp hopen with heq | ⟨hold, -⟩
    · exact absurd (hevent _ _ heq) (hx i hi).1
    · exact h.renewed (hfree hfalse) i hi t hold
  case latest =>
    intro i hi hactive
    exact inProgress_snoc.mpr (.inr ⟨h.latest i hi hactive, (hx i hi).2.2⟩)
  case active =>
    intro i hi t hopen
    rcases inProgress_snoc.mp hopen with heq | ⟨hold, -⟩
    · exact absurd (hevent _ _ heq) (hx i hi).2.1
    · exact h.active i hi t hold
  case finished =>
    intro hfalse i hi hdeadline t hopen
    rcases unfinished_snoc.mp hopen with heq | ⟨hold, -⟩
    · exact absurd (hevent _ _ heq) (hx i hi).2.1
    · exact inProgress_snoc.mpr
        (.inr ⟨h.finished (hfree hfalse) i hi hdeadline t hold, (hx i hi).2.2⟩)

theorem Inv.checkpoint (h : Inv cfg n s hist) (ho : InOrder hist x) {i : ℕ} (hi : i < n)
    {now : UInt64} (hx : x.event = ⟨now, .checkpoint i⟩) :
    Inv cfg n (s.checkpoint i now) (hist ++ [x]) := by
  have hin : (0 : ℤ) ≤ i ∧ (i : ℤ) < s.n := by
    rw [h.count]
    omega
  have hother : ∀ j : ℕ, j ≠ i → (Call.checkpoint i ≠ .checkpoint j) := by
    intro j hj heq
    simp only [Call.checkpoint.injEq] at heq
    omega
  rw [Supervisor.checkpoint, if_pos hin, Int.toNat_natCast]
  dsimp only
  constructor
  case entities => exact h.entities
  case count => exact h.count
  case seen =>
    intro j hj hseen
    rw [lastAlive_snoc, hx]
    by_cases heq : j = i
    · subst heq
      simp
    · simp only [Function.update_of_ne heq] at hseen ⊢
      exact .inr ⟨h.seen j hj hseen, hother j heq⟩
  case renewed =>
    intro htrip j hj t hopen
    rw [Bool.or_eq_false_iff] at htrip
    rw [unrenewed_snoc, hx] at hopen
    by_cases heq : j = i
    · subst heq
      simp only [Function.update_self]
      rcases hopen with hnew | ⟨hold, hlate⟩
      · simp only [Event.mk.injEq, and_true] at hnew
        exact ⟨trivial, hnew⟩
      · -- The last checkpoint was not renewed in time: this one has found it.
        obtain ⟨hseen, rfl⟩ := h.renewed htrip.1 j hj t hold
        have hle := ho.lastAlive_le (h.seen j hj hseen)
        rw [hx] at hle
        have hfine := htrip.2
        rw [hseen, Bool.true_and, decide_eq_false_iff_not, Stamp.lt_elapsed_iff hle, h.entities] at hfine
        simp only [true_and, Nat.not_le] at hlate
        exact absurd hlate hfine
    · simp only [Function.update_of_ne heq]
      rcases hopen with hnew | ⟨hold, -⟩
      · simp only [Event.mk.injEq] at hnew
        exact absurd hnew.2 (hother j heq)
      · exact h.renewed htrip.1 j hj t hold
  case latest =>
    intro j hj hactive
    exact inProgress_snoc.mpr (.inr ⟨h.latest j hj hactive, by simp [hx]⟩)
  case active =>
    intro j hj t hopen
    rw [inProgress_snoc, hx] at hopen
    simp only [Event.mk.injEq, reduceCtorEq, and_false, false_or] at hopen
    exact h.active j hj t hopen.1
  case finished =>
    intro htrip j hj hdeadline t hopen
    rw [Bool.or_eq_false_iff] at htrip
    rw [unfinished_snoc, hx] at hopen
    simp only [Event.mk.injEq, reduceCtorEq, and_false, false_or] at hopen
    exact inProgress_snoc.mpr (.inr ⟨h.finished htrip.1 j hj hdeadline t hopen.1, by simp [hx]⟩)

theorem Inv.start (h : Inv cfg n s hist) {i : ℕ} (hi : i < n) {now : UInt64}
    (hx : x.event = ⟨now, .start i⟩) : Inv cfg n (s.start i now) (hist ++ [x]) := by
  have hin : (0 : ℤ) ≤ i ∧ (i : ℤ) < s.n := by
    rw [h.count]
    omega
  rw [Supervisor.start, if_pos hin, Int.toNat_natCast]
  constructor
  case entities => exact h.entities
  case count => exact h.count
  case seen =>
    intro j hj hseen
    exact lastAlive_snoc.mpr (.inr ⟨h.seen j hj hseen, by simp [hx]⟩)
  case renewed =>
    intro htrip j hj t hopen
    rw [unrenewed_snoc, hx] at hopen
    simp only [Event.mk.injEq, reduceCtorEq, and_false, false_or] at hopen
    exact h.renewed htrip j hj t hopen.1
  case latest =>
    intro j hj hactive
    rw [inProgress_snoc, hx]
    by_cases heq : j = i
    · subst heq
      simp
    · simp only [Function.update_of_ne heq] at hactive ⊢
      exact .inr ⟨h.latest j hj hactive, by simp⟩
  case active =>
    intro j hj t hopen
    by_cases heq : j = i
    · subst heq
      simp
    · rw [inProgress_snoc, hx] at hopen
      simp only [Function.update_of_ne heq]
      rcases hopen with hnew | ⟨hold, -⟩
      · simp only [Event.mk.injEq, Call.start.injEq, Int.natCast_inj] at hnew
        exact absurd hnew.2.symm heq
      · exact h.active j hj t hold
  case finished =>
    intro htrip j hj hdeadline t hopen
    rw [unfinished_snoc] at hopen
    rw [inProgress_snoc]
    rcases hopen with hnew | ⟨hold, -⟩
    · exact .inl hnew
    · exact .inr ⟨h.finished htrip j hj hdeadline t hold, by simp [hx]⟩

theorem Inv.finish (h : Inv cfg n s hist) (hc : Careful cfg n hist x) (hs : x.before = s) {i : ℕ}
    (hi : i < n) {now : UInt64} (hx : x.event = ⟨now, .finish i⟩) :
    Inv cfg n (s.finish i now) (hist ++ [x]) := by
  have hin : (0 : ℤ) ≤ i ∧ (i : ℤ) < s.n := by
    rw [h.count]
    omega
  have hother : ∀ j : ℕ, j ≠ i → Call.finish i ≠ .finish j := by
    intro j hj heq
    simp only [Call.finish.injEq] at heq
    omega
  rw [Supervisor.finish, if_pos hin, Int.toNat_natCast]
  constructor
  case entities => exact h.entities
  case count => exact h.count
  case seen =>
    intro j hj hseen
    exact lastAlive_snoc.mpr (.inr ⟨h.seen j hj hseen, by simp [hx]⟩)
  case renewed =>
    intro htrip j hj t hopen
    rw [Bool.or_eq_false_iff] at htrip
    rw [unrenewed_snoc, hx] at hopen
    simp only [Event.mk.injEq, reduceCtorEq, and_false, false_or] at hopen
    exact h.renewed htrip.1 j hj t hopen.1
  case latest =>
    intro j hj hactive
    by_cases heq : j = i
    · subst heq
      simp at hactive
    · simp only [Function.update_of_ne heq] at hactive ⊢
      rw [inProgress_snoc, hx]
      exact .inr ⟨h.latest j hj hactive, hother j heq⟩
  case active =>
    intro j hj t hopen
    rw [inProgress_snoc, hx] at hopen
    by_cases heq : j = i
    · subst heq
      simp at hopen
    · simp only [Function.update_of_ne heq]
      rcases hopen with hnew | ⟨hold, -⟩
      · simp at hnew
      · exact h.active j hj t hold
  case finished =>
    intro htrip j hj hdeadline t hopen
    rw [Bool.or_eq_false_iff] at htrip
    rw [unfinished_snoc, hx] at hopen
    simp only [Event.mk.injEq, reduceCtorEq, and_false, false_or] at hopen
    have hold := h.finished htrip.1 j hj hdeadline t hopen.1
    by_cases heq : j = i
    · -- The activity ends past its deadline: that is found here.
      subst heq
      have hlate := hopen.2
      simp only [true_and, Nat.not_le] at hlate
      have hjudge := hc.restart (by rw [hs]; exact htrip.1) j hj (.inr (by rw [hx])) hdeadline t hold
        (by rw [hx]; exact hlate)
      have hactive := h.active j hj t hold
      have hle := hc.order.inProgress_le (h.latest j hj hactive)
      rw [hx] at hle hjudge
      rw [hs] at hjudge
      have hover : s.overdue j now = true := by
        have hpast : (cfg j).deadlineUs < now - s.startUs j :=
          (Stamp.lt_elapsed_iff hle).mpr hjudge
        simp [Supervisor.overdue, hactive, h.entities, hpast, show 0 < (cfg j).deadlineUs from hdeadline]
      rw [hover] at htrip
      cases htrip.2
    · rw [inProgress_snoc, hx]
      exact .inr ⟨hold, hother j heq⟩

/-- The entity is healthy exactly when it is alive. -/
theorem Inv.fine (h : Inv cfg n s hist) (hc : Careful cfg n hist x) (hs : x.before = s)
    (hcall : x.event.call = .service) (htrip : s.tripped = false) {i : ℕ} (hi : i < n)
    (hfine : s.Fine x.event.now i) :
    Alive (cfg i) i x.event.now hist ∧ ¬Failed (cfg i) i x.event.now hist := by
  obtain ⟨hseen, halive, hover⟩ := hfine
  have hlast := h.seen i hi hseen
  have hle := hc.order.lastAlive_le hlast
  rw [h.entities, ← UInt64.not_lt, Stamp.lt_elapsed_iff hle, Nat.not_lt] at halive
  have hdone : ∀ t, InProgress i t hist → 0 < (cfg i).deadlineUs →
      x.event.now.toNat ≤ t.toNat + (cfg i).deadlineUs.toNat := by
    intro t hopen hdeadline
    by_contra hlate
    have hactive := h.active i hi t hopen
    have hjudge := hc.restart (by rw [hs]; exact htrip) i hi (.inl hcall) hdeadline t hopen
      (Nat.not_le.mp hlate)
    have hstart := hc.order.inProgress_le (h.latest i hi hactive)
    rw [hs, ← Stamp.lt_elapsed_iff hstart] at hjudge
    simp [Supervisor.overdue, hactive, h.entities, hdeadline, hjudge] at hover
  refine ⟨⟨⟨_, hlast, halive⟩, hdone⟩, ?_⟩
  rintro (⟨t, hopen, hlate⟩ | ⟨hdeadline, t, hopen, hlate⟩)
  · obtain ⟨-, rfl⟩ := h.renewed htrip i hi t hopen
    omega
  · have hle' := hdone t (h.finished htrip i hi hdeadline t hopen) hdeadline
    omega

theorem Inv.supervises (h : Inv cfg n s hist) (hc : Careful cfg n hist x) (hs : x.before = s)
    (hcall : x.event.call = .service) (hlabel : x.label = .service (s.service x.event.now).2) :
    Supervises cfg n hist x := by
  have hspec := (service_spec s x.event.now).1
  rw [h.count] at hspec
  constructor
  case caught =>
    rintro - ⟨i, hi, hfailed⟩
    rw [hlabel, Label.service.injEq, ← Bool.not_eq_true, hspec]
    rintro ⟨htrip, hfine⟩
    exact (h.fine hc hs hcall htrip hi (hfine i hi)).2 hfailed
  case kicked =>
    intro hkick i hi
    rw [hlabel, Label.service.injEq, hspec] at hkick
    exact (h.fine hc hs hcall hkick.1 hi (hkick.2 i hi)).1

theorem good_step (h : Inv cfg n s hist) (e : Event)
    (hc : Careful cfg n hist (Trace.entry step s e)) :
    Inv cfg n (step s e).1 (hist ++ [Trace.entry step s e]) ∧
      Supervises cfg n hist (Trace.entry step s e) := by
  obtain ⟨now, call⟩ := e
  have hquiet : (step s ⟨now, call⟩).2 = .quiet → call ≠ .service →
      Supervises cfg n hist (Trace.entry step s ⟨now, call⟩) := by
    intro hlabel hcall
    constructor
    case caught => exact fun hservice => absurd hservice hcall
    case kicked => simp [hlabel]
  have hkeep : ∀ c : Call, Foreign n c → Inv cfg n s (hist ++ [Trace.entry step s ⟨now, c⟩]) :=
    fun c hforeign => h.foreign (b := s.tripped) hforeign id
  -- An id is that of an entity, or the call does nothing.
  have hid : ∀ id : ℤ, (∃ i < n, id = (i : ℤ)) ∨ ¬(0 ≤ id ∧ id < s.n) := by
    intro id
    rw [h.count]
    by_cases hin : 0 ≤ id ∧ id < n
    · exact .inl ⟨id.toNat, by omega, by omega⟩
    · exact .inr hin
  have hout : ∀ id : ℤ, ¬(0 ≤ id ∧ id < s.n) → ∀ i < n, id ≠ (i : ℤ) := by
    intro id hnot i hi heq
    rw [h.count] at hnot
    omega
  cases call with
  | checkpoint id =>
    refine ⟨?_, hquiet rfl (by simp)⟩
    rcases hid id with ⟨i, hi, rfl⟩ | hnot
    · exact h.checkpoint hc.order hi rfl
    · simpa [step, Supervisor.checkpoint, if_neg hnot] using
        hkeep (.checkpoint id) fun i hi => ⟨by simpa using hout id hnot i hi, by simp, by simp⟩
  | start id =>
    refine ⟨?_, hquiet rfl (by simp)⟩
    rcases hid id with ⟨i, hi, rfl⟩ | hnot
    · exact h.start hi rfl
    · simpa [step, Supervisor.start, if_neg hnot] using
        hkeep (.start id) fun i hi => ⟨by simp, by simpa using hout id hnot i hi, by simp⟩
  | finish id =>
    refine ⟨?_, hquiet rfl (by simp)⟩
    rcases hid id with ⟨i, hi, rfl⟩ | hnot
    · exact h.finish hc rfl hi rfl
    · simpa [step, Supervisor.finish, if_neg hnot] using
        hkeep (.finish id) fun i hi => ⟨by simp, by simp, by simpa using hout id hnot i hi⟩
  | service =>
    obtain ⟨-, b, hb, hstate⟩ := service_spec s now
    refine ⟨?_, h.supervises hc rfl rfl rfl⟩
    have hafter : (step s ⟨now, .service⟩).1 = { s with tripped := b } := hstate
    rw [hafter]
    exact h.foreign (by simp [Foreign]) hb

end Steps

theorem inv_start (cfg : ℕ → Entity) (n : ℕ) : Inv cfg n { cfg := cfg, n := n } [] := by
  constructor
  case entities => rfl
  case count => rfl
  case seen => simp
  case renewed => simp [Unrenewed]
  case latest => simp
  case active => simp [InProgress]
  case finished => simp [Unfinished]

/-- While no activity is started again past the deadline of an earlier start, no failure is
missed. -/
theorem misses_nothing (cfg : ℕ → Entity) (n : ℕ) (es : List Event)
    (hc : Trace.Along (Careful cfg n) (Trace.history step { cfg := cfg, n := n } es)) :
    Trace.Along (Supervises cfg n) (Trace.history step { cfg := cfg, n := n } es) := by
  refine (Trace.run_along (inv_start cfg n) ?_ es hc).2
  intro es e h hx
  exact good_step h e hx

/-! ### An activity that is started again -/

/-- No activity is started while it is in progress. -/
def Single (n : ℕ) (hist : List Step) (x : Step) : Prop :=
  InOrder hist x ∧ ∀ i < n, x.event.call = .start i → x.before.active i = false

instance (n : ℕ) (hist : List Step) (x : Step) : Decidable (Single n hist x) :=
  inferInstanceAs (Decidable (InOrder hist x ∧
    ∀ i < n, x.event.call = .start i → x.before.active i = false))

section Single

variable {cfg : ℕ → Entity} {n : ℕ} {s : Supervisor} {hist : List Step}

/-- What is in progress was started last. -/
def StartedLast (n : ℕ) (s : Supervisor) (hist : List Step) : Prop :=
  ∀ i < n, ∀ t, InProgress i t hist → s.startUs i = t

theorem startUs_frame (s : Supervisor) {e : Event} {i : ℕ} (hne : e.call ≠ .start i) :
    (step s e).1.startUs i = s.startUs i := by
  obtain ⟨now, call⟩ := e
  cases call with
  | checkpoint id =>
    simp only [step, Supervisor.checkpoint]
    split <;> rfl
  | start id =>
    have hid : id ≠ i := by simpa using hne
    simp only [step, Supervisor.start]
    split
    · next hin =>
      have hother : i ≠ id.toNat := by omega
      simp [Function.update_of_ne hother]
    · rfl
  | finish id =>
    simp only [step, Supervisor.finish]
    split <;> rfl
  | service =>
    obtain ⟨-, b, -, hstate⟩ := service_spec s now
    simp [step, hstate]

theorem StartedLast.step (hl : StartedLast n s hist) (h : Inv cfg n s hist) {e : Event}
    (hx : Single n hist (Trace.entry step s e)) :
    StartedLast n (step s e).1 (hist ++ [Trace.entry step s e]) := by
  intro i hi t hopen
  rw [inProgress_snoc] at hopen
  by_cases hstart : e.call = .start i
  · have hidle := hx.2 i hi hstart
    have hin : (0 : ℤ) ≤ i ∧ (i : ℤ) < s.n := by
      rw [h.count]
      omega
    have htime : t = e.now := by
      rcases hopen with hnew | ⟨hold, -⟩
      · rw [Trace.entry_event] at hnew
        rw [hnew]
      · have hactive := h.active i hi t hold
        rw [Trace.entry_before, hactive] at hidle
        cases hidle
    simp [BloblyEmb.Sentinel.step, hstart, Supervisor.start, hin, htime]
  · rw [startUs_frame s hstart]
    rcases hopen with hnew | ⟨hold, -⟩
    · rw [Trace.entry_event] at hnew
      exact absurd (by rw [hnew]) hstart
    · exact hl i hi t hold

/-- An activity that is not started again leaves nothing to miss. -/
theorem careful_of_single (cfg : ℕ → Entity) (n : ℕ) (es : List Event)
    (hc : Trace.Along (Single n) (Trace.history step { cfg := cfg, n := n } es)) :
    Trace.Along (Careful cfg n) (Trace.history step { cfg := cfg, n := n } es) := by
  refine (Trace.run_along
    (I := fun s hist => Inv cfg n s hist ∧ StartedLast n s hist) ?_ ?_ es hc).2
  · exact ⟨inv_start cfg n, by simp [StartedLast, InProgress]⟩
  · rintro es e ⟨h, hl⟩ hx
    have hcareful : Careful cfg n (Trace.history step { cfg := cfg, n := n } es)
        (Trace.entry step (Trace.final step { cfg := cfg, n := n } es) e) := by
      refine ⟨hx.1, ?_⟩
      intro _ i hi _ _ t hopen hlate
      rw [Trace.entry_before, hl i hi t hopen]
      exact hlate
    exact ⟨⟨(good_step h e hcareful).1, hl.step h hx⟩, hcareful⟩

end Single

/-- One entity with a period of 100 and a deadline of 10 for its activity. -/
def benchEntity : ℕ → Entity := fun _ => { periodUs := 100, deadlineUs := 10 }

/-- The activity is finished in time, and the next one is not. -/
def benchCaught : List Event :=
  [⟨0, .checkpoint 0⟩, ⟨0, .start 0⟩, ⟨8, .finish 0⟩, ⟨9, .service⟩, ⟨10, .start 0⟩, ⟨30, .service⟩]

theorem misses_nothing_bench :
    Trace.Along (Supervises benchEntity 1)
      (Trace.history step { cfg := benchEntity, n := 1 } benchCaught) :=
  misses_nothing benchEntity 1 benchCaught
    (careful_of_single benchEntity 1 benchCaught (Trace.along_of_get (by decide)))

/-- The activity runs on past its deadline, and starts again before anyone looks. -/
def benchRestart : List Event :=
  [⟨0, .checkpoint 0⟩, ⟨0, .start 0⟩, ⟨20, .start 0⟩]

theorem restart_hides :
    ¬∀ (cfg : ℕ → Entity) (n : ℕ) (es : List Event),
      Trace.Along InOrder (Trace.history step { cfg := cfg, n := n } es) →
        Trace.Along (Supervises cfg n) (Trace.history step { cfg := cfg, n := n } es) := by
  intro h
  have hrun := h benchEntity 1 (benchRestart ++ [⟨21, .service⟩]) (Trace.along_of_get (by decide))
  rw [Trace.history_snoc, Trace.along_snoc] at hrun
  have hcaught := hrun.2.caught rfl ⟨0, by decide, .inr ⟨by decide, 0, ?_, by decide⟩⟩
  · revert hcaught
    decide
  · refine ⟨Trace.history step { cfg := benchEntity, n := 1 } [⟨0, .checkpoint 0⟩],
      _, _, rfl, rfl, ?_⟩
    simp [Trace.entry]

end BloblyEmb.Sentinel
