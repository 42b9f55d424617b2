import BloblyEmb.Lib.Stamp
import BloblyEmb.Lib.Trace

/-!
# Transmission of a PDU

A PDU goes out on a cycle, when its content changes, or when it is triggered (`comm/com`). A tick
decides whether the packed payload should be sent now, and only a frame that the channel accepts is
recorded as sent.
-/
namespace BloblyEmb.Transmit

inductive TxMode where
  | cyclic
  | event
  | mixed
  | triggered
deriving DecidableEq

structure TxState where
  mode : TxMode
  cycleUs : UInt64
  minDelayUs : UInt64
  lastUs : UInt64 := 0
  sent : Bool := false
  pending : Bool := false
  last : ℕ → UInt8 := fun _ => 0

def same (a b : ℕ → UInt8) (len : ℕ) : Bool := (List.range len).all fun i => a i == b i

namespace TxState

def shouldSend (t : TxState) (now : UInt64) (data : ℕ → UInt8) (len : ℕ) : Bool :=
  let changed := !t.sent || !same t.last data len
  let cyclicDue := (t.mode == .cyclic || t.mode == .mixed) &&
    (!t.sent || t.cycleUs ≤ now - t.lastUs)
  let eventDue := (t.mode == .event || t.mode == .mixed) && changed &&
    (!t.sent || t.minDelayUs ≤ now - t.lastUs)
  let trigDue := t.mode == .triggered && t.pending && (!t.sent || t.minDelayUs ≤ now - t.lastUs)
  cyclicDue || eventDue || trigDue

def markSent (t : TxState) (now : UInt64) (data : ℕ → UInt8) (len : ℕ) : TxState :=
  { t with
    last := fun i => if i < len then data i else t.last i
    lastUs := now
    sent := true
    pending := false }

def trigger (t : TxState) : TxState := { t with pending := true }

end TxState

/-! ## The bridge -/

inductive Event where
  /-- A tick, and whether the channel takes a frame of it. -/
  | tick (now : UInt64) (data : ℕ → UInt8) (accepts : Bool)
  | trigger

def Event.time : Event → Option UInt64
  | .tick now _ _ => some now
  | .trigger => none

inductive Label where
  | quiet
  | tick (offered sent : Bool)
deriving DecidableEq

def step (len : ℕ) (t : TxState) : Event → TxState × Label
  | .tick now data accepts =>
    if t.shouldSend now data len then
      if accepts then (t.markSent now data len, .tick true true) else (t, .tick true false)
    else (t, .tick false false)
  | .trigger => (t.trigger, .quiet)

/-! ## What a run shows -/

abbrev Step := Trace.Entry TxState Event Label

/-- What has been sent so far, the last transmission first, the last tick, and whether a trigger
came after the last transmission. -/
structure Past where
  clock : ℕ := 0
  sent : List (ℕ × (ℕ → UInt8)) := []
  triggered : Bool := false

def Past.note (p : Past) (e : Event) (l : Label) : Past :=
  match e, l with
  | .tick now data _, .tick _ true =>
    { clock := now.toNat, sent := (now.toNat, data) :: p.sent, triggered := false }
  | .tick now _ _, _ => { p with clock := now.toNat }
  | .trigger, _ => { p with triggered := true }

def past (hist : List Step) : Past := hist.foldl (fun p x => p.note x.event x.label) {}

theorem past_snoc (hist : List Step) (x : Step) :
    past (hist ++ [x]) = (past hist).note x.event x.label := by
  simp [past]

namespace Past

/-- Nothing was sent before, or it is that long ago. -/
def Waited (p : Past) (d : UInt64) (now : UInt64) : Prop :=
  ∀ s ∈ p.sent.head?, s.1 + d.toNat ≤ now.toNat

/-- The content is not what was sent last. -/
def Changed (p : Past) (len : ℕ) (data : ℕ → UInt8) : Prop :=
  ∀ s ∈ p.sent.head?, ∃ i < len, data i ≠ s.2 i

/-- A request to send that is neither granted nor taken back. -/
def Standing (p : Past) (mode : TxMode) (len : ℕ) (data : ℕ → UInt8) : Prop :=
  match mode with
  | .cyclic => False
  | .event | .mixed => p.Changed len data
  | .triggered => p.triggered = true

/-- The cycle of the PDU is over. -/
def CycleOver (p : Past) (mode : TxMode) (cycle now : UInt64) : Prop :=
  (mode = .cyclic ∨ mode = .mixed) ∧ p.Waited cycle now

end Past

/-- The times of the ticks do not run backwards. -/
def InOrder (p : Past) (x : Step) : Prop := ∀ now ∈ x.event.time, p.clock ≤ now.toNat

instance (p : Past) (x : Step) : Decidable (InOrder p x) :=
  decidable_of_iff (x.event.time.all fun now => decide (p.clock ≤ now.toNat)) <| by
    cases h : x.event.time <;> simp [InOrder, h]

/-- What a tick does. -/
structure Transmits (len : ℕ) (mode : TxMode) (cycle minDelay : UInt64) (p : Past) (x : Step)
    (now : UInt64) (data : ℕ → UInt8) (accepts : Bool) : Prop where
  shown : ∃ offered, x.label = .tick offered (offered && accepts)
  /-- A standing request is offered from the minimum delay after the last transmission. -/
  kept : p.Standing mode len data → p.Waited minDelay now → x.label = .tick true accepts
  cyclic : p.CycleOver mode cycle now → x.label = .tick true accepts
  /-- What does not go out on the cycle keeps its distance from all that was sent before. -/
  apart : x.label = .tick true true → ¬p.CycleOver mode cycle now →
    ∀ s ∈ p.sent, s.1 + minDelay.toNat ≤ now.toNat
  /-- Nothing is offered without a request. -/
  asked : (∃ sent, x.label = .tick true sent) →
    p.CycleOver mode cycle now ∨ p.Standing mode len data
  refused : x.label ≠ .tick true true → x.after = x.before

/-! ## The invariant -/

structure Inv (len : ℕ) (mode : TxMode) (cycle minDelay : UInt64) (t : TxState) (p : Past) :
    Prop where
  mode : t.mode = mode
  cycle : t.cycleUs = cycle
  minDelay : t.minDelayUs = minDelay
  pending : t.pending = p.triggered
  fresh : p.sent = [] → t.sent = false
  last : ∀ s rest, p.sent = s :: rest →
    t.sent = true ∧ t.lastUs.toNat = s.1 ∧ ∀ i < len, t.last i = s.2 i
  sorted : (p.clock :: p.sent.map Prod.fst).Pairwise (· ≥ ·)

section Steps

variable {len : ℕ} {mode : TxMode} {cycle minDelay : UInt64} {t : TxState} {p : Past}
  {now d : UInt64} {data : ℕ → UInt8}

theorem same_iff (a b : ℕ → UInt8) : same a b len = true ↔ ∀ i < len, a i = b i := by
  simp [same]

theorem Inv.le_clock (h : Inv len mode cycle minDelay t p) {s : ℕ × (ℕ → UInt8)}
    (hs : s ∈ p.sent) : s.1 ≤ p.clock :=
  (List.pairwise_cons.mp h.sorted).1 s.1 (List.mem_map_of_mem hs)

theorem Inv.waited_iff (h : Inv len mode cycle minDelay t p) (hle : p.clock ≤ now.toNat) :
    (!t.sent || decide (d ≤ now - t.lastUs)) = true ↔ p.Waited d now := by
  cases hsent : p.sent with
  | nil => simp [h.fresh hsent, Past.Waited, hsent]
  | cons s rest =>
    obtain ⟨hsome, hlast, -⟩ := h.last s rest hsent
    have hs := h.le_clock (s := s) (by simp [hsent])
    have hstamp : t.lastUs ≤ now := by
      rw [UInt64.le_iff_toNat_le]
      omega
    simp [hsome, Past.Waited, hsent, Stamp.le_elapsed_iff hstamp, hlast]

theorem Inv.changed_iff (h : Inv len mode cycle minDelay t p) (data : ℕ → UInt8) :
    (!t.sent || !same t.last data len) = true ↔ p.Changed len data := by
  cases hsent : p.sent with
  | nil => simp [h.fresh hsent, Past.Changed, hsent]
  | cons s rest =>
    obtain ⟨hsome, -, hdata⟩ := h.last s rest hsent
    have hsame : same t.last data len = true ↔ ∀ i < len, data i = s.2 i := by
      rw [same_iff]
      constructor
      · intro heq i hi
        rw [← heq i hi, hdata i hi]
      · intro heq i hi
        rw [heq i hi, hdata i hi]
    rw [hsome, Bool.not_true, Bool.false_or, Bool.not_eq_true', ← Bool.not_eq_true, hsame]
    simp [Past.Changed, hsent]

/-- When a tick offers its frame. -/
theorem Inv.shouldSend_iff (h : Inv len mode cycle minDelay t p) (data : ℕ → UInt8)
    (hle : p.clock ≤ now.toNat) :
    t.shouldSend now data len = true ↔
      p.CycleOver mode cycle now ∨ (p.Standing mode len data ∧ p.Waited minDelay now) := by
  have hcycle := h.waited_iff (d := cycle) hle
  have hdelay := h.waited_iff (d := minDelay) hle
  have hchanged := h.changed_iff data
  have hcases : t.shouldSend now data len = true ↔
      (((t.mode = .cyclic ∨ t.mode = .mixed) ∧
          (!t.sent || decide (t.cycleUs ≤ now - t.lastUs)) = true) ∨
        ((t.mode = .event ∨ t.mode = .mixed) ∧ (!t.sent || !same t.last data len) = true ∧
          (!t.sent || decide (t.minDelayUs ≤ now - t.lastUs)) = true)) ∨
      (t.mode = .triggered ∧ t.pending = true ∧
        (!t.sent || decide (t.minDelayUs ≤ now - t.lastUs)) = true) := by
    simp only [TxState.shouldSend, Bool.or_eq_true, Bool.and_eq_true, beq_iff_eq, and_assoc]
  rw [hcases, h.mode, h.cycle, h.minDelay, h.pending, hcycle, hdelay, hchanged]
  cases mode <;> simp [Past.CycleOver, Past.Standing]

theorem Inv.trigger (h : Inv len mode cycle minDelay t p) (l : Label) :
    Inv len mode cycle minDelay t.trigger (p.note .trigger l) := by
  constructor
  case mode => exact h.mode
  case cycle => exact h.cycle
  case minDelay => exact h.minDelay
  case pending => rfl
  case fresh => exact h.fresh
  case last => exact h.last
  case sorted => exact h.sorted

theorem Inv.unsent (h : Inv len mode cycle minDelay t p) (hle : p.clock ≤ now.toNat)
    (accepts offered : Bool) :
    Inv len mode cycle minDelay t (p.note (.tick now data accepts) (.tick offered false)) := by
  constructor
  case mode => exact h.mode
  case cycle => exact h.cycle
  case minDelay => exact h.minDelay
  case pending => exact h.pending
  case fresh => exact h.fresh
  case last => exact h.last
  case sorted =>
    have hsorted := List.pairwise_cons.mp h.sorted
    simp only [Past.note, List.pairwise_cons]
    refine ⟨?_, hsorted.2⟩
    intro u hu
    have hlast := hsorted.1 u hu
    omega

theorem Inv.markSent (h : Inv len mode cycle minDelay t p) (hle : p.clock ≤ now.toNat) :
    Inv len mode cycle minDelay (t.markSent now data len)
      (p.note (.tick now data true) (.tick true true)) := by
  constructor
  case mode => exact h.mode
  case cycle => exact h.cycle
  case minDelay => exact h.minDelay
  case pending => rfl
  case fresh => simp [Past.note]
  case last =>
    intro s rest hs
    simp only [Past.note, List.cons.injEq] at hs
    obtain ⟨rfl, rfl⟩ := hs
    refine ⟨rfl, rfl, ?_⟩
    intro i hi
    simp [TxState.markSent, hi]
  case sorted =>
    have hsorted := List.pairwise_cons.mp h.sorted
    simp only [Past.note, List.map_cons, List.pairwise_cons]
    have hnow : ∀ u ∈ p.sent.map Prod.fst, now.toNat ≥ u := by
      intro u hu
      have hlast := hsorted.1 u hu
      omega
    refine ⟨?_, hnow, hsorted.2⟩
    intro u hu
    rcases List.mem_cons.mp hu with rfl | hu
    · exact Nat.le_refl _
    · exact hnow u hu

/-- What waited since the last transmission waited since all. -/
theorem Inv.waited_all (h : Inv len mode cycle minDelay t p) (hw : p.Waited d now) :
    ∀ s ∈ p.sent, s.1 + d.toNat ≤ now.toNat := by
  intro s hs
  cases hsent : p.sent with
  | nil =>
    rw [hsent] at hs
    cases hs
  | cons s' rest =>
    have hhead : s'.1 + d.toNat ≤ now.toNat := hw s' (by simp [hsent])
    rw [hsent] at hs
    rcases List.mem_cons.mp hs with rfl | hs
    · exact hhead
    · have hsorted := h.sorted
      rw [hsent, List.map_cons, List.pairwise_cons, List.pairwise_cons] at hsorted
      have hle := hsorted.2.1 s.1 (List.mem_map_of_mem hs)
      omega

theorem good_tick (h : Inv len mode cycle minDelay t p) (hle : p.clock ≤ now.toNat)
    (accepts : Bool) :
    Inv len mode cycle minDelay (step len t (.tick now data accepts)).1
        (p.note (.tick now data accepts) (step len t (.tick now data accepts)).2) ∧
      Transmits len mode cycle minDelay p (Trace.entry (step len) t (.tick now data accepts))
        now data accepts := by
  have hsend := h.shouldSend_iff data hle
  by_cases hoffer : t.shouldSend now data len = true
  · have hdue := hsend.mp hoffer
    cases accepts with
    | true =>
      have hstep : step len t (.tick now data true) = (t.markSent now data len, .tick true true) := by
        simp [step, hoffer]
      constructor
      · rw [hstep]
        exact h.markSent hle
      · constructor
        case shown => exact ⟨true, by simp [hstep]⟩
        case kept => simp [hstep]
        case cyclic => simp [hstep]
        case apart =>
          intro _ hover
          have hrequest := hdue.resolve_left hover
          exact h.waited_all hrequest.2
        case asked => exact fun _ => hdue.imp_right And.left
        case refused => simp [hstep]
    | false =>
      have hstep : step len t (.tick now data false) = (t, .tick true false) := by
        simp [step, hoffer]
      constructor
      · rw [hstep]
        exact h.unsent hle false true
      · constructor
        case shown => exact ⟨true, by simp [hstep]⟩
        case kept => simp [hstep]
        case cyclic => simp [hstep]
        case apart => simp [hstep]
        case asked => exact fun _ => hdue.imp_right And.left
        case refused => simp [hstep]
  · have hstep : step len t (.tick now data accepts) = (t, .tick false false) := by
      simp [step, hoffer]
    constructor
    · rw [hstep]
      exact h.unsent hle accepts false
    · constructor
      case shown => exact ⟨false, by simp [hstep]⟩
      case kept =>
        intro hstanding hwaited
        exact absurd (hsend.mpr (.inr ⟨hstanding, hwaited⟩)) hoffer
      case cyclic =>
        intro hover
        exact absurd (hsend.mpr (.inl hover)) hoffer
      case apart => simp [hstep]
      case asked => simp [hstep]
      case refused => simp [hstep]

end Steps

/-- No request is lost: whatever the channel refuses, a change that stands and a trigger are offered
until a frame is accepted, a PDU with a cycle is offered when its cycle is over, and what is not
sent on the cycle is asked for and keeps the minimum delay. -/
theorem requests_kept (len : ℕ) (mode : TxMode) (cycle minDelay : UInt64) (es : List Event)
    (hb : Trace.Along (fun hist x => InOrder (past hist) x)
      (Trace.history (step len) { mode := mode, cycleUs := cycle, minDelayUs := minDelay } es)) :
    Trace.Along (fun hist x => ∀ now data accepts, x.event = .tick now data accepts →
        Transmits len mode cycle minDelay (past hist) x now data accepts)
      (Trace.history (step len) { mode := mode, cycleUs := cycle, minDelayUs := minDelay } es) := by
  have hstart : Inv len mode cycle minDelay
      { mode := mode, cycleUs := cycle, minDelayUs := minDelay } (past []) := by
    constructor
    case mode => rfl
    case cycle => rfl
    case minDelay => rfl
    case pending => rfl
    case fresh => exact fun _ => rfl
    case last => simp [past]
    case sorted => simp [past]
  refine (Trace.run_along (I := fun t hist => Inv len mode cycle minDelay t (past hist)) hstart ?_
    es hb).2
  intro es e h hx
  rw [past_snoc]
  cases e with
  | tick now data accepts =>
    obtain ⟨hinv, htick⟩ := good_tick h (hx now rfl) accepts
    refine ⟨hinv, ?_⟩
    intro now' data' accepts' he
    simp only [Trace.entry_event, Event.tick.injEq] at he
    obtain ⟨rfl, rfl, rfl⟩ := he
    exact htick
  | trigger => exact ⟨h.trigger _, by simp⟩

/-! ### A bench -/

/-- A content that is refused, taken, and changed within the minimum delay. -/
def benchTicks : List Event :=
  [.tick 10 (fun _ => 1) false, .tick 20 (fun _ => 1) true, .tick 30 (fun _ => 2) true,
    .tick 120 (fun _ => 2) true, .tick 2120 (fun _ => 2) true]

theorem requests_kept_bench :
    Trace.Along (fun hist x => ∀ now data accepts, x.event = .tick now data accepts →
        Transmits 8 .mixed 2000 100 (past hist) x now data accepts)
      (Trace.history (step 8) { mode := .mixed, cycleUs := 2000, minDelayUs := 100 } benchTicks) :=
  requests_kept 8 .mixed 2000 100 benchTicks <| by
    apply Trace.along_of_get
    decide

example : (step 8 { mode := .event, cycleUs := 0, minDelayUs := 100, lastUs := 20, sent := true }
    (.tick 30 (fun _ => 2) true)).2 = .tick false false := by decide

end BloblyEmb.Transmit
