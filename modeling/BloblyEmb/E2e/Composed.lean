import BloblyEmb.Lib.Trace
import BloblyEmb.E2e.Crc
import BloblyEmb.Secoc.Cmac

/-!
# Both protections on one frame

A sender protects a frame end to end and then authenticates it; a receiver verifies it first and
then checks it. A run is a sequence of frames, each of which arrives or is lost. The counters of the
two protections go around on their own: the windows that the CRC leaves out keep what the second
stamps out of the first.
-/
namespace BloblyEmb.E2e

/-- Where a frame carries both protections. -/
structure Placement where
  e2eId : UInt16
  secocId : UInt16
  key : Secoc.Key
  dlc : ℕ
  crcPos : ℕ
  counterPos : ℕ
  freshPos : ℕ
  macPos : ℕ
  macLen : ℕ

/-- A frame of CAN FD at most, and no field in another. -/
structure Placement.Apart (p : Placement) : Prop where
  dlc : p.dlc ≤ 64
  crc : p.crcPos < p.dlc
  counter : p.counterPos < p.dlc
  fresh : p.freshPos < p.dlc
  mac : p.macPos + p.macLen ≤ p.dlc
  counterCrc : p.counterPos ≠ p.crcPos
  freshCrc : p.freshPos ≠ p.crcPos
  freshCounter : p.freshPos ≠ p.counterPos
  macCrc : p.crcPos < p.macPos ∨ p.macPos + p.macLen ≤ p.crcPos
  macCounter : p.counterPos < p.macPos ∨ p.macPos + p.macLen ≤ p.counterPos
  macFresh : p.freshPos < p.macPos ∨ p.macPos + p.macLen ≤ p.freshPos

/-- What the generated code passes: the CRC leaves the freshness and the MAC out. -/
def Placement.layout (p : Placement) : Layout where
  dataId := p.e2eId
  crcPos := p.crcPos
  counterPos := p.counterPos
  ex1Pos := p.freshPos
  ex1Len := 1
  ex2Pos := p.macPos
  ex2Len := p.macLen

/-- A sender and a receiver. The frame that was protected last is there to be sent again, and `sent`
counts the frames that were protected: that is not in the code. -/
structure World where
  tx : TxState := {}
  auth : Secoc.TxState := {}
  pdu : ℕ → UInt8 := fun _ => 0
  sent : ℕ := 0
  verify : Secoc.RxState := {}
  check : RxState := {}

inductive Event where
  | send (payload : ℕ → UInt8) (arrives : Bool)
  /-- The last frame, authenticated anew. -/
  | again (arrives : Bool)

def Event.arrives : Event → Bool
  | .send _ arrives | .again arrives => arrives

inductive Label where
  | silent
  | dropped
  | trapped
  | refused (s : Secoc.Status)
  /-- The check judges the frame of this number. -/
  | judged (number : ℕ) (st : Status)
deriving DecidableEq

namespace World

def receive (p : Placement) (w : World) (frame : ℕ → UInt8) : World × Label :=
  match w.verify.verify p.key frame p.dlc p.secocId p.freshPos p.macPos p.macLen with
  | none => (w, .trapped)
  | some (verify, .ok) =>
    let c := w.check.checkEx frame p.dlc p.layout
    ({ w with verify := verify, check := c.1 }, .judged (w.sent - 1) c.2)
  | some (verify, s) => ({ w with verify := verify }, .refused s)

def transmit (p : Placement) (w : World) (arrives : Bool) : World × Label :=
  match w.auth.protect p.key w.pdu p.dlc p.secocId p.freshPos p.macPos p.macLen with
  | none => (w, .trapped)
  | some (auth, frame) =>
    if arrives then receive p { w with auth := auth } frame else ({ w with auth := auth }, .dropped)

def step (p : Placement) (w : World) : Event → World × Label
  | .send payload arrives =>
    let t := w.tx.protectEx payload p.dlc p.layout
    transmit p { w with tx := t.1, pdu := t.2, sent := w.sent + 1 } arrives
  | .again arrives => if w.sent = 0 then (w, .silent) else transmit p w arrives

end World

/-! ## What a run shows -/

/-- The frame that the check judged last, and how many were lost since. -/
structure Log where
  last : Option ℕ := none
  missed : ℕ := 0

def Log.note (g : Log) : Label → Log
  | .judged number _ => { last := some number, missed := 0 }
  | .dropped => { g with missed := g.missed + 1 }
  | _ => g

abbrev Step := Trace.Entry World Event Label

def log (hist : List Step) : Log := hist.foldl (fun g x => g.note x.label) {}

theorem log_snoc (hist : List Step) (x : Step) : log (hist ++ [x]) = (log hist).note x.label := by
  simp [log]

/-- Fewer than 14 frames are lost in a row. -/
def Few (g : Log) (x : Step) : Prop :=
  x.label = .dropped → g.last ≠ none → g.missed + 1 < 14

/-- The judgement of frame `number`, and what becomes of the count of lost frames, where `last` was
the one before: no other frame was there yet, or it is the same, or the next, or a later one. -/
def Judgement (last : Option ℕ) (number : ℕ) (st : Status) (lost lost' : UInt32) : Prop :=
  match last with
  | none => st = .ok ∧ lost' = lost
  | some j =>
    (number = j ∧ st = .repeated ∧ lost' = lost) ∨ (number = j + 1 ∧ st = .ok ∧ lost' = lost) ∨
      (j + 1 < number ∧ st = .lost ∧ lost' = lost + UInt32.ofNat (number - j - 1))

/-- What both protections promise of every step. -/
structure Whole (g : Log) (x : Step) : Prop where
  arrived : x.event.arrives = true → 0 < x.after.sent → ∃ number st, x.label = .judged number st
  accepted : ∀ s, x.label ≠ .refused s
  fits : x.label ≠ .trapped
  judged : ∀ number st, x.label = .judged number st →
    number + 1 = x.after.sent ∧
      Judgement g.last number st x.before.check.lostFrames x.after.check.lostFrames
  kept : (∀ number st, x.label ≠ .judged number st) → x.after.check = x.before.check

/-! ## The invariant -/

/-- The counter of the frame of this number. -/
def counterOf (number : ℕ) : UInt8 := UInt8.ofNat (number % 15)

structure Inv (p : Placement) (w : World) (g : Log) : Prop where
  counter : w.tx.counter = counterOf w.sent
  pdu : 0 < w.sent → w.pdu p.crcPos = compute w.pdu p.dlc p.layout ∧
    w.pdu p.counterPos &&& 0x0F = counterOf (w.sent - 1)
  fresh : g.last = none → w.check.started = false ∧ w.verify.started = false
  ahead : ∀ j, g.last = some j → j < w.sent ∧ w.sent ≤ j + 1 + g.missed ∧ g.missed < 14 ∧
    w.check.started = true ∧ w.check.last = counterOf j ∧ w.verify.started = true ∧
    w.auth.freshness = w.verify.last + 1 + UInt8.ofNat g.missed

/-- A frame is about to be authenticated. -/
structure Ready (p : Placement) (w : World) (g : Log) : Prop where
  counter : w.tx.counter = counterOf w.sent
  sent : 0 < w.sent
  crc : w.pdu p.crcPos = compute w.pdu p.dlc p.layout
  number : w.pdu p.counterPos &&& 0x0F = counterOf (w.sent - 1)
  fresh : g.last = none → w.check.started = false ∧ w.verify.started = false
  ahead : ∀ j, g.last = some j → j < w.sent ∧ w.sent ≤ j + 2 + g.missed ∧ g.missed < 14 ∧
    w.check.started = true ∧ w.check.last = counterOf j ∧ w.verify.started = true ∧
    w.auth.freshness = w.verify.last + 1 + UInt8.ofNat g.missed

/-! ## Counters -/

theorem toNat_counterOf (n : ℕ) : (counterOf n).toNat = n % 15 := by
  simp only [counterOf, UInt8.toNat_ofNat']
  omega

theorem counterOf_lt (n : ℕ) : ¬p01CounterSpan ≤ counterOf n := by
  rw [UInt8.le_iff_toNat_le, toNat_counterOf, show p01CounterSpan.toNat = 15 by rfl]
  omega

theorem counterOf_mod (n : ℕ) : counterOf n % p01CounterSpan = counterOf n := by
  apply UInt8.toNat_inj.mp
  rw [UInt8.toNat_mod, toNat_counterOf, show p01CounterSpan.toNat = 15 by rfl, Nat.mod_mod]

theorem counterOf_succ (n : ℕ) : (counterOf n + 1) % p01CounterSpan = counterOf (n + 1) := by
  apply UInt8.toNat_inj.mp
  rw [UInt8.toNat_mod, UInt8.toNat_add, toNat_counterOf, toNat_counterOf,
    show p01CounterSpan.toNat = 15 by rfl, show (1 : UInt8).toNat = 1 by rfl]
  omega

theorem delta_eq {j n : ℕ} (hj : j ≤ n) (hn : n ≤ j + 14) :
    (counterOf n + p01CounterSpan - counterOf j) % p01CounterSpan = UInt8.ofNat (n - j) := by
  apply UInt8.toNat_inj.mp
  rw [UInt8.toNat_mod, UInt8.toNat_sub, UInt8.toNat_add, toNat_counterOf, toNat_counterOf,
    UInt8.toNat_ofNat', show p01CounterSpan.toNat = 15 by rfl]
  omega

theorem nibble_eq (x : UInt8) (n : ℕ) :
    ((x &&& 0xF0) ||| counterOf n) &&& 0x0F = counterOf n := by
  have hall : ∀ (a : Fin 256) (b : Fin 15),
      ((UInt8.ofFin a &&& 0xF0) ||| UInt8.ofNat b.val) &&& 0x0F = UInt8.ofNat b.val := by
    decide +kernel
  exact hall x.toFin ⟨n % 15, Nat.mod_lt _ (by decide)⟩

/-! ## One frame -/

theorem TxState.protectEx_crc (t : TxState) (data : ℕ → UInt8) (dlc : ℕ) (l : Layout) :
    (t.protectEx data dlc l).2 l.crcPos = compute (t.protectEx data dlc l).2 dlc l := by
  simp only [TxState.protectEx, Function.update_self]
  symm
  apply compute_congr
  intro i _ hcov
  apply Function.update_of_ne
  rintro rfl
  simp [Layout.covers] at hcov

theorem TxState.protectEx_counter (t : TxState) (data : ℕ → UInt8) (dlc : ℕ) {l : Layout} {n : ℕ}
    (ht : t.counter = counterOf n) (hpos : l.counterPos ≠ l.crcPos) :
    (t.protectEx data dlc l).1.counter = counterOf (n + 1) ∧
      (t.protectEx data dlc l).2 l.counterPos &&& 0x0F = counterOf n := by
  constructor
  · simp only [TxState.protectEx, ht, counterOf_succ]
  · simp only [TxState.protectEx, Function.update_of_ne hpos, Function.update_self, ht,
      counterOf_mod, nibble_eq]

/-- What the receiver of the first protection knows. -/
def Knows (last : Option ℕ) (number : ℕ) (r : RxState) : Prop :=
  match last with
  | none => r.started = false
  | some j => r.started = true ∧ r.last = counterOf j ∧ j ≤ number ∧ number ≤ j + 14

theorem RxState.checkEx_judges {last : Option ℕ} {number dlc : ℕ} {r : RxState}
    {data : ℕ → UInt8} {l : Layout} (hr : Knows last number r)
    (hcrc : data l.crcPos = compute data dlc l)
    (hctr : data l.counterPos &&& 0x0F = counterOf number) :
    (r.checkEx data dlc l).1.started = true ∧
      (r.checkEx data dlc l).1.last = counterOf number ∧
      Judgement last number (r.checkEx data dlc l).2 r.lostFrames
        (r.checkEx data dlc l).1.lostFrames := by
  have hcheck : r.checkEx data dlc l =
      ({ r with
          last := counterOf number, started := true,
          lostFrames := if r.started && decide (1 < (counterOf number + p01CounterSpan - r.last) %
              p01CounterSpan) then
            r.lostFrames + ((counterOf number + p01CounterSpan - r.last) % p01CounterSpan
              - 1).toUInt32 else r.lostFrames },
        if r.started && decide ((counterOf number + p01CounterSpan - r.last) % p01CounterSpan = 0)
          then .repeated else
          if r.started && decide (1 < (counterOf number + p01CounterSpan - r.last) % p01CounterSpan)
            then .lost else .ok) := by
    simp only [RxState.checkEx, hcrc, ne_eq, not_true_eq_false, if_false, hctr, counterOf_lt]
  rw [hcheck]
  refine ⟨rfl, rfl, ?_⟩
  cases last with
  | none =>
    simp only [Knows] at hr
    simp [Judgement, hr]
  | some j =>
    obtain ⟨hstarted, hlast, hj, hn⟩ := hr
    simp only [hstarted, hlast, delta_eq hj hn, Bool.true_and, decide_eq_true_eq, Judgement]
    rcases Nat.lt_trichotomy number (j + 1) with hlt | rfl | hlt
    · left
      obtain rfl : number = j := by omega
      simp
    · right; left
      rw [Nat.add_sub_cancel_left]
      simp
    · right; right
      have hnat : (UInt8.ofNat (number - j)).toNat = number - j := by
        rw [UInt8.toNat_ofNat']
        omega
      have hone : (1 : UInt8) < UInt8.ofNat (number - j) := by
        rw [UInt8.lt_iff_toNat_lt, hnat]
        exact (by omega : 1 < number - j)
      have hzero : UInt8.ofNat (number - j) ≠ 0 := by
        intro h
        rw [h] at hone
        exact absurd hone (by decide)
      rw [if_neg hzero, if_pos hone, if_pos hone]
      refine ⟨hlt, rfl, ?_⟩
      congr 1
      apply UInt32.toNat_inj.mp
      have hle : (1 : UInt8) ≤ UInt8.ofNat (number - j) := UInt8.le_of_lt hone
      rw [UInt8.toNat_toUInt32, UInt8.toNat_sub_of_le _ _ hle, hnat, UInt32.toNat_ofNat',
        show (1 : UInt8).toNat = 1 by rfl]
      omega

section Frames

variable {p : Placement} {w : World} {g : Log}

theorem Placement.Apart.counter_ne (hp : p.Apart) : p.layout.counterPos ≠ p.layout.crcPos :=
  hp.counterCrc

theorem macBytes_le (n : ℕ) : Secoc.macBytes n ≤ n := by
  simp only [Secoc.macBytes]
  split <;> omega

/-- What the second protection stamps is outside of all that the first looks at. -/
theorem stamped_eq (hp : p.Apart) (data : ℕ → UInt8) (fresh : UInt8) (mac : List UInt8) {i : ℕ}
    (hi : i = p.crcPos ∨ i = p.counterPos ∨ p.layout.covers i = true) :
    Secoc.stamp (Function.update data p.freshPos fresh) p.macPos mac (Secoc.macBytes p.macLen) i =
      data i := by
  have hle := macBytes_le p.macLen
  have hout : (i < p.macPos ∨ p.macPos + p.macLen ≤ i) ∧ i ≠ p.freshPos := by
    rcases hi with rfl | rfl | hcov
    · exact ⟨hp.macCrc, hp.freshCrc.symm⟩
    · exact ⟨hp.macCounter, hp.freshCounter.symm⟩
    · simp only [Layout.covers, Placement.layout, Bool.and_eq_true, Bool.not_eq_true',
        Bool.and_eq_false_iff] at hcov
      have hmac := hcov.2
      have hfresh := hcov.1.2
      constructor
      · by_cases hlen : 0 < p.macLen
        · by_cases hlt : i < p.macPos
          · exact .inl hlt
          · right
            by_contra hgt
            simp [hlen, Nat.not_lt.mp hlt, Nat.not_le.mp hgt] at hmac
        · omega
      · rintro rfl
        simp at hfresh
  rw [Secoc.stamp_outside (by omega), Function.update_of_ne hout.2]

/-- The second protection leaves the first in order. -/
theorem stamped_crc (hp : p.Apart) (data : ℕ → UInt8) (fresh : UInt8) (mac : List UInt8)
    (hcrc : data p.crcPos = compute data p.dlc p.layout) :
    Secoc.stamp (Function.update data p.freshPos fresh) p.macPos mac (Secoc.macBytes p.macLen)
        p.layout.crcPos =
      compute (Secoc.stamp (Function.update data p.freshPos fresh) p.macPos mac
        (Secoc.macBytes p.macLen)) p.dlc p.layout := by
  have hsame : compute (Secoc.stamp (Function.update data p.freshPos fresh) p.macPos mac
      (Secoc.macBytes p.macLen)) p.dlc p.layout = compute data p.dlc p.layout := by
    apply compute_congr
    intro i _ hcov
    exact stamped_eq hp data fresh mac (.inr (.inr hcov))
  rw [hsame, ← hcrc]
  exact stamped_eq hp data fresh mac (.inl rfl)

/-- The freshness goes on by one with each frame, and fewer than 14 were lost. -/
theorem fresh_ahead {last fresh : UInt8} {missed : ℕ} (hm : missed < 14)
    (h : fresh = last + 1 + UInt8.ofNat missed) :
    ¬((fresh - last) &&& 0xFF = 0 ∨ 128 < (fresh - last) &&& 0xFF) := by
  have hdelta : fresh - last = UInt8.ofNat (1 + missed) := by
    apply UInt8.toNat_inj.mp
    rw [h, UInt8.toNat_sub, UInt8.toNat_add, UInt8.toNat_add, UInt8.toNat_ofNat',
      UInt8.toNat_ofNat', show (1 : UInt8).toNat = 1 by rfl]
    have hlast := last.toNat_lt
    omega
  have hall : ∀ m : Fin 14, ¬(UInt8.ofNat (1 + m.val) &&& 0xFF = 0 ∨
      128 < UInt8.ofNat (1 + m.val) &&& 0xFF) := by decide
  rw [hdelta]
  exact hall ⟨missed, hm⟩

theorem transmit_lost (hp : p.Apart) (w : World) :
    w.transmit p false = ({ w with auth := { freshness := w.auth.freshness + 1 } }, .dropped) := by
  obtain ⟨mac, -, hprotect⟩ := w.auth.protect_spec p.key w.pdu p.secocId p.freshPos p.macPos
    p.macLen hp.dlc
  simp [World.transmit, hprotect]

/-- What one frame does: it is accepted, judged, and counted. -/
theorem good_transmit (hp : p.Apart) (h : Ready p w g) (arrives : Bool)
    (hfew : arrives = false → g.last ≠ none → g.missed + 1 < 14) :
    Inv p (w.transmit p arrives).1 (g.note (w.transmit p arrives).2) ∧
      (w.transmit p arrives).1.sent = w.sent ∧
      if arrives then ∃ st, (w.transmit p arrives).2 = .judged (w.sent - 1) st ∧
        Judgement g.last (w.sent - 1) st w.check.lostFrames
          (w.transmit p arrives).1.check.lostFrames
      else (w.transmit p arrives).2 = .dropped ∧ (w.transmit p arrives).1.check = w.check := by
  obtain ⟨mac, hmac, hprotect⟩ := w.auth.protect_spec p.key w.pdu p.secocId p.freshPos p.macPos
    p.macLen hp.dlc
  have hsent := h.sent
  cases arrives with
  | false =>
    rw [transmit_lost hp w]
    refine ⟨?_, rfl, ?_⟩
    · constructor
      case counter => exact h.counter
      case pdu => exact fun _ => ⟨h.crc, h.number⟩
      case fresh => exact h.fresh
      case ahead =>
        intro j hj
        obtain ⟨hlt, hle, hmissed, hstarted, hlast, hverify, hfresh⟩ := h.ahead j hj
        have hfew' := hfew rfl (by
          rw [show g.last = some j from hj]
          simp)
        refine ⟨hlt, ?_, hfew', hstarted, hlast, hverify, ?_⟩
        · simp only [Log.note]
          omega
        · simp only [Log.note, hfresh]
          rw [UInt8.ofNat_add]
          ac_rfl
    · simp
  | true =>
    have hfreshPos : p.freshPos < p.macPos ∨
        p.macPos + Secoc.macBytes p.macLen ≤ p.freshPos := by
      have hle := macBytes_le p.macLen
      have hapart := hp.macFresh
      omega
    have hverify := w.verify.verify_stamped hmac hfreshPos
    have hnew : ¬(w.verify.started = true ∧
        ((w.auth.freshness - w.verify.last) &&& 0xFF = 0 ∨
          128 < (w.auth.freshness - w.verify.last) &&& 0xFF)) := by
      rintro ⟨hstarted, hdelta⟩
      cases hlast : g.last with
      | none => simp [(h.fresh hlast).2] at hstarted
      | some j =>
        obtain ⟨-, -, hmissed, -, -, -, hfresh⟩ := h.ahead j hlast
        exact fresh_ahead hmissed hfresh hdelta
    rw [Function.update_self, if_neg hnew] at hverify
    have hknows : Knows g.last (w.sent - 1) w.check := by
      cases hlast : g.last with
      | none => exact (h.fresh hlast).1
      | some j =>
        obtain ⟨hlt, hle, hmissed, hstarted, hcounter, -, -⟩ := h.ahead j hlast
        exact ⟨hstarted, hcounter, by omega, by omega⟩
    have hctr := h.number
    rw [← stamped_eq hp w.pdu w.auth.freshness mac (.inr (.inl rfl))] at hctr
    obtain ⟨hstarted, hlast, hjudged⟩ := RxState.checkEx_judges hknows
      (stamped_crc hp w.pdu w.auth.freshness mac h.crc) hctr
    have hstep : w.transmit p true =
        ({ w with
            auth := { freshness := w.auth.freshness + 1 }
            verify := { last := w.auth.freshness, started := true }
            check := (w.check.checkEx (Secoc.stamp
              (Function.update w.pdu p.freshPos w.auth.freshness) p.macPos mac
                (Secoc.macBytes p.macLen)) p.dlc p.layout).1 },
          .judged (w.sent - 1) (w.check.checkEx (Secoc.stamp
            (Function.update w.pdu p.freshPos w.auth.freshness) p.macPos mac
              (Secoc.macBytes p.macLen)) p.dlc p.layout).2) := by
      simp [World.transmit, World.receive, hprotect, hverify]
    rw [hstep]
    refine ⟨?_, rfl, ?_⟩
    · constructor
      case counter => exact h.counter
      case pdu => exact fun _ => ⟨h.crc, h.number⟩
      case fresh => simp [Log.note]
      case ahead =>
        intro j hj
        simp only [Log.note, Option.some.injEq] at hj
        subst hj
        refine ⟨Nat.sub_lt hsent Nat.one_pos, ?_, by simp [Log.note], hstarted, hlast, rfl, ?_⟩
        · simp only [Log.note]
          omega
        · simp [Log.note]
    · simp only [if_true]
      exact ⟨_, rfl, hjudged⟩

/-- A step that sends a frame does what the frame does. -/
theorem good_sent (w' : World) {e : Event} (arrives : Bool) (hp : p.Apart) (h : Ready p w' g)
    (he : e.arrives = arrives) (hcheck : w'.check = w.check)
    (hstep : w.step p e = w'.transmit p arrives)
    (hfew : Few g (Trace.entry (World.step p) w e)) :
    Inv p (w.step p e).1 (g.note (w.step p e).2) ∧ Whole g (Trace.entry (World.step p) w e) := by
  have hdropped : arrives = false → g.last ≠ none → g.missed + 1 < 14 := by
    intro hlost
    apply hfew
    rw [Trace.entry_label, hstep, hlost, transmit_lost hp w']
  obtain ⟨hinv, hsent, hlabel⟩ := good_transmit hp h arrives hdropped
  rw [← hstep] at hinv hsent hlabel
  refine ⟨hinv, ?_⟩
  have hpos := h.sent
  cases arrives with
  | false =>
    simp only [Bool.false_eq_true, if_false] at hlabel
    constructor
    case arrived => simp [he]
    case accepted => simp [hlabel.1]
    case fits => simp [hlabel.1]
    case judged => simp [hlabel.1]
    case kept => exact fun _ => hlabel.2.trans hcheck
  | true =>
    simp only [if_true] at hlabel
    obtain ⟨st, hst, hjudged⟩ := hlabel
    constructor
    case arrived => exact fun _ _ => ⟨_, st, hst⟩
    case accepted => simp [hst]
    case fits => simp [hst]
    case judged =>
      intro number st' hl
      rw [Trace.entry_label, hst, Label.judged.injEq] at hl
      obtain ⟨rfl, rfl⟩ := hl
      rw [hcheck] at hjudged
      refine ⟨?_, hjudged⟩
      rw [Trace.entry_after, hsent]
      omega
    case kept =>
      intro hno
      exact absurd hst (hno _ _)

theorem good_step (hp : p.Apart) (h : Inv p w g) (e : Event)
    (hfew : Few g (Trace.entry (World.step p) w e)) :
    Inv p (w.step p e).1 (g.note (w.step p e).2) ∧ Whole g (Trace.entry (World.step p) w e) := by
  cases e with
  | send payload arrives =>
    obtain ⟨hcounter, hnumber⟩ := w.tx.protectEx_counter payload p.dlc h.counter hp.counter_ne
    refine good_sent { w with
      tx := (w.tx.protectEx payload p.dlc p.layout).1
      pdu := (w.tx.protectEx payload p.dlc p.layout).2
      sent := w.sent + 1 } arrives hp ?_ rfl rfl rfl hfew
    constructor
    case counter => exact hcounter
    case sent => exact Nat.succ_pos _
    case crc => exact w.tx.protectEx_crc payload p.dlc p.layout
    case number => exact hnumber
    case fresh => exact h.fresh
    case ahead =>
      intro j hj
      obtain ⟨hlt, hle, hrest⟩ := h.ahead j hj
      exact ⟨Nat.lt_succ_of_lt hlt, by simp only; omega, hrest⟩
  | again arrives =>
    by_cases hzero : w.sent = 0
    · have hstep : w.step p (.again arrives) = (w, .silent) := by simp [World.step, hzero]
      refine ⟨by rwa [hstep], ?_⟩
      constructor <;> simp [hstep, hzero]
    · have hpos : 0 < w.sent := Nat.pos_of_ne_zero hzero
      obtain ⟨hcrc, hnumber⟩ := h.pdu hpos
      refine good_sent w arrives hp ?_ rfl rfl (by simp [World.step, hzero]) hfew
      constructor
      case counter => exact h.counter
      case sent => exact hpos
      case crc => exact hcrc
      case number => exact hnumber
      case fresh => exact h.fresh
      case ahead =>
        intro j hj
        obtain ⟨hlt, hle, hrest⟩ := h.ahead j hj
        exact ⟨hlt, by omega, hrest⟩

theorem inv_init (p : Placement) : Inv p {} {} := by
  constructor
  case counter => rfl
  case pdu => simp
  case fresh => simp
  case ahead => simp

end Frames

/-- A frame that was judged is a repeat when it comes again, and changes nothing. -/
theorem checkEx_again (r : RxState) (data : ℕ → UInt8) (dlc : ℕ) (l : Layout)
    (h : (r.checkEx data dlc l).2 ≠ .crcError) :
    (r.checkEx data dlc l).1.checkEx data dlc l = ((r.checkEx data dlc l).1, .repeated) := by
  by_cases hcrc : data l.crcPos ≠ compute data dlc l
  · simp [RxState.checkEx_of_ne r hcrc] at h
  · by_cases hctr : p01CounterSpan ≤ data l.counterPos &&& 0x0F
    · simp [RxState.checkEx, hcrc, hctr] at h
    · have hself : ((data l.counterPos &&& 0x0F) + p01CounterSpan - (data l.counterPos &&& 0x0F)) %
          p01CounterSpan = 0 := by
        rw [UInt8.add_comm, UInt8.add_sub_cancel]
        rfl
      simp [RxState.checkEx, hcrc, hctr, hself]

/-- A run that loses few frames in a row has each of them that arrives accepted and judged by its
place, a frame that comes again is a repeat, and no corrupted frame passes for another. -/
theorem protections_compose (p : Placement) (hp : p.Apart) (es : List Event)
    (hfew : Trace.Along (fun hist x => Few (log hist) x) (Trace.history (World.step p) {} es)) :
    Trace.Along (fun hist x => Whole (log hist) x) (Trace.history (World.step p) {} es) ∧
      (∀ (r : RxState) (data : ℕ → UInt8) (dlc : ℕ) (l : Layout),
        (r.checkEx data dlc l).2 ≠ .crcError →
          (r.checkEx data dlc l).1.checkEx data dlc l =
            ((r.checkEx data dlc l).1, .repeated)) ∧
      ∀ (t : TxState) (payload data : ℕ → UInt8) (dlc : ℕ) (l : Layout),
        Corrupted l dlc (t.protectEx payload dlc l).2 data →
          ∀ r : RxState, r.checkEx data dlc l = (r, .crcError) := by
  refine ⟨?_, checkEx_again, ?_⟩
  · refine (Trace.run_along (I := fun w hist => Inv p w (log hist)) (inv_init p) ?_ es hfew).2
    intro es e h hx
    rw [log_snoc]
    exact good_step hp h e hx
  · intro t payload data dlc l hcorrupted r
    exact r.checkEx_of_ne (hcorrupted.crc_ne (t.protectEx_crc payload dlc l))

/-! ### A bench -/

theorem missed_le (hist : List Step) : (log hist).missed ≤ hist.length := by
  induction hist using List.reverseRecOn with
  | nil => exact Nat.le_refl _
  | append_singleton hist x ih =>
    rw [log_snoc, List.length_append, List.length_singleton]
    cases hx : x.label with
    | dropped => exact Nat.succ_le_succ ih
    | judged number st => exact Nat.zero_le _
    | silent => exact Nat.le_succ_of_le ih
    | trapped => exact Nat.le_succ_of_le ih
    | refused s => exact Nat.le_succ_of_le ih

theorem few_of_short {hist : List Step} (h : hist.length ≤ 13) :
    Trace.Along (fun hist x => Few (log hist) x) hist := by
  rintro before x after rfl - -
  have hmissed := missed_le before
  simp only [List.length_append, List.length_cons] at h
  omega

def benchPlacement : Placement where
  e2eId := 0x123
  secocId := 0x123
  key := Secoc.newKey (List.replicate 16 7)
  dlc := 8
  crcPos := 3
  counterPos := 4
  freshPos := 5
  macPos := 6
  macLen := 2

/-- A frame arrives, and comes again; the next is lost, and the one after it arrives. -/
def benchRun : List Event :=
  [.send (fun _ => 1) true, .again true, .send (fun _ => 2) false, .send (fun _ => 3) true]

theorem protections_compose_bench :
    Trace.Along (fun hist x => Whole (log hist) x)
      (Trace.history (World.step benchPlacement) {} benchRun) :=
  (protections_compose benchPlacement
    ⟨by decide, by decide, by decide, by decide, by decide, by decide, by decide, by decide,
      by decide, by decide, by decide⟩ benchRun (few_of_short (by decide))).1

end BloblyEmb.E2e
