import Mathlib.Algebra.Order.Ring.Nat
import BloblyEmb.Lib.Trace
import BloblyEmb.Diagroute.Router

/-!
# Exchanges are bounded

An exchange whose request has left ends without a further byte of an answer: while nothing is in
flight its deadline stands, and what is in flight must move. What the target can still move without
a byte is a first frame before the deadline, and our flow control for it.
-/
namespace BloblyEmb.Isotp.Link

/-! ## A link that sends no message -/

theorem tick_ready (l : Link) (now : UInt64) : (l.tick now).ready = l.ready := by
  simp only [tick, giveUpTx]
  split <;> split <;> rfl

theorem tick_tx {l : Link} (h : l.tx = .idle) (now : UInt64) : (l.tick now).tx = .idle := by
  simp only [tick, giveUpTx]
  split <;> split <;> simp [h]

/-- Time only ends a reception. -/
theorem tick_owes {l : Link} (h : l.tx = .idle) (now : UInt64) :
    ((l.tick now).fcSend = true → l.fcSend = true) ∧
      ((l.tick now).fcOvflw = true → l.fcOvflw = true) ∧
      ((l.tick now).rx = .receiving → l.rx = .receiving) := by
  have hbs : ¬l.bsExpired now := by
    simp [bsExpired, h]
  simp only [tick, if_neg hbs]
  split <;> simp

theorem poll_ready (l : Link) (now : UInt64) : (l.poll now).2.ready = l.ready := by
  simp only [poll, pollCf, giveUpTx]
  split
  · rfl
  split
  · rfl
  split
  · rfl
  · rfl
  · rfl
  · split <;> rfl
  · split
    · rfl
    split
    · rfl
    split
    · split <;> rfl
    · rfl

/-- What a link without a message to send polls: the flow control it owes. -/
theorem poll_tx {l : Link} (h : l.tx = .idle) (now : UInt64) :
    (l.poll now).2.tx = .idle ∧ (l.poll now).2.rx = l.rx ∧
      ((l.poll now).2.fcSend = true → l.fcSend = true) ∧
      ((l.poll now).2.fcOvflw = true → l.fcOvflw = true) ∧
      ((l.poll now).1 = none → (l.poll now).2 = l) := by
  simp only [poll]
  split
  · simp [h]
  split
  · simp [h]
  · simp [h]

theorem onFrame_tx {l : Link} (h : l.tx = .idle) (now : UInt64) (p : Pdu) :
    (l.onFrame now p).tx = .idle := by
  simp only [onFrame, onSingle, onFirst, onConsecutive, inSequence, onFlow, h]
  grind

/-- A frame that neither begins a reception nor is next in it: a single frame completes a message,
and any other moves nothing. -/
theorem onFrame_cases {l : Link} (h : l.tx = .idle) (hready : l.ready = false) (now : UInt64)
    {p : Pdu} (hfirst : p.pci ≠ 0x10)
    (horder : ¬(l.rx = .receiving ∧ p.pci = 0x20 ∧ p.low = l.rxSn &&& 0x0F)) :
    ((l.onFrame now p).ready = true ∧ (l.onFrame now p).rx = .idle ∧
        (l.onFrame now p).fcSend = false ∧ (l.onFrame now p).fcOvflw = false) ∨
      ((l.onFrame now p).ready = false ∧ (l.onFrame now p).progress = l.progress ∧
        ((l.onFrame now p).fcSend = true → l.fcSend = true) ∧
        ((l.onFrame now p).fcOvflw = true → l.fcOvflw = true)) := by
  simp only [onFrame, if_neg hfirst]
  split
  · simp only [onSingle]
    split
    · exact .inl ⟨rfl, rfl, rfl, rfl⟩
    · exact .inr ⟨hready, rfl, id, id⟩
  split
  · rename_i hcf
    right
    simp only [onConsecutive]
    by_cases hexpired : l.crExpired now
    · simp [if_pos hexpired, hready]
    · have hnot : ¬(l.rx = .receiving ∧ p.low = l.rxSn &&& 0x0F) :=
        fun hx => horder ⟨hx.1, hcf, hx.2⟩
      simp only [if_neg hexpired, if_neg hnot]
      split <;> simp [hready]
  split
  · have hflow : l.onFlow now p = l := by
      simp [onFlow, h]
    rw [hflow]
    exact .inr ⟨hready, rfl, id, id⟩
  · exact .inr ⟨hready, rfl, id, id⟩

theorem onFlow_ready (l : Link) (now : UInt64) (p : Pdu) : (l.onFlow now p).ready = l.ready := by
  simp only [onFlow, giveUpTx]
  split
  · rfl
  split
  · rfl
  split
  · rfl
  split
  · split <;> rfl
  · rfl

/-- A refusal is owed with no reception, and with no other flow control. -/
def Apart (l : Link) : Prop := l.fcOvflw = true → l.rx = .idle ∧ l.fcSend = false

theorem apart_tick {l : Link} (h : l.Apart) (now : UInt64) : (l.tick now).Apart := by
  simp only [tick, giveUpTx, Apart] at h ⊢
  split <;> split <;> simp_all

theorem apart_poll {l : Link} (h : l.Apart) (now : UInt64) : (l.poll now).2.Apart := by
  simp only [poll, pollCf, giveUpTx]
  split
  · intro hov
    cases hov
  split
  · rename_i hov _
    intro hx
    exact absurd hx hov
  split
  · exact h
  · exact h
  · exact h
  · split <;> exact h
  · split
    · exact h
    split
    · exact h
    split
    · split <;> exact h
    · exact h

theorem apart_onFrame {l : Link} (h : l.Apart) (now : UInt64) (p : Pdu) : (l.onFrame now p).Apart := by
  simp only [Apart] at h
  simp only [onFrame, onSingle, onFirst, onConsecutive, inSequence, onFlow, giveUpTx, Apart]
  grind

/-- A link without a message to send polls the one flow control it owes. -/
theorem poll_owed {l : Link} (h : l.tx = .idle) (hapart : l.Apart) {now : UInt64} {p : Pdu}
    (hp : (l.poll now).1 = some p) :
    (l.fcSend = true ∨ l.fcOvflw = true) ∧ (l.poll now).2.fcSend = false ∧
      (l.poll now).2.fcOvflw = false := by
  revert hp
  simp only [poll, h]
  split
  · rename_i hov
    exact fun _ => ⟨.inr hov, (hapart hov).2, rfl⟩
  split
  · rename_i hov hfc
    exact fun _ => ⟨.inl hfc, rfl, by simpa using hov⟩
  · intro hp
    cases hp

theorem idle_iff {l : Link} : l.idle = true ↔ l.tx = .idle ∧ l.rx ≠ .receiving ∧
    l.fcSend = false ∧ l.fcOvflw = false ∧ l.ready = false := by
  simp [idle, and_assoc]

end BloblyEmb.Isotp.Link

namespace BloblyEmb.Diag
open Isotp

/-- The frame that the link is fed. -/
def fed (l : Link) (f : Frame) : Option Pdu :=
  match f.data.take 8 with
  | [] => none
  | b :: bs => if l.truncated b (b :: bs).length then none else some (pdu (b :: bs))

theorem takeFrame_none {l : Link} {f : Frame} (h : fed l f = none) (now : UInt64) :
    takeFrame l now f = (false, l) := by
  simp only [fed] at h
  simp only [takeFrame]
  split <;> simp_all

theorem takeFrame_some {l : Link} {f : Frame} {p : Pdu} (h : fed l f = some p) (now : UInt64) :
    takeFrame l now f = ((l.onFrame now p).ready, l.onFrame now p) := by
  simp only [fed] at h
  simp only [takeFrame]
  split <;> simp_all

end BloblyEmb.Diag

namespace BloblyEmb.Diagroute
open Isotp Diag

namespace Router

variable {r : Router} {now : UInt64} {t T : ℕ}

@[simp] theorem endExchange_active (r : Router) : r.endExchange.active = none := rfl

/-! ## What every exchange keeps -/

/-- An exchange in flight: no message waits in the link, its frames moved in the past, and once the
request has left, the deadline is at most the wait away. -/
structure Keeps (r : Router) (t : ℕ) : Prop where
  ready : r.link.ready = false
  moved : r.movedAt.toNat ≤ t
  left : r.sending = false → r.link.tx = .idle ∧ r.deadline.toNat ≤ t + answerWaitUs.toNat
  apart : r.link.Apart

theorem Keeps.mono {t' : ℕ} (hk : r.Keeps t) (ht : t ≤ t') : r.Keeps t' where
  ready := hk.ready
  moved := Nat.le_trans hk.moved ht
  left h := ⟨(hk.left h).1, by have := (hk.left h).2; omega⟩
  apart := hk.apart

/-- The time fits the clock, and so does the deadline set at it. -/
def InClock (now : UInt64) : Prop := now.toNat + answerWaitUs.toNat < 2 ^ 64

theorem toNat_deadline (h : InClock now) :
    (now + answerWaitUs).toNat = now.toNat + answerWaitUs.toNat := by
  rw [UInt64.toNat_add]
  exact Nat.mod_eq_of_lt h

theorem keeps_settle (hclock : InClock now) (hk : r.Keeps now.toNat)
    (ha : (r.settle now).active ≠ none) : (r.settle now).Keeps now.toNat := by
  revert ha
  simp only [settle]
  split
  · exact fun _ => hk
  rename_i hbusy
  split
  · exact fun ha => absurd (endExchange_active _) ha
  · intro _
    refine ⟨hk.ready, hk.moved, fun _ => ⟨?_, Nat.le_of_eq (toNat_deadline hclock)⟩, hk.apart⟩
    simp only [not_or, Link.busy, decide_eq_true_eq, Classical.not_not] at hbusy
    exact hbusy.2.2

theorem keeps_tick (now : UInt64) (hk : r.Keeps t) : { r with link := r.link.tick now }.Keeps t where
  ready := (r.link.tick_ready now).trans hk.ready
  moved := hk.moved
  left h := ⟨Link.tick_tx (hk.left h).1 now, (hk.left h).2⟩
  apart := Link.apart_tick hk.apart now

/-- The timers keep or end an exchange. -/
theorem keeps_step (hclock : InClock now) (hk : r.active ≠ none → r.Keeps t) (ht : t ≤ now.toNat)
    (ha : (r.step now).active ≠ none) : (r.step now).Keeps now.toNat := by
  by_cases hr : r.active = none
  · exact absurd (by simp [step, hr]) ha
  revert ha
  simp only [step, if_neg hr]
  have htick := keeps_tick now ((hk hr).mono ht)
  split
  · exact fun ha => absurd ‹_› ha
  rename_i hsettled
  have hset := keeps_settle hclock htick hsettled
  split
  · exact fun ha => absurd (endExchange_active _) ha
  · simp only [overdue]
    split
    · exact fun _ => hset
    · exact fun ha => absurd (endExchange_active _) ha

theorem take_ready (l : Link) : l.take.2.ready = false := by
  simp only [Link.take]
  split
  · rename_i h
    simpa using h
  · rfl

theorem take_tx (l : Link) : l.take.2.tx = l.tx := by
  simp only [Link.take]
  split <;> rfl

theorem apart_take {l : Link} (h : l.Apart) : l.take.2.Apart := by
  simp only [Link.take]
  split <;> exact h

theorem apart_abortRx (l : Link) : l.abortRx.Apart := nofun

/-- An answer is collected, whatever it is. -/
theorem keeps_collect (hclock : InClock now) (hmoved : r.movedAt.toNat ≤ now.toNat)
    (hleft : r.sending = false → r.link.tx = .idle ∧ r.deadline.toNat ≤ now.toNat + answerWaitUs.toNat)
    (hapart : r.link.Apart) (ha : (r.collect now).active ≠ none) : (r.collect now).Keeps now.toNat := by
  revert ha
  simp only [collect]
  split
  · exact fun _ => ⟨rfl, hmoved, fun h => ⟨(hleft h).1, (hleft h).2⟩, apart_abortRx _⟩
  split
  · exact fun _ => ⟨take_ready _, hmoved, fun h => ⟨(take_tx _).trans (hleft h).1, (hleft h).2⟩,
      apart_take hapart⟩
  split
  · exact fun _ => ⟨take_ready _, hmoved, fun h => ⟨(take_tx _).trans (hleft h).1, (hleft h).2⟩,
      apart_take hapart⟩
  split
  · exact fun _ => ⟨take_ready _, hmoved, fun h => ⟨(take_tx _).trans (hleft h).1, (hleft h).2⟩,
      apart_take hapart⟩
  split
  · intro _
    exact ⟨take_ready _, hmoved, fun h => ⟨(take_tx _).trans (hleft h).1,
      Nat.le_of_eq (toNat_deadline hclock)⟩, apart_take hapart⟩
  · exact fun ha => absurd (endExchange_active _) ha

theorem Keeps.stamp (hk : r.Keeps now.toNat) : { r with movedAt := now }.Keeps now.toNat where
  ready := hk.ready
  moved := Nat.le_refl _
  left := hk.left
  apart := hk.apart

theorem keeps_intake (hclock : InClock now) (hk : r.Keeps now.toNat) {f : Frame}
    (ha : (r.intake f now).active ≠ none) : (r.intake f now).Keeps now.toNat := by
  have hfed : ∀ r' : Router, (r'.active ≠ none → r'.Keeps now.toNat) →
      (if r'.link.progress ≠ r.link.progress then { r' with movedAt := now } else r').active ≠ none →
      (if r'.link.progress ≠ r.link.progress then { r' with movedAt := now } else r').Keeps
        now.toNat := by
    intro r' hk' ha'
    split
    · rename_i hmove
      rw [if_pos hmove] at ha'
      exact (hk' ha').stamp
    · rename_i hmove
      rw [if_neg hmove] at ha'
      exact hk' ha'
  refine hfed _ ?_ ha
  cases hp : fed r.link f with
  | none =>
    rw [takeFrame_none hp now]
    exact fun _ => hk
  | some p =>
    rw [takeFrame_some hp now]
    split
    · intro ha'
      exact keeps_collect hclock hk.moved (fun h => ⟨Link.onFrame_tx (hk.left h).1 now p,
        (hk.left h).2⟩) (Link.apart_onFrame hk.apart now p) ha'
    · rename_i hready
      intro _
      exact ⟨by simpa using hready, hk.moved, fun h => ⟨Link.onFrame_tx (hk.left h).1 now p,
        (hk.left h).2⟩, Link.apart_onFrame hk.apart now p⟩

theorem keeps_onFrame (hclock : InClock now) (hk : r.active ≠ none → r.Keeps t)
    (ht : t ≤ now.toNat) {bus : UInt8} {f : Frame} (ha : (r.onFrame bus f now).active ≠ none) :
    (r.onFrame bus f now).Keeps now.toNat := by
  revert ha
  simp only [onFrame]
  split
  · exact fun ha => (hk ha).mono ht
  split
  · exact fun ha => absurd ‹_› ha
  rename_i hstep
  have hkept := keeps_step hclock hk ht hstep
  split
  · exact fun _ => hkept
  · exact keeps_intake hclock hkept

theorem keeps_poll (hk : r.Keeps t) : { r with link := (r.link.poll now).2 }.Keeps t where
  ready := (r.link.poll_ready now).trans hk.ready
  moved := hk.moved
  left h := ⟨(Link.poll_tx (hk.left h).1 now).1, (hk.left h).2⟩
  apart := Link.apart_poll hk.apart now

theorem keeps_pumpAll (hclock : InClock now) (txId : UInt32) (channel : List Bool)
    (hk : r.Keeps now.toNat) (ha : (r.pumpAll txId now channel).1.active ≠ none) :
    (r.pumpAll txId now channel).1.Keeps now.toNat := by
  induction channel generalizing r with
  | nil => exact keeps_settle hclock hk ha
  | cons ok rest ih =>
    revert ha
    simp only [pumpAll]
    split
    · exact keeps_settle hclock (keeps_poll hk)
    split
    · exact fun ha => absurd (endExchange_active _) ha
    · exact ih (keeps_poll hk).stamp

theorem keeps_pump (hclock : InClock now) (hk : r.active ≠ none → r.Keeps now.toNat)
    (channel : List Bool) (ha : (r.pump now channel).1.active ≠ none) :
    (r.pump now channel).1.Keeps now.toNat := by
  revert ha
  simp only [pump]
  split
  · exact fun ha => hk ha
  · rename_i i hi
    exact keeps_pumpAll hclock _ channel (hk (by simp [hi]))

/-- The exchange in flight is the same in both. -/
structure SameExchange (r r' : Router) : Prop where
  active : r'.active = r.active
  link : r'.link = r.link
  moved : r'.movedAt = r.movedAt
  sending : r'.sending = r.sending
  deadline : r'.deadline = r.deadline

theorem SameExchange.keeps {r' : Router} (hs : SameExchange r r') (hk : r.Keeps t) : r'.Keeps t where
  ready := by rw [hs.link]; exact hk.ready
  moved := by rw [hs.moved]; exact hk.moved
  left h := by
    rw [hs.link, hs.deadline]
    exact hk.left (hs.sending ▸ h)
  apart := by rw [hs.link]; exact hk.apart

theorem same_hold (r : Router) (unlocked : UInt8) : SameExchange r (r.hold unlocked) := by
  simp only [hold]
  split <;> exact ⟨rfl, rfl, rfl, rfl, rfl⟩

theorem SameExchange.trans {r₁ r₂ r₃ : Router} (h : SameExchange r₁ r₂) (h' : SameExchange r₂ r₃) :
    SameExchange r₁ r₃ where
  active := h'.active.trans h.active
  link := h'.link.trans h.link
  moved := h'.moved.trans h.moved
  sending := h'.sending.trans h.sending
  deadline := h'.deadline.trans h.deadline

theorem same_bindRoute (r : Router) (conn : UInt32) (unlocked : UInt8) :
    SameExchange r (r.bindRoute conn unlocked) := by
  simp only [bindRoute]
  have hnew : SameExchange r (if r.granted ∧ r.bound ∧ r.grantConn ≠ conn then
      { r with granted := false, bound := false } else r) := by
    split <;> exact ⟨rfl, rfl, rfl, rfl, rfl⟩
  have hbind : ∀ r' : Router, SameExchange r' (if r'.granted ∧ ¬r'.bound then
      { r' with bound := true, grantConn := conn } else r') := by
    intro r'
    split <;> exact ⟨rfl, rfl, rfl, rfl, rfl⟩
  exact (hnew.trans (same_hold _ unlocked)).trans (hbind _)

/-- A request is declined, which leaves the exchange to the timers or ends it, or an exchange begins
now. -/
theorem accept_cases (r : Router) (idx : ℤ) (req : List UInt8) (conn ticket : UInt32)
    (unlocked : UInt8) (now : UInt64) :
    ((r.accept idx req conn ticket unlocked now).1 ≠ .accepted ∧
        ((r.accept idx req conn ticket unlocked now).2.active = none ∨
          SameExchange (r.step now) (r.accept idx req conn ticket unlocked now).2)) ∨
      ((r.accept idx req conn ticket unlocked now).1 = .accepted ∧
        (r.accept idx req conn ticket unlocked now).2.Keeps now.toNat) := by
  have hsame : SameExchange (r.step now) (r.step now) := ⟨rfl, rfl, rfl, rfl, rfl⟩
  simp only [accept]
  split
  · exact .inl ⟨fun h => (by cases h), .inr hsame⟩
  split
  · exact .inl ⟨fun h => (by cases h), .inr hsame⟩
  split
  · exact .inl ⟨fun h => (by cases h), .inr (same_bindRoute ..)⟩
  split
  · exact .inl ⟨fun h => (by cases h), .inr (same_bindRoute ..)⟩
  · simp only [begin]
    split
    · exact .inl ⟨fun h => (by cases h), .inl rfl⟩
    · refine .inr ⟨rfl, ?_, Nat.le_refl _, fun h => (by cases h), ?_⟩
      · simp only [Link.send]
        split <;> rfl
      · simp only [Link.send]
        split <;> exact fun h => (by cases h)

/-! ## Runs -/

/-- What an exchange keeps over an event, and over the time that passes to it. -/
theorem keeps_apply (hk : r.active ≠ none → r.Keeps t) (e : Event)
    (htime : ∀ now ∈ e.time, t ≤ now.toNat ∧ InClock now) (ha : (apply r e).1.active ≠ none) :
    (apply r e).1.Keeps (e.time.elim t UInt64.toNat) := by
  cases e with
  | accept idx req conn ticket unlocked now =>
    obtain ⟨ht, hclock⟩ := htime now rfl
    rcases accept_cases r idx req conn ticket unlocked now with ⟨-, hnone | hsame⟩ | ⟨-, hkeeps⟩
    · exact absurd hnone ha
    · exact hsame.keeps (keeps_step hclock hk ht (hsame.active ▸ ha))
    · exact hkeeps
  | hold unlocked => exact (same_hold r unlocked).keeps (hk ((same_hold r unlocked).active ▸ ha))
  | frame bus f now =>
    obtain ⟨ht, hclock⟩ := htime now rfl
    exact keeps_onFrame hclock hk ht ha
  | step now =>
    obtain ⟨ht, hclock⟩ := htime now rfl
    exact keeps_step hclock hk ht ha
  | produce now channel =>
    obtain ⟨ht, hclock⟩ := htime now rfl
    exact keeps_pump hclock (keeps_step hclock hk ht) channel ha
  | room now =>
    obtain ⟨ht, -⟩ := htime now rfl
    have hsame : SameExchange r (r.room now).2 := by
      simp only [room]
      split
      · exact ⟨rfl, rfl, rfl, rfl, rfl⟩
      · split <;> exact ⟨rfl, rfl, rfl, rfl, rfl⟩
    exact hsame.keeps ((hk (hsame.active ▸ ha)).mono ht)
  | pop =>
    have hsame : SameExchange r r.pop := by
      simp only [pop]
      split <;> exact ⟨rfl, rfl, rfl, rfl, rfl⟩
    exact hsame.keeps (hk (hsame.active ▸ ha))
  | cancel => exact absurd rfl ha

/-! ## What an exchange keeps without a byte of an answer -/

/-- The frame is a first frame. -/
def isFirst (r : Router) (f : Frame) : Bool := (fed r.link f).any fun p => p.pci == 0x10

/-- The frame is the next consecutive frame of the reception. -/
def inOrder (r : Router) (f : Frame) : Bool :=
  (fed r.link f).any fun p =>
    decide (r.link.rx = .receiving) && p.pci == 0x20 && p.low == r.link.rxSn &&& 0x0F

/-- The target delivers the next byte of an answer. -/
def delivers (r : Router) : Event → Bool
  | .frame bus f now => decide (r.concerns bus f) && (r.step now).inOrder f
  | _ => false

/-- The target begins an answer while frames of the exchange are in flight. -/
def restarts (r : Router) : Event → Bool
  | .frame bus f now => decide (r.concerns bus f) && (r.step now).isFirst f && !(r.step now).link.idle
  | _ => false

/-- A step without a new byte of an answer, without an answer, and without a request accepted. -/
structure NoByte (x : Trace.Entry Router Event (Option Verdict)) : Prop where
  byte : x.before.delivers x.event = false
  answer : x.after.answered = x.before.answered
  request : x.label ≠ some .accepted

/-- An exchange whose request had left by `T`, without a further byte at `t`: nothing is in flight,
or it moved last at the deadline, or with our flow control a stall later. -/
structure Held (r : Router) (T t : ℕ) : Prop where
  ready : r.link.ready = false
  moved : r.movedAt.toNat ≤ t
  sent : r.sending = false
  tx : r.link.tx = .idle
  waits : r.deadline.toNat ≤ T + answerWaitUs.toNat
  owes : r.link.fcSend = true ∨ r.link.fcOvflw = true → r.movedAt.toNat ≤ T + answerWaitUs.toNat
  flies : r.link.idle = false → r.movedAt.toNat ≤ T + answerWaitUs.toNat + stallUs.toNat
  apart : r.link.Apart

theorem Held.mono {t' : ℕ} (hh : r.Held T t) (ht : t ≤ t') : r.Held T t' :=
  { hh with moved := Nat.le_trans hh.moved ht }

theorem SameExchange.held {r' : Router} (hs : SameExchange r r') (hh : r.Held T t) : r'.Held T t where
  ready := by rw [hs.link]; exact hh.ready
  moved := by rw [hs.moved]; exact hh.moved
  sent := hs.sending.trans hh.sent
  tx := by rw [hs.link]; exact hh.tx
  waits := by rw [hs.deadline]; exact hh.waits
  owes := by rw [hs.link, hs.moved]; exact hh.owes
  flies := by rw [hs.link, hs.moved]; exact hh.flies
  apart := by rw [hs.link]; exact hh.apart

theorem Keeps.held (hk : r.Keeps T) (hsent : r.sending = false) : r.Held T T where
  ready := hk.ready
  moved := hk.moved
  sent := hsent
  tx := (hk.left hsent).1
  waits := (hk.left hsent).2
  owes _ := Nat.le_trans hk.moved (Nat.le_add_right ..)
  flies _ := Nat.le_trans hk.moved (by omega)
  apart := hk.apart

/-- Nothing more than its wait holds an exchange: it is idle before the deadline, or it moved. -/
structure Alive (r : Router) (now : UInt64) : Prop where
  waiting : r.link.idle = true → now.toNat < r.deadline.toNat
  moving : r.link.idle = false → now.toNat < r.movedAt.toNat + stallUs.toNat

theorem tick_idle {l : Link} (hready : l.ready = false) (htx : l.tx = .idle) (now : UInt64)
    (hidle : l.idle = true) : (l.tick now).idle = true := by
  rw [Link.idle_iff] at hidle ⊢
  obtain ⟨-, hrx, hfc, hov, -⟩ := hidle
  obtain ⟨hfc', hov', hrx'⟩ := Link.tick_owes htx now
  refine ⟨Link.tick_tx htx now, fun h => hrx (hrx' h), ?_, ?_, (l.tick_ready now).trans hready⟩
  · simpa [hfc] using hfc'
  · simpa [hov] using hov'

/-- The timers end an exchange, or it is alive and as before. -/
theorem held_step (hh : r.Held T t) (ht : t ≤ now.toNat) :
    (r.step now).active = none ∨
      ((r.step now).Held T now.toNat ∧ (r.step now).Alive now ∧
        (r.step now).active = r.active ∧ (r.step now).answered = r.answered) := by
  have htick : { r with link := r.link.tick now }.Held T now.toNat := by
    obtain ⟨hfc, hov, -⟩ := Link.tick_owes hh.tx now
    refine ⟨(r.link.tick_ready now).trans hh.ready, Nat.le_trans hh.moved ht, hh.sent,
      Link.tick_tx hh.tx now, hh.waits, fun h => hh.owes (h.imp hfc hov), fun h => hh.flies ?_,
      Link.apart_tick hh.apart now⟩
    by_contra hidle
    have := tick_idle hh.ready hh.tx now (by simpa using hidle)
    simp_all
  simp only [step]
  split
  · exact .inl ‹_›
  rename_i hactive
  have hsettle : { r with link := r.link.tick now }.settle now =
      { r with link := r.link.tick now } := by
    simp [settle, hh.sent]
  rw [hsettle, if_neg hactive]
  split
  · exact .inl rfl
  rename_i hmove
  simp only [overdue]
  split
  · rename_i hwait
    refine .inr ⟨htick, ⟨fun hidle => ?_, fun hidle => ?_⟩, rfl, rfl⟩
    · simp only [hactive, hh.sent, hidle, false_or, Bool.false_eq_true, not_true_eq_false,
        or_false] at hwait
      exact UInt64.lt_iff_toNat_lt.mp hwait
    · simp only [stalled, hidle, Bool.false_eq_true, not_false_eq_true, true_and] at hmove
      have hle : r.movedAt.toNat ≤ now.toNat := htick.moved
      have hsub : (now - r.movedAt).toNat = now.toNat - r.movedAt.toNat :=
        UInt64.toNat_sub_of_le _ _ (UInt64.le_iff_toNat_le.mpr hle)
      rw [UInt64.le_iff_toNat_le, hsub] at hmove
      show now.toNat < r.movedAt.toNat + stallUs.toNat
      omega
  · exact .inl rfl

theorem answered_moves (n : UInt32) : n + 1 ≠ n := by
  intro heq
  have hnat := congrArg UInt32.toNat heq
  have hlt := n.toNat_lt
  rw [UInt32.toNat_add] at hnat
  simp only [UInt32.reduceToNat] at hnat
  omega

/-- A completed message that is no answer to the request is lost or stale. -/
theorem collect_cases (r : Router) (now : UInt64) (hanswer : (r.collect now).answered = r.answered) :
    ∃ l lost stale, r.collect now = { r with link := l, lost := lost, stale := stale } ∧
      (l = r.link.abortRx ∨ l = r.link.take.2) := by
  revert hanswer
  simp only [collect]
  split
  · exact fun _ => ⟨_, _, _, rfl, .inl rfl⟩
  split
  · exact fun _ => ⟨_, _, _, rfl, .inr rfl⟩
  split
  · exact fun _ => ⟨_, _, _, rfl, .inr rfl⟩
  split
  · exact fun _ => ⟨_, _, _, rfl, .inr rfl⟩
  split
  · exact fun h => absurd h (answered_moves _)
  · exact fun h => absurd h (answered_moves _)

/-- What the link makes of a frame without an answer. -/
theorem intake_cases (r : Router) {f : Frame} {p : Pdu} (hp : fed r.link f = some p)
    (now : UInt64) (hanswer : (r.intake f now).answered = r.answered) :
    ∃ l lost stale moved,
      r.intake f now = { r with link := l, lost := lost, stale := stale, movedAt := moved } ∧
      (moved = r.movedAt ∨ moved = now) ∧
      (((r.link.onFrame now p).ready = true ∧
          (l = (r.link.onFrame now p).abortRx ∨ l = (r.link.onFrame now p).take.2)) ∨
        ((r.link.onFrame now p).ready = false ∧ l = r.link.onFrame now p ∧
          ((r.link.onFrame now p).progress = r.link.progress → moved = r.movedAt))) := by
  revert hanswer
  simp only [intake, takeFrame_some hp now]
  cases hready : (r.link.onFrame now p).ready with
  | true =>
    intro hanswer
    rw [if_pos rfl] at hanswer ⊢
    have hcollect : ({ r with link := r.link.onFrame now p }.collect now).answered = r.answered := by
      revert hanswer
      split <;> exact id
    obtain ⟨l, lost, stale, heq, hl⟩ := collect_cases _ now hcollect
    rw [heq]
    split
    · exact ⟨_, _, _, _, rfl, .inr rfl, .inl ⟨rfl, hl⟩⟩
    · exact ⟨_, _, _, _, rfl, .inl rfl, .inl ⟨rfl, hl⟩⟩
  | false =>
    intro _
    rw [if_neg Bool.false_ne_true]
    split
    · rename_i hmove
      exact ⟨_, _, _, _, rfl, .inr rfl, .inr ⟨rfl, rfl, fun h => absurd h hmove⟩⟩
    · exact ⟨_, _, _, _, rfl, .inl rfl, .inr ⟨rfl, rfl, fun _ => rfl⟩⟩

theorem closed_ready {l l' : Link} (h : l' = l.abortRx ∨ l' = l.take.2) : l'.ready = false := by
  rcases h with rfl | rfl
  · rfl
  · exact take_ready l

theorem closed_tx {l l' : Link} (h : l' = l.abortRx ∨ l' = l.take.2) : l'.tx = l.tx := by
  rcases h with rfl | rfl
  · rfl
  · exact take_tx l

/-- What closes a message leaves an idle link idle. -/
theorem closed_quiet {l l' : Link} (h : l' = l.abortRx ∨ l' = l.take.2) (hrx : l.rx = .idle)
    (hfc : l.fcSend = false) (hov : l.fcOvflw = false) :
    l'.rx = .idle ∧ l'.fcSend = false ∧ l'.fcOvflw = false := by
  rcases h with rfl | rfl
  · exact ⟨rfl, rfl, rfl⟩
  · simp only [Link.take]
    split <;> exact ⟨hrx, hfc, hov⟩

/-- A frame that is no new byte and restarts nothing in flight. -/
theorem held_intake (hh : r.Held T now.toNat) (halive : r.Alive now) {f : Frame}
    (horder : r.inOrder f = false) (hfirst : r.isFirst f = true → r.link.idle = true)
    (hanswer : (r.intake f now).answered = r.answered) : (r.intake f now).Held T now.toNat := by
  cases hp : fed r.link f with
  | none =>
    have hsame : r.intake f now = r := by
      simp [intake, takeFrame_none hp now]
    rw [hsame]
    exact hh
  | some p =>
    obtain ⟨l, lost, stale, moved, heq, hmoved, hl⟩ := intake_cases r hp now hanswer
    rw [heq]
    have htx : (r.link.onFrame now p).tx = .idle := Link.onFrame_tx hh.tx now p
    have hready : l.ready = false := by
      rcases hl with ⟨-, hl⟩ | ⟨hl, rfl, -⟩
      · exact closed_ready hl
      · exact hl
    have hlapart : l.Apart := by
      rcases hl with ⟨-, rfl | rfl⟩ | ⟨-, rfl, -⟩
      · exact apart_abortRx _
      · exact apart_take (Link.apart_onFrame hh.apart now p)
      · exact Link.apart_onFrame hh.apart now p
    have hltx : l.tx = .idle := by
      rcases hl with ⟨-, hl⟩ | ⟨-, rfl, -⟩
      · exact (closed_tx hl).trans htx
      · exact htx
    have hpast : moved.toNat ≤ now.toNat := by
      rcases hmoved with rfl | rfl
      · exact hh.moved
      · exact Nat.le_refl _
    by_cases hidle : r.link.idle = true
    · -- what begins now began before the deadline
      have hbefore := halive.waiting hidle
      have hwaits := hh.waits
      refine ⟨hready, hpast, hh.sent, hltx, hh.waits, fun _ => ?_, fun _ => ?_, hlapart⟩
      · show moved.toNat ≤ _
        omega
      · show moved.toNat ≤ _
        omega
    · have hnot : p.pci ≠ 0x10 := by
        intro hpci
        exact hidle (hfirst (by simp [isFirst, hp, hpci]))
      have hnext : ¬(r.link.rx = .receiving ∧ p.pci = 0x20 ∧ p.low = r.link.rxSn &&& 0x0F) := by
        rintro ⟨hrx, hpci, hlow⟩
        simp [inOrder, hp, hrx, hpci, hlow] at horder
      rcases Link.onFrame_cases hh.tx hh.ready now hnot hnext with
        ⟨hdone, hrx, hfc, hov⟩ | ⟨hno, hprogress, hfc, hov⟩
      · have hclose : l = (r.link.onFrame now p).abortRx ∨ l = (r.link.onFrame now p).take.2 := by
          rcases hl with ⟨-, hl⟩ | ⟨hl, -⟩
          · exact hl
          · rw [hdone] at hl
            cases hl
        obtain ⟨hlrx, hlfc, hlov⟩ := closed_quiet hclose hrx hfc hov
        have hlidle : l.idle = true :=
          Link.idle_iff.mpr ⟨hltx, by simp [hlrx], hlfc, hlov, hready⟩
        refine ⟨hready, hpast, hh.sent, hltx, hh.waits, fun h => ?_, fun h => ?_, hlapart⟩
        · simp [hlfc, hlov] at h
        · rw [hlidle] at h
          cases h
      · obtain ⟨-, rfl, hstays⟩ : (r.link.onFrame now p).ready = false ∧
            l = r.link.onFrame now p ∧
            ((r.link.onFrame now p).progress = r.link.progress → moved = r.movedAt) := by
          rcases hl with ⟨hl, -⟩ | hl
          · rw [hno] at hl
            cases hl
          · exact hl
        obtain rfl := hstays hprogress
        refine ⟨hready, hpast, hh.sent, hltx, hh.waits, fun h => hh.owes (h.imp hfc hov), fun _ => ?_,
          hlapart⟩
        exact hh.flies (by simpa using hidle)

theorem held_onFrame (hh : r.Held T t) (ht : t ≤ now.toNat) {bus : UInt8} {f : Frame}
    (hbyte : r.delivers (.frame bus f now) = false) (hrestart : r.restarts (.frame bus f now) = false)
    (hanswer : (r.onFrame bus f now).answered = r.answered) :
    (r.onFrame bus f now).active = none ∨ (r.onFrame bus f now).Held T now.toNat := by
  by_cases hconcerns : r.concerns bus f
  · simp only [onFrame, if_neg (not_not_intro hconcerns)] at hanswer ⊢
    simp only [delivers, restarts, hconcerns, decide_true, Bool.true_and] at hbyte hrestart
    rcases held_step hh ht with hnone | ⟨hheld, halive, -, hsame⟩
    · rw [if_pos hnone]
      exact .inl hnone
    · split
      · exact .inl ‹_›
      rename_i hactive
      have hsent : ¬((r.step now).sending = true ∧ notFlow f = true) := by
        simp [hheld.sent]
      rw [if_neg hactive, if_neg hsent] at hanswer
      rw [if_neg hsent]
      refine .inr (held_intake hheld halive hbyte ?_ (hanswer.trans hsame.symm))
      intro hfirst
      simpa [hfirst] using hrestart
  · have hsame : r.onFrame bus f now = r := by
      simp [onFrame, hconcerns]
    rw [hsame]
    exact .inr (hh.mono ht)

theorem settle_of_sent (h : r.sending = false) (now : UInt64) : r.settle now = r := by
  simp [settle, h]

/-- Our flow control goes out within a stall of what it answers. -/
theorem held_pumpAll (txId : UInt32) (channel : List Bool) (hh : r.Held T now.toNat)
    (hmoving : r.link.fcSend = true ∨ r.link.fcOvflw = true →
      now.toNat < r.movedAt.toNat + stallUs.toNat) :
    (r.pumpAll txId now channel).1.active = none ∨
      (r.pumpAll txId now channel).1.Held T now.toNat := by
  induction channel generalizing r with
  | nil =>
    simp only [pumpAll, settle_of_sent hh.sent]
    exact .inr hh
  | cons ok rest ih =>
    obtain ⟨htx, -, -, -, hnone⟩ := Link.poll_tx hh.tx now
    simp only [pumpAll, nextFrame]
    cases hp : (r.link.poll now).1 with
    | none =>
      simp only [Option.map_none, hnone hp]
      rw [settle_of_sent (by exact hh.sent)]
      exact .inr hh
    | some p =>
      obtain ⟨howed, hfc, hov⟩ := Link.poll_owed hh.tx hh.apart hp
      have howes := hh.owes howed
      have hsoon := hmoving howed
      simp only [Option.map_some]
      split
      · exact .inl rfl
      · refine ih ⟨(r.link.poll_ready now).trans hh.ready, Nat.le_refl _, hh.sent, htx, hh.waits,
          fun h => ?_, fun _ => ?_, Link.apart_poll hh.apart now⟩ fun h => ?_
        · simp [hfc, hov] at h
        · show now.toNat ≤ _
          omega
        · simp [hfc, hov] at h

theorem held_produce (hh : r.Held T t) (ht : t ≤ now.toNat) (channel : List Bool) :
    ((r.step now).pump now channel).1.active = none ∨
      ((r.step now).pump now channel).1.Held T now.toNat := by
  rcases held_step hh ht with hnone | ⟨hheld, halive, -, -⟩
  · left
    simp [pump, hnone]
  · simp only [pump]
    split
    · exact .inl ‹_›
    · refine held_pumpAll _ channel hheld fun howed => halive.moving ?_
      by_contra hidle
      have hquiet := Link.idle_iff.mp (by simpa using hidle)
      simp [hquiet.2.2.1, hquiet.2.2.2.1] at howed

theorem step_of_none (hr : r.active = none) (now : UInt64) : (r.step now).active = none := by
  simp [step, hr]

theorem same_room (r : Router) (now : UInt64) : SameExchange r (r.room now).2 := by
  simp only [room]
  split
  · exact ⟨rfl, rfl, rfl, rfl, rfl⟩
  · split <;> exact ⟨rfl, rfl, rfl, rfl, rfl⟩

theorem same_pop (r : Router) : SameExchange r r.pop := by
  simp only [pop]
  split <;> exact ⟨rfl, rfl, rfl, rfl, rfl⟩

/-- Without a request accepted, no exchange begins. -/
theorem apply_of_none (hr : r.active = none) {e : Event} (hlabel : (apply r e).2 ≠ some .accepted) :
    (apply r e).1.active = none := by
  cases e with
  | accept idx req conn ticket unlocked now =>
    rcases accept_cases r idx req conn ticket unlocked now with ⟨-, hnone | hsame⟩ | ⟨hyes, -⟩
    · exact hnone
    · exact hsame.active.trans (step_of_none hr now)
    · exact absurd (congrArg some hyes) hlabel
  | hold unlocked => exact (same_hold r unlocked).active.trans hr
  | frame bus f now =>
    have hconcerns : ¬r.concerns bus f := by
      simp [concerns, hr]
    simp only [apply, onFrame]
    rw [if_pos hconcerns]
    exact hr
  | step now => exact step_of_none hr now
  | produce now channel =>
    simp only [apply, pump, step_of_none hr now]
  | room now => exact (same_room r now).active.trans hr
  | pop => exact (same_pop r).active.trans hr
  | cancel => rfl

/-- One event without a byte: the exchange ends, or is held no longer than before. -/
theorem held_apply (hh : r.active ≠ none → r.Held T t) (e : Event)
    (htime : ∀ now ∈ e.time, t ≤ now.toNat) (hn : NoByte (Trace.entry apply r e))
    (hrestart : r.restarts e = false) (ha : (apply r e).1.active ≠ none) :
    (apply r e).1.Held T (e.time.elim t UInt64.toNat) := by
  have hr : r.active ≠ none := fun hr => ha (apply_of_none hr hn.request)
  have hheld := hh hr
  cases e with
  | accept idx req conn ticket unlocked now =>
    rcases accept_cases r idx req conn ticket unlocked now with ⟨-, hnone | hsame⟩ | ⟨hyes, -⟩
    · exact absurd hnone ha
    · rcases held_step hheld (htime now rfl) with hnone | hstep
      · exact absurd (hsame.active.trans hnone) ha
      · exact hsame.held hstep.1
    · exact absurd (congrArg some hyes) hn.request
  | hold unlocked => exact (same_hold r unlocked).held hheld
  | frame bus f now =>
    have hframe := held_onFrame hheld (htime now rfl) hn.byte hrestart hn.answer
    exact hframe.resolve_left ha
  | step now => exact ((held_step hheld (htime now rfl)).resolve_left ha).1
  | produce now channel => exact (held_produce hheld (htime now rfl) channel).resolve_left ha
  | room now => exact (same_room r now).held (hheld.mono (htime now rfl))
  | pop => exact (same_pop r).held hheld
  | cancel => exact absurd rfl ha

/-- At the latest two stalls after the wait, the timers end it. -/
theorem held_ends (hh : r.active ≠ none → r.Held T t) (ht : t ≤ now.toNat)
    (hnow : T + answerWaitUs.toNat + 2 * stallUs.toNat ≤ now.toNat) : (r.step now).active = none := by
  by_cases hr : r.active = none
  · exact step_of_none hr now
  rcases held_step (hh hr) ht with hnone | ⟨hheld, halive, -, -⟩
  · exact hnone
  · exfalso
    cases hidle : (r.step now).link.idle with
    | true =>
      have hbefore := halive.waiting hidle
      have hwaits := hheld.waits
      omega
    | false =>
      have hmoving := halive.moving hidle
      have hflies := hheld.flies hidle
      omega

/-- A request that is still leaving has moved less than a stall ago. -/
theorem sending_moves (hk : r.active ≠ none → r.Keeps t) (ht : t ≤ now.toNat)
    (ha : (r.step now).active ≠ none) (hsending : (r.step now).sending = true) :
    now.toNat < (r.step now).movedAt.toNat + stallUs.toNat := by
  by_cases hr : r.active = none
  · exact absurd (step_of_none hr now) ha
  have hmoved : r.movedAt.toNat ≤ now.toNat := Nat.le_trans (hk hr).moved ht
  revert ha hsending
  simp only [step, if_neg hr]
  split
  · exact fun ha => absurd ‹_› ha
  split
  · exact fun ha => absurd rfl ha
  rename_i hnone hmove
  intro _ hsending
  generalize hlink : r.link.tick now = l at hnone hmove hsending ⊢
  have hover : ∀ r' : Router, (r'.overdue now).sending = true → r'.overdue now = r' := by
    intro r' hs
    simp only [overdue] at hs ⊢
    split at hs
    · rw [if_pos ‹_›]
    · cases hs
  have hstays := hover ({ r with link := l }.settle now) hsending
  rw [hstays] at hsending ⊢
  revert hnone hmove hsending
  simp only [settle]
  split
  · rename_i hbusy
    intro _ hmove hsending
    have hsending' : r.sending = true := hsending
    have hbusy' : l.idle = false := by
      by_contra hidle
      have htx := (Link.idle_iff.mp (by simpa using hidle)).1
      simp [hr, hsending', Link.busy, htx] at hbusy
    simp only [stalled, hbusy', Bool.false_eq_true, not_false_eq_true, true_and] at hmove
    rw [UInt64.le_iff_toNat_le, UInt64.toNat_sub_of_le _ _ (UInt64.le_iff_toNat_le.mpr hmoved)]
      at hmove
    show now.toNat < r.movedAt.toNat + stallUs.toNat
    omega
  split
  · intro hnone
    exact absurd rfl hnone
  · intro _ _ hsending
    cases hsending

end Router

/-! ## Runs -/

open Router

/-- The times of a run. -/
def times (es : List Event) : List UInt64 := es.filterMap Event.time

@[simp] theorem times_append (es es' : List Event) : times (es ++ es') = times es ++ times es' := by
  simp [times]

theorem times_single (e : Event) : times [e] = e.time.toList := by
  cases h : e.time <;> simp [times, h]

/-- The clock does not go back. -/
def Clocked (es : List Event) : Prop := (times es).Pairwise (· ≤ ·)

instance (es : List Event) : Decidable (Clocked es) := inferInstanceAs (Decidable (List.Pairwise ..))

theorem Clocked.of_append {es es' : List Event} (h : Clocked (es ++ es')) : Clocked es := by
  rw [Clocked, times_append, List.pairwise_append] at h
  exact h.1

/-- The events before another have passed by then. -/
theorem Clocked.last {es : List Event} {e : Event} (h : Clocked (es ++ [e])) {now : UInt64}
    (hnow : now ∈ e.time) : ∀ t ∈ times es, t.toNat ≤ now.toNat := by
  intro t ht
  have hmem : now ∈ times [e] := by
    rw [times_single]
    simpa using hnow
  rw [Clocked, times_append, List.pairwise_append] at h
  exact UInt64.le_iff_toNat_le.mp (h.2.2 t ht now hmem)

theorem mem_times_snoc {es : List Event} {e : Event} {now : UInt64} (hnow : now ∈ e.time) :
    now ∈ times (es ++ [e]) := by
  rw [times_append, times_single, Option.mem_def.mp hnow]
  simp

variable {level bs : UInt8} {routes : List Route}

/-- Every run keeps its exchange. -/
theorem keeps_run (es : List Event) (hclock : Clocked es) (hfits : ∀ τ ∈ times es, InClock τ)
    {t : ℕ} (ht : ∀ τ ∈ times es, τ.toNat ≤ t)
    (ha : (Trace.final apply (init level bs routes) es).active ≠ none) :
    (Trace.final apply (init level bs routes) es).Keeps t := by
  induction es using List.reverseRecOn generalizing t with
  | nil => exact absurd rfl ha
  | append_singleton es e ih =>
    have hbefore : ∀ τ ∈ times es, τ ∈ times (es ++ [e]) := by
      intro τ hτ
      simp [hτ]
    have ih' := fun {t : ℕ} ht => ih (t := t) hclock.of_append (fun τ hτ => hfits τ (hbefore τ hτ)) ht
    rw [Trace.final_snoc] at ha ⊢
    cases hnow : e.time with
    | none =>
      have hk := keeps_apply (ih' fun τ hτ => ht τ (hbefore τ hτ)) e (by simp [hnow]) ha
      rwa [hnow] at hk
    | some now =>
      have hpast := hclock.last (e := e) hnow
      have hfit := hfits now (mem_times_snoc hnow)
      have htime : ∀ τ ∈ e.time, now.toNat ≤ τ.toNat ∧ InClock τ := by
        intro τ hτ
        obtain rfl : now = τ := by simpa [hnow] using hτ
        exact ⟨Nat.le_refl _, hfit⟩
      have hk := keeps_apply (ih' hpast) e htime ha
      rw [hnow] at hk
      exact hk.mono (ht now (mem_times_snoc hnow))

/-- Without a byte of an answer, a run holds its exchange no longer than the bounds. -/
theorem held_run (es es' : List Event) (hclock : Clocked (es ++ es')) {T : ℕ}
    (hT : ∀ τ ∈ times es, τ.toNat ≤ T) (hfits : ∀ τ ∈ times es, InClock τ)
    (hsent : (Trace.final apply (init level bs routes) es).sending = false)
    (hquiet : ∀ x ∈ Trace.history apply (Trace.final apply (init level bs routes) es) es',
      NoByte x ∧ x.before.restarts x.event = false)
    {t : ℕ} (ht : ∀ τ ∈ times (es ++ es'), τ.toNat ≤ t)
    (ha : (Trace.final apply (Trace.final apply (init level bs routes) es) es').active ≠ none) :
    (Trace.final apply (Trace.final apply (init level bs routes) es) es').Held T t := by
  induction es' using List.reverseRecOn generalizing t with
  | nil =>
    have hkeeps := keeps_run es hclock.of_append hfits hT ha
    have hpast := keeps_run es hclock.of_append hfits (fun τ hτ => ht τ (by simpa using hτ)) ha
    exact { hkeeps.held hsent with moved := hpast.moved }
  | append_singleton es' e ih =>
    rw [← List.append_assoc] at hclock ht
    rw [Trace.history_snoc] at hquiet
    have ih' := fun {t : ℕ} ht => ih hclock.of_append
      (fun x hx => hquiet x (List.mem_append_left _ hx)) (t := t) ht
    have hlast := hquiet _ (List.mem_append_right _ (List.mem_singleton_self _))
    have hbefore : ∀ τ ∈ times (es ++ es'), τ.toNat ≤ t := by
      intro τ hτ
      exact ht τ (by rw [times_append]; exact List.mem_append_left _ hτ)
    rw [Trace.final_snoc] at ha ⊢
    cases hnow : e.time with
    | none =>
      have hh := held_apply (ih' hbefore) e (by simp [hnow]) hlast.1 hlast.2 ha
      rwa [hnow] at hh
    | some now =>
      have hh := held_apply (ih' (hclock.last (e := e) hnow)) e (by simp [hnow]) hlast.1 hlast.2 ha
      rw [hnow] at hh
      exact hh.mono (ht now (mem_times_snoc hnow))

/-- One node behind the gateway. -/
def benchRoutes : List Route := [{ logical := 0x1000, bus := 0, txId := 0x7E0, rxId := 0x7E8 }]

/-- A frame of the node. -/
def benchFrame (data : List UInt8) : Frame := ⟨0x7E8, false, data⟩

/-- An identifier is read with a single frame. -/
def benchRead : List Event := [.accept 0 [0x22, 0xF1, 0x90] 1 1 1 0, .produce 0 [true, true]]

/-- The node begins an answer, then sends frames out of sequence. -/
def benchOutOfSequence : List Event :=
  [.frame 0 (benchFrame [0x10, 0x14, 0x62, 0xF1, 0x90, 1, 2, 3]) 5000000, .produce 5000000 [true],
    .frame 0 (benchFrame [0x25, 1, 2, 3, 4, 5, 6, 7]) 5500000, .produce 5500000 [true]]

instance (x : Trace.Entry Router Event (Option Verdict)) : Decidable (NoByte x) :=
  decidable_of_iff (x.before.delivers x.event = false ∧ x.after.answered = x.before.answered ∧
    x.label ≠ some .accepted) ⟨fun h => ⟨h.1, h.2.1, h.2.2⟩, fun h => ⟨h.byte, h.answer, h.request⟩⟩

/-- Checked over the times alone, not over all words. -/
theorem times_le_of_all {ts : List UInt64} {T : ℕ} (h : ts.all (·.toNat ≤ T) = true) :
    ∀ τ ∈ ts, τ.toNat ≤ T := fun τ hτ => of_decide_eq_true (List.all_eq_true.mp h τ hτ)

/-- A write of twenty bytes, its first frame sent. -/
def benchWrite : List Event :=
  [.accept 0 (0x2E :: List.replicate 19 0x55) 1 1 1 0, .produce 0 [true, true]]

/-- The node asks to wait, each time within the time for a flow control. -/
def benchWaits : List Event :=
  (List.range 16).flatMap fun i =>
    [.frame 0 (benchFrame [0x31, 0, 0]) ((i + 1).toUInt64 * 900000),
      .produce ((i + 1).toUInt64 * 900000) [true]]

end BloblyEmb.Diagroute
