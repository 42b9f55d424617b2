import Mathlib.Algebra.Order.Ring.Nat
import BloblyEmb.Dump.Blocks

/-!
# What a dump tells

The records of a capture, from the hooks that make them to the blocks that carry them. The ring drops
records that later ones count from, and remembers of them what is needed.
-/
namespace BloblyEmb.Dump

open Multicore (Ring)

/-! ## A capture -/

def flagOverran : UInt8 := 0x01
def flagSaturated : UInt8 := 0x04

/-- What a hook finds of the other core: that its own ring was restarted, that the dispatch is of the
window before or began in it, and that the freeze is raised. -/
structure Peer where
  restarted : Bool
  discarded : Bool
  predates : Bool
  raised : Bool

inductive Event where
  | fbHook (peer : Peer) (idx : UInt32) (startUs dtUs : UInt64)
  | noteThread (peer : Peer) (tid : UInt16) (reason : UInt8) (startUs dtUs : UInt64)
  /-- Any record, as the import of another core's window pushes them. -/
  | record (r : Record)
  | start
  | stop
  | trigger

/-- A capture and its ring. The records that went in since the last start stand in `pushed`, each with
the time that had elapsed: that is not in the code. -/
structure World where
  t : TraceBuffer
  start : UInt64
  base : UInt64 := 0
  idBase : UInt32
  budgetUs : UInt32
  pushed : List (Record × UInt64) := []

namespace World

def newBuffer (cap : ℕ) (mode : Multicore.Mode) (prePct : ℕ) : TraceBuffer where
  ring := { cap := cap, mode := mode, prePct := if 100 < prePct then 100 else prePct }

def push (w : World) (r : Record) (elapsed : UInt64) : World :=
  if w.t.ring.state ≠ .capturing ∨ w.t.ring.cap = 0 then { w with t := w.t.push r }
  else { w with t := w.t.push r, pushed := w.pushed ++ [(r, elapsed)] }

def restart (w : World) : World := { w with t := w.t.start, pushed := [] }

def setRing (w : World) (r : Ring) : World := { w with t := { w.t with ring := r } }

def anchor (w : World) (elapsed : UInt64) (capturing : Bool) : World :=
  if capturing = false then w
  else if 0x00ffffff < elapsed - w.base ∨ (w.t.ring.used = 0 ∧ w.base ≠ 0) then
    { w with base := elapsed }.push (newEpoch elapsed.toUInt32) elapsed
  else w

def syncFreeze (w : World) (peer : Peer) (tripped : Bool) : World :=
  if tripped then w else if peer.raised then w.setRing w.t.ring.trigger else w

/-- What both hooks do with a dispatch that is recorded, but for the record that they make of it. -/
def dispatch (w : World) (peer : Peer) (startUs dtUs : UInt64)
    (new : UInt32 → UInt16 → Bool → Record) : World :=
  let wasCapturing := decide (w.t.ring.state = .capturing)
  let elapsed := startUs - w.start
  let w := w.anchor elapsed wasCapturing
  let dt := if 0xffff < dtUs then 0xffff else dtUs
  let overran := decide (0 < w.budgetUs) && decide (w.budgetUs.toUInt64 < dtUs)
  let w := w.push (new (elapsed - w.base).toUInt32 dt.toUInt16 overran) elapsed
  let trips := overran && wasCapturing
  let tripped := trips && w.t.ring.trip.2
  let w := if trips then w.setRing w.t.ring.trip.1 else w
  w.syncFreeze peer (tripped && !peer.predates)

def adopt (w : World) (peer : Peer) : World := if peer.restarted then w.restart else w

def hook (w : World) (peer : Peer) (startUs dtUs : UInt64)
    (new : UInt32 → UInt16 → Bool → Record) : World :=
  if peer.discarded then (w.adopt peer).syncFreeze peer false
  else (w.adopt peer).dispatch peer startUs dtUs new

def step (w : World) : Event → World
  | .fbHook peer idx startUs dtUs =>
    let saturated := if 0xffff < dtUs then flagSaturated else 0
    w.hook peer startUs dtUs fun start dt overran =>
      newFb (w.idBase + idx).toUInt16 (saturated ||| if overran then flagOverran else 0) start dt
  | .noteThread peer tid reason startUs dtUs =>
    w.hook peer startUs dtUs fun start dt _ => newThread tid reason start dt
  | .record r => w.push r 0
  | .start => w.restart
  | .stop => w.setRing w.t.ring.stop
  | .trigger => w.setRing w.t.ring.trigger

end World

/-! ## What the window keeps of the records -/

/-- The records that went in and out of the window again. -/
def World.gone (w : World) : List (Record × UInt64) :=
  w.pushed.take (w.pushed.length - w.t.ring.used)

def World.kept (w : World) : List (Record × UInt64) :=
  w.pushed.drop (w.pushed.length - w.t.ring.used)

def records (l : List (Record × UInt64)) : List Record := l.map Prod.fst

structure Inv (w : World) : Prop where
  fits : w.t.Fits
  used : w.t.ring.used = min w.pushed.length w.t.ring.cap
  empty : w.t.ring.cap = 0 → w.pushed = []
  window : w.t.window = records w.kept
  /-- Where the base of the oldest record went, the ring has it; or the oldest is an epoch. -/
  origin : w.t.origin = (TraceBuffer.replay 0 none (records w.gone)).1 ∨
    ∃ r rs, w.t.window = r :: rs ∧ r.isEpoch = true

namespace TraceBuffer

variable {t : TraceBuffer}

theorem push_origin (h : t.Fits) (r : Record) (hstate : t.ring.state = .capturing)
    (hcap : 0 < t.ring.cap) :
    ((t.push r).origin = if t.ring.mode = .ring ∧ t.ring.used = t.ring.cap ∧
        (t.buf t.head).isEpoch = true then (t.buf t.head).epochBase else t.origin) ∨
      ∃ x xs, (t.push r).window = x :: xs ∧ x.isEpoch = true := by
  have h' := h.push r hstate hcap
  have hgo : ¬(t.ring.state ≠ .capturing ∨ t.ring.cap = 0) := by
    simp [hstate, Nat.pos_iff_ne_zero.mp hcap]
  by_cases hfirst : (t.push r).ring.used = (t.push r).ring.cap ∧
      ((t.push r).buf (t.push r).head).isEpoch = true ∧ t.ring.mode = .ring
  · right
    obtain ⟨hfull, hepoch, -⟩ := hfirst
    obtain ⟨hring, -, -⟩ := push_ring t r hstate hcap
    have hcap' := (ring_push t.ring hstate hcap (h.oneshot_room hstate hcap)).1
    have hpos : 0 < (t.push r).ring.cap := by
      rw [hring, hcap']
      exact hcap
    obtain ⟨rs, hw⟩ := h'.window_full hpos hfull
    exact ⟨_, rs, hw, hepoch⟩
  · left
    revert hfirst
    rw [push, if_neg hgo]
    cases hmode : t.ring.mode with
    | oneshot =>
      intro _
      simp [origin]
    | ring =>
      simp only [true_and, and_true]
      by_cases hevict : t.ring.used = t.ring.cap ∧ (t.buf t.head).isEpoch = true
      · simp only [if_pos hevict]
        split
        · rename_i hclear
          intro hfirst
          exact absurd ⟨hclear.2.1, hclear.2.2⟩ hfirst
        · intro _
          simp [origin]
      · simp only [if_neg hevict]
        split
        · rename_i hclear
          intro hfirst
          exact absurd ⟨hclear.2.1, hclear.2.2⟩ hfirst
        · intro _
          simp [origin]

end TraceBuffer

section Steps

variable {w : World}

/-- A world whose ring took the record in. -/
def World.took (w : World) (r : Record) (elapsed : UInt64) : World :=
  { w with t := w.t.push r, pushed := w.pushed ++ [(r, elapsed)] }

/-- While there is room, nothing goes. -/
theorem Inv.took_filling (h : Inv w) (r : Record) (elapsed : UInt64)
    (hstate : w.t.ring.state = .capturing) (hlt : w.t.ring.used < w.t.ring.cap) :
    Inv (w.took r elapsed) := by
  have hcap : 0 < w.t.ring.cap := Nat.zero_lt_of_lt hlt
  obtain ⟨hring, -, -⟩ := TraceBuffer.push_ring w.t r hstate hcap
  obtain ⟨hcap', hmode', hused', -⟩ :=
    TraceBuffer.ring_push w.t.ring hstate hcap (h.fits.oneshot_room hstate hcap)
  have hused := h.used
  have hall : w.pushed.length = w.t.ring.used := by omega
  have hgone : w.gone = [] := by simp [World.gone, hall]
  have hkept : w.kept = w.pushed := by simp [World.kept, hall]
  have hwindow : (w.took r elapsed).t.window = w.t.window ++ [r] := by
    rw [World.took, h.fits.window_push r hstate hcap, if_pos hlt]
  rw [if_pos hlt] at hused'
  constructor
  case fits => exact h.fits.push r hstate hcap
  case used =>
    simp only [World.took, hring, hused', hcap', List.length_append, List.length_singleton]
    omega
  case empty =>
    simp only [World.took, hring, hcap']
    exact fun h0 => absurd h0 (Nat.pos_iff_ne_zero.mp hcap)
  case window =>
    rw [hwindow, h.window, hkept]
    simp [World.took, World.kept, records, hring, hused', hall]
  case origin =>
    rcases w.t.push_origin h.fits r hstate hcap with horigin | hepoch
    · rw [if_neg (by omega)] at horigin
      rcases h.origin with hreplay | ⟨x, xs, hw, hx⟩
      · left
        rw [World.took, horigin, hreplay, hgone]
        simp [World.gone, records, hring, hused', hall]
      · right
        rw [hwindow, hw]
        exact ⟨x, xs ++ [r], rfl, hx⟩
    · exact .inr hepoch

/-- In a full ring the oldest record goes, and the ring knows its base if it was an epoch. -/
theorem Inv.took_full (h : Inv w) (r : Record) (elapsed : UInt64)
    (hstate : w.t.ring.state = .capturing) (hcap : 0 < w.t.ring.cap)
    (hfull : w.t.ring.used = w.t.ring.cap) : Inv (w.took r elapsed) := by
  have hlt : ¬w.t.ring.used < w.t.ring.cap := by omega
  have hmode : w.t.ring.mode = .ring := by
    cases hm : w.t.ring.mode with
    | ring => rfl
    | oneshot => exact absurd (h.fits.oneshot_room hstate hcap hm) hlt
  obtain ⟨hring, -, -⟩ := TraceBuffer.push_ring w.t r hstate hcap
  obtain ⟨hcap', hmode', hused', -⟩ :=
    TraceBuffer.ring_push w.t.ring hstate hcap (h.fits.oneshot_room hstate hcap)
  have hused := h.used
  rw [if_neg hlt] at hused'
  obtain ⟨xs, hw⟩ := h.fits.window_full hcap hfull
  obtain ⟨e, hkept, hxs⟩ : ∃ e,
      w.kept = (w.t.buf w.t.head, e) :: w.pushed.drop (w.pushed.length + 1 - w.t.ring.cap) ∧
        records (w.pushed.drop (w.pushed.length + 1 - w.t.ring.cap)) = xs := by
    have hwin := h.window
    rw [hw] at hwin
    cases hk : w.kept with
    | nil => simp [hk, records] at hwin
    | cons p ps =>
      have hps : ps = w.pushed.drop (w.pushed.length + 1 - w.t.ring.cap) := by
        have htail : w.kept.tail = ps := by rw [hk]; rfl
        rw [← htail, World.kept, List.tail_drop, hfull]
        congr 1
        omega
      simp only [hk, records, List.map_cons, List.cons.injEq] at hwin
      rw [← hps, hwin.1, hwin.2]
      exact ⟨p.2, rfl, rfl⟩
  constructor
  case fits => exact h.fits.push r hstate hcap
  case used =>
    simp only [World.took, hring, hused', hcap', List.length_append, List.length_singleton]
    omega
  case empty =>
    simp only [World.took, hring, hcap']
    exact fun h0 => absurd h0 (Nat.pos_iff_ne_zero.mp hcap)
  case window =>
    rw [World.took, h.fits.window_push r hstate hcap, if_neg hlt, hw, List.tail_cons, ← hxs]
    simp only [World.kept, hring, hused', hfull, records, List.length_append,
      List.length_singleton]
    rw [List.drop_append_of_le_length (by omega), List.map_append]
    rfl
  case origin =>
    have hgone : (w.took r elapsed).gone = w.gone ++ [(w.t.buf w.t.head, e)] := by
      simp only [World.took, World.gone, hring, hused', List.length_append, List.length_singleton]
      rw [List.take_append_of_le_length (by omega),
        show w.pushed.length + 1 - w.t.ring.used = w.pushed.length - w.t.ring.used + 1 by omega,
        List.take_add]
      congr 1
      rw [show w.pushed.drop (w.pushed.length - w.t.ring.used) = w.kept from rfl, hkept]
      rfl
    rw [hgone]
    rcases w.t.push_origin h.fits r hstate hcap with horigin | hepoch
    · left
      rw [World.took, horigin]
      simp only [hmode, hfull, true_and, records, List.map_append, List.map_cons, List.map_nil,
        TraceBuffer.replay_append, TraceBuffer.replay]
      by_cases hx : (w.t.buf w.t.head).isEpoch = true
      · rw [if_pos hx, if_pos hx]
      · rw [if_neg hx, if_neg hx]
        rcases h.origin with hreplay | ⟨y, ys, hy, hye⟩
        · exact hreplay
        · rw [hw, List.cons.injEq] at hy
          exact absurd (hy.1 ▸ hye) hx
    · exact .inr hepoch

theorem push_idle (h : w.t.ring.state ≠ .capturing ∨ w.t.ring.cap = 0) (r : Record)
    (elapsed : UInt64) : w.push r elapsed = w := by
  rw [World.push, if_pos h, TraceBuffer.push, if_pos h]

theorem push_live (h : ¬(w.t.ring.state ≠ .capturing ∨ w.t.ring.cap = 0)) (r : Record)
    (elapsed : UInt64) : w.push r elapsed = w.took r elapsed := by
  rw [World.push, if_neg h, World.took]

theorem Inv.push (h : Inv w) (r : Record) (elapsed : UInt64) : Inv (w.push r elapsed) := by
  by_cases hidle : w.t.ring.state ≠ .capturing ∨ w.t.ring.cap = 0
  · rwa [push_idle hidle]
  · rw [push_live hidle]
    rw [not_or, not_not] at hidle
    have hcap := Nat.pos_of_ne_zero hidle.2
    have hle := h.fits.used
    by_cases hlt : w.t.ring.used < w.t.ring.cap
    · exact h.took_filling r elapsed hidle.1 hlt
    · exact h.took_full r elapsed hidle.1 hcap (by omega)

end Steps

section Runs

variable {w : World}

/-- A ring that was told to stop keeps its records. -/
structure Calm (r r' : Ring) : Prop where
  cap : r'.cap = r.cap
  mode : r'.mode = r.mode
  used : r'.used = r.used
  state : r'.state = .capturing → r.state = .capturing

theorem calm_stop (r : Ring) : Calm r r.stop := by
  by_cases h : r.state = .capturing
  · constructor <;> simp [Ring.stop, h]
  · constructor <;> simp [Ring.stop, h]

theorem calm_trigger (r : Ring) : Calm r r.trigger := by
  by_cases h : r.state = .capturing
  · cases hmode : r.mode with
    | oneshot => constructor <;> simp [Ring.trigger, h, hmode]
    | ring =>
      by_cases hpending : r.pending = true
      · constructor <;> simp [Ring.trigger, h, hmode, hpending]
      · by_cases hpost : r.cap - r.cap * r.prePct / 100 = 0
        · constructor <;> simp [Ring.trigger, h, hmode, hpending, hpost]
        · constructor <;> simp [Ring.trigger, h, hmode, hpending, hpost]
  · constructor <;> simp [Ring.trigger, h]

theorem calm_trip (r : Ring) : Calm r r.trip.1 := by
  by_cases h : r.froze = .stop
  · constructor <;> simp [Ring.trip, h]
  · have hcalm := calm_trigger r
    constructor
    case cap => simpa [Ring.trip, h] using hcalm.cap
    case mode => simpa [Ring.trip, h] using hcalm.mode
    case used => simpa [Ring.trip, h] using hcalm.used
    case state => simpa [Ring.trip, h] using hcalm.state

theorem Inv.setRing (h : Inv w) {r : Ring} (hr : Calm w.t.ring r) : Inv (w.setRing r) := by
  have hwindow : (w.setRing r).t.window = w.t.window := by
    simp only [World.setRing, TraceBuffer.window, hr.used]
    apply List.map_congr_left
    intro i _
    simp only [TraceBuffer.recordAt, hr.used, hr.cap]
  constructor
  case fits =>
    constructor
    case cap => exact hr.cap ▸ h.fits.cap
    case used =>
      simp only [World.setRing, hr.used, hr.cap]
      exact h.fits.used
    case filling =>
      simp only [World.setRing, hr.used, hr.cap, hr.mode]
      exact h.fits.filling
    case head =>
      simp only [World.setRing, hr.cap]
      exact h.fits.head
    case oneshot =>
      simp only [World.setRing, hr.used, hr.cap, hr.mode]
      intro hmode
      exact ⟨(h.fits.oneshot hmode).1, fun hst => (h.fits.oneshot hmode).2 (hr.state hst)⟩
  case used =>
    simp only [World.setRing, hr.used, hr.cap]
    exact h.used
  case empty =>
    simp only [World.setRing, hr.cap]
    exact h.empty
  case window =>
    rw [hwindow, h.window]
    simp only [World.kept, World.setRing, hr.used]
  case origin =>
    rw [hwindow]
    have horigin := h.origin
    simp only [World.gone] at horigin ⊢
    simp only [World.setRing, hr.used]
    exact horigin

theorem Inv.restart (h : Inv w) : Inv w.restart := by
  constructor
  case fits =>
    constructor
    case cap => exact h.fits.cap
    case used => exact Nat.zero_le _
    case filling => exact fun _ _ => rfl
    case head => exact fun hcap => hcap
    case oneshot => exact fun _ => ⟨rfl, fun _ => Nat.eq_zero_or_pos _⟩
  case used => simp [World.restart, TraceBuffer.start, Ring.start]
  case empty => exact fun _ => rfl
  case window =>
    simp [World.restart, World.kept, TraceBuffer.window, TraceBuffer.start, Ring.start, records]
  case origin =>
    left
    simp [World.restart, World.gone, TraceBuffer.start, TraceBuffer.origin, records,
      TraceBuffer.replay]

theorem Inv.setBase (h : Inv w) (base : UInt64) : Inv { w with base := base } :=
  ⟨h.fits, h.used, h.empty, h.window, h.origin⟩

theorem Inv.anchor (h : Inv w) (elapsed : UInt64) (capturing : Bool) :
    Inv (w.anchor elapsed capturing) := by
  rw [World.anchor]
  split
  · exact h
  · split
    · exact (h.setBase elapsed).push _ _
    · exact h

theorem Inv.syncFreeze (h : Inv w) (peer : Peer) (tripped : Bool) :
    Inv (w.syncFreeze peer tripped) := by
  rw [World.syncFreeze]
  split
  · exact h
  · split
    · exact h.setRing (calm_trigger _)
    · exact h

theorem Inv.adopt (h : Inv w) (peer : Peer) : Inv (w.adopt peer) := by
  rw [World.adopt]
  split
  · exact h.restart
  · exact h

theorem Inv.hook (h : Inv w) (peer : Peer) (startUs dtUs : UInt64)
    (new : UInt32 → UInt16 → Bool → Record) : Inv (w.hook peer startUs dtUs new) := by
  have hadopt := h.adopt peer
  rw [World.hook]
  split
  · exact hadopt.syncFreeze _ _
  · simp only [World.dispatch]
    apply Inv.syncFreeze
    split
    · exact ((hadopt.anchor _ _).push _ _).setRing (calm_trip _)
    · exact (hadopt.anchor _ _).push _ _

theorem Inv.step (h : Inv w) (e : Event) : Inv (w.step e) := by
  cases e with
  | fbHook peer idx startUs dtUs => exact h.hook _ _ _ _
  | noteThread peer tid reason startUs dtUs => exact h.hook _ _ _ _
  | record r => exact h.push _ _
  | start => exact h.restart
  | stop => exact h.setRing (calm_stop _)
  | trigger => exact h.setRing (calm_trigger _)

end Runs

/-! ## The anchor -/

/-- Each record of an entity stands where its time had elapsed, where the base before is this. -/
def Anchored (base : UInt32) : List (Record × UInt64) → Prop
  | [] => True
  | p :: l =>
    (p.1.isEpoch = false → p.1.isCoreOffset = false → base + p.1.startUs = p.2.toUInt32) ∧
      Anchored (if p.1.isEpoch then p.1.epochBase else base) l

theorem anchored_append (xs ys : List (Record × UInt64)) (base : UInt32) (skew : Option Record) :
    Anchored base (xs ++ ys) ↔
      Anchored base xs ∧ Anchored (TraceBuffer.replay base skew (records xs)).1 ys := by
  induction xs generalizing base skew with
  | nil => simp [Anchored, records, TraceBuffer.replay]
  | cons x xs ih =>
    simp only [List.cons_append, Anchored, records, List.map_cons, TraceBuffer.replay, and_assoc]
    exact and_congr_right fun _ => ih _ _

def ofEntity (p : Record × UInt64) : Bool := !p.1.isEpoch && !p.1.isCoreOffset

/-- On the timeline the records stand where their times had elapsed. -/
theorem Anchored.starts {l : List (Record × UInt64)} {base : UInt32} (h : Anchored base l)
    (skew : Option Record) :
    (timeline base skew (records l)).map (fun s => (s.record, s.start)) =
      (l.filter ofEntity).map fun p => (p.1, p.2.toUInt32) := by
  induction l generalizing base skew with
  | nil => rfl
  | cons p l ih =>
    obtain ⟨hp, hl⟩ := h
    simp only [records, List.map_cons, timeline] at ih ⊢
    by_cases he : p.1.isEpoch = true
    · rw [if_pos he] at hl ⊢
      rw [List.filter_cons_of_neg (by simp [ofEntity, he])]
      exact ih hl skew
    · rw [if_neg he] at hl ⊢
      by_cases ho : p.1.isCoreOffset = true
      · rw [if_pos ho, List.filter_cons_of_neg (by simp [ofEntity, ho])]
        exact ih hl _
      · rw [if_neg ho, List.filter_cons_of_pos (by simp [ofEntity, he, ho]), List.map_cons,
          List.map_cons, ih hl skew, hp (by simpa using he) (by simpa using ho)]

structure Aligned (w : World) : Prop where
  anchored : Anchored 0 w.pushed
  base : w.pushed ≠ [] → w.base.toUInt32 = (TraceBuffer.replay 0 none (records w.pushed)).1

section Anchors

variable {w : World}

theorem kind_entity (id : UInt16) :
    entity kindThread id >>> 14 = kindThread ∧ entity kindFb id >>> 14 = kindFb := by
  have hmask : idMask >>> 14 = 0 := by decide
  have hsplit : ∀ k : UInt16,
      entity k id >>> 14 = (k <<< 14) >>> 14 ||| (id >>> 14 &&& idMask >>> 14) := by
    intro k
    apply UInt16.toBitVec_inj.mp
    simp [entity, BitVec.ushiftRight_or_distrib, BitVec.ushiftRight_and_distrib]
  constructor
  · rw [hsplit, hmask, UInt16.and_zero]
    decide
  · rw [hsplit, hmask, UInt16.and_zero]
    decide

theorem startUs_pack (s : UInt32) (info : UInt8) :
    packTsinfo s info &&& 0x00ffffff = s &&& 0x00ffffff := by
  have hinfo : info.toUInt32 <<< 24 &&& 0x00ffffff = 0 := by
    have hall : ∀ n : Fin 256, (UInt8.ofFin n).toUInt32 <<< 24 &&& 0x00ffffff = 0 := by
      decide +kernel
    exact hall info.toFin
  have hself : (0x00ffffff : UInt32) &&& 0x00ffffff = 0x00ffffff := by decide
  have hdistrib : ∀ a b c : UInt32, (a ||| b) &&& c = a &&& c ||| b &&& c := by
    intro a b c
    apply UInt32.toBitVec_inj.mp
    ext i
    simp [Bool.and_or_distrib_right]
  rw [packTsinfo, hdistrib, hinfo, UInt32.or_zero, UInt32.and_assoc, hself]

theorem low_eq {d : UInt64} (h : ¬0x00ffffff < d) : d.toUInt32 &&& 0x00ffffff = d.toUInt32 := by
  have hd : d.toNat ≤ 0x00ffffff := by
    rw [UInt64.lt_iff_toNat_lt] at h
    exact Nat.not_lt.mp h
  apply UInt32.toNat_inj.mp
  rw [UInt32.toNat_and, UInt64.toNat_toUInt32, show (0x00ffffff : UInt32).toNat = 2 ^ 24 - 1 by rfl,
    Nat.and_two_pow_sub_one_eq_mod]
  omega

theorem elapsed_eq (elapsed base : UInt64) :
    base.toUInt32 + (elapsed - base).toUInt32 = elapsed.toUInt32 := by
  rw [← UInt64.toUInt32_add, UInt64.add_comm, UInt64.sub_add_cancel]

/-- A record of an entity, with the low bits of its start. -/
structure OfEntity (new : UInt32 → UInt16 → Bool → Record) : Prop where
  epoch : ∀ s dt o, (new s dt o).isEpoch = false
  offset : ∀ s dt o, (new s dt o).isCoreOffset = false
  start : ∀ s dt o, (new s dt o).startUs = s &&& 0x00ffffff

theorem ofEntity_newFb (id : UInt16) (flags : Bool → UInt8) :
    OfEntity fun s dt o => newFb id (flags o) s dt := by
  have hkind : entity kindFb id >>> 14 ≠ kindControl := by
    rw [(kind_entity id).2]
    decide
  constructor
  case epoch => simp [newFb, Record.isEpoch, Record.kind, hkind]
  case offset => simp [newFb, Record.isCoreOffset, Record.kind, hkind]
  case start => exact fun s _ o => startUs_pack s (flags o)

theorem ofEntity_newThread (id : UInt16) (reason : UInt8) :
    OfEntity fun s dt _ => newThread id reason s dt := by
  have hkind : entity kindThread id >>> 14 ≠ kindControl := by
    rw [(kind_entity id).1]
    decide
  constructor
  case epoch => simp [newThread, Record.isEpoch, Record.kind, hkind]
  case offset => simp [newThread, Record.isCoreOffset, Record.kind, hkind]
  case start => exact fun s _ _ => startUs_pack s reason

/-- What a record needs to stand where its time had elapsed. -/
structure Near (w : World) (elapsed : UInt64) : Prop where
  near : ¬0x00ffffff < elapsed - w.base
  base : w.base.toUInt32 = (TraceBuffer.replay 0 none (records w.pushed)).1

/-- After the anchor, a record that goes in is near the base. -/
theorem aligned_anchor (hw : Inv w) (h : Aligned w) (elapsed : UInt64) :
    Aligned (w.anchor elapsed (decide (w.t.ring.state = .capturing))) ∧
      (¬((w.anchor elapsed (decide (w.t.ring.state = .capturing))).t.ring.state ≠ .capturing ∨
          (w.anchor elapsed (decide (w.t.ring.state = .capturing))).t.ring.cap = 0) →
        Near (w.anchor elapsed (decide (w.t.ring.state = .capturing))) elapsed) := by
  by_cases hstate : w.t.ring.state = .capturing
  · simp only [hstate, decide_true, World.anchor, Bool.true_eq_false, if_false]
    by_cases hfar : 0x00ffffff < elapsed - w.base ∨ (w.t.ring.used = 0 ∧ w.base ≠ 0)
    · rw [if_pos hfar]
      by_cases hcap : w.t.ring.cap = 0
      · have hidle : ({ w with base := elapsed } : World).t.ring.state ≠ .capturing ∨
            ({ w with base := elapsed } : World).t.ring.cap = 0 := .inr hcap
        rw [push_idle hidle]
        refine ⟨⟨h.anchored, fun hne => absurd (hw.empty hcap) hne⟩, ?_⟩
        exact fun hlive => absurd hidle hlive
      · have hlive : ¬(({ w with base := elapsed } : World).t.ring.state ≠ .capturing ∨
            ({ w with base := elapsed } : World).t.ring.cap = 0) := by simp [hstate, hcap]
        rw [push_live hlive, World.took]
        have hreplay : (TraceBuffer.replay 0 none
            (records (w.pushed ++ [(newEpoch elapsed.toUInt32, elapsed)]))).1 = elapsed.toUInt32 := by
          simp only [records, List.map_append, List.map_cons, List.map_nil,
            TraceBuffer.replay_append, TraceBuffer.replay, isEpoch_newEpoch, if_true, epochBase_eq]
          rfl
        refine ⟨⟨?_, fun _ => hreplay.symm⟩, fun _ => ⟨?_, hreplay.symm⟩⟩
        · rw [anchored_append _ _ 0 none]
          refine ⟨h.anchored, ?_, trivial⟩
          intro hepoch
          exact absurd (hepoch.symm.trans (isEpoch_newEpoch elapsed.toUInt32)) (by decide)
        · simp
    · rw [if_neg hfar]
      rw [not_or] at hfar
      refine ⟨h, fun hlive => ⟨hfar.1, ?_⟩⟩
      by_cases hempty : w.pushed = []
      · have hused : w.t.ring.used = 0 := by
          rw [hw.used, hempty]
          exact Nat.zero_min _
        have hzero : w.base = 0 := by
          by_contra hne
          exact hfar.2 ⟨hused, hne⟩
        rw [hzero, hempty]
        rfl
      · exact h.base hempty
  · simp only [hstate, decide_false, World.anchor, if_true]
    exact ⟨h, fun hlive => absurd (.inl hstate) hlive⟩

theorem aligned_push (h : Aligned w) {r : Record} {elapsed : UInt64} (he : r.isEpoch = false)
    (hr : ¬(w.t.ring.state ≠ .capturing ∨ w.t.ring.cap = 0) → Near w elapsed ∧
      r.startUs = (elapsed - w.base).toUInt32 &&& 0x00ffffff) :
    Aligned (w.push r elapsed) := by
  by_cases hlive : w.t.ring.state ≠ .capturing ∨ w.t.ring.cap = 0
  · rwa [push_idle hlive]
  · obtain ⟨hnear, hstart⟩ := hr hlive
    rw [push_live hlive, World.took]
    constructor
    case anchored =>
      rw [anchored_append _ _ 0 none]
      refine ⟨h.anchored, ?_, trivial⟩
      intro _ _
      rw [← hnear.base, hstart, low_eq hnear.near, elapsed_eq]
    case base =>
      intro _
      simp only [records, List.map_append, List.map_cons, List.map_nil,
        TraceBuffer.replay_append, TraceBuffer.replay, he, Bool.false_eq_true, if_false]
      exact hnear.base

theorem aligned_setRing (h : Aligned w) (r : Ring) : Aligned (w.setRing r) := ⟨h.anchored, h.base⟩

theorem aligned_restart (w : World) : Aligned w.restart :=
  ⟨trivial, fun hne => absurd rfl hne⟩

theorem aligned_syncFreeze (h : Aligned w) (peer : Peer) (tripped : Bool) :
    Aligned (w.syncFreeze peer tripped) := by
  rw [World.syncFreeze]
  split
  · exact h
  · split
    · exact aligned_setRing h _
    · exact h

theorem aligned_hook (hw : Inv w) (h : Aligned w) (peer : Peer) (startUs dtUs : UInt64)
    {new : UInt32 → UInt16 → Bool → Record} (hnew : OfEntity new) :
    Aligned (w.hook peer startUs dtUs new) := by
  have hadopt : Aligned (w.adopt peer) := by
    rw [World.adopt]
    split
    · exact aligned_restart w
    · exact h
  rw [World.hook]
  split
  · exact aligned_syncFreeze hadopt _ _
  · obtain ⟨hanchor, hnear⟩ := aligned_anchor (hw.adopt peer) hadopt (startUs - (w.adopt peer).start)
    have hpush := fun dt o => aligned_push hanchor (hnew.epoch
      ((startUs - (w.adopt peer).start) - ((w.adopt peer).anchor (startUs - (w.adopt peer).start)
        (decide ((w.adopt peer).t.ring.state = .capturing))).base).toUInt32 dt o)
      fun hlive => ⟨hnear hlive, hnew.start _ dt o⟩
    simp only [World.dispatch]
    apply aligned_syncFreeze
    split
    · exact aligned_setRing (hpush _ _) _
    · exact hpush _ _

end Anchors

/-- The events of a capture: no record comes from elsewhere. -/
def Event.captured : Event → Bool
  | .record _ => false
  | _ => true

theorem aligned_step {w : World} (hw : Inv w) (h : Aligned w) {e : Event}
    (he : e.captured = true) : Aligned (w.step e) := by
  cases e with
  | fbHook peer idx startUs dtUs =>
    exact aligned_hook hw h _ _ _ (ofEntity_newFb _ fun o =>
      (if 0xffff < dtUs then flagSaturated else 0) ||| if o then flagOverran else 0)
  | noteThread peer tid reason startUs dtUs =>
    exact aligned_hook hw h _ _ _ (ofEntity_newThread _ _)
  | record r => cases he
  | start => exact aligned_restart w
  | stop => exact aligned_setRing h _
  | trigger => exact aligned_setRing h _

/-! ## Dumps of a run -/

def World.init (cap : ℕ) (mode : Multicore.Mode) (prePct : ℕ) (start : UInt64)
    (idBase budgetUs : UInt32) : World where
  t := World.newBuffer cap mode prePct
  start := start
  idBase := idBase
  budgetUs := budgetUs

theorem inv_init {cap : ℕ} (hcap : cap < 2 ^ 31) (mode : Multicore.Mode) (prePct : ℕ)
    (start : UInt64) (idBase budgetUs : UInt32) :
    Inv (World.init cap mode prePct start idBase budgetUs) := by
  constructor
  case fits =>
    constructor
    case cap => exact hcap
    case used => exact Nat.zero_le _
    case filling => exact fun _ _ => rfl
    case head => exact fun h => h
    case oneshot => exact fun _ => ⟨rfl, fun _ => Nat.eq_zero_or_pos _⟩
  case used => simp [World.init, World.newBuffer]
  case empty => exact fun _ => rfl
  case window => simp [World.init, World.newBuffer, World.kept, TraceBuffer.window, records]
  case origin =>
    left
    simp [World.init, World.newBuffer, World.gone, TraceBuffer.origin, records, TraceBuffer.replay]

theorem inv_run {w : World} (h : Inv w) (es : List Event) : Inv (es.foldl World.step w) := by
  induction es generalizing w with
  | nil => exact h
  | cons e es ih => exact ih (h.step e)

theorem aligned_run {w : World} (hw : Inv w) (h : Aligned w) (es : List Event)
    (hes : ∀ e ∈ es, e.captured = true) : Aligned (es.foldl World.step w) := by
  induction es generalizing w with
  | nil => exact h
  | cons e es ih =>
    refine ih (hw.step e) (aligned_step hw h (hes e List.mem_cons_self)) ?_
    exact fun e' he' => hes e' (List.mem_cons_of_mem _ he')

/-- A record and where it stands; its duration is its own. -/
def Stamped.key (s : Stamped) : Record × UInt32 := (s.record, s.start)

theorem keys_skew (base : UInt32) (skew skew' : Option Record) (rs : List Record) :
    (timeline base skew rs).map Stamped.key = (timeline base skew' rs).map Stamped.key := by
  induction rs generalizing base skew skew' with
  | nil => rfl
  | cons r rs ih =>
    simp only [timeline]
    split
    · exact ih _ _ _
    · split
      · exact ih _ _ _
      · rw [List.map_cons, List.map_cons, ih]
        rfl

/-- What the ring remembers of the base is what the records that went had left. -/
theorem Inv.keys_origin {w : World} (h : Inv w) :
    (timeline w.t.origin none w.t.window).map Stamped.key =
      (timeline (TraceBuffer.replay 0 none (records w.gone)).1
        (TraceBuffer.replay 0 none (records w.gone)).2 w.t.window).map Stamped.key := by
  rcases h.origin with horigin | ⟨r, rs, hw, hr⟩
  · rw [← horigin]
    exact keys_skew _ _ _ _
  · rw [hw]
    simp only [timeline, hr, if_true]
    exact keys_skew _ _ _ _

theorem Inv.pushed_eq {w : World} (h : Inv w) : records w.pushed = records w.gone ++ w.t.window := by
  rw [h.window, records, records, records, ← List.map_append, World.gone, World.kept,
    List.take_append_drop]

/-- In every window the dump is whole: each record stands in one block and in order, the blocks
decoded one by one give the timeline of the window, that is the end of the timeline of all that was
recorded, and each record of a capture stands where its time had elapsed. -/
theorem dump_complete (cap : ℕ) (hcap : cap < 2 ^ 31) (mode : Multicore.Mode) (prePct : ℕ)
    (start : UInt64) (idBase budgetUs : UInt32) (es : List Event) (w : World)
    (hw : w = es.foldl World.step (World.init cap mode prePct start idBase budgetUs))
    (core : UInt8) (outCap : ℕ) (hout : w.t.minimum ≤ outCap) :
    w.t.ring.used = min w.pushed.length w.t.ring.cap ∧ w.t.window = records w.kept ∧
      (∃ blocks, w.t.dump outCap core (w.t.ring.used + 1) 0 = some blocks ∧
        TraceBuffer.Blocks w.t core 0 blocks w.t.window ∧
        blocks.flatMap (fun block => timeline 0 none (decodeBlock block).tail) =
          timeline w.t.origin none w.t.window) ∧
      (timeline w.t.origin none w.t.window).map Stamped.key <:+
        (timeline 0 none (records w.pushed)).map Stamped.key ∧
      ((∀ e ∈ es, e.captured = true) →
        (timeline w.t.origin none w.t.window).map Stamped.key =
          (w.kept.filter ofEntity).map fun p => (p.1, p.2.toUInt32)) := by
  have hstart := inv_init hcap mode prePct start idBase budgetUs
  have h : Inv w := hw ▸ inv_run hstart es
  refine ⟨h.used, h.window, ?_, ?_, ?_⟩
  · by_cases hused : 0 < w.t.ring.used
    · obtain ⟨blocks, hdump, hblocks⟩ :=
        w.t.dump_spec core hout (w.t.ring.used + 1) 0 hused (by omega)
      rw [List.drop_zero] at hblocks
      exact ⟨blocks, hdump, hblocks, hblocks.timeline_eq List.drop_zero.symm⟩
    · have hzero : w.t.ring.used = 0 := by omega
      have hempty : w.t.window = [] := by
        apply List.eq_nil_of_length_eq_zero
        rw [TraceBuffer.length_window, hzero]
      refine ⟨[], ?_, ?_, ?_⟩
      · simp [TraceBuffer.dump, TraceBuffer.packChunk, hzero]
      · rw [hempty]
        exact .nil 0
      · rw [hempty]
        rfl
  · rw [h.keys_origin, h.pushed_eq, TraceBuffer.timeline_append, List.map_append]
    exact List.suffix_append _ _
  · intro hes
    have hal : Aligned w := by
      rw [hw]
      exact aligned_run hstart ⟨trivial, fun hne => absurd rfl hne⟩ es hes
    have hanchored := hal.anchored
    rw [← List.take_append_drop (w.pushed.length - w.t.ring.used) w.pushed,
      anchored_append _ _ 0 none] at hanchored
    rw [h.keys_origin, h.window]
    exact hanchored.2.starts _

/-- Three dispatches, the second 20 s after the first, in a ring of three records: the epoch of the
second is what is left of the base. -/
def benchEvents : List Event :=
  [.start, .fbHook ⟨false, false, false, false⟩ 1 1000 10,
    .fbHook ⟨false, false, false, false⟩ 2 20000000 20,
    .fbHook ⟨false, false, false, false⟩ 3 20000100 30,
    .noteThread ⟨false, false, false, false⟩ 4 2 20000200 40]

theorem dump_complete_bench :
    ((timeline (benchEvents.foldl World.step (World.init 3 .ring 50 0 0 0)).t.origin none
        (benchEvents.foldl World.step (World.init 3 .ring 50 0 0 0)).t.window).map
          Stamped.key).map Prod.snd = [20000000, 20000100, 20000200] := by
  rw [(dump_complete 3 (by decide) .ring 50 0 0 0 benchEvents _ rfl 0 24 (by decide)).2.2.2.2
    (by decide)]
  decide

end BloblyEmb.Dump
