import BloblyEmb.Lib.Words
import BloblyEmb.Multicore.Freeze
import Mathlib.Algebra.Order.Ring.Nat
import Mathlib.Logic.Function.Basic
import Mathlib.Tactic.Common

/-!
# The buffer of a trace

Records of 8 bytes in a buffer that stops when it is full, or in a ring that overwrites the oldest
(`comm/trace`), and the blocks that a window of it is dumped in. A record has 24 bits for its start:
an epoch, a record of its own, says from where those count.
-/
namespace BloblyEmb.Dump

open Multicore (Ring)

/-! ## Records -/

structure Record where
  entityId : UInt16 := 0
  cpuUs : UInt16 := 0
  tsinfo : UInt32 := 0
deriving DecidableEq

def kindThread : UInt16 := 1
def kindFb : UInt16 := 2
def kindControl : UInt16 := 3

def ctlBlock : UInt16 := 0
def ctlEpoch : UInt16 := 1
def ctlCoreoffset : UInt16 := 2

def idMask : UInt16 := 0x3fff

def entity (kind id : UInt16) : UInt16 := (kind <<< 14) ||| (id &&& idMask)

def packTsinfo (startUs : UInt32) (info : UInt8) : UInt32 :=
  (startUs &&& (0x00ffffff : UInt32)) ||| (info.toUInt32 <<< (24 : UInt32))

def newThread (id : UInt16) (reason : UInt8) (startUs : UInt32) (cpuUs : UInt16) : Record :=
  { entityId := entity kindThread id, cpuUs := cpuUs, tsinfo := packTsinfo startUs reason }

def newFb (id : UInt16) (flags : UInt8) (startUs : UInt32) (cpuUs : UInt16) : Record :=
  { entityId := entity kindFb id, cpuUs := cpuUs, tsinfo := packTsinfo startUs flags }

def newBlockHeader (core : UInt8) (count : UInt32) (more : Bool) : Record :=
  let info := if more then core.toUInt32 ||| 0x80 else core.toUInt32
  { entityId := entity kindControl ctlBlock
    cpuUs := ((count >>> 24) &&& 0xff).toUInt16
    tsinfo := (count &&& (0x00ffffff : UInt32)) ||| (info <<< (24 : UInt32)) }

def newEpoch (baseUs : UInt32) : Record :=
  { entityId := entity kindControl ctlEpoch, tsinfo := baseUs }

namespace Record

def kind (r : Record) : UInt16 := r.entityId >>> 14
def id (r : Record) : UInt16 := r.entityId &&& idMask
def info (r : Record) : UInt8 := (r.tsinfo >>> 24).toUInt8
def startUs (r : Record) : UInt32 := r.tsinfo &&& 0x00ffffff

def isEpoch (r : Record) : Bool := r.kind = kindControl && r.id = ctlEpoch
def epochBase (r : Record) : UInt32 := r.startUs ||| (r.info.toUInt32 <<< 24)

def isCoreOffset (r : Record) : Bool := r.kind = kindControl && r.id = ctlCoreoffset

end Record

def encodeRecord (r : Record) : List UInt8 :=
  [r.entityId.toUInt8, (r.entityId >>> 8).toUInt8, (r.tsinfo >>> 24).toUInt8, r.tsinfo.toUInt8,
    (r.tsinfo >>> 8).toUInt8, (r.tsinfo >>> 16).toUInt8, r.cpuUs.toUInt8, (r.cpuUs >>> 8).toUInt8]

def decodeRecord (b : List UInt8) : Record where
  entityId := (b.getD 0 0).toUInt16 ||| ((b.getD 1 0).toUInt16 <<< 8)
  cpuUs := (b.getD 6 0).toUInt16 ||| ((b.getD 7 0).toUInt16 <<< 8)
  tsinfo := (b.getD 3 0).toUInt32 ||| ((b.getD 4 0).toUInt32 <<< 8) |||
    ((b.getD 5 0).toUInt32 <<< 16) ||| ((b.getD 2 0).toUInt32 <<< 24)

theorem decode_encode (r : Record) : decodeRecord (encodeRecord r) = r := by
  obtain ⟨entityId, cpuUs, tsinfo⟩ := r
  simp only [decodeRecord, encodeRecord, List.getD_cons_zero, List.getD_cons_succ, half_of_bytes,
    word_of_bytes]

theorem isEpoch_newEpoch (base : UInt32) : (newEpoch base).isEpoch = true := by
  have hentity : entity kindControl ctlEpoch >>> 14 = kindControl ∧
      entity kindControl ctlEpoch &&& idMask = ctlEpoch := by decide
  simp [newEpoch, Record.isEpoch, Record.kind, Record.id, hentity]

/-- A base is in both fields of the word. -/
theorem epochBase_eq (r : Record) : r.epochBase = r.tsinfo := by
  simp only [Record.epochBase, Record.startUs, Record.info]
  rw [← UInt32.toBitVec_inj]
  apply BitVec.eq_of_getLsbD_eq
  intro i hi
  simp only [UInt32.toBitVec_or, UInt32.toBitVec_shiftLeft, UInt8.toBitVec_toUInt32,
    UInt32.toBitVec_toUInt8, UInt32.toBitVec_shiftRight, UInt32.toBitVec_and, BitVec.getLsbD_or]
  have hmask : (0x00ffffff#32).getLsbD i = decide (i < 24) := by
    have hall : ∀ j : Fin 32, (0x00ffffff#32).getLsbD j.val = decide (j.val < 24) := by decide
    exact hall ⟨i, hi⟩
  simp
  rcases Nat.lt_or_ge i 24 with h | h <;> grind

theorem isCoreOffset_of_isEpoch {r : Record} (h : r.isEpoch = true) : r.isCoreOffset = false := by
  simp only [Record.isEpoch, Bool.and_eq_true, decide_eq_true_eq] at h
  simp [Record.isCoreOffset, h.2, ctlEpoch, ctlCoreoffset]

/-! ## The buffer -/

/-- The ring holds what state the buffer is in, and how many records. -/
structure TraceBuffer where
  ring : Ring
  buf : ℕ → Record := fun _ => {}
  head : ℕ := 0
  prefixBase : UInt32 := 0
  hasPrefix : Bool := false

namespace TraceBuffer

def start (t : TraceBuffer) : TraceBuffer :=
  { t with ring := t.ring.start, head := 0, prefixBase := 0, hasPrefix := false }

def push (t : TraceBuffer) (r : Record) : TraceBuffer :=
  if t.ring.state ≠ .capturing ∨ t.ring.cap = 0 then t
  else
    match t.ring.mode with
    | .oneshot => { t with ring := t.ring.push, buf := Function.update t.buf t.ring.used r }
    | .ring =>
      -- the oldest record goes: an epoch is remembered, since others still count from it
      let old := t.buf t.head
      let t := if t.ring.used = t.ring.cap ∧ old.isEpoch = true then
          { t with prefixBase := old.epochBase, hasPrefix := true } else t
      let t := { t with
        ring := t.ring.push
        buf := Function.update t.buf t.head r
        head := (t.head + 1) % t.ring.cap }
      if t.hasPrefix = true ∧ t.ring.used = t.ring.cap ∧ (t.buf t.head).isEpoch = true then
        { t with hasPrefix := false }
      else t

/-- Indices are words of 32 bits. -/
def recordAt (t : TraceBuffer) (i : ℕ) : Record :=
  if t.ring.used ≤ i ∨ t.ring.cap = 0 then {}
  else
    let start := if t.ring.used = t.ring.cap then t.head else 0
    t.buf ((start + i) % 2 ^ 32 % t.ring.cap)

/-- The records, oldest first. -/
def window (t : TraceBuffer) : List Record := (List.range t.ring.used).map t.recordAt

/-- What counts before the first record. -/
def origin (t : TraceBuffer) : UInt32 := if t.hasPrefix then t.prefixBase else 0

/-! ## Dumps -/

/-- The base and the offset that hold at a record, from those before it. -/
def replay (base : UInt32) (skew : Option Record) : List Record → UInt32 × Option Record
  | [] => (base, skew)
  | r :: rs =>
    replay (if r.isEpoch then r.epochBase else base) (if r.isCoreOffset then some r else skew) rs

/-- The records from `i` that fit, where `n` bytes are there; the first argument bounds the loop. -/
def fill (t : TraceBuffer) (outCap : ℕ) : ℕ → ℕ → ℕ → List Record
  | 0, _, _ => []
  | k + 1, i, n => if outCap < n + 8 then [] else t.recordAt i :: fill t outCap k (i + 1) (n + 8)

/-- One block of a window: what is written, where the next one starts, and whether there is one. -/
def packChunk (t : TraceBuffer) (outCap : ℕ) (core : UInt8) (start : ℕ) :
    List UInt8 × ℕ × Bool :=
  if t.ring.used ≤ start then ([], start, false)
  else
    let (base, skew) := replay t.origin none ((List.range start).map t.recordAt)
    let windowHasSkew := (List.range t.ring.used).any fun i => (t.recordAt i).isCoreOffset
    if outCap < (if windowHasSkew then 32 else 24) then ([], start, false)
    else
      let lead := newEpoch base :: skew.toList
      let records := t.fill outCap (t.ring.used - start) start (8 + 8 * lead.length)
      let next := start + records.length
      let more := decide (next < t.ring.used)
      let count := lead.length + records.length
      ((newBlockHeader core (UInt32.ofNat count) more :: (lead ++ records)).flatMap encodeRecord,
        next, more)

/-- The blocks from a record on, each from where the one before it ended. -/
def dump (t : TraceBuffer) (outCap : ℕ) (core : UInt8) : ℕ → ℕ → Option (List (List UInt8))
  | 0, _ => none
  | k + 1, start =>
    let (block, next, more) := t.packChunk outCap core start
    let sent := if block = [] then [] else [block]
    if more then (t.dump outCap core k next).map (sent ++ ·) else some sent

/-! ## What the ring keeps -/

/-- Indices fit: an array has fewer than 2^31 records. -/
structure Fits (t : TraceBuffer) : Prop where
  cap : t.ring.cap < 2 ^ 31
  used : t.ring.used ≤ t.ring.cap
  filling : t.ring.used < t.ring.cap → t.ring.mode = .ring → t.head = t.ring.used
  head : 0 < t.ring.cap → t.head < t.ring.cap
  oneshot : t.ring.mode = .oneshot → t.head = 0 ∧
    (t.ring.state = .capturing → t.ring.cap = 0 ∨ t.ring.used < t.ring.cap)

variable {t : TraceBuffer}

theorem length_window (t : TraceBuffer) : t.window.length = t.ring.used := by simp [window]

theorem Fits.recordAt_eq (h : t.Fits) {i : ℕ} (hi : i < t.ring.used) :
    t.recordAt i = t.buf (if t.ring.used = t.ring.cap then (t.head + i) % t.ring.cap else i) := by
  have hcap := h.cap
  have hused := h.used
  have hhead := h.head (by omega)
  rw [recordAt, if_neg (by omega)]
  by_cases hfull : t.ring.used = t.ring.cap
  · simp only [if_pos hfull]
    rw [Nat.mod_eq_of_lt (a := t.head + i) (by omega)]
  · simp only [if_neg hfull]
    rw [Nat.zero_add, Nat.mod_eq_of_lt (a := i) (by omega), Nat.mod_eq_of_lt (by omega)]

/-- A record that is kept: the oldest goes where there is no place. -/
theorem push_ring (t : TraceBuffer) (r : Record) (hstate : t.ring.state = .capturing)
    (hcap : 0 < t.ring.cap) :
    (t.push r).ring = t.ring.push ∧
      (t.push r).buf = Function.update t.buf
        (if t.ring.mode = .ring then t.head else t.ring.used) r ∧
      (t.push r).head = if t.ring.mode = .ring then (t.head + 1) % t.ring.cap else t.head := by
  have hgo : ¬(t.ring.state ≠ .capturing ∨ t.ring.cap = 0) := by
    simp [hstate, Nat.pos_iff_ne_zero.mp hcap]
  rw [push, if_neg hgo]
  cases hmode : t.ring.mode with
  | oneshot => simp
  | ring =>
    simp only [if_true]
    split <;> split <;> simp

theorem ring_push (r : Ring) (hstate : r.state = .capturing) (hcap : 0 < r.cap)
    (hone : r.mode = .oneshot → r.used < r.cap) :
    r.push.cap = r.cap ∧ r.push.mode = r.mode ∧
      r.push.used = (if r.used < r.cap then r.used + 1 else r.used) ∧
      (r.mode = .oneshot → r.push.state = .capturing → r.push.used < r.cap) := by
  have hgo : ¬(r.state ≠ .capturing ∨ r.cap = 0) := by
    simp [hstate, Nat.pos_iff_ne_zero.mp hcap]
  rw [Ring.push, if_neg hgo]
  cases hmode : r.mode with
  | oneshot =>
    have hlt := hone hmode
    by_cases hfull : r.cap ≤ r.used + 1
    · simp [hfull, hlt]
    · simp only [hfull, if_false, hlt, if_true, true_and]
      exact fun _ _ => Nat.lt_of_not_le hfull
  | ring =>
    by_cases hlt : r.used < r.cap
    · simp only [hlt, if_true]
      split
      · split <;> simp
      · simp
    · simp only [hlt, if_false]
      split
      · split <;> simp
      · simp

theorem Fits.oneshot_room (h : t.Fits) (hstate : t.ring.state = .capturing)
    (hcap : 0 < t.ring.cap) (hmode : t.ring.mode = .oneshot) : t.ring.used < t.ring.cap := by
  have hroom := (h.oneshot hmode).2 hstate
  omega

/-- The oldest record of a full ring is at its head. -/
theorem Fits.window_full (h : t.Fits) (hcap : 0 < t.ring.cap) (hfull : t.ring.used = t.ring.cap) :
    ∃ rs, t.window = t.buf t.head :: rs := by
  have hfirst : t.recordAt 0 = t.buf t.head := by
    rw [h.recordAt_eq (by omega), if_pos hfull, Nat.add_zero, Nat.mod_eq_of_lt (h.head hcap)]
  obtain ⟨n, hn⟩ := Nat.exists_eq_succ_of_ne_zero (Nat.pos_iff_ne_zero.mp (hfull ▸ hcap))
  rw [window, hn, List.range_succ_eq_map, List.map_cons, hfirst]
  exact ⟨_, rfl⟩

theorem Fits.push (h : t.Fits) (r : Record) (hstate : t.ring.state = .capturing)
    (hcap : 0 < t.ring.cap) : (t.push r).Fits := by
  obtain ⟨hring, hbuf, hhead⟩ := push_ring t r hstate hcap
  have hone := h.oneshot_room hstate hcap
  obtain ⟨hcap', hmode', hused', hone'⟩ := ring_push t.ring hstate hcap hone
  constructor
  case cap => rw [hring, hcap']; exact h.cap
  case used =>
    rw [hring, hcap', hused']
    have := h.used
    split <;> omega
  case filling =>
    rw [hring, hcap', hused', hmode', hhead]
    intro hlt hmode
    rw [if_pos hmode]
    have hfilling := h.filling
    split at hlt
    · rename_i hless
      rw [if_pos hless, hfilling hless hmode, Nat.mod_eq_of_lt hlt]
    · omega
  case head =>
    rw [hring, hcap', hhead]
    intro _
    split
    · exact Nat.mod_lt _ hcap
    · exact h.head hcap
  case oneshot =>
    rw [hring, hcap', hmode', hhead]
    intro hmode
    rw [if_neg (by simp [hmode])]
    exact ⟨(h.oneshot hmode).1, fun hst => .inr (hone' hmode hst)⟩

/-- The window moves on by the record. -/
theorem Fits.window_push (h : t.Fits) (r : Record) (hstate : t.ring.state = .capturing)
    (hcap : 0 < t.ring.cap) :
    (t.push r).window =
      (if t.ring.used < t.ring.cap then t.window else t.window.tail) ++ [r] := by
  have h' := h.push r hstate hcap
  obtain ⟨hring, hbuf, hhead⟩ := push_ring t r hstate hcap
  have hone := h.oneshot_room hstate hcap
  obtain ⟨hcap', hmode', hused', -⟩ := ring_push t.ring hstate hcap hone
  have hused := h.used
  by_cases hlt : t.ring.used < t.ring.cap
  · rw [if_pos hlt]
    have hlast : (if t.ring.mode = .ring then t.head else t.ring.used) = t.ring.used := by
      split
      · rename_i hmode
        exact h.filling hlt hmode
      · rfl
    have hstart : t.ring.used + 1 = t.ring.cap →
        (if t.ring.mode = .ring then (t.head + 1) % t.ring.cap else t.head) = 0 := by
      intro hfull
      split
      · rename_i hmode
        rw [h.filling hlt hmode, hfull, Nat.mod_self]
      · rename_i hmode
        cases hm : t.ring.mode with
        | ring => exact absurd hm hmode
        | oneshot => exact (h.oneshot hm).1
    apply List.ext_getElem
    · simp [length_window, hring, hused', hlt]
    · intro i hi hi'
      have hi2 : i < t.ring.used + 1 := by simpa [length_window, hring, hused', hlt] using hi
      have hnew : (t.push r).recordAt i =
          Function.update t.buf t.ring.used r i := by
        rw [h'.recordAt_eq (by rw [hring, hused', if_pos hlt]; exact hi2), hring, hused', hcap',
          if_pos hlt, hhead, hbuf, hlast]
        congr 1
        split
        · rename_i hfull
          rw [hstart hfull, Nat.zero_add, Nat.mod_eq_of_lt (by omega)]
        · rfl
      by_cases hi3 : i < t.ring.used
      · rw [List.getElem_append_left (by simpa [length_window] using hi3)]
        simp only [window, List.getElem_map, List.getElem_range]
        rw [hnew, Function.update_of_ne (by omega), h.recordAt_eq hi3, if_neg (by omega)]
      · have hieq : i = t.ring.used := by omega
        subst hieq
        simp only [window, List.getElem_map, List.getElem_range]
        rw [hnew, Function.update_self]
        simp
  · rw [if_neg hlt]
    have hfull : t.ring.used = t.ring.cap := by omega
    have hmode : t.ring.mode = .ring := by
      cases hm : t.ring.mode with
      | ring => rfl
      | oneshot => exact absurd (hone hm) hlt
    have hhead0 := h.head hcap
    apply List.ext_getElem
    · simp [length_window, hring, hused', hlt]
      omega
    · intro i hi hi'
      have hi2 : i < t.ring.cap := by simpa [length_window, hring, hused', hlt, hfull] using hi
      have hnew : (t.push r).recordAt i =
          Function.update t.buf t.head r ((t.head + 1 + i) % t.ring.cap) := by
        rw [h'.recordAt_eq (by rw [hring, hused', if_neg hlt]; omega), hring, hused', hcap',
          if_neg hlt, if_pos hfull, hhead, hbuf, if_pos hmode, if_pos hmode, Nat.mod_add_mod]
      by_cases hi3 : i < t.ring.cap - 1
      · rw [List.getElem_append_left (by simp [length_window]; omega)]
        simp only [window, List.getElem_map, List.getElem_range, List.getElem_tail]
        have hne : (t.head + 1 + i) % t.ring.cap ≠ t.head := by
          rcases Nat.lt_or_ge (t.head + 1 + i) t.ring.cap with hl | hg
          · rw [Nat.mod_eq_of_lt hl]
            omega
          · rw [Nat.mod_eq_sub_mod hg, Nat.mod_eq_of_lt (by omega)]
            omega
        rw [hnew, Function.update_of_ne hne, h.recordAt_eq (by omega), if_pos hfull,
          show t.head + 1 + i = t.head + (i + 1) by omega]
      · have hieq : i = t.ring.cap - 1 := by omega
        have hlast : (t.head + 1 + i) % t.ring.cap = t.head := by
          rw [hieq, show t.head + 1 + (t.ring.cap - 1) = t.head + t.ring.cap by omega,
            Nat.add_mod_right, Nat.mod_eq_of_lt hhead0]
        simp only [window, List.getElem_map, List.getElem_range]
        rw [hnew, hlast, Function.update_self, List.getElem_append_right (by simp; omega)]
        simp

end TraceBuffer

end BloblyEmb.Dump
