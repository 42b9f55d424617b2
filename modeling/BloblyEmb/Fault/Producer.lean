import BloblyEmb.Fault.Clear
import BloblyEmb.Fault.Epoch

/-!
# Producers and owner together

The producers of all faults and the owner of the memory, in any order. Between a producer and the
owner there are two last-value cells: the report it published last, and the control that the owner
published last. One fault of the code, from its producer to its slot, runs as a track of epochs does
that waits when no generation is fresh.
-/
namespace BloblyEmb.Fault

/-- A fault's debounce and the two cells between it and the owner. -/
structure Producer where
  deb : Debounce
  control : Control
  report : Report

/-- A producer at power-on: nothing is counted and both cells are zero. -/
def Producer.start (d : Debounce) : Producer where
  deb := { d with count := 0, since := 0, run := .notTested, rep := .zero }
  control := ⟨0, false⟩
  report := .zero

structure Ecu (n : ℕ) where
  owner : Node n
  producers : Fin n → Producer

/-- What the owner does beside reading reports. -/
inductive Duty where
  | capture (dids : List (UInt16 × List UInt8))
  | cycleStart
  | cycleEnd
  | endCycleAfter (now grace : UInt64)
  | clear (group : UInt32)
  | setSetting (on : Bool)
  | persist (now : UInt64) (flush : Bool)

def Duty.op {n : ℕ} : Duty → Op n
  | capture dids => .capture dids
  | cycleStart => .cycleStart
  | cycleEnd => .cycleEnd
  | endCycleAfter now grace => .endCycleAfter now grace
  | clear group => .clear group
  | setSetting on => .setSetting on
  | persist now flush => .persist now flush

/-- One step of a producer or of the owner. -/
inductive Event (n : ℕ) where
  | apply (i : Fin n)
  | result (i : Fin n) (r : TestResult) (now : UInt64) (enabled : Bool)
  | publish (i : Fin n)
  | read (i : Fin n)
  | control (i : Fin n)
  | owner (duty : Duty)
  | reset

namespace Ecu
variable {n : ℕ}
open Memory

def setProducer (x : Ecu n) (i : Fin n) (p : Producer) : Ecu n :=
  { x with producers := Function.update x.producers i p }

/-- A start of the whole unit. -/
def boot (m : Memory n) (debs : Fin n → Debounce) (st : Store) : Ecu n :=
  ⟨.boot m st, fun i => .start (debs i)⟩

def step (x : Ecu n) : Event n → Ecu n
  | .apply i =>
    let p := x.producers i
    x.setProducer i { p with deb := p.deb.apply p.control.gen p.control.held }
  | .result i r now enabled =>
    let p := x.producers i
    x.setProducer i { p with deb := p.deb.step r now enabled }
  | .publish i =>
    let p := x.producers i
    x.setProducer i { p with report := p.deb.rep }
  | .read i => { x with owner := x.owner.step (.consume i (x.producers i).report) }
  | .control i =>
    let s := x.owner.mem.slots i
    x.setProducer i { x.producers i with control := ⟨s.gen, s.held⟩ }
  | .owner duty => { x with owner := x.owner.step duty.op }
  | .reset => boot x.owner.mem (fun i => (x.producers i).deb) x.owner.store

/-! ## The same as tracks -/

/-- The last of the first `R` records of an image that names slot `i`. -/
def lastRecord (m : Memory n) (img : List UInt8) (i : Fin n) : ℕ → Option ℕ
  | 0 => none
  | R + 1 =>
    if rdBe24 (recAt img R 0) (recAt img R 1) (recAt img R 2) = (m.slots i).dtc then some R
    else lastRecord m img i R

/-- The occurrences and the failure that an image keeps for slot `i`. -/
def kept (m : Memory n) (img : List UInt8) (i : Fin n) : ℕ × Bool :=
  if IsImage img then
    match lastRecord m img i ((img.length - 2) / imageRec) with
    | some r => ((rdBe16 (recAt img r 6) (recAt img r 7)).toNat,
        decide (Has (recAt img r 3) failedSinceClear))
    | none => (0, false)
  else (0, false)

/-- The occurrences and the failure that the store keeps for slot `i`. -/
def stored (m : Memory n) (st : Store) (i : Fin n) : ℕ × Bool :=
  match m.store with
  | none => (0, false)
  | some seam => kept m (storedImage st seam) i

/-- What an event is for fault `i`, in the unit it happens to. -/
def act (x : Ecu n) (i : Fin n) : Event n → Option Act
  | .apply j => if j = i then some .apply else none
  | .result j r now enabled => if j = i then some (.result r now enabled) else none
  | .publish j => if j = i then some .publish else none
  | .read j => if j = i then some .read else none
  | .control j => if j = i then some .control else none
  | .owner (.cycleStart) => some (.cycle true)
  | .owner (.cycleEnd) => some (.cycle false)
  | .owner (.setSetting on) => some (.setting on)
  | .owner (.clear group) =>
    if (x.owner.mem.clear x.owner.store group).1 = 0 ∧ Names group (x.owner.mem.slots i).dtc
    then some .clear else none
  | .owner _ => none
  | .reset =>
    let kept := stored x.owner.mem x.owner.store i
    some (.restart kept.1 kept.2)

/-- The track of fault `i` after an event. -/
def follow (limit : Option ℕ) (x : Ecu n) (i : Fin n) (a : Track) (e : Event n) : Track :=
  match x.act i e with
  | some act => a.step limit act
  | none => a

/-- The unit and the tracks of its faults after some events. -/
def runWith (limit : Option ℕ) : Ecu n × (Fin n → Track) → List (Event n) → Ecu n × (Fin n → Track)
  | xa, [] => xa
  | (x, a), e :: es => runWith limit (x.step e, fun i => x.follow limit i (a i) e) es

/-- The tracks of all faults at a start. -/
def tracks (m : Memory n) (debs : Fin n → Debounce) (st : Store) (i : Fin n) : Track :=
  .start (debs i) (stored m st i).1 (stored m st i).2

/-- Fewer than 65536 results lie between the report that is read and the one read before it. -/
def InTime (a : Fin n → Track) : Event n → Prop
  | .read i => (a i).report.results - (a i).read < 65536
  | _ => True

instance (a : Fin n → Track) : (e : Event n) → Decidable (InTime a e)
  | .read i => inferInstanceAs (Decidable ((a i).report.results - (a i).read < 65536))
  | .apply _ | .result _ _ _ _ | .publish _ | .control _ | .owner _ | .reset =>
    inferInstanceAs (Decidable True)

/-- Every report of a run is read in time. -/
def Paced (limit : Option ℕ) : Ecu n × (Fin n → Track) → List (Event n) → Prop
  | _, [] => True
  | (x, a), e :: es => InTime a e ∧ Paced limit (x.step e, fun i => x.follow limit i (a i) e) es

instance decidablePaced (limit : Option ℕ) :
    (xa : Ecu n × (Fin n → Track)) → (es : List (Event n)) → Decidable (Paced limit xa es)
  | _, [] => inferInstanceAs (Decidable True)
  | (x, a), e :: es =>
    haveI := decidablePaced limit (x.step e, fun i => x.follow limit i (a i) e) es
    inferInstanceAs (Decidable (_ ∧ _))

end Ecu

/-! ## One fault -/

/-- A report of the code is a tally modulo the width of its counters. -/
structure Wraps (r : Report) (t : Tally) : Prop where
  gen : r.gen = .ofNat t.epoch
  failed : r.failed = t.failed
  fails : r.fails = .ofNat t.fails
  tests : r.tests = .ofNat t.tests

/-- The silent generations that stop a fresh one. -/
def silence : ℕ := 0x7FFF

/-- A slot and its producer run as a track. -/
structure Sim (s : Slot) (p : Producer) (off active : Bool) (a : Track) : Prop where
  deb : a.deb = { p.deb with rep := .zero }
  tally : Wraps p.deb.rep a.tally
  report : Wraps p.report a.report
  control : p.control = ⟨.ofNat a.control.1, a.control.2⟩
  gen : s.gen = .ofNat a.epoch
  seenGen : s.seenGen = .ofNat a.seen
  held : s.held = a.held
  waiting : s.waitGen = a.waiting
  base : match a.base with
    | none => s.baseSeen = false
    | some (f, t) => s.baseSeen = true ∧ s.baseFails = .ofNat f ∧ s.baseTests = .ofNat t
  on : off = !a.on
  active : active = a.cycleOpen
  occurrences : s.occurrence = .ofNat (min a.occurrences 65535)
  testFailed : Has s.status testFailed ↔ a.testFailed = true
  failedSince : Has s.status failedSinceClear ↔ a.failedSince = true
  order : a.Ordered silence

/-! ## Numbers modulo their width -/

theorem ofNat_inj {a b : ℕ} (h : a ≤ b) (h' : b < a + 65536) :
    (UInt16.ofNat a = .ofNat b) ↔ a = b := by
  rw [← UInt16.toNat_inj, UInt16.toNat_ofNat', UInt16.toNat_ofNat']
  omega

theorem toNat_sub {a b : ℕ} (h : a ≤ b) (h' : b < a + 65536) :
    (UInt16.ofNat b - .ofNat a).toNat = b - a := by
  rw [UInt16.toNat_sub, UInt16.toNat_ofNat', UInt16.toNat_ofNat']
  omega

theorem sub_ofNat {a b : ℕ} (h : a ≤ b) : UInt16.ofNat b - .ofNat a = .ofNat (b - a) := by
  rw [← UInt16.toNat_inj, UInt16.toNat_sub, UInt16.toNat_ofNat', UInt16.toNat_ofNat',
    UInt16.toNat_ofNat']
  omega

theorem succ_ofNat (a : ℕ) : UInt16.ofNat a + 1 = .ofNat (a + 1) := by
  rw [← UInt16.toNat_inj, UInt16.toNat_add, UInt16.toNat_ofNat', UInt16.toNat_ofNat']
  simp

theorem sat16_ofNat (c df : ℕ) (h : df < 65536) :
    sat16 (.ofNat (min c 65535)) (.ofNat df) = .ofNat (min (c + df) 65535) := by
  have hc : (UInt16.ofNat (min c 65535)).toNat = min c 65535 := by
    rw [UInt16.toNat_ofNat']
    omega
  have hd : (UInt16.ofNat df).toNat = df := by
    rw [UInt16.toNat_ofNat']
    omega
  have hsum : ((UInt16.ofNat (min c 65535)).toUInt32 + (UInt16.ofNat df).toUInt32).toNat =
      min c 65535 + df := by
    rw [UInt32.toNat_add, UInt16.toNat_toUInt32, UInt16.toNat_toUInt32, hc, hd]
    omega
  simp only [sat16]
  split
  · rename_i hlt
    have : 65535 < min c 65535 + df := by
      rw [← hsum]
      exact hlt
    rw [show min (c + df) 65535 = 65535 by omega]
    rfl
  · rename_i hle
    have : min c 65535 + df ≤ 65535 := by
      rw [← hsum]
      exact Nat.le_of_not_lt hle
    rw [← UInt16.toNat_inj, UInt32.toNat_toUInt16, hsum, UInt16.toNat_ofNat']
    omega

end BloblyEmb.Fault
