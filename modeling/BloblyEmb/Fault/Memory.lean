import Mathlib.Data.List.FinRange
import Mathlib.Data.UInt
import BloblyEmb.Fault.Debounce
import BloblyEmb.Fault.Store

/-!
# The fault memory

One writer, the owner's thread, keeps a status byte and counters per configured DTC. It turns the
producers' reports into status, runs the operation cycle, clears, suppresses while the tester has
switched the setting off, and captures a snapshot at the failure that finds a DTC without one.

An array of the configured DTCs is a function on their indices; an entry that is not used is `none`.
-/
namespace BloblyEmb.Fault

scoped instance neZero_one : NeZero 1 := ⟨by decide⟩

/-! ## The status byte -/

def testFailed : UInt8 := 0x01
def testFailedThisCycle : UInt8 := 0x02
def pending : UInt8 := 0x04
def confirmed : UInt8 := 0x08
def notCompletedSinceClear : UInt8 := 0x10
def failedSinceClear : UInt8 := 0x20
def notCompletedThisCycle : UInt8 := 0x40

/-- The status after a clear and at power-on. -/
def statusCleared : UInt8 := notCompletedSinceClear ||| notCompletedThisCycle

/-- A bit of the mask is set. -/
abbrev Has (status mask : UInt8) : Prop := status &&& mask ≠ 0

/-! ## Data -/

def maxEntries : ℕ := 8

/-- The two blocks a DTC's snapshot may live in. -/
inductive Block where
  | A
  | B
  deriving DecidableEq, Repr

def Block.other : Block → Block
  | A => B
  | B => A

/-- One configured DTC. -/
structure Slot where
  dtc : UInt32
  confirm : UInt8
  aging : UInt8
  /-- The DIDs a snapshot names, with their sizes. -/
  freeze : List (UInt16 × UInt8)
  priority : UInt8
  snapId : UInt16
  snapIdB : UInt16
  status : UInt8
  occurrence : UInt16
  failedCycles : UInt8
  agingCount : UInt8
  failedCycle : Bool
  testedCycle : Bool
  gen : UInt16
  seenGen : UInt16
  baseSeen : Bool
  baseFails : UInt16
  baseTests : UInt16
  held : Bool
  waitGen : Bool
  entry : Option (Fin maxEntries)
  snapDue : Bool
  claim : Option Block
  claimOk : Bool
  live : Block → Bool

/-- One snapshot: the DTC that holds it and the record body. -/
structure Entry (n : ℕ) where
  slot : Fin n
  stamp : UInt32
  durable : Bool
  blk : Block
  tookClaim : Bool
  data : List UInt8

/-- The image's block in the store, and the wait after a refusal. -/
structure Seam where
  id : UInt16
  retryUs : UInt64

structure Memory (n : ℕ) where
  slots : Fin n → Slot
  settingOff : Bool
  cycleActive : Bool
  boundaryOff : Bool
  ending : Bool
  endAt : UInt64
  entries : Fin maxEntries → Option (Entry n)
  cap : ℕ
  nextStamp : UInt32
  displaced : UInt32
  pruned : UInt32
  store : Option Seam
  /-- The image the store holds, empty where none is known. -/
  img : List UInt8
  retryAt : UInt64
  wrote : ℕ
  refused : Bool
  clearRefused : Bool

namespace Slot

/-- The slot at power-on. -/
def init (s : Slot) : Slot :=
  { s with
    status := statusCleared, occurrence := 0, failedCycles := 0, agingCount := 0,
    failedCycle := false, testedCycle := false, seenGen := 0, gen := 0, baseSeen := false,
    held := false, waitGen := false, entry := none, snapDue := false, claim := none,
    claimOk := false, live := fun _ => false }

/-- A fresh generation is available. -/
def canRenew (s : Slot) : Prop := s.gen - s.seenGen < 0x7FFF

instance (s : Slot) : Decidable s.canRenew := inferInstanceAs (Decidable (_ < _))

/-- Moves the slot to a fresh generation. -/
def renew (s : Slot) (held : Bool) : Slot :=
  { s with gen := s.gen + 1, held := held, baseSeen := false }

/-- The failed cycles that confirm. -/
def confirmAt (s : Slot) : UInt8 := if s.confirm = 0 then 1 else s.confirm

end Slot

/-- Addition that stops at the largest half word. -/
def sat16 (a b : UInt16) : UInt16 :=
  let s := a.toUInt32 + b.toUInt32
  if 0xFFFF < s then 0xFFFF else s.toUInt16

/-- The high and the low byte of a half word. -/
def be16 (w : UInt16) : List UInt8 := [(w >>> 8).toUInt8, w.toUInt8]

def prio (p : UInt8) : ℕ := if p = 0 then 255 else p.toNat

/-! ## Reports -/

namespace Slot

/-- A completed test. -/
def tested (s : Slot) (failed : Bool) : Slot :=
  let status := s.status &&& ~~~(notCompletedSinceClear ||| notCompletedThisCycle)
  { s with
    testedCycle := true
    status := if failed then status ||| testFailed else status &&& ~~~testFailed }

/-- The cycle's first failure counts toward confirmation. -/
def countCycle (s : Slot) : Slot :=
  if s.failedCycle then s
  else
    let failedCycles := if s.failedCycles < 255 then s.failedCycles + 1 else s.failedCycles
    { s with
      failedCycle := true
      failedCycles := failedCycles
      status := if s.confirmAt ≤ failedCycles then s.status ||| confirmed else s.status }

/-- A failure, with `df` new occurrences. -/
def failure (s : Slot) (df : UInt16) : Slot :=
  let s := { s with status := s.status ||| (testFailedThisCycle ||| pending ||| failedSinceClear) }
  let s :=
    if 0 < df then
      { s with
        occurrence := sat16 s.occurrence df
        snapDue := if s.freeze ≠ [] ∧ s.entry = none then true else s.snapDue }
    else s
  { s.countCycle with agingCount := 0 }

/-- What a report of the slot's own generation adds. -/
def count (s : Slot) (failed : Bool) (df dt : UInt16) : Slot :=
  let s := if 0 < dt then s.tested failed else s
  if 0 < df ∨ (failed ∧ 0 < dt) then s.failure df else s

/-- The occurrences and completed tests a report adds to the last one of its generation. -/
def newFails (s : Slot) (r : Report) : UInt16 := if s.baseSeen then r.fails - s.baseFails else r.fails
def newTests (s : Slot) (r : Report) : UInt16 := if s.baseSeen then r.tests - s.baseTests else r.tests

/-- Applies the slot's latest report. -/
def consume (s : Slot) (settingOff cycleActive : Bool) (r : Report) : Slot :=
  let s := { s with seenGen := r.gen }
  if s.waitGen then
    if ¬settingOff ∧ s.canRenew then
      { s with waitGen := false }.renew (Has s.status testFailed)
    else s
  else if r.gen ≠ s.gen then s
  else
    let df := s.newFails r
    let dt := s.newTests r
    let s := { s with baseFails := r.fails, baseTests := r.tests, baseSeen := true }
    if settingOff ∨ ¬cycleActive ∨ (df = 0 ∧ dt = 0) then s
    else s.count r.failed df dt

end Slot

namespace Memory
variable {n : ℕ}

def setSlot (m : Memory n) (i : Fin n) (s : Slot) : Memory n :=
  { m with slots := Function.update m.slots i s }

def setEntry (m : Memory n) (k : Fin maxEntries) (e : Option (Entry n)) : Memory n :=
  { m with entries := Function.update m.entries k e }

/-- Runs `f` for one DTC after the other. -/
def each (m : Memory n) (f : Memory n → Fin n → Memory n) : Memory n :=
  (List.finRange n).foldl f m

/-- Sets every configured slot to the power-on status. -/
def init (m : Memory n) : Memory n :=
  { m with
    slots := fun i => (m.slots i).init, entries := fun _ => none,
    settingOff := false, cycleActive := false, boundaryOff := false, ending := false, endAt := 0,
    nextStamp := 1, displaced := 0, pruned := 0, img := [], retryAt := 0, wrote := 0,
    refused := false, clearRefused := false }

def consume (m : Memory n) (i : Fin n) (r : Report) : Memory n :=
  m.setSlot i ((m.slots i).consume m.settingOff m.cycleActive r)

/-! ## Entries -/

/-- Drops a slot's snapshot entry. -/
def freeEntry (m : Memory n) (i : Fin n) : Memory n :=
  let m := match (m.slots i).entry with
    | some k => m.setEntry k none
    | none => m
  m.setSlot i { m.slots i with entry := none }

/-- Entry `a` is displaced before entry `b`: less important, then passive, then older. -/
def displacesBefore (m : Memory n) (a b : Entry n) : Bool :=
  let pa := prio (m.slots a.slot).priority
  let pb := prio (m.slots b.slot).priority
  let fa := decide (Has (m.slots a.slot).status testFailed)
  let fb := decide (Has (m.slots b.slot).status testFailed)
  if pa ≠ pb then decide (pb < pa)
  else if fa ≠ fb then !fa
  else decide (a.stamp < b.stamp)

/-- A new snapshot for slot `i` may not take this entry: its DTC failed in this cycle, is active and
confirmed, or is more important. -/
def Protected (m : Memory n) (i : Fin n) (e : Entry n) : Prop :=
  Has (m.slots e.slot).status testFailedThisCycle ∨
    (m.slots e.slot).status &&& (testFailed ||| confirmed) = testFailed ||| confirmed ∨
    prio (m.slots e.slot).priority < prio (m.slots i).priority

instance (m : Memory n) (i : Fin n) (e : Entry n) : Decidable (m.Protected i e) :=
  inferInstanceAs (Decidable (_ ∨ _ ∨ _))

/-- The entries the configuration gives the memory. -/
def places (m : Memory n) : List (Fin maxEntries) :=
  (List.finRange maxEntries).filter fun k => k < m.cap

/-- The entry a new snapshot for slot `i` may displace. -/
def victim (m : Memory n) (i : Fin n) : Option (Fin maxEntries × Entry n) :=
  m.places.foldl (fun best k =>
    match m.entries k with
    | none => best
    | some e =>
      if m.Protected i e then best
      else match best with
        | none => some (k, e)
        | some (_, b) => if m.displacesBefore e b then some (k, e) else best) none

/-- Places a new entry for slot `i`. -/
def place (m : Memory n) (i : Fin n) (k : Fin maxEntries) (took : Bool) : Memory n :=
  let blk := if (m.slots i).claim = some .A then Block.B else .A
  let m := m.setEntry k (some ⟨i, m.nextStamp, false, blk, took, []⟩)
  { m with nextStamp := m.nextStamp + 1 }.setSlot i { m.slots i with entry := some k }

/-- Gives slot `i` an entry: a free one, else the victim's. -/
def allocate (m : Memory n) (i : Fin n) : Option (Fin maxEntries × Memory n) :=
  match m.places.find? fun k => (m.entries k).isNone with
  | some k => some (k, m.place i k false)
  | none =>
    match m.victim i with
    | none => none
    | some (k, e) =>
      let v := m.slots e.slot
      let took := (v.claim.isSome && v.claimOk) || e.tookClaim
      let m := { m.setSlot e.slot { v with entry := none } with displaced := m.displaced + 1 }
      some (k, m.place i k took)

/-- A DID as a snapshot holds it: its declared size, zero-filled. -/
def field (dids : List (UInt16 × List UInt8)) (f : UInt16 × UInt8) : List UInt8 :=
  let held := ((dids.find? fun d => d.1 = f.1).map Prod.snd).getD []
  (List.range f.2.toNat).map fun b => held.getD b 0

/-- The record body of a snapshot taken now. -/
def body (dids : List (UInt16 × List UInt8)) (s : Slot) : List UInt8 :=
  s.freeze.length.toUInt8 :: s.freeze.flatMap fun f => be16 f.1 ++ field dids f

/-- Takes slot `i`'s snapshot, if one is due. -/
def captureSlot (dids : List (UInt16 × List UInt8)) (m : Memory n) (i : Fin n) : Memory n :=
  if ¬(m.slots i).snapDue then m
  else
    let m := m.setSlot i { m.slots i with snapDue := false }
    let s := m.slots i
    if s.freeze = [] ∨ s.entry ≠ none ∨ ¬Has s.status (pending ||| confirmed) then m
    else match m.allocate i with
      | none => m
      | some (k, m) => m.setEntry k ((m.entries k).map fun e => { e with data := body dids s })

/-- Takes every due snapshot from the server's DIDs. -/
def capture (m : Memory n) (dids : List (UInt16 × List UInt8)) : Memory n :=
  m.each (captureSlot dids)

/-! ## Operation cycles -/

/-- The slot as the cycle that ends leaves its status and counters. -/
def endSlot (s : Slot) : Slot :=
  if s.testedCycle ∧ ¬s.failedCycle then
    let s := { s with status := s.status &&& ~~~pending }
    if ¬Has s.status confirmed then { s with failedCycles := 0 }
    else if 0 < s.aging then
      let s := { s with agingCount := s.agingCount + 1 }
      if s.aging ≤ s.agingCount then
        { s with status := s.status &&& ~~~confirmed, agingCount := 0, failedCycles := 0 }
      else s
    else s
  else s

/-- One slot's part of a cycle's end. -/
def cycleEndSlot (m : Memory n) (i : Fin n) : Memory n :=
  let m := m.setSlot i (endSlot (m.slots i))
  if (m.slots i).entry ≠ none ∧ ¬Has (m.slots i).status (pending ||| confirmed) then m.freeEntry i
  else m

/-- Closes the operation cycle. -/
def cycleEnd (m : Memory n) : Memory n :=
  let m := { m with ending := false }
  if ¬m.cycleActive then m
  else
    let m := { m with cycleActive := false }
    if m.settingOff then m else m.each cycleEndSlot

/-- The cycle's own status bits at its start. -/
def restartBits (status : UInt8) : UInt8 :=
  (status &&& ~~~testFailedThisCycle) ||| notCompletedThisCycle

/-- Begins an operation cycle; one still open is ended first. -/
def cycleStart (m : Memory n) : Memory n :=
  let m := { m with ending := false }
  let m := if m.cycleActive then m.cycleEnd else m
  let m := if m.settingOff then { m with boundaryOff := true } else m
  { m with
    cycleActive := true
    slots := fun i => { m.slots i with
      status := if m.settingOff then (m.slots i).status else restartBits (m.slots i).status
      failedCycle := false
      testedCycle := false } }

/-- Requests the cycle's end after a grace. -/
def endCycleAfter (m : Memory n) (now grace : UInt64) : Memory n :=
  if ¬m.cycleActive ∨ m.ending then m else { m with ending := true, endAt := now + grace }

def cycleEndDue (m : Memory n) (now : UInt64) : Bool := m.ending && decide (m.endAt ≤ now)

/-! ## The setting -/

/-- A slot as switching the setting on leaves it. -/
def switchOn (s : Slot) (boundary : Bool) : Slot :=
  let s :=
    if s.canRenew then { s with waitGen := false }.renew (Has s.status testFailed)
    else { s with waitGen := true }
  if boundary then { s with status := restartBits s.status } else s

/-- Switches the recording of DTCs on or off. -/
def setSetting (m : Memory n) (on : Bool) : Memory n :=
  let m :=
    if on ∧ m.settingOff then
      { m with
        slots := fun i => switchOn (m.slots i) (m.boundaryOff && m.cycleActive)
        boundaryOff := false }
    else m
  { m with settingOff := !on }

end Memory

end BloblyEmb.Fault
