import BloblyEmb.Fault.Memory

/-!
# Persistence of the fault memory

What survives a reset: one status image for all DTCs, and two snapshot blocks for each DTC that
keeps a snapshot. A snapshot is written before the image that claims it, and a block is released
only once a committed image no longer claims it, so that the image is the one authority.
-/
namespace BloblyEmb.Fault

def imageVersion : UInt8 := 5
def imageV4 : UInt8 := 4
def imageRec : ℕ := 10
def maxFaults : ℕ := 32
def maxImage : ℕ := 2 + maxFaults * imageRec
def maxBlock : ℕ := maxImage
def snapshotFormat : UInt8 := 1

/-- The status bits the image keeps. -/
def persistedBits : UInt8 := pending ||| confirmed ||| notCompletedSinceClear ||| failedSinceClear

def imgTested : UInt8 := 0x01
def imgFailed : UInt8 := 0x02
def imgSnapshot : UInt8 := 0x40
def imgV4BlockB : UInt8 := 0x80
def imgCycleOpen : UInt8 := 0x01
def imgSettingOff : UInt8 := 0x02

/-- The 16-bit and 24-bit numbers of a byte string, the high byte first. -/
def rdBe16 (a b : UInt8) : UInt16 := a.toUInt16 <<< 8 ||| b.toUInt16
def rdBe24 (a b c : UInt8) : UInt32 := a.toUInt32 <<< 16 ||| b.toUInt32 <<< 8 ||| c.toUInt32
def rdBe32 (a b c d : UInt8) : UInt32 :=
  a.toUInt32 <<< 24 ||| b.toUInt32 <<< 16 ||| c.toUInt32 <<< 8 ||| d.toUInt32
def be24 (w : UInt32) : List UInt8 := [(w >>> 16).toUInt8, (w >>> 8).toUInt8, w.toUInt8]
def be32 (w : UInt32) : List UInt8 := (w >>> 24).toUInt8 :: be24 w

/-- A clear of `group` names this DTC. -/
def Names (group dtc : UInt32) : Prop := group = 0xFFFFFF ∨ dtc = group

instance (group dtc : UInt32) : Decidable (Names group dtc) := inferInstanceAs (Decidable (_ ∨ _))

namespace Slot

/-- The slot's snapshot block. -/
def blockId (s : Slot) : Block → UInt16
  | .A => s.snapId
  | .B => s.snapIdB

/-- Which of the slot's blocks an image record claims. -/
def claimOf (s : Slot) (f : UInt8) (id : UInt16) : Option Block :=
  if ¬Has f imgSnapshot then none
  else if id = s.snapId then some .A
  else if id = s.snapIdB then some .B
  else none

/-- A snapshot's structure: its format, its DID count, each DID's id and size. -/
def identity (s : Slot) : List UInt8 :=
  snapshotFormat :: s.freeze.length.toUInt8 :: s.freeze.flatMap fun f => be16 f.1 ++ [f.2]

/-- The length of the slot's snapshot body and of its block. -/
def bodyLen (s : Slot) : ℕ := 1 + (s.freeze.map fun f => 2 + f.2.toNat).sum
def blockLen (s : Slot) : ℕ := 7 + 1 + s.bodyLen + s.freeze.length

end Slot

/-! ## The image -/

namespace Memory
variable {n : ℕ}

/-- Slot `i`'s record as a clear leaves it. -/
def clearedRecord (s : Slot) : List UInt8 :=
  be24 s.dtc ++ [statusCleared &&& persistedBits, 0, 0, 0, 0, 0, 0]

/-- The block of the slot's durable snapshot. -/
def durableBlock (m : Memory n) (i : Fin n) : Option Block :=
  match (m.slots i).entry with
  | none => none
  | some k => match m.entries k with
    | some e => if e.durable then some e.blk else none
    | none => none

/-- The flag byte of a slot's record. -/
def flagByte (m : Memory n) (i : Fin n) : UInt8 :=
  let s := m.slots i
  (s.status &&& persistedBits) ||| (if s.testedCycle then imgTested else 0) |||
    (if s.failedCycle then imgFailed else 0) |||
    (if (m.durableBlock i).isSome then imgSnapshot else 0)

/-- The block id a slot's record claims. -/
def claimedId (m : Memory n) (i : Fin n) : UInt16 :=
  match m.durableBlock i with
  | some b => (m.slots i).blockId b
  | none => 0

/-- Slot `i`'s record. -/
def record (m : Memory n) (i : Fin n) : List UInt8 :=
  let s := m.slots i
  be24 s.dtc ++ [m.flagByte i, s.failedCycles, s.agingCount] ++ be16 s.occurrence ++
    be16 (m.claimedId i)

/-- The image's two header bytes. -/
def header (m : Memory n) : List UInt8 :=
  [imageVersion, (if m.cycleActive then imgCycleOpen else 0) |||
    (if m.settingOff then imgSettingOff else 0)]

/-- The status image, with the DTCs a clear names as the clear leaves them. -/
def image (m : Memory n) (clearing : Option UInt32) : List UInt8 :=
  m.header ++ (List.finRange n).flatMap fun i =>
    match clearing with
    | some group => if Names group (m.slots i).dtc then clearedRecord (m.slots i) else m.record i
    | none => m.record i

/-- Byte `k` of record `i` of an image. -/
def recAt (img : List UInt8) (i k : ℕ) : UInt8 := img.getD (2 + i * imageRec + k) 0

/-- Only occurrence counters differ between the built image and the stored one. -/
def onlyOcc (old new : List UInt8) : Prop :=
  new.length = old.length ∧ ∀ b < new.length, new.getD b 0 ≠ old.getD b 0 →
    2 ≤ b ∧ ((b - 2) % imageRec = 6 ∨ (b - 2) % imageRec = 7)

instance (old new : List UInt8) : Decidable (onlyOcc old new) :=
  inferInstanceAs (Decidable (_ ∧ _))

/-- The claim an image's record makes for a slot. -/
def imgClaim (s : Slot) (img : List UInt8) (i : ℕ) : Option Block :=
  s.claimOf (recAt img i 3) (rdBe16 (recAt img i 8) (recAt img i 9))

/-- The built image is durable, and every slot's claim follows it. -/
def commitImage (m : Memory n) (img : List UInt8) : Memory n :=
  { m with
    img := img
    slots := fun i => { m.slots i with
      claim := imgClaim (m.slots i) img i
      claimOk := (imgClaim (m.slots i) img i).isSome } }

/-! ## Snapshot blocks -/

/-- The data of each DID of a snapshot body. -/
def bodyData : List (UInt16 × UInt8) → List UInt8 → List UInt8
  | [], _ => []
  | f :: fs, data => (data.drop 2).take f.2.toNat ++ bodyData fs (data.drop (2 + f.2.toNat))

/-- An entry's block. -/
def snapshotBlock (m : Memory n) (e : Entry n) : List UInt8 :=
  let s := m.slots e.slot
  be24 s.dtc ++ be32 e.stamp ++ s.identity ++ bodyData s.freeze (e.data.drop 1)

/-- The memory and the store inside an operation that writes, and what the store refused. -/
structure Pass (n : ℕ) where
  mem : Memory n
  store : Store
  /-- Every snapshot that displaced a stored one is written. -/
  ready : Bool
  refused : Bool
  deferred : Bool

/-- Writes the snapshot at place `k`, unless its DTC is about to be cleared. -/
def writeSnapshot (clearing : Option UInt32) (p : Pass n) (k : Fin maxEntries) : Pass n :=
  match p.mem.entries k with
  | none => p
  | some e =>
    let s := p.mem.slots e.slot
    if e.durable ∨ (∃ group ∈ clearing, Names group s.dtc) then p
    else
      let (ok, store) := p.store.put (s.blockId e.blk) (p.mem.snapshotBlock e)
      if ok then
        let m := p.mem.setEntry k (some { e with durable := true })
        let m := m.setSlot e.slot { s with live := Function.update s.live e.blk true }
        { p with mem := { m with wrote := m.wrote + 1 }, store := store }
      else
        { p with store := store, refused := true, ready := p.ready && !e.tookClaim }

/-- Writes every captured snapshot not yet in the store. -/
def writeSnapshots (m : Memory n) (st : Store) (clearing : Option UInt32) : Pass n :=
  m.places.foldl (writeSnapshot clearing) ⟨m, st, true, false, false⟩

/-! ## Persisting -/

/-- Writes the image, unless a snapshot it depends on is missing or only occurrences moved. -/
def writeImage (p : Pass n) (seam : Seam) (flush : Bool) : Pass n :=
  let img := p.mem.image none
  if ¬p.ready then { p with refused := true }
  else if img = p.mem.img then p
  else if flush ∨ ¬onlyOcc p.mem.img img then
    let (ok, store) := p.store.put seam.id img
    if ok then
      let m := p.mem.commitImage img
      { p with mem := { m with wrote := m.wrote + 1 }, store := store }
    else { p with store := store, refused := true }
  else { p with deferred := true }

/-- The block of slot `i` that its snapshot entry lives in. -/
def entryBlock (m : Memory n) (i : Fin n) : Option Block :=
  match (m.slots i).entry with
  | none => none
  | some k => (m.entries k).map Entry.blk

/-- Releases block `b` of slot `i` once nothing claims it and no snapshot waits in it. -/
def tombstone (i : Fin n) (p : Pass n) (b : Block) : Pass n :=
  let s := p.mem.slots i
  if s.live b = false ∨ s.claim = some b ∨ p.mem.entryBlock i = some b then p
  else
    let (ok, store) := p.store.put (s.blockId b) [0]
    if ok then
      let m := p.mem.setSlot i { s with live := Function.update s.live b false }
      { p with mem := { m with wrote := m.wrote + 1 }, store := store }
    else { p with store := store, refused := true }

def tombstones (p : Pass n) : Pass n :=
  (List.finRange n).foldl (fun p i => [Block.A, Block.B].foldl (tombstone i) p) p

/-- Writes what changed; `true` once the store holds everything. -/
def persist (m : Memory n) (st : Store) (now : UInt64) (flush : Bool) : Bool × Memory n × Store :=
  let m := { m with wrote := 0 }
  match m.store with
  | none => (true, m, st)
  | some seam =>
    if ¬flush ∧ now < m.retryAt then
      (false, { m with refused := m.refused || m.clearRefused, clearRefused := false }, st)
    else
      let p := tombstones (writeImage (m.writeSnapshots st none) seam flush)
      (!p.refused && !p.deferred,
        { p.mem with
          retryAt := if p.refused then now + seam.retryUs else 0
          refused := p.refused || p.mem.clearRefused
          clearRefused := false }, p.store)

/-! ## Clearing -/

/-- Makes a clear's image durable before the clear touches anything. -/
def persistClear (m : Memory n) (st : Store) (group : UInt32) : Bool × Memory n × Store :=
  let m := { m with wrote := 0 }
  match m.store with
  | none => (true, m, st)
  | some seam =>
    let p := m.writeSnapshots st (some group)
    if ¬p.ready then (false, { p.mem with clearRefused := true }, p.store)
    else
      let img := p.mem.image (some group)
      if img = p.mem.img then (true, p.mem, p.store)
      else
        let (ok, store) := p.store.put seam.id img
        if ok then
          let m := p.mem.commitImage img
          (true, { m with wrote := m.wrote + 1 }, store)
        else (false, { p.mem with clearRefused := true }, store)

/-- The slot after a clear. -/
def clearSlot (s : Slot) : Slot :=
  { s with
    snapDue := false, status := statusCleared, occurrence := 0, failedCycles := 0, agingCount := 0,
    failedCycle := false, testedCycle := false, waitGen := false }.renew false

/-- Clears one slot. -/
def clearOne (m : Memory n) (i : Fin n) : Memory n :=
  let m := if (m.slots i).entry ≠ none then m.freeEntry i else m
  m.setSlot i (clearSlot (m.slots i))

/-- Clears the slots a group names. -/
def clearNamed (m : Memory n) (group : UInt32) : Memory n :=
  m.each fun m i => if Names group (m.slots i).dtc then m.clearOne i else m

/-- ClearDiagnosticInformation: the negative response code, or 0. -/
def clear (m : Memory n) (st : Store) (group : UInt32) : UInt8 × Memory n × Store :=
  if ∃ i, Names group (m.slots i).dtc ∧ ¬(m.slots i).canRenew then (0x22, m, st)
  else if ¬∃ i, Names group (m.slots i).dtc then (0x31, m, st)
  else
    let (ok, m, st) := m.persistClear st group
    if ¬ok then (0x72, m, st) else (0, m.clearNamed group, st)

/-! ## Restoring -/

/-- The record body of a stored snapshot, from the data in its block. -/
def loadBody : List (UInt16 × UInt8) → List UInt8 → List UInt8
  | [], _ => []
  | f :: fs, data => be16 f.1 ++ data.take f.2.toNat ++ loadBody fs (data.drop f.2.toNat)

/-- Reads slot `i`'s snapshot block into a free entry. -/
def loadSnapshot (m : Memory n) (st : Store) (i : Fin n) (b : Block) : Option (Memory n) :=
  let s := m.slots i
  let v := st.get (s.blockId b) maxBlock
  let at' := fun k => v.getD k 0
  if v.length ≠ s.blockLen then none
  else if rdBe24 (at' 0) (at' 1) (at' 2) ≠ s.dtc then none
  else if (v.drop 7).take s.identity.length ≠ s.identity then none
  else match (List.finRange maxEntries).find? fun k => (m.entries k).isNone with
    | none => none
    | some k =>
      let stamp := rdBe32 (at' 3) (at' 4) (at' 5) (at' 6)
      let data := s.freeze.length.toUInt8 :: loadBody s.freeze (v.drop (7 + s.identity.length))
      let m := m.setEntry k (some ⟨i, stamp, true, b, false, data⟩)
      let m := m.setSlot i { s with entry := some k }
      some { m with nextStamp := if m.nextStamp ≤ stamp then stamp + 1 else m.nextStamp }

/-- The slot configured with a DTC. -/
def slotOf (m : Memory n) (dtc : UInt32) : Option (Fin n) :=
  (List.finRange n).find? fun i => (m.slots i).dtc = dtc

/-- The bits and counters record `r` of the image gives a slot. -/
def restoredSlot (s : Slot) (img : List UInt8) (r : ℕ) : Slot :=
  let f := recAt img r 3
  { s with
    status := (f &&& persistedBits) ||| notCompletedThisCycle
    testedCycle := Has f imgTested
    failedCycle := Has f imgFailed
    failedCycles := recAt img r 4
    agingCount := recAt img r 5
    occurrence := rdBe16 (recAt img r 6) (recAt img r 7) }

/-- The claim record `r` of the image makes for a slot, whatever its block holds. -/
def restoredClaim (s : Slot) (img : List UInt8) (r : ℕ) : Option Block :=
  if s.freeze = [] then none
  else if img.getD 0 0 = imageV4 then
    if ¬Has (recAt img r 3) imgSnapshot then none
    else if Has (recAt img r 3) imgV4BlockB then some .B else some .A
  else imgClaim s img r

/-- Gives slot `i` the bits, the counters and the claim of record `r`. -/
def takeRecord (m : Memory n) (i : Fin n) (r : ℕ) : Memory n :=
  m.setSlot i { (restoredSlot (m.slots i) m.img r) with
    claim := restoredClaim (m.slots i) m.img r, claimOk := false }

/-- Restores what record `r` of the image holds. -/
def restoreRecord (st : Store) (m : Memory n) (r : ℕ) : Memory n :=
  match m.slotOf (rdBe24 (recAt m.img r 0) (recAt m.img r 1) (recAt m.img r 2)) with
  | none => m
  | some i =>
    let m := m.takeRecord i r
    let loaded :=
      if m.img.getD 0 0 = imageV4 then none else (m.slots i).claim.bind (m.loadSnapshot st i)
    match loaded with
    | some m => m.setSlot i { m.slots i with claimOk := true }
    | none => if Has (recAt m.img r 3) imgSnapshot then { m with pruned := m.pruned + 1 } else m

/-- At restore, entry `a` is dropped before entry `b`: less important, then older. -/
def dropsBefore (m : Memory n) (a b : Entry n) : Bool :=
  let pa := prio (m.slots a.slot).priority
  let pb := prio (m.slots b.slot).priority
  if pa ≠ pb then decide (pb < pa) else decide (a.stamp < b.stamp)

/-- The used entries, in their places. -/
def usedEntries (m : Memory n) : List (Entry n) := (List.finRange maxEntries).filterMap m.entries

/-- The entry that is dropped first. -/
def worst (m : Memory n) : Option (Entry n) :=
  m.usedEntries.foldl (fun w e =>
    match w with
    | none => some e
    | some b => if m.dropsBefore e b then some e else w) none

/-- Drops entries until they fit, at most `fuel` of them. -/
def dropEntries : ℕ → Memory n → Memory n
  | 0, m => m
  | fuel + 1, m =>
    if m.usedEntries.length ≤ m.cap then m
    else match m.worst with
      | none => m
      | some e => dropEntries fuel (m.freeEntry e.slot)

/-- Moves the used entry at `k`, if there is one, to the first free place. -/
def packEntry (x : Memory n × ℕ) (k : Fin maxEntries) : Memory n × ℕ :=
  let (m, next) := x
  match m.entries k with
  | none => (m, next)
  | some e =>
    if h : next < maxEntries then
      if k.val ≠ next then
        let m := (m.setEntry ⟨next, h⟩ (some e)).setEntry k none
        (m.setSlot e.slot { m.slots e.slot with entry := some ⟨next, h⟩ }, next + 1)
      else (m, next + 1)
    else (m, next)

/-- Drops the restored snapshots past the capacity and packs the rest. -/
def fitEntries (m : Memory n) : Memory n :=
  ((List.finRange maxEntries).foldl packEntry (dropEntries maxEntries m, 0)).1

/-- The stored value is a status image. -/
def IsImage (img : List UInt8) : Prop :=
  2 ≤ img.length ∧ (img.getD 0 0 = imageVersion ∨ img.getD 0 0 = imageV4) ∧
    (img.length - 2) % imageRec = 0

instance (img : List UInt8) : Decidable (IsImage img) := inferInstanceAs (Decidable (_ ∧ _))

/-- A slot without two distinct, real snapshot blocks keeps no snapshot. -/
def checkBlocks (s : Slot) : Slot :=
  if s.snapId = 0 ∨ s.snapIdB = 0 ∨ s.snapId = s.snapIdB then { s with freeze := [] } else s

/-- Which of slot `i`'s blocks hold a snapshot. -/
def liveBlocks (m : Memory n) (st : Store) (i : Fin n) : Slot :=
  let s := m.slots i
  if s.freeze = [] then s
  else
    let live := fun b => m.entryBlock i = some b ∨ 1 < (st.get (s.blockId b) 2).length
    { s with live := fun b => decide (live b) }

/-- Ends the operation cycle power interrupted, under the setting it ended under. -/
def endInterrupted (m : Memory n) (off : Bool) : Memory n :=
  { (cycleEnd { m with cycleActive := true, settingOff := off }) with settingOff := false }

def checkSlots (m : Memory n) : Memory n := { m with slots := fun i => checkBlocks (m.slots i) }

/-- The status image a memory finds in its store. -/
def storedImage (st : Store) (seam : Seam) : List UInt8 := st.get seam.id maxImage

/-- Restores every record of the stored value, if it is an image. -/
def readImage (m : Memory n) (st : Store) (img : List UInt8) : Memory n :=
  if IsImage img then
    ((List.range ((img.length - 2) / imageRec)).foldl (restoreRecord st)
      { m with img := img }).fitEntries
  else { m with img := [] }

/-- Reads the store back, after `init`. -/
def restore (m : Memory n) (st : Store) : Memory n :=
  match m.store with
  | none => m
  | some seam =>
    let img := storedImage st seam
    let m := m.checkSlots.readImage st img
    let m := { m with slots := m.liveBlocks st }
    if IsImage img ∧ Has (img.getD 1 0) imgCycleOpen then
      m.endInterrupted (Has (img.getD 1 0) imgSettingOff)
    else m

end Memory

end BloblyEmb.Fault
