import Mathlib.Order.Lattice.Nat
import Mathlib.Algebra.Order.Group.Nat
import BloblyEmb.Fault.Consistent

/-!
# The counters of operation cycles

A DTC counts the cycles in which it passed, toward ageing out, and those in which it failed, toward
confirmation. A restore ends a cycle that power interrupted from an image that may be much older
than the cycle, over and over while no write gets through. What bounds the counters through all of
this is how far the memory and the image can still take them: a cycle that is open adds one to
either, and only the start of a cycle raises that.
-/
namespace BloblyEmb.Fault

/-- The aging counter and the failed-cycle counter. -/
def Slot.counters (s : Slot) : ℕ × ℕ := (s.agingCount.toNat, s.failedCycles.toNat)

/-- How far the cycle that is open, if one is, can take the counters. -/
def Slot.upTo (s : Slot) (isOpen : Bool) : ℕ × ℕ :=
  (s.agingCount.toNat + (if isOpen then 1 else 0),
    if isOpen then
      if s.failedCycle then max 1 s.failedCycles.toNat else s.failedCycles.toNat + 1
    else s.failedCycles.toNat)

namespace Slot
variable {s s' : Slot}

theorem counters_le_upTo (s : Slot) (isOpen : Bool) : s.counters ≤ s.upTo isOpen := by
  cases isOpen with
  | false => exact ⟨Nat.le_refl _, Nat.le_refl _⟩
  | true =>
    refine ⟨Nat.le_succ _, ?_⟩
    simp only [counters, upTo, if_true]
    split
    · exact Nat.le_max_right _ _
    · exact Nat.le_succ _

/-- What leaves the counters and the failure of the cycle leaves how far they go. -/
theorem upTo_congr (isOpen : Bool) (hage : s'.agingCount = s.agingCount)
    (hfailed : s'.failedCycles = s.failedCycles) (hcycle : s'.failedCycle = s.failedCycle) :
    s'.upTo isOpen = s.upTo isOpen := by
  simp only [upTo, hage, hfailed, hcycle]

theorem upTo_kept (h : Kept s s') (isOpen : Bool) : s'.upTo isOpen = s.upTo isOpen := by
  rw [h]
  rfl

theorem upTo_taken (h : Taken s s') (isOpen : Bool) : s'.upTo isOpen = s.upTo isOpen := by
  rw [h.same]
  rfl

/-! ## Reports -/

/-- A failure starts the ageing over, and counts once in its cycle. -/
theorem upTo_failure (s : Slot) (df : UInt16) : (s.failure df).upTo true ≤ s.upTo true := by
  have hcount : ∀ t : Slot, t.failedCycle = s.failedCycle → t.failedCycles = s.failedCycles →
      { t.countCycle with agingCount := 0 }.upTo true ≤ s.upTo true := by
    intro t hcycle hfailed
    refine ⟨?_, ?_⟩
    · simp [upTo]
    · cases hc : s.failedCycle with
      | true => simp [upTo, countCycle, hcycle, hfailed, hc]
      | false =>
        have hnext : (if s.failedCycles < 255 then s.failedCycles + 1 else s.failedCycles).toNat ≤
            s.failedCycles.toNat + 1 := by
          split
          · rw [UInt8.toNat_add, UInt8.toNat_one]
            exact Nat.mod_le _ _
          · exact Nat.le_succ _
        simpa [upTo, countCycle, hcycle, hfailed, hc] using hnext
  simp only [failure]
  split
  · exact hcount _ rfl rfl
  · exact hcount _ rfl rfl

theorem upTo_count (s : Slot) (failed : Bool) (df dt : UInt16) :
    (s.count failed df dt).upTo true ≤ s.upTo true := by
  have htested : (if 0 < dt then s.tested failed else s).upTo true = s.upTo true := by
    split
    · exact upTo_congr true rfl rfl rfl
    · rfl
  simp only [count]
  split
  · exact (upTo_failure _ df).trans (le_of_eq htested)
  · exact le_of_eq htested

/-- A report counts only in a cycle that is open. -/
theorem upTo_consume (s : Slot) (off isOpen : Bool) (r : Report) :
    (s.consume off isOpen r).upTo isOpen ≤ s.upTo isOpen := by
  simp only [consume]
  split
  · split
    · exact le_of_eq (upTo_congr _ rfl rfl rfl)
    · exact le_of_eq (upTo_congr _ rfl rfl rfl)
  · split
    · exact le_of_eq (upTo_congr _ rfl rfl rfl)
    · split
      · exact le_of_eq (upTo_congr _ rfl rfl rfl)
      · rename_i hcounts
        have hopen : isOpen = true := by
          by_contra hclosed
          exact hcounts (.inr (.inl hclosed))
        subst hopen
        refine (upTo_count _ _ _ _).trans (le_of_eq (upTo_congr _ rfl rfl rfl))

/-! ## Cycles -/

/-- The end of a cycle adds at most one, to the aging counter. -/
theorem counters_endedSlot (s : Slot) : (Memory.endedSlot s).counters ≤ s.counters + (1, 0) := by
  have hsame : s.counters ≤ s.counters + (1, 0) := ⟨Nat.le_succ _, Nat.le_refl _⟩
  have hend : (Memory.endSlot s).counters ≤ s.counters + (1, 0) := by
    have hage : (s.agingCount + 1).toNat ≤ s.agingCount.toNat + 1 := by
      rw [UInt8.toNat_add, UInt8.toNat_one]
      exact Nat.mod_le _ _
    simp only [Memory.endSlot]
    split
    · split
      · exact ⟨hsame.1, Nat.zero_le _⟩
      · split
        · split
          · exact ⟨Nat.zero_le _, Nat.zero_le _⟩
          · exact ⟨hage, hsame.2⟩
        · exact hsame
    · exact hsame
  simp only [Memory.endedSlot]
  split
  · exact hend
  · exact hend

theorem upTo_closed (s : Slot) : s.upTo false = s.counters := rfl

/-- The end of a cycle takes the counters no further than the open cycle could. -/
theorem upTo_endedSlot (s : Slot) : (Memory.endedSlot s).upTo false ≤ s.upTo true := by
  have hmore : s.counters + (1, 0) ≤ s.upTo true := by
    have h := s.counters_le_upTo true
    exact ⟨Nat.le_refl _, h.2⟩
  exact (counters_endedSlot s).trans hmore

/-- The start of a cycle lets each counter go one further. -/
theorem upTo_started (s : Slot) (status : UInt8) :
    { s with status := status, failedCycle := false, testedCycle := false }.upTo true ≤
      s.upTo false + (1, 1) := by
  refine ⟨?_, ?_⟩ <;> simp [upTo]

theorem upTo_switchOn (s : Slot) (boundary isOpen : Bool) :
    (Memory.switchOn s boundary).upTo isOpen = s.upTo isOpen := by
  simp only [Memory.switchOn]
  split
  · split <;> exact upTo_congr _ rfl rfl rfl
  · split <;> exact upTo_congr _ rfl rfl rfl

theorem upTo_clearSlot (s : Slot) (isOpen : Bool) :
    (Memory.clearSlot { s with entry := none }).upTo isOpen ≤ s.upTo isOpen := by
  cases isOpen with
  | false => exact ⟨Nat.zero_le _, Nat.zero_le _⟩
  | true =>
    refine ⟨Nat.le_add_left 1 _, ?_⟩
    simp only [upTo, Memory.clearSlot, renew, if_true, Bool.false_eq_true, if_false]
    split
    · exact Nat.le_max_left 1 _
    · exact Nat.le_add_left 1 _

end Slot

namespace Memory
variable {n : ℕ}

/-! ## What an image keeps -/

/-- How far a restore from an image takes the counters of slot `i`. -/
def imageUpTo (m : Memory n) (img : List UInt8) (i : Fin n) : ℕ × ℕ :=
  if IsImage img then
    match Ecu.lastRecord m img i (records img) with
    | some r => ((recAt img r 5).toNat + (if Interrupted img then 1 else 0), (recAt img r 4).toNat)
    | none => 0
  else 0

/-- How far a restore from the store does. -/
def storeUpTo (m : Memory n) (st : Store) (i : Fin n) : ℕ × ℕ :=
  match m.store with
  | none => 0
  | some seam => m.imageUpTo (storedImage st seam) i

theorem lastRecord_congr {m m' : Memory n} {i : Fin n} (h : (m'.slots i).dtc = (m.slots i).dtc)
    (img : List UInt8) (R : ℕ) : Ecu.lastRecord m' img i R = Ecu.lastRecord m img i R := by
  induction R with
  | zero => rfl
  | succ R ih => simp only [Ecu.lastRecord, h, ih]

theorem imageUpTo_congr {m m' : Memory n} {i : Fin n} (h : (m'.slots i).dtc = (m.slots i).dtc)
    (img : List UInt8) : m'.imageUpTo img i = m.imageUpTo img i := by
  simp only [imageUpTo, lastRecord_congr h]

/-- An image says that a cycle is open only if one is. -/
theorem open_of_interrupted {m : Memory n} {c : Option UInt32} (h : Interrupted (m.image c)) :
    m.cycleActive = true := by
  have hflag : Has ((m.image c).getD 1 0) imgCycleOpen := h.2.1
  have hall : ∀ a o : Bool, Has ((if a then imgCycleOpen else 0) |||
      (if o then imgSettingOff else 0)) imgCycleOpen → a = true := by
    decide
  rw [image_eq] at hflag
  exact hall m.cycleActive m.settingOff hflag

/-- What a built image keeps of a slot goes no further than the slot does. -/
theorem imageUpTo_image {m : Memory n} (hd : m.Distinct) (hn : m.Narrow) (c : Option UInt32)
    (i : Fin n) : m.imageUpTo (m.image c) i ≤ (m.slots i).upTo m.cycleActive := by
  have hbuilt := built_image hn c
  have hlast : Ecu.lastRecord m (m.image c) i (records (m.image c)) = some i.val := by
    rw [records_image]
    refine Ecu.lastRecord_some i.isLt (hbuilt.dtc i) ?_
    intro r hlt hr heq
    have := hd ⟨r, hr⟩ i ((hbuilt.dtc ⟨r, hr⟩).symm.trans heq)
    rw [← this] at hlt
    exact Nat.lt_irrefl _ hlt
  have hopen : (if Interrupted (m.image c) then 1 else 0) ≤ if m.cycleActive then 1 else 0 := by
    split
    · rw [if_pos (open_of_interrupted ‹_›)]
    · exact Nat.zero_le _
  have hcounters := (m.slots i).counters_le_upTo m.cycleActive
  rw [imageUpTo, if_pos hbuilt.image, hlast]
  dsimp only
  rw [recAt_image _ _ _ (by decide), recAt_image _ _ _ (by decide)]
  have hrecord : ((m.recordIn c i).getD 5 0).toNat ≤ (m.slots i).agingCount.toNat ∧
      ((m.recordIn c i).getD 4 0).toNat ≤ (m.slots i).failedCycles.toNat := by
    cases c with
    | none => exact ⟨Nat.le_refl _, Nat.le_refl _⟩
    | some group =>
      simp only [recordIn]
      split
      · exact ⟨Nat.zero_le _, Nat.zero_le _⟩
      · exact ⟨Nat.le_refl _, Nat.le_refl _⟩
  exact ⟨Nat.add_le_add hrecord.1 hopen, hrecord.2.trans hcounters.2⟩

/-- What a restore makes of a slot goes no further than its image. -/
theorem upTo_found {m : Memory n} {img : List UInt8} {i : Fin n} {s : Slot}
    (h : Found m.init img i s) :
    (if Interrupted img then endedSlot s else s).upTo false ≤ m.imageUpTo img i := by
  have hzero : (checkBlocks (m.init.slots i)).counters = 0 ∧
      (checkBlocks (m.init.slots i)).testedCycle = false := by
    simp only [checkBlocks]
    split
    · exact ⟨rfl, rfl⟩
    · exact ⟨rfl, rfl⟩
  rcases h.slot with ⟨hs, hno⟩ | ⟨r, hi, ⟨hn, hlast⟩, hs⟩
  · -- no record names the slot, and an untested cycle adds nothing
    have hcounters : s.counters = 0 := by
      rw [hs]
      exact hzero.1
    have htested : s.testedCycle = false := by
      rw [hs]
      exact hzero.2
    have hended : (endedSlot s).counters = s.counters := by
      simp only [endedSlot, endSlot, htested, Bool.false_eq_true, false_and, if_false]
      split
      · rfl
      · rfl
    have hnone : m.imageUpTo img i = 0 := by
      simp only [imageUpTo]
      split
      · rename_i hi
        have hnone : Ecu.lastRecord m img i (records img) = none :=
          Ecu.lastRecord_none fun r hr hdtc => hno r hi ⟨hr, hdtc⟩
        rw [hnone]
      · rfl
    rw [hnone, Slot.upTo_closed]
    split
    · exact le_of_eq (hended.trans hcounters)
    · exact le_of_eq hcounters
  · have hcounters : s.counters = ((recAt img r 5).toNat, (recAt img r 4).toNat) := by
      rw [hs]
      rfl
    have hfound : Ecu.lastRecord m img i (records img) = some r :=
      Ecu.lastRecord_some hn.1 hn.2 fun r' hlt hr' hdtc => hlast r' hlt ⟨hr', hdtc⟩
    rw [imageUpTo, if_pos hi, hfound, Slot.upTo_closed]
    split
    · have hend := Slot.counters_endedSlot s
      rw [hcounters] at hend
      simpa [*] using hend
    · rw [hcounters]
      simp [*]

/-- A start goes no further than its store. -/
theorem upTo_boot {m : Memory n} (hd : m.Distinct) (st : Store) (i : Fin n) :
    ((Node.boot m st).mem.slots i).upTo (Node.boot m st).mem.cycleActive ≤ m.storeUpTo st i := by
  cases hs : m.store with
  | none =>
    rw [Node.boot_of_none hs]
    exact ⟨Nat.zero_le _, Nat.zero_le _⟩
  | some seam =>
    obtain ⟨hframe, hslot⟩ := restore_spec (m := m.init) st hs rfl rfl hd (fun _ => rfl)
      (fun _ => rfl)
    obtain ⟨s, hf, heq⟩ := hslot i
    rw [Node.boot, hframe.cycleActive, heq, storeUpTo, hs]
    exact upTo_found hf

end Memory

/-! ## Over the life of a memory -/

namespace Node
variable {n : ℕ} {m : Memory n} {x : Node n}
open Memory

/-- How far slot `i`'s counters can go without the start of another cycle: from the memory, or from
the store after a reset. -/
def upTo (x : Node n) (i : Fin n) : ℕ × ℕ :=
  (x.mem.slots i).upTo x.mem.cycleActive ⊔ x.mem.storeUpTo x.store i

/-- The operation cycles that begin in a run. -/
def starts (ops : List (Op n)) : ℕ := ops.countP fun op => op matches .cycleStart

/-- What an operation adds to it. -/
def cycles : Op n → ℕ × ℕ
  | .cycleStart => (1, 1)
  | _ => 0

section
variable {seam : Seam}

theorem upTo_cycleStart (m : Memory n) (i : Fin n) :
    (m.cycleStart.slots i).upTo m.cycleStart.cycleActive ≤
      (m.slots i).upTo m.cycleActive + (1, 1) := by
  let m₁ := if m.cycleActive then ({ m with ending := false } : Memory n).cycleEnd
    else { m with ending := false }
  have hended : (m₁.slots i).upTo false ≤ (m.slots i).upTo m.cycleActive := by
    simp only [m₁]
    cases hopen : m.cycleActive with
    | false => exact ⟨Nat.le_refl _, Nat.le_refl _⟩
    | true =>
      rw [if_pos rfl, slots_cycleEnd]
      split
      · exact (m.slots i).upTo_endedSlot
      · have h := (m.slots i).counters_le_upTo true
        exact ⟨h.1, h.2⟩
  let m₂ := if m₁.settingOff then { m₁ with boundaryOff := true } else m₁
  have hsame : m₂.slots i = m₁.slots i := by
    simp only [m₂]
    split <;> rfl
  have hstart := Slot.upTo_started (m₂.slots i)
    (if m₂.settingOff then (m₂.slots i).status else restartBits (m₂.slots i).status)
  rw [hsame] at hstart
  have h : (m.cycleStart.slots i).upTo m.cycleStart.cycleActive ≤
      (m₁.slots i).upTo false + (1, 1) := by
    change Slot.upTo { m₂.slots i with
      status := if m₂.settingOff then (m₂.slots i).status else restartBits (m₂.slots i).status
      failedCycle := false
      testedCycle := false } true ≤ _
    rw [hsame]
    exact hstart
  exact ⟨h.1.trans (Nat.add_le_add_right hended.1 _), h.2.trans (Nat.add_le_add_right hended.2 _)⟩

theorem upTo_cycleEnd (m : Memory n) (i : Fin n) :
    (m.cycleEnd.slots i).upTo m.cycleEnd.cycleActive ≤ (m.slots i).upTo m.cycleActive := by
  have hframe := m.framed_cycleEnd
  rw [hframe.cycleActive, slots_cycleEnd]
  split
  · rename_i hopen
    rw [hopen.1]
    exact (m.slots i).upTo_endedSlot
  · exact (m.slots i).counters_le_upTo m.cycleActive

/-- A clear leaves the cycle, and takes no slot further. -/
theorem upTo_clear (m : Memory n) (st : Store) (group : UInt32) (i : Fin n) :
    ((m.clear st group).2.1.slots i).upTo (m.clear st group).2.1.cycleActive ≤
      (m.slots i).upTo m.cycleActive := by
  have hstores := m.persistClear_stores st group
  have hkept := Slot.upTo_kept (hstores.slots i) m.cycleActive
  rcases m.clear_cases st group with ⟨-, heq⟩ | ⟨-, -, heq⟩ | ⟨-, -, -, heq⟩
  · rw [heq]
  · rw [heq, hstores.cycleActive]
    exact le_of_eq hkept
  · rw [heq]
    dsimp only
    rw [((m.persistClear st group).2.1.framed_clearNamed group).cycleActive, hstores.cycleActive,
      slots_clearNamed]
    split
    · exact (Slot.upTo_clearSlot _ _).trans (le_of_eq hkept)
    · exact le_of_eq hkept

/-- Between two starts, only the start of a cycle lets a slot go further. -/
theorem upTo_mem (x : Node n) (op : Op n) (hop : op ≠ .reset) (i : Fin n) :
    ((x.step op).mem.slots i).upTo (x.step op).mem.cycleActive ≤
      (x.mem.slots i).upTo x.mem.cycleActive + cycles op := by
  cases op with
  | consume j r =>
    rw [show (x.step (.consume j r)).mem = x.mem.consume j r from rfl,
      show (x.mem.consume j r).cycleActive = x.mem.cycleActive from rfl, Memory.consume,
      slots_setSlot]
    split
    · rename_i hij
      subst hij
      exact Slot.upTo_consume _ _ _ r
    · exact le_refl _
  | capture dids =>
    have ht := x.mem.taken_capture dids
    rw [show (x.step (.capture dids)).mem = x.mem.capture dids from rfl, ht.2.cycleActive,
      Slot.upTo_taken (ht.1 i)]
    exact le_refl _
  | cycleStart => exact upTo_cycleStart x.mem i
  | cycleEnd => exact upTo_cycleEnd x.mem i
  | endCycleAfter now grace =>
    simp only [step, endCycleAfter]
    split
    · exact le_refl _
    · exact le_refl _
  | setSetting on =>
    simp only [step, setSetting]
    split
    · exact le_of_eq (Slot.upTo_switchOn _ _ _)
    · exact le_refl _
  | persist now flush =>
    have hst := persist_stores x.mem x.store now flush
    rw [show (x.step (.persist now flush)).mem = (x.mem.persist x.store now flush).2.1 from rfl,
      hst.cycleActive, Slot.upTo_kept (hst.slots i)]
    exact le_refl _
  | clear group => exact upTo_clear x.mem x.store group i
  | reset => exact absurd rfl hop

/-- An operation leaves the stored image, or puts one in its place that is built from the memory. -/
theorem storedImage_step (h : Sound m seam x) (hc : m.Configured) (hs : m.store = some seam)
    (op : Op n) : storedImage (x.step op).store seam = storedImage x.store seam ∨
      ∃ m₁ c, Stores x.mem m₁ ∧ storedImage (x.step op).store seam = m₁.image c := by
  cases op with
  | persist now flush =>
    obtain ⟨-, m₁, hm₁, hi⟩ := persist_spec x.mem x.store now flush h.store (h.foreign hc hs)
    rcases hi with ⟨hb, -⟩ | ⟨hb, -⟩
    · exact .inl (storedImage_congr hb)
    · exact .inr ⟨m₁, none, hm₁, storedImage_of_block hc.fits hb⟩
  | clear group =>
    rcases clear_spec h hc hs group with ⟨-, -, -, -, hb⟩ | ⟨-, -, m₁, hm₁, -, hb, -⟩
    · exact .inl (storedImage_congr hb)
    · exact .inr ⟨m₁, some group, hm₁, hb⟩
  | consume _ _ | capture _ | cycleStart | cycleEnd | endCycleAfter _ _ | setSetting _ | reset =>
    exact .inl rfl

/-- What is stored goes no further than the memory or the store did. -/
theorem storeUpTo_step (h : Sound m seam x) (hc : m.Configured) (hs : m.store = some seam)
    (op : Op n) (i : Fin n) :
    (x.step op).mem.storeUpTo (x.step op).store i ≤ x.upTo i := by
  have hnext := sound_step h hc hs op
  rw [storeUpTo, hnext.store]
  dsimp only
  rw [imageUpTo_congr ((hnext.dtc i).trans (h.dtc i).symm)]
  rcases storedImage_step h hc hs op with hi | ⟨m₁, c, hm₁, hi⟩
  · have hsame : x.mem.imageUpTo (storedImage x.store seam) i = x.mem.storeUpTo x.store i := by
      rw [storeUpTo, h.store]
    rw [hi, hsame]
    exact le_sup_right
  · have hdtc : ∀ j, (m₁.slots j).dtc = (x.mem.slots j).dtc := fun j =>
      (Grows.of_kept (hm₁.slots j)).dtc
    have himage : m₁.imageUpTo (m₁.image c) i ≤ (m₁.slots i).upTo m₁.cycleActive := by
      refine imageUpTo_image ?_ ?_ c i
      · intro j k hjk
        rw [hdtc, hdtc] at hjk
        exact h.distinct hc j k hjk
      · intro j
        rw [hdtc]
        exact h.narrow hc j
    rw [Slot.upTo_kept (hm₁.slots i), hm₁.cycleActive, imageUpTo_congr (hdtc i)] at himage
    rw [hi]
    exact himage.trans le_sup_left

/-- Only the start of a cycle lets the counters go further, by one each. -/
theorem upTo_step (h : Sound m seam x) (hc : m.Configured) (hs : m.store = some seam) (op : Op n)
    (i : Fin n) : (x.step op).upTo i ≤ x.upTo i + cycles op := by
  have hmore : ∀ a : ℕ × ℕ, a ≤ x.upTo i → a ≤ x.upTo i + cycles op := by
    intro a ha
    exact ⟨ha.1.trans (Nat.le_add_right _ _), ha.2.trans (Nat.le_add_right _ _)⟩
  refine sup_le ?_ (hmore _ (storeUpTo_step h hc hs op i))
  by_cases hop : op = .reset
  · subst hop
    exact hmore _ ((upTo_boot (h.distinct hc) x.store i).trans le_sup_right)
  · have hram : (x.mem.slots i).upTo x.mem.cycleActive ≤ x.upTo i := le_sup_left
    have hmem := upTo_mem x op hop i
    exact ⟨hmem.1.trans (Nat.add_le_add_right hram.1 _), hmem.2.trans (Nat.add_le_add_right hram.2 _)⟩

/-- Without a store a reset forgets both counters. -/
theorem upTo_step_of_none (h : x.mem.store = none) (op : Op n) (i : Fin n) :
    (x.step op).upTo i ≤ x.upTo i + cycles op := by
  have hnone : ∀ y : Node n, y.mem.store = none →
      y.upTo i = (y.mem.slots i).upTo y.mem.cycleActive := by
    intro y hy
    simp only [upTo, storeUpTo, hy]
    exact sup_eq_left.mpr ⟨Nat.zero_le _, Nat.zero_le _⟩
  rw [hnone x h, hnone _ (store_step_of_none h op)]
  by_cases hop : op = .reset
  · subst hop
    rw [step, boot_of_none h]
    exact ⟨Nat.zero_le _, Nat.zero_le _⟩
  · exact upTo_mem x op hop i

end

/-- A node that comes from a start of a configuration. -/
theorem upTo_run (hc : m.Configured) (h : (∃ seam, m.store = some seam ∧ Sound m seam x) ∨
    (m.store = none ∧ x.mem.store = none)) (ops : List (Op n)) (i : Fin n) :
    (x.run ops).upTo i ≤ x.upTo i + (starts ops, starts ops) := by
  induction ops generalizing x with
  | nil => exact le_refl _
  | cons op ops ih =>
    have hcount : cycles op + (starts ops, starts ops) = (starts (op :: ops), starts (op :: ops)) := by
      cases op <;> simp [cycles, starts, Nat.add_comm]
    have hstep : (x.step op).upTo i ≤ x.upTo i + cycles op := by
      rcases h with ⟨seam, hs, hx⟩ | ⟨-, hx⟩
      · exact upTo_step hx hc hs op i
      · exact upTo_step_of_none hx op i
    have hnext := ih (x := x.step op) (by
      rcases h with ⟨seam, hs, hx⟩ | ⟨hs, hx⟩
      · exact .inl ⟨seam, hs, sound_step hx hc hs op⟩
      · exact .inr ⟨hs, store_step_of_none hx op⟩)
    rw [← hcount, ← add_assoc]
    exact ⟨hnext.1.trans (Nat.add_le_add_right hstep.1 _),
      hnext.2.trans (Nat.add_le_add_right hstep.2 _)⟩

end Node

/-! ## A reset right after a reset -/

/-- The slots are configured alike. -/
def SameConfig (s s' : Slot) : Prop := s'.init = s.init

theorem SameConfig.of_alike {s s' : Slot} (h : Alike s s') : SameConfig s s' := by
  rw [h]
  rfl

theorem sameConfig_endedSlot (s : Slot) : SameConfig s (Memory.endedSlot s) := by
  have hend : SameConfig s (Memory.endSlot s) := by
    simp only [Memory.endSlot]
    split
    · split
      · rfl
      · split
        · split <;> rfl
        · rfl
    · rfl
  simp only [Memory.endedSlot]
  split
  · exact hend
  · exact hend

namespace Memory
variable {n : ℕ} (m : Memory n)

theorem cap_freeEntry (i : Fin n) : (m.freeEntry i).cap = m.cap := by
  simp only [freeEntry]
  split <;> rfl

theorem cap_loadSnapshot {m' : Memory n} {st : Store} {i : Fin n} {b : Block}
    (h : m.loadSnapshot st i b = some m') : m'.cap = m.cap := by
  simp only [loadSnapshot] at h
  split at h
  · cases h
  split at h
  · cases h
  split at h
  · cases h
  split at h
  · cases h
  · cases h
    rfl

theorem cap_restoreRecord (st : Store) (r : ℕ) : (restoreRecord st m r).cap = m.cap := by
  simp only [restoreRecord]
  split
  · rfl
  · rename_i i _
    split
    · rename_i m₂ hload
      split at hload
      · cases hload
      · obtain ⟨b, -, hload⟩ := Option.bind_eq_some_iff.mp hload
        have hcap := cap_loadSnapshot (m.takeRecord i r) hload
        exact hcap
    · split <;> rfl

theorem cap_dropEntries (fuel : ℕ) : (dropEntries fuel m).cap = m.cap := by
  induction fuel generalizing m with
  | zero => rfl
  | succ fuel ih =>
    simp only [dropEntries]
    split
    · rfl
    · split
      · rfl
      · exact (ih _).trans (m.cap_freeEntry _)

theorem cap_packEntry (x : Memory n × ℕ) (k : Fin maxEntries) : (packEntry x k).1.cap = x.1.cap := by
  simp only [packEntry]
  split
  · rfl
  · split
    · split <;> rfl
    · rfl

theorem cap_readImage (st : Store) (img : List UInt8) : (m.readImage st img).cap = m.cap := by
  have hfit : ∀ m' : Memory n, m'.fitEntries.cap = m'.cap := by
    intro m'
    refine List.foldlRecOn (motive := fun x : Memory n × ℕ => x.1.cap = m'.cap) _ _
      (m'.cap_dropEntries maxEntries) ?_
    intro x hx k _
    exact (cap_packEntry x k).trans hx
  simp only [readImage]
  split
  · rw [hfit]
    refine List.foldlRecOn (motive := fun m' : Memory n => m'.cap = m.cap) _ _ rfl ?_
    intro m' hm' r _
    exact (m'.cap_restoreRecord st r).trans hm'
  · rfl

theorem cap_cycleEnd : m.cycleEnd.cap = m.cap := by
  simp only [cycleEnd]
  split
  · rfl
  · split
    · rfl
    · refine List.foldlRecOn (motive := fun m' : Memory n => m'.cap = m.cap) _ _ rfl ?_
      intro m' hm' i _
      simp only [cycleEndSlot]
      split
      · exact (cap_freeEntry _ i).trans hm'
      · exact hm'

theorem cap_restore (st : Store) : (m.restore st).cap = m.cap := by
  simp only [restore]
  split
  · rfl
  · rename_i seam _
    have hread := m.checkSlots.cap_readImage st (storedImage st seam)
    split
    · exact (cap_cycleEnd _).trans hread
    · exact hread

/-- What the start of a memory is made of: the slots' configuration, the capacity and the seam. -/
theorem checkSlots_init_congr {m m' : Memory n}
    (hslots : ∀ i, checkBlocks (m'.slots i).init = checkBlocks (m.slots i).init)
    (hcap : m'.cap = m.cap) (hstore : m'.store = m.store) :
    m'.init.checkSlots = m.init.checkSlots := by
  simp only [checkSlots, init, hcap, hstore]
  congr 1
  funext i
  exact hslots i

theorem restore_congr {m m' : Memory n} {seam : Seam} (h : m'.checkSlots = m.checkSlots)
    (hs' : m'.store = some seam) (hs : m.store = some seam) (st : Store) :
    m'.restore st = m.restore st := by
  rw [restore_eq hs', restore_eq hs, h]

/-- A slot without two blocks loses its snapshot once. -/
theorem checkBlocks_again (s : Slot) :
    checkBlocks (checkBlocks s.init).init = checkBlocks s.init := by
  by_cases hbad : s.init.snapId = 0 ∨ s.init.snapIdB = 0 ∨ s.init.snapId = s.init.snapIdB
  · have hnone : checkBlocks s.init = { s.init with freeze := [] } := if_pos hbad
    rw [hnone]
    exact if_pos hbad
  · have hsame : checkBlocks s.init = s.init := if_neg hbad
    rw [hsame]
    exact if_neg hbad

/-- A start on the same store does over again exactly what the start before it did. -/
theorem boot_boot (hd : m.store ≠ none → m.Distinct) (st : Store) :
    Node.boot (Node.boot m st).mem st = Node.boot m st := by
  cases hs : m.store with
  | none =>
    rw [Node.boot_of_none hs]
    exact Node.boot_of_none (m := m.init) hs st
  | some seam =>
    have hdistinct : m.Distinct := hd (by simp [hs])
    obtain ⟨hframe, hslot⟩ := restore_spec (m := m.init) st hs rfl rfl hdistinct (fun _ => rfl)
      (fun _ => rfl)
    have hslots : ∀ i, checkBlocks ((m.init.restore st).slots i).init =
        checkBlocks (m.slots i).init := by
      intro i
      obtain ⟨s, hf, heq⟩ := hslot i
      have hfound : s.init = (checkBlocks (m.init.slots i)).init := by
        rcases hf.slot with ⟨ha, -⟩ | ⟨r, -, -, ha⟩
        · exact SameConfig.of_alike ha
        · have hrecord : s.init = (restoredSlot (checkBlocks (m.init.slots i))
              (storedImage st seam) r).init := SameConfig.of_alike ha
          exact hrecord
      have hend : ((m.init.restore st).slots i).init = s.init := by
        rw [heq]
        split
        · exact sameConfig_endedSlot s
        · rfl
      rw [hend, hfound]
      exact checkBlocks_again (m.slots i)
    have hcheck : (m.init.restore st).init.checkSlots = m.init.checkSlots :=
      checkSlots_init_congr hslots (m.init.cap_restore st) hframe.store
    have hstore : (m.init.restore st).init.store = some seam := hframe.store.trans hs
    have hagain : (m.init.restore st).init.restore st = m.init.restore st := by
      rw [restore_congr hcheck hstore (show m.init.store = some seam from hs) st]
    exact congrArg (fun m' => (⟨m', st⟩ : Node n)) hagain

end Memory

/-! ## The counters over a life -/

namespace Node
variable {n : ℕ}
open Memory

/-- A state of a configured memory in a life of starts, resets, refused writes and everything its
owner does. -/
def reached (m : Memory n) (st : Store) (ops : List (Op n)) : Node n := (boot m st).run ops

theorem sound_reached {m : Memory n} (hc : m.Configured) (st : Store) (ops : List (Op n)) :
    (∃ seam, m.store = some seam ∧ Sound m seam (reached m st ops)) ∨
      (m.store = none ∧ (reached m st ops).mem.store = none) := by
  cases hs : m.store with
  | none =>
    refine .inr ⟨rfl, store_run_of_none ?_ ops⟩
    rw [boot_of_none hs]
    exact hs
  | some seam =>
    exact .inl ⟨seam, rfl, sound_run (sound_boot hs (fun _ => rfl) (fun _ _ => rfl) hc.distinct st)
      hc hs ops⟩

/-- From any state of a life on, whatever resets and refusals follow, neither counter of a DTC, in
the memory or in the store, gets past where the cycle that is open could take it by more than the
number of cycles that begin; and a reset on the same store does over again what the one before it
did. -/
theorem counters_advance_once_per_cycle (m : Memory n) (hc : m.Configured) (st : Store)
    (before after : List (Op n)) (i : Fin n) :
    let x := reached m st before
    let y := x.run after
    ((y.mem.slots i).counters ≤ x.upTo i + (starts after, starts after) ∧
      y.mem.storeUpTo y.store i ≤ x.upTo i + (starts after, starts after)) ∧
      (x.step .reset).step .reset = x.step .reset := by
  intro x y
  have hsound := sound_reached hc st before
  have hrun : y.upTo i ≤ x.upTo i + (starts after, starts after) := upTo_run hc hsound after i
  have hdistinct : x.mem.store ≠ none → x.mem.Distinct := by
    intro hstore
    rcases hsound with ⟨seam, -, hx⟩ | ⟨-, hx⟩
    · exact hx.distinct hc
    · exact absurd hx hstore
  refine ⟨⟨?_, le_sup_right.trans hrun⟩, ?_⟩
  · exact ((y.mem.slots i).counters_le_upTo y.mem.cycleActive).trans (le_sup_left.trans hrun)
  · exact boot_boot x.mem hdistinct x.store

/-- Power is lost in the failed cycle once it is stored, and again right after each start. -/
theorem counters_advance_once_per_cycle_counted :
    (((reached oneFault blankStore countedOps).run [.reset, .reset]).mem.slots 0).counters ≤
      (reached oneFault blankStore countedOps).upTo 0 + (0, 0) :=
  (counters_advance_once_per_cycle oneFault configured_oneFault blankStore countedOps
    [.reset, .reset] 0).1.1

end Node

end BloblyEmb.Fault
