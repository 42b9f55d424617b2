import BloblyEmb.Fault.Restore

/-!
# A memory over its life

The owner's operations on the fault memory and its store, in any order, with resets in between. What
the memory knows of the stored image is what the store holds. What a slot tells of a failure it
carries in its bit for a failure since the last clear, and only a clear or a reset takes that back.
-/
namespace BloblyEmb.Fault

/-- The owner's memory and its store. -/
structure Node (n : ℕ) where
  mem : Memory n
  store : Store

/-- What the owner does, and what happens to it. -/
inductive Op (n : ℕ) where
  | consume (i : Fin n) (r : Report)
  | capture (dids : List (UInt16 × List UInt8))
  | cycleStart
  | cycleEnd
  | endCycleAfter (now grace : UInt64)
  | clear (group : UInt32)
  | setSetting (on : Bool)
  | persist (now : UInt64) (flush : Bool)
  | reset

namespace Node
variable {n : ℕ}

/-- A start: the configured slots are initialised and the store is read back. -/
def boot (m : Memory n) (st : Store) : Node n := ⟨m.init.restore st, st⟩

def step (x : Node n) : Op n → Node n
  | .consume i r => { x with mem := x.mem.consume i r }
  | .capture dids => { x with mem := x.mem.capture dids }
  | .cycleStart => { x with mem := x.mem.cycleStart }
  | .cycleEnd => { x with mem := x.mem.cycleEnd }
  | .endCycleAfter now grace => { x with mem := x.mem.endCycleAfter now grace }
  | .clear group => ⟨(x.mem.clear x.store group).2.1, (x.mem.clear x.store group).2.2⟩
  | .setSetting on => { x with mem := x.mem.setSetting on }
  | .persist now flush =>
    ⟨(x.mem.persist x.store now flush).2.1, (x.mem.persist x.store now flush).2.2⟩
  | .reset => boot x.mem x.store

def run (x : Node n) (ops : List (Op n)) : Node n := ops.foldl step x

end Node

/-! ## What a slot tells -/

/-- The slot tells of no failure that it does not carry since the last clear. -/
def Told (s : Slot) : Prop :=
  Has s.status failureBits ∨ s.occurrence ≠ 0 ∨ s.entry ≠ none → Has s.status failedSinceClear

/-- What every operation but a clear and a reset does to a slot. -/
structure Grows (s s' : Slot) : Prop where
  dtc : s'.dtc = s.dtc
  blockId : ∀ b, s'.blockId b = s.blockId b
  told : Told s → Told s'
  failed : Has s.status failedSinceClear → Has s'.status failedSinceClear

namespace Grows

theorem refl (s : Slot) : Grows s s := ⟨rfl, fun _ => rfl, id, id⟩

theorem trans {s s' s'' : Slot} (h : Grows s s') (h' : Grows s' s'') : Grows s s'' :=
  ⟨h'.dtc.trans h.dtc, fun b => (h'.blockId b).trans (h.blockId b), h'.told ∘ h.told,
    h'.failed ∘ h.failed⟩

/-- A change of the slot that leaves the failure since the last clear in place. -/
theorem of_status {s s' : Slot} (dtc : s'.dtc = s.dtc) (blockId : ∀ b, s'.blockId b = s.blockId b)
    (hocc : s'.occurrence = s.occurrence) (hentry : s'.entry ≠ none → s.entry ≠ none)
    (hbits : Has s'.status failureBits → Has s.status failureBits)
    (hfail : Has s'.status failedSinceClear ↔ Has s.status failedSinceClear) : Grows s s' := by
  refine ⟨dtc, blockId, fun ht h => ?_, hfail.mpr⟩
  rw [hfail]
  apply ht
  rcases h with h | h | h
  · exact .inl (hbits h)
  · exact .inr (.inl (hocc ▸ h))
  · exact .inr (.inr (hentry h))

theorem of_taken {s s' : Slot} (h : Taken s s') : Grows s s' := by
  refine ⟨by rw [h.same], fun b => by rw [h.same]; rfl, fun ht hs => ?_, fun hf => h.status ▸ hf⟩
  rw [h.status] at hs ⊢
  apply ht
  rcases hs with hs | hs | hs
  · exact .inl hs
  · right; left
    rwa [h.same] at hs
  · rcases h.entry hs with he | hp
    · exact .inr (.inr he)
    · left
      revert hp
      generalize s.status = b
      revert b
      decide +kernel

theorem of_kept {s s' : Slot} (h : Kept s s') : Grows s s' :=
  of_status (by rw [h]) (fun b => h.blockId b) (by rw [h]) (by rw [h]; exact id)
    (by rw [h]; exact id) (by rw [h])

theorem of_endSlot (s : Slot) : Grows s (Memory.endSlot s) := by
  have hp : ∀ b : UInt8, Has (b &&& ~~~pending) failureBits → Has b failureBits := by
    decide +kernel
  have hpf : ∀ b : UInt8,
      Has (b &&& ~~~pending) failedSinceClear ↔ Has b failedSinceClear := by
    decide +kernel
  have hc : ∀ b : UInt8,
      Has (b &&& ~~~pending &&& ~~~confirmed) failureBits → Has b failureBits := by
    decide +kernel
  have hcf : ∀ b : UInt8,
      Has (b &&& ~~~pending &&& ~~~confirmed) failedSinceClear ↔ Has b failedSinceClear := by
    decide +kernel
  simp only [Memory.endSlot]
  split
  · split
    · exact of_status rfl (fun _ => rfl) rfl id (hp _) (hpf _)
    · split
      · split
        · exact of_status rfl (fun _ => rfl) rfl id (hc _) (hcf _)
        · exact of_status rfl (fun _ => rfl) rfl id (hp _) (hpf _)
      · exact of_status rfl (fun _ => rfl) rfl id (hp _) (hpf _)
  · exact .refl s

theorem of_endedSlot (s : Slot) : Grows s (Memory.endedSlot s) := by
  simp only [Memory.endedSlot]
  split
  · exact (of_endSlot s).trans
      (of_status rfl (fun _ => rfl) rfl (fun h => absurd rfl h) id Iff.rfl)
  · exact of_endSlot s

theorem failed_endedSlot (s : Slot) :
    Has (Memory.endedSlot s).status failedSinceClear ↔ Has s.status failedSinceClear := by
  have hp : ∀ b : UInt8,
      Has (b &&& ~~~pending) failedSinceClear ↔ Has b failedSinceClear := by
    decide +kernel
  have hc : ∀ b : UInt8,
      Has (b &&& ~~~pending &&& ~~~confirmed) failedSinceClear ↔ Has b failedSinceClear := by
    decide +kernel
  have hend : Has (Memory.endSlot s).status failedSinceClear ↔ Has s.status failedSinceClear := by
    simp only [Memory.endSlot]
    split
    · split
      · exact hp _
      · split
        · split
          · exact hc _
          · exact hp _
        · exact hp _
    · exact Iff.rfl
  simp only [Memory.endedSlot]
  split <;> exact hend

/-- The cycle's own bits start again. -/
theorem restart (b : UInt8) :
    (Has (Memory.restartBits b) failureBits → Has b failureBits) ∧
      (Has (Memory.restartBits b) failedSinceClear ↔ Has b failedSinceClear) := by
  revert b
  decide +kernel

theorem of_renew (s : Slot) (held waitGen : Bool) :
    Grows s ({ s with waitGen := waitGen }.renew held) :=
  of_status rfl (fun _ => rfl) rfl id id Iff.rfl

theorem of_switchOn (s : Slot) (boundary : Bool) : Grows s (Memory.switchOn s boundary) := by
  have hgen : Grows s (if s.canRenew then
      { s with waitGen := false }.renew (Has s.status testFailed)
      else { s with waitGen := true }) := by
    split
    · exact of_renew s _ _
    · exact of_status rfl (fun _ => rfl) rfl id id Iff.rfl
  simp only [Memory.switchOn]
  split
  · exact hgen.trans (of_status rfl (fun _ => rfl) rfl id (restart _).1 (restart _).2)
  · exact hgen

/-! ## Reports -/

theorem of_countCycle (s : Slot) (h : Has s.status failedSinceClear) :
    Grows s s.countCycle ∧ Has s.countCycle.status failedSinceClear := by
  have hc : ∀ b : UInt8, Has b failedSinceClear → Has (b ||| confirmed) failedSinceClear := by
    decide +kernel
  simp only [Slot.countCycle]
  split
  · exact ⟨.refl s, h⟩
  · generalize (if s.failedCycles < 255 then s.failedCycles + 1 else s.failedCycles) = c
    have h' : Has (if s.confirmAt ≤ c then s.status ||| confirmed else s.status)
        failedSinceClear := by
      split
      · exact hc _ h
      · exact h
    exact ⟨⟨rfl, fun _ => rfl, fun _ _ => h', fun _ => h'⟩, h'⟩

/-- A failure is carried since the last clear. -/
theorem of_failure (s : Slot) (df : UInt16) :
    Grows s (s.failure df) ∧ Has (s.failure df).status failedSinceClear := by
  have hf : ∀ b : UInt8,
      Has (b ||| (testFailedThisCycle ||| pending ||| failedSinceClear)) failedSinceClear := by
    decide +kernel
  simp only [Slot.failure]
  split
  · obtain ⟨hg, hs⟩ := of_countCycle { s with
      status := s.status ||| (testFailedThisCycle ||| pending ||| failedSinceClear)
      occurrence := sat16 s.occurrence df
      snapDue := if s.freeze ≠ [] ∧ s.entry = none then true else s.snapDue } (hf _)
    exact ⟨⟨hg.dtc, hg.blockId, fun _ _ => hs, fun _ => hs⟩, hs⟩
  · obtain ⟨hg, hs⟩ := of_countCycle { s with
      status := s.status ||| (testFailedThisCycle ||| pending ||| failedSinceClear) } (hf _)
    exact ⟨⟨hg.dtc, hg.blockId, fun _ _ => hs, fun _ => hs⟩, hs⟩

theorem of_count (s : Slot) (failed : Bool) (df dt : UInt16) : Grows s (s.count failed df dt) := by
  simp only [Slot.count]
  split
  · -- a failure is carried whatever the slot told before it
    obtain ⟨hg, hs⟩ := of_failure (if 0 < dt then s.tested failed else s) df
    refine ⟨hg.dtc.trans ?_, fun b => (hg.blockId b).trans ?_, fun _ _ => hs, fun _ => hs⟩ <;>
    · split <;> rfl
  · rename_i hno
    split
    · rename_i hdt
      have hfailed : failed = false := by
        cases failed with
        | false => rfl
        | true => exact absurd (.inr ⟨rfl, hdt⟩) hno
      subst hfailed
      have hp : ∀ b : UInt8, (Has (b &&& ~~~(notCompletedSinceClear ||| notCompletedThisCycle) &&&
          ~~~testFailed) failureBits → Has b failureBits) ∧
          (Has (b &&& ~~~(notCompletedSinceClear ||| notCompletedThisCycle) &&& ~~~testFailed)
            failedSinceClear ↔ Has b failedSinceClear) := by
        decide +kernel
      exact of_status rfl (fun _ => rfl) rfl id (hp _).1 (hp _).2
    · exact .refl s

theorem of_consume (s : Slot) (off active : Bool) (r : Report) : Grows s (s.consume off active r) := by
  simp only [Slot.consume]
  split
  · split
    · exact of_status rfl (fun _ => rfl) rfl id id Iff.rfl
    · exact of_status rfl (fun _ => rfl) rfl id id Iff.rfl
  · split
    · exact of_status rfl (fun _ => rfl) rfl id id Iff.rfl
    · split
      · exact of_status rfl (fun _ => rfl) rfl id id Iff.rfl
      · have hbase : Grows s { s with
            seenGen := r.gen, baseFails := r.fails, baseTests := r.tests, baseSeen := true } :=
          of_status rfl (fun _ => rfl) rfl id id Iff.rfl
        exact hbase.trans (of_count _ _ _ _)

end Grows

/-! ## Operations in between -/

namespace Memory
variable {n : ℕ}

/-- Every slot grows, and the memory knows the same image. -/
structure GrowsTo (m m' : Memory n) : Prop where
  slots : ∀ i, Grows (m.slots i) (m'.slots i)
  img : m'.img = m.img
  store : m'.store = m.store

theorem growsTo_consume (m : Memory n) (i : Fin n) (r : Report) : GrowsTo m (m.consume i r) where
  slots j := by
    rw [consume, slots_setSlot]
    split
    · rename_i h
      subst h
      exact .of_consume _ _ _ _
    · exact .refl _
  img := rfl
  store := rfl

theorem growsTo_capture (m : Memory n) (dids : List (UInt16 × List UInt8)) :
    GrowsTo m (m.capture dids) where
  slots i := .of_taken ((m.taken_capture dids).1 i)
  img := (m.taken_capture dids).2.img
  store := (m.taken_capture dids).2.store

theorem growsTo_cycleEnd (m : Memory n) : GrowsTo m m.cycleEnd where
  slots i := by
    rw [slots_cycleEnd]
    split
    · exact .of_endedSlot _
    · exact .refl _
  img := m.framed_cycleEnd.img
  store := m.framed_cycleEnd.store

theorem growsTo_cycleStart (m : Memory n) : GrowsTo m m.cycleStart := by
  let m₁ := if m.cycleActive then ({ m with ending := false } : Memory n).cycleEnd
    else { m with ending := false }
  have h₁ : GrowsTo m m₁ := by
    simp only [m₁]
    split
    · have := growsTo_cycleEnd ({ m with ending := false } : Memory n)
      exact ⟨this.slots, this.img, this.store⟩
    · exact ⟨fun _ => .refl _, rfl, rfl⟩
  let m₂ := if m₁.settingOff then { m₁ with boundaryOff := true } else m₁
  have h₂ : GrowsTo m m₂ := by
    simp only [m₂]
    split
    · exact ⟨h₁.slots, h₁.img, h₁.store⟩
    · exact h₁
  refine ⟨fun i => (h₂.slots i).trans ?_, h₂.img, h₂.store⟩
  change Grows (m₂.slots i) { m₂.slots i with
    status := if m₂.settingOff then (m₂.slots i).status else restartBits (m₂.slots i).status
    failedCycle := false
    testedCycle := false }
  refine .of_status rfl (fun _ => rfl) rfl id ?_ ?_
  · dsimp only
    split
    · exact id
    · exact (Grows.restart _).1
  · dsimp only
    split
    · exact Iff.rfl
    · exact (Grows.restart _).2

theorem growsTo_endCycleAfter (m : Memory n) (now grace : UInt64) :
    GrowsTo m (m.endCycleAfter now grace) := by
  simp only [endCycleAfter]
  split <;> exact ⟨fun _ => .refl _, rfl, rfl⟩

theorem growsTo_setSetting (m : Memory n) (on : Bool) : GrowsTo m (m.setSetting on) := by
  simp only [setSetting]
  split
  · exact ⟨fun i => .of_switchOn _ _, rfl, rfl⟩
  · exact ⟨fun _ => .refl _, rfl, rfl⟩

/-! ## Clearing -/

theorem framed_clearNamed (m : Memory n) (group : UInt32) : Framed m (m.clearNamed group) := by
  refine List.foldlRecOn (motive := fun m' : Memory n => Framed m m') _ _ (.refl m) ?_
  intro m' h i _
  split
  · simp only [clearOne]
    split
    · have hf := h.trans (m'.framed_freeEntry i)
      exact ⟨hf.img, hf.store, hf.settingOff, hf.cycleActive⟩
    · exact ⟨h.img, h.store, h.settingOff, h.cycleActive⟩
  · exact h

@[simp] theorem img_clearNamed (m : Memory n) (group : UInt32) :
    (m.clearNamed group).img = m.img := (m.framed_clearNamed group).img
@[simp] theorem store_clearNamed (m : Memory n) (group : UInt32) :
    (m.clearNamed group).store = m.store := (m.framed_clearNamed group).store

/-- How a clear goes: refused at once with nothing touched, refused by the store, or done. -/
theorem clear_cases (m : Memory n) (st : Store) (group : UInt32) :
    (((m.clear st group).1 = 0x22 ∨ (m.clear st group).1 = 0x31) ∧
      (m.clear st group).2 = (m, st)) ∨
    ((m.clear st group).1 = 0x72 ∧ (m.persistClear st group).1 = false ∧
      (m.clear st group).2 = (m.persistClear st group).2) ∨
    ((m.clear st group).1 = 0 ∧ (m.persistClear st group).1 = true ∧
      (∀ i, Names group (m.slots i).dtc → (m.slots i).canRenew) ∧
      (m.clear st group).2 =
        ((m.persistClear st group).2.1.clearNamed group, (m.persistClear st group).2.2)) := by
  simp only [clear]
  split
  · exact .inl ⟨.inl rfl, rfl⟩
  · rename_i hr
    split
    · exact .inl ⟨.inr rfl, rfl⟩
    · right
      split
      · rename_i hp
        exact .inl ⟨rfl, by simpa using hp, rfl⟩
      · rename_i hp
        refine .inr ⟨rfl, by simpa using hp, fun i hi => ?_, rfl⟩
        by_contra hc
        exact hr ⟨i, hi, hc⟩

theorem persistClear_of_none {m : Memory n} (h : m.store = none) (st : Store) (group : UInt32) :
    m.persistClear st group = (true, { m with wrote := 0 }, st) := by
  simp only [persistClear, h]

/-- Without a store a clear is refused only for want of a fresh generation. -/
theorem clear_of_none {m : Memory n} (h : m.store = none) (st : Store) {group : UInt32}
    (hn : ∃ i, Names group (m.slots i).dtc)
    (hc : ∀ i, Names group (m.slots i).dtc → (m.slots i).canRenew) :
    m.clear st group = (0, ({ m with wrote := 0 } : Memory n).clearNamed group, st) := by
  rw [clear, if_neg (fun ⟨i, hi, hno⟩ => hno (hc i hi)), if_neg (not_not.mpr hn),
    persistClear_of_none h]
  rfl

end Memory

end BloblyEmb.Fault
