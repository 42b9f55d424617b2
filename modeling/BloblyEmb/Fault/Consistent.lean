import BloblyEmb.Fault.Counting

/-!
# The status byte is consistent

In every state a unit can reach, over any number of lives with any configurations, the bits of each
status byte agree with one another, and a DTC that holds a snapshot entry is pending or confirmed.
The image in the store is consistent in the same way, so that a restore brings nothing else back.
-/
namespace BloblyEmb.Fault

/-! ## One slot -/

/-- The bits of a status byte agree. -/
def Agrees (b : UInt8) : Prop :=
  (Has b (pending ||| confirmed ||| testFailed ||| testFailedThisCycle) → Has b failedSinceClear) ∧
    (Has b failedSinceClear → ¬Has b notCompletedSinceClear) ∧
    (Has b testFailedThisCycle → ¬Has b notCompletedThisCycle)

instance (b : UInt8) : Decidable (Agrees b) := inferInstanceAs (Decidable (_ ∧ _))

/-- The status agrees, and a slot with an entry is pending or confirmed. -/
structure Consistent (s : Slot) : Prop where
  status : Agrees s.status
  entry : s.entry ≠ none → Has s.status (pending ||| confirmed)

namespace Consistent
variable {s s' : Slot}

theorem of_kept (h : Consistent s) (hk : Kept s s') : Consistent s' := by
  rw [hk]
  exact ⟨h.status, h.entry⟩

theorem of_taken (h : Consistent s) (ht : Taken s s') : Consistent s' := by
  refine ⟨ht.status ▸ h.status, fun he => ?_⟩
  rw [ht.status]
  rcases ht.entry he with he | hp
  · exact h.entry he
  · exact hp

theorem status_endSlot (h : Agrees s.status) : Agrees (Memory.endSlot s).status := by
  have hp : ∀ b : UInt8, Agrees b → Agrees (b &&& ~~~pending) := by
    decide +kernel
  have hc : ∀ b : UInt8, Agrees b → Agrees (b &&& ~~~pending &&& ~~~confirmed) := by
    decide +kernel
  simp only [Memory.endSlot]
  split
  · split
    · exact hp _ h
    · split
      · split
        · exact hc _ h
        · exact hp _ h
      · exact hp _ h
  · exact h

/-- The end of a cycle frees the entry of a DTC that is neither pending nor confirmed any more. -/
theorem endedSlot (h : Consistent s) : Consistent (Memory.endedSlot s) := by
  have hst := status_endSlot h.status
  simp only [Memory.endedSlot]
  split
  · exact ⟨hst, fun he => absurd rfl he⟩
  · rename_i hno
    refine ⟨hst, fun he => ?_⟩
    by_cases hp : Has (Memory.endSlot s).status (pending ||| confirmed)
    · exact hp
    · exact absurd ⟨he, hp⟩ hno

theorem restart (b : UInt8) :
    (Agrees b → Agrees (Memory.restartBits b)) ∧
      (Has b (pending ||| confirmed) → Has (Memory.restartBits b) (pending ||| confirmed)) := by
  revert b
  decide +kernel

theorem cycleStart (h : Consistent s) (off : Bool) :
    Consistent { s with
      status := if off then s.status else Memory.restartBits s.status
      failedCycle := false
      testedCycle := false } := by
  cases off with
  | true => exact ⟨h.status, h.entry⟩
  | false => exact ⟨(restart _).1 h.status, fun he => (restart _).2 (h.entry he)⟩

theorem switchOn (h : Consistent s) (boundary : Bool) : Consistent (Memory.switchOn s boundary) := by
  have hgen : Consistent (if s.canRenew then
      { s with waitGen := false }.renew (Has s.status testFailed)
      else { s with waitGen := true }) := by
    split
    · exact ⟨h.status, h.entry⟩
    · exact ⟨h.status, h.entry⟩
  simp only [Memory.switchOn]
  split
  · exact ⟨(restart _).1 hgen.status, fun he => (restart _).2 (hgen.entry he)⟩
  · exact hgen

theorem clearSlot (s : Slot) : Consistent (Memory.clearSlot { s with entry := none }) :=
  ⟨(by decide : Agrees statusCleared), fun he => absurd rfl he⟩

/-! ## Reports -/

theorem status_tested (b : UInt8) (failed : Bool) :
    let b' := b &&& ~~~(notCompletedSinceClear ||| notCompletedThisCycle)
    let t := if failed then b' ||| testFailed else b' &&& ~~~testFailed
    (Agrees b → failed = false → Agrees t) ∧
      Agrees (t ||| (testFailedThisCycle ||| pending ||| failedSinceClear)) ∧
      Agrees ((t ||| (testFailedThisCycle ||| pending ||| failedSinceClear)) ||| confirmed) ∧
      (Has b (pending ||| confirmed) → Has t (pending ||| confirmed)) := by
  revert b failed
  decide +kernel

theorem pending_failure (b : UInt8) :
    Has (b ||| (testFailedThisCycle ||| pending ||| failedSinceClear)) (pending ||| confirmed) ∧
      Has ((b ||| (testFailedThisCycle ||| pending ||| failedSinceClear)) ||| confirmed)
        (pending ||| confirmed) := by
  revert b
  decide +kernel

/-- The status after a failure: its bits are set, and the confirmed bit may be. -/
theorem status_failure (s : Slot) (df : UInt16) :
    (s.failure df).status = s.status ||| (testFailedThisCycle ||| pending ||| failedSinceClear) ∨
      (s.failure df).status =
        (s.status ||| (testFailedThisCycle ||| pending ||| failedSinceClear)) ||| confirmed := by
  have hcount : ∀ t : Slot, t.countCycle.status = t.status ∨
      t.countCycle.status = t.status ||| confirmed := by
    intro t
    simp only [Slot.countCycle]
    split
    · exact .inl rfl
    · generalize (if t.failedCycles < 255 then t.failedCycles + 1 else t.failedCycles) = c
      dsimp only
      split
      · exact .inr rfl
      · exact .inl rfl
  simp only [Slot.failure]
  split
  · exact hcount _
  · exact hcount _

/-- A failure after a completed test. -/
theorem count (h : Consistent s) (failed : Bool) {df dt : UInt16} (hpos : 0 < df → 0 < dt) :
    Consistent (s.count failed df dt) := by
  simp only [Slot.count]
  by_cases hdt : 0 < dt
  · rw [if_pos hdt]
    obtain ⟨hpass, hf, hfc, hpc⟩ := status_tested s.status failed
    by_cases hfail : 0 < df ∨ failed = true ∧ 0 < dt
    · rw [if_pos hfail]
      obtain ⟨hp, hpc'⟩ := pending_failure (s.tested failed).status
      rcases status_failure (s.tested failed) df with hs | hs
      · exact ⟨hs ▸ hf, fun _ => hs ▸ hp⟩
      · exact ⟨hs ▸ hfc, fun _ => hs ▸ hpc'⟩
    · rw [if_neg hfail]
      have hno : failed = false := by
        cases failed with
        | false => rfl
        | true => exact absurd (.inr ⟨rfl, hdt⟩) hfail
      exact ⟨hpass h.status hno, fun he => hpc (h.entry he)⟩
  · have hdf : ¬0 < df := fun hd => hdt (hpos hd)
    rw [if_neg hdt, if_neg]
    · exact h
    · rintro (hd | ⟨-, hd⟩)
      · exact hdf hd
      · exact hdt hd

theorem consume (h : Consistent s) (off active : Bool) {r : Report}
    (hpos : s.waitGen = false → r.gen = s.gen → 0 < s.newFails r → 0 < s.newTests r) :
    Consistent (s.consume off active r) := by
  simp only [Slot.consume]
  split
  · split
    · exact ⟨h.status, h.entry⟩
    · exact ⟨h.status, h.entry⟩
  · rename_i hw
    split
    · exact ⟨h.status, h.entry⟩
    · rename_i hg
      split
      · exact ⟨h.status, h.entry⟩
      · have hbase : Consistent { s with
            seenGen := r.gen, baseFails := r.fails, baseTests := r.tests, baseSeen := true } :=
          ⟨h.status, h.entry⟩
        exact hbase.count _ (hpos (by simpa using hw) (not_not.mp hg))

end Consistent

/-- While the setting is off no report changes a status. -/
theorem status_consume_off (s : Slot) (active : Bool) (r : Report) :
    (s.consume true active r).status = s.status := by
  simp only [Slot.consume]
  split
  · split
    · rfl
    · rfl
  · split
    · rfl
    · simp

/-! ## Images -/

/-- The flag byte of a record from which a restored slot is consistent. -/
def FlagsAgree (f : UInt8) : Prop :=
  (Has f (pending ||| confirmed) → Has f failedSinceClear) ∧
    (Has f failedSinceClear → ¬Has f notCompletedSinceClear) ∧
    (Has f imgSnapshot → Has f (pending ||| confirmed))

instance (f : UInt8) : Decidable (FlagsAgree f) := inferInstanceAs (Decidable (_ ∧ _))

namespace Memory
variable {n : ℕ}

/-- The records of an image. -/
def records (img : List UInt8) : ℕ := (img.length - 2) / imageRec

/-- The DTC a record of an image is for. -/
def recDtc (img : List UInt8) (r : ℕ) : UInt32 :=
  rdBe24 (recAt img r 0) (recAt img r 1) (recAt img r 2)

/-- A stored value that is an image has one record for a DTC, and its records agree. -/
structure ImageOk (img : List UInt8) : Prop where
  flags : IsImage img → ∀ r < records img, FlagsAgree (recAt img r 3)
  apart : IsImage img → ∀ r < records img, ∀ r' < records img, recDtc img r = recDtc img r' → r = r'

theorem flagsAgree_flagByte {m : Memory n} {i : Fin n} (h : Consistent (m.slots i)) :
    FlagsAgree (m.flagByte i) := by
  have hb : ∀ (b : UInt8) (t f s : Bool), Agrees b → (s = true → Has b (pending ||| confirmed)) →
      FlagsAgree ((b &&& persistedBits) ||| (if t then imgTested else 0) |||
        (if f then imgFailed else 0) ||| (if s then imgSnapshot else 0)) := by
    decide +kernel
  exact hb _ _ _ _ h.status fun hd => h.entry (entry_of_durable hd)

theorem flagsAgree_recordIn {m : Memory n} {i : Fin n} (h : Consistent (m.slots i))
    (c : Option UInt32) : FlagsAgree (recAt (m.image c) i 3) := by
  rw [recAt_image _ _ _ (by decide)]
  cases c with
  | none => exact flagsAgree_flagByte h
  | some group =>
    simp only [recordIn]
    split
    · exact (by decide : FlagsAgree (statusCleared &&& persistedBits))
    · exact flagsAgree_flagByte h

theorem records_image (m : Memory n) (c : Option UInt32) : records (m.image c) = n := by
  rw [records, length_image]
  simp [imageRec]

/-- Every image that is built from consistent slots is in order. -/
theorem imageOk_image {m : Memory n} (h : ∀ i, Consistent (m.slots i)) (hd : m.Distinct)
    (hn : m.Narrow) (c : Option UInt32) : ImageOk (m.image c) where
  flags _ r hr := by
    rw [records_image] at hr
    exact flagsAgree_recordIn (h ⟨r, hr⟩) c
  apart _ r hr r' hr' heq := by
    rw [records_image] at hr hr'
    have hb := (built_image hn c).dtc
    have := (hb ⟨r, hr⟩).symm.trans (heq.trans (hb ⟨r', hr'⟩))
    exact congrArg Fin.val (hd _ _ this)

/-! ## Restoring -/

/-- A slot that a restore finds is consistent if the image is in order. -/
theorem consistent_found {m : Memory n} {img : List UInt8} {i : Fin n} {s : Slot}
    (h : Found m.init img i s) (hok : ImageOk img) : Consistent s := by
  have hb : ∀ f : UInt8, FlagsAgree f → Agrees ((f &&& persistedBits) ||| notCompletedThisCycle) ∧
      (Has f imgSnapshot →
        Has ((f &&& persistedBits) ||| notCompletedThisCycle) (pending ||| confirmed)) := by
    decide +kernel
  rcases h.slot with ⟨hs, hno⟩ | ⟨r, hi, ⟨hn, -⟩, hs⟩
  · -- no record names the slot: it is as after a clear
    constructor
    · rw [hs, show (checkBlocks (m.init.slots i)).status = statusCleared by
        simp only [checkBlocks]
        split <;> rfl]
      exact (by decide : Agrees statusCleared)
    · intro he
      obtain ⟨hi, r, hn, -⟩ := h.entry he
      exact absurd hn (hno r hi)
  · obtain ⟨hst, hsnap⟩ := hb _ (hok.flags hi r hn.1)
    have hstatus : s.status = (recAt img r 3 &&& persistedBits) ||| notCompletedThisCycle := by
      rw [hs]
      rfl
    constructor
    · rw [hstatus]
      exact hst
    · intro he
      obtain ⟨-, r', hn', hflag⟩ := h.entry he
      have : r' = r := hok.apart hi r' hn'.1 r hn.1 (hn'.2.trans hn.2.symm)
      subst this
      rw [hstatus]
      exact hsnap hflag

/-- A started memory is consistent. -/
theorem consistent_boot {m : Memory n} (hd : m.Distinct) (st : Store)
    (hok : ∀ seam, m.store = some seam → ImageOk (storedImage st seam)) (i : Fin n) :
    Consistent ((Node.boot m st).mem.slots i) := by
  cases hs : m.store with
  | none =>
    rw [Node.boot_of_none hs]
    exact ⟨(by decide : Agrees statusCleared), fun he => absurd rfl he⟩
  | some seam =>
    obtain ⟨-, hslot⟩ := restore_spec (m := m.init) st hs rfl rfl hd (fun _ => rfl)
      (fun _ => rfl)
    obtain ⟨s, hf, heq⟩ := hslot i
    have hc := consistent_found hf (hok seam hs)
    rw [Node.boot, heq]
    split
    · exact hc.endedSlot
    · exact hc

/-! ## The owner's operations -/

theorem consistent_capture {m : Memory n} (h : ∀ i, Consistent (m.slots i))
    (dids : List (UInt16 × List UInt8)) (i : Fin n) : Consistent ((m.capture dids).slots i) :=
  (h i).of_taken ((m.taken_capture dids).1 i)

theorem consistent_cycleEnd {m : Memory n} (h : ∀ i, Consistent (m.slots i)) (i : Fin n) :
    Consistent (m.cycleEnd.slots i) := by
  rw [slots_cycleEnd]
  split
  · exact (h i).endedSlot
  · exact h i

theorem consistent_cycleStart {m : Memory n} (h : ∀ i, Consistent (m.slots i)) (i : Fin n) :
    Consistent (m.cycleStart.slots i) := by
  let m₁ := if m.cycleActive then ({ m with ending := false } : Memory n).cycleEnd
    else { m with ending := false }
  have h₁ : ∀ i, Consistent (m₁.slots i) := by
    simp only [m₁]
    split
    · exact consistent_cycleEnd (m := { m with ending := false }) h
    · exact h
  let m₂ := if m₁.settingOff then { m₁ with boundaryOff := true } else m₁
  have h₂ : ∀ i, Consistent (m₂.slots i) := by
    simp only [m₂]
    split
    · exact h₁
    · exact h₁
  exact (h₂ i).cycleStart m₂.settingOff

theorem consistent_setSetting {m : Memory n} (h : ∀ i, Consistent (m.slots i)) (on : Bool)
    (i : Fin n) : Consistent ((m.setSetting on).slots i) := by
  simp only [setSetting]
  split
  · exact (h i).switchOn _
  · exact h i

theorem consistent_clear {m : Memory n} (h : ∀ i, Consistent (m.slots i)) (st : Store)
    (group : UInt32) (i : Fin n) : Consistent ((m.clear st group).2.1.slots i) := by
  have hp : ∀ i, Consistent ((m.persistClear st group).2.1.slots i) := fun i =>
    (h i).of_kept ((m.persistClear_stores st group).slots i)
  rcases m.clear_cases st group with ⟨-, heq⟩ | ⟨-, -, heq⟩ | ⟨-, -, -, heq⟩
  · rw [heq]
    exact h i
  · rw [heq]
    exact hp i
  · rw [heq]
    dsimp only
    rw [slots_clearNamed]
    split
    · exact .clearSlot _
    · exact hp i

end Memory

/-! ## The stored image -/

namespace Node
variable {n : ℕ} {m : Memory n} {seam : Seam} {x : Node n}
open Memory

/-- An operation leaves the stored image in order. -/
theorem imageOk_step (h : Sound m seam x) (hc : m.Configured) (hs : m.store = some seam)
    (hx : ∀ i, Consistent (x.mem.slots i)) (hok : ImageOk (storedImage x.store seam)) (op : Op n) :
    ImageOk (storedImage (x.step op).store seam) := by
  have himage : ∀ {m₁ : Memory n}, Stores x.mem m₁ → ∀ c, ImageOk (m₁.image c) := by
    intro m₁ hm₁ c
    have hdtc : ∀ i, (m₁.slots i).dtc = (x.mem.slots i).dtc := fun i =>
      (Grows.of_kept (hm₁.slots i)).dtc
    apply imageOk_image
    · exact fun i => (hx i).of_kept (hm₁.slots i)
    · intro i j hij
      rw [hdtc, hdtc] at hij
      exact h.distinct hc i j hij
    · intro i
      rw [hdtc]
      exact h.narrow hc i
  cases op with
  | persist now flush =>
    obtain ⟨-, m₁, hm₁, hi⟩ := persist_spec x.mem x.store now flush h.store (h.foreign hc hs)
    rcases hi with ⟨hb, -⟩ | ⟨hb, -⟩
    · have : storedImage (x.step (.persist now flush)).store seam = storedImage x.store seam :=
        storedImage_congr hb
      rw [this]
      exact hok
    · rw [step, storedImage_of_block hc.fits hb]
      exact himage hm₁ none
  | clear group =>
    rcases clear_spec h hc hs group with ⟨-, -, -, -, hb⟩ | ⟨-, -, m₁, hm₁, -, hb, -⟩
    · rw [storedImage_congr hb]
      exact hok
    · rw [hb]
      exact himage hm₁ (some group)
  | consume _ _ | capture _ | cycleStart | cycleEnd | endCycleAfter _ _ | setSetting _ | reset =>
    exact hok

/-- Without a store an operation leaves every block. -/
theorem kept_step_of_none (h : x.mem.store = none) (op : Op n) : (x.step op).store = x.store := by
  cases op with
  | persist now flush => simp only [step, persist, h]
  | clear group =>
    have hp := persistClear_of_none h x.store group
    rcases x.mem.clear_cases x.store group with ⟨-, heq⟩ | ⟨-, -, heq⟩ | ⟨-, -, -, heq⟩
    · rw [step, heq]
    · rw [step, heq, hp]
    · rw [step, heq, hp]
  | consume _ _ | capture _ | cycleStart | cycleEnd | endCycleAfter _ _ | setSetting _ | reset => rfl

end Node

/-! ## Every reachable state -/

namespace Ecu
variable {n : ℕ}
open Memory

/-- The units that can come about around one store, with the tracks of their faults: a start of any
configuration on a store whose image is in order, an event that reads reports in time, and an update
to another configuration that keeps its image in the same block. -/
inductive Reach (id : UInt16) : (n : ℕ) → Ecu n → (Fin n → Track) → Prop
  | boot {n : ℕ} {m : Memory n} {st : Store} (debs : Fin n → Debounce) (hc : m.Configured)
      (hid : ∀ seam, m.store = some seam → seam.id = id) (hok : ImageOk (st.get id maxImage)) :
      Reach id n (boot m debs st) (tracks m debs st)
  | step {n : ℕ} {x : Ecu n} {a : Fin n → Track} (h : Reach id n x a) (e : Event n)
      (hb : InTime a e) :
      Reach id n (x.step e) (fun i => x.follow (some silence) i (a i) e)
  | update {n k : ℕ} {x : Ecu n} {a : Fin n → Track} (h : Reach id n x a) {m : Memory k}
      (debs : Fin k → Debounce) (hc : m.Configured)
      (hid : ∀ seam, m.store = some seam → seam.id = id) :
      Reach id k (Ecu.boot m debs x.owner.store) (tracks m debs x.owner.store)

/-- What holds of every reachable unit. -/
structure Orderly (id : UInt16) (m : Memory n) (x : Ecu n) (a : Fin n → Track) : Prop where
  config : m.Configured
  runs : Runs m x a
  sound : ∀ seam, m.store = some seam → seam.id = id ∧ Node.Sound m seam x.owner
  slots : ∀ i, Consistent (x.owner.mem.slots i)
  image : ImageOk (x.owner.store.get id maxImage)

theorem orderly_boot {id : UInt16} {m : Memory n} (debs : Fin n → Debounce) {st : Store}
    (hc : m.Configured) (hid : ∀ seam, m.store = some seam → seam.id = id)
    (hok : ImageOk (st.get id maxImage)) : Orderly id m (boot m debs st) (tracks m debs st) where
  config := hc
  runs := runs_boot hc.distinct debs st
  sound seam hs := ⟨hid seam hs, Node.sound_boot hs (fun _ => rfl) (fun _ _ => rfl) hc.distinct st⟩
  slots := consistent_boot hc.distinct st fun seam hs => by
    rw [storedImage, hid seam hs]
    exact hok
  image := hok

section
variable {id : UInt16} {m : Memory n} {x : Ecu n} {a : Fin n → Track}

/-- The owner's operation of an event. -/
def Event.op (x : Ecu n) : Event n → Option (Op n)
  | .read i => some (.consume i (x.producers i).report)
  | .owner duty => some duty.op
  | .reset => some .reset
  | _ => none

theorem owner_step (x : Ecu n) (e : Event n) :
    (x.step e).owner = match Event.op x e with
      | some op => x.owner.step op
      | none => x.owner := by
  cases e <;> rfl

/-- A report of the slot's own generation that adds a failure adds a test. -/
theorem Orderly.adds (h : Orderly id m x a) {i : Fin n}
    (hb : (a i).report.results - (a i).read < 65536)
    (hw : (x.owner.mem.slots i).waitGen = false)
    (hg : (x.producers i).report.gen = (x.owner.mem.slots i).gen)
    (hf : 0 < (x.owner.mem.slots i).newFails (x.producers i).report) :
    0 < (x.owner.mem.slots i).newTests (x.producers i).report := by
  have hsim := h.runs.sim i
  obtain ⟨hdf, hdt, hle, hlt⟩ := hsim.added hb (hsim.waiting.symm.trans hw) (hsim.gen_iff.mp hg)
  rw [hdf, Sim.pos_ofNat (by omega)] at hf
  rw [hdt, Sim.pos_ofNat hlt]
  omega

theorem Orderly.slots_step (h : Orderly id m x a) (e : Event n) (hb : InTime a e) (i : Fin n) :
    Consistent ((x.step e).owner.mem.slots i) := by
  cases e with
  | apply j | result j r now enabled | publish j | control j => exact h.slots i
  | read j =>
    simp only [step, Node.step, Memory.consume, slots_setSlot]
    split
    · rename_i hi
      subst hi
      exact (h.slots i).consume _ _ fun hw hg hf => h.adds hb hw hg hf
    · exact h.slots i
  | owner duty =>
    cases duty with
    | capture dids => exact consistent_capture h.slots dids i
    | cycleStart => exact consistent_cycleStart h.slots i
    | cycleEnd => exact consistent_cycleEnd h.slots i
    | endCycleAfter now grace =>
      simp only [step, Duty.op, Node.step, endCycleAfter]
      split <;> exact h.slots i
    | clear group => exact consistent_clear h.slots _ group i
    | setSetting on => exact consistent_setSetting h.slots on i
    | persist now flush =>
      exact (h.slots i).of_kept ((x.owner.mem.persist_stores x.owner.store now flush).slots i)
  | reset =>
    refine consistent_boot (h.runs.distinct h.config.distinct) _ (fun seam hs => ?_) i
    rw [h.runs.store] at hs
    rw [storedImage, (h.sound seam hs).1]
    exact h.image

theorem Orderly.image_step (h : Orderly id m x a) (e : Event n) :
    ImageOk ((x.step e).owner.store.get id maxImage) := by
  rw [owner_step]
  cases hop : Event.op x e with
  | none => exact h.image
  | some op =>
    cases hs : m.store with
    | none =>
      dsimp only
      rw [Node.kept_step_of_none (h.runs.store.trans hs)]
      exact h.image
    | some seam =>
      obtain ⟨hid, hsound⟩ := h.sound seam hs
      have := h.image
      rw [← hid] at this ⊢
      exact Node.imageOk_step hsound h.config hs h.slots this op

theorem Orderly.step (h : Orderly id m x a) (e : Event n) (hb : InTime a e) :
    Orderly id m (x.step e) (fun i => x.follow (some silence) i (a i) e) where
  config := h.config
  runs := runs_step h.runs h.config.distinct e hb
  sound seam hs := by
    obtain ⟨hid, hsound⟩ := h.sound seam hs
    refine ⟨hid, ?_⟩
    rw [owner_step]
    split
    · exact Node.sound_step hsound h.config hs _
    · exact hsound
  slots := h.slots_step e hb
  image := h.image_step e

end

theorem Reach.orderly {id : UInt16} {x : Ecu n} {a : Fin n → Track} (h : Reach id n x a) :
    ∃ m, Orderly id m x a := by
  induction h with
  | boot debs hc hid hok => exact ⟨_, orderly_boot debs hc hid hok⟩
  | step _ e hb ih =>
    obtain ⟨m, ih⟩ := ih
    exact ⟨m, ih.step e hb⟩
  | update _ debs hc hid ih =>
    obtain ⟨m, ih⟩ := ih
    exact ⟨_, orderly_boot debs hc hid ih.image⟩

/-- An event of a producer, or of the owner when it reads a report or publishes a control. -/
def Event.Reports : Event n → Prop
  | .owner _ | .reset => False
  | _ => True

/-- While the setting is off reports leave every status. -/
theorem status_reports {x : Ecu n} (hoff : x.owner.mem.settingOff = true) (es : List (Event n))
    (hes : ∀ e ∈ es, Event.Reports e) (i : Fin n) :
    ((es.foldl step x).owner.mem.slots i).status = (x.owner.mem.slots i).status := by
  induction es generalizing x with
  | nil => rfl
  | cons e es ih =>
    have hrest : ∀ e' ∈ es, Event.Reports e' := fun e' he' => hes e' (List.mem_cons_of_mem _ he')
    have he := hes e List.mem_cons_self
    have hstep : (x.step e).owner.mem.settingOff = true ∧
        ((x.step e).owner.mem.slots i).status = (x.owner.mem.slots i).status := by
      cases e with
      | apply j | result j r now enabled | publish j | control j => exact ⟨hoff, rfl⟩
      | owner duty => exact he.elim
      | reset => exact he.elim
      | read j =>
        refine ⟨hoff, ?_⟩
        simp only [step, Node.step, Memory.consume, slots_setSlot]
        split
        · rename_i hi
          subst hi
          rw [hoff, status_consume_off]
        · rfl
    rw [List.foldl_cons, ih hstep.1 hrest, hstep.2]

/-- In every reachable unit the bits of each status agree and a DTC with an entry is pending or
confirmed; and while the setting is off no report changes a status. -/
theorem status_consistent {id : UInt16} {x : Ecu n} {a : Fin n → Track} (h : Reach id n x a) :
    (∀ i, Consistent (x.owner.mem.slots i)) ∧
      (x.owner.mem.settingOff = true → ∀ es : List (Event n), (∀ e ∈ es, Event.Reports e) → ∀ i,
        ((es.foldl step x).owner.mem.slots i).status = (x.owner.mem.slots i).status) := by
  obtain ⟨m, hm⟩ := h.orderly
  exact ⟨hm.slots, fun hoff es hes i => status_reports hoff es hes i⟩

/-- A unit with one DTC that starts on an empty store, opens a cycle and fails. -/
def failing : Ecu 1 :=
  [.owner .cycleStart, .result 0 .failed 0 true, .publish 0].foldl step
    (boot Node.oneFault (fun _ => singleResult) Node.blankStore)

/-- Its status agrees once the failure is read. -/
theorem status_consistent_failing :
    (∀ i, Consistent ((failing.step (.read 0)).owner.mem.slots i)) ∧
      ((failing.step (.read 0)).owner.mem.settingOff = true → ∀ es : List (Event 1),
        (∀ e ∈ es, Event.Reports e) → ∀ i,
          ((es.foldl step (failing.step (.read 0))).owner.mem.slots i).status =
            ((failing.step (.read 0)).owner.mem.slots i).status) := by
  have hid : ∀ seam, Node.oneFault.store = some seam → seam.id = 1 := by
    intro seam hs
    cases hs
    rfl
  have hempty : ImageOk (Node.blankStore.get 1 maxImage) :=
    ⟨fun hi => absurd hi (by decide), fun hi => absurd hi (by decide)⟩
  have hboot : Reach 1 1 (boot Node.oneFault (fun _ => singleResult) Node.blankStore) _ :=
    .boot (fun _ => singleResult) Node.configured_oneFault hid hempty
  have hfail : Reach 1 1 failing _ :=
    ((hboot.step (.owner .cycleStart) trivial).step (.result 0 .failed 0 true) trivial).step
      (.publish 0) trivial
  exact status_consistent (hfail.step (.read 0) (by decide +kernel))

end Ecu

end BloblyEmb.Fault
