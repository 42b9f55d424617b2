import BloblyEmb.Fault.Run

/-!
# Clearing is atomic

A clear that is refused leaves every DTC and the stored image as they were. A clear that succeeds
leaves the stored image with the records it cleared, and from then on the stored image tells of a
failure of such a DTC only if the memory has counted one since.
-/
namespace BloblyEmb.Fault
namespace Memory
variable {n : ℕ}

/-! ## What a record tells -/

/-- The bits by which a record tells of a failure. -/
def recordBits : UInt8 := pending ||| confirmed ||| failedSinceClear ||| imgSnapshot

/-- Record `r` tells of no failure that it does not carry since the last clear. -/
def RecTold (img : List UInt8) (r : ℕ) : Prop :=
  Has (recAt img r 3) recordBits ∨ rdBe16 (recAt img r 6) (recAt img r 7) ≠ 0 →
    Has (recAt img r 3) failedSinceClear

/-- Record `r` carries a failure since the last clear. -/
abbrev RecFailed (img : List UInt8) (r : ℕ) : Prop := Has (recAt img r 3) failedSinceClear

/-- The record of slot `i` in a built image. -/
theorem recAt_record {m : Memory n} {c : Option UInt32} {i : Fin n}
    (h : m.recordIn c i = m.record i) :
    recAt (m.image c) i 3 = m.flagByte i ∧
      rdBe16 (recAt (m.image c) i 6) (recAt (m.image c) i 7) = (m.slots i).occurrence := by
  rw [recAt_image _ _ _ (by decide), recAt_image _ _ _ (by decide), recAt_image _ _ _ (by decide), h]
  exact ⟨rfl, rdBe16_be16 _⟩

theorem recAt_cleared {m : Memory n} {c : Option UInt32} {i : Fin n}
    (h : m.recordIn c i = clearedRecord (m.slots i)) :
    recAt (m.image c) i 3 = statusCleared &&& persistedBits ∧
      rdBe16 (recAt (m.image c) i 6) (recAt (m.image c) i 7) = 0 := by
  rw [recAt_image _ _ _ (by decide), recAt_image _ _ _ (by decide), recAt_image _ _ _ (by decide), h]
  exact ⟨rfl, (by decide : rdBe16 0 0 = 0)⟩

theorem flagByte_failed (m : Memory n) (i : Fin n) :
    (Has (m.flagByte i) failedSinceClear ↔ Has (m.slots i).status failedSinceClear) ∧
      (Has (m.flagByte i) recordBits →
        Has (m.slots i).status failureBits ∨ (m.durableBlock i).isSome) := by
  have h : ∀ (b : UInt8) (t f s : Bool),
      (Has ((b &&& persistedBits) ||| (if t then imgTested else 0) |||
        (if f then imgFailed else 0) ||| (if s then imgSnapshot else 0)) failedSinceClear ↔
        Has b failedSinceClear) ∧
      (Has ((b &&& persistedBits) ||| (if t then imgTested else 0) |||
        (if f then imgFailed else 0) ||| (if s then imgSnapshot else 0)) recordBits →
        Has b failureBits ∨ s = true) := by
    decide +kernel
  exact h _ _ _ _

theorem entry_of_durable {m : Memory n} {i : Fin n} (h : (m.durableBlock i).isSome) :
    (m.slots i).entry ≠ none := by
  intro hno
  rw [durableBlock, hno] at h
  cases h

/-- The record of a slot tells what the slot tells. -/
theorem recTold_record {m : Memory n} {c : Option UInt32} {i : Fin n}
    (h : m.recordIn c i = m.record i) (ht : Told (m.slots i)) :
    RecTold (m.image c) i ∧
      (RecFailed (m.image c) i ↔ Has (m.slots i).status failedSinceClear) := by
  obtain ⟨hf, ho⟩ := recAt_record h
  obtain ⟨hfail, hbits⟩ := m.flagByte_failed i
  constructor
  · intro hrec
    rw [hf, hfail]
    rw [hf, ho] at hrec
    rcases hrec with hrec | hrec
    · rcases hbits hrec with hs | hd
      · exact ht (.inl hs)
      · exact ht (.inr (.inr (entry_of_durable hd)))
    · exact ht (.inr (.inl hrec))
  · rw [RecFailed, hf, hfail]

theorem recTold_cleared {m : Memory n} {c : Option UInt32} {i : Fin n}
    (h : m.recordIn c i = clearedRecord (m.slots i)) :
    RecTold (m.image c) i ∧ ¬RecFailed (m.image c) i := by
  obtain ⟨hf, ho⟩ := recAt_cleared h
  refine ⟨fun hrec => absurd hrec ?_, ?_⟩
  · rw [hf, ho]
    decide
  · rw [RecFailed, hf]
    decide

/-- A slot restored from a record tells what the record tells. -/
theorem restoredSlot_told {s : Slot} {img : List UInt8} {r : ℕ} (h : RecTold img r)
    (hentry : s.entry ≠ none → RecFailed img r) :
    Told (restoredSlot s img r) ∧
      (Has (restoredSlot s img r).status failedSinceClear ↔ RecFailed img r) := by
  have hb : ∀ b : UInt8,
      (Has ((b &&& persistedBits) ||| notCompletedThisCycle) failedSinceClear ↔
        Has b failedSinceClear) ∧
      (Has ((b &&& persistedBits) ||| notCompletedThisCycle) failureBits → Has b recordBits) := by
    decide +kernel
  obtain ⟨hf, hbits⟩ := hb (recAt img r 3)
  refine ⟨fun hs => ?_, hf⟩
  refine hf.mpr ?_
  rcases hs with hs | hs | hs
  · exact h (.inl (hbits hs))
  · exact h (.inr hs)
  · exact hentry hs

/-! ## Images built by this firmware -/

/-- The image has one record for every configured DTC, in their order. -/
structure Built (m : Memory n) (img : List UInt8) : Prop where
  image : IsImage img
  length : img.length = 2 + n * imageRec
  dtc : ∀ r : Fin n, rdBe24 (recAt img r 0) (recAt img r 1) (recAt img r 2) = (m.slots r).dtc

/-- Every DTC has 24 bits. -/
def Narrow (m : Memory n) : Prop := ∀ i, (m.slots i).dtc < 0x1000000

theorem built_image {m : Memory n} (h : m.Narrow) (c : Option UInt32) : m.Built (m.image c) where
  image := m.isImage_image c
  length := m.length_image c
  dtc r := by
    have hdtc : ∀ k < 3, (m.recordIn c r).getD k 0 = (be24 (m.slots r).dtc).getD k 0 := by
      intro k hk
      have : m.recordIn c r = m.record r ∨ m.recordIn c r = clearedRecord (m.slots r) := by
        cases c with
        | none => exact .inl rfl
        | some group =>
          simp only [recordIn]
          split
          · exact .inr rfl
          · exact .inl rfl
      have hplace : k = 0 ∨ k = 1 ∨ k = 2 := by omega
      rcases this with h | h <;> rw [h] <;> rcases hplace with rfl | rfl | rfl <;> rfl
    rw [recAt_image _ _ _ (by decide), recAt_image _ _ _ (by decide),
      recAt_image _ _ _ (by decide), hdtc 0 (by omega), hdtc 1 (by omega), hdtc 2 (by omega)]
    exact rdBe24_be24 (h r)

/-- The record of a built image that names a DTC is the DTC's own. -/
theorem Built.names {m : Memory n} {img : List UInt8} (h : m.Built img) (hd : m.Distinct) {k : ℕ}
    {m' : Memory k} {r : ℕ} {j : Fin k} {i : Fin n} (hn : m'.NamesSlot img r j)
    (hj : (m'.slots j).dtc = (m.slots i).dtc) : r = i := by
  obtain ⟨hr, hdtc⟩ := hn
  rw [h.length] at hr
  have hr' : r < n := by simpa [imageRec] using hr
  have := h.dtc ⟨r, hr'⟩
  exact congrArg Fin.val (hd ⟨r, hr'⟩ i (this.symm.trans (hdtc.trans hj)))

theorem Built.of_dtc {m m' : Memory n} {img : List UInt8} (h : m.Built img)
    (hd : ∀ i, (m'.slots i).dtc = (m.slots i).dtc) : m'.Built img :=
  ⟨h.image, h.length, fun r => (h.dtc r).trans (hd r).symm⟩

/-- What a generated configuration promises. -/
structure Configured (m : Memory n) : Prop where
  fits : n ≤ maxFaults
  distinct : m.Distinct
  narrow : m.Narrow
  apart : ∀ seam, m.store = some seam → m.Foreign seam.id

theorem storedImage_of_block {m : Memory n} {st : Store} {seam : Seam} {c : Option UInt32}
    (hn : n ≤ maxFaults) (h : st.blocks seam.id = m.image c) :
    storedImage st seam = m.image c := by
  have := Nat.mul_le_mul_right imageRec hn
  rw [storedImage, Store.get, h, List.take_of_length_le]
  rw [length_image, maxImage]
  omega

theorem storedImage_congr {st st' : Store} {seam : Seam}
    (h : st'.blocks seam.id = st.blocks seam.id) : storedImage st' seam = storedImage st seam := by
  rw [storedImage, storedImage, Store.get, Store.get, h]

end Memory

/-! ## What the memory knows of its store -/

namespace Node
variable {n : ℕ}
open Memory

/-- The memory is configured as `m` is, and knows the image its store holds. -/
structure Sound (m : Memory n) (seam : Seam) (x : Node n) : Prop where
  store : x.mem.store = some seam
  dtc : ∀ i, (x.mem.slots i).dtc = (m.slots i).dtc
  blockId : ∀ i b, (x.mem.slots i).blockId b = (m.slots i).blockId b
  known : x.mem.img = known (storedImage x.store seam)

section
variable {m : Memory n} {seam : Seam} {x : Node n}

theorem Sound.distinct (h : Sound m seam x) (hc : m.Configured) : x.mem.Distinct := by
  intro i j hij
  rw [h.dtc, h.dtc] at hij
  exact hc.distinct i j hij

theorem Sound.narrow (h : Sound m seam x) (hc : m.Configured) : x.mem.Narrow := by
  intro i
  rw [h.dtc]
  exact hc.narrow i

theorem Sound.foreign (h : Sound m seam x) (hc : m.Configured) (hs : m.store = some seam) :
    x.mem.Foreign seam.id := by
  intro i b
  rw [h.blockId]
  exact hc.apart seam hs i b

theorem Sound.of_growsTo (h : Sound m seam x) {m' : Memory n} (hg : x.mem.GrowsTo m') :
    Sound m seam ⟨m', x.store⟩ where
  store := hg.store.trans h.store
  dtc i := (hg.slots i).dtc.trans (h.dtc i)
  blockId i b := ((hg.slots i).blockId b).trans (h.blockId i b)
  known := hg.img.trans h.known

/-- An operation that leaves the stored image or replaces it by a built one. -/
theorem Sound.of_imaged (h : Sound m seam x) (hc : m.Configured) {m' : Memory n} {st' : Store}
    (hstore : m'.store = x.mem.store) (hdtc : ∀ i, (m'.slots i).dtc = (x.mem.slots i).dtc)
    (hblk : ∀ i b, (m'.slots i).blockId b = (x.mem.slots i).blockId b) (m₁ : Memory n)
    (c : Option UInt32) (hi : Imaged seam.id x.mem x.store m' st' (m₁.image c)) :
    Sound m seam ⟨m', st'⟩ := by
  refine ⟨hstore.trans h.store, fun i => (hdtc i).trans (h.dtc i),
    fun i b => (hblk i b).trans (h.blockId i b), ?_⟩
  rcases hi with ⟨hb, himg⟩ | ⟨hb, himg⟩
  · rw [himg, storedImage_congr hb]
    exact h.known
  · dsimp only
    rw [himg, storedImage_of_block hc.fits hb, known_of_image (m₁.isImage_image c)]

/-- A slot as a restore finds it is the configured one. -/
theorem found_config {m : Memory n} {img : List UInt8} {i : Fin n} {s : Slot}
    (h : Found m img i s) :
    s.dtc = (m.slots i).dtc ∧ ∀ b, s.blockId b = (m.slots i).blockId b := by
  have hcheck : ∀ b, (checkBlocks (m.slots i)).blockId b = (m.slots i).blockId b := by
    intro b
    simp only [checkBlocks]
    split
    · cases b <;> rfl
    · rfl
  rcases h.slot with ⟨hs, -⟩ | ⟨r, -, -, hs⟩ <;>
  · rw [hs]
    exact ⟨dtc_checkBlocks _, hcheck⟩

theorem sound_boot {m' : Memory n} (hs : m'.store = some seam)
    (hdtc : ∀ i, (m'.slots i).dtc = (m.slots i).dtc)
    (hblk : ∀ i b, (m'.slots i).blockId b = (m.slots i).blockId b) (hd : m'.Distinct) (st : Store) :
    Sound m seam (boot m' st) := by
  obtain ⟨hframe, hslot⟩ := restore_spec (m := m'.init) st hs rfl rfl hd
    (fun _ => rfl) (fun _ => rfl)
  refine ⟨hframe.store.trans hs, fun i => ?_, fun i b => ?_, hframe.img⟩
  · obtain ⟨s, hf, heq⟩ := hslot i
    rw [boot, heq]
    split
    · exact (Grows.of_endedSlot s).dtc.trans ((found_config hf).1.trans (hdtc i))
    · exact (found_config hf).1.trans (hdtc i)
  · obtain ⟨s, hf, heq⟩ := hslot i
    have hb := ((found_config hf).2 b).trans (hblk i b)
    rw [boot, heq]
    split
    · exact ((Grows.of_endedSlot s).blockId b).trans hb
    · exact hb

theorem clearSlot_config (s : Slot) :
    (clearSlot { s with entry := none }).dtc = s.dtc ∧
      ∀ b, (clearSlot { s with entry := none }).blockId b = s.blockId b :=
  ⟨rfl, fun b => by cases b <;> rfl⟩

/-- How a clear leaves the slots and the image of a sound node. -/
theorem clear_spec (h : Sound m seam x) (hc : m.Configured) (hs : m.store = some seam)
    (group : UInt32) :
    let y := x.step (.clear group)
    ((x.mem.clear x.store group).1 ≠ 0 ∧ Stores x.mem y.mem ∧
      (∀ i, ∃ live, y.mem.slots i = { x.mem.slots i with live := live }) ∧
      y.mem.img = x.mem.img ∧ y.store.blocks seam.id = x.store.blocks seam.id) ∨
    ((x.mem.clear x.store group).1 = 0 ∧ y.mem.store = x.mem.store ∧ ∃ m₁, Stores x.mem m₁ ∧
      y.mem.img = m₁.image (some group) ∧ storedImage y.store seam = m₁.image (some group) ∧
      ∀ i, ∃ s, Kept (x.mem.slots i) s ∧ y.mem.slots i =
        if Names group (x.mem.slots i).dtc then clearSlot { s with entry := none } else s) := by
  intro y
  obtain ⟨hst, hno, hyes⟩ := persistClear_spec x.mem x.store group h.store (h.foreign hc hs)
  rcases x.mem.clear_cases x.store group with ⟨hcode, heq⟩ | ⟨hcode, hp, heq⟩ | ⟨hcode, hp, -, heq⟩
  · left
    refine ⟨by rcases hcode with hcode | hcode <;> rw [hcode] <;> decide, ?_⟩
    simp only [y, step, heq]
    exact ⟨.refl _, fun i => ⟨_, rfl⟩, trivial, trivial⟩
  · left
    obtain ⟨hlive, himg, hblk⟩ := hno hp
    refine ⟨by rw [hcode]; decide, ?_⟩
    simp only [y, step, heq]
    exact ⟨hst, fun i => ⟨_, hlive i⟩, himg, hblk⟩
  · right
    obtain ⟨m₁, hm₁, himg, hblk⟩ := hyes hp
    refine ⟨hcode, ?_⟩
    simp only [y, step, heq, img_clearNamed, store_clearNamed, slots_clearNamed]
    refine ⟨hst.store, m₁, hm₁, himg, ?_, fun i => ⟨_, hst.slots i, ?_⟩⟩
    · rcases hblk with ⟨hblk, hknown⟩ | hblk
      · rw [storedImage_congr hblk]
        -- the memory already knew the cleared image, so the store held it
        have hk := h.known
        rw [hknown, known] at hk
        split at hk
        · exact hk.symm
        · have := congrArg List.length hk
          simp at this
      · exact storedImage_of_block hc.fits hblk
    · rw [(Grows.of_kept (hst.slots i)).dtc]

theorem sound_step (h : Sound m seam x) (hc : m.Configured) (hs : m.store = some seam) (op : Op n) :
    Sound m seam (x.step op) := by
  cases op with
  | consume i r => exact h.of_growsTo (growsTo_consume _ _ _)
  | capture dids => exact h.of_growsTo (growsTo_capture _ _)
  | cycleStart => exact h.of_growsTo (growsTo_cycleStart _)
  | cycleEnd => exact h.of_growsTo (growsTo_cycleEnd _)
  | endCycleAfter now grace => exact h.of_growsTo (growsTo_endCycleAfter _ _ _)
  | setSetting on => exact h.of_growsTo (growsTo_setSetting _ _)
  | persist now flush =>
    obtain ⟨hst, m₁, -, hi⟩ := persist_spec x.mem x.store now flush h.store (h.foreign hc hs)
    exact h.of_imaged hc hst.store (fun i => (Grows.of_kept (hst.slots i)).dtc)
      (fun i => (Grows.of_kept (hst.slots i)).blockId) m₁ none hi
  | clear group =>
    rcases clear_spec h hc hs group with ⟨-, hst, -, himg, hblk⟩ |
        ⟨-, hstore, m₁, -, himg, hblk, hslot⟩
    · exact h.of_imaged hc hst.store (fun i => (Grows.of_kept (hst.slots i)).dtc)
        (fun i => (Grows.of_kept (hst.slots i)).blockId) m none (.inl ⟨hblk, himg⟩)
    · refine ⟨hstore.trans h.store, fun i => ?_, fun i b => ?_, ?_⟩
      · obtain ⟨s, hk, heq⟩ := hslot i
        rw [heq, ← h.dtc]
        split
        · exact (clearSlot_config s).1.trans (Grows.of_kept hk).dtc
        · exact (Grows.of_kept hk).dtc
      · obtain ⟨s, hk, heq⟩ := hslot i
        rw [heq, ← h.blockId]
        split
        · exact ((clearSlot_config s).2 b).trans ((Grows.of_kept hk).blockId b)
        · exact (Grows.of_kept hk).blockId b
      · rw [himg, hblk, known_of_image (m₁.isImage_image _)]
  | reset => exact sound_boot h.store h.dtc h.blockId (h.distinct hc) _

theorem sound_run (h : Sound m seam x) (hc : m.Configured) (hs : m.store = some seam)
    (ops : List (Op n)) : Sound m seam (x.run ops) :=
  List.foldlRecOn ops step h fun _ hx op _ => sound_step hx hc hs op

/-! ## A cleared DTC -/

/-- From a clear of slot `i` on: the stored image tells of a failure of its DTC only if the memory
has counted one since. -/
structure Stays (m : Memory n) (seam : Seam) (i : Fin n) (x : Node n) : Prop where
  sound : Sound m seam x
  told : Told (x.mem.slots i)
  built : x.mem.Built (storedImage x.store seam)
  record : RecTold (storedImage x.store seam) i
  follows : RecFailed (storedImage x.store seam) i → Has (x.mem.slots i).status failedSinceClear

/-- Slot `j` of a restored memory, when its DTC is that of slot `i`. -/
theorem Stays.restored {i : Fin n} (h : Stays m seam i x) (hc : m.Configured) {k : ℕ}
    {m' : Memory k} (hs : m'.store = some seam) (hd : m'.Distinct) {j : Fin k}
    (hj : (m'.slots j).dtc = (m.slots i).dtc) :
    Told ((boot m' x.store).mem.slots j) ∧
      (Has ((boot m' x.store).mem.slots j).status failedSinceClear →
        RecFailed (storedImage x.store seam) i) ∧
      (RecFailed (storedImage x.store seam) i →
        Has ((boot m' x.store).mem.slots j).status failedSinceClear) := by
  obtain ⟨-, hslot⟩ := restore_spec (m := m'.init) x.store hs rfl rfl hd
    (fun _ => rfl) (fun _ => rfl)
  obtain ⟨s, hf, heq⟩ := hslot j
  have hname : ∀ r, m'.init.NamesSlot (storedImage x.store seam) r j → r = i := fun r hn =>
    h.built.names (h.sound.distinct hc) hn (hj.trans (h.sound.dtc i).symm)
  have hown : m'.init.NamesSlot (storedImage x.store seam) i j := by
    refine ⟨?_, ?_⟩
    · rw [h.built.length]
      simp [imageRec]
    · exact (h.built.dtc i).trans ((h.sound.dtc i).trans hj.symm)
  have hentry : s.entry ≠ none → RecFailed (storedImage x.store seam) i := by
    intro he
    obtain ⟨-, r, hn, hflag⟩ := hf.entry he
    rw [hname r hn] at hflag
    refine h.record (.inl ?_)
    revert hflag
    generalize recAt (storedImage x.store seam) i 3 = b
    revert b
    decide +kernel
  have hslot : Told s ∧
      (Has s.status failedSinceClear ↔ RecFailed (storedImage x.store seam) i) := by
    rcases hf.slot with ⟨-, hno⟩ | ⟨r, -, hn, hs⟩
    · exact absurd hown (hno i h.built.image)
    · rw [hname r hn.1] at hs
      obtain ⟨ht, hiff⟩ := restoredSlot_told (s := { checkBlocks (m'.init.slots j) with
        entry := s.entry }) h.record hentry
      rw [hs]
      exact ⟨ht, hiff⟩
  rw [boot, heq]
  split
  · have hend : Has (endedSlot s).status failedSinceClear ↔ Has s.status failedSinceClear :=
      Grows.failed_endedSlot s
    exact ⟨(Grows.of_endedSlot s).told hslot.1, fun hf => hslot.2.mp (hend.mp hf),
      fun hf => hend.mpr (hslot.2.mpr hf)⟩
  · exact ⟨hslot.1, hslot.2.mp, hslot.2.mpr⟩

theorem Stays.of_growsTo {i : Fin n} (h : Stays m seam i x) {m' : Memory n}
    (hg : x.mem.GrowsTo m') : Stays m seam i ⟨m', x.store⟩ where
  sound := h.sound.of_growsTo hg
  told := (hg.slots i).told h.told
  built := h.built.of_dtc fun j => (hg.slots j).dtc
  record := h.record
  follows := fun hf => (hg.slots i).failed (h.follows hf)

/-- After a clear the stored image tells of slot `i` what the memory does. -/
theorem stays_cleared {i : Fin n} {group : UInt32} {y : Node n} (h : Sound m seam x)
    (hc : m.Configured) {m₁ : Memory n} (hm₁ : Stores x.mem m₁)
    (himg : storedImage y.store seam = m₁.image (some group))
    (hslot : ∀ i, ∃ s, Kept (x.mem.slots i) s ∧ y.mem.slots i =
      if Names group (x.mem.slots i).dtc then clearSlot { s with entry := none } else s)
    (hy : Sound m seam y) (ht : Names group (x.mem.slots i).dtc ∨ Told (x.mem.slots i)) :
    Stays m seam i y := by
  have hdtc₁ : ∀ j, (m₁.slots j).dtc = (x.mem.slots j).dtc := fun j =>
    (Grows.of_kept (hm₁.slots j)).dtc
  have hn₁ : m₁.Narrow := fun j => by
    rw [hdtc₁]
    exact h.narrow hc j
  have hbuilt : y.mem.Built (storedImage y.store seam) := by
    rw [himg]
    refine (built_image hn₁ _).of_dtc fun j => ?_
    rw [hy.dtc, hdtc₁, h.dtc]
  obtain ⟨s, hk, heq⟩ := hslot i
  by_cases hname : Names group (x.mem.slots i).dtc
  · have hrec : m₁.recordIn (some group) i = clearedRecord (m₁.slots i) := by
      simp only [recordIn, hdtc₁, if_pos hname]
    obtain ⟨hr, hno⟩ := recTold_cleared hrec
    refine ⟨hy, ?_, hbuilt, himg ▸ hr, fun hf => absurd (himg ▸ hf) hno⟩
    rw [heq, if_pos hname]
    intro hbits
    revert hbits
    simp only [clearSlot, Slot.renew]
    decide
  · have hrec : m₁.recordIn (some group) i = m₁.record i := by
      simp only [recordIn, hdtc₁, if_neg hname]
    have ht := ht.resolve_left hname
    obtain ⟨hr, hiff⟩ := recTold_record hrec ((Grows.of_kept (hm₁.slots i)).told ht)
    refine ⟨hy, ?_, hbuilt, himg ▸ hr, fun hf => ?_⟩
    · rw [heq, if_neg hname]
      exact (Grows.of_kept hk).told ht
    · have hf : Has (m₁.slots i).status failedSinceClear := hiff.mp (himg ▸ hf)
      rw [heq, if_neg hname, hk]
      rwa [hm₁.slots i] at hf

theorem stays_step {i : Fin n} (h : Stays m seam i x) (hc : m.Configured) (hs : m.store = some seam)
    (op : Op n) : Stays m seam i (x.step op) := by
  have hsound := sound_step h.sound hc hs op
  cases op with
  | consume j r => exact h.of_growsTo (growsTo_consume _ _ _)
  | capture dids => exact h.of_growsTo (growsTo_capture _ _)
  | cycleStart => exact h.of_growsTo (growsTo_cycleStart _)
  | cycleEnd => exact h.of_growsTo (growsTo_cycleEnd _)
  | endCycleAfter now grace => exact h.of_growsTo (growsTo_endCycleAfter _ _ _)
  | setSetting on => exact h.of_growsTo (growsTo_setSetting _ _)
  | persist now flush =>
    obtain ⟨hst, m₁, hm₁, hi⟩ :=
      persist_spec x.mem x.store now flush h.sound.store (h.sound.foreign hc hs)
    have hg := Grows.of_kept (hst.slots i)
    have hstatus : ((x.step (.persist now flush)).mem.slots i).status = (x.mem.slots i).status := by
      rw [step, hst.slots i]
    have hbuilt : ∀ img, x.mem.Built img → (x.step (.persist now flush)).mem.Built img :=
      fun img hb => hb.of_dtc fun j => (Grows.of_kept (hst.slots j)).dtc
    rcases hi with ⟨hb, -⟩ | ⟨hb, -⟩
    · have himg : storedImage (x.step (.persist now flush)).store seam =
          storedImage x.store seam := storedImage_congr hb
      refine ⟨hsound, hg.told h.told, ?_, ?_, ?_⟩
      · rw [himg]
        exact hbuilt _ h.built
      · rw [himg]
        exact h.record
      · rw [himg, hstatus]
        exact h.follows
    · have himg : storedImage (x.step (.persist now flush)).store seam = m₁.image none :=
        storedImage_of_block hc.fits hb
      have hk₁ := Grows.of_kept (hm₁.slots i)
      have ht₁ : Told (m₁.slots i) := hk₁.told h.told
      obtain ⟨hrec, hiff⟩ := recTold_record (m := m₁) (c := none) (i := i) rfl ht₁
      have hn₁ : m₁.Narrow := fun j => by
        rw [(Grows.of_kept (hm₁.slots j)).dtc]
        exact h.sound.narrow hc j
      refine ⟨hsound, hg.told h.told, ?_, ?_, ?_⟩
      · rw [himg]
        refine hbuilt _ ((built_image hn₁ none).of_dtc fun j => ?_)
        exact (Grows.of_kept (hm₁.slots j)).dtc.symm
      · rw [himg]
        exact hrec
      · rw [himg, hiff, hstatus, show (m₁.slots i).status = (x.mem.slots i).status by
          rw [hm₁.slots i]]
        exact id
  | clear group =>
    rcases clear_spec h.sound hc hs group with ⟨-, hst, -, -, hb⟩ |
        ⟨-, -, m₁, hm₁, -, himg, hslot⟩
    · have hg := Grows.of_kept (hst.slots i)
      have himg : storedImage (x.step (.clear group)).store seam = storedImage x.store seam :=
        storedImage_congr hb
      refine ⟨hsound, hg.told h.told, ?_, ?_, fun hf => ?_⟩
      · rw [himg]
        exact h.built.of_dtc fun j => (Grows.of_kept (hst.slots j)).dtc
      · rw [himg]
        exact h.record
      · rw [himg] at hf
        exact hg.failed (h.follows hf)
    · exact stays_cleared h.sound hc hm₁ himg hslot hsound (.inr h.told)
  | reset =>
    obtain ⟨ht, -, hf⟩ := h.restored hc h.sound.store (h.sound.distinct hc) (h.sound.dtc i)
    exact ⟨hsound, ht, h.built.of_dtc fun j => (hsound.dtc j).trans (h.sound.dtc j).symm,
      h.record, hf⟩

theorem stays_run {i : Fin n} (h : Stays m seam i x) (hc : m.Configured) (hs : m.store = some seam)
    (ops : List (Op n)) : Stays m seam i (x.run ops) :=
  List.foldlRecOn ops step h fun _ hx op _ => stays_step hx hc hs op

end

/-! ## Without a store -/

theorem store_step_of_none {x : Node n} (h : x.mem.store = none) (op : Op n) :
    (x.step op).mem.store = none := by
  cases op with
  | consume i r => exact h
  | capture dids => exact (growsTo_capture _ _).store.trans h
  | cycleStart => exact (growsTo_cycleStart _).store.trans h
  | cycleEnd => exact (growsTo_cycleEnd _).store.trans h
  | endCycleAfter now grace => exact (growsTo_endCycleAfter _ _ _).store.trans h
  | setSetting on => exact (growsTo_setSetting _ _).store.trans h
  | persist now flush =>
    simp only [step, persist, h]
  | clear group =>
    rcases x.mem.clear_cases x.store group with ⟨-, heq⟩ | ⟨-, hp, -⟩ | ⟨-, -, -, heq⟩
    · simp only [step, heq, h]
    · rw [persistClear_of_none h] at hp
      cases hp
    · simp only [step, heq, store_clearNamed, persistClear_of_none h, h]
  | reset =>
    have : (x.mem.init).store = none := h
    simp only [step, boot, restore, this]

theorem store_run_of_none {x : Node n} (h : x.mem.store = none) (ops : List (Op n)) :
    (x.run ops).mem.store = none :=
  List.foldlRecOn (motive := fun x : Node n => x.mem.store = none) ops step h
    fun _ hx op _ => store_step_of_none hx op

theorem boot_of_none {m : Memory n} (h : m.store = none) (st : Store) :
    boot m st = ⟨m.init, st⟩ := by
  have : m.init.store = none := h
  simp only [boot, restore, this]

/-! ## Every clear -/

/-- Nothing a tester, a report or a reset can see has changed. -/
structure Untouched (x y : Node n) : Prop where
  slots : ∀ i, ∃ live, y.mem.slots i = { x.mem.slots i with live := live }
  entries : ∀ k, (y.mem.entries k).map Entry.content = (x.mem.entries k).map Entry.content
  image : ∀ seam, x.mem.store = some seam → storedImage y.store seam = storedImage x.store seam

/-- The slot is as a clear leaves it, under a fresh generation. -/
structure IsCleared (s s' : Slot) : Prop where
  status : s'.status = statusCleared
  occurrence : s'.occurrence = 0
  failedCycles : s'.failedCycles = 0
  agingCount : s'.agingCount = 0
  entry : s'.entry = none
  gen : s'.gen = s.gen + 1

/-- The slot shows no failure at all. -/
structure NoFailure (s : Slot) : Prop where
  status : ¬Has s.status failureBits
  occurrence : s.occurrence = 0
  entry : s.entry = none

theorem noFailure_of_told {s : Slot} (h : Told s) (hf : ¬Has s.status failedSinceClear) :
    NoFailure s := by
  constructor
  · exact fun hb => hf (h (.inl hb))
  · by_contra ho
    exact hf (h (.inr (.inl ho)))
  · by_contra he
    exact hf (h (.inr (.inr he)))

theorem isCleared_clearSlot {s s' : Slot} (h : Kept s s') :
    IsCleared s (clearSlot { s' with entry := none }) := by
  rw [h]
  exact ⟨rfl, rfl, rfl, rfl, rfl, rfl⟩

/-- ClearDiagnosticInformation is atomic, in every state a memory with any store can reach. A
negative code leaves everything as it was. After a positive answer the stored image holds the
cleared records, and a reset at any later point, under any firmware that configures the DTC, shows
no failure of it unless the memory has counted one since the clear. -/
theorem clear_atomic (m : Memory n) (hc : m.Configured) (st : Store) (ops : List (Op n))
    (group : UInt32) :
    let x := (boot m st).run ops
    let y := x.step (.clear group)
    ((x.mem.clear x.store group).1 ≠ 0 → Untouched x y) ∧
      ((x.mem.clear x.store group).1 = 0 → ∀ i, Names group (x.mem.slots i).dtc →
        IsCleared (x.mem.slots i) (y.mem.slots i) ∧
        (∀ seam, m.store = some seam → ∀ k < imageRec,
          recAt (storedImage y.store seam) i k = (clearedRecord (x.mem.slots i)).getD k 0) ∧
        ∀ later : List (Op n),
          ¬Has ((y.run later).mem.slots i).status failedSinceClear →
          ∀ (k : ℕ) (m' : Memory k) (j : Fin k), m'.store = m.store → m'.Distinct →
            (m'.slots j).dtc = (x.mem.slots i).dtc →
            NoFailure ((boot m' (y.run later).store).mem.slots j)) := by
  intro x y
  cases hs : m.store with
  | none =>
    have hx : x.mem.store = none := by
      refine store_run_of_none ?_ ops
      rw [boot_of_none hs]
      exact hs
    have hp := persistClear_of_none hx x.store group
    rcases x.mem.clear_cases x.store group with ⟨hcode, heq⟩ | ⟨-, hno, -⟩ | ⟨hcode, -, -, heq⟩
    · refine ⟨fun _ => ?_, fun h => ?_⟩
      · simp only [y, step, heq]
        exact ⟨fun i => ⟨_, rfl⟩, fun _ => rfl, fun _ _ => rfl⟩
      · rcases hcode with hcode | hcode
        · exact absurd (h.symm.trans hcode) (by decide)
        · exact absurd (h.symm.trans hcode) (by decide)
    · rw [hp] at hno
      cases hno
    · refine ⟨fun h => absurd hcode h, fun _ i hi => ⟨?_, by simp, ?_⟩⟩
      · simp only [y, step, heq, hp, slots_clearNamed]
        rw [if_pos hi]
        exact isCleared_clearSlot (.refl _)
      · intro later _ k m' j hs' _ _
        rw [boot_of_none hs']
        exact ⟨(by decide : ¬Has statusCleared failureBits), rfl, rfl⟩
  | some seam =>
    have hx : Sound m seam x := sound_run (sound_boot hs (fun _ => rfl) (fun _ _ => rfl)
      hc.distinct st) hc hs ops
    have hy : Sound m seam y := sound_step hx hc hs _
    rcases clear_spec hx hc hs group with ⟨hcode, hst, hlive, -, hb⟩ |
        ⟨hcode, -, m₁, hm₁, -, himg, hslot⟩
    · refine ⟨fun _ => ⟨hlive, hst.entries, fun seam' h => ?_⟩, fun h => absurd h hcode⟩
      rw [hx.store] at h
      cases h
      exact storedImage_congr hb
    · refine ⟨fun h => absurd hcode h, fun _ i hi => ⟨?_, ?_, ?_⟩⟩
      · obtain ⟨s, hk, heq⟩ := hslot i
        rw [heq, if_pos hi]
        exact isCleared_clearSlot hk
      · intro seam' hseam k hk
        cases hseam
        have hdtc : (m₁.slots i).dtc = (x.mem.slots i).dtc := (Grows.of_kept (hm₁.slots i)).dtc
        rw [himg, recAt_image _ _ _ hk]
        simp only [recordIn, hdtc, if_pos hi, clearedRecord]
      · intro later hno k m' j hs' hd' hj
        have hstays := stays_run (stays_cleared hx hc hm₁ himg hslot hy (.inl hi)) hc hs later
        obtain ⟨ht, hf, -⟩ := hstays.restored hc hs' hd' (hj.trans (hx.dtc i))
        exact noFailure_of_told ht fun h => hno (hstays.follows (hf h))

/-- A memory with one DTC, no snapshot and an image block. -/
def oneFault : Memory 1 where
  slots _ :=
    { dtc := 0x523000, confirm := 1, aging := 0, freeze := [], priority := 0, snapId := 0,
      snapIdB := 0, status := 0, occurrence := 0, failedCycles := 0, agingCount := 0,
      failedCycle := false, testedCycle := false, gen := 0, seenGen := 0, baseSeen := false,
      baseFails := 0, baseTests := 0, held := false, waitGen := false, entry := none,
      snapDue := false, claim := none, claimOk := false, live := fun _ => false }
  settingOff := false
  cycleActive := false
  boundaryOff := false
  ending := false
  endAt := 0
  entries _ := none
  cap := 0
  nextStamp := 1
  displaced := 0
  pruned := 0
  store := some ⟨1, 0⟩
  img := []
  retryAt := 0
  wrote := 0
  refused := false
  clearRefused := false

/-- A store with nothing in it that takes every write. -/
def blankStore : Store := ⟨fun _ => [], fun _ => true, []⟩

theorem configured_oneFault : oneFault.Configured where
  fits := by decide
  distinct i j _ := Subsingleton.elim i j
  narrow _ := (by decide : (0x523000 : UInt32) < 0x1000000)
  apart seam h _ b := by
    cases h
    cases b <;> exact (by decide : (0 : UInt16) ≠ 1)

/-- A cycle in which the DTC fails, and the failure is stored. -/
def countedOps : List (Op 1) := [.cycleStart, .consume 0 ⟨0, true, 1, 1⟩, .persist 0 true]

/-- A failure that was counted, stored and cleared does not come back at the next start. -/
theorem clear_atomic_counted :
    Has (((boot oneFault blankStore).run countedOps).mem.slots 0).status confirmed ∧
      (((boot oneFault blankStore).run countedOps).mem.clear
        ((boot oneFault blankStore).run countedOps).store 0xFFFFFF).1 = 0 ∧
      NoFailure ((boot oneFault ((((boot oneFault blankStore).run countedOps).step
        (.clear 0xFFFFFF)).run []).store).mem.slots 0) := by
  have hcode : (((boot oneFault blankStore).run countedOps).mem.clear
      ((boot oneFault blankStore).run countedOps).store 0xFFFFFF).1 = 0 := by
    decide +kernel
  obtain ⟨-, -, h⟩ := (clear_atomic oneFault configured_oneFault blankStore countedOps
    0xFFFFFF).2 hcode 0 (.inl rfl)
  exact ⟨by decide +kernel, hcode, h [] (by decide +kernel) 1 oneFault 0 rfl
    configured_oneFault.distinct (by decide +kernel)⟩

end Node

end BloblyEmb.Fault
