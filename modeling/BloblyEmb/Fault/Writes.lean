import BloblyEmb.Lib.Words
import BloblyEmb.Fault.Status

/-!
# What writing does

An operation that writes leaves every DTC's status and counters as they are: only what the memory
knows of the store changes. The stored image is the one before it or one built from the memory.
-/
namespace BloblyEmb.Fault

/-- Only what the slot knows of the store has changed. -/
def Kept (s s' : Slot) : Prop :=
  s' = { s with claim := s'.claim, claimOk := s'.claimOk, live := s'.live }

theorem Kept.refl (s : Slot) : Kept s s := rfl

theorem Kept.trans {s s' s'' : Slot} (h : Kept s s') (h' : Kept s' s'') : Kept s s'' := by
  rw [Kept] at *
  rw [h', h]

theorem Kept.blockId {s s' : Slot} (h : Kept s s') (b : Block) : s'.blockId b = s.blockId b := by
  rw [h]
  rfl

namespace Entry
variable {n : ℕ}

/-- What an entry holds, whether or not it is written. -/
def content (e : Entry n) : Fin n × UInt32 × Block × List UInt8 := (e.slot, e.stamp, e.blk, e.data)

end Entry

/-- The memory after writes: every slot and every entry is kept, and so is the rest. -/
structure Stores {n : ℕ} (m m' : Memory n) : Prop where
  slots : ∀ i, Kept (m.slots i) (m'.slots i)
  entries : ∀ k, (m'.entries k).map Entry.content = (m.entries k).map Entry.content
  settingOff : m'.settingOff = m.settingOff
  cycleActive : m'.cycleActive = m.cycleActive
  store : m'.store = m.store
  cap : m'.cap = m.cap

namespace Stores
variable {n : ℕ} {m m' m'' : Memory n}

theorem refl (m : Memory n) : Stores m m := ⟨fun _ => .refl _, fun _ => rfl, rfl, rfl, rfl, rfl⟩

theorem trans (h : Stores m m') (h' : Stores m' m'') : Stores m m'' where
  slots i := (h.slots i).trans (h'.slots i)
  entries k := (h'.entries k).trans (h.entries k)
  settingOff := h'.settingOff.trans h.settingOff
  cycleActive := h'.cycleActive.trans h.cycleActive
  store := h'.store.trans h.store
  cap := h'.cap.trans h.cap

end Stores

namespace Memory
variable {n : ℕ}

/-- The blocks that are no DTC's snapshot. -/
def Foreign (m : Memory n) (id : UInt16) : Prop := ∀ i b, (m.slots i).blockId b ≠ id

theorem Foreign.of_stores {m m' : Memory n} {id : UInt16} (h : m.Foreign id) (hs : Stores m m') :
    m'.Foreign id := by
  intro i b
  rw [(hs.slots i).blockId]
  exact h i b

theorem stores_live (m : Memory n) (i : Fin n) (live : Block → Bool) :
    Stores m (m.setSlot i { m.slots i with live := live }) where
  slots j := by
    rw [slots_setSlot]
    split
    · rename_i h
      subst h
      exact rfl
    · exact .refl _
  entries _ := rfl
  settingOff := rfl
  cycleActive := rfl
  store := rfl
  cap := rfl

theorem stores_durable (m : Memory n) {k : Fin maxEntries} {e : Entry n}
    (he : m.entries k = some e) : Stores m (m.setEntry k (some { e with durable := true })) where
  slots _ := .refl _
  entries j := by
    rw [entries_setEntry]
    split
    · rename_i h
      subst h
      rw [he]
      rfl
    · rfl
  settingOff := rfl
  cycleActive := rfl
  store := rfl
  cap := rfl

theorem stores_commitImage (m : Memory n) (img : List UInt8) : Stores m (m.commitImage img) where
  slots _ := rfl
  entries _ := rfl
  settingOff := rfl
  cycleActive := rfl
  store := rfl
  cap := rfl

/-! ## Snapshot blocks -/

/-- Writing snapshots: the memory keeps what it says, its image and every foreign block stay. -/
structure Wrote (m : Memory n) (st : Store) (p : Pass n) : Prop where
  mem : Stores m p.mem
  img : p.mem.img = m.img
  live : ∀ i, p.mem.slots i = { m.slots i with live := (p.mem.slots i).live }
  foreign : ∀ id, m.Foreign id → p.store.blocks id = st.blocks id

variable {m : Memory n} {st : Store} {p : Pass n}

theorem Wrote.put (h : Wrote m st p) (i : Fin n) (b : Block) (v : List UInt8) (id : UInt16)
    (hid : m.Foreign id) :
    (p.store.put ((p.mem.slots i).blockId b) v).2.blocks id = st.blocks id := by
  have hne : id ≠ (p.mem.slots i).blockId b := by
    rw [(h.mem.slots i).blockId]
    exact (hid i b).symm
  rcases p.store.put_cases ((p.mem.slots i).blockId b) v with ⟨-, hb, -⟩ | ⟨-, hb, -⟩
  · rw [hb, h.foreign id hid]
  · rw [hb, Function.update_of_ne hne, h.foreign id hid]

theorem wrote_writeSnapshot (clearing : Option UInt32) (h : Wrote m st p) (k : Fin maxEntries) :
    Wrote m st (writeSnapshot clearing p k) := by
  simp only [writeSnapshot]
  split
  · exact h
  · rename_i e he
    split
    · exact h
    · have hput := h.put e.slot e.blk (p.mem.snapshotBlock e)
      split
      · have hs := (p.mem.stores_durable he).trans (stores_live _ e.slot
          (Function.update (p.mem.slots e.slot).live e.blk true))
        refine ⟨?_, h.img, fun i => ?_, hput⟩
        · have := h.mem.trans hs
          exact ⟨this.slots, this.entries, this.settingOff, this.cycleActive, this.store, this.cap⟩
        · dsimp only
          rw [slots_setSlot]
          split
          · rename_i hi
            subst hi
            rw [h.live e.slot]
          · exact h.live i
      · exact ⟨h.mem, h.img, h.live, hput⟩

theorem wrote_writeSnapshots (m : Memory n) (st : Store) (clearing : Option UInt32) :
    Wrote m st (m.writeSnapshots st clearing) := by
  refine List.foldlRecOn (motive := fun p => Wrote m st p) _ _
    ⟨.refl m, rfl, fun _ => rfl, fun _ _ => rfl⟩ ?_
  intro p h k _
  exact wrote_writeSnapshot clearing h k

theorem stores_tombstone (m : Memory n) (st : Store) (img : List UInt8) (i : Fin n) (b : Block)
    (h : Stores m p.mem ∧ p.mem.img = img ∧ ∀ id, m.Foreign id → p.store.blocks id = st.blocks id) :
    Stores m (tombstone i p b).mem ∧ (tombstone i p b).mem.img = img ∧
      ∀ id, m.Foreign id → (tombstone i p b).store.blocks id = st.blocks id := by
  obtain ⟨hm, himg, hf⟩ := h
  have hput : ∀ id, m.Foreign id →
      (p.store.put ((p.mem.slots i).blockId b) [0]).2.blocks id = st.blocks id := by
    intro id hid
    have hne : id ≠ (p.mem.slots i).blockId b := by
      rw [(hm.slots i).blockId]
      exact (hid i b).symm
    rcases p.store.put_cases ((p.mem.slots i).blockId b) [0] with ⟨-, hb, -⟩ | ⟨-, hb, -⟩
    · rw [hb, hf id hid]
    · rw [hb, Function.update_of_ne hne, hf id hid]
  simp only [tombstone]
  split
  · exact ⟨hm, himg, hf⟩
  · split
    · have := hm.trans (p.mem.stores_live i (Function.update (p.mem.slots i).live b false))
      exact ⟨⟨this.slots, this.entries, this.settingOff, this.cycleActive, this.store, this.cap⟩,
        himg, hput⟩
    · exact ⟨hm, himg, hput⟩

theorem stores_tombstones (p : Pass n) :
    Stores p.mem (tombstones p).mem ∧ (tombstones p).mem.img = p.mem.img ∧
      ∀ id, p.mem.Foreign id → (tombstones p).store.blocks id = p.store.blocks id := by
  refine List.foldlRecOn (motive := fun q : Pass n => Stores p.mem q.mem ∧ q.mem.img = p.mem.img ∧
    ∀ id, p.mem.Foreign id → q.store.blocks id = p.store.blocks id) _ _
    ⟨.refl _, rfl, fun _ _ => rfl⟩ ?_
  intro q hq i _
  simp only [List.foldl_cons, List.foldl_nil]
  exact stores_tombstone _ _ _ _ _ (stores_tombstone _ _ _ _ _ hq)

/-! ## The image -/

/-- The stored image after an operation: the one before it, or `img`. -/
def Imaged (id : UInt16) (m : Memory n) (st : Store) (m' : Memory n) (st' : Store)
    (img : List UInt8) : Prop :=
  (st'.blocks id = st.blocks id ∧ m'.img = m.img) ∨ (st'.blocks id = img ∧ m'.img = img)

theorem imaged_writeImage (p : Pass n) (seam : Seam) (flush : Bool) :
    Stores p.mem (writeImage p seam flush).mem ∧
      Imaged seam.id p.mem p.store (writeImage p seam flush).mem (writeImage p seam flush).store
        (p.mem.image none) := by
  simp only [writeImage]
  have hput := p.store.put_cases seam.id (p.mem.image none)
  split
  · exact ⟨.refl _, .inl ⟨rfl, rfl⟩⟩
  · split
    · exact ⟨.refl _, .inl ⟨rfl, rfl⟩⟩
    · split
      · split
        · rename_i hok
          rcases hput with ⟨hno, -, -⟩ | ⟨-, hb, -⟩
          · rw [hno] at hok
            cases hok
          · have := p.mem.stores_commitImage (p.mem.image none)
            refine ⟨⟨this.slots, this.entries, this.settingOff, this.cycleActive, this.store,
              this.cap⟩, .inr ⟨?_, rfl⟩⟩
            dsimp only
            rw [hb, Function.update_self]
        · rename_i hok
          rcases hput with ⟨-, hb, -⟩ | ⟨hyes, -, -⟩
          · exact ⟨.refl _, .inl ⟨congrFun hb seam.id, rfl⟩⟩
          · exact absurd hyes hok
      · exact ⟨.refl _, .inl ⟨rfl, rfl⟩⟩

/-- Persisting keeps every slot and every entry. -/
theorem persist_stores (m : Memory n) (st : Store) (now : UInt64) (flush : Bool) :
    Stores m (m.persist st now flush).2.1 := by
  have h₀ : Stores m { m with wrote := 0 } :=
    ⟨fun _ => .refl _, fun _ => rfl, rfl, rfl, rfl, rfl⟩
  rw [persist]
  dsimp only
  split
  · exact h₀
  · split
    · exact ⟨fun _ => .refl _, fun _ => rfl, rfl, rfl, rfl, rfl⟩
    · rename_i seam _ _
      have hw := (wrote_writeSnapshots { m with wrote := 0 } st none).mem
      have hi := (imaged_writeImage (writeSnapshots { m with wrote := 0 } st none) seam flush).1
      have ht := (stores_tombstones
        (writeImage (writeSnapshots { m with wrote := 0 } st none) seam flush)).1
      have h := h₀.trans (hw.trans (hi.trans ht))
      exact ⟨h.slots, h.entries, h.settingOff, h.cycleActive, h.store, h.cap⟩

theorem persistClear_stores (m : Memory n) (st : Store) (group : UInt32) :
    Stores m (m.persistClear st group).2.1 := by
  have h₀ : Stores m { m with wrote := 0 } :=
    ⟨fun _ => .refl _, fun _ => rfl, rfl, rfl, rfl, rfl⟩
  rw [persistClear]
  dsimp only
  split
  · exact h₀
  · have h := h₀.trans (wrote_writeSnapshots { m with wrote := 0 } st (some group)).mem
    revert h
    generalize writeSnapshots { m with wrote := 0 } st (some group) = w
    intro h
    have hr : Stores m { w.mem with clearRefused := true } :=
      ⟨h.slots, h.entries, h.settingOff, h.cycleActive, h.store, h.cap⟩
    split
    · exact hr
    · split
      · exact h
      · split
        · have hc := h.trans (w.mem.stores_commitImage (w.mem.image (some group)))
          exact ⟨hc.slots, hc.entries, hc.settingOff, hc.cycleActive, hc.store, hc.cap⟩
        · exact hr

/-- What persisting leaves of the memory and of the stored image. -/
theorem persist_spec (m : Memory n) (st : Store) (now : UInt64) (flush : Bool) {seam : Seam}
    (hs : m.store = some seam) (hf : m.Foreign seam.id) :
    Stores m (m.persist st now flush).2.1 ∧ ∃ m₁, Stores m m₁ ∧
      Imaged seam.id m st (m.persist st now flush).2.1 (m.persist st now flush).2.2
        (m₁.image none) := by
  have h₀ : Stores m { m with wrote := 0 } :=
    ⟨fun _ => .refl _, fun _ => rfl, rfl, rfl, rfl, rfl⟩
  simp only [persist, hs]
  split
  · exact ⟨⟨fun _ => .refl _, fun _ => rfl, rfl, rfl, hs.symm, rfl⟩, m, .refl m, .inl ⟨rfl, rfl⟩⟩
  · let w := writeSnapshots { m with wrote := 0, store := some seam } st none
    have hw : Wrote { m with wrote := 0, store := some seam } st w := wrote_writeSnapshots _ _ _
    obtain ⟨hi, hq⟩ := imaged_writeImage w seam flush
    obtain ⟨ht, himg, hb⟩ := stores_tombstones (writeImage w seam flush)
    have hm : Stores m w.mem :=
      ⟨hw.mem.slots, hw.mem.entries, hw.mem.settingOff, hw.mem.cycleActive,
        hw.mem.store.trans hs.symm, hw.mem.cap⟩
    have hall := hm.trans (hi.trans ht)
    have hf' : (writeImage w seam flush).mem.Foreign seam.id :=
      hf.of_stores (hm.trans hi)
    have hid := hb seam.id hf'
    refine ⟨⟨hall.slots, hall.entries, hall.settingOff, hall.cycleActive, hall.store, hall.cap⟩,
      w.mem, hm, ?_⟩
    rcases hq with ⟨hblk, hq⟩ | ⟨hblk, hq⟩
    · exact .inl ⟨(hid.trans hblk).trans (hw.foreign _ hf), (himg.trans hq).trans hw.img⟩
    · exact .inr ⟨hid.trans hblk, himg.trans hq⟩

/-- Making a clear durable: refused, or the stored image is the cleared one. -/
theorem persistClear_spec (m : Memory n) (st : Store) (group : UInt32) {seam : Seam}
    (hs : m.store = some seam) (hf : m.Foreign seam.id) :
    let r := m.persistClear st group
    Stores m r.2.1 ∧
      (r.1 = false → (∀ i, r.2.1.slots i = { m.slots i with live := (r.2.1.slots i).live }) ∧
        r.2.1.img = m.img ∧ r.2.2.blocks seam.id = st.blocks seam.id) ∧
      (r.1 = true → ∃ m₁, Stores m m₁ ∧ r.2.1.img = m₁.image (some group) ∧
        ((r.2.2.blocks seam.id = st.blocks seam.id ∧ m.img = m₁.image (some group)) ∨
          r.2.2.blocks seam.id = m₁.image (some group))) := by
  have hw : Wrote { m with wrote := 0, store := some seam } st
    (writeSnapshots { m with wrote := 0, store := some seam } st (some group)) :=
    wrote_writeSnapshots _ _ _
  simp only [persistClear, hs]
  revert hw
  generalize writeSnapshots { m with wrote := 0, store := some seam } st (some group) = w
  intro hw
  have hm : Stores m w.mem :=
    ⟨hw.mem.slots, hw.mem.entries, hw.mem.settingOff, hw.mem.cycleActive,
      hw.mem.store.trans hs.symm, hw.mem.cap⟩
  have hsame : Stores m { w.mem with clearRefused := true } :=
    ⟨hm.slots, hm.entries, hm.settingOff, hm.cycleActive, hm.store, hm.cap⟩
  have hblk := hw.foreign seam.id hf
  split
  · exact ⟨hsame, fun _ => ⟨hw.live, hw.img, hblk⟩, by simp⟩
  · split
    · rename_i heq
      refine ⟨hm, by simp, fun _ => ⟨w.mem, hm, heq.symm, .inl ⟨hblk, ?_⟩⟩⟩
      exact hw.img.symm.trans heq.symm
    · have hput := w.store.put_cases seam.id (w.mem.image (some group))
      split
      · rename_i hok
        have hc := hm.trans (w.mem.stores_commitImage (w.mem.image (some group)))
        refine ⟨⟨hc.slots, hc.entries, hc.settingOff, hc.cycleActive, hc.store, hc.cap⟩, by simp,
          fun _ => ⟨w.mem, hm, rfl, .inr ?_⟩⟩
        rcases hput with ⟨hno, -, -⟩ | ⟨-, hb, -⟩
        · rw [hno] at hok
          cases hok
        · dsimp only
          rw [hb, Function.update_self]
      · rename_i hok
        refine ⟨hsame, fun _ => ⟨hw.live, hw.img, ?_⟩, by simp⟩
        rcases hput with ⟨-, hb, -⟩ | ⟨hyes, -, -⟩
        · exact (congrFun hb seam.id).trans hblk
        · exact absurd hyes hok

/-! ## Reading an image -/

theorem rdBe16_be16 (w : UInt16) : rdBe16 (w >>> 8).toUInt8 w.toUInt8 = w := by
  rw [rdBe16, UInt16.or_comm]
  exact half_of_bytes w

theorem or_reverse (a b c d : UInt32) : a ||| b ||| c ||| d = d ||| c ||| b ||| a := by
  rw [UInt32.or_comm, UInt32.or_comm (a ||| b), UInt32.or_comm a, UInt32.or_assoc, UInt32.or_assoc]

theorem rdBe32_be32 (w : UInt32) :
    rdBe32 (w >>> 24).toUInt8 (w >>> 16).toUInt8 (w >>> 8).toUInt8 w.toUInt8 = w := by
  rw [rdBe32, or_reverse]
  exact word_of_bytes w

/-- A 24-bit number is its three bytes. -/
theorem rdBe24_be24 {w : UInt32} (h : w < 0x1000000) :
    rdBe24 (w >>> 16).toUInt8 (w >>> 8).toUInt8 w.toUInt8 = w := by
  have htop : (w >>> 24).toUInt8 = 0 := by
    have hw : w.toNat < 16777216 := h
    rw [← UInt8.toNat_inj]
    simp [UInt32.toNat_shiftRight, Nat.shiftRight_eq_div_pow]
    omega
  have := rdBe32_be32 w
  rwa [rdBe32, htop, show (0 : UInt8).toUInt32 <<< 24 = 0 from rfl, UInt32.zero_or] at this

@[simp] theorem length_record (m : Memory n) (i : Fin n) : (m.record i).length = imageRec := rfl

/-- Slot `i`'s record in an image. -/
def recordIn (m : Memory n) (clearing : Option UInt32) (i : Fin n) : List UInt8 :=
  match clearing with
  | some group => if Names group (m.slots i).dtc then clearedRecord (m.slots i) else m.record i
  | none => m.record i

@[simp] theorem length_recordIn (m : Memory n) (c : Option UInt32) (i : Fin n) :
    (m.recordIn c i).length = imageRec := by
  cases c with
  | none => rfl
  | some group =>
    simp only [recordIn]
    split <;> rfl

theorem image_eq (m : Memory n) (c : Option UInt32) :
    m.image c = m.header ++ (List.finRange n).flatMap (m.recordIn c) := by
  cases c <;> rfl

@[simp] theorem length_image (m : Memory n) (c : Option UInt32) :
    (m.image c).length = 2 + n * imageRec := by
  rw [image_eq, List.length_append, Loop.length_flatMap_of (m.length_recordIn c)]
  simp [header]

theorem recAt_image (m : Memory n) (c : Option UInt32) (i : Fin n) {k : ℕ} (hk : k < imageRec) :
    recAt (m.image c) i k = (m.recordIn c i).getD k 0 := by
  have h := Loop.getElem?_flatMap (m.length_recordIn c) (l := List.finRange n) (i := i) hk
  rw [recAt, image_eq, List.getD_eq_getElem?_getD, List.getElem?_append_right (by simp [header]; omega),
    show 2 + i.val * imageRec + k - m.header.length = i.val * imageRec + k by simp [header]; omega, h]
  simp [List.getD_eq_getElem?_getD]

theorem isImage_image (m : Memory n) (c : Option UInt32) : IsImage (m.image c) := by
  refine ⟨by simp, .inl ?_, by simp [imageRec]⟩
  rw [image_eq]
  rfl

end Memory

end BloblyEmb.Fault
