import BloblyEmb.Lib.Trace
import BloblyEmb.Fault.Consistent

/-!
# Snapshots and the claims on them

The image in the store is the one authority on which snapshot blocks count. Whatever the store
refuses and wherever power is cut, a block that the image claims is neither overwritten nor
released, and a claimed block holds a snapshot that was taken for the DTC that claims it.
-/
namespace BloblyEmb.Fault

/-- The slots are configured alike, as far as snapshots go. -/
structure SameBlocks (s s' : Slot) : Prop where
  dtc : s'.dtc = s.dtc
  snapId : s'.snapId = s.snapId
  snapIdB : s'.snapIdB = s.snapIdB
  freeze : s'.freeze = s.freeze

namespace SameBlocks

theorem refl (s : Slot) : SameBlocks s s := ⟨rfl, rfl, rfl, rfl⟩

theorem trans {s s' s'' : Slot} (h : SameBlocks s s') (h' : SameBlocks s' s'') :
    SameBlocks s s'' :=
  ⟨h'.dtc.trans h.dtc, h'.snapId.trans h.snapId, h'.snapIdB.trans h.snapIdB,
    h'.freeze.trans h.freeze⟩

theorem blockId {s s' : Slot} (h : SameBlocks s s') (b : Block) : s'.blockId b = s.blockId b := by
  cases b with
  | A => exact h.snapId
  | B => exact h.snapIdB

end SameBlocks

/-- What a snapshot of the slot's DTC is in its block. -/
def Slot.frame (s : Slot) (stamp : UInt32) (data : List UInt8) : List UInt8 :=
  be24 s.dtc ++ be32 stamp ++ s.identity ++ Memory.bodyData s.freeze (data.drop 1)

theorem SameBlocks.frame {s s' : Slot} (h : SameBlocks s s') (stamp : UInt32)
    (data : List UInt8) : s'.frame stamp data = s.frame stamp data := by
  simp only [Slot.frame, Slot.identity, h.dtc, h.freeze]

namespace Memory
variable {n : ℕ}

/-- The block that record `r` of a stored image claims: the one it names, or, in the format before
this one, the one of its DTC. -/
def recClaim (c : Memory n) (img : List UInt8) (r : ℕ) : Option UInt16 :=
  if ¬Has (recAt img r 3) imgSnapshot then none
  else if img.getD 0 0 = imageV4 then
    (c.slotOf (recDtc img r)).map fun i =>
      (c.slots i).blockId (if Has (recAt img r 3) imgV4BlockB then .B else .A)
  else some (rdBe16 (recAt img r 8) (recAt img r 9))

/-- The value is a snapshot of slot `i`'s DTC that was taken, if `C` says which data were. -/
def Captured (c : Memory n) (C : Fin n → List UInt8 → Prop) (i : Fin n) (v : List UInt8) : Prop :=
  ∃ stamp data, C i data ∧ v = (c.slots i).frame stamp data

/-- A write that respects the claims: a block that the image in the store claims is left alone, and
an image claims only blocks that hold a snapshot taken for the DTC that claims it. -/
structure SafeWrite (c : Memory n) (id : UInt16) (C : Fin n → List UInt8 → Prop)
    (blocks : UInt16 → List UInt8) (w : UInt16 × List UInt8) : Prop where
  kept : w.1 ≠ id → IsImage ((blocks id).take maxImage) →
    ∀ r < records ((blocks id).take maxImage),
      c.recClaim ((blocks id).take maxImage) r ≠ some w.1
  held : w.1 = id → ∀ r < records w.2, ∀ bid, c.recClaim w.2 r = some bid →
    ∃ i, (c.slots i).dtc = recDtc w.2 r ∧ c.Captured C i (blocks bid)

/-- Each of the writes, the last one first, respects the claims of the store it is made to. -/
def SafeWrites (c : Memory n) (id : UInt16) (C : Fin n → List UInt8 → Prop)
    (blocks : UInt16 → List UInt8) : List (UInt16 × List UInt8) → Prop
  | [] => True
  | w :: ws => SafeWrites c id C blocks ws ∧ SafeWrite c id C (Store.replay blocks ws) w

/-- The store has come about by writes that respect the claims. -/
def SafeTo (c : Memory n) (id : UInt16) (C : Fin n → List UInt8 → Prop) (st st' : Store) : Prop :=
  ∃ ws, st'.log = ws ++ st.log ∧ st'.blocks = Store.replay st.blocks ws ∧
    SafeWrites c id C st.blocks ws

namespace SafeTo
variable {c : Memory n} {id : UInt16} {C : Fin n → List UInt8 → Prop} {st st' st'' : Store}

theorem refl (st : Store) : SafeTo c id C st st := ⟨[], rfl, rfl, trivial⟩

theorem replay_append (blocks : UInt16 → List UInt8) (ws ws' : List (UInt16 × List UInt8)) :
    Store.replay blocks (ws' ++ ws) = Store.replay (Store.replay blocks ws) ws' := by
  induction ws' with
  | nil => rfl
  | cons w ws' ih => simp only [List.cons_append, Store.replay, ih]

theorem trans (h : SafeTo c id C st st') (h' : SafeTo c id C st' st'') : SafeTo c id C st st'' := by
  obtain ⟨ws, hlog, hblocks, hsafe⟩ := h
  obtain ⟨ws', hlog', hblocks', hsafe'⟩ := h'
  refine ⟨ws' ++ ws, by rw [hlog', hlog, List.append_assoc], ?_, ?_⟩
  · rw [hblocks', hblocks, replay_append]
  · rw [hblocks] at hsafe'
    clear hlog' hblocks'
    induction ws' with
    | nil => exact hsafe
    | cons w ws' ih =>
      refine ⟨ih hsafe'.1, ?_⟩
      have := replay_append st.blocks ws ws'
      exact this ▸ hsafe'.2

/-- One write. -/
theorem put {bid : UInt16} {v : List UInt8} (h : SafeWrite c id C st.blocks (bid, v)) :
    SafeTo c id C st (st.put bid v).2 := by
  rcases st.put_cases bid v with ⟨-, hb, hl⟩ | ⟨-, hb, hl⟩
  · exact ⟨[], hl, hb, trivial⟩
  · exact ⟨[(bid, v)], hl, hb, trivial, h⟩

end SafeTo

/-! ## The invariant -/

/-- What a configuration promises of its blocks. -/
structure Blocks (c : Memory n) (id : UInt16) : Prop where
  fits : n ≤ maxFaults
  distinct : c.Distinct
  narrow : c.Narrow
  image : c.Foreign id
  two : ∀ i, (c.slots i).freeze ≠ [] → (c.slots i).snapId ≠ (c.slots i).snapIdB
  apart : ∀ i j b b', (c.slots i).freeze ≠ [] → (c.slots i).blockId b = (c.slots j).blockId b' →
    i = j

/-- A block of a DTC that keeps a snapshot is no other block. -/
theorem Blocks.inj {c : Memory n} {id : UInt16} (h : c.Blocks id) {i j : Fin n} {b b' : Block}
    (hf : (c.slots i).freeze ≠ []) (heq : (c.slots i).blockId b = (c.slots j).blockId b') :
    i = j ∧ b = b' := by
  have hij := h.apart i j b b' hf heq
  subst hij
  refine ⟨rfl, ?_⟩
  have htwo := h.two i hf
  cases b <;> cases b'
  · rfl
  · exact absurd heq htwo
  · exact absurd heq.symm htwo
  · rfl

/-- Slots and entries belong together, no entry waits in a block that is claimed, and a block that is
live holds more than the mark of a released one. -/
structure Linked (c : Memory n) (seam : Seam) (C : Fin n → List UInt8 → Prop) (m : Memory n)
    (st : Store) : Prop where
  config : ∀ i, SameBlocks (c.slots i) (m.slots i)
  store : m.store = some seam
  entry : ∀ i k, (m.slots i).entry = some k ↔ ∃ e, m.entries k = some e ∧ e.slot = i
  frames : ∀ k e, m.entries k = some e → (c.slots e.slot).freeze ≠ []
  fresh : ∀ k e, m.entries k = some e → e.durable = false →
    (m.slots e.slot).claim ≠ some e.blk ∧ C e.slot e.data
  held : ∀ k e, m.entries k = some e → e.durable = true →
    c.Captured C e.slot (st.blocks ((c.slots e.slot).blockId e.blk))
  readable : ∀ k e, m.entries k = some e → e.durable = true →
    (m.slots e.slot).claim = some e.blk → (m.slots e.slot).claimOk = true
  live : ∀ i b, (m.slots i).live b = true →
    (c.slots i).freeze ≠ [] ∧ 1 < (st.blocks ((c.slots i).blockId b)).length

/-- The memory holds the claims of the first `R` records of an image. -/
def Claims (c m : Memory n) (img : List UInt8) (R : ℕ) : Prop :=
  ∀ r < R, ∀ bid, c.recClaim img r = some bid → ∃ i b, (c.slots i).dtc = recDtc img r ∧
    (c.slots i).blockId b = bid ∧ ((c.slots i).freeze ≠ [] → (m.slots i).claim = some b)

/-- The image in a store: a DTC has one record, and a claimed block holds a snapshot of its DTC. -/
structure StoredOk (c : Memory n) (C : Fin n → List UInt8 → Prop) (img : List UInt8)
    (blocks : UInt16 → List UInt8) : Prop where
  apart : ∀ r < records img, ∀ r' < records img, recDtc img r = recDtc img r' → r = r'
  held : img.getD 0 0 ≠ imageV4 → ∀ r < records img, ∀ bid, c.recClaim img r = some bid →
    ∃ i b, (c.slots i).dtc = recDtc img r ∧ (c.slots i).freeze ≠ [] ∧
      (c.slots i).blockId b = bid ∧ c.Captured C i (blocks bid)

structure Whole (c : Memory n) (seam : Seam) (C : Fin n → List UInt8 → Prop) (m : Memory n)
    (st : Store) : Prop extends Linked c seam C m st where
  claims : IsImage (storedImage st seam) →
    Claims c m (storedImage st seam) (records (storedImage st seam))
  stored : IsImage (storedImage st seam) → c.StoredOk C (storedImage st seam) st.blocks

section
variable {c m : Memory n} {seam : Seam} {C C' : Fin n → List UInt8 → Prop} {st st' : Store}

theorem Captured.mono (hC : ∀ i d, C i d → C' i d) {i : Fin n} {v : List UInt8}
    (h : c.Captured C i v) : c.Captured C' i v := by
  obtain ⟨stamp, data, hc, hv⟩ := h
  exact ⟨stamp, data, hC i data hc, hv⟩

theorem StoredOk.mono (hC : ∀ i d, C i d → C' i d) {img : List UInt8}
    {blocks : UInt16 → List UInt8} (h : c.StoredOk C img blocks) : c.StoredOk C' img blocks where
  apart := h.apart
  held hv r hr bid hb := by
    obtain ⟨i, b, hd, hf, hid, hcap⟩ := h.held hv r hr bid hb
    exact ⟨i, b, hd, hf, hid, hcap.mono hC⟩

theorem Whole.mono (h : Whole c seam C m st) (hC : ∀ i d, C i d → C' i d) :
    Whole c seam C' m st where
  config := h.config
  store := h.store
  entry := h.entry
  frames := h.frames
  fresh k e he hd := ⟨(h.fresh k e he hd).1, hC _ _ (h.fresh k e he hd).2⟩
  held k e he hd := (h.held k e he hd).mono hC
  readable := h.readable
  live := h.live
  claims := h.claims
  stored hi := (h.stored hi).mono hC

theorem Whole.of_blocks (h : Whole c seam C m st) (hb : st'.blocks = st.blocks) :
    Whole c seam C m st' := by
  have himg : storedImage st' seam = storedImage st seam := storedImage_congr (by rw [hb])
  refine ⟨⟨h.config, h.store, h.entry, h.frames, h.fresh, fun k e he hd => ?_, h.readable,
    fun i b hl => ?_⟩, ?_, ?_⟩
  · rw [hb]
    exact h.held k e he hd
  · rw [hb]
    exact h.live i b hl
  · rw [himg]
    exact h.claims
  · rw [himg, hb]
    exact h.stored

/-! ## Writing a snapshot block -/

/-- A block of a DTC that the image does not claim for it is not claimed at all. -/
theorem Whole.unclaimed (h : Whole c seam C m st) (hb : c.Blocks seam.id) {i : Fin n} {b : Block}
    (hf : (c.slots i).freeze ≠ []) (hclaim : (m.slots i).claim ≠ some b)
    (hi : IsImage (storedImage st seam)) {r : ℕ} (hr : r < records (storedImage st seam)) :
    c.recClaim (storedImage st seam) r ≠ some ((c.slots i).blockId b) := by
  intro hclaimed
  obtain ⟨j, b', -, hid, hj⟩ := h.claims hi r hr _ hclaimed
  obtain ⟨rfl, rfl⟩ := hb.inj hf hid.symm
  exact hclaim (hj hf)

/-- Writing a block that is neither claimed nor an entry's keeps the invariant. -/
theorem Whole.put (h : Whole c seam C m st) (hb : c.Blocks seam.id) {i : Fin n} {b : Block}
    (hf : (c.slots i).freeze ≠ []) (hclaim : (m.slots i).claim ≠ some b)
    (hentry : ∀ k e, m.entries k = some e → e.durable = true → e.slot = i → e.blk ≠ b)
    {v : List UInt8} (hlive : (m.slots i).live b = true → 1 < v.length) :
    Whole c seam C m (st.put ((c.slots i).blockId b) v).2 ∧
      SafeTo c seam.id C st (st.put ((c.slots i).blockId b) v).2 := by
  constructor
  · rcases st.put_cases ((c.slots i).blockId b) v with ⟨-, hblk, -⟩ | ⟨-, hblk, -⟩
    · exact h.of_blocks hblk
    · have himg : storedImage (st.put ((c.slots i).blockId b) v).2 seam = storedImage st seam := by
        apply storedImage_congr
        rw [hblk, Function.update_of_ne (hb.image i b).symm]
      refine ⟨⟨h.config, h.store, h.entry, h.frames, h.fresh, fun k e he hd => ?_, h.readable,
        fun j b' hl => ?_⟩, ?_, fun hi => ?_⟩
      · rw [hblk, Function.update_of_ne]
        · exact h.held k e he hd
        · intro heq
          obtain ⟨rfl, rfl⟩ := hb.inj hf heq.symm
          exact hentry k e he hd rfl rfl
      · obtain ⟨hfj, hlen⟩ := h.live j b' hl
        refine ⟨hfj, ?_⟩
        rw [hblk, Function.update_apply]
        split
        · rename_i heq
          obtain ⟨rfl, rfl⟩ := hb.inj hfj heq
          exact hlive hl
        · exact hlen
      · rw [himg]
        exact h.claims
      · rw [himg] at hi ⊢
        refine ⟨(h.stored hi).apart, fun hv r hr bid hbid => ?_⟩
        obtain ⟨j, b', hd, hfj, hid, hcap⟩ := (h.stored hi).held hv r hr bid hbid
        refine ⟨j, b', hd, hfj, hid, ?_⟩
        rw [hblk, Function.update_of_ne]
        · exact hcap
        · intro heq
          exact h.unclaimed hb hf hclaim hi hr (heq ▸ hbid)
  · refine SafeTo.put ⟨fun _ hi r hr => ?_, fun heq => absurd heq (hb.image i b)⟩
    exact h.unclaimed hb hf hclaim hi hr

/-! ## Changes of the memory -/

/-- The slots agree in their configuration, their entry and their claim. -/
structure SameHold (s s' : Slot) : Prop extends SameBlocks s s' where
  entry : s'.entry = s.entry
  claim : s'.claim = s.claim
  claimOk : s'.claimOk = s.claimOk

theorem SameHold.refl (s : Slot) : SameHold s s := ⟨.refl s, rfl, rfl, rfl⟩

theorem SameHold.trans {s s' s'' : Slot} (h : SameHold s s') (h' : SameHold s' s'') :
    SameHold s s'' :=
  ⟨h.toSameBlocks.trans h'.toSameBlocks, h'.entry.trans h.entry, h'.claim.trans h.claim,
    h'.claimOk.trans h.claimOk⟩

theorem sameHold_setSlot {m : Memory n} {i : Fin n} {s : Slot} (h : SameHold (m.slots i) s)
    (j : Fin n) : SameHold (m.slots j) ((m.setSlot i s).slots j) := by
  rw [slots_setSlot]
  split
  · rename_i hj
    subst hj
    exact h
  · exact .refl _

theorem Claims.of_claim {m' : Memory n} {img : List UInt8} {R : ℕ} (h : Claims c m img R)
    (hs : ∀ i, (m'.slots i).claim = (m.slots i).claim) : Claims c m' img R := by
  intro r hr bid hbid
  obtain ⟨i, b, hd, hid, hc⟩ := h r hr bid hbid
  exact ⟨i, b, hd, hid, fun hf => (hs i).trans (hc hf)⟩

theorem Linked.of_same {m' : Memory n} (h : Linked c seam C m st)
    (hs : ∀ i, SameHold (m.slots i) (m'.slots i)) (he : m'.entries = m.entries)
    (hstore : m'.store = m.store)
    (hlive : ∀ i b, (m'.slots i).live b = true → (m.slots i).live b = true ∨
      (c.slots i).freeze ≠ [] ∧ 1 < (st.blocks ((c.slots i).blockId b)).length) : Linked c seam C m' st where
  config i := (h.config i).trans (hs i).toSameBlocks
  store := hstore.trans h.store
  entry i k := by
    rw [(hs i).entry, he]
    exact h.entry i k
  frames := by
    rw [he]
    exact h.frames
  fresh k e hk hd := by
    rw [he] at hk
    rw [(hs e.slot).claim]
    exact h.fresh k e hk hd
  held k e hk hd := by
    rw [he] at hk
    exact h.held k e hk hd
  readable k e hk hd hcl := by
    rw [he] at hk
    rw [(hs e.slot).claim] at hcl
    rw [(hs e.slot).claimOk]
    exact h.readable k e hk hd hcl
  live i b hl := by
    rcases hlive i b hl with hl | hf
    · exact h.live i b hl
    · exact hf

theorem Whole.of_same {m' : Memory n} (h : Whole c seam C m st)
    (hs : ∀ i, SameHold (m.slots i) (m'.slots i)) (he : m'.entries = m.entries)
    (hstore : m'.store = m.store)
    (hlive : ∀ i b, (m'.slots i).live b = true → (m.slots i).live b = true ∨
      (c.slots i).freeze ≠ [] ∧ 1 < (st.blocks ((c.slots i).blockId b)).length) : Whole c seam C m' st :=
  ⟨h.toLinked.of_same hs he hstore hlive, fun hi => (h.claims hi).of_claim fun i => (hs i).claim,
    h.stored⟩

/-- Only fields that the invariant does not read have changed. -/
theorem Whole.of_eq {m' : Memory n} (h : Whole c seam C m st) (hs : m'.slots = m.slots)
    (he : m'.entries = m.entries) (hstore : m'.store = m.store) : Whole c seam C m' st := by
  apply h.of_same _ he hstore
  · intro i b hl
    rw [hs] at hl
    exact .inl hl
  · intro i
    rw [hs]
    exact .refl _

/-- A block becomes live once it holds a snapshot. -/
theorem Whole.setLive (h : Whole c seam C m st) {i : Fin n} {b : Block} {v : Bool}
    (hv : v = true → (c.slots i).freeze ≠ [] ∧ 1 < (st.blocks ((c.slots i).blockId b)).length) :
    Whole c seam C (m.setSlot i
      { m.slots i with live := Function.update (m.slots i).live b v }) st := by
  refine h.of_same (sameHold_setSlot ⟨⟨rfl, rfl, rfl, rfl⟩, rfl, rfl, rfl⟩) (by rfl) (by rfl) ?_
  intro j b' hl
  by_cases hj : j = i
  · subst hj
    rw [slots_setSlot_self] at hl
    dsimp only at hl
    by_cases hb : b' = b
    · subst hb
      rw [Function.update_self] at hl
      exact .inr (hv hl)
    · rw [Function.update_of_ne hb] at hl
      exact .inl hl
  · rw [slots_setSlot_of_ne _ hj] at hl
    exact .inl hl

theorem length_frame (s : Slot) (stamp : UInt32) (data : List UInt8) :
    1 < (s.frame stamp data).length := by
  simp only [Slot.frame, List.length_append, be24, List.length_cons]
  omega

/-- A slot has at most one entry. -/
theorem Linked.same_place (h : Linked c seam C m st) {k k' : Fin maxEntries} {e e' : Entry n}
    (he : m.entries k = some e) (he' : m.entries k' = some e') (hs : e.slot = e'.slot) :
    k = k' := by
  have hk := (h.entry e.slot k).mpr ⟨e, he, rfl⟩
  have hk' := (h.entry e.slot k').mpr ⟨e', he', hs.symm⟩
  exact Option.some.inj (hk.symm.trans hk')

/-- The entry of a written snapshot is durable. -/
theorem Whole.durable (h : Whole c seam C m st) {k : Fin maxEntries} {e : Entry n}
    (he : m.entries k = some e) (hnew : e.durable = false)
    (hv : st.blocks ((c.slots e.slot).blockId e.blk) = m.snapshotBlock e) :
    Whole c seam C (m.setEntry k (some { e with durable := true })) st := by
  have hentry : ∀ {j e'}, (m.setEntry k (some { e with durable := true })).entries j = some e' →
      (e' = { e with durable := true }) ∨ m.entries j = some e' := by
    intro j e' hj
    rw [entries_setEntry] at hj
    split at hj
    · cases hj
      exact .inl rfl
    · exact .inr hj
  refine ⟨⟨h.config, h.store, fun i j => ?_, fun j e' hj => ?_, fun j e' hj hd => ?_,
    fun j e' hj hd => ?_, fun j e' hj hd hcl => ?_, h.live⟩, h.claims, h.stored⟩
  · rw [slots_setEntry, entries_setEntry, h.entry i j]
    by_cases hjk : j = k
    · subst hjk
      simp [he]
    · simp [hjk]
  · rcases hentry hj with rfl | hj
    · exact h.frames k e he
    · exact h.frames j e' hj
  · rcases hentry hj with rfl | hj
    · cases hd
    · exact h.fresh j e' hj hd
  · rcases hentry hj with rfl | hj
    · exact ⟨e.stamp, e.data, (h.fresh k e he hnew).2,
        hv.trans ((h.config e.slot).frame e.stamp e.data)⟩
    · exact h.held j e' hj hd
  · rcases hentry hj with rfl | hj
    · exact absurd hcl (h.fresh k e he hnew).1
    · exact h.readable j e' hj hd hcl

/-- What a step of a write keeps: the invariant and the writes so far. -/
def Keeps (c : Memory n) (seam : Seam) (C : Fin n → List UInt8 → Prop) (st : Store)
    (p : Pass n) : Prop := Whole c seam C p.mem p.store ∧ SafeTo c seam.id C st p.store

theorem keeps_writeSnapshot {p : Pass n} (hb : c.Blocks seam.id) (clearing : Option UInt32)
    (h : Keeps c seam C st p) (k : Fin maxEntries) :
    Keeps c seam C st (writeSnapshot clearing p k) := by
  simp only [writeSnapshot]
  split
  · exact h
  · rename_i e he
    split
    · exact h
    · rename_i hno
      have hnew : e.durable = false := by
        simp only [not_or] at hno
        simpa using hno.1
      have hid := (h.1.config e.slot).blockId e.blk
      have hother : ∀ k' e', p.mem.entries k' = some e' → e'.durable = true →
          e'.slot = e.slot → e'.blk ≠ e.blk := by
        intro k' e' he' hd hs
        have hk := h.1.same_place he he' hs.symm
        subst hk
        rw [he] at he'
        cases he'
        rw [hnew] at hd
        cases hd
      obtain ⟨hw, hsafe⟩ := h.1.put hb (h.1.frames k e he) (h.1.fresh k e he hnew).1 hother
        (v := p.mem.snapshotBlock e) fun _ => length_frame _ _ _
      have hput := p.store.put_cases ((p.mem.slots e.slot).blockId e.blk) (p.mem.snapshotBlock e)
      rw [hid] at hput ⊢
      split
      · rename_i hok
        have hv : (p.store.put ((c.slots e.slot).blockId e.blk) (p.mem.snapshotBlock e)).2.blocks
            ((c.slots e.slot).blockId e.blk) = p.mem.snapshotBlock e := by
          rcases hput with ⟨hno, -, -⟩ | ⟨-, hblk, -⟩
          · rw [hno] at hok
            cases hok
          · rw [hblk, Function.update_self]
        have hlive := (hw.durable he hnew hv).setLive (i := e.slot) (b := e.blk) (v := true)
          fun _ => ⟨h.1.frames k e he, by rw [hv]; exact length_frame _ _ _⟩
        exact ⟨hlive.of_eq rfl rfl rfl, h.2.trans hsafe⟩
      · exact ⟨hw, h.2.trans hsafe⟩

theorem keeps_writeSnapshots (hb : c.Blocks seam.id) (h : Whole c seam C m st)
    (clearing : Option UInt32) : Keeps c seam C st (m.writeSnapshots st clearing) := by
  refine List.foldlRecOn (motive := fun p => Keeps c seam C st p) _ _ ⟨h, .refl st⟩ ?_
  intro p hp k _
  exact keeps_writeSnapshot hb clearing hp k

/-- Releasing a block. -/
theorem keeps_tombstone {p : Pass n} (hb : c.Blocks seam.id) (h : Keeps c seam C st p) (i : Fin n)
    (b : Block) : Keeps c seam C st (tombstone i p b) := by
  simp only [tombstone]
  split
  · exact h
  · rename_i hno
    simp only [not_or] at hno
    obtain ⟨hlive, hclaim, hentry⟩ := hno
    have hf := (h.1.live i b (by simpa using hlive)).1
    have hid := (h.1.config i).blockId b
    have hother : ∀ k e, p.mem.entries k = some e → e.durable = true → e.slot = i → e.blk ≠ b := by
      intro k e he _ hs hblk
      apply hentry
      rw [entryBlock, (h.1.entry i k).mpr ⟨e, he, hs⟩]
      simp [he, hblk]
    -- the block is given up before its value is replaced
    have hdead := h.1.setLive (i := i) (b := b) (v := false) fun hv => (by cases hv)
    have hput := p.store.put_cases ((c.slots i).blockId b) [0]
    obtain ⟨hw, hsafe⟩ := hdead.put hb hf (b := b)
      (by rw [slots_setSlot_self]; exact hclaim) hother (v := [0])
      (by rw [slots_setSlot_self]; simp)
    rw [hid]
    split
    · exact ⟨hw.of_eq rfl rfl rfl, h.2.trans hsafe⟩
    · rename_i hok
      refine ⟨?_, h.2.trans hsafe⟩
      rcases hput with ⟨-, hblk, -⟩ | ⟨hyes, -, -⟩
      · exact h.1.of_blocks hblk
      · exact absurd hyes hok

theorem keeps_tombstones {p : Pass n} (hb : c.Blocks seam.id) (h : Keeps c seam C st p) :
    Keeps c seam C st (tombstones p) := by
  refine List.foldlRecOn (motive := fun q => Keeps c seam C st q) _ _ h ?_
  intro q hq i _
  simp only [List.foldl_cons, List.foldl_nil]
  exact keeps_tombstone hb (keeps_tombstone hb hq i .A) i .B

/-! ## Writing the image -/

theorem durableBlock_eq {i : Fin n} {b : Block} (h : m.durableBlock i = some b) :
    ∃ k e, (m.slots i).entry = some k ∧ m.entries k = some e ∧ e.durable = true ∧ e.blk = b := by
  simp only [durableBlock] at h
  split at h
  · cases h
  · rename_i k hk
    split at h
    · rename_i e he
      split at h
      · rename_i hd
        exact ⟨k, e, hk, he, hd, Option.some.inj h⟩
      · cases h
    · cases h

theorem flagByte_snapshot (m : Memory n) (i : Fin n) :
    Has (m.flagByte i) imgSnapshot ↔ (m.durableBlock i).isSome = true := by
  have h : ∀ (b : UInt8) (t f s : Bool),
      Has ((b &&& persistedBits) ||| (if t then imgTested else 0) |||
        (if f then imgFailed else 0) ||| (if s then imgSnapshot else 0)) imgSnapshot ↔ s = true := by
    decide +kernel
  exact h _ _ _ _

/-- The flags and the block id of a record in a built image. -/
theorem recAt_claim (m : Memory n) (clearing : Option UInt32) (i : Fin n) :
    (¬Has (recAt (m.image clearing) i 3) imgSnapshot) ∨
      (recAt (m.image clearing) i 3 = m.flagByte i ∧
        rdBe16 (recAt (m.image clearing) i 8) (recAt (m.image clearing) i 9) = m.claimedId i) := by
  by_cases hrec : m.recordIn clearing i = m.record i
  · right
    rw [recAt_image _ _ _ (by decide), recAt_image _ _ _ (by decide),
      recAt_image _ _ _ (by decide), hrec]
    exact ⟨rfl, rdBe16_be16 _⟩
  · left
    have hcleared : m.recordIn clearing i = clearedRecord (m.slots i) := by
      cases clearing with
      | none => exact absurd rfl hrec
      | some group =>
        simp only [recordIn] at hrec ⊢
        split at hrec
        · rename_i hg
          rw [if_pos hg]
        · exact absurd rfl hrec
    rw [(recAt_cleared hcleared).1]
    decide

theorem version_image (m : Memory n) (clearing : Option UInt32) :
    (m.image clearing).getD 0 0 ≠ imageV4 := by
  rw [image_eq]
  exact (by decide : imageVersion ≠ imageV4)

/-- A built image claims the block of a durable entry. -/
theorem recClaim_image {clearing : Option UInt32} {i : Fin n} {bid : UInt16}
    (h : c.recClaim (m.image clearing) i = some bid) :
    ∃ b, m.durableBlock i = some b ∧ (m.slots i).blockId b = bid ∧
      (Has (recAt (m.image clearing) i 3) imgSnapshot ∧
        rdBe16 (recAt (m.image clearing) i 8) (recAt (m.image clearing) i 9) = bid) := by
  simp only [recClaim, if_neg (m.version_image clearing)] at h
  split at h
  · cases h
  · rename_i hflag
    rw [not_not] at hflag
    have hid := Option.some.inj h
    rcases m.recAt_claim clearing i with hno | ⟨hf, hclaim⟩
    · exact absurd hflag hno
    · have hd := (m.flagByte_snapshot i).mp (hf ▸ hflag)
      obtain ⟨b, hb⟩ := Option.isSome_iff_exists.mp hd
      refine ⟨b, hb, ?_, hflag, hid⟩
      rw [← hid, hclaim, claimedId, hb]

theorem imgClaim_image {clearing : Option UInt32} {i : Fin n}
    (h : imgClaim (m.slots i) (m.image clearing) i ≠ none) : m.durableBlock i ≠ none := by
  intro hno
  apply h
  rw [imgClaim, Slot.claimOf, if_pos]
  rcases m.recAt_claim clearing i with hf | ⟨hf, -⟩
  · exact hf
  · rw [hf, m.flagByte_snapshot, hno]
    simp

/-- The claim of a slot follows the image that is written. -/
theorem claimOf_blockId {s : Slot} {f : UInt8} (hf : Has f imgSnapshot)
    (htwo : s.snapId ≠ s.snapIdB) (b : Block) : s.claimOf f (s.blockId b) = some b := by
  rw [Slot.claimOf, if_neg (not_not.mpr hf)]
  cases b with
  | A => exact if_pos rfl
  | B =>
    rw [if_neg (show s.blockId .B ≠ s.snapId from htwo.symm)]
    exact if_pos rfl

/-- Once a built image is in the store, the memory holds its claims. -/
theorem Whole.commit (h : Whole c seam C m st) (hb : c.Blocks seam.id)
    (clearing : Option UInt32) (hblk : st'.blocks = Function.update st.blocks seam.id
      (m.image clearing)) :
    Whole c seam C (m.commitImage (m.image clearing)) st' := by
  have himg : storedImage st' seam = m.image clearing := by
    apply storedImage_of_block hb.fits
    rw [hblk, Function.update_self]
  have hother : ∀ i b, st'.blocks ((c.slots i).blockId b) = st.blocks ((c.slots i).blockId b) := by
    intro i b
    rw [hblk, Function.update_of_ne (hb.image i b)]
  have hdtc : ∀ r : Fin n, recDtc (m.image clearing) r = (c.slots r).dtc := by
    have hn : m.Narrow := fun i => by
      rw [(h.config i).dtc]
      exact hb.narrow i
    intro r
    exact ((built_image hn clearing).dtc r).trans (h.config r).dtc
  -- a claim of the image is the slot's own, and its entry is durable
  have hclaim : ∀ r : Fin n, ∀ bid, c.recClaim (m.image clearing) r = some bid →
      ∃ b, (c.slots r).blockId b = bid ∧ (c.slots r).freeze ≠ [] ∧
        imgClaim (m.slots r) (m.image clearing) r = some b ∧
        c.Captured C r (st.blocks bid) := by
    intro r bid hbid
    obtain ⟨b, hd, hid, hflag, hrd⟩ := recClaim_image hbid
    obtain ⟨k, e, hk, he, hdur, rfl⟩ := durableBlock_eq hd
    obtain ⟨e', he', hs⟩ := (h.entry r k).mp hk
    rw [he] at he'
    cases he'
    subst hs
    have hf := h.frames k e he
    have hid' : (c.slots e.slot).blockId e.blk = bid :=
      ((h.config e.slot).blockId e.blk).symm.trans hid
    refine ⟨e.blk, hid', hf, ?_, ?_⟩
    · rw [imgClaim, hrd, ← hid]
      apply claimOf_blockId hflag
      rw [(h.config e.slot).snapId, (h.config e.slot).snapIdB]
      exact hb.two _ hf
    · rw [← hid']
      exact h.held k e he hdur
  refine ⟨⟨fun i => (h.config i).trans ⟨rfl, rfl, rfl, rfl⟩, h.store, h.entry, h.frames,
    fun k e he hd => ⟨?_, (h.fresh k e he hd).2⟩, fun k e he hd => ?_, fun k e he hd hc => ?_,
    fun i b hl => ?_⟩, ?_, ?_⟩
  · intro hc
    obtain ⟨b, hdb⟩ := Option.ne_none_iff_exists'.mp (imgClaim_image (Option.ne_none_iff_exists'.mpr
      ⟨_, hc⟩))
    obtain ⟨k', e', hk', he', hdur, -⟩ := durableBlock_eq hdb
    have hk := (h.entry e.slot k).mpr ⟨e, he, rfl⟩
    rw [hk] at hk'
    cases hk'
    have heq : some e' = some e := he'.symm.trans he
    cases heq
    rw [hd] at hdur
    cases hdur
  · rw [hother]
    exact h.held k e he hd
  · change (imgClaim (m.slots e.slot) (m.image clearing) e.slot).isSome = true
    rw [show imgClaim (m.slots e.slot) (m.image clearing) e.slot = some e.blk from hc]
    rfl
  · rw [hother]
    exact h.live i b hl
  · rw [himg, records_image]
    intro _ r hr bid hbid
    obtain ⟨b, hid, -, hc, -⟩ := hclaim ⟨r, hr⟩ bid hbid
    exact ⟨⟨r, hr⟩, b, (hdtc ⟨r, hr⟩).symm, hid, fun _ => hc⟩
  · rw [himg]
    intro _
    constructor
    · rw [records_image]
      intro r hr r' hr' heq
      have := (hdtc ⟨r, hr⟩).symm.trans (heq.trans (hdtc ⟨r', hr'⟩))
      exact congrArg Fin.val (hb.distinct _ _ this)
    · rw [records_image]
      intro _ r hr bid hbid
      obtain ⟨b, hid, hf, -, hcap⟩ := hclaim ⟨r, hr⟩ bid hbid
      refine ⟨⟨r, hr⟩, b, (hdtc ⟨r, hr⟩).symm, hf, hid, ?_⟩
      rw [← hid, hother, hid]
      exact hcap

/-- An image may be written at any time. -/
theorem Whole.safe_image (h : Whole c seam C m st) (hb : c.Blocks seam.id)
    (clearing : Option UInt32) : SafeTo c seam.id C st (st.put seam.id (m.image clearing)).2 := by
  refine SafeTo.put ⟨fun hne => absurd rfl hne, fun _ r hr bid hbid => ?_⟩
  let stored : Store :=
    ⟨Function.update st.blocks seam.id (m.image clearing), st.accepts, st.log⟩
  have hw : Whole c seam C (m.commitImage (m.image clearing)) stored := h.commit hb clearing rfl
  have himg : storedImage stored seam = m.image clearing :=
    storedImage_of_block hb.fits (by simp [stored])
  have hstored := hw.stored
  rw [himg] at hstored
  obtain ⟨i, b, hd, -, hid, hcap⟩ := (hstored (m.isImage_image clearing)).held
    (m.version_image clearing) r hr bid hbid
  refine ⟨i, hd, ?_⟩
  rw [← hid] at hcap ⊢
  dsimp only [stored] at hcap
  rwa [Function.update_of_ne (hb.image i b)] at hcap

theorem keeps_writeImage {p : Pass n} (hb : c.Blocks seam.id) (h : Keeps c seam C st p)
    (flush : Bool) : Keeps c seam C st (writeImage p seam flush) := by
  have hsafe := h.1.safe_image hb none
  have hput := p.store.put_cases seam.id (p.mem.image none)
  simp only [writeImage]
  split
  · exact h
  · split
    · exact h
    · split
      · split
        · rename_i hok
          rcases hput with ⟨hno, -, -⟩ | ⟨-, hblk, -⟩
          · rw [hno] at hok
            cases hok
          · exact ⟨(h.1.commit hb none hblk).of_eq rfl rfl rfl, h.2.trans hsafe⟩
        · rename_i hok
          rcases hput with ⟨-, hblk, -⟩ | ⟨hyes, -, -⟩
          · exact ⟨h.1.of_blocks hblk, h.2.trans hsafe⟩
          · exact absurd hyes hok
      · exact h

/-! ## Persisting and clearing -/

/-- Persisting respects the claims. -/
theorem Whole.persist (h : Whole c seam C m st) (hb : c.Blocks seam.id) (now : UInt64)
    (flush : Bool) :
    Whole c seam C (m.persist st now flush).2.1 (m.persist st now flush).2.2 ∧
      SafeTo c seam.id C st (m.persist st now flush).2.2 := by
  simp only [Memory.persist, h.store]
  split
  · exact ⟨h.of_eq rfl rfl h.store.symm, .refl st⟩
  · have hw : Whole c seam C { m with wrote := 0, store := some seam } st :=
      h.of_eq rfl rfl h.store.symm
    obtain ⟨hw, hsafe⟩ := keeps_tombstones hb (keeps_writeImage hb
      (keeps_writeSnapshots hb hw none) flush)
    exact ⟨hw.of_eq rfl rfl rfl, hsafe⟩

theorem Whole.persistClear (h : Whole c seam C m st) (hb : c.Blocks seam.id) (group : UInt32) :
    Whole c seam C (m.persistClear st group).2.1 (m.persistClear st group).2.2 ∧
      SafeTo c seam.id C st (m.persistClear st group).2.2 := by
  simp only [Memory.persistClear, h.store]
  have hw : Whole c seam C { m with wrote := 0, store := some seam } st :=
    h.of_eq rfl rfl h.store.symm
  have hk := keeps_writeSnapshots hb hw (some group)
  revert hk
  generalize writeSnapshots { m with wrote := 0, store := some seam } st (some group) = w
  intro hk
  split
  · exact ⟨hk.1.of_eq rfl rfl rfl, hk.2⟩
  · split
    · exact hk
    · have hput := w.store.put_cases seam.id (w.mem.image (some group))
      have hsafe := hk.2.trans (hk.1.safe_image hb (some group))
      split
      · rename_i hok
        rcases hput with ⟨hno, -, -⟩ | ⟨-, hblk, -⟩
        · rw [hno] at hok
          cases hok
        · exact ⟨(hk.1.commit hb (some group) hblk).of_eq rfl rfl rfl, hsafe⟩
      · rename_i hok
        rcases hput with ⟨-, hblk, -⟩ | ⟨hyes, -, -⟩
        · exact ⟨(hk.1.of_blocks hblk).of_eq rfl rfl rfl, hsafe⟩
        · exact absurd hyes hok

end

end Memory

end BloblyEmb.Fault
