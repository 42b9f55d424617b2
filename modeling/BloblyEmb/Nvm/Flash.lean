import BloblyEmb.Nvm.Journal

/-!
# What the journal keeps in flash

A driver changes the slot it programs and the sector it erases, and nothing else. Under such a
driver, whatever fails, the slots behind the cursor stay erased and every chained entry stays
backed: its parts lie in flash as a chain.
-/
namespace BloblyEmb.Nvm

variable {φ : Type} {ops : FlashOps φ}

/-- The bytes of a slot, zeros where it does not read. -/
def FlashOps.slot (ops : FlashOps φ) (f : φ) (s : Fin 2) (k : ℕ) : Ptr :=
  (ops.read f s k).getD fun _ => 0

/-- `slot_blank`: the verdict of the driver if it has one, or all ones. -/
def FlashOps.slotBlank (ops : FlashOps φ) (f : φ) (s : Fin 2) (k : ℕ) : Bool :=
  match ops.blank with
  | some b => b f s k
  | none =>
    match ops.read f s k with
    | none => false
    | some p => (p.slice 0 32).all (· == 0xFF)

/-- A flash driver: programming changes one slot and erasing one sector, a slot that reads back what
was programmed is not blank, an erased sector is blank, and a slot reported programmed reads back. -/
structure Sound (ops : FlashOps φ) : Prop where
  program_other : ∀ f s k p s' k', s' ≠ s ∨ k' ≠ k →
    ops.read (ops.program f s k p).2 s' k' = ops.read f s' k' ∧
      ops.slotBlank (ops.program f s k p).2 s' k' = ops.slotBlank f s' k'
  program_ok : ∀ f s k p, (ops.program f s k p).1 = true →
    ∃ q, ops.read (ops.program f s k p).2 s k = some q ∧ q.slice 0 32 = p.slice 0 32
  landed : ∀ f s k p q, ops.read (ops.program f s k p).2 s k = some q →
    q.slice 0 32 = p.slice 0 32 → parseRecord p ≠ none →
      ops.slotBlank (ops.program f s k p).2 s k = false
  erase_other : ∀ f s s' k, s' ≠ s → ops.read (ops.erase f s).2 s' k = ops.read f s' k ∧
    ops.slotBlank (ops.erase f s).2 s' k = ops.slotBlank f s' k
  erase_ok : ∀ f s k, (ops.erase f s).1 = true → ops.slotBlank (ops.erase f s).2 s k = true

/-- What a failure leaves is torn: a slot that was erased holds no valid record but the one that was
programmed, and an erase brings no valid record about. -/
structure Torn (ops : FlashOps φ) : Prop where
  program : ∀ f s k p, ops.slotBlank f s k = true → ∀ v,
    parseRecord (ops.slot (ops.program f s k p).2 s k) = some v → parseRecord p = some v
  erase : ∀ f s k, ops.slotBlank (ops.erase f s).2 s k = false → ∀ v,
    parseRecord (ops.slot (ops.erase f s).2 s k) = some v →
      ops.slotBlank f s k = false ∧ parseRecord (ops.slot f s k) = some v

/-- What is not blank stays as it is. -/
structure Keeps (ops : FlashOps φ) (f f' : φ) : Prop where
  read : ∀ s k, ops.slotBlank f s k = false → ops.read f' s k = ops.read f s k
  blank : ∀ s k, ops.slotBlank f s k = false → ops.slotBlank f' s k = false

theorem Keeps.refl (f : φ) : Keeps ops f f := ⟨fun _ _ _ => rfl, fun _ _ h => h⟩

theorem Keeps.trans {f f' f'' : φ} (h : Keeps ops f f') (h' : Keeps ops f' f'') :
    Keeps ops f f'' :=
  ⟨fun s k hb => (h'.read s k (h.blank s k hb)).trans (h.read s k hb),
    fun s k hb => h'.blank s k (h.blank s k hb)⟩

/-- The chain of an entry lies in flash, its data being `parts`. -/
structure Stored (ops : FlashOps φ) (slots : ℕ) (f : φ) (e : Entry) (parts : List (List UInt8)) :
    Prop where
  chain : IsChain (ops.slot f e.sector) e.refOff e.id e.seq e.len parts
  range : e.refOff + parts.length ≤ slots
  blank : ∀ k < parts.length, ops.slotBlank f e.sector (e.refOff + k) = false

/-- A chain in flash that is newer than every other record of its block. -/
structure Latest (ops : FlashOps φ) (slots : ℕ) (f : φ) (e : Entry) (parts : List (List UInt8)) :
    Prop where
  stored : Stored ops slots f e parts
  newest : ∀ s k, k < slots → ops.slotBlank f s k = false → ∀ lenf q,
    parseRecord (ops.slot f s k) = some (e.id, lenf, q) →
      (s = e.sector ∧ e.refOff ≤ k ∧ k < e.refOff + parts.length) ∨ q < e.seq

theorem parseRecord_zero : parseRecord (fun _ => 0) = none := by
  decide +kernel

/-- A slot that parses reads. -/
theorem read_of_parse {f : φ} {s : Fin 2} {k : ℕ} (h : parseRecord (ops.slot f s k) ≠ none) :
    ops.read f s k = some (ops.slot f s k) := by
  cases hr : ops.read f s k with
  | some p => rw [FlashOps.slot, hr]; rfl
  | none =>
    rw [FlashOps.slot, hr] at h
    exact absurd parseRecord_zero h

theorem PartAt.congr {slot slot' : ℕ → Ptr} {start : ℕ} {id : UInt16} {seq : UInt32} {j : ℕ}
    {payload : List UInt8} (h : PartAt slot start id seq j payload)
    (hs : slot' (start + j) = slot (start + j)) : PartAt slot' start id seq j payload := by
  obtain ⟨hparse, hbytes⟩ := h
  exact ⟨by rwa [hs], by rwa [hs]⟩

theorem IsChain.congr {slot slot' : ℕ → Ptr} {start : ℕ} {id : UInt16} {seq : UInt32} {total : ℕ}
    {parts : List (List UInt8)} (h : IsChain slot start id seq total parts)
    (hs : ∀ k < parts.length, slot' (start + k) = slot (start + k)) :
    IsChain slot' start id seq total parts :=
  ⟨h.block, h.range, h.count, h.length, h.size, h.first, fun j hj => (h.part j hj).congr (hs j hj)⟩

theorem Stored.keeps {slots : ℕ} {f f' : φ} {e : Entry} {parts : List (List UInt8)}
    (h : Stored ops slots f e parts) (hk : Keeps ops f f') : Stored ops slots f' e parts := by
  refine ⟨h.chain.congr fun k hlt => ?_, h.range, fun k hlt => hk.blank _ _ (h.blank k hlt)⟩
  rw [FlashOps.slot, hk.read _ _ (h.blank k hlt)]
  rfl

/-- A row of the table is well formed, and backed when it is chained. -/
def Backed (ops : FlashOps φ) (slots : ℕ) (f : φ) (e : Entry) : Prop :=
  if e.chained then ∃ parts, Stored ops slots f e parts
  else e.len ≤ dataMax ∧ e.id ≠ markerBlock ∧ e.id ≠ idReserved

theorem Backed.keeps {slots : ℕ} {f f' : φ} {e : Entry} (h : Backed ops slots f e)
    (hk : Keeps ops f f') : Backed ops slots f' e := by
  unfold Backed at *
  by_cases hc : e.chained
  · rw [if_pos hc] at h ⊢
    obtain ⟨parts, hs⟩ := h
    exact ⟨parts, hs.keeps hk⟩
  · rw [if_neg hc] at h ⊢
    exact h

/-- An entry takes as many records as a value of its length. -/
theorem Backed.records {slots : ℕ} {f : φ} {e : Entry} (h : Backed ops slots f e) :
    e.records = recordsFor e.len := by
  unfold Backed at h
  unfold Entry.records recordsFor
  by_cases hc : e.chained
  · rw [if_pos hc] at h ⊢
    obtain ⟨parts, hs⟩ := h
    rw [if_neg (Nat.not_le.mpr hs.chain.range.1)]
  · rw [if_neg hc] at h ⊢
    rw [if_pos h.1]

/-- A row holds a block that `put` takes, of a length that it takes. -/
theorem Backed.block {slots : ℕ} {f : φ} {e : Entry} (h : Backed ops slots f e) :
    e.id ≠ markerBlock ∧ e.id ≠ idReserved ∧ e.len ≤ chainDataMax := by
  unfold Backed at h
  by_cases hc : e.chained
  · rw [if_pos hc] at h
    obtain ⟨parts, hs⟩ := h
    exact ⟨hs.chain.block.1, hs.chain.block.2, hs.chain.range.2⟩
  · rw [if_neg hc] at h
    obtain ⟨hlen, h1, h2⟩ := h
    simp only [dataMax] at hlen
    exact ⟨h1, h2, by simp only [chainDataMax]; omega⟩

/-- What holds of a journal and its flash: every row is backed, the slots behind the cursor are
erased, and so is a partner that is known to be clean, which awaits no erase. -/
structure Inv (ops : FlashOps φ) (w : World φ) : Prop where
  backed : ∀ i, (w.j.table i).present → Backed ops w.j.slots w.flash (w.j.table i)
  tail : ∀ k, w.j.cursor ≤ k → k < w.j.slots → ops.slotBlank w.flash w.j.active k = true
  partner : w.j.partnerClean = true → ∀ k < w.j.slots,
    ops.slotBlank w.flash (other w.j.active) k = true
  pending : w.j.partnerClean = true → w.j.pendingErase = none
  idle : w.j.compacting = false

/-- No valid record has a sequence number above the last that was used. -/
def Bounded (ops : FlashOps φ) (w : World φ) : Prop :=
  ∀ s k, k < w.j.slots → ops.slotBlank w.flash s k = false → ∀ v,
    parseRecord (ops.slot w.flash s k) = some v → v.2.2.toNat ≤ w.j.maxSeq.toNat

/-! ## Appending -/

section Append

variable (hs : Sound ops) {w : World φ}
include hs

/-- What a program does to an erased slot. -/
theorem keeps_program {f : φ} {s : Fin 2} {k : ℕ} (p : Ptr) (hblank : ops.slotBlank f s k = true) :
    Keeps ops f (ops.program f s k p).2 := by
  have hne : ∀ s' k', ops.slotBlank f s' k' = false → s' ≠ s ∨ k' ≠ k := by
    intro s' k' h
    by_contra hcon
    push Not at hcon
    obtain ⟨rfl, rfl⟩ := hcon
    rw [hblank] at h
    cases h
  constructor
  · intro s' k' h
    exact (hs.program_other f s k p s' k' (hne s' k' h)).1
  · intro s' k' h
    rw [(hs.program_other f s k p s' k' (hne s' k' h)).2, h]

omit hs in
/-- `w'` is `w` after appends: what was in flash is there, the slots outside of those that the cursor
has passed are as they were, and of the journal only the cursor and the sequence number have moved. -/
structure Appended (ops : FlashOps φ) (w w' : World φ) : Prop where
  keeps : Keeps ops w.flash w'.flash
  blank : ∀ s k, s ≠ w.j.active ∨ k < w.j.cursor ∨ w'.j.cursor ≤ k →
    ops.slotBlank w'.flash s k = ops.slotBlank w.flash s k
  cursor : w.j.cursor ≤ w'.j.cursor
  bounded : Torn ops → Bounded ops w → Bounded ops w'
  limit : w'.j.maxSeq.toNat ≤ max w.j.maxSeq.toNat seqCeiling.toNat
  fields : w'.j = { w.j with cursor := w'.j.cursor, maxSeq := w'.j.maxSeq }

omit hs in
theorem Appended.refl (w : World φ) : Appended ops w w :=
  ⟨.refl _, fun _ _ _ => rfl, Nat.le_refl _, fun _ h => h, Nat.le_max_left _ _, rfl⟩

omit hs in
theorem Appended.active {w' : World φ} (h : Appended ops w w') : w'.j.active = w.j.active := by
  rw [h.fields]

omit hs in
theorem Appended.slots {w' : World φ} (h : Appended ops w w') : w'.j.slots = w.j.slots := by
  rw [h.fields]

omit hs in
theorem Appended.table {w' : World φ} (h : Appended ops w w') : w'.j.table = w.j.table := by
  rw [h.fields]

omit hs in
theorem Appended.mounted {w' : World φ} (h : Appended ops w w') : w'.j.mounted = w.j.mounted := by
  rw [h.fields]

omit hs in
theorem Appended.overflow {w' : World φ} (h : Appended ops w w') :
    w'.j.poolOverflow = w.j.poolOverflow := by
  rw [h.fields]

omit hs in
theorem Appended.partnerClean {w' : World φ} (h : Appended ops w w') :
    w'.j.partnerClean = w.j.partnerClean := by
  rw [h.fields]

omit hs in
theorem Appended.idle {w' : World φ} (h : Appended ops w w') :
    w'.j.compacting = w.j.compacting := by
  rw [h.fields]

omit hs in
theorem Appended.trans {w' w'' : World φ} (h : Appended ops w w') (h' : Appended ops w' w'') :
    Appended ops w w'' := by
  have hc := h.cursor
  have hc' := h'.cursor
  have hl := h.limit
  have hl' := h'.limit
  refine ⟨h.keeps.trans h'.keeps, fun s k hsk => ?_, Nat.le_trans hc hc',
    fun ht hb => h'.bounded ht (h.bounded ht hb), by omega, ?_⟩
  · rw [h'.blank s k (by rw [h.active]; omega), h.blank s k (by omega)]
  · rw [h'.fields, h.fields]

omit hs in
theorem toNat_nextSeq (h : w.j.maxSeq.toNat ≤ seqCeiling.toNat) :
    w.nextSeq.j.maxSeq.toNat = w.j.maxSeq.toNat + 1 := by
  have hceil : seqCeiling.toNat = 0xFFFFFF00 := rfl
  have h1 : (1 : UInt32).toNat = 1 := rfl
  have hadd : w.nextSeq.j.maxSeq.toNat = (w.j.maxSeq.toNat + (1 : UInt32).toNat) % 2 ^ 32 :=
    UInt32.toNat_add _ _
  omega

omit hs in
theorem bounded_nextSeq (h : w.j.maxSeq.toNat ≤ seqCeiling.toNat) (hb : Bounded ops w) :
    Bounded ops w.nextSeq := by
  intro s k hk hblank v hv
  rw [toNat_nextSeq h]
  exact Nat.le_succ_of_le (hb s k hk hblank v hv)

omit hs in
theorem appended_nextSeq (h : w.j.maxSeq < seqCeiling) : Appended ops w w.nextSeq := by
  have hlt := UInt32.lt_iff_toNat_lt.mp h
  refine ⟨.refl _, fun _ _ _ => rfl, Nat.le_refl _, fun _ => bounded_nextSeq (by omega), ?_, rfl⟩
  rw [toNat_nextSeq (by omega)]
  omega

/-- The slots from the cursor on are erased. -/
def TailBlank (ops : FlashOps φ) (w : World φ) : Prop :=
  ∀ k, w.j.cursor ≤ k → k < w.j.slots → ops.slotBlank w.flash w.j.active k = true

omit hs in
theorem Appended.tail {w' : World φ} (h : Appended ops w w') (ht : TailBlank ops w) :
    TailBlank ops w' := by
  intro k hk hlt
  rw [h.active, h.blank _ _ (.inr (.inr hk))]
  exact ht k (Nat.le_trans h.cursor hk) (by rwa [← h.slots])

/-- The driver does not fail on erased slots. -/
def Ready (ops : FlashOps φ) : Prop :=
  ∀ f s k p, ops.slotBlank f s k = true → (ops.program f s k p).1 = true

omit hs in
theorem sameRecord_of_slice {p q : Ptr} (h : p.slice 0 32 = q.slice 0 32) : SameRecord p q := by
  intro i hi
  have := Ptr.slice_eq_iff.mp h i (by omega) (by omega)
  exact this

/-- Programming the slot at the cursor. -/
theorem programSlot_spec {p : Ptr} (hp : ∀ v, parseRecord p = some v → v.2.2 = w.j.maxSeq)
    (hblank : ops.slotBlank w.flash w.j.active w.j.cursor = true) :
    Appended ops w (programSlot ops w p).2 ∧
      (programSlot ops w p).2.j = { w.j with cursor := w.j.cursor + 1 } ∧
      ((programSlot ops w p).1 = true →
        SameRecord (ops.slot (programSlot ops w p).2.flash w.j.active w.j.cursor) p ∧
          (parseRecord p ≠ none →
            ops.slotBlank (programSlot ops w p).2.flash w.j.active w.j.cursor = false)) ∧
      (Ready ops → (programSlot ops w p).1 = true) := by
  have hflash : (programSlot ops w p).2.flash =
      (ops.program w.flash w.j.active w.j.cursor p).2 := by
    unfold programSlot
    dsimp only
    split
    · rfl
    · split <;> rfl
  have hj : (programSlot ops w p).2.j = { w.j with cursor := w.j.cursor + 1 } := by
    unfold programSlot
    dsimp only
    split
    · rfl
    · split <;> rfl
  refine ⟨⟨?_, ?_, ?_, ?_, ?_, ?_⟩, hj, ?_, ?_⟩
  · rw [hflash]
    exact keeps_program hs p hblank
  · intro s k hsk
    rw [hj] at hsk
    rw [hflash]
    exact (hs.program_other _ _ _ _ s k (by dsimp only at hsk; omega)).2
  · rw [hj]
    exact Nat.le_succ _
  · intro ht hb s k hk hnb v hv
    rw [hj] at hk ⊢
    rw [hflash] at hnb hv
    by_cases hsk : s = w.j.active ∧ k = w.j.cursor
    · obtain ⟨rfl, rfl⟩ := hsk
      exact Nat.le_of_eq (congrArg UInt32.toNat (hp v (ht.program _ _ _ _ hblank v hv)))
    · obtain ⟨hread, hbl⟩ := hs.program_other w.flash w.j.active w.j.cursor p s k (by omega)
      rw [hbl] at hnb
      rw [FlashOps.slot, hread] at hv
      exact hb s k hk hnb v hv
  · rw [hj]
    exact Nat.le_max_left _ _
  · rw [hj]
  · intro hok
    have hread : ∃ q, ops.read (ops.program w.flash w.j.active w.j.cursor p).2 w.j.active
        w.j.cursor = some q ∧ q.slice 0 32 = p.slice 0 32 := by
      unfold programSlot at hok
      dsimp only at hok
      by_cases hprog : (ops.program w.flash w.j.active w.j.cursor p).1
      · exact hs.program_ok _ _ _ _ hprog
      · rw [if_neg hprog] at hok
        split at hok
        · cases hok
        · rename_i back hback
          exact ⟨back, hback, of_decide_eq_true hok⟩
    obtain ⟨q, hq, hsame⟩ := hread
    rw [hflash]
    refine ⟨?_, fun hp => hs.landed _ _ _ _ q hq hsame hp⟩
    rw [FlashOps.slot, hq]
    exact sameRecord_of_slice hsame
  · intro hready
    unfold programSlot
    dsimp only
    rw [if_pos (hready _ _ _ _ hblank)]

end Append

end BloblyEmb.Nvm
