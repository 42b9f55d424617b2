import Mathlib.Data.List.Pairwise
import BloblyEmb.Nvm.Codec

/-!
# Sequence numbers in append order

A driver that keeps the list of what it was given to program shows the order in which the journal
appends. Every operation takes fresh sequence numbers, one for each value or marker, and the records
of one value follow each other by the index of the part.
-/
namespace BloblyEmb.Nvm

/-- The driver with the list of the records that it was given, the newest last. -/
def FlashOps.logged {φ : Type} (ops : FlashOps φ) : FlashOps (φ × List Ptr) where
  read f s k := ops.read f.1 s k
  program f s k p := ((ops.program f.1 s k p).1, (ops.program f.1 s k p).2, f.2 ++ [p])
  erase f s := ((ops.erase f.1 s).1, (ops.erase f.1 s).2, f.2)
  blank := ops.blank.map fun b f s k => b f.1 s k

def blockOf (p : Ptr) : UInt16 := rd16 p 0

def lenFieldOf (p : Ptr) : UInt16 := rd16 p 2

def seqOf (p : Ptr) : UInt32 := rd32 p 4

/-- A record before another: the sequence number is smaller, or both are parts of one value in the
order of their index. -/
def Before (p q : Ptr) : Prop :=
  seqOf p < seqOf q ∨ (seqOf p = seqOf q ∧ blockOf p = blockOf q ∧ isPart (lenFieldOf p) ∧
    isPart (lenFieldOf q) ∧ partIdx (lenFieldOf p) < partIdx (lenFieldOf q))

section Encode

variable (block lenField : UInt16) (seq : UInt32) (data : Ptr)

@[simp] theorem blockOf_encode : blockOf (encodeRecord block lenField seq data) = block := by
  rw [blockOf, rd16_congr (q := wr32 (wr16 (wr16 (fun _ => 0) 0 block) 2 lenField) 4 seq) (b := 0)
    fun i hi => encodeRecord_head (by omega), rd16_wr32_of_ne _ _ _ _ (by omega),
    rd16_wr16_of_ne _ _ _ _ (by omega), rd16_wr16]

@[simp] theorem lenFieldOf_encode :
    lenFieldOf (encodeRecord block lenField seq data) = lenField := by
  rw [lenFieldOf, rd16_congr (q := wr32 (wr16 (wr16 (fun _ => 0) 0 block) 2 lenField) 4 seq)
    (b := 2) fun i hi => encodeRecord_head (by omega), rd16_wr32_of_ne _ _ _ _ (by omega), rd16_wr16]

@[simp] theorem seqOf_encode : seqOf (encodeRecord block lenField seq data) = seq := by
  rw [seqOf, rd32_congr (q := wr32 (wr16 (wr16 (fun _ => 0) 0 block) 2 lenField) 4 seq) (b := 4)
    fun i hi => encodeRecord_head (by omega), rd32_wr32]

end Encode

variable {φ : Type} {ops : FlashOps φ}

theorem logged_slotBlank (f : φ × List Ptr) (s : Fin 2) (k : ℕ) :
    ops.logged.slotBlank f s k = ops.slotBlank f.1 s k := by
  unfold FlashOps.slotBlank FlashOps.logged
  cases ops.blank <;> rfl

/-- The list changes nothing of what the driver does. -/
theorem logged_sound (hs : Sound ops) : Sound ops.logged := by
  refine ⟨fun f s k p s' k' hne => ?_, fun f s k p hok => hs.program_ok f.1 s k p hok,
    fun f s k p q hread hsame hp => ?_, fun f s s' k hne => ?_, fun f s k hok => ?_⟩
  · rw [logged_slotBlank, logged_slotBlank]
    exact hs.program_other f.1 s k p s' k' hne
  · rw [logged_slotBlank]
    exact hs.landed f.1 s k p q hread hsame hp
  · rw [logged_slotBlank, logged_slotBlank]
    exact hs.erase_other f.1 s s' k hne
  · rw [logged_slotBlank]
    exact hs.erase_ok f.1 s k hok

variable {w w' w'' : World (φ × List Ptr)}

/-- What is appended: records in order whose numbers are fresh and do not pass `top`. -/
structure Numbered (top : ℕ) (w w' : World (φ × List Ptr)) : Prop where
  records : ∃ l, w'.flash.2 = w.flash.2 ++ l ∧ l.Pairwise Before ∧
    ∀ p ∈ l, w.j.maxSeq < seqOf p ∧ seqOf p ≤ w'.j.maxSeq
  grows : w.j.maxSeq ≤ w'.j.maxSeq
  limit : w'.j.maxSeq.toNat ≤ max w.j.maxSeq.toNat top

variable {top : ℕ}

theorem Numbered.refl (w : World (φ × List Ptr)) : Numbered top w w :=
  ⟨⟨[], by simp, .nil, by simp⟩, UInt32.le_refl _, Nat.le_max_left _ _⟩

/-- A change that appends nothing. -/
theorem Numbered.of_eq (hlog : w'.flash.2 = w.flash.2) (hseq : w'.j.maxSeq = w.j.maxSeq) :
    Numbered top w w' :=
  ⟨⟨[], by simp [hlog], .nil, by simp⟩, by rw [hseq]; exact UInt32.le_refl _,
    by rw [hseq]; exact Nat.le_max_left _ _⟩

theorem Numbered.trans (h : Numbered top w w') (h' : Numbered top w' w'') : Numbered top w w'' := by
  obtain ⟨l, hl, hord, hfresh⟩ := h.records
  obtain ⟨l', hl', hord', hfresh'⟩ := h'.records
  have hlim := h.limit
  have hlim' := h'.limit
  refine ⟨⟨l ++ l', by rw [hl', hl, List.append_assoc], ?_, fun p hp => ?_⟩,
    UInt32.le_trans h.grows h'.grows, by omega⟩
  · refine List.pairwise_append.mpr ⟨hord, hord', fun p hp q hq => .inl ?_⟩
    exact UInt32.lt_of_le_of_lt (hfresh p hp).2 (hfresh' q hq).1
  · rcases List.mem_append.mp hp with hp | hp
    · exact ⟨(hfresh p hp).1, UInt32.le_trans (hfresh p hp).2 h'.grows⟩
    · exact ⟨UInt32.lt_of_le_of_lt h.grows (hfresh' p hp).1, (hfresh' p hp).2⟩

theorem Numbered.le_top {top' : ℕ} (h : Numbered top w w') (hle : top ≤ top') :
    Numbered top' w w' :=
  ⟨h.records, h.grows, Nat.le_trans h.limit (max_le_max_left _ hle)⟩

/-- Nothing is appended above the top. -/
theorem Numbered.frozen (h : Numbered top w w') (hc : top ≤ w.j.maxSeq.toNat) :
    w'.flash.2 = w.flash.2 ∧ w'.j.maxSeq = w.j.maxSeq := by
  obtain ⟨l, hl, -, hfresh⟩ := h.records
  have hlim := h.limit
  have hgrows := UInt32.le_iff_toNat_le.mp h.grows
  refine ⟨?_, UInt32.toNat_inj.mp (by omega)⟩
  cases l with
  | nil => rw [hl, List.append_nil]
  | cons p l =>
    obtain ⟨h1, h2⟩ := hfresh p List.mem_cons_self
    have := UInt32.lt_iff_toNat_lt.mp h1
    have := UInt32.le_iff_toNat_le.mp h2
    omega

/-! ## One record and the parts of a value -/

variable (ops)

theorem programSlot_log (w : World (φ × List Ptr)) (p : Ptr) :
    (programSlot ops.logged w p).2.flash.2 = w.flash.2 ++ [p] ∧
      (programSlot ops.logged w p).2.j = { w.j with cursor := w.j.cursor + 1 } := by
  unfold programSlot
  dsimp only
  split
  · exact ⟨rfl, rfl⟩
  · split <;> exact ⟨rfl, rfl⟩

/-- Records of the next number that are in order among themselves. -/
theorem numbered_of_list {l : List Ptr} (hlt : w.j.maxSeq.toNat < top)
    (htop : top ≤ seqCeiling.toNat + 1) (hlog : w'.flash.2 = w.flash.2 ++ l)
    (hseq : w'.j.maxSeq = w.nextSeq.j.maxSeq) (hord : l.Pairwise Before)
    (hone : ∀ p ∈ l, seqOf p = w.nextSeq.j.maxSeq) : Numbered top w w' := by
  have hnext := toNat_nextSeq (w := w) (by omega)
  have hfresh : w.j.maxSeq < w.nextSeq.j.maxSeq := UInt32.lt_iff_toNat_lt.mpr (by omega)
  refine ⟨⟨l, hlog, hord, fun p hp => ?_⟩, ?_, ?_⟩
  · rw [hone p hp, hseq]
    exact ⟨hfresh, UInt32.le_refl _⟩
  · rw [hseq]
    exact UInt32.le_of_lt hfresh
  · rw [hseq]
    omega

theorem numbered_slot (hlt : w.j.maxSeq.toNat < top) (htop : top ≤ seqCeiling.toNat + 1)
    (block lenField : UInt16) (data : Ptr) : Numbered top w (programSlot ops.logged w.nextSeq
      (encodeRecord block lenField w.nextSeq.j.maxSeq data)).2 := by
  obtain ⟨hlog, hj⟩ := programSlot_log ops w.nextSeq
    (encodeRecord block lenField w.nextSeq.j.maxSeq data)
  refine numbered_of_list hlt htop hlog (by rw [hj]) (List.pairwise_singleton _ _) fun p hp => ?_
  rw [List.mem_singleton.mp hp, seqOf_encode]

/-- Parts of block `id` under the number `seq`, in the order of their index and from index `k` on. -/
structure Parts (id : UInt16) (seq : UInt32) (k : ℕ) (l : List Ptr) : Prop where
  part : ∀ p ∈ l, seqOf p = seq ∧ blockOf p = id ∧ isPart (lenFieldOf p) ∧
    k ≤ partIdx (lenFieldOf p)
  order : l.Pairwise Before

theorem Parts.nil (id : UInt16) (seq : UInt32) (k : ℕ) : Parts id seq k [] := ⟨by simp, .nil⟩

theorem Parts.cons {id lenf : UInt16} {seq : UInt32} {k : ℕ} {l : List Ptr} {data : Ptr}
    (hpart : isPart lenf) (hidx : partIdx lenf = k) (h : Parts id seq (k + 1) l) :
    Parts id seq k (encodeRecord id lenf seq data :: l) := by
  refine ⟨fun p hp => ?_, List.pairwise_cons.mpr ⟨fun p hp => .inr ?_, h.order⟩⟩
  · rcases List.mem_cons.mp hp with rfl | hp
    · rw [seqOf_encode, blockOf_encode, lenFieldOf_encode]
      exact ⟨rfl, rfl, hpart, Nat.le_of_eq hidx.symm⟩
    · obtain ⟨h1, h2, h3, h4⟩ := h.part p hp
      exact ⟨h1, h2, h3, by omega⟩
  · obtain ⟨h1, h2, h3, h4⟩ := h.part p hp
    rw [seqOf_encode, blockOf_encode, lenFieldOf_encode]
    exact ⟨h1.symm, h2.symm, hpart, h3, by omega⟩

theorem programParts_log (id : UInt16) (seq : UInt32) (l : List (UInt16 × Ptr)) (k : ℕ)
    (hl : ∀ i, (hi : i < l.length) → isPart l[i].1 ∧ partIdx l[i].1 = k + i)
    (w : World (φ × List Ptr)) :
    ∃ log, (programParts ops.logged id seq l w).2.flash.2 = w.flash.2 ++ log ∧
      Parts id seq k log ∧ (programParts ops.logged id seq l w).2.j.maxSeq = w.j.maxSeq := by
  induction l generalizing k w with
  | nil => exact ⟨[], by simp [programParts], .nil _ _ _, rfl⟩
  | cons x l ih =>
    obtain ⟨lenf, d⟩ := x
    obtain ⟨hpart, hidx⟩ := hl 0 (Nat.succ_pos _)
    have hidx : partIdx lenf = k := hidx
    obtain ⟨hlog, hj⟩ := programSlot_log ops w (encodeRecord id lenf seq d)
    rw [programParts]
    split
    · obtain ⟨log, h1, h2, h3⟩ := ih (k + 1) (fun i hi => by
        have := hl (i + 1) (Nat.succ_lt_succ hi)
        rw [List.getElem_cons_succ] at this
        exact ⟨this.1, by omega⟩) (programSlot ops.logged w (encodeRecord id lenf seq d)).2
      refine ⟨encodeRecord id lenf seq d :: log, ?_, h2.cons hpart hidx, by rw [h3, hj]⟩
      rw [h1, hlog, List.append_assoc, List.singleton_append]
    · exact ⟨[encodeRecord id lenf seq d], hlog, (Parts.nil _ _ _).cons hpart hidx, by rw [hj]⟩

theorem copyParts_log (e : Entry) (seq : UInt32) (n k : ℕ) (w : World (φ × List Ptr)) :
    ∃ log, (copyParts ops.logged e seq (List.range' k n) w).2.flash.2 = w.flash.2 ++ log ∧
      Parts e.id seq k log ∧
        (copyParts ops.logged e seq (List.range' k n) w).2.j.maxSeq = w.j.maxSeq := by
  induction n generalizing k w with
  | zero => exact ⟨[], by simp [copyParts], .nil _ _ _, rfl⟩
  | succ n ih =>
    have hnone : ∃ log, w.flash.2 = w.flash.2 ++ log ∧ Parts e.id seq k log ∧
        w.j.maxSeq = w.j.maxSeq := ⟨[], by simp, .nil _ _ _, rfl⟩
    rw [List.range'_succ, copyParts]
    split
    · exact hnone
    · rename_i old _
      split
      · exact hnone
      · rename_i blk lenf oseq _
        split
        · exact hnone
        · rename_i hok
          push Not at hok
          obtain ⟨-, -, hpart, hidx⟩ := hok
          obtain ⟨hlog, hj⟩ := programSlot_log ops w
            (encodeRecord e.id lenf seq (old.add 8))
          dsimp only
          split
          · obtain ⟨log, h1, h2, h3⟩ := ih (k + 1)
              (programSlot ops.logged w (encodeRecord e.id lenf seq (old.add 8))).2
            refine ⟨encodeRecord e.id lenf seq (old.add 8) :: log, ?_, h2.cons hpart hidx,
              by rw [h3, hj]⟩
            rw [h1, hlog, List.append_assoc, List.singleton_append]
          · exact ⟨[encodeRecord e.id lenf seq (old.add 8)], hlog,
              (Parts.nil _ _ _).cons hpart hidx, by rw [hj]⟩

/-! ## The operations -/

theorem roomFor_seq {j : Journal} {n : ℕ} (h : roomFor j n) :
    j.maxSeq.toNat < seqCeiling.toNat := by
  simp only [roomFor, decide_eq_true_eq] at h
  exact UInt32.lt_iff_toNat_lt.mp h.1

theorem emitEntry_numbered (e : Entry) (w : World (φ × List Ptr)) :
    Numbered seqCeiling.toNat w (emitEntry ops.logged e w).2 := by
  unfold emitEntry
  by_cases hroom : roomFor w.j (if e.chained then chainParts e.len else 1) = true
  · have hseq := roomFor_seq hroom
    rw [if_neg (by simp [hroom])]
    by_cases hc : e.chained = true
    · simp only [hc, if_true]
      obtain ⟨log, h1, h2, h3⟩ := copyParts_log ops e w.nextSeq.j.maxSeq (chainParts e.len) 0
        w.nextSeq
      rw [List.range_eq_range']
      exact numbered_of_list hseq (Nat.le_succ _) h1 h3 h2.order fun p hp => (h2.part p hp).1
    · simp only [hc]
      exact numbered_slot ops hseq (Nat.le_succ _) _ _ _
  · rw [if_pos hroom]
    exact .refl w

theorem emitMarker_numbered (w : World (φ × List Ptr)) :
    Numbered seqCeiling.toNat w (emitMarker ops.logged w).2 := by
  unfold emitMarker
  split
  · exact .refl w
  · rename_i hroom
    exact numbered_slot ops (roomFor_seq (by simpa using hroom)) (Nat.le_succ _) _ _ _

theorem rehomeRow_numbered (s : Fin 2) (r : Bool × World (φ × List Ptr)) (i : Fin maxBlocks) :
    Numbered seqCeiling.toNat r.2 (rehomeRow ops.logged s r i).2 := by
  unfold rehomeRow
  split
  · have h := emitEntry_numbered ops (r.2.j.table i) r.2
    generalize emitEntry ops.logged (r.2.j.table i) r.2 = q at h ⊢
    obtain ⟨new, w⟩ := q
    cases new with
    | none => exact h
    | some v => exact h.trans (.of_eq rfl rfl)
  · exact .refl _

theorem rehomeRows_numbered (s : Fin 2) (l : List (Fin maxBlocks))
    (r : Bool × World (φ × List Ptr)) : Numbered seqCeiling.toNat r.2 (l.foldl (rehomeRow ops.logged s) r).2 := by
  induction l generalizing r with
  | nil => exact .refl _
  | cons i l ih => exact (rehomeRow_numbered ops s r i).trans (ih _)

theorem rehomeStrays_numbered (s : Fin 2) (w : World (φ × List Ptr)) :
    Numbered seqCeiling.toNat w (rehomeStrays ops.logged s w).2 := by
  have h := rehomeRows_numbered ops s (List.finRange maxBlocks) (true, w)
  unfold rehomeStrays
  generalize (List.finRange maxBlocks).foldl (rehomeRow ops.logged s) (true, w) = r at h ⊢
  by_cases hs : s = w.j.active
  · rw [if_pos hs]
    exact .refl w
  · rw [if_neg hs]
    by_cases hz : strays w.j.table s = 0
    · rw [if_pos hz]
      split
      · exact emitMarker_numbered ops w
      · exact .refl w
    · rw [if_neg hz]
      by_cases hroom : w.j.slots - w.j.cursor < strays w.j.table s + if w.j.tailClean then 1 else 0
      · rw [if_pos hroom]
        exact .refl w
      · rw [if_neg hroom]
        dsimp only
        by_cases hok : r.1 = true
        · rw [if_neg (by simp [hok])]
          split
          · exact (h.trans (emitMarker_numbered ops _)).trans (.of_eq rfl rfl)
          · exact h
        · rw [if_pos hok]
          exact h

theorem copyAll_numbered (l : List (Fin maxBlocks)) (news : Fin maxBlocks → ℕ × UInt32)
    (w : World (φ × List Ptr)) : Numbered seqCeiling.toNat w (copyAll ops.logged l news w).2 := by
  induction l generalizing news w with
  | nil => exact .refl w
  | cons i l ih =>
    rw [copyAll]
    split
    · have h := emitEntry_numbered ops (w.j.table i) w
      generalize emitEntry ops.logged (w.j.table i) w = q at h ⊢
      obtain ⟨new, w'⟩ := q
      cases new with
      | none => exact h
      | some v => exact h.trans (ih _ _)
    · exact ih _ _

theorem compactInto_numbered (w : World (φ × List Ptr)) :
    Numbered seqCeiling.toNat w (compactInto ops.logged w).2 := by
  have hcopy : Numbered seqCeiling.toNat w (copyAll ops.logged (List.finRange maxBlocks) (fun _ => (0, 0))
      w.copying).2 := by
    refine .trans ?_ (copyAll_numbered ops _ _ _)
    exact .of_eq rfl rfl
  unfold compactInto
  generalize copyAll ops.logged (List.finRange maxBlocks) (fun _ => (0, 0)) w.copying = r at hcopy ⊢
  obtain ⟨news, w₁⟩ := r
  cases news with
  | none => exact hcopy.trans (.of_eq rfl rfl)
  | some news =>
    dsimp only
    split
    · have hmark := hcopy.trans (emitMarker_numbered ops w₁)
      generalize emitMarker ops.logged w₁ = m at hmark ⊢
      obtain ⟨ok, w₂⟩ := m
      cases ok <;> exact hmark.trans (.of_eq rfl rfl)
    · exact hcopy.trans (.of_eq rfl rfl)

theorem compact_numbered (w : World (φ × List Ptr)) : Numbered seqCeiling.toNat w (compact ops.logged w).2 := by
  unfold compact
  split
  · exact .refl w
  · split
    · exact .refl w
    · split
      · exact .refl w
      · split
        · exact compactInto_numbered ops w
        · have h := rehomeStrays_numbered ops (other w.j.active) w
          dsimp only
          split
          · exact h
          · have herase : Numbered seqCeiling.toNat w
                { (rehomeStrays ops.logged (other w.j.active) w).2 with
                  flash := (ops.logged.erase (rehomeStrays ops.logged (other w.j.active) w).2.flash
                    (other w.j.active)).2 } := h.trans (.of_eq rfl rfl)
            split
            · exact herase.trans (compactInto_numbered ops _)
            · exact herase

/-- `ensure_space`: where there is room, sequence numbers are left. -/
theorem ensureSpace_numbered (n : ℕ) (w : World (φ × List Ptr)) :
    Numbered seqCeiling.toNat w (ensureSpace ops.logged n w).2 ∧
      ((ensureSpace ops.logged n w).1 = true → w.j.maxSeq.toNat < seqCeiling.toNat) := by
  unfold ensureSpace
  split
  · exact ⟨.refl w, fun h => by cases h⟩
  · rename_i hc
    refine ⟨?_, fun _ => Nat.lt_of_not_le fun h => hc (UInt32.le_iff_toNat_le.mpr h)⟩
    split
    · split
      · exact .refl w
      · split
        · exact .refl w
        · dsimp only
          split
          · exact compact_numbered ops w
          · split <;> exact compact_numbered ops w
    · exact .refl w

/-- What an operation appends: numbers up to one above the ceiling, and nothing once it is reached. -/
structure Appends (w w' : World (φ × List Ptr)) : Prop where
  numbered : Numbered (seqCeiling.toNat + 1) w w'
  frozen : seqCeiling ≤ w.j.maxSeq → w'.flash.2 = w.flash.2 ∧ w'.j.maxSeq = w.j.maxSeq

theorem Numbered.appends (h : Numbered seqCeiling.toNat w w') : Appends w w' :=
  ⟨h.le_top (Nat.le_succ _), fun hc => h.frozen (UInt32.le_iff_toNat_le.mp hc)⟩

theorem Appends.refl (w : World (φ × List Ptr)) : Appends w w := (Numbered.refl w).appends

theorem Appends.trans (h : Appends w w') (h' : Appends w' w'') : Appends w w'' := by
  refine ⟨h.numbered.trans h'.numbered, fun hc => ?_⟩
  obtain ⟨h1, h2⟩ := h.frozen hc
  obtain ⟨h3, h4⟩ := h'.frozen (by rw [h2]; exact hc)
  exact ⟨h3.trans h1, h4.trans h2⟩

/-- A write that finds no space. -/
theorem appends_spaceless {n : ℕ} : Appends w (ensureSpace ops.logged n w).2 :=
  (ensureSpace_numbered ops n w).1.appends

/-- A write that finds space. -/
theorem appends_spaced {n : ℕ} (h : (ensureSpace ops.logged n w).1 = true)
    (hnext : ∀ w₀ : World (φ × List Ptr), w₀.j.maxSeq.toNat < seqCeiling.toNat + 1 →
      w₀ = (ensureSpace ops.logged n w).2 → Numbered (seqCeiling.toNat + 1) w₀ w') :
    Appends w w' := by
  obtain ⟨hspace, hok⟩ := ensureSpace_numbered ops n w
  have hlt := hok h
  have hlim := hspace.limit
  refine ⟨(hspace.le_top (Nat.le_succ _)).trans (hnext _ (by omega) rfl), fun hc => ?_⟩
  have := UInt32.le_iff_toNat_le.mp hc
  omega

/-- The parts of a value have their index. -/
theorem partRecords_index {data : List UInt8} (hmax : data.length ≤ chainDataMax)
    (hlong : dataMax < data.length) (i : ℕ)
    (hi : i < (partRecords data (chainParts data.length) (chainParts data.length) 0 0).length) :
    isPart (partRecords data (chainParts data.length) (chainParts data.length) 0 0)[i].1 ∧
      partIdx (partRecords data (chainParts data.length) (chainParts data.length) 0 0)[i].1 =
        0 + i := by
  have hl := partRecords_eq data (chainParts data.length) 0 (Nat.zero_add _)
  have hsrc : srcAt data.length 0 = 0 := rfl
  rw [hsrc] at hl
  simp only [hl, List.length_map, List.length_range'] at hi
  have hcount := chainParts_bounds data.length
  simp only [chainDataMax] at hmax
  obtain ⟨h1, h2, -⟩ := partField_spec (by omega : i < 32) (size_payload hlong hi).2
  simp only [hl, List.getElem_map, List.getElem_range', Nat.zero_add, Nat.one_mul]
  exact ⟨h1, h2⟩

theorem programValue_numbered {block : UInt16} {data : List UInt8} (hmax : data.length ≤ chainDataMax)
    (hlt : w.j.maxSeq.toNat < top) (htop : top ≤ seqCeiling.toNat + 1) :
    Numbered top w (programValue ops.logged block data w.nextSeq.j.maxSeq w.nextSeq).2 := by
  unfold programValue
  split
  · rename_i hlong
    obtain ⟨log, h1, h2, h3⟩ := programParts_log ops block w.nextSeq.j.maxSeq
      (partRecords data (chainParts data.length) (chainParts data.length) 0 0) 0
      (partRecords_index hmax hlong) w.nextSeq
    exact numbered_of_list hlt htop h1 h3 h2.order fun p hp => (h2.part p hp).1
  · exact numbered_slot ops hlt htop _ _ _

theorem append_appends {block : UInt16} {data : List UInt8} (hmax : data.length ≤ chainDataMax) :
    Appends w (append ops.logged block data w).2 := by
  unfold append
  simp only [nparts_eq, append_records]
  by_cases hok : (ensureSpace ops.logged (recordsFor data.length) w).1 = true
  · rw [if_neg (by simp [hok])]
    cases slotFor (ensureSpace ops.logged (recordsFor data.length) w).2.j.table block with
    | none => exact appends_spaceless ops
    | some i =>
      dsimp only
      have hprog : ∀ w₀ : World (φ × List Ptr), w₀.j.maxSeq.toNat < seqCeiling.toNat + 1 →
          Numbered (seqCeiling.toNat + 1) w₀ (programValue ops.logged block data
            w₀.dirtied.nextSeq.j.maxSeq w₀.dirtied.nextSeq).2 := by
        intro w₀ hlt
        have hdirty : Numbered (seqCeiling.toNat + 1) w₀ w₀.dirtied := .of_eq rfl rfl
        exact hdirty.trans (programValue_numbered ops hmax hlt (Nat.le_refl _))
      refine appends_spaced ops hok fun w₀ hlt hw₀ => ?_
      rw [← hw₀]
      split
      · exact hprog w₀ hlt
      · exact (hprog w₀ hlt).trans (.of_eq rfl rfl)
  · rw [if_pos hok]
    exact appends_spaceless ops

/-- Every operation appends in order. -/
theorem step_appends (w : World (φ × List Ptr)) (o : Op) : Appends w (step ops.logged w o) := by
  cases o with
  | put block data =>
    change Appends w (put ops.logged block data w).2
    unfold put
    split
    · exact .refl w
    · split
      · exact .refl w
      · rename_i hlen
        split
        · exact .refl w
        · push Not at hlen
          exact append_appends ops hlen.2
  | markClean =>
    change Appends w (markClean ops.logged w).2
    unfold markClean
    split
    · exact .refl w
    · dsimp only
      split
      · exact appends_spaceless ops
      · rename_i hok
        refine appends_spaced ops (by simpa using hok) fun w₀ hlt hw₀ => ?_
        have hslot := numbered_slot ops hlt (Nat.le_refl _) markerBlock 0 fun _ => 0
        rw [← hw₀]
        split
        · exact hslot.trans (.of_eq rfl rfl)
        · exact hslot
  | compact => exact (compact_numbered ops w).appends
  | erasePending =>
    change Appends w (erasePending ops.logged w).2
    unfold erasePending
    split
    · exact .refl w
    · split
      · exact .refl w
      · split
        · exact .refl w
        · split
          · exact .refl w
          · rename_i s _ _ _
            have h := rehomeStrays_numbered ops s w
            refine Numbered.appends ?_
            dsimp only
            split
            · exact h
            · split
              · exact h.trans (.of_eq rfl rfl)
              · exact h.trans (.of_eq rfl rfl)
  | prune keep =>
    change Appends w (prune keep w)
    refine Numbered.appends (.of_eq ?_ ?_)
    · unfold prune
      split <;> rfl
    · unfold prune
      split <;> rfl

theorem run_appends (os : List Op) (w : World (φ × List Ptr)) : Appends w (run ops.logged w os) := by
  induction os generalizing w with
  | nil => exact .refl w
  | cons o os ih => exact (step_appends ops w o).trans (ih _)

/-- A frozen journal refuses what would append. -/
theorem frozen_refuses (hc : seqCeiling ≤ w.j.maxSeq) (block : UInt16) (data : List UInt8) :
    (put ops.logged block data w).1 = false ∧ (markClean ops.logged w).1 = false := by
  have hspace : ∀ n, ensureSpace ops.logged n w = (false, w) := fun n => by
    rw [ensureSpace, if_pos hc]
  constructor
  · unfold put
    split
    · rfl
    · split
      · rfl
      · split
        · rfl
        · rw [append]
          dsimp only
          rw [hspace, if_pos (by simp)]
  · unfold markClean
    split
    · rfl
    · dsimp only
      rw [hspace, if_pos (by simp)]

end BloblyEmb.Nvm
