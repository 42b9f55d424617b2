import BloblyEmb.Nvm.Compaction

/-!
# Accepted values

What `append` leaves: the new value in its row and every other value where it was, the journal being
compacted in between if it had to.
-/
namespace BloblyEmb.Nvm

/-! ## Rows -/

theorem find_some {t : Fin maxBlocks → Entry} {id : UInt16} {i : Fin maxBlocks}
    (h : find t id = some i) : (t i).present = true ∧ (t i).id = id := by
  have := List.find?_some h
  simpa using this

theorem find_none {t : Fin maxBlocks → Entry} {id : UInt16} (h : find t id = none)
    {i : Fin maxBlocks} (hp : (t i).present = true) : (t i).id ≠ id := by
  have := List.find?_eq_none.mp h i (List.mem_finRange i)
  simpa [hp] using this

theorem find_congr' {t t' : Fin maxBlocks → Entry} {id : UInt16}
    (h : ∀ i, ((t' i).present && (t' i).id == id) = ((t i).present && (t i).id == id)) :
    find t' id = find t id := by
  simp only [find, h]

theorem find_congr {t t' : Fin maxBlocks → Entry} (id : UInt16)
    (h : ∀ i, (t' i).present = (t i).present ∧ (t' i).id = (t i).id) : find t' id = find t id := by
  simp only [find, (h _).1, (h _).2]

theorem slotFor_congr {t t' : Fin maxBlocks → Entry} (id : UInt16)
    (h : ∀ i, (t' i).present = (t i).present ∧ (t' i).id = (t i).id) :
    slotFor t' id = slotFor t id := by
  simp only [slotFor, find_congr id h, (h _).1]

/-- A row for a block is its own, or free when it has none. -/
theorem slotFor_some {t : Fin maxBlocks → Entry} {id : UInt16} {i : Fin maxBlocks}
    (h : slotFor t id = some i) :
    find t id = some i ∨ (find t id = none ∧ (t i).present = false) := by
  unfold slotFor at h
  cases hf : find t id with
  | some k =>
    rw [hf] at h
    exact .inl h
  | none =>
    rw [hf] at h
    have := List.find?_some h
    exact .inr ⟨rfl, by simpa using this⟩

theorem slotFor_of_find {t : Fin maxBlocks → Entry} {id : UInt16} {i : Fin maxBlocks}
    (h : find t id = some i) : slotFor t id = some i := by
  rw [slotFor, h]

/-- The row of a block after a write to a row for it. -/
theorem find_written {t t' : Fin maxBlocks → Entry} {id : UInt16} {i : Fin maxBlocks}
    (h : ∀ j ≠ i, (t' j).present = (t j).present ∧ (t' j).id = (t j).id)
    (hrow : slotFor t id = some i) (hp : (t' i).present = true) (hid : (t' i).id = id) :
    find t' id = some i := by
  rcases slotFor_some hrow with hf | ⟨hf, -⟩
  · rw [← hf]
    refine find_congr' fun k => ?_
    by_cases hk : k = i
    · subst hk
      obtain ⟨h1, h2⟩ := find_some hf
      simp [hp, hid, h1, h2]
    · rw [(h k hk).1, (h k hk).2]
  · cases hfind : find t' id with
    | none => exact absurd hid (find_none hfind hp)
    | some k =>
      obtain ⟨h1, h2⟩ := find_some hfind
      by_cases hki : k = i
      · rw [hki]
      · rw [(h k hki).1] at h1
        rw [(h k hki).2] at h2
        exact absurd h2 (find_none hf h1)

/-- The row of a block after a write to a row for another block. -/
theorem find_other {t t' : Fin maxBlocks → Entry} {id id' : UInt16} {i : Fin maxBlocks}
    (h : ∀ j ≠ i, (t' j).present = (t j).present ∧ (t' j).id = (t j).id)
    (hrow : slotFor t id' = some i) (hne : id' ≠ id) (hid : (t' i).id = id') :
    find t' id = find t id := by
  refine find_congr' fun k => ?_
  by_cases hk : k = i
  · subst hk
    rcases slotFor_some hrow with hf | ⟨-, hfree⟩
    · simp [hid, (find_some hf).2, beq_false_of_ne hne]
    · simp [hid, hfree, beq_false_of_ne hne]
  · rw [(h k hk).1, (h k hk).2]

/-- The journal with another table. -/
def World.tabled {φ : Type} (w : World φ) (t : Fin maxBlocks → Entry) : World φ :=
  { w with j := { w.j with table := t } }

@[simp] theorem tabled_table {φ : Type} (w : World φ) (t : Fin maxBlocks → Entry) :
    (w.tabled t).j.table = t := rfl

/-! ## The parts that `append` writes -/

theorem partRecords_eq (data : List UInt8) (n k : ℕ) (hk : k + n = chainParts data.length) :
    partRecords data (chainParts data.length) n k (srcAt data.length k) =
      (List.range' k n).map fun k =>
        (partField k (partPayload data.length (partsOf data) k).length,
          Ptr.of (partPayload data.length (partsOf data) k)) := by
  induction n generalizing k with
  | zero => rfl
  | succ n ih =>
    rw [partRecords, appendPart_eq (by omega), List.range'_succ, List.map_cons]
    dsimp only
    rw [ih (k + 1) (by omega)]

theorem partRecords_parse {data : List UInt8} (hlen : dataMax < data.length)
    (hmax : data.length ≤ chainDataMax) {id : UInt16} {seq : UInt32} {k : ℕ}
    (hk : k < chainParts data.length) :
    parseRecord (encodeRecord id (partField k (partPayload data.length (partsOf data) k).length) seq
      (Ptr.of (partPayload data.length (partsOf data) k))) ≠ none := by
  have hcount := chainParts_bounds data.length
  simp only [chainDataMax] at hmax
  have hsize := (size_payload hlen hk).2
  obtain ⟨hpart, -, hplen⟩ := partField_spec (by omega : k < 32) hsize
  rw [parseRecord_encode (by rw [hplen]; exact hsize) fun h => by rw [hpart] at h; cases h]
  simp

variable {φ : Type} {ops : FlashOps φ} (hs : Sound ops) {w : World φ}
include hs

theorem ensureSpace_spec (hinv : Inv ops w) (n : ℕ) :
    Inv ops (ensureSpace ops n w).2 ∧ SameValues ops w (ensureSpace ops n w).2 ∧
      ((ensureSpace ops n w).1 = true →
        (ensureSpace ops n w).2.j.cursor + n ≤ (ensureSpace ops n w).2.j.slots ∧
        (ensureSpace ops n w).2.j.maxSeq.toNat ≤ seqCeiling.toNat) ∧
      (Ready ops → w.j.mounted = true → w.j.partnerClean = true → w.j.poolOverflow = false →
        w.j.maxSeq.toNat + maxBlocks + 1 < seqCeiling.toNat →
        liveRecords w.j.table + n ≤ w.j.slots → (ensureSpace ops n w).1 = true ∧
          (ensureSpace ops n w).2.j.maxSeq.toNat ≤ w.j.maxSeq.toNat + maxBlocks + 1) := by
  unfold ensureSpace
  by_cases hceil : seqCeiling ≤ w.j.maxSeq
  · rw [if_pos hceil]
    refine ⟨hinv, .refl w, fun h => (by cases h), fun _ _ _ _ hseq _ => ?_⟩
    have := UInt32.le_iff_toNat_le.mp hceil
    omega
  · rw [if_neg hceil]
    have hbelow : w.j.maxSeq.toNat ≤ seqCeiling.toNat := by
      by_contra hcon
      exact hceil (UInt32.le_iff_toNat_le.mpr (by omega))
    by_cases hfull : w.j.slots < w.j.cursor + n
    · rw [if_pos hfull, if_neg (by rw [hinv.idle]; decide)]
      by_cases hclean : w.j.partnerClean = true
      · rw [if_neg (by simp [hclean])]
        have hspec := compactInto_spec hs hinv (hinv.partner hclean)
        have hcompact : compact ops w = if ¬w.j.mounted ∨ w.j.compacting then (false, w)
            else if w.j.poolOverflow then (false, w)
            else if w.j.slots < liveRecords w.j.table then (false, w) else compactInto ops w := by
          unfold compact
          simp only [hclean, if_true]
        by_cases hrefused : (¬w.j.mounted = true ∨ w.j.compacting = true) ∨
            w.j.poolOverflow = true ∨ w.j.slots < liveRecords w.j.table
        · have hfalse : compact ops w = (false, w) := by
            rw [hcompact]
            rcases hrefused with h | h | h
            · rw [if_pos h]
            · simp [h]
            · simp [h]
          rw [hfalse]
          refine ⟨hinv, .refl w, fun h => (by simp at h), fun _ hm _ ho _ hl => ?_⟩
          rcases hrefused with (h | h) | h | h
          · exact absurd hm h
          · rw [hinv.idle] at h
            cases h
          · rw [ho] at h
            cases h
          · omega
        · push Not at hrefused
          obtain ⟨⟨hm, hcp⟩, ho, hl⟩ := hrefused
          have heq : compact ops w = compactInto ops w := by
            rw [hcompact, if_neg (by simp [hm, hcp]), if_neg ho, if_neg (by omega)]
          rw [heq]
          generalize compactInto ops w = r at hspec ⊢
          obtain ⟨ok, w'⟩ := r
          obtain ⟨h1, h2, h3, hlim, h4⟩ := hspec
          dsimp only at h1 h2 h3 hlim h4 ⊢
          cases ok with
          | false =>
            refine ⟨h1, h2, fun h => (by simp at h), fun hr _ _ _ hseq hlt => ?_⟩
            obtain ⟨h, -⟩ := h4 hr (by omega) (by omega)
            cases h
          | true =>
            have hcur := h3 rfl
            rw [if_neg (by decide)]
            by_cases hroom : w'.j.slots < w'.j.cursor + n
            · rw [if_pos hroom]
              refine ⟨h1, h2, fun h => (by cases h), fun hr _ _ _ hseq hlt => ?_⟩
              have := h2.slots
              omega
            · rw [if_neg hroom]
              refine ⟨h1, h2, fun _ => (by dsimp only; omega), fun hr _ _ _ hseq hlt => ⟨rfl, ?_⟩⟩
              exact (h4 hr (by omega) (by omega)).2
      · rw [if_pos (by simp [hclean])]
        exact ⟨hinv, .refl w, fun h => (by cases h), fun _ _ h => absurd h hclean⟩
    · rw [if_neg hfull]
      exact ⟨hinv, .refl w, fun _ => (by dsimp only; omega),
        fun _ _ _ _ _ _ => ⟨rfl, by dsimp only; omega⟩⟩

omit hs in
/-- Row `i` holds the bytes `data` of block `id`. -/
structure Value (ops : FlashOps φ) (w : World φ) (i : Fin maxBlocks) (id : UInt16)
    (data : List UInt8) : Prop where
  present : (w.j.table i).present = true
  id : (w.j.table i).id = id
  len : (w.j.table i).len = data.length
  chained : (w.j.table i).chained = decide (dataMax < data.length)
  plain : (w.j.table i).chained = false → (w.j.table i).data = data
  stored : (w.j.table i).chained = true → ∃ parts,
    Stored ops w.j.slots w.flash (w.j.table i) parts ∧ parts.flatten = data

omit hs in
/-- A row keeps its bytes where every row keeps its value. -/
theorem Value.same {w' : World φ} {i : Fin maxBlocks} {id : UInt16} {data : List UInt8}
    (h : Value ops w i id data) (hsame : SameValues ops w w') : Value ops w' i id data := by
  obtain ⟨h1, h2, h3, h4, h5⟩ := hsame.row i
  refine ⟨h1.trans h.present, h2.trans h.id, h4.trans h.len, h3.trans h.chained, fun hc => ?_,
    fun hc => ?_⟩
  · exact h5.trans (h.plain (h3 ▸ hc))
  · have hc' : (w.j.table i).chained = true := h3 ▸ hc
    obtain ⟨parts, hst, hdata⟩ := h.stored hc'
    exact ⟨parts, hsame.stored i h.present hc' parts hst, hdata⟩

omit hs in
/-- The journal `w'` holds `data` for `block`, and for every other row what `w` holds. -/
structure Written (ops : FlashOps φ) (w w' : World φ) (block : UInt16) (data : List UInt8)
    (i : Fin maxBlocks) : Prop where
  row : slotFor w.j.table block = some i
  value : Value ops w' i block data
  slots : w'.j.slots = w.j.slots
  mounted : w'.j.mounted = w.j.mounted
  others : ∀ j ≠ i, ((w'.j.table j).present = (w.j.table j).present ∧
    (w'.j.table j).records = (w.j.table j).records ∧ (w'.j.table j).id = (w.j.table j).id) ∧
      ∀ id d, Value ops w j id d → Value ops w' j id d
  bounded : Torn ops → Bounded ops w → Bounded ops w'
  latest : dataMax < data.length → Torn ops → Bounded ops w → ∃ parts,
    Latest ops w'.j.slots w'.flash (w'.j.table i) parts ∧ parts.flatten = data

omit hs in
/-- The row that a successful append writes. -/
theorem written_of_update {w₀ w₁ w' : World φ} {block : UInt16} {data : List UInt8}
    {i : Fin maxBlocks} {e : Entry} (hinv : Inv ops w) (hsame : SameValues ops w w₀)
    (happ : Appended ops w₀ w₁) (hrow : slotFor w₀.j.table block = some i)
    (hw' : w'.flash = w₁.flash) (hj : w'.j = { w₁.j with table := Function.update w₁.j.table i e })
    (hval : Value ops w' i block data) (hid : block ≠ markerBlock ∧ block ≠ idReserved)
    (hinv₁ : Inv ops w₁) (hlatest : dataMax < data.length → Torn ops → Bounded ops w → ∃ parts,
      Latest ops w'.j.slots w'.flash (w'.j.table i) parts ∧ parts.flatten = data) :
    Inv ops w' ∧ Written ops w w' block data i := by
  have hsame' := hsame.trans happ.sameValues
  have htable : ∀ j ≠ i, w'.j.table j = w₁.j.table j := by
    intro j hne
    rw [hj]
    exact Function.update_of_ne hne _ _
  have hslots : w'.j.slots = w₁.j.slots := by rw [hj]
  have hback : ∀ j, (w'.j.table j).present → Backed ops w'.j.slots w'.flash (w'.j.table j) := by
    intro j hp
    by_cases hji : j = i
    · subst hji
      unfold Backed
      by_cases hc : (w'.j.table j).chained = true
      · rw [if_pos hc]
        obtain ⟨parts, hst, -⟩ := hval.stored hc
        exact ⟨parts, hst⟩
      · rw [if_neg hc, hval.len, hval.id]
        rw [hval.chained] at hc
        exact ⟨by simpa using hc, hid⟩
    · rw [htable j hji] at hp ⊢
      rw [hslots, hw']
      exact hsame'.backed hinv.backed j hp
  refine ⟨⟨hback, ?_, ?_, ?_, by rw [hj]; exact hinv₁.idle⟩, ?_, hval, hslots.trans hsame'.slots,
    ?_, ?_, ?_, hlatest⟩
  · rw [hj, hw']
    exact hinv₁.tail
  · rw [hj, hw']
    exact hinv₁.partner
  · rw [hj]
    exact hinv₁.pending
  · rw [← hrow]
    exact (slotFor_congr block fun j => ⟨(hsame.row j).1, (hsame.row j).2.1⟩).symm
  · rw [hj]
    exact hsame'.mounted
  · intro j hne
    obtain ⟨h1, h2, h3, h4, h5⟩ := hsame'.row j
    refine ⟨?_, fun id d hv => ?_⟩
    · rw [htable j hne]
      exact ⟨h1, by rw [Entry.records, Entry.records, h3, h4], h2⟩
    · have hv' := hv.same hsame'
      refine ⟨?_, ?_, ?_, ?_, ?_, ?_⟩
      · rw [htable j hne]
        exact hv'.present
      · rw [htable j hne]
        exact hv'.id
      · rw [htable j hne]
        exact hv'.len
      · rw [htable j hne]
        exact hv'.chained
      · rw [htable j hne]
        exact hv'.plain
      · rw [htable j hne, hslots, hw']
        exact hv'.stored
  · intro ht hb
    have := hsame'.bounded ht hb
    unfold Bounded at this ⊢
    rw [hslots, hw', hj]
    exact this

omit hs in
theorem Inv.appended {w' : World φ} (hinv : Inv ops w) (h : Appended ops w w') : Inv ops w' := by
  refine ⟨h.sameValues.backed hinv.backed, h.tail hinv.tail, fun hc k hk => ?_, fun hc => ?_,
    h.idle.trans hinv.idle⟩
  · rw [h.active, h.blank _ _ (.inl (other_ne _))]
    exact hinv.partner (h.partnerClean ▸ hc) k (h.slots ▸ hk)
  · rw [h.fields]
    exact hinv.pending (h.partnerClean ▸ hc)

omit hs in
theorem Inv.dirtied (hinv : Inv ops w) : Inv ops w.dirtied :=
  ⟨hinv.backed, hinv.tail, hinv.partner, hinv.pending, hinv.idle⟩

omit hs in
theorem SameValues.dirtied {w' : World φ} (h : SameValues ops w w') : SameValues ops w w'.dirtied :=
  ⟨h.slots, h.mounted, h.overflow, h.row, h.stored, h.bounded⟩

omit hs in
theorem Inv.nextSeq (hinv : Inv ops w) : Inv ops w.nextSeq :=
  ⟨hinv.backed, hinv.tail, hinv.partner, hinv.pending, hinv.idle⟩

omit hs in
theorem SameValues.nextSeq {w' : World φ} (h : SameValues ops w w')
    (hlim : w'.j.maxSeq.toNat ≤ seqCeiling.toNat) : SameValues ops w w'.nextSeq :=
  ⟨h.slots, h.mounted, h.overflow, h.row, h.stored,
    fun ht hb => bounded_nextSeq hlim (h.bounded ht hb)⟩

/-- The records of a value under a sequence number. -/
def programValue (ops : FlashOps φ) (block : UInt16) (data : List UInt8) (seq : UInt32)
    (w : World φ) : Bool × World φ :=
  if dataMax < data.length then
    programParts ops block seq
      (partRecords data (chainParts data.length) (chainParts data.length) 0 0) w
  else programSlot ops w (encodeRecord block (UInt16.ofNat data.length) seq (Ptr.of data))

/-- The records of a value, its slots being free. -/
theorem programValue_spec {block : UInt16} {data : List UInt8} {seq : UInt32}
    (hlast : seq = w.j.maxSeq) (hid : block ≠ markerBlock ∧ block ≠ idReserved)
    (hmax : data.length ≤ chainDataMax) (ht : TailBlank ops w)
    (hroom : w.j.cursor + recordsFor data.length ≤ w.j.slots) :
    Appended ops w (programValue ops block data seq w).2 ∧
    ((programValue ops block data seq w).1 = true → dataMax < data.length →
      IsChain (ops.slot (programValue ops block data seq w).2.flash w.j.active) w.j.cursor block seq
        data.length (partsOf data) ∧
      (∀ k < chainParts data.length, ops.slotBlank (programValue ops block data seq w).2.flash
        w.j.active (w.j.cursor + k) = false) ∧
      (programValue ops block data seq w).2.j.cursor = w.j.cursor + chainParts data.length) ∧
    (Ready ops → (programValue ops block data seq w).1 = true) := by
  unfold programValue
  by_cases hlong : dataMax < data.length
  · simp only [hlong, if_true]
    have hrec : recordsFor data.length = chainParts data.length := if_neg (Nat.not_le.mpr hlong)
    have hl := partRecords_eq data (chainParts data.length) 0 (Nat.zero_add _)
    have hsrc : srcAt data.length 0 = 0 := rfl
    rw [hsrc] at hl
    rw [hl]
    have hspec := programParts_spec hs (w := w) block seq
      ((List.range' 0 (chainParts data.length)).map fun k =>
        (partField k (partPayload data.length (partsOf data) k).length,
          Ptr.of (partPayload data.length (partsOf data) k))) hlast ?_ ht (by simpa [hrec] using hroom)
    · obtain ⟨happ, -, -, hok, hready⟩ := hspec
      refine ⟨happ, fun h _ => ?_, hready⟩
      obtain ⟨hend, hall⟩ := hok h
      have hall' := fun k (hk : k < chainParts data.length) => hall k (by simpa using hk)
      simp only [List.getElem_map, List.getElem_range', Nat.zero_add, Nat.one_mul] at hall'
      exact ⟨isChain_append hid ⟨hlong, hmax⟩ fun k hk => (hall' k hk).1,
        fun k hk => (hall' k hk).2, by simpa using hend⟩
    · intro x hx
      obtain ⟨k, hk, rfl⟩ := List.mem_map.mp hx
      have hk' := List.mem_range'.mp hk
      exact partRecords_parse hlong hmax (by omega)
  · simp only [hlong, if_false]
    have hrec : recordsFor data.length = 1 := if_pos (Nat.not_lt.mp hlong)
    obtain ⟨happ, -, -, hready⟩ := programSlot_spec hs (p := encodeRecord block
      (UInt16.ofNat data.length) seq (Ptr.of data)) (fun v hv => (encodeRecord_seq hv).trans hlast) (ht w.j.cursor (Nat.le_refl _) (by omega))
    exact ⟨happ, fun _ h => h.elim, hready⟩

omit hs in
theorem nparts_eq (data : List UInt8) :
    (if decide (dataMax < data.length) = true then chainParts data.length else 1) =
      recordsFor data.length := by
  by_cases h : dataMax < data.length
  · simp [h, recordsFor, Nat.not_le.mpr h]
  · simp [h, recordsFor, Nat.not_lt.mp h]

omit hs in
/-- What `append` programs are the records of the value. -/
theorem append_records (block : UInt16) (data : List UInt8) (seq : UInt32) (w : World φ) :
    (if decide (dataMax < data.length) = true then
        programParts ops block seq
          (partRecords data (recordsFor data.length) (recordsFor data.length) 0 0) w
      else programSlot ops w (encodeRecord block (UInt16.ofNat data.length) seq (Ptr.of data))) =
      programValue ops block data seq w := by
  unfold programValue
  by_cases h : dataMax < data.length
  · simp [h, recordsFor, Nat.not_le.mpr h]
  · simp [h]

/-- A new value: what was in the journal stays there, and a success leaves the value in its row. -/
theorem append_spec (hinv : Inv ops w) (block : UInt16) (data : List UInt8)
    (hid : block ≠ markerBlock ∧ block ≠ idReserved) (hmax : data.length ≤ chainDataMax) :
    Inv ops (append ops block data w).2 ∧
      ((append ops block data w).1 = false → SameValues ops w (append ops block data w).2) ∧
      ((append ops block data w).1 = true →
        ∃ i, Written ops w (append ops block data w).2 block data i) ∧
      (Ready ops → w.j.mounted = true → w.j.partnerClean = true → w.j.poolOverflow = false →
        w.j.maxSeq.toNat + maxBlocks + 1 < seqCeiling.toNat →
        liveRecords w.j.table + recordsFor data.length ≤ w.j.slots →
        (slotFor w.j.table block).isSome → (append ops block data w).1 = true) := by
  have hspace := ensureSpace_spec hs hinv (recordsFor data.length)
  unfold append
  simp only [nparts_eq, append_records]
  generalize ensureSpace ops (recordsFor data.length) w = r at hspace ⊢
  obtain ⟨ok, w₀⟩ := r
  obtain ⟨hinv₀, hsame, hroom, hspaced⟩ := hspace
  dsimp only at hinv₀ hsame hroom hspaced ⊢
  cases ok with
  | false =>
    refine ⟨hinv₀, fun _ => hsame, fun h => (by simp at h), fun hr hm hp ho hseq hl _ => ?_⟩
    obtain ⟨h, -⟩ := hspaced hr hm hp ho hseq hl
    cases h
  | true =>
    rw [if_neg (by decide)]
    have hslot : slotFor w₀.j.table block = slotFor w.j.table block :=
      slotFor_congr block fun j => ⟨(hsame.row j).1, (hsame.row j).2.1⟩
    cases hrow : slotFor w₀.j.table block with
    | none =>
      refine ⟨hinv₀, fun _ => hsame, fun h => (by cases h), fun _ _ _ _ _ _ h => ?_⟩
      rw [← hslot, hrow] at h
      cases h
    | some i =>
      dsimp only
      obtain ⟨hroom, hlim⟩ := hroom rfl
      have hsame₁ : SameValues ops w w₀.dirtied.nextSeq := hsame.dirtied.nextSeq hlim
      have hinv₁ : Inv ops w₀.dirtied.nextSeq := hinv₀.dirtied.nextSeq
      have hprog := programValue_spec hs (w := w₀.dirtied.nextSeq) rfl hid hmax hinv₁.tail hroom
      generalize programValue ops block data w₀.dirtied.nextSeq.j.maxSeq w₀.dirtied.nextSeq = r
        at hprog ⊢
      obtain ⟨ok, w₂⟩ := r
      obtain ⟨happ, hstored, hready⟩ := hprog
      dsimp only at happ hstored hready ⊢
      have hinv₂ := hinv₁.appended happ
      cases ok with
      | false =>
        refine ⟨hinv₂, fun _ => hsame₁.trans happ.sameValues, fun h => (by simp at h),
          fun hr _ _ _ _ _ _ => ?_⟩
        have h := hready hr
        cases h
      | true =>
        rw [if_neg (by decide)]
        obtain ⟨e, he⟩ : ∃ e, e = Entry.mk true block w₂.j.active (decide (dataMax < data.length))
            data.length w₀.dirtied.nextSeq.j.maxSeq
            (if decide (dataMax < data.length) = true then w₀.j.cursor else (w₂.j.table i).refOff)
            (if decide (dataMax < data.length) = true then (w₂.j.table i).data else data) := ⟨_, rfl⟩
        rw [← he]
        have hact : w₂.j.active = w₀.dirtied.nextSeq.j.active := happ.active
        have hstored : dataMax < data.length → Stored ops w₂.j.slots w₂.flash e (partsOf data) ∧
            w₂.j.cursor = e.refOff + (partsOf data).length ∧ e.refOff = w₀.j.cursor := by
          intro hlong
          obtain ⟨hisc, hblank, hend⟩ := hstored rfl hlong
          have href : e.refOff = w₀.j.cursor := by
            rw [he]
            exact if_pos (by simpa using hlong)
          have hrec : recordsFor data.length = chainParts data.length :=
            if_neg (Nat.not_le.mpr hlong)
          rw [hrec] at hroom
          refine ⟨⟨?_, ?_, ?_⟩, by rw [href, length_partsOf]; exact hend, href⟩
          · rw [href, he, hact]
            exact hisc
          · rw [href, length_partsOf, happ.slots]
            exact hroom
          · rw [href, length_partsOf, he, hact]
            exact hblank
        have hlatest : dataMax < data.length → Torn ops → Bounded ops w →
            Latest ops w₂.j.slots w₂.flash e (partsOf data) := by
          intro hlong ht hb
          obtain ⟨hst, hend, href⟩ := hstored hlong
          refine happ.latest hst (by rw [he]; exact hact) href hend fun s k hk hnb v hv => ?_
          have hle := hsame.bounded ht hb s k hk hnb v hv
          have hseq : e.seq = w₀.dirtied.nextSeq.j.maxSeq := by rw [he]
          rw [UInt32.lt_iff_toNat_lt, hseq, toNat_nextSeq (w := w₀.dirtied) hlim]
          exact Nat.lt_succ_of_le hle
        have hval : Value ops (w₂.tabled (Function.update w₂.j.table i e)) i block data := by
          refine ⟨?_, ?_, ?_, ?_, fun hc => ?_, fun hc => ?_⟩
          · simp [he]
          · simp [he]
          · simp [he]
          · simp [he]
          · simp only [tabled_table, Function.update_self, he] at hc ⊢
            rw [if_neg (by simpa using hc)]
          · simp only [tabled_table, Function.update_self] at hc ⊢
            rw [he] at hc
            exact ⟨partsOf data, (hstored (of_decide_eq_true hc)).1, flatten_partsOf⟩
        have hwritten : Inv ops (w₂.tabled (Function.update w₂.j.table i e)) ∧
            Written ops w (w₂.tabled (Function.update w₂.j.table i e)) block data i := by
          refine written_of_update hinv hsame₁ happ hrow rfl rfl hval hid hinv₂
            fun hlong ht hb => ?_
          simp only [tabled_table, Function.update_self]
          exact ⟨partsOf data, hlatest hlong ht hb, flatten_partsOf⟩
        obtain ⟨h1, h2⟩ := hwritten
        exact ⟨h1, fun h => (by cases h), fun _ => ⟨i, h2⟩, fun _ _ _ _ _ _ _ => rfl⟩

end BloblyEmb.Nvm
